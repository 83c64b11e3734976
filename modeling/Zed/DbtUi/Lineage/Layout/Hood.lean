import Zed.DbtUi.Lineage.Layout.Levels
import Zed.Graph.Budget

namespace zed.dbt_ui.lineage

open graph Relation

/-- An edge in the direction of a search. -/
def SqliteGraph.Toward (graph : SqliteGraph) (upstream : Bool) (a b : Int) : Prop :=
  if upstream then graph.Edge b a else graph.Edge a b

theorem SqliteGraph.mem_linked {graph : SqliteGraph} {upstream : Bool} {a b : Int} :
    (b ∈ if upstream then graph.incoming a else graph.outgoing a) ↔ graph.Toward upstream a b := by
  unfold Toward
  cases upstream with
  | true => exact mem_incoming
  | false => exact mem_outgoing

section

variable {graph : SqliteGraph} {max_depth : Int} {max_nodes : Nat} {expansion_ids : List Int} {upstream : Bool}

/-- What linking some nodes adds: each that is new, once, with the budget that is left. -/
structure Links (budget : Int) (linked : List Int) (before after : Levels × List Visit) : Prop where
  ids : ∀ id, id ∈ after.1.ids ↔ id ∈ before.1.ids ∨ id ∈ linked
  keeps : ∀ node ∈ before.2, node ∈ after.2
  visits : ∀ node ∈ after.2, node ∈ before.2 ∨
    (node.1 ∈ linked ∧ node.1 ∉ before.1.ids ∧ node.2.1 = budget - 1)
  news : ∀ id ∈ linked, id ∉ before.1.ids → ∃ node ∈ after.2, node.1 = id

theorem link_length (budget level : Int) (linked : List Int) (found : Levels × List Visit) :
    found.1.ids.length ≤ (link max_nodes upstream budget level linked found).1.ids.length := by
  induction linked generalizing found with
  | nil => exact le_rfl
  | cons id linked ih =>
    obtain ⟨level_of, next⟩ := found
    rw [link]
    split
    · exact le_rfl
    split
    · exact ih _
    · exact (Nat.le_succ level_of.ids.length).trans (ih (level_of.add id _ _, _))

theorem link_links (budget level : Int) (linked : List Int) {found : Levels × List Visit}
    (hroom : (link max_nodes upstream budget level linked found).1.ids.length < max_nodes) :
    Links budget linked found (link max_nodes upstream budget level linked found) := by
  induction linked generalizing found with
  | nil => exact ⟨by simp [link], fun _ h => h, fun _ h => .inl h, by simp⟩
  | cons id linked ih =>
    obtain ⟨level_of, next⟩ := found
    rw [link] at hroom ⊢
    split at hroom
    · rename_i hfull
      exact absurd hroom (Nat.not_lt.mpr hfull)
    rename_i hfree
    rw [if_neg hfree]
    split at hroom
    · rename_i hmem
      rw [dif_pos hmem]
      obtain ⟨hids, hkeeps, hvisits, hnews⟩ := ih hroom
      refine ⟨fun other => ?_, hkeeps, fun node hnode => ?_, fun other hother hnew => ?_⟩
      · rw [hids, List.mem_cons]
        constructor
        · exact Or.imp_right .inr
        · rintro (hold | rfl | hlater)
          · exact .inl hold
          · exact .inl hmem
          · exact .inr hlater
      · exact (hvisits node hnode).imp_right (And.imp_left (List.mem_cons_of_mem id))
      · rcases List.mem_cons.mp hother with rfl | hlater
        · exact absurd hmem hnew
        · exact hnews other hlater hnew
    · rename_i hmem
      rw [dif_neg hmem]
      generalize hchild : (if upstream then level - 1 else level + 1) = child_level at hroom ⊢
      obtain ⟨hids, hkeeps, hvisits, hnews⟩ := ih hroom
      have hnext : (id, budget - 1, child_level) ∈ next ++ [(id, budget - 1, child_level)] :=
        List.mem_append_right next List.mem_cons_self
      refine ⟨fun other => ?_, fun node hnode => hkeeps node (List.mem_append_left _ hnode), fun node hnode => ?_,
        fun other hother hnew => ?_⟩
      · rw [hids, List.mem_cons, Levels.add, List.mem_cons]
        tauto
      · rcases hvisits node hnode with hold | ⟨hlinked, hnew, hbudget⟩
        · rcases List.mem_append.mp hold with hold | hself
          · exact .inl hold
          · rw [List.mem_singleton.mp hself]
            exact .inr ⟨List.mem_cons_self, hmem, rfl⟩
        · exact .inr ⟨List.mem_cons_of_mem id hlinked, fun hold => hnew (List.mem_cons_of_mem id hold), hbudget⟩
      · by_cases hsame : other = id
        · exact ⟨_, hkeeps _ hnext, hsame.symm⟩
        · have hlater := (List.mem_cons.mp hother).resolve_left hsame
          exact hnews other hlater fun hold => hnew ((List.mem_cons.mp hold).resolve_left hsame)

/-- What visiting some nodes adds: each new neighbour of one with budget, once, with what is
    left of the budget. -/
structure Visits (graph : SqliteGraph) (max_depth : Int) (expansion_ids : List Int) (upstream : Bool)
    (level_of : Levels) (frontier : List Visit) (found : Levels × List Visit) : Prop where
  ids : ∀ id, id ∈ found.1.ids ↔ id ∈ level_of.ids ∨ ∃ node ∈ frontier,
    0 < refill (· ∈ expansion_ids) max_depth node.1 node.2.1 ∧ graph.Toward upstream node.1 id
  visits : ∀ new ∈ found.2, new.1 ∉ level_of.ids ∧ ∃ node ∈ frontier,
    0 < refill (· ∈ expansion_ids) max_depth node.1 node.2.1 ∧ graph.Toward upstream node.1 new.1 ∧
      new.2.1 = refill (· ∈ expansion_ids) max_depth node.1 node.2.1 - 1
  news : ∀ id ∈ found.1.ids, id ∉ level_of.ids → ∃ new ∈ found.2, new.1 = id

theorem visit_eq (found : Levels × List Visit) (node : Visit) :
    visit graph max_depth max_nodes expansion_ids upstream found node =
      if refill (· ∈ expansion_ids) max_depth node.1 node.2.1 ≤ 0 then found
      else link max_nodes upstream (refill (· ∈ expansion_ids) max_depth node.1 node.2.1) node.2.2
        (if upstream then graph.incoming node.1 else graph.outgoing node.1) found := rfl

theorem visit_length (found : Levels × List Visit) (node : Visit) :
    found.1.ids.length ≤ (visit graph max_depth max_nodes expansion_ids upstream found node).1.ids.length := by
  rw [visit_eq]
  split
  · exact le_rfl
  · exact link_length _ _ _ _

theorem foldl_visit_length (frontier : List Visit) (found : Levels × List Visit) :
    found.1.ids.length ≤
      (frontier.foldl (visit graph max_depth max_nodes expansion_ids upstream) found).1.ids.length := by
  induction frontier generalizing found with
  | nil => exact le_rfl
  | cons node frontier ih => exact (visit_length found node).trans (ih _)

theorem visit_visits {level_of : Levels} {visited : List Visit} {found : Levels × List Visit} {node : Visit}
    (h : Visits graph max_depth expansion_ids upstream level_of visited found)
    (hroom : (visit graph max_depth max_nodes expansion_ids upstream found node).1.ids.length < max_nodes) :
    Visits graph max_depth expansion_ids upstream level_of (visited ++ [node])
      (visit graph max_depth max_nodes expansion_ids upstream found node) := by
  have hmore : ∀ {good : Visit → Prop}, (∃ old ∈ visited, good old) → ∃ old ∈ visited ++ [node], good old :=
    fun ⟨old, hmem, hgood⟩ => ⟨old, List.mem_append_left _ hmem, hgood⟩
  have hlast : node ∈ visited ++ [node] := List.mem_append_right _ List.mem_cons_self
  rw [visit_eq] at hroom ⊢
  split at hroom
  · rename_i hspent
    rw [if_pos hspent]
    refine ⟨fun id => ?_, fun new hnew => ⟨(h.visits new hnew).1, hmore (h.visits new hnew).2⟩, h.news⟩
    rw [h.ids]
    refine or_congr_right ⟨hmore, ?_⟩
    rintro ⟨old, hmem, hpos, hedge⟩
    rcases List.mem_append.mp hmem with hmem | hmem
    · exact ⟨old, hmem, hpos, hedge⟩
    · rw [List.mem_singleton.mp hmem] at hpos
      exact absurd hpos (not_lt_of_ge hspent)
  · rename_i hleft
    rw [if_neg hleft]
    have hlinks := link_links _ _ _ hroom
    refine ⟨fun id => ?_, fun new hnew => ?_, fun id hid hnew => ?_⟩
    · rw [hlinks.ids, h.ids, SqliteGraph.mem_linked, or_assoc]
      refine or_congr_right ⟨?_, ?_⟩
      · rintro (hold | hedge)
        · exact hmore hold
        · exact ⟨node, hlast, not_le.mp hleft, hedge⟩
      · rintro ⟨old, hmem, hpos, hedge⟩
        rcases List.mem_append.mp hmem with hmem | hmem
        · exact .inl ⟨old, hmem, hpos, hedge⟩
        · rw [List.mem_singleton.mp hmem] at hedge
          exact .inr hedge
    · rcases hlinks.visits new hnew with hold | ⟨hlinked, hfresh, hbudget⟩
      · exact ⟨(h.visits new hold).1, hmore (h.visits new hold).2⟩
      · exact ⟨fun hold => hfresh ((h.ids new.1).mpr (.inl hold)), node, hlast, not_le.mp hleft,
          SqliteGraph.mem_linked.mp hlinked, hbudget⟩
    · by_cases hold : id ∈ found.1.ids
      · obtain ⟨new, hmem, heq⟩ := h.news id hold hnew
        exact ⟨new, hlinks.keeps new hmem, heq⟩
      · exact hlinks.news id (((hlinks.ids id).mp hid).resolve_left hold) hold

theorem visit_all_visits {level_of : Levels} {frontier : List Visit}
    (hroom : (visit_all graph max_depth max_nodes expansion_ids upstream level_of frontier).1.ids.length <
      max_nodes) :
    Visits graph max_depth expansion_ids upstream level_of frontier
      (visit_all graph max_depth max_nodes expansion_ids upstream level_of frontier) := by
  have hfold (visited frontier : List Visit) (found : Levels × List Visit)
      (h : Visits graph max_depth expansion_ids upstream level_of visited found)
      (hroom : (frontier.foldl (visit graph max_depth max_nodes expansion_ids upstream) found).1.ids.length <
        max_nodes) :
      Visits graph max_depth expansion_ids upstream level_of (visited ++ frontier)
        (frontier.foldl (visit graph max_depth max_nodes expansion_ids upstream) found) := by
    induction frontier generalizing visited found with
    | nil =>
      rw [List.append_nil]
      exact h
    | cons node frontier ih =>
      have hstep := visit_visits h ((foldl_visit_length frontier _).trans_lt hroom)
      rw [List.append_cons visited node frontier]
      exact ih _ _ hstep hroom
  exact hfold [] frontier (level_of, []) ⟨by simp, by simp, fun id hid hnew => absurd hid hnew⟩ hroom

theorem grow_length (level_of : Levels) (frontier : List Visit) :
    level_of.ids.length ≤ (grow graph max_depth max_nodes expansion_ids upstream level_of frontier).ids.length := by
  fun_induction grow graph max_depth max_nodes expansion_ids upstream level_of frontier with
  | case1 => exact le_rfl
  | case2 level_of frontier hne found ih => exact (foldl_visit_length frontier (level_of, [])).trans ih

variable {center : Int} {base : List Int} {k : Nat} {level_of : Levels} {frontier : List Visit}

/-- Before a round of a search: what is fewer steps away is there, and the frontier is what
    is just so many steps away. -/
structure Round (graph : SqliteGraph) (max_depth : Int) (expansion_ids : List Int) (upstream : Bool) (center : Int)
    (base : List Int) (k : Nat) (level_of : Levels) (frontier : List Visit) : Prop where
  ids : ∀ id, id ∈ level_of.ids ↔ id ∈ base ∨
    ∃ j ≤ k, Fewest (graph.Toward upstream) (· ∈ expansion_ids) max_depth center j id
  visits : ∀ node ∈ frontier, Fewest (graph.Toward upstream) (· ∈ expansion_ids) max_depth center k node.1 ∧
    Arrives (graph.Toward upstream) (· ∈ expansion_ids) max_depth center k node.1 node.2.1
  complete : ∀ id, Fewest (graph.Toward upstream) (· ∈ expansion_ids) max_depth center k id →
    ∃ node ∈ frontier, node.1 = id

theorem fewest_center : Fewest (graph.Toward upstream) (· ∈ expansion_ids) max_depth center 0 center :=
  ⟨⟨max_depth, .start⟩, fun _ _ _ => Nat.zero_le _⟩

theorem Round.start (hcenter : center ∈ level_of.ids) (level : Int) :
    Round graph max_depth expansion_ids upstream center level_of.ids 0 level_of [(center, max_depth, level)] := by
  have hzero : ∀ {id}, Fewest (graph.Toward upstream) (· ∈ expansion_ids) max_depth center 0 id → id = center := by
    intro id hfewest
    obtain ⟨budget, harrives⟩ := hfewest.arrives
    cases harrives
    rfl
  refine ⟨fun id => ⟨.inl, ?_⟩, ?_, fun id hid => ⟨_, List.mem_cons_self, (hzero hid).symm⟩⟩
  · rintro (hmem | ⟨j, hj, hfewest⟩)
    · exact hmem
    · rw [Nat.le_zero.mp hj] at hfewest
      rw [hzero hfewest]
      exact hcenter
  · intro node hnode
    rw [List.mem_singleton.mp hnode]
    exact ⟨fewest_center, .start⟩

/-- One round of a search in which no node is met again with more budget. -/
theorem Round.next {found : Levels × List Visit}
    (hround : Round graph max_depth expansion_ids upstream center base k level_of frontier)
    (hsustained : Sustained (graph.Toward upstream) (· ∈ expansion_ids) max_depth center)
    (hbase : ∀ id ∈ base, ∀ j budget,
      Arrives (graph.Toward upstream) (· ∈ expansion_ids) max_depth center j id budget → id = center)
    (hvisits : Visits graph max_depth expansion_ids upstream level_of frontier found) :
    Round graph max_depth expansion_ids upstream center base (k + 1) found.1 found.2 := by
  have hids : ∀ id, id ∈ found.1.ids ↔ id ∈ base ∨
      ∃ j ≤ k + 1, Fewest (graph.Toward upstream) (· ∈ expansion_ids) max_depth center j id := by
    intro id
    rw [hvisits.ids, hround.ids]
    constructor
    · rintro ((hold | ⟨j, hj, hfewest⟩) | ⟨node, hnode, hpos, hedge⟩)
      · exact .inl hold
      · exact .inr ⟨j, by omega, hfewest⟩
      · exact .inr (exists_fewest ((hround.visits node hnode).2.step hpos hedge))
    · rintro (hold | ⟨j, hj, hfewest⟩)
      · exact .inl (.inl hold)
      rcases Nat.lt_or_ge k j with hlater | hearlier
      · obtain rfl : j = k + 1 := by omega
        obtain ⟨u, hedge, hu, hleft⟩ := hsustained k id hfewest
        obtain ⟨node, hnode, rfl⟩ := hround.complete u hu
        exact .inr ⟨node, hnode, hleft _ (hround.visits node hnode).2, hedge⟩
      · exact .inl (.inr ⟨j, hearlier, hfewest⟩)
  refine ⟨hids, fun new hnew => ?_, fun id hfewest => ?_⟩
  · obtain ⟨hfresh, node, hnode, hpos, hedge, hbudget⟩ := hvisits.visits new hnew
    have harrives := (hround.visits node hnode).2.step hpos hedge
    rw [← hbudget] at harrives
    refine ⟨⟨⟨_, harrives⟩, fun j budget hj => ?_⟩, harrives⟩
    obtain ⟨least, hle, hleast⟩ := exists_fewest hj
    by_contra hlt
    exact hfresh ((hround.ids new.1).mpr (.inr ⟨least, by omega, hleast⟩))
  · refine hvisits.news id ((hids id).mpr (.inr ⟨k + 1, le_rfl, hfewest⟩)) fun hold => ?_
    rcases (hround.ids id).mp hold with hmem | ⟨j, hj, hj'⟩
    · obtain ⟨budget, harrives⟩ := hfewest.arrives
      rw [hbase id hmem _ _ harrives] at hfewest
      exact absurd (hfewest.unique fewest_center) (Nat.succ_ne_zero k)
    · have heq := hfewest.unique hj'
      omega

theorem grow_ids (hround : Round graph max_depth expansion_ids upstream center base k level_of frontier)
    (hsustained : Sustained (graph.Toward upstream) (· ∈ expansion_ids) max_depth center)
    (hbase : ∀ id ∈ base, ∀ j budget,
      Arrives (graph.Toward upstream) (· ∈ expansion_ids) max_depth center j id budget → id = center)
    (hroom : (grow graph max_depth max_nodes expansion_ids upstream level_of frontier).ids.length < max_nodes)
    (id : Int) :
    id ∈ (grow graph max_depth max_nodes expansion_ids upstream level_of frontier).ids ↔ id ∈ base ∨
      ∃ j budget, Arrives (graph.Toward upstream) (· ∈ expansion_ids) max_depth center j id budget := by
  fun_induction grow graph max_depth max_nodes expansion_ids upstream level_of frontier generalizing k with
  | case1 level_of =>
    have hnone : ∀ v, ¬Fewest (graph.Toward upstream) (· ∈ expansion_ids) max_depth center k v := by
      intro v hv
      obtain ⟨node, hnode, -⟩ := hround.complete v hv
      cases hnode
    rw [hround.ids]
    refine or_congr_right ⟨fun hnear => hnear.imp fun j hfewest => hfewest.2.arrives, ?_⟩
    rintro ⟨j, budget, harrives⟩
    obtain ⟨least, -, hleast⟩ := exists_fewest harrives
    refine ⟨least, ?_, hleast⟩
    by_contra hlt
    exact hsustained.none_beyond hnone (by omega) id hleast
  | case2 level_of frontier hne found =>
    rename_i ih
    exact ih (hround.next hsustained hbase (visit_all_visits ((grow_length _ _).trans_lt hroom))) hroom

end

theorem push_apart_ids (center : Int) (state : Levels × Bool) (edge : Int × Int) :
    (push_apart center state edge).1.ids = state.1.ids := by
  unfold push_apart
  dsimp only
  split
  · rfl
  · split
    · split
      · rfl
      · split <;> rfl
    · rfl

theorem relayer_ids (center : Int) (edges : List (Int × Int)) (rounds : Nat) (level_of : Levels) :
    (relayer center edges rounds level_of).ids = level_of.ids := by
  have hfold (edges : List (Int × Int)) (state : Levels × Bool) :
      (edges.foldl (push_apart center) state).1.ids = state.1.ids := by
    induction edges generalizing state with
    | nil => rfl
    | cons edge edges ih => exact (ih _).trans (push_apart_ids center state edge)
  induction rounds generalizing level_of with
  | zero => rfl
  | succ rounds ih =>
    rw [relayer]
    dsimp only
    split
    · exact (ih _).trans (hfold edges _)
    · exact hfold edges _

section

variable {graph : SqliteGraph} {max_depth : Int} {max_nodes : Nat} {expansion_ids : List Int} {center : Int}

theorem toward_reaches {upstream : Bool} {id : Int} (h : ReflTransGen (graph.Toward upstream) center id) :
    if upstream then ReflTransGen graph.Edge id center else ReflTransGen graph.Edge center id := by
  cases upstream with
  | false => exact h
  | true =>
    rw [if_pos rfl]
    induction h with
    | refl => exact .refl
    | tail _ hedge ih => exact .head hedge ih

theorem eq_center (hacyclic : Acyclic graph.Edge) {id : Int} (hup : ReflTransGen (graph.Toward true) center id)
    (hdown : ReflTransGen (graph.Toward false) center id) : id = center := by
  have hto : ReflTransGen graph.Edge id center := toward_reaches hup
  have hfrom : ReflTransGen graph.Edge center id := toward_reaches hdown
  rcases reflTransGen_iff_eq_or_transGen.mp hto with heq | hto
  · exact heq.symm
  · exact absurd (TransGen.trans_right hfrom hto) (hacyclic center)

/-- The nodes shown are those that walks upstream or downstream come to. -/
theorem bfs_levels_ids (hacyclic : Acyclic graph.Edge)
    (hsustained : ∀ upstream, Sustained (graph.Toward upstream) (· ∈ expansion_ids) max_depth center)
    (hroom : (bfs_levels graph max_depth max_nodes expansion_ids center).ids.length < max_nodes) (id : Int) :
    id ∈ (bfs_levels graph max_depth max_nodes expansion_ids center).ids ↔ ∃ upstream j budget,
      Arrives (graph.Toward upstream) (· ∈ expansion_ids) max_depth center j id budget := by
  let first : Levels := ⟨[center], List.nodup_singleton _, fun _ => 0⟩
  let above := grow graph max_depth max_nodes expansion_ids true first [(center, max_depth, 0)]
  have hbfs : bfs_levels graph max_depth max_nodes expansion_ids center =
      grow graph max_depth max_nodes expansion_ids false above [(center, max_depth, 0)] := rfl
  rw [hbfs] at hroom ⊢
  have habove : ∀ id, id ∈ above.ids ↔ id ∈ [center] ∨
      ∃ j budget, Arrives (graph.Toward true) (· ∈ expansion_ids) max_depth center j id budget := fun id =>
    grow_ids (Round.start (List.mem_singleton_self center) 0) (hsustained true)
      (fun id hid _ _ _ => List.mem_singleton.mp hid) ((grow_length _ _).trans_lt hroom) id
  have hcenter : center ∈ above.ids := (habove center).mpr (.inl (List.mem_singleton_self center))
  have hdisjoint : ∀ id ∈ above.ids, ∀ j budget,
      Arrives (graph.Toward false) (· ∈ expansion_ids) max_depth center j id budget → id = center := by
    intro id hid j budget hdown
    rcases (habove id).mp hid with hself | ⟨_, _, hup⟩
    · exact List.mem_singleton.mp hself
    · exact eq_center hacyclic hup.reaches hdown.reaches
  rw [grow_ids (Round.start hcenter 0) (hsustained false) hdisjoint hroom, habove, List.mem_singleton]
  constructor
  · rintro ((rfl | hup) | hdown)
    · exact ⟨true, 0, max_depth, .start⟩
    · exact ⟨true, hup⟩
    · exact ⟨false, hdown⟩
  · rintro ⟨upstream, h⟩
    cases upstream with
    | true => exact .inl (.inr h)
    | false => exact .inr h

/-- The nodes that a layout shows in a direction: the center, and what is linked to it that
    way. -/
def ShownToward (graph : SqliteGraph) (layering : Layering) (upstream : Bool) (id : Int) : Prop :=
  id ∈ layering.level_of.ids ∧ ReflTransGen (graph.Toward upstream) layering.center id

end

theorem SqliteGraph.outgoing_of_sorted {graph : SqliteGraph} {id : Int}
    (h : ((graph.edges.filter fun edge => edge.1 = id).map Prod.snd).Pairwise (· ≤ ·)) :
    graph.outgoing id = (graph.edges.filter fun edge => edge.1 = id).map Prod.snd :=
  List.mergeSort_of_pairwise (by simpa using h)

theorem SqliteGraph.incoming_of_sorted {graph : SqliteGraph} {id : Int}
    (h : ((graph.edges.filter fun edge => edge.2 = id).map Prod.fst).Pairwise (· ≤ ·)) :
    graph.incoming id = (graph.edges.filter fun edge => edge.2 = id).map Prod.fst :=
  List.mergeSort_of_pairwise (by simpa using h)

/-- A node that is met by way of `staged` first, then by way of `seeds`. -/
def twoWays : Loaded where
  by_name
    | "raw" => some 1
    | "staged" => some 2
    | "seeds" => some 3
    | "joined" => some 4
    | "report" => some 5
    | _ => none
  graph := ⟨[(1, 2), (1, 3), (2, 4), (3, 4), (4, 5)]⟩

section

variable {graph : SqliteGraph} {max_depth : Int} {max_nodes : Nat} {expansion_ids : List Int} {upstream : Bool}
  {level_of : Levels}

theorem grow_nil : grow graph max_depth max_nodes expansion_ids upstream level_of [] = level_of := by
  rw [grow, if_pos rfl]

theorem grow_cons (node : Visit) (frontier : List Visit) :
    grow graph max_depth max_nodes expansion_ids upstream level_of (node :: frontier) =
      grow graph max_depth max_nodes expansion_ids upstream
        (visit_all graph max_depth max_nodes expansion_ids upstream level_of (node :: frontier)).1
        (visit_all graph max_depth max_nodes expansion_ids upstream level_of (node :: frontier)).2 := by
  rw [grow, if_neg (List.cons_ne_nil node frontier)]

end

theorem twoWays_ids : (bfs_levels twoWays.graph 2 10 [3] 1).ids = [4, 3, 2, 1] := by
  have hout1 : twoWays.graph.outgoing 1 = [2, 3] := SqliteGraph.outgoing_of_sorted (by decide)
  have hout2 : twoWays.graph.outgoing 2 = [4] := SqliteGraph.outgoing_of_sorted (by decide)
  have hout3 : twoWays.graph.outgoing 3 = [4] := SqliteGraph.outgoing_of_sorted (by decide)
  have hin1 : twoWays.graph.incoming 1 = [] := SqliteGraph.incoming_of_sorted (by decide)
  let first : Levels := ⟨[1], List.nodup_singleton _, fun _ => 0⟩
  have hup : visit_all twoWays.graph 2 10 [3] true first [(1, 2, 0)] = (first, []) := by
    simp [visit_all, visit, link, hin1]
  have hbfs : bfs_levels twoWays.graph 2 10 [3] 1 = grow twoWays.graph 2 10 [3] false first [(1, 2, 0)] := by
    rw [bfs_levels, List.foldl_cons, grow_cons, hup, grow_nil]
    rfl
  obtain ⟨second, hsecond, hids⟩ : ∃ second, visit_all twoWays.graph 2 10 [3] false first [(1, 2, 0)] =
      (second, [(2, 1, 1), (3, 1, 1)]) ∧ second.ids = [3, 2, 1] := by
    refine ⟨_, Prod.ext rfl ?_, ?_⟩ <;> simp [visit_all, visit, link, hout1, Levels.add, first]
  obtain ⟨third, hthird, hids'⟩ : ∃ third, visit_all twoWays.graph 2 10 [3] false second [(2, 1, 1), (3, 1, 1)] =
      (third, [(4, 0, 2)]) ∧ third.ids = [4, 3, 2, 1] := by
    refine ⟨_, Prod.ext rfl ?_, ?_⟩ <;> simp [visit_all, visit, link, hout2, hout3, Levels.add, hids]
  have hlast : visit_all twoWays.graph 2 10 [3] false third [(4, 0, 2)] = (third, []) := by
    simp [visit_all, visit]
  rw [hbfs, grow_cons, hsecond, grow_cons, hthird, grow_cons, hlast, grow_nil, hids']

theorem acyclic_of_ascending {graph : SqliteGraph} (h : ∀ edge ∈ graph.edges, edge.1 < edge.2) :
    Acyclic graph.Edge := by
  have hpath {a b : Int} (hab : TransGen graph.Edge a b) : a < b := by
    induction hab with
    | single hedge => exact h _ hedge
    | tail _ hedge ih => exact ih.trans (h _ hedge)
  exact fun v hloop => lt_irrefl v (hpath hloop)

def pair : Loaded where
  by_name
    | "orders" => some 1
    | "report" => some 2
    | _ => none
  graph := ⟨[(1, 2)]⟩

theorem pair_ids : (bfs_levels pair.graph 1 10 [] 1).ids = [2, 1] := by
  have hout1 : pair.graph.outgoing 1 = [2] := SqliteGraph.outgoing_of_sorted (by decide)
  have hin1 : pair.graph.incoming 1 = [] := SqliteGraph.incoming_of_sorted (by decide)
  let first : Levels := ⟨[1], List.nodup_singleton _, fun _ => 0⟩
  have hup : visit_all pair.graph 1 10 [] true first [(1, 1, 0)] = (first, []) := by
    simp [visit_all, visit, link, hin1]
  have hbfs : bfs_levels pair.graph 1 10 [] 1 = grow pair.graph 1 10 [] false first [(1, 1, 0)] := by
    rw [bfs_levels, List.foldl_cons, grow_cons, hup, grow_nil]
    rfl
  obtain ⟨second, hsecond, hids⟩ : ∃ second, visit_all pair.graph 1 10 [] false first [(1, 1, 0)] =
      (second, [(2, 0, 1)]) ∧ second.ids = [2, 1] := by
    refine ⟨_, Prod.ext rfl ?_, ?_⟩ <;> simp [visit_all, visit, link, hout1, Levels.add, first]
  have hlast : visit_all pair.graph 1 10 [] false second [(2, 0, 1)] = (second, []) := by
    simp [visit_all, visit]
  rw [hbfs, grow_cons, hsecond, grow_cons, hlast, grow_nil, hids]

theorem sustained_one {center : Int} {edge : Int → Int → Prop} : Sustained edge (· ∈ ([] : List Int)) 1 center := by
  have harrives {k : Nat} {v budget : Int} (h : Arrives edge (· ∈ ([] : List Int)) 1 center k v budget) :
      (k = 0 ∧ v = center ∧ budget = 1) ∨ budget = 0 := by
    induction h with
    | start => exact .inl ⟨rfl, rfl, rfl⟩
    | step _ hpos _ ih =>
      rw [refill, if_neg List.not_mem_nil] at hpos ⊢
      rcases ih with ⟨-, -, rfl⟩ | rfl
      · exact .inr rfl
      · exact absurd hpos (lt_irrefl _)
  intro k v hfewest
  obtain ⟨budget, hv⟩ := hfewest.arrives
  cases hv with
  | step hu hpos hedge =>
    rw [refill, if_neg List.not_mem_nil] at hpos
    rcases harrives hu with ⟨rfl, rfl, -⟩ | rfl
    · refine ⟨_, hedge, ⟨⟨1, .start⟩, fun _ _ _ => Nat.zero_le _⟩, fun budget hbudget => ?_⟩
      cases hbudget
      rw [refill, if_neg List.not_mem_nil]
      exact zero_lt_one
    · exact absurd hpos (lt_irrefl _)

end zed.dbt_ui.lineage
