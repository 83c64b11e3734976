import Zed.DbtUi.Lineage.Layout
import Zed.Graph.Relaxation

namespace zed.dbt_ui.lineage

open graph Relation

def SqliteGraph.Edge (graph : SqliteGraph) (a b : Int) : Prop := (a, b) ∈ graph.edges

/-- Ancestors of the center have negative levels and descendants positive ones. -/
structure Sided (graph : SqliteGraph) (center : Int) (level_of : Levels) : Prop where
  center_mem : center ∈ level_of.ids
  center_level : level_of.level center = 0
  side : ∀ id ∈ level_of.ids, id = center ∨
    (TransGen graph.Edge id center ∧ level_of.level id < 0) ∨
    (TransGen graph.Edge center id ∧ 0 < level_of.level id)

/-- A node that is linked to the center in the direction of a search. -/
def Linked (graph : SqliteGraph) (center : Int) : Bool → Int → Prop
  | true, id => TransGen graph.Edge id center
  | false, id => TransGen graph.Edge center id

/-- A visit of the center, or of a node linked to it, with a level on that side. -/
def OnSide (graph : SqliteGraph) (center : Int) : Bool → Visit → Prop
  | true, (id, _, level) => ReflTransGen graph.Edge id center ∧ level ≤ 0
  | false, (id, _, level) => ReflTransGen graph.Edge center id ∧ 0 ≤ level

section

variable {graph : SqliteGraph} {center max_depth : Int} {max_nodes : Nat} {expansion_ids : List Int}
  {upstream : Bool}

theorem Sided.add {level_of : Levels} (h : Sided graph center level_of) {id level : Int}
    (hid : id ∉ level_of.ids)
    (hside : (TransGen graph.Edge id center ∧ level < 0) ∨ (TransGen graph.Edge center id ∧ 0 < level)) :
    Sided graph center (level_of.add id level hid) where
  center_mem := List.mem_cons_of_mem _ h.center_mem
  center_level := by
    have hne : center ≠ id := fun heq => hid (heq ▸ h.center_mem)
    exact (Function.update_of_ne hne _ _).trans h.center_level
  side := by
    intro other hother
    by_cases hne : other = id
    · subst hne
      exact Or.inr (by simpa [Levels.add] using hside)
    · have hother : other ∈ level_of.ids := (List.mem_cons.mp hother).resolve_left hne
      simpa [Levels.add, Function.update_of_ne hne] using h.side other hother

theorem link_sided (budget : Int) {level : Int} {linked : List Int} {found : Levels × List Visit}
    (hlinked : ∀ id ∈ linked, Linked graph center upstream id)
    (hlevel : if upstream then level ≤ 0 else 0 ≤ level)
    (hsided : Sided graph center found.1) (hnext : ∀ node ∈ found.2, OnSide graph center upstream node) :
    Sided graph center (link max_nodes upstream budget level linked found).1 ∧
      ∀ node ∈ (link max_nodes upstream budget level linked found).2, OnSide graph center upstream node := by
  induction linked generalizing found with
  | nil => exact ⟨hsided, hnext⟩
  | cons id linked ih =>
    have hid := hlinked id List.mem_cons_self
    have hrest : ∀ id ∈ linked, Linked graph center upstream id :=
      fun id hid => hlinked id (List.mem_cons_of_mem _ hid)
    rw [link]
    split
    · exact ⟨hsided, hnext⟩
    split
    · exact ih hrest hsided hnext
    · rename_i hnew
      cases upstream with
      | true =>
        have hchild : level - 1 < 0 := by
          rw [if_pos rfl] at hlevel
          omega
        refine ih hrest (hsided.add hnew (Or.inl ⟨hid, hchild⟩)) fun node hnode => ?_
        obtain hnode | hnode := List.mem_append.mp hnode
        · exact hnext node hnode
        · rw [List.mem_singleton.mp hnode]
          exact ⟨TransGen.to_reflTransGen hid, Int.le_of_lt hchild⟩
      | false =>
        have hchild : 0 < level + 1 := by
          rw [if_neg Bool.false_ne_true] at hlevel
          omega
        refine ih hrest (hsided.add hnew (Or.inr ⟨hid, hchild⟩)) fun node hnode => ?_
        obtain hnode | hnode := List.mem_append.mp hnode
        · exact hnext node hnode
        · rw [List.mem_singleton.mp hnode]
          exact ⟨TransGen.to_reflTransGen hid, Int.le_of_lt hchild⟩

variable (max_depth max_nodes expansion_ids)

theorem visit_sided {node : Visit} {found : Levels × List Visit} (hnode : OnSide graph center upstream node)
    (hsided : Sided graph center found.1) (hnext : ∀ node ∈ found.2, OnSide graph center upstream node) :
    Sided graph center (visit graph max_depth max_nodes expansion_ids upstream found node).1 ∧
      ∀ next ∈ (visit graph max_depth max_nodes expansion_ids upstream found node).2,
        OnSide graph center upstream next := by
  obtain ⟨id, budget, level⟩ := node
  unfold visit
  dsimp only
  generalize (if id ∈ expansion_ids then max budget max_depth else budget) = budget
  split
  · exact ⟨hsided, hnext⟩
  cases upstream with
  | true =>
    obtain ⟨hreach, hlevel⟩ := hnode
    refine link_sided budget (fun linked hlinked => ?_) hlevel hsided hnext
    exact TransGen.head' (SqliteGraph.mem_incoming.mp hlinked) hreach
  | false =>
    obtain ⟨hreach, hlevel⟩ := hnode
    refine link_sided budget (fun linked hlinked => ?_) hlevel hsided hnext
    exact TransGen.tail' hreach (SqliteGraph.mem_outgoing.mp hlinked)

theorem visit_all_sided {level_of : Levels} {frontier : List Visit} (hsided : Sided graph center level_of)
    (hfrontier : ∀ node ∈ frontier, OnSide graph center upstream node) :
    Sided graph center (visit_all graph max_depth max_nodes expansion_ids upstream level_of frontier).1 ∧
      ∀ node ∈ (visit_all graph max_depth max_nodes expansion_ids upstream level_of frontier).2,
        OnSide graph center upstream node := by
  have hfold (found : Levels × List Visit) (hsided : Sided graph center found.1)
      (hnext : ∀ node ∈ found.2, OnSide graph center upstream node) :
      Sided graph center (frontier.foldl (visit graph max_depth max_nodes expansion_ids upstream) found).1 ∧
        ∀ node ∈ (frontier.foldl (visit graph max_depth max_nodes expansion_ids upstream) found).2,
          OnSide graph center upstream node := by
    induction frontier generalizing found with
    | nil => exact ⟨hsided, hnext⟩
    | cons node frontier ih =>
      obtain ⟨hsided, hnext⟩ :=
        visit_sided max_depth max_nodes expansion_ids (hfrontier node List.mem_cons_self) hsided hnext
      exact ih (fun node hnode => hfrontier node (List.mem_cons_of_mem _ hnode)) _ hsided hnext
  exact hfold (level_of, []) hsided fun node hnode => absurd hnode List.not_mem_nil

theorem grow_sided {level_of : Levels} {frontier : List Visit} (hsided : Sided graph center level_of)
    (hfrontier : ∀ node ∈ frontier, OnSide graph center upstream node) :
    Sided graph center (grow graph max_depth max_nodes expansion_ids upstream level_of frontier) := by
  fun_induction grow graph max_depth max_nodes expansion_ids upstream level_of frontier with
  | case1 => exact hsided
  | case2 level_of frontier hne found ih =>
    obtain ⟨hsided, hnext⟩ := visit_all_sided max_depth max_nodes expansion_ids hsided hfrontier
    exact ih hsided hnext

theorem bfs_levels_sided : Sided graph center (bfs_levels graph max_depth max_nodes expansion_ids center) := by
  have hnew : Sided graph center ⟨[center], List.nodup_singleton _, fun _ => 0⟩ := by
    refine ⟨List.mem_singleton_self _, rfl, fun id hid => Or.inl (List.mem_singleton.mp hid)⟩
  have hup : ∀ node ∈ [(center, max_depth, (0 : Int))], OnSide graph center true node := by
    intro node hnode
    rw [List.mem_singleton.mp hnode]
    exact ⟨ReflTransGen.refl, Int.le_refl _⟩
  have hdown : ∀ node ∈ [(center, max_depth, (0 : Int))], OnSide graph center false node := by
    intro node hnode
    rw [List.mem_singleton.mp hnode]
    exact ⟨ReflTransGen.refl, Int.le_refl _⟩
  exact grow_sided _ _ _ (grow_sided _ _ _ hnew hup) hdown

end

/-- How far a node is from the center's column. -/
def distance (level_of : Levels) (id : Int) : Nat := (level_of.level id).natAbs

/-- An edge between nodes of one side, away from the center. -/
def outward (level_of : Levels) (edge : Int × Int) : List (Int × Int) :=
  if 0 < level_of.level edge.1 ∧ 0 < level_of.level edge.2 then [edge]
  else if level_of.level edge.1 < 0 ∧ level_of.level edge.2 < 0 then [edge.swap]
  else []

def Shown (graph : SqliteGraph) (level_of : Levels) (edge : Int × Int) : Prop :=
  graph.Edge edge.1 edge.2 ∧ edge.1 ∈ level_of.ids ∧ edge.2 ∈ level_of.ids

theorem mem_set_edges {graph : SqliteGraph} {ids : List Int} {level_of : Levels} {edge : Int × Int}
    (hids : ids.Perm level_of.ids) :
    edge ∈ set_edges graph ids level_of ↔ Shown graph level_of edge := by
  obtain ⟨a, b⟩ := edge
  simp only [set_edges, List.mem_flatMap, List.mem_map, List.mem_filter, decide_eq_true_eq, Shown,
    SqliteGraph.mem_outgoing, SqliteGraph.Edge, hids.mem_iff]
  constructor
  · rintro ⟨source, hsource, target, ⟨hedge, htarget⟩, heq⟩
    obtain ⟨rfl, rfl⟩ := Prod.mk.inj heq
    exact ⟨hedge, hsource, htarget⟩
  · rintro ⟨hedge, hsource, htarget⟩
    exact ⟨a, hsource, b, ⟨hedge, htarget⟩, rfl⟩

section

variable {graph : SqliteGraph} {center : Int} {level_of : Levels} (hacyclic : Acyclic graph.Edge)

include hacyclic

theorem Sided.pos_iff (h : Sided graph center level_of) {id : Int} (hid : id ∈ level_of.ids) :
    0 < level_of.level id ↔ TransGen graph.Edge center id := by
  have hcenter := h.center_level
  obtain rfl | ⟨hup, hneg⟩ | ⟨hdown, hpos⟩ := h.side id hid
  · exact ⟨fun hpos => by omega, fun hcycle => absurd hcycle (hacyclic id)⟩
  · exact ⟨fun hpos => by omega, fun hdown => absurd (hup.trans hdown) (hacyclic id)⟩
  · exact ⟨fun _ => hdown, fun _ => hpos⟩

theorem Sided.neg_iff (h : Sided graph center level_of) {id : Int} (hid : id ∈ level_of.ids) :
    level_of.level id < 0 ↔ TransGen graph.Edge id center := by
  have hcenter := h.center_level
  obtain rfl | ⟨hup, hneg⟩ | ⟨hdown, hpos⟩ := h.side id hid
  · exact ⟨fun hneg => by omega, fun hcycle => absurd hcycle (hacyclic id)⟩
  · exact ⟨fun _ => hup, fun _ => hneg⟩
  · exact ⟨fun hneg => by omega, fun hup => absurd (hup.trans hdown) (hacyclic id)⟩

theorem Sided.outward_eq {moved : Levels} (h : Sided graph center level_of) (hmoved : Sided graph center moved)
    (hids : moved.ids = level_of.ids) {edge : Int × Int} (hedge : Shown graph level_of edge) :
    outward moved edge = outward level_of edge := by
  obtain ⟨-, hsource, htarget⟩ := hedge
  have hpos {id : Int} (hid : id ∈ level_of.ids) : 0 < moved.level id ↔ 0 < level_of.level id :=
    (hmoved.pos_iff hacyclic (hids ▸ hid)).trans (h.pos_iff hacyclic hid).symm
  have hneg {id : Int} (hid : id ∈ level_of.ids) : moved.level id < 0 ↔ level_of.level id < 0 :=
    (hmoved.neg_iff hacyclic (hids ▸ hid)).trans (h.neg_iff hacyclic hid).symm
  simp only [outward, hpos hsource, hpos htarget, hneg hsource, hneg htarget]

theorem Sided.edge_cases (h : Sided graph center level_of) {a b : Int} (hedge : Shown graph level_of (a, b)) :
    (0 < level_of.level a ∧ 0 < level_of.level b) ∨ (level_of.level a < 0 ∧ level_of.level b < 0) ∨
      (level_of.level a < level_of.level b ∧ level_of.level a ≤ 0 ∧ 0 ≤ level_of.level b) := by
  obtain ⟨hedge, ha, hb⟩ := hedge
  have hcenter := h.center_level
  have hpos : 0 ≤ level_of.level a → 0 < level_of.level b := by
    intro hnonneg
    apply (h.pos_iff hacyclic hb).mpr
    obtain rfl | ⟨-, hneg⟩ | ⟨hdown, -⟩ := h.side a ha
    · exact TransGen.single hedge
    · omega
    · exact hdown.tail hedge
  have hneg : level_of.level b ≤ 0 → level_of.level a < 0 := by
    intro hnonpos
    apply (h.neg_iff hacyclic ha).mpr
    obtain rfl | ⟨hup, -⟩ | ⟨-, hpos⟩ := h.side b hb
    · exact TransGen.single hedge
    · exact TransGen.head hedge hup
    · omega
  omega

end

theorem Sided.set {graph : SqliteGraph} {center : Int} {level_of : Levels} (h : Sided graph center level_of)
    {id level : Int} (hne : id ≠ center)
    (hsign : (0 < level_of.level id → 0 < level) ∧ (level_of.level id < 0 → level < 0)) :
    Sided graph center (level_of.set id level) where
  center_mem := h.center_mem
  center_level := (Function.update_of_ne hne.symm _ _).trans h.center_level
  side := by
    intro other hother
    by_cases heq : other = id
    · subst heq
      have hself : (level_of.set other level).level other = level := Function.update_self _ _ _
      rw [hself]
      exact (h.side other hother).imp_right
        (Or.imp (fun hup => ⟨hup.1, hsign.2 hup.2⟩) fun hdown => ⟨hdown.1, hsign.1 hdown.2⟩)
    · have hself : (level_of.set id level).level other = level_of.level other := Function.update_of_ne heq _ _
      rw [hself]
      exact h.side other hother

theorem distance_set (level_of : Levels) (id level : Int) :
    distance (level_of.set id level) = Function.update (distance level_of) id level.natAbs := by
  funext other
  by_cases heq : other = id
  · subst heq
    simp [distance, Levels.set]
  · simp [distance, Levels.set, Function.update_of_ne heq]

theorem push_apart_of_lt {center : Int} {level_of : Levels} {changed : Bool} {edge : Int × Int}
    (h : level_of.level edge.1 < level_of.level edge.2) :
    push_apart center (level_of, changed) edge = (level_of, changed) := by
  obtain ⟨source, target⟩ := edge
  unfold push_apart
  dsimp only
  rw [if_neg (Int.not_le.mpr h), ite_self]

/-- What looking at an edge does: it relaxes the edge outward. -/
structure Pushed (graph : SqliteGraph) (center : Int) (level_of : Levels) (edges : List (Int × Int))
    (changed : Bool) (state : Levels × Bool) : Prop where
  sided : Sided graph center state.1
  ids : state.1.ids = level_of.ids
  relaxed : distance state.1 = relaxAll (edges.flatMap (outward level_of)) (distance level_of)
  unchanged : state.2 = false → state.1 = level_of ∧ changed = false

section

variable {graph : SqliteGraph} {center : Int} {level_of : Levels} (hacyclic : Acyclic graph.Edge)

include hacyclic

theorem push_apart_pushed (h : Sided graph center level_of) {edge : Int × Int}
    (hedge : Shown graph level_of edge) (changed : Bool) :
    Pushed graph center level_of [edge] changed (push_apart center (level_of, changed) edge) := by
  obtain ⟨a, b⟩ := edge
  have hcenter := h.center_level
  by_cases hlt : level_of.level a < level_of.level b
  · rw [push_apart_of_lt hlt]
    refine ⟨h, rfl, ?_, fun hchanged => ⟨rfl, hchanged⟩⟩
    rw [List.flatMap_singleton]
    dsimp only [outward]
    split_ifs with hpos hneg
    · refine (relax_of_lt ?_).symm
      simp only [distance]
      omega
    · refine (relax_of_lt ?_).symm
      simp only [distance, Prod.swap]
      omega
    · rfl
  have hle : level_of.level b ≤ level_of.level a := Int.not_lt.mp hlt
  obtain ⟨hpos, hpos'⟩ | ⟨hneg, hneg'⟩ | hright := h.edge_cases hacyclic hedge
  · have ha : a ≠ center := by
      rintro rfl
      omega
    have hb : b ≠ center := by
      rintro rfl
      omega
    have hpush : push_apart center (level_of, changed) (a, b) =
        (level_of.set b (level_of.level a + 1), true) := by
      unfold push_apart
      dsimp only
      rw [if_neg hb, if_pos hle, if_neg ha, if_neg (by omega)]
    rw [hpush]
    refine ⟨h.set hb ⟨fun _ => by omega, fun _ => by omega⟩, rfl, ?_, fun hchanged => by cases hchanged⟩
    have hdistance : distance level_of b ≤ distance level_of a := by
      simp only [distance]
      omega
    have hnext : (level_of.level a + 1).natAbs = distance level_of a + 1 := by
      simp only [distance]
      omega
    rw [distance_set, List.flatMap_singleton, outward, if_pos ⟨hpos, hpos'⟩, hnext]
    exact (if_pos hdistance).symm
  · have ha : a ≠ center := by
      rintro rfl
      omega
    have hb : b ≠ center := by
      rintro rfl
      omega
    have hpush : push_apart center (level_of, changed) (a, b) =
        (level_of.set a (level_of.level b - 1), true) := by
      unfold push_apart
      dsimp only
      rw [if_neg hb, if_pos hle, if_neg ha, if_pos (by omega)]
    rw [hpush]
    refine ⟨h.set ha ⟨fun _ => by omega, fun _ => by omega⟩, rfl, ?_, fun hchanged => by cases hchanged⟩
    have hdistance : distance level_of a ≤ distance level_of b := by
      simp only [distance]
      omega
    have hnext : (level_of.level b - 1).natAbs = distance level_of b + 1 := by
      simp only [distance]
      omega
    rw [distance_set, List.flatMap_singleton, outward,
      if_neg fun hboth => Int.lt_asymm hneg hboth.1, if_pos ⟨hneg, hneg'⟩, hnext]
    exact (if_pos hdistance).symm
  · omega

theorem fold_pushed {edges : List (Int × Int)} (h : Sided graph center level_of)
    (hedges : ∀ edge ∈ edges, Shown graph level_of edge) (changed : Bool) :
    Pushed graph center level_of edges changed (edges.foldl (push_apart center) (level_of, changed)) := by
  induction edges generalizing level_of changed with
  | nil => exact ⟨h, rfl, rfl, fun hchanged => ⟨rfl, hchanged⟩⟩
  | cons edge edges ih =>
    have hedge := hedges edge List.mem_cons_self
    have hfirst := push_apart_pushed hacyclic h hedge changed
    have hrest : ∀ other ∈ edges, Shown graph level_of other :=
      fun other hother => hedges other (List.mem_cons_of_mem _ hother)
    have hmoved : ∀ other ∈ edges, Shown graph (push_apart center (level_of, changed) edge).1 other := by
      intro other hother
      rw [Shown, hfirst.ids]
      exact hrest other hother
    have hlater := ih hfirst.sided hmoved (push_apart center (level_of, changed) edge).2
    have houtward : edges.flatMap (outward (push_apart center (level_of, changed) edge).1) =
        edges.flatMap (outward level_of) :=
      List.flatMap_congr fun other hother => h.outward_eq hacyclic hfirst.sided hfirst.ids (hrest other hother)
    refine ⟨hlater.sided, hlater.ids.trans hfirst.ids, ?_, fun hchanged => ?_⟩
    · have hrelaxed := hlater.relaxed
      rw [houtward, hfirst.relaxed, List.flatMap_singleton] at hrelaxed
      rw [List.flatMap_cons, relaxAll, List.foldl_append]
      exact hrelaxed
    · obtain ⟨hsame, hchanged⟩ := hlater.unchanged hchanged
      obtain ⟨hsame', hchanged⟩ := hfirst.unchanged hchanged
      exact ⟨hsame.trans hsame', hchanged⟩

theorem relayer_relaxes {edges : List (Int × Int)} (rounds : Nat) (h : Sided graph center level_of)
    (hedges : ∀ edge ∈ edges, Shown graph level_of edge) :
    Sided graph center (relayer center edges rounds level_of) ∧
      (relayer center edges rounds level_of).ids = level_of.ids ∧
      distance (relayer center edges rounds level_of) =
        (relaxAll (edges.flatMap (outward level_of)))^[rounds] (distance level_of) := by
  induction rounds generalizing level_of with
  | zero => exact ⟨h, rfl, rfl⟩
  | succ rounds ih =>
    have hround := fold_pushed hacyclic h hedges false
    rw [← relayer_round] at hround
    rw [relayer]
    dsimp only
    split
    · have hmoved : ∀ edge ∈ edges, Shown graph (relayer_round center edges level_of).1 edge := by
        intro edge hedge
        rw [Shown, hround.ids]
        exact hedges edge hedge
      have houtward : edges.flatMap (outward (relayer_round center edges level_of).1) =
          edges.flatMap (outward level_of) :=
        List.flatMap_congr fun edge hedge => h.outward_eq hacyclic hround.sided hround.ids (hedges edge hedge)
      obtain ⟨hsided, hids, hdistance⟩ := ih hround.sided hmoved
      refine ⟨hsided, hids.trans hround.ids, ?_⟩
      rw [hdistance, houtward, hround.relaxed, Function.iterate_succ_apply]
    · rename_i hchanged
      obtain ⟨hsame, -⟩ := hround.unchanged (by simpa using hchanged)
      have hfixed : relaxAll (edges.flatMap (outward level_of)) (distance level_of) = distance level_of := by
        have hrelaxed := hround.relaxed
        rw [hsame] at hrelaxed
        exact hrelaxed.symm
      rw [hsame]
      exact ⟨h, rfl, (Function.iterate_fixed hfixed (rounds + 1)).symm⟩

theorem outward_acyclic {edges : List (Int × Int)}
    (hedges : ∀ edge ∈ edges, Shown graph level_of edge) :
    Acyclic fun a b => (a, b) ∈ edges.flatMap (outward level_of) := by
  have hstep {a b : Int} (hab : (a, b) ∈ edges.flatMap (outward level_of)) :
      (0 < level_of.level a ∧ 0 < level_of.level b ∧ graph.Edge a b) ∨
        (level_of.level a < 0 ∧ level_of.level b < 0 ∧ graph.Edge b a) := by
    obtain ⟨⟨source, target⟩, hedge, hout⟩ := List.mem_flatMap.mp hab
    dsimp only [outward] at hout
    split_ifs at hout with hpos hneg
    · obtain ⟨rfl, rfl⟩ := Prod.mk.inj (List.mem_singleton.mp hout)
      exact Or.inl ⟨hpos.1, hpos.2, (hedges _ hedge).1⟩
    · obtain ⟨rfl, rfl⟩ := Prod.mk.inj (List.mem_singleton.mp hout)
      exact Or.inr ⟨hneg.2, hneg.1, (hedges _ hedge).1⟩
    · exact absurd hout List.not_mem_nil
  have hpath {a b : Int} (hab : TransGen (fun a b => (a, b) ∈ edges.flatMap (outward level_of)) a b) :
      (0 < level_of.level b ∧ TransGen graph.Edge a b) ∨ (level_of.level b < 0 ∧ TransGen graph.Edge b a) := by
    induction hab with
    | single hab =>
      exact (hstep hab).imp (fun hdown => ⟨hdown.2.1, TransGen.single hdown.2.2⟩)
        fun hup => ⟨hup.2.1, TransGen.single hup.2.2⟩
    | tail _ hbc ih =>
      obtain ⟨hpos, hac⟩ | ⟨hneg, hca⟩ := ih <;> obtain ⟨hb, hc, hedge⟩ | ⟨hb, hc, hedge⟩ := hstep hbc
      · exact Or.inl ⟨hc, hac.tail hedge⟩
      · omega
      · omega
      · exact Or.inr ⟨hc, TransGen.head hedge hca⟩
  intro v hv
  exact (hpath hv).elim (fun hdown => hacyclic v hdown.2) fun hup => hacyclic v hup.2

theorem relayer_settles {edges : List (Int × Int)} (h : Sided graph center level_of)
    (hedges : ∀ edge ∈ edges, Shown graph level_of edge) {edge : Int × Int} (hedge : edge ∈ edges) :
    (relayer center edges level_of.ids.length level_of).level edge.1 <
      (relayer center edges level_of.ids.length level_of).level edge.2 := by
  obtain ⟨hsided, hids, hdistance⟩ := relayer_relaxes hacyclic level_of.ids.length h hedges
  have hnodes : ∀ edge ∈ edges.flatMap (outward level_of), edge.1 ∈ level_of.ids ∧ edge.2 ∈ level_of.ids := by
    intro other hother
    obtain ⟨⟨source, target⟩, hmem, hout⟩ := List.mem_flatMap.mp hother
    obtain ⟨-, hsource, htarget⟩ := hedges _ hmem
    dsimp only [outward] at hout
    split_ifs at hout
    · rw [List.mem_singleton.mp hout]
      exact ⟨hsource, htarget⟩
    · rw [List.mem_singleton.mp hout]
      exact ⟨htarget, hsource⟩
    · exact absurd hout List.not_mem_nil
  have hsettled := iterate_settles hnodes (outward_acyclic hacyclic hedges) (distance level_of)
  rw [← hdistance] at hsettled
  have hshown := hedges edge hedge
  have hmoved : Shown graph (relayer center edges level_of.ids.length level_of) edge := by
    rw [Shown, hids]
    exact hshown
  have houtward := h.outward_eq hacyclic hsided hids hshown
  have hmem (out : Int × Int) (hout : out ∈ outward level_of edge) : out ∈ edges.flatMap (outward level_of) :=
    List.mem_flatMap.mpr ⟨edge, hedge, hout⟩
  obtain ⟨hpos, hpos'⟩ | ⟨hneg, hneg'⟩ | hright := hsided.edge_cases hacyclic hmoved
  · have hout : outward (relayer center edges level_of.ids.length level_of) edge = [edge] := if_pos ⟨hpos, hpos'⟩
    have hlt := hsettled edge (hmem edge (by rw [← houtward, hout]; exact List.mem_cons_self))
    simp only [distance] at hlt
    omega
  · have hout : outward (relayer center edges level_of.ids.length level_of) edge = [edge.swap] :=
      (if_neg fun hboth => Int.lt_asymm hneg hboth.1).trans (if_pos ⟨hneg, hneg'⟩)
    have hlt := hsettled edge.swap (hmem _ (by rw [← houtward, hout]; exact List.mem_cons_self))
    simp only [distance, Prod.fst_swap, Prod.snd_swap] at hlt
    omega
  · exact hright.1

end

theorem relayer_round_of_lt {center : Int} {level_of : Levels} {edges : List (Int × Int)}
    (h : ∀ edge ∈ edges, level_of.level edge.1 < level_of.level edge.2) :
    relayer_round center edges level_of = (level_of, false) := by
  unfold relayer_round
  induction edges with
  | nil => rfl
  | cons edge edges ih =>
    rw [List.foldl_cons, push_apart_of_lt (h edge List.mem_cons_self)]
    exact ih fun other hother => h other (List.mem_cons_of_mem _ hother)

/-- What holds of the levels of a layout. -/
structure PointsRight (graph : SqliteGraph) (layering : Layering) : Prop where
  edges : ∀ a ∈ layering.level_of.ids, ∀ b ∈ layering.level_of.ids, graph.Edge a b →
    layering.level_of.level a < layering.level_of.level b
  center_shown : layering.center ∈ layering.level_of.ids
  center : layering.level_of.level layering.center = 0
  ancestors : ∀ id ∈ layering.level_of.ids, TransGen graph.Edge id layering.center →
    layering.level_of.level id < 0
  descendants : ∀ id ∈ layering.level_of.ids, TransGen graph.Edge layering.center id →
    0 < layering.level_of.level id
  /-- Another round would change nothing. -/
  fixpoint : relayer_round layering.center layering.set_edges layering.level_of = (layering.level_of, false)

/-- In an acyclic graph the edges of every layout point right. -/
theorem lineage_layout_points_right {hash_order : List Int → List Int} {loaded : Loaded} {model : String}
    {max_depth : Int} {max_nodes : Nat} {expansions : List String} {layering : Layering}
    (horder : ∀ ids, (hash_order ids).Perm ids) (hacyclic : Acyclic loaded.graph.Edge)
    (hlayout : lineage_layout hash_order loaded model max_depth max_nodes expansions = .ok layering) :
    PointsRight loaded.graph layering := by
  unfold lineage_layout at hlayout
  cases hcenter : id_for loaded model with
  | error message =>
    rw [hcenter] at hlayout
    cases hlayout
  | ok center =>
    rw [hcenter] at hlayout
    injection hlayout with hlayout
    generalize hlevels : bfs_levels loaded.graph max_depth max_nodes (expansions.filterMap loaded.by_name) center =
      level_of at hlayout
    have hsided : Sided loaded.graph center level_of := hlevels ▸ bfs_levels_sided _ _ _
    generalize hedges : set_edges loaded.graph (hash_order level_of.ids) level_of = edges at hlayout
    have hshown (edge : Int × Int) : edge ∈ edges ↔ Shown loaded.graph level_of edge :=
      hedges ▸ mem_set_edges (horder level_of.ids)
    rw [(horder level_of.ids).length_eq] at hlayout
    obtain ⟨hmoved, hids, -⟩ := relayer_relaxes hacyclic level_of.ids.length hsided fun edge => (hshown edge).mp
    have hright {edge : Int × Int} (hedge : edge ∈ edges) :=
      relayer_settles hacyclic hsided (fun edge => (hshown edge).mp) hedge
    subst hlayout
    refine ⟨fun a ha b hb hedge => ?_, hmoved.center_mem, hmoved.center_level, fun id hid => ?_,
      fun id hid => ?_, relayer_round_of_lt fun edge hedge => hright hedge⟩
    · rw [hids] at ha hb
      exact hright ((hshown (a, b)).mpr ⟨hedge, ha, hb⟩)
    · exact (hmoved.neg_iff hacyclic hid).mpr
    · exact (hmoved.pos_iff hacyclic hid).mpr

/-- Two ways from `raw` to `report`, of different lengths. -/
def sample : Loaded where
  by_name
    | "raw" => some 1
    | "staged" => some 2
    | "joined" => some 3
    | "report" => some 4
    | _ => none
  graph := ⟨[(1, 2), (2, 3), (3, 4), (1, 4), (2, 4)]⟩

theorem sample_acyclic : Acyclic sample.graph.Edge := by
  have hstep {a b : Int} (hab : sample.graph.Edge a b) : a < b := by
    simp only [SqliteGraph.Edge, sample, List.mem_cons, Prod.mk.injEq, List.not_mem_nil, or_false] at hab
    omega
  have hpath {a b : Int} (hab : TransGen sample.graph.Edge a b) : a < b := by
    induction hab with
    | single hab => exact hstep hab
    | tail _ hbc ih => exact Int.lt_trans ih (hstep hbc)
  exact fun v hv => Int.lt_irrefl v (hpath hv)

theorem sample_points_right : ∃ layering,
    lineage_layout List.reverse sample "raw" 1 3 ["report"] = .ok layering ∧
      PointsRight sample.graph layering := by
  refine ⟨_, rfl, ?_⟩
  have hlayout (layering : Layering) (h : lineage_layout List.reverse sample "raw" 1 3 ["report"] = .ok layering) :
      PointsRight sample.graph layering :=
    lineage_layout_points_right List.reverse_perm sample_acyclic h
  exact hlayout _ rfl

end zed.dbt_ui.lineage
