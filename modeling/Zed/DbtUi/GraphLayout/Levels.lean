import Zed.DbtUi.GraphLayout.Acyclic

namespace zed.dbt_ui.graph_layout

variable {count : Nat} {edges : List (Edge count)}

theorem count_outgoing (edges : List (Edge count)) (a b : Fin count) : (outgoing edges a).count b = edges.count (a, b) := by
  induction edges with
  | nil => rfl
  | cons edge edges ih =>
    obtain ⟨c, d⟩ := edge
    unfold outgoing at ih ⊢
    by_cases hc : c = a
    · subst hc
      rw [List.filter_cons_of_pos (by simp), List.map_cons, List.count_cons, List.count_cons, ih]
      simp
    · rw [List.filter_cons_of_neg (by simpa using hc), ih, List.count_cons_of_ne (by simp [hc])]

theorem count_incoming (edges : List (Edge count)) (a b : Fin count) : (incoming edges b).count a = edges.count (a, b) := by
  induction edges with
  | nil => rfl
  | cons edge edges ih =>
    obtain ⟨c, d⟩ := edge
    unfold incoming at ih ⊢
    by_cases hd : d = b
    · subst hd
      rw [List.filter_cons_of_pos (by simp), List.map_cons, List.count_cons, List.count_cons, ih]
      simp
    · rw [List.filter_cons_of_neg (by simpa using hd), ih, List.count_cons_of_ne (by simp [hd])]

theorem countP_append_singleton (order : List (Fin count)) {node : Fin count} (h : node ∉ order)
    (nodes : List (Fin count)) :
    nodes.countP (fun other => other ∉ order ++ [node]) + nodes.count node =
      nodes.countP fun other => other ∉ order := by
  induction nodes with
  | nil => rfl
  | cons other nodes ih =>
    rw [List.countP_cons, List.countP_cons, List.count_cons, ← ih]
    rcases eq_or_ne other node with rfl | hne
    · simp [h]
      omega
    · by_cases hmem : other ∈ order
      · simp [hmem, hne]
      · simp [hmem, hne]
        omega

namespace Kahn

/-- Edges taken away leave a node with that many fewer, and queue it when none are left. -/
theorem foldl_take (nexts : List (Fin count)) (found : (Fin count → Nat) × List (Fin count)) (node : Fin count) :
    (nexts.foldl take found).1 node = found.1 node - nexts.count node ∧
      (node ∈ (nexts.foldl take found).2 ↔
        node ∈ found.2 ∨ node ∈ nexts ∧ found.1 node - nexts.count node = 0) := by
  induction nexts generalizing found with
  | nil => simp
  | cons next nexts ih =>
    obtain ⟨hremaining, hqueue⟩ := ih (take found next)
    rw [List.foldl_cons, hremaining, hqueue]
    rcases eq_or_ne node next with rfl | hne
    · have hcount : (node :: nexts).count node = nexts.count node + 1 := List.count_cons_self
      have htaken : (take found node).1 node = found.1 node - 1 := Function.update_self ..
      rw [hcount, htaken]
      refine ⟨by omega, ?_⟩
      have hmem : node ∈ (take found node).2 ↔ node ∈ found.2 ∨ found.1 node - 1 = 0 := by
        unfold take
        dsimp only
        rw [Function.update_self]
        split
        · rename_i hzero
          simp [hzero]
        · rename_i hzero
          simp [hzero]
      rw [hmem]
      by_cases hnexts : node ∈ nexts
      · simp only [hnexts, List.mem_cons_self, true_and]
        constructor
        · rintro ((hmem | hzero) | hzero)
          · exact .inl hmem
          · exact .inr (by omega)
          · exact .inr (by omega)
        · rintro (hmem | hzero)
          · exact .inl (.inl hmem)
          · exact .inr (by omega)
      · have hnone : nexts.count node = 0 := List.count_eq_zero.mpr hnexts
        simp [hnexts, hnone]
    · have hcount : (next :: nexts).count node = nexts.count node := List.count_cons_of_ne hne.symm
      have htaken : (take found next).1 node = found.1 node := Function.update_of_ne hne ..
      have hmem : node ∈ (take found next).2 ↔ node ∈ found.2 := by
        unfold take
        dsimp only
        split
        · simp [hne]
        · rfl
      rw [hcount, htaken, hmem, List.mem_cons]
      simp [hne]

/-- What Kahn's walk keeps on a graph without cycles. -/
structure Valid (edges : List (Edge count)) (kahn : Kahn count) : Prop where
  seen_iff : ∀ node, kahn.seen node = true ↔ node ∈ kahn.order
  remaining : ∀ node, kahn.remaining node = (incoming edges node).countP fun other => other ∉ kahn.order
  ready : ∀ node ∈ kahn.order ++ kahn.queue, kahn.remaining node = 0
  waiting : ∀ node, kahn.remaining node = 0 → node ∈ kahn.order ++ kahn.queue
  sorted : kahn.order.Pairwise fun a b => ¬ Feeds edges b a

theorem valid_new (edges : List (Edge count)) : Valid edges (new edges) where
  seen_iff _ := by simp [new]
  remaining _ := by simp [new]
  ready _ h := by simpa [new] using h
  waiting _ h := by simpa [new] using h
  sorted := List.Pairwise.nil

variable {kahn kahn' : Kahn count}

/-- The edges to a node that is ready come from nodes already taken. -/
theorem Valid.mem_order (h : kahn.Valid edges) {a b : Fin count} (hb : kahn.remaining b = 0) (hedge : Feeds edges a b) :
    a ∈ kahn.order := by
  rw [h.remaining, List.countP_eq_zero] at hb
  simpa using hb a (mem_incoming.mpr hedge)

theorem step_valid (h : kahn.Valid edges) (hstep : kahn.step edges = some kahn') : kahn'.Valid edges := by
  unfold step at hstep
  split at hstep
  · cases hstep
  · rename_i node queue hqueue
    have hready : kahn.remaining node = 0 := h.ready node (by simp [hqueue])
    split at hstep
    · rename_i hseen
      cases Option.some.inj hstep
      have hnode := (h.seen_iff node).mp hseen
      refine ⟨h.seen_iff, h.remaining, fun other hother => h.ready other ?_, fun other hother => ?_, h.sorted⟩
      · rw [hqueue]
        rcases List.mem_append.mp hother with hmem | hmem
        · exact List.mem_append_left _ hmem
        · exact List.mem_append_right _ (List.mem_cons_of_mem _ hmem)
      · have hmem := h.waiting other hother
        rw [hqueue] at hmem
        rcases List.mem_append.mp hmem with hmem | hmem
        · exact List.mem_append_left _ hmem
        · rcases List.mem_cons.mp hmem with rfl | hmem
          · exact List.mem_append_left _ hnode
          · exact List.mem_append_right _ hmem
    · rename_i hseen
      cases Option.some.inj hstep
      have hnode : node ∉ kahn.order := fun hmem => hseen ((h.seen_iff node).mpr hmem)
      have hfold (other : Fin count) := foldl_take (outgoing edges node) (kahn.remaining, queue) other
      have hremaining (other : Fin count) :
          ((outgoing edges node).foldl take (kahn.remaining, queue)).1 other =
            (incoming edges other).countP fun before => before ∉ kahn.order ++ [node] := by
        rw [(hfold other).1]
        dsimp only
        rw [h.remaining, count_outgoing, ← count_incoming,
          ← countP_append_singleton kahn.order hnode, Nat.add_sub_cancel]
      refine ⟨fun other => ?_, hremaining, fun other hother => ?_, fun other hother => ?_, ?_⟩
      · rcases eq_or_ne other node with rfl | hne
        · simp
        · simp [hne, h.seen_iff]
      · rw [List.append_assoc, List.mem_append, List.mem_append, List.mem_singleton, (hfold other).2] at hother
        dsimp only
        rw [(hfold other).1]
        rcases hother with hmem | rfl | hmem | ⟨-, hzero⟩
        · simp [h.ready other (List.mem_append_left _ hmem)]
        · simp [hready]
        · simp [h.ready other (by simp [hqueue, hmem])]
        · exact hzero
      · dsimp only at hother ⊢
        rw [List.append_assoc, List.mem_append, List.mem_append, List.mem_singleton, (hfold other).2]
        rw [(hfold other).1] at hother
        by_cases hnext : other ∈ outgoing edges node
        · exact .inr (.inr (.inr ⟨hnext, hother⟩))
        · rw [List.count_eq_zero.mpr hnext] at hother
          have hmem := h.waiting other hother
          rw [hqueue, List.mem_append, List.mem_cons] at hmem
          rcases hmem with hmem | rfl | hmem
          · exact .inl hmem
          · exact .inr (.inl rfl)
          · exact .inr (.inr (.inl hmem))
      · refine List.pairwise_append.mpr ⟨h.sorted, List.pairwise_singleton _ _, fun before hbefore after hafter hedge => ?_⟩
        rw [List.mem_singleton.mp hafter] at hedge
        exact hnode (h.mem_order (h.ready before (List.mem_append_left _ hbefore)) hedge)

theorem queue_of_step_none (h : kahn.step edges = none) : kahn.queue = [] := by
  unfold step at h
  split at h
  · assumption
  · split at h
    · cases h
    · cases h

theorem run_valid (h : kahn.Valid edges) : (kahn.run edges).Valid edges ∧ (kahn.run edges).queue = [] := by
  induction kahn using Kahn.run.induct edges with
  | case1 kahn hnone =>
    have hrun : kahn.run edges = kahn := by
      rw [run]
      split
      · rfl
      · rename_i hsome
        rw [hnone] at hsome
        cases hsome
    rw [hrun]
    exact ⟨h, queue_of_step_none hnone⟩
  | case2 kahn kahn' hstep ih =>
    have hrun : kahn.run edges = kahn'.run edges := by
      rw [run]
      split
      · rename_i hnone
        rw [hstep] at hnone
        cases hnone
      · rename_i other hsome
        rw [hstep] at hsome
        cases hsome
        rfl
    rw [hrun]
    exact ih (step_valid h hstep)

/-- A walk that ends has every node of a graph without cycles. -/
theorem Valid.complete (h : kahn.Valid edges) (hqueue : kahn.queue = []) {rank : Fin count → Nat}
    (hrank : graph.Ranked edges rank) (node : Fin count) : node ∈ kahn.order := by
  induction hn : rank node using Nat.strong_induction_on generalizing node with
  | h n ih =>
    by_contra hnot
    have hwaits : kahn.remaining node ≠ 0 := fun hzero => by
      have hmem := h.waiting node hzero
      rw [hqueue, List.append_nil] at hmem
      exact hnot hmem
    rw [h.remaining, ← Nat.pos_iff_ne_zero, List.countP_pos_iff] at hwaits
    obtain ⟨before, hbefore, hout⟩ := hwaits
    have hlt : rank before < rank node := hrank (before, node) (mem_incoming.mp hbefore)
    have hout : before ∉ kahn.order := by simpa using hout
    exact hout (ih (rank before) (hn ▸ hlt) before rfl)

end Kahn

theorem topological_sorted {rank : Fin count → Nat} (hrank : graph.Ranked edges rank) :
    (∀ node, node ∈ topological edges) ∧ (topological edges).Pairwise fun a b => ¬ Feeds edges b a := by
  obtain ⟨hvalid, hqueue⟩ := Kahn.run_valid (Kahn.valid_new edges)
  have hall := hvalid.complete hqueue hrank
  have heq : topological edges = (Kahn.run edges (Kahn.new edges)).order := by
    rw [topological, List.filter_eq_nil_iff.mpr, List.append_nil]
    intro node _
    simp [(hvalid.seen_iff node).mpr (hall node)]
  rw [heq]
  exact ⟨hall, hvalid.sorted⟩

theorem foldl_max (nexts : List (Fin count)) (level : Fin count → ℤ) {node : Fin count} (h : node ∉ nexts) :
    let fed := nexts.foldl (fun level next => Function.update level next (max (level next) (level node + 1))) level
    (∀ other, level other ≤ fed other) ∧ (∀ other ∉ nexts, fed other = level other) ∧
      ∀ next ∈ nexts, level node + 1 ≤ fed next := by
  induction nexts generalizing level with
  | nil => simp
  | cons next nexts ih =>
    obtain ⟨hne, hnot⟩ := not_or.mp fun hmem => h (List.mem_cons.mpr hmem)
    let level' := Function.update level next (max (level next) (level node + 1))
    have hnode : level' node = level node := Function.update_of_ne hne ..
    have hnext : level' next = max (level next) (level node + 1) := Function.update_self ..
    have hle (other : Fin count) : level other ≤ level' other := by
      rcases eq_or_ne other next with rfl | hother
      · rw [hnext]
        exact le_max_left _ _
      · exact (Function.update_of_ne hother ..).ge
    obtain ⟨hup, hkeep, hpast⟩ := ih level' hnot
    rw [hnode] at hpast
    refine ⟨fun other => (hle other).trans (hup other), fun other hother => ?_, fun other hother => ?_⟩
    · obtain ⟨hne, hother⟩ := not_or.mp fun hmem => hother (List.mem_cons.mpr hmem)
      exact (hkeep other hother).trans (Function.update_of_ne hne ..)
    · rcases List.mem_cons.mp hother with rfl | hother
      · exact ((le_max_right _ _).trans hnext.ge).trans (hup other)
      · exact hpast other hother

theorem foldl_feed (order : List (Fin count)) (level : Fin count → ℤ)
    (hsorted : order.Pairwise fun a b => ¬ Feeds edges b a) (hloop : ∀ node, ¬ Feeds edges node node) :
    let fed := order.foldl (feed edges) level
    (∀ node, level node ≤ fed node) ∧ (∀ node, (∀ other ∈ order, ¬ Feeds edges other node) → fed node = level node) ∧
      ∀ node ∈ order, ∀ next, Feeds edges node next → fed node < fed next := by
  induction order generalizing level with
  | nil => simp
  | cons first order ih =>
    obtain ⟨hfirst, hsorted⟩ := List.pairwise_cons.mp hsorted
    have hnot : first ∉ outgoing edges first := fun hmem => hloop first (mem_outgoing.mp hmem)
    obtain ⟨hup', hkeep', hpast'⟩ := foldl_max (outgoing edges first) level hnot
    obtain ⟨hup, hkeep, hpast⟩ := ih (feed edges level first) hsorted
    refine ⟨fun node => (hup' node).trans (hup node), fun node hnode => ?_, fun node hnode next hnext => ?_⟩
    · rw [List.foldl_cons, hkeep node fun other hother => hnode other (List.mem_cons_of_mem _ hother)]
      exact hkeep' node fun hmem => hnode first List.mem_cons_self (mem_outgoing.mp hmem)
    · rw [List.foldl_cons]
      rcases List.mem_cons.mp hnode with rfl | hnode
      · rw [hkeep node hfirst]
        have hself : feed edges level node node = level node := hkeep' node hnot
        rw [hself]
        exact Int.lt_of_add_one_le ((hpast' next (mem_outgoing.mpr hnext)).trans (hup next))
      · exact hpast node hnode next hnext

/-- Every edge points to a higher level. -/
def Rises (edges : List (Edge count)) (level : Fin count → ℤ) : Prop := ∀ edge ∈ edges, level edge.1 < level edge.2

/-- A source may move up to right before the first that it feeds. -/
theorem pull_rises {level : Fin count → ℤ} (h : Rises edges level) (node : Fin count) :
    Rises edges (pull edges level node) := by
  unfold pull
  split
  · exact h
  · rename_i hsource
    split
    · exact h
    · rename_i nearest hnearest
      rintro ⟨a, b⟩ hedge
      have hb : b ≠ node := by
        rintro rfl
        have hmem : a ∈ incoming edges b := mem_incoming.mpr hedge
        rw [not_not.mp hsource] at hmem
        cases hmem
      dsimp only
      rw [Function.update_of_ne hb]
      rcases eq_or_ne a node with rfl | ha
      · rw [Function.update_self]
        have hle := (List.min?_eq_some_iff.mp hnearest).2 (level b) (List.mem_map_of_mem (mem_outgoing.mpr hedge))
        omega
      · rw [Function.update_of_ne ha]
        exact h (a, b) hedge

theorem foldl_pull_rises (nodes : List (Fin count)) {level : Fin count → ℤ} (h : Rises edges level) :
    Rises edges (nodes.foldl (pull edges) level) := by
  induction nodes generalizing level with
  | nil => exact h
  | cons node nodes ih => exact ih (pull_rises h node)

theorem levels_rises {rank : Fin count → Nat} (hrank : graph.Ranked edges rank) (center : Option (Fin count)) :
    Rises edges (levels edges center) := by
  obtain ⟨hall, hsorted⟩ := topological_sorted hrank
  have hloop (node : Fin count) : ¬ Feeds edges node node := fun hedge => Nat.lt_irrefl _ (hrank (node, node) hedge)
  obtain ⟨-, -, hpast⟩ := foldl_feed (topological edges) (fun _ => 0) hsorted hloop
  have hfed : Rises edges ((topological edges).foldl (feed edges) fun _ => 0) :=
    fun edge hedge => hpast edge.1 (hall edge.1) edge.2 hedge
  intro edge hedge
  exact sub_lt_sub_right (foldl_pull_rises (topological edges).reverse hfed edge hedge) _

theorem levels_center (edges : List (Edge count)) (center : Fin count) : levels edges (some center) center = 0 :=
  sub_self _

end zed.dbt_ui.graph_layout
