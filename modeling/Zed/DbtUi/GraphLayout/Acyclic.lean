import Zed.DbtUi.GraphLayout
import Zed.Graph.Relaxation

namespace zed.dbt_ui.graph_layout

variable {count : Nat} {edges : List (Edge count)}

/-- One node feeds another. -/
def Feeds (edges : List (Edge count)) (a b : Fin count) : Prop := (a, b) ∈ edges

/-- Of the nodes that are done, the last first, each edge is one back or ends in one done before. -/
def Settled (edges back : List (Edge count)) : List (Fin count) → Prop
  | [] => True
  | node :: order =>
    (∀ target ∈ outgoing edges node, (node, target) ∈ back ∨ target ∈ order) ∧ Settled edges back order

/-- Of the nodes on the path, each edge taken is one back, ends in a node that is done, or is the
    one to the node above on the path. -/
def Taken (edges back : List (Edge count)) (order : List (Fin count)) :
    Option (Fin count) → List (Fin count × Nat) → Prop
  | _, [] => True
  | above, (node, next) :: stack =>
    (∀ target ∈ (outgoing edges node).take next, (node, target) ∈ back ∨ target ∈ order ∨ above = some target) ∧
      Taken edges back order (some node) stack

/-- What a walk keeps, with the nodes it is done with, the last first. -/
structure Walk.Valid (edges : List (Edge count)) (walk : Walk count) (order : List (Fin count)) : Prop where
  done_iff : ∀ node, walk.state node = .done ↔ node ∈ order
  path_iff : ∀ node, walk.state node = .on_path ↔ node ∈ walk.stack.map Prod.fst
  order_nodup : order.Nodup
  path_nodup : (walk.stack.map Prod.fst).Nodup
  settled : Settled edges walk.back order
  taken : Taken edges walk.back order none walk.stack
  path : walk.stack.Pairwise fun above below => Relation.ReflTransGen (Feeds edges) below.1 above.1
  back_closes : ∀ edge ∈ walk.back, Feeds edges edge.1 edge.2 ∧ Relation.ReflTransGen (Feeds edges) edge.2 edge.1

theorem Settled.mono {back back' : List (Edge count)} (hback : back ⊆ back') {order : List (Fin count)}
    (h : Settled edges back order) : Settled edges back' order := by
  induction order with
  | nil => trivial
  | cons node order ih =>
    exact ⟨fun target htarget => (h.1 target htarget).imp_left fun hmem => hback hmem, ih h.2⟩

theorem Taken.mono {back back' : List (Edge count)} (hback : back ⊆ back') {order order' : List (Fin count)}
    (horder : order ⊆ order') {above : Option (Fin count)} {stack : List (Fin count × Nat)}
    (h : Taken edges back order above stack) : Taken edges back' order' above stack := by
  induction stack generalizing above with
  | nil => trivial
  | cons frame stack ih =>
    refine ⟨fun target htarget => ?_, ih h.2⟩
    rcases h.1 target htarget with hmem | hmem | habove
    · exact .inl (hback hmem)
    · exact .inr (.inl (horder hmem))
    · exact .inr (.inr habove)

theorem Taken.next {back back' : List (Edge count)} (hback : back ⊆ back') {order : List (Fin count)}
    {node target : Fin count} {next : Nat} {stack : List (Fin count × Nat)}
    (h : Taken edges back order none ((node, next) :: stack)) (htarget : (outgoing edges node)[next]? = some target)
    {above : Option (Fin count)} (hnext : (node, target) ∈ back' ∨ target ∈ order ∨ above = some target) :
    Taken edges back' order above ((node, next + 1) :: stack) := by
  refine ⟨fun other hother => ?_, h.2.mono hback fun _ hmem => hmem⟩
  rw [List.take_add_one, htarget, Option.toList_some, List.mem_append, List.mem_singleton] at hother
  rcases hother with hother | rfl
  · rcases h.1 other hother with hmem | hmem | habove
    · exact .inl (hback hmem)
    · exact .inr (.inl hmem)
    · cases habove
  · exact hnext

namespace Walk

theorem valid_new : Valid edges new [] where
  done_iff _ := by simp [new]
  path_iff _ := by simp [new]
  order_nodup := List.nodup_nil
  path_nodup := List.nodup_nil
  settled := trivial
  taken := trivial
  path := List.Pairwise.nil
  back_closes _ h := by cases h

variable {walk walk' : Walk count} {order : List (Fin count)}

theorem Valid.enter (h : walk.Valid edges order) {target : Fin count} (hstate : walk.state target = .unseen)
    {stack : List (Fin count × Nat)} (hstack : stack.map Prod.fst = walk.stack.map Prod.fst)
    (htaken : Taken edges walk.back order (some target) stack)
    (hpath : ((target, 0) :: stack).Pairwise fun above below => Relation.ReflTransGen (Feeds edges) below.1 above.1) :
    Valid edges ⟨Function.update walk.state target .on_path, walk.back, (target, 0) :: stack⟩ order where
  done_iff node := by
    rcases eq_or_ne node target with rfl | hne
    · have hnot : node ∉ order := fun hmem => by
        rw [(h.done_iff node).mpr hmem] at hstate
        cases hstate
      simp [hnot]
    · dsimp only
      rw [Function.update_of_ne hne]
      exact h.done_iff node
  path_iff node := by
    rw [List.map_cons, List.mem_cons, hstack]
    rcases eq_or_ne node target with rfl | hne
    · simp
    · dsimp only
      rw [Function.update_of_ne hne, h.path_iff node]
      simp [hne]
  order_nodup := h.order_nodup
  path_nodup := by
    rw [List.map_cons, hstack]
    refine List.nodup_cons.mpr ⟨fun hmem => ?_, h.path_nodup⟩
    rw [(h.path_iff target).mpr hmem] at hstate
    cases hstate
  settled := h.settled
  taken := ⟨fun _ hmem => absurd hmem List.not_mem_nil, htaken⟩
  path := hpath
  back_closes := h.back_closes

theorem reaches_cons {node : Fin count} {next : Nat} {stack : List (Fin count × Nat)} (next' : Nat)
    (h : ((node, next) :: stack).Pairwise fun above below => Relation.ReflTransGen (Feeds edges) below.1 above.1) :
    ((node, next') :: stack).Pairwise fun above below => Relation.ReflTransGen (Feeds edges) below.1 above.1 :=
  List.pairwise_cons.mpr ⟨(List.pairwise_cons.mp h).1, (List.pairwise_cons.mp h).2⟩

theorem step_valid (h : walk.Valid edges order) (hstep : walk.step edges = some walk') :
    ∃ order', walk'.Valid edges order' := by
  obtain ⟨node, next, stack, hstack, hcases⟩ := step_cases hstep
  have hpath_iff := h.path_iff
  have hnodup := h.path_nodup
  have htaken := h.taken
  have hpath := h.path
  rw [hstack] at hpath_iff hnodup htaken hpath
  rcases hcases with ⟨target, htarget, ⟨hstate, rfl⟩ | ⟨hstate, rfl⟩ | ⟨hstate, rfl⟩⟩ | ⟨hnone, rfl⟩
  · have hedge : Feeds edges node target := mem_outgoing.mp (List.mem_of_getElem? htarget)
    refine ⟨order, h.enter hstate (by rw [hstack]; rfl) ?_ ?_⟩
    · exact htaken.next (fun _ hmem => hmem) htarget (.inr (.inr rfl))
    · refine List.pairwise_cons.mpr ⟨fun below hbelow => ?_, reaches_cons _ hpath⟩
      rcases List.mem_cons.mp hbelow with rfl | hbelow
      · exact .single hedge
      · exact ((List.pairwise_cons.mp hpath).1 below hbelow).tail hedge
  · have hedge : Feeds edges node target := mem_outgoing.mp (List.mem_of_getElem? htarget)
    refine ⟨order, h.done_iff, hpath_iff, h.order_nodup, hnodup, h.settled.mono (List.subset_cons_self _ _), ?_,
      reaches_cons _ hpath, ?_⟩
    · exact htaken.next (List.subset_cons_self _ _) htarget (.inl List.mem_cons_self)
    · intro edge hmem
      rcases List.mem_cons.mp hmem with rfl | hmem
      · refine ⟨hedge, ?_⟩
        obtain ⟨frame, hframe, heq⟩ := List.mem_map.mp ((hpath_iff target).mp hstate)
        dsimp only at heq ⊢
        rw [← heq]
        rcases List.mem_cons.mp hframe with rfl | hframe
        · exact .refl
        · exact (List.pairwise_cons.mp hpath).1 frame hframe
      · exact h.back_closes edge hmem
  · exact ⟨order, h.done_iff, hpath_iff, h.order_nodup, hnodup, h.settled,
      htaken.next (fun _ hmem => hmem) htarget (.inr (.inl ((h.done_iff target).mp hstate))),
      reaches_cons _ hpath, h.back_closes⟩
  · have hnode : node ∉ order := fun hmem => by
      have hon := (hpath_iff node).mpr List.mem_cons_self
      rw [(h.done_iff node).mpr hmem] at hon
      cases hon
    obtain ⟨hnot, hnodup⟩ := List.nodup_cons.mp hnodup
    refine ⟨node :: order, fun other => ?_, fun other => ?_, List.nodup_cons.mpr ⟨hnode, h.order_nodup⟩, hnodup,
      ⟨fun target htarget => ?_, h.settled⟩, ?_, (List.pairwise_cons.mp hpath).2, h.back_closes⟩
    · rcases eq_or_ne other node with rfl | hne
      · simp
      · dsimp only
        rw [Function.update_of_ne hne, h.done_iff other]
        simp [hne]
    · rcases eq_or_ne other node with rfl | hne
      · simpa using hnot
      · dsimp only
        rw [Function.update_of_ne hne, hpath_iff other]
        simp [hne]
    · have hall : (outgoing edges node).take next = outgoing edges node :=
        List.take_of_length_le (List.getElem?_eq_none_iff.mp hnone)
      rcases htaken.1 target (by rwa [hall]) with hmem | hmem | habove
      · exact .inl hmem
      · exact .inr hmem
      · cases habove
    · cases stack with
      | nil => trivial
      | cons frame stack =>
        refine ⟨fun target htarget => ?_, htaken.2.2.mono (fun _ hmem => hmem) (List.subset_cons_self _ _)⟩
        rcases htaken.2.1 target htarget with hmem | hmem | habove
        · exact .inl hmem
        · exact .inr (.inl (List.mem_cons_of_mem _ hmem))
        · cases habove
          exact .inr (.inl List.mem_cons_self)

theorem step_seen (hstep : walk.step edges = some walk') {node : Fin count} (h : walk.state node ≠ .unseen) :
    walk'.state node ≠ .unseen := by
  have hupdate (other : Fin count) {mark : Mark} (hmark : mark ≠ .unseen) :
      Function.update walk.state other mark node ≠ .unseen := by
    rcases eq_or_ne node other with rfl | hne
    · rwa [Function.update_self]
    · rwa [Function.update_of_ne hne]
  obtain ⟨top, next, stack, -, hcases⟩ := step_cases hstep
  rcases hcases with ⟨target, -, ⟨-, rfl⟩ | ⟨-, rfl⟩ | ⟨-, rfl⟩⟩ | ⟨-, rfl⟩
  · exact hupdate target (by decide)
  · exact h
  · exact h
  · exact hupdate top (by decide)

theorem stack_of_step_none (h : walk.step edges = none) : walk.stack = [] := by
  unfold step at h
  split at h
  · assumption
  · split at h
    · split at h
      · cases h
      · cases h
      · cases h
    · cases h

/-- A walk ends with nothing on its path, and forgets no node that it has seen. -/
theorem run_valid (h : walk.Valid edges order) :
    ∃ order', (walk.run edges).Valid edges order' ∧ (walk.run edges).stack = [] ∧
      ∀ node, walk.state node ≠ .unseen → (walk.run edges).state node ≠ .unseen := by
  induction walk using Walk.run.induct edges generalizing order with
  | case1 walk hnone =>
    have hrun : walk.run edges = walk := by
      rw [run]
      split
      · rfl
      · rename_i hsome
        rw [hnone] at hsome
        cases hsome
    rw [hrun]
    exact ⟨order, h, stack_of_step_none hnone, fun _ hseen => hseen⟩
  | case2 walk walk' hstep ih =>
    have hrun : walk.run edges = walk'.run edges := by
      rw [run]
      split
      · rename_i hnone
        rw [hstep] at hnone
        cases hnone
      · rename_i other hsome
        rw [hstep] at hsome
        cases hsome
        rfl
    obtain ⟨order', hvalid⟩ := step_valid h hstep
    obtain ⟨order'', hvalid, hstack, hseen⟩ := ih hvalid
    rw [hrun]
    exact ⟨order'', hvalid, hstack, fun node hnode => hseen node (step_seen hstep hnode)⟩

/-- A walk between two starts. -/
structure Rests (edges : List (Edge count)) (walk : Walk count) (order : List (Fin count)) : Prop where
  valid : walk.Valid edges order
  stack : walk.stack = []

theorem start_rests (h : walk.Rests edges order) (node : Fin count) :
    ∃ order', (walk.start edges node).Rests edges order' ∧ (walk.start edges node).state node ≠ .unseen ∧
      ∀ other, walk.state other ≠ .unseen → (walk.start edges node).state other ≠ .unseen := by
  unfold start
  split
  · rename_i hseen
    exact ⟨order, h, hseen, fun _ hother => hother⟩
  · rename_i hunseen
    have hunseen : walk.state node = .unseen := not_not.mp hunseen
    have hempty : ([] : List (Fin count × Nat)).map Prod.fst = walk.stack.map Prod.fst := by rw [h.stack]
    have hentered := h.valid.enter hunseen hempty trivial (List.pairwise_singleton _ _)
    obtain ⟨order', hvalid, hstack, hseen⟩ := run_valid hentered
    refine ⟨order', ⟨hvalid, hstack⟩, hseen node ?_, fun other hother => hseen other ?_⟩
    · dsimp only
      rw [Function.update_self]
      decide
    · rcases eq_or_ne other node with rfl | hne
      · exact absurd hunseen hother
      · dsimp only
        rwa [Function.update_of_ne hne]

theorem foldl_start_rests (starts : List (Fin count)) (h : walk.Rests edges order) :
    ∃ order', (starts.foldl (start edges) walk).Rests edges order' ∧
      (∀ node ∈ starts, (starts.foldl (start edges) walk).state node ≠ .unseen) ∧
      ∀ node, walk.state node ≠ .unseen → (starts.foldl (start edges) walk).state node ≠ .unseen := by
  induction starts generalizing walk order with
  | nil => exact ⟨order, h, fun node hnode => absurd hnode List.not_mem_nil, fun _ hseen => hseen⟩
  | cons first starts ih =>
    obtain ⟨order', hrests, hfirst, hseen⟩ := start_rests h first
    obtain ⟨order'', hrests, hstarts, hmore⟩ := ih hrests
    refine ⟨order'', hrests, fun node hnode => ?_, fun node hnode => hmore node (hseen node hnode)⟩
    rcases List.mem_cons.mp hnode with rfl | hnode
    · exact hmore _ hfirst
    · exact hstarts node hnode

end Walk

theorem Settled.idxOf_lt {back : List (Edge count)} {order : List (Fin count)} (h : Settled edges back order)
    (hnodup : order.Nodup) {a b : Fin count} (ha : a ∈ order) (hedge : Feeds edges a b) (hback : (a, b) ∉ back) :
    b ∈ order ∧ order.idxOf a < order.idxOf b := by
  induction order with
  | nil => cases ha
  | cons node order ih =>
    obtain ⟨hnode, hnodup⟩ := List.nodup_cons.mp hnodup
    have hbelow : b ∈ order → b ≠ node := fun hb heq => hnode (heq ▸ hb)
    rcases List.mem_cons.mp ha with rfl | ha
    · have hb := (h.1 b (mem_outgoing.mpr hedge)).resolve_left hback
      refine ⟨List.mem_cons_of_mem _ hb, ?_⟩
      rw [List.idxOf_cons_self, List.idxOf_cons_ne _ (hbelow hb).symm]
      exact Nat.succ_pos _
    · obtain ⟨hb, hlt⟩ := ih h.2 hnodup ha
      refine ⟨List.mem_cons_of_mem _ hb, ?_⟩
      have hne : a ≠ node := fun heq => hnode (heq ▸ ha)
      rw [List.idxOf_cons_ne _ hne.symm, List.idxOf_cons_ne _ (hbelow hb).symm]
      exact Nat.succ_lt_succ hlt

theorem exists_walk (edges : List (Edge count)) (center : Option (Fin count)) :
    ∃ (walk : Walk count) (order : List (Fin count)), walk.Valid edges order ∧ (∀ node, node ∈ order) ∧
      acyclic edges center = edges.filter fun edge => edge ∉ walk.back := by
  obtain ⟨order, hrests, hseen, -⟩ :=
    Walk.foldl_start_rests (center.toList ++ List.finRange count) (⟨Walk.valid_new, rfl⟩ : Walk.new.Rests edges [])
  refine ⟨_, order, hrests.valid, fun node => ?_, rfl⟩
  rw [← hrests.valid.done_iff]
  have hnode := hseen node (List.mem_append_right _ (List.mem_finRange node))
  have hpath := hrests.valid.path_iff node
  rw [hrests.stack, List.map_nil] at hpath
  cases hstate : Walk.state _ node with
  | unseen => exact absurd hstate hnode
  | on_path => exact absurd (hpath.mp hstate) List.not_mem_nil
  | done => rfl

theorem acyclic_ranked (edges : List (Edge count)) (center : Option (Fin count)) :
    ∃ rank : Fin count → Nat, graph.Ranked (acyclic edges center) rank := by
  obtain ⟨walk, order, hvalid, hall, heq⟩ := exists_walk edges center
  refine ⟨order.idxOf, fun edge hedge => ?_⟩
  rw [heq] at hedge
  obtain ⟨hmem, hback⟩ := List.mem_filter.mp hedge
  exact (hvalid.settled.idxOf_lt hvalid.order_nodup (hall edge.1) hmem (by simpa using hback)).2

theorem acyclic_eq_self (h : graph.Acyclic (Feeds edges)) (center : Option (Fin count)) : acyclic edges center = edges := by
  obtain ⟨walk, order, hvalid, -, heq⟩ := exists_walk edges center
  rw [heq]
  refine List.filter_eq_self.mpr fun edge hedge => ?_
  have hback : edge ∉ walk.back := fun hmem => by
    obtain ⟨hfeeds, hreach⟩ := hvalid.back_closes edge hmem
    exact h edge.1 (Relation.TransGen.head' hfeeds hreach)
  simpa using hback

end zed.dbt_ui.graph_layout
