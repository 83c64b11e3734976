import Zed.Worktree

namespace zed.proto

variable {Status Branch : Type}

/-- One repository entry after another of the same repository. -/
def RepositoryEntry.glue (first second : RepositoryEntry Status Branch) : RepositoryEntry Status Branch :=
  { first with
    updated_statuses := first.updated_statuses ++ second.updated_statuses
    removed_statuses := first.removed_statuses ++ second.removed_statuses }

/-- Repository entries, each whole or cut into pieces. -/
inductive Pieces : List (RepositoryEntry Status Branch) → List (RepositoryEntry Status Branch) → Prop
  | nil : Pieces [] []
  | whole {repo : RepositoryEntry Status Branch} {rest pieces} : Pieces rest pieces → Pieces (repo :: rest) (repo :: pieces)
  | cut {piece left : RepositoryEntry Status Branch} {rest pieces} (hid : piece.repository_id = left.repository_id)
    (hconflicts : piece.current_merge_conflicts = left.current_merge_conflicts)
    (hbranch : piece.branch_summary = left.branch_summary) : Pieces (left :: rest) pieces →
      Pieces (piece.glue left :: rest) (piece :: pieces)

theorem RepositoryEntry.split_glue (repo : RepositoryEntry Status Branch) (limit : Nat) :
    (repo.split limit).1.glue (repo.split limit).2 = repo := by
  simp only [RepositoryEntry.split, RepositoryEntry.glue, List.take_append_drop]

theorem RepositoryEntry.split_whole {repo : RepositoryEntry Status Branch} {limit : Nat}
    (h : (repo.split limit).2.statuses = 0) : (repo.split limit).1 = repo := by
  have hglue := repo.split_glue limit
  have hempty := Nat.add_eq_zero_iff.mp h
  rw [RepositoryEntry.glue, List.eq_nil_of_length_eq_zero hempty.1, List.eq_nil_of_length_eq_zero hempty.2,
    List.append_nil, List.append_nil] at hglue
  exact hglue

/-- What the repositories have to send. -/
def repositoryLoad (repos : List (RepositoryEntry Status Branch)) : Nat := (repos.map fun repo => repo.statuses + 1).sum

/-- A round takes some of each kind of statuses, at most the limit, and leaves less. -/
theorem split_repositories_spec {limit : Nat} (hlimit : 0 < limit) (repos : List (RepositoryEntry Status Branch)) :
    (∀ pieces, Pieces (split_repositories limit repos).2 pieces →
      Pieces repos ((split_repositories limit repos).1 ++ pieces)) ∧
    ((split_repositories limit repos).1.map (·.updated_statuses.length)).sum ≤ limit ∧
    ((split_repositories limit repos).1.map (·.removed_statuses.length)).sum ≤ limit ∧
    (repos ≠ [] → repositoryLoad (split_repositories limit repos).2 < repositoryLoad repos) := by
  induction repos generalizing limit with
  | nil => exact ⟨fun pieces h => h, Nat.zero_le _, Nat.zero_le _, fun h => absurd rfl h⟩
  | cons repo rest ih =>
    have hupdated : (repo.split limit).1.updated_statuses.length = min repo.updated_statuses.length limit := by
      simp [RepositoryEntry.split]
    have hremoved : (repo.split limit).1.removed_statuses.length = min repo.removed_statuses.length limit := by
      simp [RepositoryEntry.split]
    have hstatuses : (repo.split limit).2.statuses + (repo.split limit).1.statuses = repo.statuses := by
      simp [RepositoryEntry.split, RepositoryEntry.statuses]
      omega
    unfold split_repositories
    dsimp only
    by_cases hleft : (repo.split limit).2.statuses ≠ 0
    · rw [if_pos hleft]
      refine ⟨fun pieces h => ?_, ?_, ?_, fun _ => ?_⟩
      · have hcut : Pieces ((repo.split limit).1.glue (repo.split limit).2 :: rest) ((repo.split limit).1 :: pieces) :=
          .cut rfl rfl rfl h
        rwa [repo.split_glue] at hcut
      · simp [hupdated]
      · simp [hremoved]
      · have hsome : 0 < (repo.split limit).1.statuses := by
          simp only [RepositoryEntry.statuses, hupdated, hremoved]
          simp only [RepositoryEntry.split, RepositoryEntry.statuses, List.length_drop] at hleft
          omega
        simp only [repositoryLoad, List.map_cons, List.sum_cons]
        omega
    · rw [if_neg hleft]
      have hwhole := RepositoryEntry.split_whole (not_not.mp hleft)
      rw [hwhole] at hupdated hremoved ⊢
      by_cases hfull : limit - repo.statuses = 0
      · rw [if_pos hfull]
        refine ⟨fun pieces h => .whole h, ?_, ?_, fun _ => ?_⟩
        · simp only [List.map_cons, List.map_nil, List.sum_cons, List.sum_nil]
          omega
        · simp only [List.map_cons, List.map_nil, List.sum_cons, List.sum_nil]
          omega
        · simp only [repositoryLoad, List.map_cons, List.sum_cons]
          omega
      · rw [if_neg hfull]
        obtain ⟨hpieces, hupdatedRest, hremovedRest, hload⟩ := ih (Nat.pos_of_ne_zero hfull)
        refine ⟨fun pieces h => .whole (hpieces pieces h), ?_, ?_, fun _ => ?_⟩
        · simp only [List.map_cons, List.sum_cons, RepositoryEntry.statuses] at *
          omega
        · simp only [List.map_cons, List.sum_cons, RepositoryEntry.statuses] at *
          omega
        · simp only [repositoryLoad, List.map_cons, List.sum_cons] at *
          by_cases hnil : rest = []
          · subst hnil
            simp [split_repositories]
          · have := hload hnil
            omega

/-- As long as the iterator is not done, less is left to send. -/
theorem split_next_load {size : Nat} (hsize : 0 < size) {message : UpdateWorktree Status Branch}
    (h : (split_next size message).2.2 = false) : (split_next size message).2.1.load < message.load := by
  obtain ⟨-, -, -, hload⟩ := split_repositories_spec hsize message.updated_repositories
  by_cases hrepositories : message.updated_repositories = []
  · simp only [split_next, hrepositories, split_repositories, Bool.and_eq_false_iff, List.isEmpty_eq_false_iff,
      ← List.length_pos_iff, List.length_drop, List.length_nil] at h
    simp only [split_next, UpdateWorktree.load, hrepositories, split_repositories, List.length_drop]
    omega
  · have hless := hload hrepositories
    simp only [repositoryLoad] at hless
    simp only [split_next, UpdateWorktree.load, List.length_drop]
    omega

/-- Every message of the iterator. A size of zero, with which it would not end, is excluded. -/
def split_worktree_update (size : Nat) (hsize : 0 < size) (message : UpdateWorktree Status Branch) :
    List (UpdateWorktree Status Branch) :=
  if _hdone : (split_next size message).2.2 = true then [(split_next size message).1]
  else (split_next size message).1 :: split_worktree_update size hsize (split_next size message).2.1
termination_by message.load
decreasing_by exact split_next_load hsize (Bool.not_eq_true _ ▸ _hdone)

/-- What every message says of an update. -/
def UpdateWorktree.header (message : UpdateWorktree Status Branch) : UpdateWorktree Status Branch :=
  { message with
    updated_entries := [], removed_entries := [], updated_repositories := [], removed_repositories := []
    is_last_update := false }

/-- A message with no more of a kind than the size. -/
structure UpdateWorktree.Within (size : Nat) (message : UpdateWorktree Status Branch) : Prop where
  updated_entries : message.updated_entries.length ≤ size
  removed_entries : message.removed_entries.length ≤ size
  updated_statuses : (message.updated_repositories.map (·.updated_statuses.length)).sum ≤ size
  removed_statuses : (message.updated_repositories.map (·.removed_statuses.length)).sum ≤ size

/-- Messages that say together, once and in order, what one update says; the last one says that it is. -/
structure Splits (size : Nat) (message : UpdateWorktree Status Branch) (chunks : List (UpdateWorktree Status Branch)) :
    Prop where
  updated_entries : chunks.flatMap (·.updated_entries) = message.updated_entries
  removed_entries : chunks.flatMap (·.removed_entries) = message.removed_entries
  repositories : Pieces message.updated_repositories (chunks.flatMap (·.updated_repositories))
  header : ∀ chunk ∈ chunks, chunk.header = message.header
  within : ∀ chunk ∈ chunks, chunk.Within size
  last : ∃ front final, chunks = front ++ [final] ∧ final.is_last_update = message.is_last_update ∧
    final.removed_repositories = message.removed_repositories ∧
    ∀ chunk ∈ front, chunk.is_last_update = false ∧ chunk.removed_repositories = []

theorem split_next_within {size : Nat} (hsize : 0 < size) (message : UpdateWorktree Status Branch) :
    (split_next size message).1.Within size := by
  obtain ⟨-, hupdated, hremoved, -⟩ := split_repositories_spec hsize message.updated_repositories
  refine ⟨?_, ?_, hupdated, hremoved⟩
  · simp [split_next]
  · simp [split_next]

/-- The rest of the messages after the first. -/
theorem Splits.cons {size : Nat} (hsize : 0 < size) {message : UpdateWorktree Status Branch}
    {chunks : List (UpdateWorktree Status Branch)} (hdone : (split_next size message).2.2 = false)
    (h : Splits size (split_next size message).2.1 chunks) : Splits size message ((split_next size message).1 :: chunks) := by
  obtain ⟨hpieces, -⟩ := split_repositories_spec hsize message.updated_repositories
  obtain ⟨front, final, rfl, hlast, hrepositories, hfront⟩ := h.last
  have hremoved : (split_next size message).2.1.removed_repositories = message.removed_repositories :=
    if_neg (ne_true_of_eq_false hdone)
  have hchunk : (split_next size message).1.removed_repositories = [] := if_neg (ne_true_of_eq_false hdone)
  have hflag : (split_next size message).1.is_last_update = false := Bool.and_eq_false_imp.mpr fun h => by
    cases hdone.symm.trans h
  refine ⟨?_, ?_, ?_, ?_, ?_, (split_next size message).1 :: front, final, rfl, hlast, hrepositories.trans hremoved, ?_⟩
  · rw [List.flatMap_cons, h.updated_entries]
    simp [split_next, List.take_append_drop]
  · rw [List.flatMap_cons, h.removed_entries]
    simp [split_next, List.take_append_drop]
  · rw [List.flatMap_cons]
    exact hpieces _ h.repositories
  · exact List.forall_mem_cons.mpr ⟨rfl, h.header⟩
  · exact List.forall_mem_cons.mpr ⟨split_next_within hsize message, h.within⟩
  · exact List.forall_mem_cons.mpr ⟨⟨hflag, hchunk⟩, hfront⟩

theorem Splits.single {size : Nat} (hsize : 0 < size) {message : UpdateWorktree Status Branch}
    (hdone : (split_next size message).2.2 = true) : Splits size message [(split_next size message).1] := by
  obtain ⟨hpieces, -⟩ := split_repositories_spec hsize message.updated_repositories
  have hleft := hdone
  simp only [split_next, Bool.and_eq_true, List.isEmpty_iff, List.drop_eq_nil_iff] at hleft
  obtain ⟨⟨hupdated, hremoved⟩, hrepositories⟩ := hleft
  rw [hrepositories] at hpieces
  refine ⟨?_, ?_, ?_, ?_, ?_, [], _, rfl, ?_, if_pos hdone, fun chunk h => absurd h List.not_mem_nil⟩
  · simpa [split_next] using hupdated
  · simpa [split_next] using hremoved
  · simpa [split_next] using hpieces [] .nil
  · exact List.forall_mem_singleton.mpr rfl
  · exact List.forall_mem_singleton.mpr (split_next_within hsize message)
  · exact (congrArg (· && message.is_last_update) hdone).trans (Bool.true_and _)

/-- Splitting an update loses nothing, repeats nothing and keeps every message within the size. -/
theorem split_worktree_update_splits (size : Nat) (hsize : 0 < size) (message : UpdateWorktree Status Branch) :
    Splits size message (split_worktree_update size hsize message) := by
  induction message using split_worktree_update.induct size hsize with
  | case1 message hdone =>
    rw [split_worktree_update, dif_pos hdone]
    exact .single hsize hdone
  | case2 message hdone ih =>
    rw [split_worktree_update, dif_neg hdone]
    exact .cons hsize (Bool.not_eq_true _ ▸ hdone) ih

theorem split_worktree_update_splits_sample :
    Splits 2 ⟨1, 1, ['a'], [], [3, 4, 5], [⟨7, [true, true, false], [['b']], [], some 'm'⟩], [8], 2, true, ['a'], none, false⟩
      (split_worktree_update 2 (by decide)
        ⟨1, 1, ['a'], [], [3, 4, 5], [⟨7, [true, true, false], [['b']], [], some 'm'⟩], [8], 2, true, ['a'], none, false⟩) :=
  split_worktree_update_splits 2 (by decide) _

end zed.proto
