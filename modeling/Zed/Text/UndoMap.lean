import Zed.Clock
import Zed.Rope.Text
import Zed.SumTree.Keyed
import Zed.Text.Patch

namespace zed.text

open zed.clock zed.rope

structure EditOperation where
  timestamp : Lamport
  version : Global
  ranges : List Range
  new_text : List Str
deriving DecidableEq

/-- A hash map from edit ids to undo counts: the entries in the order the map
    happens to iterate in. -/
structure Counts where
  entries : List (Lamport × Nat)
  distinct : (entries.map Prod.fst).Nodup
deriving DecidableEq

namespace Counts

def empty : Counts := { entries := [], distinct := List.nodup_nil }

def keys (counts : Counts) : List Lamport := counts.entries.map Prod.fst

/-- Replaces the entry of a key that is there already. -/
def insert (counts : Counts) (edit_id : Lamport) (count : Nat) : Counts :=
  { entries := (edit_id, count) :: counts.entries.filter fun entry => decide (entry.1 ≠ edit_id)
    distinct := by
      rw [List.map_cons, List.nodup_cons]
      refine ⟨?_, counts.distinct.sublist (List.filter_sublist.map Prod.fst)⟩
      intro hmem
      obtain ⟨entry, hentry, heq⟩ := List.mem_map.mp hmem
      simpa [heq] using (List.mem_filter.mp hentry).2 }

theorem mem_insert {counts : Counts} {edit_id : Lamport} {count : Nat} {entry : Lamport × Nat} :
    entry ∈ (counts.insert edit_id count).entries ↔
      entry = (edit_id, count) ∨ entry ∈ counts.entries ∧ entry.1 ≠ edit_id := by
  simp [insert]

end Counts

structure UndoOperation where
  timestamp : Lamport
  version : Global
  counts : Counts
deriving DecidableEq

inductive Operation
  | Edit (edit : EditOperation)
  | Undo (undo : UndoOperation)
deriving DecidableEq

namespace Operation

def timestamp : Operation → Lamport
  | .Edit edit => edit.timestamp
  | .Undo undo => undo.timestamp

def version : Operation → Global
  | .Edit edit => edit.version
  | .Undo undo => undo.version

def replica_id (op : Operation) : Nat := op.timestamp.replica_id

end Operation

structure UndoMapKey where
  edit_id : Lamport
  undo_id : Lamport
deriving DecidableEq

instance : LinearOrder UndoMapKey :=
  LinearOrder.lift' (fun key => toLex (key.edit_id, key.undo_id)) fun a b h => by
    cases a
    cases b
    simpa using h

theorem UndoMapKey.lt_iff {a b : UndoMapKey} :
    a < b ↔ a.edit_id < b.edit_id ∨ a.edit_id = b.edit_id ∧ a.undo_id < b.undo_id :=
  Prod.Lex.toLex_lt_toLex

theorem UndoMapKey.edit_id_le_of_le (a b : UndoMapKey) (h : a ≤ b) : a.edit_id ≤ b.edit_id := by
  rcases Prod.Lex.toLex_le_toLex.mp h with hlt | heq
  · exact hlt.le
  · exact heq.1.le

structure UndoMapEntry where
  key : UndoMapKey
  undo_count : Nat
deriving DecidableEq

instance : sum_tree.KeyedItem UndoMapEntry UndoMapKey := ⟨UndoMapEntry.key⟩

abbrev UndoMap := List UndoMapEntry

namespace UndoMap

def insert (undos : UndoMap) (undo : UndoOperation) : UndoMap :=
  sum_tree.edit undos (undo.counts.entries.map fun entry =>
    .Insert { key := { edit_id := entry.1, undo_id := undo.timestamp }, undo_count := entry.2 })

/-- The entries of an edit: what both counts iterate over. -/
def entries_of (undos : UndoMap) (edit_id : Lamport) : List UndoMapEntry :=
  (undos.dropWhile fun entry => decide (entry.key < { edit_id, undo_id := Lamport.MIN })).takeWhile
    fun entry => decide (entry.key.edit_id = edit_id)

def undo_count (undos : UndoMap) (edit_id : Lamport) : Nat :=
  (entries_of undos edit_id).foldl (fun undo_count entry => max undo_count entry.undo_count) 0

def undo_count_at (undos : UndoMap) (edit_id : Lamport) (version : Global) : Nat :=
  (entries_of undos edit_id).foldl
    (fun undo_count entry =>
      if version.observed entry.key.undo_id then max undo_count entry.undo_count else undo_count) 0

def is_undone (undos : UndoMap) (edit_id : Lamport) : Bool := undo_count undos edit_id % 2 == 1

def was_undone (undos : UndoMap) (edit_id : Lamport) (version : Global) : Bool :=
  undo_count_at undos edit_id version % 2 == 1

open sum_tree (Sorted)

theorem mem_entries_of {undos : UndoMap} (hsorted : Sorted undos) {edit_id : Lamport}
    {entry : UndoMapEntry} :
    entry ∈ entries_of undos edit_id ↔ entry ∈ undos ∧ entry.key.edit_id = edit_id := by
  have hread : entries_of undos edit_id = undos.filter fun entry =>
      decide (entry.key.edit_id = edit_id) := by
    refine hsorted.read_from UndoMapKey.edit_id_le_of_le (fun x => ?_) fun x => decide_eq_true_iff
    rw [decide_eq_true_iff, UndoMapKey.lt_iff]
    constructor
    · rintro (hlt | ⟨_, hlt⟩)
      · exact hlt
      · exact absurd hlt (not_lt.mpr (Lamport.MIN_le _))
    · exact Or.inl
  rw [hread]
  simp

private theorem foldl_max_le (keep : UndoMapEntry → Bool) (entries : List UndoMapEntry) (start n : Nat) :
    entries.foldl (fun count entry => if keep entry then max count entry.undo_count else count) start ≤ n ↔
      start ≤ n ∧ ∀ entry ∈ entries, keep entry = true → entry.undo_count ≤ n := by
  induction entries generalizing start with
  | nil => simp
  | cons entry entries ih =>
    rw [List.foldl_cons, ih]
    by_cases hkeep : keep entry = true
    · simp [hkeep, and_assoc]
    · simp [hkeep]

theorem undo_count_at_le {undos : UndoMap} (hsorted : Sorted undos) {edit_id : Lamport}
    {version : Global} {n : Nat} :
    undo_count_at undos edit_id version ≤ n ↔ ∀ entry ∈ undos, entry.key.edit_id = edit_id →
      version.observed entry.key.undo_id = true → entry.undo_count ≤ n := by
  rw [undo_count_at, foldl_max_le fun entry => version.observed entry.key.undo_id]
  simp only [mem_entries_of hsorted, Nat.zero_le, true_and, and_imp]

theorem undo_count_le {undos : UndoMap} (hsorted : Sorted undos) {edit_id : Lamport} {n : Nat} :
    undo_count undos edit_id ≤ n ↔
      ∀ entry ∈ undos, entry.key.edit_id = edit_id → entry.undo_count ≤ n := by
  have hfold := foldl_max_le (fun _ => true) (entries_of undos edit_id) 0 n
  simp only [if_true, Nat.zero_le, true_and, true_implies, mem_entries_of hsorted, and_imp] at hfold
  exact hfold

theorem undo_count_congr {undos other : UndoMap} (hsorted : Sorted undos) (hother : Sorted other)
    {edit_id : Lamport} (h : ∀ entry : UndoMapEntry, entry.key.edit_id = edit_id →
      (entry ∈ undos ↔ entry ∈ other)) : undo_count undos edit_id = undo_count other edit_id := by
  refine eq_of_forall_ge_iff fun n => ?_
  rw [undo_count_le hsorted, undo_count_le hother]
  exact ⟨fun hle entry hentry hedit => hle entry ((h entry hedit).mpr hentry) hedit,
    fun hle entry hentry hedit => hle entry ((h entry hedit).mp hentry) hedit⟩

theorem undo_count_at_eq {undos : UndoMap} (hsorted : Sorted undos) {edit_id : Lamport}
    {version : Global} (h : ∀ entry ∈ undos, entry.key.edit_id = edit_id →
      version.observed entry.key.undo_id = true) :
    undo_count_at undos edit_id version = undo_count undos edit_id := by
  refine eq_of_forall_ge_iff fun n => ?_
  rw [undo_count_at_le hsorted, undo_count_le hsorted]
  exact ⟨fun hle entry hentry hedit => hle entry hentry hedit (h entry hentry hedit),
    fun hle entry hentry hedit _ => hle entry hentry hedit⟩

private theorem insert_keys (undo : UndoOperation) :
    ((undo.counts.entries.map fun entry => sum_tree.Edit.Insert (K := UndoMapKey)
      ({ key := { edit_id := entry.1, undo_id := undo.timestamp }, undo_count := entry.2 } :
        UndoMapEntry)).map sum_tree.Edit.key).Nodup := by
  rw [List.map_map]
  have hfst := undo.counts.distinct
  refine (List.pairwise_map.mp hfst).map _ fun a b hab heq => hab ?_
  exact congrArg UndoMapKey.edit_id heq

theorem insert_sorted {undos : UndoMap} (hsorted : Sorted undos) (undo : UndoOperation) :
    Sorted (insert undos undo) := (sum_tree.edit_spec (insert_keys undo) hsorted).1

/-- A new undo adds an entry for each of its counts and keeps the others. -/
theorem mem_insert {undos : UndoMap} (hsorted : Sorted undos) {undo : UndoOperation}
    (hfresh : ∀ entry ∈ undos, entry.key.undo_id ≠ undo.timestamp) {entry : UndoMapEntry} :
    entry ∈ insert undos undo ↔ entry ∈ undos ∨
      entry.key.undo_id = undo.timestamp ∧ (entry.key.edit_id, entry.undo_count) ∈ undo.counts.entries := by
  unfold insert
  rw [(sum_tree.edit_spec (insert_keys undo) hsorted).2, or_comm]
  refine or_congr ?_ ?_
  · refine ⟨fun h => h.1, fun h => ⟨h, fun edit hedit heq => ?_⟩⟩
    obtain ⟨count, _, rfl⟩ := List.mem_map.mp hedit
    exact hfresh entry h (congrArg UndoMapKey.undo_id heq).symm
  · rw [List.mem_map]
    constructor
    · rintro ⟨count, hcount, heq⟩
      cases heq
      exact ⟨rfl, hcount⟩
    · rintro ⟨hundo, hcount⟩
      refine ⟨_, hcount, ?_⟩
      obtain ⟨⟨edit_id, undo_id⟩, undo_count⟩ := entry
      simp only at hundo
      rw [hundo]

theorem undo_count_insert_of_notMem {undos : UndoMap} (hsorted : Sorted undos) {undo : UndoOperation}
    (hfresh : ∀ entry ∈ undos, entry.key.undo_id ≠ undo.timestamp) {edit_id : Lamport}
    (hnot : edit_id ∉ undo.counts.keys) :
    undo_count (insert undos undo) edit_id = undo_count undos edit_id := by
  refine undo_count_congr (insert_sorted hsorted undo) hsorted fun entry hedit => ?_
  rw [mem_insert hsorted hfresh, or_iff_left]
  rintro ⟨_, hmem⟩
  exact hnot (List.mem_map.mpr ⟨_, hmem, hedit⟩)

theorem undo_count_insert {undos : UndoMap} (hsorted : Sorted undos) {undo : UndoOperation}
    (hfresh : ∀ entry ∈ undos, entry.key.undo_id ≠ undo.timestamp) {edit_id : Lamport} {count : Nat}
    (hmem : (edit_id, count) ∈ undo.counts.entries) :
    undo_count (insert undos undo) edit_id = max (undo_count undos edit_id) count := by
  refine eq_of_forall_ge_iff fun n => ?_
  rw [undo_count_le (insert_sorted hsorted undo), max_le_iff, undo_count_le hsorted]
  constructor
  · intro hle
    refine ⟨fun entry hentry => hle entry ((mem_insert hsorted hfresh).mpr (Or.inl hentry)), ?_⟩
    exact hle { key := { edit_id, undo_id := undo.timestamp }, undo_count := count }
      ((mem_insert hsorted hfresh).mpr (Or.inr ⟨rfl, hmem⟩)) rfl
  · rintro ⟨hle, hcount⟩ entry hentry hedit
    rcases (mem_insert hsorted hfresh).mp hentry with hold | ⟨_, hnew⟩
    · exact hle entry hold hedit
    · -- the entries of a hash map have distinct keys
      rw [hedit] at hnew
      have hsame := List.inj_on_of_nodup_map undo.counts.distinct hnew hmem rfl
      rw [(Prod.mk.inj hsame).2]
      exact hcount

end UndoMap

end zed.text
