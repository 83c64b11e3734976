import Zed.Text.Network

namespace zed.text

open zed.clock zed.rope
open zed.sum_tree (Sorted)

/-- The bytes of an insertion: what an edit inserts, or the base text. -/
def insertion (base_text : Str) (ops : List Operation) (timestamp : Lamport) : Rope :=
  match ops.find? fun op => decide (op.timestamp = timestamp) with
  | some (.Edit edit) => edit.new_text.flatMap utf8
  | some (.Undo _) => []
  | none => if timestamp = baseTimestamp then utf8 (normalize base_text) else []

/-- How many bytes an operation inserts. -/
def Operation.inserted_len : Operation → Nat
  | .Edit edit => (edit.new_text.flatMap utf8).length
  | .Undo _ => 0

theorem insertion_length_le {base_text : Str} {ops : List Operation} {n : Nat}
    (hbase : (utf8 (normalize base_text)).length ≤ n)
    (hops : ∀ edit, Operation.Edit edit ∈ ops → (edit.new_text.flatMap utf8).length ≤ n) (timestamp : Lamport) :
    (insertion base_text ops timestamp).length ≤ n := by
  unfold insertion
  split
  · rename_i edit hfind
    exact hops edit (List.mem_of_find?_eq_some hfind)
  · exact Nat.zero_le _
  · split
    · exact hbase
    · exact Nat.zero_le _

def Fragment.content (inserted : Lamport → Rope) (fragment : Fragment) : Rope :=
  ((inserted fragment.timestamp).drop fragment.insertion_offset).take fragment.len

/-- Fragments that follow on each other in one insertion. -/
def Contiguous (stop : Nat) : Nat → List Fragment → Prop
  | offset, [] => offset = stop
  | offset, fragment :: fragments =>
    fragment.insertion_offset = offset ∧ 0 < fragment.len ∧ Contiguous stop (offset + fragment.len) fragments

theorem contiguous_of_atoms {timestamp : Lamport} {offset n : Nat} {fragments : List Fragment}
    (hpos : ∀ fragment ∈ fragments, 0 < fragment.len)
    (h : (atoms fragments).map Atom.id = (List.range n).map fun i => (timestamp, offset + i)) :
    Contiguous (offset + n) offset fragments := by
  induction fragments generalizing offset n with
  | nil =>
    have hlength := congrArg List.length h
    simp at hlength
    simp [Contiguous, ← hlength]
  | cons fragment fragments ih =>
    have hlen := hpos fragment List.mem_cons_self
    rw [atoms_cons, List.map_append] at h
    have hlength := congrArg List.length h
    simp only [List.length_append, List.length_map, Fragment.atoms_length, List.length_range] at hlength
    obtain ⟨m, rfl⟩ : ∃ m, n = fragment.len + m := ⟨n - fragment.len, by omega⟩
    rw [List.range_add, List.map_append, List.map_map] at h
    obtain ⟨hfirst, hrest⟩ := List.append_inj h (by simp)
    have hhead : fragment.insertion_offset = offset := by
      have := congrArg (fun ids : List AtomId => ids[0]?) hfirst
      simp only [Fragment.atoms, List.map_map, List.getElem?_map, List.getElem?_range hlen, Option.map_some,
        Option.some.injEq] at this
      exact congrArg Prod.snd this
    refine ⟨hhead, hlen, ?_⟩
    rw [← Nat.add_assoc]
    refine ih (fun other hother => hpos other (List.mem_cons_of_mem _ hother)) ?_
    rw [hrest]
    simp [Nat.add_assoc]

/-- What the fragments, their locators, the index of the insertions and the
    summary of the tree owe each other. -/
structure FragmentStore (inserted : Lamport → Rope) (snapshot : BufferSnapshot) : Prop where
  increasing : (snapshot.fragments.map Fragment.id).Pairwise (· < ·)
  bounds : ∀ fragment ∈ snapshot.fragments, Locator.min < fragment.id ∧ fragment.id < Locator.max
  keys : (snapshot.fragments.map fun fragment => (fragment.timestamp, fragment.insertion_offset)).Nodup
  insertions : Sorted snapshot.insertions ∧ ∀ insertion : InsertionFragment,
    insertion ∈ snapshot.insertions ↔ ∃ fragment ∈ snapshot.fragments,
      insertion = ⟨fragment.timestamp, fragment.insertion_offset, fragment.id⟩
  contiguous : ∀ timestamp, Contiguous
    (if snapshot.version.observed timestamp then (inserted timestamp).length else 0) 0
    (snapshot.fragments.filter fun fragment => decide (fragment.timestamp = timestamp))
  lengths : (summary snapshot.fragments).text = ⟨snapshot.visible_text.length, snapshot.deleted_text.length⟩

theorem Gauge.atoms_filter (gauge : Gauge) (fragments : List Fragment) :
    atoms (fragments.filter gauge.counted) = (atoms fragments).filter gauge.obs := by
  induction fragments with
  | nil => rfl
  | cons fragment fragments ih =>
    rw [atoms_cons, List.filter_append, ← ih, List.filter_cons]
    split
    · rename_i hcounted
      rw [atoms_cons, List.filter_eq_self.mpr fun atom hatom => (gauge.agree fragment atom hatom).trans hcounted]
    · rename_i hcounted
      rw [List.filter_eq_nil_iff.mpr fun atom hatom h => hcounted ((gauge.agree fragment atom hatom).symm.trans h),
        List.nil_append]

/-- The dimension of deleted bytes. -/
def Gauge.deleted : Gauge :=
  { counted := fun fragment => !fragment.visible
    obs := fun atom => !atom.visible
    agree := fun _ _ hatom => by rw [(Fragment.atoms_eq_of_mem hatom).2.1] }

theorem Gauge.deleted_len : Gauge.deleted.len = Fragment.deleted_len := by
  funext fragment
  by_cases hvisible : fragment.visible = true <;> simp [Gauge.len, Gauge.deleted, Fragment.deleted_len, hvisible]

/-- The dimension of one insertion. -/
def Gauge.inserted (timestamp : Lamport) : Gauge :=
  { counted := fun fragment => decide (fragment.timestamp = timestamp)
    obs := fun atom => decide (atom.timestamp = timestamp)
    agree := fun _ _ hatom => by rw [(Fragment.atoms_eq_of_mem hatom).1] }

namespace Ledger

variable {ledger : Ledger} {snapshot : BufferSnapshot} {base_text : Str} {ops : List Operation}

theorem payload_eq_insertion (hbase : ledger.base = utf8 (normalize base_text)) (hops : ledger.ops = ops)
    (timestamp : Lamport) : ledger.payload timestamp = insertion base_text ops timestamp := by
  have hfind : ops.find? (fun op => decide (op.timestamp = timestamp)) =
      (ledger.find timestamp).map Record.op := by
    rw [← hops, Ledger.ops, List.find?_map]
    rfl
  rw [payload, insertion, hfind, ← hbase]
  cases ledger.find timestamp with
  | none => rfl
  | some record =>
    obtain ⟨op, doc, seen⟩ := record
    cases op <;> rfl

theorem Mirrors.fragment_content (h : ledger.Mirrors snapshot) {fragment : Fragment}
    (hfragment : fragment ∈ snapshot.fragments) :
    bytes ledger.content fragment.atoms = fragment.content ledger.payload := by
  have hend : fragment.insertion_offset + fragment.len ≤ (ledger.payload fragment.timestamp).length := by
    have hlen := h.store.len_pos fragment hfragment
    have hatom : fragment.atom (fragment.len - 1) ∈ atoms snapshot.fragments :=
      List.mem_flatMap.mpr ⟨fragment, hfragment, Fragment.mem_atoms.mpr ⟨_, by omega, rfl⟩⟩
    have hmember : fragment.insertion_offset + (fragment.len - 1) < (ledger.payload fragment.timestamp).length :=
      (h.member hatom).2
    omega
  apply List.ext_getElem
  · simp only [bytes, Fragment.content, List.length_map, Fragment.atoms_length, List.length_take, List.length_drop]
    omega
  · intro i hi hi'
    simp only [bytes, List.length_map, Fragment.atoms_length] at hi
    have hlt : fragment.insertion_offset + i < (ledger.payload fragment.timestamp).length := by omega
    simp [bytes, Fragment.content, Fragment.atoms, Fragment.atom, Atom.id, content, hlt]

theorem Mirrors.bytes_filter (h : ledger.Mirrors snapshot) (gauge : Gauge) :
    bytes ledger.content ((atoms snapshot.fragments).filter gauge.obs) =
      (snapshot.fragments.filter gauge.counted).flatMap (Fragment.content ledger.payload) := by
  have hcontent : ∀ fragment ∈ snapshot.fragments.filter gauge.counted,
      bytes ledger.content fragment.atoms = fragment.content ledger.payload := fun _ hmem =>
    h.fragment_content (List.mem_filter.mp hmem).1
  rw [← gauge.atoms_filter, bytes, atoms, List.map_flatMap]
  exact List.flatMap_congr hcontent

theorem Mirrors.contiguous (h : ledger.Mirrors snapshot) (timestamp : Lamport) : Contiguous
    (if snapshot.version.observed timestamp then (ledger.payload timestamp).length else 0) 0
    (snapshot.fragments.filter fun fragment => decide (fragment.timestamp = timestamp)) := by
  have hids := h.lists.insertion timestamp
  rw [List.filter_map] at hids
  have hatoms := (Gauge.inserted timestamp).atoms_filter snapshot.fragments
  have hcontiguous := contiguous_of_atoms
    (fun fragment hmem => h.store.len_pos fragment (List.mem_filter.mp hmem).1)
    ((congrArg (List.map Atom.id) hatoms).trans (hids.trans (?_ : _ = (List.range
      (if snapshot.version.observed timestamp then (ledger.payload timestamp).length else 0)).map
        fun i => (timestamp, 0 + i))))
  · rwa [Nat.zero_add] at hcontiguous
  · split
    · simp [inserted]
    · rfl

theorem Mirrors.fragment_store (h : ledger.Mirrors snapshot) : FragmentStore ledger.payload snapshot where
  increasing := h.store.ordered.increasing
  bounds fragment hmem :=
    have hbounds := h.store.ordered.bounds fragment.id (List.mem_map_of_mem hmem)
    ⟨hbounds.1, hbounds.2.1⟩
  keys := h.store.nodup.sublist (starts_sublist h.store.len_pos)
  insertions := ⟨h.store.insertions_sorted, fun insertion => (h.store.mem_insertions insertion).trans
    (exists_congr fun _ => and_congr_right' eq_comm)⟩
  contiguous := h.contiguous
  lengths := by
    rw [summary_text, h.store.visible_text, h.store.deleted_text, visibleBytes, deletedBytes, bytes, bytes,
      List.length_map, List.length_map]
    have hvisible := Gauge.visible.atoms_length snapshot.fragments
    have hdeleted := Gauge.deleted.atoms_length snapshot.fragments
    rw [Gauge.deleted_len] at hdeleted
    exact congrArg₂ FragmentTextSummary.mk hvisible.symm hdeleted.symm

end Ledger

namespace Network

variable {ledger : Ledger} {base_text : Str} {network : Network}

theorem Recorded.insertion (h : Recorded ledger base_text network) :
    ledger.payload = insertion base_text network.ops :=
  funext (Ledger.payload_eq_insertion h.base h.ops)

/-- In every state an edit at valid ranges replaces them in the visible text, leaves
    the bytes of the invisible fragments as the deleted text, and publishes a patch
    from the old text to the new. -/
theorem Reachable.edit_splices (h : Reachable base_text network) (replica_id : Nat)
    {edits : List (Range × Str)}
    (hedits : EditsFrom (network.peers replica_id).buffer.snapshot.visible_text.length 0 edits)
    (start_now end_now : Nat) : ∃ after op,
      let buffer := (network.peers replica_id).buffer
      buffer.edit edits start_now end_now = some (after, op) ∧
        after.snapshot.visible_text = splice buffer.snapshot.visible_text 0 edits ∧
        after.snapshot.deleted_text = (after.snapshot.fragments.filter fun fragment => !fragment.visible).flatMap
          (Fragment.content (insertion base_text (network.ops ++ [op]))) ∧
        ∃ patch, patch.Takes buffer.snapshot.visible_text after.snapshot.visible_text ∧
          after.subscriptions = buffer.subscriptions.publish patch := by
  obtain ⟨ledger, hrecorded⟩ := h.recorded
  obtain ⟨after, op, entry, rest, hedit, hmakes, htext, -⟩ :=
    Buffer.edit_spec hrecorded.lawful (hrecorded.follows replica_id).keeps hedits start_now end_now
  refine ⟨after, .Edit op, hedit, htext, ?_, hmakes.patch⟩
  have hops : (ledger.push ((network.peers replica_id).buffer.snapshot.authored (.Edit op))).ops =
      network.ops ++ [.Edit op] := by
    rw [← hrecorded.ops]
    exact List.map_append
  have hbase : (ledger.push ((network.peers replica_id).buffer.snapshot.authored (.Edit op))).base =
      utf8 (normalize base_text) := hrecorded.base
  rw [← funext (Ledger.payload_eq_insertion hbase hops)]
  exact hmakes.keeps.mirrors.store.deleted_text.trans (hmakes.keeps.mirrors.bytes_filter Gauge.deleted)

theorem start_edit_splices : ∃ after op,
    let buffer := ((start ['a', 'b'] id).peers 1).buffer
    buffer.edit [(⟨1, 1⟩, ['\r'])] 0 0 = some (after, op) ∧
      after.snapshot.visible_text = splice buffer.snapshot.visible_text 0 [(⟨1, 1⟩, ['\r'])] ∧
      after.snapshot.deleted_text = (after.snapshot.fragments.filter fun fragment => !fragment.visible).flatMap
        (Fragment.content (insertion ['a', 'b'] [op])) ∧
      ∃ patch, patch.Takes buffer.snapshot.visible_text after.snapshot.visible_text ∧
        after.subscriptions = buffer.subscriptions.publish patch :=
  (show Reachable ['a', 'b'] (start ['a', 'b'] id) from ⟨id, Relation.ReflTransGen.refl⟩).edit_splices 1
    (by rw [show ((start ['a', 'b'] id).peers 1).buffer.snapshot.visible_text.length = 2 from rfl]; simp [EditsFrom])
    0 0

/-- In every state the patch that a subscription gives takes the text that it was
    last told of, at its start or when it was read, to the text of now. -/
theorem Reachable.subscription (h : Reachable base_text network) (replica_id subscription : Nat)
    (hlt : subscription < (network.peers replica_id).buffer.subscriptions.length) :
    ∃ text, (network.peers replica_id).texts[subscription]? = some text ∧
      ((network.peers replica_id).buffer.consume subscription).1.Takes text
        (network.peers replica_id).buffer.snapshot.visible_text := by
  obtain ⟨ledger, hrecorded⟩ := h.recorded
  exact (hrecorded.follows replica_id).tracks.takes hlt

theorem sample_subscription : ∃ text, (sample.peers 1).texts[0]? = some text ∧
    ((sample.peers 1).buffer.consume 0).1.Takes text (sample.peers 1).buffer.snapshot.visible_text :=
  sample_reachable.subscription 1 0 (by decide)

end Network

end zed.text
