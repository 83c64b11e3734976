import Zed.Text.Buffer
import Zed.Text.Edit.Remote

namespace zed.text

open zed.clock zed.rope
open zed.replicated (Cut CutsFrom Rooted hit)

/-- The timestamp of the insertion of the base text. -/
def baseTimestamp : Lamport := Lamport.new ReplicaId.LOCAL

/-- An operation, with the atoms that its author had in order and those of them
    that its author saw. -/
structure Record where
  op : Operation
  doc : List AtomId
  seen : List AtomId

namespace Record

def timestamp (record : Record) : Lamport := record.op.timestamp

def version (record : Record) : Global := record.op.version

def cuts (record : Record) : List (Cut Atom) :=
  match record.op with
  | .Edit edit => cutsOf edit.timestamp 0 (edit.ranges.zip edit.new_text)
  | .Undo _ => []

def payload (record : Record) : Rope :=
  match record.op with
  | .Edit edit => edit.new_text.flatMap utf8
  | .Undo _ => []

/-- Whether an operation deletes an atom: it covers it, and its author saw it. -/
def Deletes (record : Record) (id : AtomId) : Prop :=
  id ∈ record.seen ∧ hit record.cuts (record.doc.idxOf id) = true

/-- The new number of undos that an operation gives to an edit. -/
def Counts (record : Record) (edit_id : Lamport) (count : Nat) : Prop :=
  match record.op with
  | .Edit _ => False
  | .Undo undo => (edit_id, count) ∈ undo.counts.entries

end Record

/-- The atom that a new atom goes after: the last one before its range. -/
def originIn (doc : List AtomId) : List (Cut Atom) → AtomId → Option AtomId
  | [], _ => none
  | cut :: cuts, id =>
    if id ∈ cut.block.map Atom.id then (doc.take cut.start).getLast? else originIn doc cuts id

/-- Which of two atoms with one origin goes first: that of the later insertion,
    and within an insertion the one with the lower offset. -/
def prior (m n : AtomId) : Prop := n.1 < m.1 ∨ m.1 = n.1 ∧ m.2 < n.2

instance : IsStrictOrder AtomId prior where
  irrefl m h := by
    rcases h with h | ⟨_, h⟩
    · exact lt_irrefl _ h
    · exact lt_irrefl _ h
  trans l m n hlm hmn := by
    rcases hlm with hlm | ⟨hlm, hlm'⟩ <;> rcases hmn with hmn | ⟨hmn, hmn'⟩
    · exact Or.inl (hmn.trans hlm)
    · exact Or.inl (hmn ▸ hlm)
    · exact Or.inl (hlm ▸ hmn)
    · exact Or.inr ⟨hlm.trans hmn, hlm'.trans hmn'⟩

/-- What the replicas have done so far: the base text, and every operation. -/
structure Ledger where
  base : Rope
  records : List Record

namespace Ledger

variable (ledger : Ledger)

def find (timestamp : Lamport) : Option Record :=
  ledger.records.find? fun record => decide (record.timestamp = timestamp)

/-- The bytes of an insertion. -/
def payload (timestamp : Lamport) : Rope :=
  match ledger.find timestamp with
  | some record => record.payload
  | none => if timestamp = baseTimestamp then ledger.base else []

def content (id : AtomId) : UInt8 := (ledger.payload id.1).getD id.2 0

def origin (id : AtomId) : Option AtomId :=
  (ledger.find id.1).bind fun record => originIn record.doc record.cuts id

/-- The timestamps that an undo may be about. -/
def edited (timestamp : Lamport) : Prop := ledger.base = [] ∨ timestamp ≠ baseTimestamp

def inserted (timestamp : Lamport) : List AtomId :=
  (List.range (ledger.payload timestamp).length).map (Prod.mk timestamp)

def Member (version : Global) (id : AtomId) : Prop :=
  version.observed id.1 = true ∧ id.2 < (ledger.payload id.1).length

def Deletes (deletion : Lamport) (id : AtomId) : Prop :=
  ∃ record, ledger.find deletion = some record ∧ record.Deletes id

def Counts (undo_id edit_id : Lamport) (count : Nat) : Prop :=
  ∃ record, ledger.find undo_id = some record ∧ record.Counts edit_id count

/-- Whether an edit is undone at a version: the highest number of undos that the
    version has observed is odd. -/
def UndoneAt (version : Global) (edit_id : Lamport) : Prop :=
  ∃ count, count % 2 = 1 ∧ IsGreatest { n : Nat | n = 0 ∨
    ∃ undo_id, version.observed undo_id = true ∧ ledger.Counts undo_id edit_id n } count

def VisibleAt (version : Global) (id : AtomId) : Prop :=
  ledger.Member version id ∧ ¬ ledger.UndoneAt version id.1 ∧
    ∀ deletion, version.observed deletion = true → ledger.Deletes deletion id →
      ledger.UndoneAt version deletion

/-- The atoms of a version, in order. -/
structure Lists (version : Global) (ids : List AtomId) : Prop where
  insertion : ∀ timestamp, ids.filter (fun id => decide (id.1 = timestamp)) =
    if version.observed timestamp then ledger.inserted timestamp else []
  rooted : Rooted prior ledger.origin ids

/-- The timestamps of the operations, and that of the base text. -/
def Known (timestamp : Lamport) : Prop :=
  (∃ record ∈ ledger.records, record.timestamp = timestamp) ∨ ledger.base ≠ [] ∧ timestamp = baseTimestamp

/-- A version that a replica can be at. -/
structure Consistent (version : Global) : Prop where
  base : ledger.base ≠ [] → version.observed baseTimestamp = true
  closed : ∀ record ∈ ledger.records, version.observed record.timestamp = true →
    version.observed_all record.version = true
  supported : ∀ replica_id, version.get replica_id = 0 ∨ ledger.Known ⟨version.get replica_id, replica_id⟩

/-- What an operation of a replica that follows the protocol satisfies. -/
structure Admits (record : Record) : Prop where
  consistent : ledger.Consistent record.version
  before : ∀ replica_id, record.version.get replica_id < record.timestamp.value
  own : ∀ other ∈ ledger.records, other.timestamp.replica_id = record.timestamp.replica_id →
    other.timestamp.value < record.timestamp.value → record.version.observed other.timestamp = true
  lists : ledger.Lists record.version record.doc
  seen : ∀ id, id ∈ record.seen ↔ ledger.VisibleAt record.version id
  ranges : ∀ edit, record.op = .Edit edit →
    edit.ranges.length = edit.new_text.length ∧ CutsFrom record.doc.length 0 record.cuts
  undone : ∀ edit_id count, record.Counts edit_id count → record.version.observed edit_id = true ∧
    ∃ edit other, ledger.find edit_id = some other ∧ other.op = .Edit edit

structure Lawful : Prop where
  distinct : (ledger.records.map Record.timestamp).Nodup
  base_fresh : ledger.base ≠ [] → ∀ record ∈ ledger.records, record.timestamp ≠ baseTimestamp
  admits : ∀ record ∈ ledger.records, ledger.Admits record

variable {ledger}

section find

variable {timestamp : Lamport} {record : Record}

theorem mem_of_find (h : ledger.find timestamp = some record) :
    record ∈ ledger.records ∧ record.timestamp = timestamp := by
  have hfound := List.find?_some (p := fun record : Record => decide (record.timestamp = timestamp)) h
  exact ⟨List.mem_of_find?_eq_some h, of_decide_eq_true hfound⟩

theorem Lawful.find (hlawful : ledger.Lawful) (h : record ∈ ledger.records) :
    ledger.find record.timestamp = some record := by
  cases hfind : ledger.find record.timestamp with
  | none =>
    have := List.find?_eq_none.mp hfind record h
    simp at this
  | some other =>
    obtain ⟨hmem, htimestamp⟩ := mem_of_find hfind
    rw [List.inj_on_of_nodup_map hlawful.distinct hmem h htimestamp]

end find

section record

variable {record : Record} {edit : EditOperation}

theorem Lawful.payload_eq (hlawful : ledger.Lawful) (h : record ∈ ledger.records) :
    ledger.payload record.timestamp = record.payload := by
  rw [payload, hlawful.find h]

private theorem bytes_insertedAtoms (timestamp : Lamport) (offset len : Nat)
    (h : offset + len ≤ (ledger.payload timestamp).length) :
    bytes ledger.content (insertedAtoms timestamp offset len) =
      ((ledger.payload timestamp).drop offset).take len := by
  apply List.ext_getElem
  · simp [bytes, insertedAtoms]
    omega
  · intro i hi hi'
    simp only [bytes, insertedAtoms, List.length_map, List.length_range] at hi
    have hlt : offset + i < (ledger.payload timestamp).length := by omega
    simp [bytes, insertedAtoms, content, Atom.id, hlt]

private theorem inserts_of_drop (timestamp : Lamport) (new_texts : List Str) (offset : Nat)
    (h : (ledger.payload timestamp).drop offset = new_texts.flatMap utf8) :
    Inserts ledger.content timestamp offset new_texts := by
  induction new_texts generalizing offset with
  | nil => trivial
  | cons new_text new_texts ih =>
    have hlength := congrArg List.length h
    rw [List.flatMap_cons, List.length_append, List.length_drop] at hlength
    refine ⟨?_, ih _ ?_⟩
    · cases hempty : utf8 new_text with
      | nil => rfl
      | cons byte rest =>
        rw [← hempty, bytes_insertedAtoms, h, List.flatMap_cons, List.take_left' rfl]
        have hpos : 0 < (utf8 new_text).length := by simp [hempty]
        omega
    · rw [← List.drop_drop, h, List.flatMap_cons, List.drop_left' rfl]

theorem inserts_of_find (h : ledger.find edit.timestamp = some record) (hop : record.op = .Edit edit) :
    Inserts ledger.content edit.timestamp 0 edit.new_text := by
  refine inserts_of_drop edit.timestamp edit.new_text 0 ?_
  simp only [List.drop_zero, payload, h, Record.payload, hop]

theorem Lawful.inserts (hlawful : ledger.Lawful) (h : record ∈ ledger.records) (hop : record.op = .Edit edit) :
    Inserts ledger.content edit.timestamp 0 edit.new_text := by
  have hfind := hlawful.find h
  rw [Record.timestamp, hop] at hfind
  exact inserts_of_find hfind hop

private theorem originIn_eq (doc : List AtomId) (timestamp : Lamport) (edits : List (Range × Str))
    (offset : Nat) {cut : Cut Atom} (hcut : cut ∈ cutsOf timestamp offset edits) {atom : Atom}
    (hatom : atom ∈ cut.block) :
    originIn doc (cutsOf timestamp offset edits) atom.id = (doc.take cut.start).getLast? := by
  induction edits generalizing offset with
  | nil => cases hcut
  | cons edit edits ih =>
    obtain ⟨range, new_text⟩ := edit
    rw [cutsOf, originIn]
    rcases List.mem_cons.mp hcut with rfl | hcut
    · rw [if_pos (List.mem_map_of_mem hatom)]
    · rw [if_neg, ih _ hcut]
      -- the offsets of the later blocks are higher
      have hlater : atom ∈ (cutsOf timestamp (offset + (utf8 new_text).length) edits).flatMap Cut.block :=
        List.mem_flatMap.mpr ⟨cut, hcut, hatom⟩
      rw [cutsOf_blocks] at hlater
      obtain ⟨i, -, rfl⟩ := mem_insertedAtoms.mp hlater
      intro hmem
      obtain ⟨other, hother, heq⟩ := List.mem_map.mp hmem
      obtain ⟨j, hj, rfl⟩ := mem_insertedAtoms.mp hother
      have hoffset : offset + j = offset + (utf8 new_text).length + i := congrArg Prod.snd heq
      omega

theorem Lawful.origin_eq (hlawful : ledger.Lawful) (h : record ∈ ledger.records) (hop : record.op = .Edit edit)
    {cut : Cut Atom} (hcut : cut ∈ record.cuts) {atom : Atom} (hatom : atom ∈ cut.block) :
    ledger.origin atom.id = (record.doc.take cut.start).getLast? := by
  have hcuts : record.cuts = cutsOf edit.timestamp 0 (edit.ranges.zip edit.new_text) := by
    simp only [Record.cuts, hop]
  rw [hcuts] at hcut
  have hblock := List.mem_flatMap.mpr ⟨cut, hcut, hatom⟩
  rw [cutsOf_blocks] at hblock
  obtain ⟨i, -, hatomEq⟩ := mem_insertedAtoms.mp hblock
  have htimestamp : atom.id.1 = record.timestamp := by
    rw [hatomEq, Record.timestamp, hop]
    rfl
  rw [origin, htimestamp, hlawful.find h, Option.bind_some, hcuts]
  exact originIn_eq record.doc edit.timestamp _ 0 hcut hatom

end record

section undone

variable {version : Global} {undos : UndoMap} {edit_id : Lamport}

theorem undoneAt_congr {other : Global} {ledger' : Ledger}
    (h : ∀ undo_id count, (version.observed undo_id = true ∧ ledger.Counts undo_id edit_id count) ↔
      (other.observed undo_id = true ∧ ledger'.Counts undo_id edit_id count)) :
    ledger.UndoneAt version edit_id ↔ ledger'.UndoneAt other edit_id := by
  simp only [UndoneAt, h]

theorem not_undoneAt (h : ∀ undo_id count, version.observed undo_id = true →
    ¬ ledger.Counts undo_id edit_id count) : ¬ ledger.UndoneAt version edit_id := by
  rintro ⟨count, hodd, hmem | ⟨undo_id, hobserved, hcounts⟩, -⟩
  · rw [hmem] at hodd
    cases hodd
  · exact h undo_id count hobserved hcounts

theorem was_undone_iff (hsorted : sum_tree.Sorted undos)
    (h : ∀ undo_id count, version.observed undo_id = true →
      ((⟨⟨edit_id, undo_id⟩, count⟩ : UndoMapEntry) ∈ undos ↔ ledger.Counts undo_id edit_id count)) :
    UndoMap.was_undone undos edit_id version = true ↔ ledger.UndoneAt version edit_id := by
  have hgreatest : IsGreatest { n : Nat | n = 0 ∨
      ∃ undo_id, version.observed undo_id = true ∧ ledger.Counts undo_id edit_id n }
      (UndoMap.undo_count_at undos edit_id version) := by
    refine ⟨?_, ?_⟩
    · by_contra hnot
      rw [Set.mem_ofPred_eq, not_or, not_exists] at hnot
      have hle : UndoMap.undo_count_at undos edit_id version ≤
          UndoMap.undo_count_at undos edit_id version - 1 := by
        rw [UndoMap.undo_count_at_le hsorted]
        rintro ⟨⟨other, undo_id⟩, count⟩ hentry hedit hobserved
        obtain rfl : other = edit_id := hedit
        have hbound := (UndoMap.undo_count_at_le hsorted).mp le_rfl _ hentry rfl hobserved
        have hne : count ≠ UndoMap.undo_count_at undos other version := by
          rintro rfl
          exact hnot.2 undo_id ⟨hobserved, (h undo_id _ hobserved).mp hentry⟩
        dsimp only at hbound ⊢
        omega
      omega
    · rintro n (rfl | ⟨undo_id, hobserved, hcounts⟩)
      · exact Nat.zero_le _
      · exact (UndoMap.undo_count_at_le hsorted).mp le_rfl _ ((h undo_id n hobserved).mpr hcounts) rfl hobserved
  unfold UndoMap.was_undone
  rw [beq_iff_eq]
  constructor
  · exact fun hodd => ⟨_, hodd, hgreatest⟩
  · rintro ⟨count, hodd, hcount⟩
    rw [hgreatest.unique hcount]
    exact hodd

end undone

section lists

variable {version : Global} {ids : List AtomId}

theorem mem_inserted {timestamp : Lamport} {id : AtomId} :
    id ∈ ledger.inserted timestamp ↔ id.1 = timestamp ∧ id.2 < (ledger.payload timestamp).length := by
  simp only [inserted, List.mem_map, List.mem_range]
  constructor
  · rintro ⟨i, hi, rfl⟩
    exact ⟨rfl, hi⟩
  · rintro ⟨rfl, hlt⟩
    exact ⟨id.2, hlt, rfl⟩

theorem Lists.mem (h : ledger.Lists version ids) {id : AtomId} : id ∈ ids ↔ ledger.Member version id := by
  have hfilter : id ∈ ids ↔ id ∈ ids.filter fun other => decide (other.1 = id.1) := by simp
  rw [hfilter, h.insertion, Member]
  split
  · rename_i hobserved
    rw [mem_inserted]
    simp [hobserved]
  · rename_i hnot
    simp [hnot]

theorem Lists.nodup (h : ledger.Lists version ids) : ids.Nodup := by
  rw [List.nodup_iff_count_le_one]
  intro id
  have hcount : ids.count id = (ids.filter fun other => decide (other.1 = id.1)).count id :=
    (List.count_filter (by simp)).symm
  rw [hcount, h.insertion]
  refine List.nodup_iff_count_le_one.mp ?_ id
  split
  · exact List.nodup_range.map fun i j heq => (Prod.mk.inj heq).2
  · exact List.nodup_nil

theorem Lawful.origin_lt (hlawful : ledger.Lawful) {n p : AtomId} (h : ledger.origin n = some p) :
    ∃ record, ledger.find n.1 = some record ∧ ledger.Member record.version p ∧ p.1 < n.1 := by
  obtain ⟨record, hfind, horigin⟩ := Option.bind_eq_some_iff.mp h
  obtain ⟨hmem, htimestamp⟩ := mem_of_find hfind
  have hadmits := hlawful.admits record hmem
  have hdoc : p ∈ record.doc := by
    revert horigin
    generalize record.cuts = cuts
    induction cuts with
    | nil =>
      intro h
      cases h
    | cons cut cuts ih =>
      intro horigin
      rw [originIn] at horigin
      split at horigin
      · exact List.take_subset _ _ (List.mem_of_getLast? horigin)
      · exact ih horigin
  have hmember := hadmits.lists.mem.mp hdoc
  refine ⟨record, hfind, hmember, Lamport.lt_of_value_lt ?_⟩
  rw [← htimestamp]
  exact (Global.observed_iff.mp hmember.1).trans_lt (hadmits.before _)

theorem Lawful.prior_origin (hlawful : ledger.Lawful) (n p : AtomId) (h : ledger.origin n = some p) :
    prior n p := by
  obtain ⟨-, -, -, hlt⟩ := hlawful.origin_lt h
  exact Or.inl hlt

theorem Consistent.origin_member (hlawful : ledger.Lawful) (h : ledger.Consistent version) {n p : AtomId}
    (hn : version.observed n.1 = true) (horigin : ledger.origin n = some p) : ledger.Member version p := by
  obtain ⟨record, hfind, hmember, -⟩ := hlawful.origin_lt horigin
  obtain ⟨hmem, htimestamp⟩ := mem_of_find hfind
  have hall := h.closed record hmem (htimestamp ▸ hn)
  exact ⟨Global.observed_of_observed_all hall hmember.1, hmember.2⟩

theorem Lists.filter (hlawful : ledger.Lawful) (h : ledger.Lists version ids) {earlier : Global}
    (hearlier : ledger.Consistent earlier) (hall : version.observed_all earlier = true) :
    ledger.Lists earlier (ids.filter fun id => earlier.observed id.1) := by
  refine ⟨fun timestamp => ?_, ?_⟩
  · rw [List.filter_comm, h.insertion]
    by_cases hobserved : earlier.observed timestamp = true
    · rw [if_pos hobserved, if_pos (Global.observed_of_observed_all hall hobserved), List.filter_eq_self]
      intro id hid
      rw [(mem_inserted.mp hid).1]
      exact hobserved
    · rw [if_neg hobserved, List.filter_eq_nil_iff]
      intro id hid
      split at hid
      · rw [(mem_inserted.mp hid).1]
        exact hobserved
      · cases hid
  · refine h.rooted.filter _ fun n _ hn p hp => ?_
    exact (hearlier.origin_member hlawful hn hp).1

theorem Lists.unique (hlawful : ledger.Lawful) (h : ledger.Lists version ids) {other : Global}
    {others : List AtomId} (hothers : ledger.Lists other others)
    (hsame : ∀ id, ledger.Member version id ↔ ledger.Member other id) : ids = others :=
  h.rooted.unique hlawful.prior_origin hothers.rooted h.nodup hothers.nodup fun id => by
    rw [h.mem, hothers.mem, hsame]

end lists

end Ledger

end zed.text
