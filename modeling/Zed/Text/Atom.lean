import Zed.Text.Walk

namespace zed.text

open zed.clock zed.rope

/-- One byte of an insertion, with what its fragment says about it. Splitting a
    fragment does not change its atoms. -/
structure Atom where
  timestamp : Lamport
  offset : Nat
  visible : Bool
  deletions : List Lamport
  max_undos : Global
deriving DecidableEq

/-- What identifies an atom on every replica. -/
abbrev AtomId := Lamport × Nat

def Atom.id (atom : Atom) : AtomId := (atom.timestamp, atom.offset)

/-- An atom after an edit deleted it. -/
def Atom.delete (timestamp : Lamport) (atom : Atom) : Atom :=
  { atom with deletions := atom.deletions ++ [timestamp], visible := false }

/-- The atom at a position of a fragment. -/
def Fragment.atom (fragment : Fragment) (i : Nat) : Atom :=
  { timestamp := fragment.timestamp
    offset := fragment.insertion_offset + i
    visible := fragment.visible
    deletions := fragment.deletions
    max_undos := fragment.max_undos }

def Fragment.atoms (fragment : Fragment) : List Atom := (List.range fragment.len).map fragment.atom

def atoms (fragments : List Fragment) : List Atom := fragments.flatMap Fragment.atoms

/-- The bytes of atoms, given what every insertion inserted. -/
def bytes (content : AtomId → UInt8) (atoms : List Atom) : Rope := atoms.map fun atom => content atom.id

def visibleBytes (content : AtomId → UInt8) (atoms : List Atom) : Rope :=
  bytes content (atoms.filter Atom.visible)

def deletedBytes (content : AtomId → UInt8) (atoms : List Atom) : Rope :=
  bytes content (atoms.filter fun atom => !atom.visible)

@[simp] theorem atoms_nil : atoms [] = [] := rfl

@[simp] theorem atoms_cons (fragment : Fragment) (fragments : List Fragment) :
    atoms (fragment :: fragments) = fragment.atoms ++ atoms fragments := rfl

@[simp] theorem atoms_append (left right : List Fragment) :
    atoms (left ++ right) = atoms left ++ atoms right := List.flatMap_append

@[simp] theorem Atom.delete_id (timestamp : Lamport) (atom : Atom) :
    (atom.delete timestamp).id = atom.id := rfl

namespace Fragment

@[simp] theorem atoms_length (fragment : Fragment) : fragment.atoms.length = fragment.len := by
  simp [atoms]

theorem mem_atoms {fragment : Fragment} {atom : Atom} :
    atom ∈ fragment.atoms ↔ ∃ i < fragment.len, fragment.atom i = atom := by
  simp [atoms]

theorem atoms_eq_of_mem {fragment : Fragment} {atom : Atom} (h : atom ∈ fragment.atoms) :
    atom.timestamp = fragment.timestamp ∧ atom.visible = fragment.visible ∧
      atom.deletions = fragment.deletions ∧ atom.max_undos = fragment.max_undos := by
  obtain ⟨i, _, rfl⟩ := mem_atoms.mp h
  exact ⟨rfl, rfl, rfl, rfl⟩

theorem atoms_part (fragment : Fragment) (id : Locator) (start len : Nat)
    (h : start + len ≤ fragment.len) :
    atoms { fragment with id, len, insertion_offset := fragment.insertion_offset + start } =
      (fragment.atoms.drop start).take len := by
  apply List.ext_getElem
  · simp
    omega
  · intro i hi hi'
    simp only [atoms, List.getElem_map, List.getElem_range, List.getElem_take, List.getElem_drop]
    simp [atom, Nat.add_assoc]

theorem atoms_delete (fragment : Fragment) (timestamp : Lamport) :
    atoms { fragment with deletions := fragment.deletions ++ [timestamp], visible := false } =
      fragment.atoms.map (Atom.delete timestamp) := by
  simp [atoms, atom, Atom.delete]

theorem filter_atoms_length {counted : Fragment → Bool} {obs : Atom → Bool} {fragment : Fragment}
    (hobs : ∀ atom ∈ fragment.atoms, obs atom = counted fragment) :
    (fragment.atoms.filter obs).length = if counted fragment then fragment.len else 0 := by
  split
  · rename_i hcounted
    rw [List.filter_eq_self.mpr fun atom hatom => (hobs atom hatom).trans hcounted, atoms_length]
  · rename_i hcounted
    rw [List.filter_eq_nil_iff.mpr fun atom hatom h => hcounted ((hobs atom hatom).symm.trans h)]
    rfl

end Fragment

/-- A dimension of fragments, and the atoms that it counts. -/
structure Gauge where
  counted : Fragment → Bool
  obs : Atom → Bool
  agree : ∀ fragment atom, atom ∈ fragment.atoms → obs atom = counted fragment

namespace Gauge

def len (gauge : Gauge) (fragment : Fragment) : Nat := if gauge.counted fragment then fragment.len else 0

/-- The dimension of local edits. -/
def visible : Gauge :=
  { counted := Fragment.visible
    obs := Atom.visible
    agree := fun _ _ hatom => (Fragment.atoms_eq_of_mem hatom).2.1 }

/-- The dimension of remote edits. -/
def versioned (version : Global) : Gauge :=
  { counted := fun fragment => version.observed fragment.timestamp
    obs := fun atom => version.observed atom.timestamp
    agree := fun _ _ hatom => by rw [(Fragment.atoms_eq_of_mem hatom).1] }

theorem visible_len : visible.len = Fragment.visible_len := rfl

theorem versioned_len (version : Global) :
    (versioned version).len = Fragment.versioned_len version := rfl

variable (gauge : Gauge)

theorem len_cases (fragment : Fragment) :
    gauge.counted fragment = true ∧ gauge.len fragment = fragment.len ∨
      gauge.counted fragment = false ∧ gauge.len fragment = 0 := by
  unfold len
  cases gauge.counted fragment <;> simp

theorem filter_atoms_length (fragment : Fragment) :
    (fragment.atoms.filter gauge.obs).length = gauge.len fragment :=
  Fragment.filter_atoms_length (gauge.agree fragment)

theorem atoms_length (fragments : List Fragment) :
    ((atoms fragments).filter gauge.obs).length = (fragments.map gauge.len).sum := by
  induction fragments with
  | nil => rfl
  | cons fragment fragments ih =>
    rw [atoms_cons, List.filter_append, List.length_append, ih, filter_atoms_length]
    rfl

end Gauge

theorem summary_append (fragments : List Fragment) (fragment : Fragment) :
    summary (fragments ++ [fragment]) = (summary fragments).add_summary fragment.summary := by
  simp [summary]

theorem summary_max_id (fragments : List Fragment) :
    (summary fragments).max_id = (fragments.getLast?.map Fragment.id).getD Locator.min := by
  rcases List.eq_nil_or_concat fragments with rfl | ⟨front, last, rfl⟩
  · rfl
  · rw [List.concat_eq_append, summary_append]
    simp
    rfl

theorem summary_text (fragments : List Fragment) :
    (summary fragments).text =
      { visible := (fragments.map Fragment.visible_len).sum
        deleted := (fragments.map Fragment.deleted_len).sum } := by
  induction fragments using List.reverseRecOn with
  | nil => rfl
  | append_singleton fragments fragment ih =>
    rw [summary_append]
    unfold FragmentSummary.add_summary
    rw [ih]
    simp [Fragment.summary]

theorem summary_visible (fragments : List Fragment) :
    (summary fragments).text.visible = ((atoms fragments).filter Atom.visible).length := by
  rw [summary_text]
  exact (Gauge.visible.atoms_length fragments).symm

end zed.text
