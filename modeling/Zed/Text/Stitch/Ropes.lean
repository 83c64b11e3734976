import Zed.Text.Patch.Script
import Zed.Text.Stitch.Order

namespace zed.text

open zed.clock zed.rope

variable {content : AtomId → UInt8}

@[simp] theorem bytes_append (left right : List Atom) :
    bytes content (left ++ right) = bytes content left ++ bytes content right := List.map_append

@[simp] theorem visibleBytes_append (left right : List Atom) :
    visibleBytes content (left ++ right) = visibleBytes content left ++ visibleBytes content right := by
  simp [visibleBytes]

@[simp] theorem deletedBytes_append (left right : List Atom) :
    deletedBytes content (left ++ right) = deletedBytes content left ++ deletedBytes content right := by
  simp [deletedBytes]

theorem visibleBytes_length (xs : List Atom) :
    (visibleBytes content xs).length = (xs.filter Atom.visible).length := by
  simp [visibleBytes, bytes]

theorem visibleBytes_of_visible {xs : List Atom} (h : ∀ atom ∈ xs, atom.visible = true) :
    visibleBytes content xs = bytes content xs := by
  rw [visibleBytes, List.filter_eq_self.mpr h]

theorem visibleBytes_of_deleted {xs : List Atom} (h : ∀ atom ∈ xs, atom.visible = false) :
    visibleBytes content xs = [] := by
  rw [visibleBytes, List.filter_eq_nil_iff.mpr fun atom hatom hvisible => by simp [h atom hatom] at hvisible]
  rfl

theorem deletedBytes_of_deleted {xs : List Atom} (h : ∀ atom ∈ xs, atom.visible = false) :
    deletedBytes content xs = bytes content xs := by
  rw [deletedBytes, List.filter_eq_self.mpr fun atom hatom => by simp [h atom hatom]]

theorem deletedBytes_of_visible {xs : List Atom} (h : ∀ atom ∈ xs, atom.visible = true) :
    deletedBytes content xs = [] := by
  rw [deletedBytes, List.filter_eq_nil_iff.mpr fun atom hatom hvisible => by simp [h atom hatom] at hvisible]
  rfl

theorem bytes_congr {xs ys : List Atom} (h : xs.map Atom.id = ys.map Atom.id) :
    bytes content xs = bytes content ys := by
  have hmap : ∀ zs : List Atom, bytes content zs = (zs.map Atom.id).map content := fun zs => by
    simp [bytes]
  rw [hmap, hmap, h]

namespace RopeBuilder

theorem append_eq (ropes : RopeBuilder) (len : FragmentTextSummary) :
    ropes.append len =
      { old_visible_cursor :=
          { ropes.old_visible_cursor with offset := ropes.old_visible_cursor.offset + len.visible }
        old_deleted_cursor :=
          { ropes.old_deleted_cursor with offset := ropes.old_deleted_cursor.offset + len.deleted }
        new_visible := ropes.new_visible ++ (ropes.old_visible_cursor.text.take
          (ropes.old_visible_cursor.offset + len.visible)).drop ropes.old_visible_cursor.offset
        new_deleted := ropes.new_deleted ++ (ropes.old_deleted_cursor.text.take
          (ropes.old_deleted_cursor.offset + len.deleted)).drop ropes.old_deleted_cursor.offset } := rfl

theorem append_zero (ropes : RopeBuilder) : ropes.append { visible := 0, deleted := 0 } = ropes := by
  have hnil : ∀ (text : Rope) (n : Nat), (text.take n).drop n = [] := fun text n =>
    List.drop_eq_nil_of_le (List.length_take_le n text)
  simp [append_eq, hnil]

theorem push_fragment_eq_append (ropes : RopeBuilder) (fragment : Fragment) :
    ropes.push_fragment fragment fragment.visible = ropes.append fragment.summary.text := by
  have hnil : ∀ (text : Rope) (n : Nat), (text.take n).drop n = [] := fun text n =>
    List.drop_eq_nil_of_le (List.length_take_le n text)
  rw [append_eq]
  unfold push_fragment push Fragment.summary Fragment.visible_len Fragment.deleted_len
  cases fragment.visible <;> simp [rope.Cursor.slice, hnil]

theorem append_append (ropes : RopeBuilder) (first second : FragmentTextSummary) :
    (ropes.append first).append second =
      ropes.append { visible := first.visible + second.visible, deleted := first.deleted + second.deleted } := by
  have hslice : ∀ (text : Rope) (n a b : Nat), (text.take (n + a)).drop n ++
      (text.take (n + (a + b))).drop (n + a) = (text.take (n + (a + b))).drop n := by
    intro text n a b
    rw [← Nat.add_assoc]
    have h := Patch.slice_append_drop (text.take (n + a + b)) (Nat.le_add_right n a)
    rwa [Patch.slice, List.take_take, min_eq_left (by omega)] at h
  simp only [append_eq, List.append_assoc, hslice, Nat.add_assoc]

theorem append_summary (ropes : RopeBuilder) (fragments : List Fragment) :
    ropes.append (summary fragments).text =
      fragments.foldl (fun ropes fragment => ropes.push_fragment fragment fragment.visible) ropes := by
  induction fragments using List.reverseRecOn with
  | nil => exact ropes.append_zero
  | append_singleton fragments fragment ih =>
    rw [summary_append, List.foldl_concat, ← ih, push_fragment_eq_append, append_append]
    rfl

/-- What the builder holds when the atoms of `done` have been consumed and those
    of `new` produced. -/
structure Holds (content : AtomId → UInt8) (old done new : List Atom) (ropes : RopeBuilder) : Prop where
  old_visible : ropes.old_visible_cursor =
    { text := visibleBytes content old, offset := (visibleBytes content done).length }
  old_deleted : ropes.old_deleted_cursor =
    { text := deletedBytes content old, offset := (deletedBytes content done).length }
  new_visible : ropes.new_visible = visibleBytes content new
  new_deleted : ropes.new_deleted = deletedBytes content new

private theorem slice_middle (left middle right : Rope) :
    ((left ++ middle ++ right).take (left.length + middle.length)).drop left.length = middle := by
  rw [← List.length_append, List.take_left, List.drop_left]

theorem Holds.push {old done new taken given rest : List Atom} {ropes : RopeBuilder}
    (h : Holds content old done new ropes) (hold : old = done ++ taken ++ rest) {was is : Bool}
    (hwas : ∀ atom ∈ taken, atom.visible = was) (his : ∀ atom ∈ given, atom.visible = is)
    (hid : given.map Atom.id = taken.map Atom.id) :
    Holds content old (done ++ taken) (new ++ given) (ropes.push taken.length was is) := by
  have hbytes : bytes content given = bytes content taken := bytes_congr hid
  have hlen : (bytes content taken).length = taken.length := by simp [bytes]
  cases was with
  | true =>
    have hvisible : visibleBytes content taken = bytes content taken := visibleBytes_of_visible hwas
    have hdeleted : deletedBytes content taken = [] := deletedBytes_of_visible hwas
    have htext : ((visibleBytes content old).take
        ((visibleBytes content done).length + taken.length)).drop (visibleBytes content done).length =
          bytes content taken := by
      rw [hold, visibleBytes_append, visibleBytes_append, hvisible, ← hlen]
      exact slice_middle _ _ _
    cases is with
    | true =>
      constructor <;> simp [RopeBuilder.push, rope.Cursor.slice, h.old_visible, h.old_deleted, h.new_visible,
        h.new_deleted, hvisible, hdeleted, htext, hlen, visibleBytes_of_visible his,
        deletedBytes_of_visible his, hbytes]
    | false =>
      constructor <;> simp [RopeBuilder.push, rope.Cursor.slice, h.old_visible, h.old_deleted, h.new_visible,
        h.new_deleted, hvisible, hdeleted, htext, hlen, visibleBytes_of_deleted his,
        deletedBytes_of_deleted his, hbytes]
  | false =>
    have hvisible : visibleBytes content taken = [] := visibleBytes_of_deleted hwas
    have hdeleted : deletedBytes content taken = bytes content taken := deletedBytes_of_deleted hwas
    have htext : ((deletedBytes content old).take
        ((deletedBytes content done).length + taken.length)).drop (deletedBytes content done).length =
          bytes content taken := by
      rw [hold, deletedBytes_append, deletedBytes_append, hdeleted, ← hlen]
      exact slice_middle _ _ _
    cases is with
    | true =>
      constructor <;> simp [RopeBuilder.push, rope.Cursor.slice, h.old_visible, h.old_deleted, h.new_visible,
        h.new_deleted, hvisible, hdeleted, htext, hlen, visibleBytes_of_visible his,
        deletedBytes_of_visible his, hbytes]
    | false =>
      constructor <;> simp [RopeBuilder.push, rope.Cursor.slice, h.old_visible, h.old_deleted, h.new_visible,
        h.new_deleted, hvisible, hdeleted, htext, hlen, visibleBytes_of_deleted his,
        deletedBytes_of_deleted his, hbytes]

theorem Holds.push_str {old done new given : List Atom} {ropes : RopeBuilder} {text : Rope}
    (h : Holds content old done new ropes) (hvisible : ∀ atom ∈ given, atom.visible = true)
    (htext : bytes content given = text) :
    Holds content old done (new ++ given) (ropes.push_str text) := by
  constructor <;> simp [RopeBuilder.push_str, h.old_visible, h.old_deleted, h.new_visible, h.new_deleted,
    visibleBytes_of_visible hvisible, deletedBytes_of_visible hvisible, htext]

theorem Holds.append_summary {old done new rest : List Atom} {ropes : RopeBuilder} {fragments : List Fragment}
    (h : Holds content old done new ropes) (hold : old = done ++ atoms fragments ++ rest) :
    Holds content old (done ++ atoms fragments) (new ++ atoms fragments)
      (ropes.append (summary fragments).text) := by
  rw [RopeBuilder.append_summary]
  induction fragments generalizing ropes done new with
  | nil => simpa using h
  | cons fragment fragments ih =>
    have hvisible : ∀ atom ∈ fragment.atoms, atom.visible = fragment.visible := fun atom hatom =>
      (Fragment.atoms_eq_of_mem hatom).2.1
    have hsplit : old = done ++ fragment.atoms ++ (atoms fragments ++ rest) := by simpa using hold
    have hpush := h.push hsplit hvisible hvisible rfl
    rw [Fragment.atoms_length] at hpush
    have hrest := ih hpush (by simpa using hold)
    simpa [RopeBuilder.push_fragment] using hrest

theorem Holds.finish {old new : List Atom} {ropes : RopeBuilder} (h : Holds content old old new ropes) :
    ropes.finish = (visibleBytes content new, deletedBytes content new) := by
  simp [RopeBuilder.finish, rope.Cursor.suffix, h.old_visible, h.old_deleted, h.new_visible, h.new_deleted]

end RopeBuilder

end zed.text
