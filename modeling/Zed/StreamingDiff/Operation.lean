import Mathlib

namespace zed.streaming_diff

inductive CharOperation
  | insert (text : List Char)
  | delete (bytes : Nat)
  | keep (bytes : Nat)
deriving DecidableEq, Repr

def byte_len (text : List Char) : Nat := (text.map Char.utf8Size).sum

@[simp] theorem byte_len_nil : byte_len [] = 0 := rfl

@[simp] theorem byte_len_cons (c : Char) (text : List Char) : byte_len (c :: text) = c.utf8Size + byte_len text :=
  List.sum_cons

@[simp] theorem byte_len_append (s t : List Char) : byte_len (s ++ t) = byte_len s + byte_len t := by
  simp [byte_len]

/-- A text cut after some bytes, if that is a character boundary of it. -/
def split_bytes : Nat → List Char → Option (List Char × List Char)
  | 0, text => some ([], text)
  | _ + 1, [] => none
  | bytes + 1, c :: text =>
    if c.utf8Size ≤ bytes + 1 then
      (split_bytes (bytes + 1 - c.utf8Size) text).map fun (taken, rest) => (c :: taken, rest)
    else none

/-- What the operations make of a text, if they consume all of it. -/
def replay : List CharOperation → List Char → Option (List Char)
  | [], [] => some []
  | [], _ :: _ => none
  | .insert text :: operations, old => (replay operations old).map (text ++ ·)
  | .delete bytes :: operations, old => do
    let (_, rest) ← split_bytes bytes old
    replay operations rest
  | .keep bytes :: operations, old => do
    let (kept, rest) ← split_bytes bytes old
    (replay operations rest).map (kept ++ ·)

/-- The bytes of the old text that an operation consumes. -/
def CharOperation.consumed : CharOperation → Nat
  | .insert _ => 0
  | .delete bytes | .keep bytes => bytes

theorem split_bytes_cons (c : Char) (bytes : Nat) (text : List Char) :
    split_bytes (c.utf8Size + bytes) (c :: text) =
      (split_bytes bytes text).map fun (taken, rest) => (c :: taken, rest) := by
  have hpos := c.utf8Size_pos
  obtain ⟨n, hn⟩ : ∃ n, c.utf8Size + bytes = n + 1 := ⟨c.utf8Size + bytes - 1, by omega⟩
  have hrest : n + 1 - c.utf8Size = bytes := by omega
  rw [hn, split_bytes, if_pos (by omega), hrest]

theorem split_bytes_append (taken rest : List Char) :
    split_bytes (byte_len taken) (taken ++ rest) = some (taken, rest) := by
  induction taken with
  | nil => rw [byte_len_nil, split_bytes]; rfl
  | cons c taken ih => rw [byte_len_cons, List.cons_append, split_bytes_cons, ih]; rfl

theorem eq_append_of_split_bytes {bytes : Nat} {text taken rest : List Char}
    (h : split_bytes bytes text = some (taken, rest)) : text = taken ++ rest ∧ byte_len taken = bytes := by
  induction text generalizing bytes taken with
  | nil =>
    cases bytes with
    | zero =>
      cases h
      exact ⟨rfl, rfl⟩
    | succ bytes => cases h
  | cons c text ih =>
    cases bytes with
    | zero =>
      cases h
      exact ⟨rfl, rfl⟩
    | succ bytes =>
      rw [split_bytes] at h
      split at h
      · obtain ⟨⟨taken', rest'⟩, hsplit, heq⟩ := Option.map_eq_some_iff.mp h
        obtain ⟨rfl, rfl⟩ := Prod.mk.inj heq
        obtain ⟨rfl, hlen⟩ := ih hsplit
        refine ⟨rfl, ?_⟩
        rw [byte_len_cons]
        omega
      · cases h

theorem split_bytes_eq_some_iff {bytes : Nat} {text taken rest : List Char} :
    split_bytes bytes text = some (taken, rest) ↔ text = taken ++ rest ∧ byte_len taken = bytes := by
  constructor
  · exact eq_append_of_split_bytes
  · rintro ⟨rfl, rfl⟩
    exact split_bytes_append taken rest

section

variable {operations : List CharOperation} {old new : List Char}

theorem replay_insert (h : replay operations old = some new) (text : List Char) :
    replay (.insert text :: operations) old = some (text ++ new) := by
  rw [replay, h]
  rfl

theorem replay_delete (h : replay operations old = some new) (deleted : List Char) :
    replay (.delete (byte_len deleted) :: operations) (deleted ++ old) = some new := by
  rw [replay, split_bytes_append]
  exact h

theorem replay_keep (h : replay operations old = some new) (kept : List Char) :
    replay (.keep (byte_len kept) :: operations) (kept ++ old) = some (kept ++ new) := by
  rw [replay, split_bytes_append]
  dsimp only [Option.bind_eq_bind, Option.bind_some]
  rw [h]
  rfl

theorem replay_cons {operation : CharOperation} (h : replay (operation :: operations) old = some new) :
    (∃ text rest, operation = .insert text ∧ replay operations old = some rest ∧ new = text ++ rest) ∨
      (∃ deleted rest, operation = .delete (byte_len deleted) ∧ old = deleted ++ rest ∧
        replay operations rest = some new) ∨
      (∃ kept rest after, operation = .keep (byte_len kept) ∧ old = kept ++ rest ∧
        replay operations rest = some after ∧ new = kept ++ after) := by
  cases operation with
  | insert text =>
    obtain ⟨rest, hrest, heq⟩ := Option.map_eq_some_iff.mp h
    exact Or.inl ⟨text, rest, rfl, hrest, heq.symm⟩
  | delete bytes =>
    obtain ⟨⟨deleted, rest⟩, hsplit, hrest⟩ := Option.bind_eq_some_iff.mp h
    obtain ⟨rfl, rfl⟩ := eq_append_of_split_bytes hsplit
    exact Or.inr (Or.inl ⟨deleted, rest, rfl, rfl, hrest⟩)
  | keep bytes =>
    obtain ⟨⟨kept, rest⟩, hsplit, hmap⟩ := Option.bind_eq_some_iff.mp h
    obtain ⟨after, hrest, heq⟩ := Option.map_eq_some_iff.mp hmap
    obtain ⟨rfl, rfl⟩ := eq_append_of_split_bytes hsplit
    exact Or.inr (Or.inr ⟨kept, rest, after, rfl, rfl, hrest, heq.symm⟩)

theorem replay_append {more : List CharOperation} {old' new' : List Char} (h : replay operations old = some new)
    (hmore : replay more old' = some new') : replay (operations ++ more) (old ++ old') = some (new ++ new') := by
  induction operations generalizing old new with
  | nil =>
    cases old with
    | nil =>
      cases h
      exact hmore
    | cons c old => cases h
  | cons operation operations ih =>
    obtain ⟨text, rest, rfl, hrest, rfl⟩ | ⟨deleted, rest, rfl, rfl, hrest⟩ |
      ⟨kept, rest, after, rfl, rfl, hrest, rfl⟩ := replay_cons h
    · rw [List.append_assoc]
      exact replay_insert (ih hrest) text
    · rw [List.append_assoc]
      exact replay_delete (ih hrest) deleted
    · rw [List.append_assoc, List.append_assoc]
      exact replay_keep (ih hrest) kept

theorem consumed_of_replay (h : replay operations old = some new) :
    (operations.map CharOperation.consumed).sum = byte_len old := by
  induction operations generalizing old new with
  | nil =>
    cases old with
    | nil => rfl
    | cons c old => cases h
  | cons operation operations ih =>
    rw [List.map_cons, List.sum_cons]
    obtain ⟨text, rest, rfl, hrest, rfl⟩ | ⟨deleted, rest, rfl, rfl, hrest⟩ |
      ⟨kept, rest, after, rfl, rfl, hrest, rfl⟩ := replay_cons h
    · rw [ih hrest]
      exact Nat.zero_add _
    · rw [ih hrest, byte_len_append]
      rfl
    · rw [ih hrest, byte_len_append]
      rfl

end

end zed.streaming_diff
