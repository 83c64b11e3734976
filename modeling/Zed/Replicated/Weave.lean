import Zed.Replicated.Rooted

namespace zed.replicated

variable {α : Type}

/-- The shortest prefix with `n` observed elements, and the rest. -/
def takeObserved (obs : α → Bool) : Nat → List α → List α × List α
  | 0, xs => ([], xs)
  | _ + 1, [] => ([], [])
  | n + 1, x :: xs =>
    let (taken, rest) := takeObserved obs (if obs x then n else n + 1) xs
    (x :: taken, rest)

/-- One change to a sequence: a block to insert at the position `start` of the
    observed elements, and the observed elements in `start..stop` to mark. -/
structure Cut (α : Type) where
  start : Nat
  stop : Nat
  block : List α

/-- A sequence in the middle of a change: what was produced, what was not yet
    consumed, and how many observed elements were consumed. -/
structure Weft (α : Type) where
  done : List α
  rest : List α
  pos : Nat

/-- What the changes of a step look at: which elements were observed, which go
    before the new ones, and what marking does. -/
structure Loom (α : Type) where
  obs : α → Bool
  above : α → Bool
  mark : α → α

def Weft.step (loom : Loom α) (w : Weft α) (cut : Cut α) : Weft α :=
  let before := takeObserved loom.obs (cut.start - w.pos) w.rest
  let above := before.2.takeWhile loom.above
  let marked := takeObserved loom.obs (cut.stop - cut.start) (before.2.dropWhile loom.above)
  { done := w.done ++ before.1 ++ above ++ cut.block ++ marked.1.map loom.mark
    rest := marked.2
    pos := cut.stop }

def Weft.finish (w : Weft α) : List α := w.done ++ w.rest

/-- Applies changes at increasing positions of the observed elements. -/
def weave (loom : Loom α) (cuts : List (Cut α)) (xs : List α) : List α :=
  (cuts.foldl (Weft.step loom) { done := [], rest := xs, pos := 0 }).finish

/-- Changes at increasing positions, within `stop` observed elements. -/
def CutsFrom (total : Nat) : Nat → List (Cut α) → Prop
  | pos, [] => pos ≤ total
  | pos, cut :: cuts => pos ≤ cut.start ∧ cut.start ≤ cut.stop ∧ CutsFrom total cut.stop cuts

theorem CutsFrom.le {total pos : Nat} {cuts : List (Cut α)} (h : CutsFrom total pos cuts) :
    pos ≤ total := by
  induction cuts generalizing pos with
  | nil => exact h
  | cons cut cuts ih =>
    have := ih h.2.2
    have := h.1
    have := h.2.1
    omega

/-- Whether the observed element at a position is marked. -/
def hit (cuts : List (Cut α)) (i : Nat) : Bool :=
  cuts.any fun cut => decide (cut.start ≤ i) && decide (i < cut.stop)

/-- The old elements after the changes: marked where a change covers them. -/
def markFrom (loom : Loom α) (cuts : List (Cut α)) : Nat → List α → List α
  | _, [] => []
  | i, x :: xs =>
    if loom.obs x then (if hit cuts i then loom.mark x else x) :: markFrom loom cuts (i + 1) xs
    else x :: markFrom loom cuts i xs

section takeObserved

variable {obs : α → Bool}

theorem takeObserved_append (obs : α → Bool) (n : Nat) (xs : List α) :
    (takeObserved obs n xs).1 ++ (takeObserved obs n xs).2 = xs := by
  fun_induction takeObserved obs n xs with
  | case1 xs => rfl
  | case2 n => rfl
  | case3 n x xs taken rest heq ih =>
    rw [heq] at ih
    simpa using ih

theorem takeObserved_count {n : Nat} {xs : List α} (h : n ≤ (xs.filter obs).length) :
    ((takeObserved obs n xs).1.filter obs).length = n := by
  fun_induction takeObserved obs n xs with
  | case1 xs => rfl
  | case2 n => simp at h
  | case3 n x xs taken rest heq ih =>
    rw [heq] at ih
    by_cases hx : obs x = true
    · rw [List.filter_cons_of_pos hx] at h ⊢
      simp only [hx, if_true, List.length_cons] at h ih ⊢
      rw [ih (by omega)]
    · rw [List.filter_cons_of_neg hx] at h ⊢
      simp only [hx] at h ih
      exact ih h

theorem takeObserved_last {n : Nat} {xs : List α} (h : n + 1 ≤ (xs.filter obs).length) :
    ∃ front x, (takeObserved obs (n + 1) xs).1 = front ++ [x] ∧ obs x = true := by
  induction xs generalizing n with
  | nil => simp at h
  | cons x xs ih =>
    rw [takeObserved]
    by_cases hx : obs x = true
    · rw [List.filter_cons_of_pos hx] at h
      simp only [hx, if_true]
      cases n with
      | zero => exact ⟨[], x, by simp [takeObserved], hx⟩
      | succ n =>
        obtain ⟨front, y, heq, hy⟩ := ih (by simpa using h)
        exact ⟨x :: front, y, by simp [heq], hy⟩
    · rw [List.filter_cons_of_neg hx] at h
      simp only [hx]
      obtain ⟨front, y, heq, hy⟩ := ih h
      exact ⟨x :: front, y, by simpa using heq, hy⟩

theorem takeObserved_eq {n : Nat} {taken rest : List α} (hcount : (taken.filter obs).length = n)
    (hlast : taken = [] ∨ ∃ front x, taken = front ++ [x] ∧ obs x = true) :
    takeObserved obs n (taken ++ rest) = (taken, rest) := by
  induction taken generalizing n with
  | nil =>
    rw [← hcount]
    simp [takeObserved]
  | cons x xs ih =>
    rcases hlast with hnil | ⟨front, last, hsplit, hlast⟩
    · cases hnil
    cases front with
    | nil =>
      simp only [List.nil_append, List.cons.injEq] at hsplit
      obtain ⟨rfl, rfl⟩ := hsplit
      rw [← hcount]
      simp [hlast, takeObserved]
    | cons y front =>
      simp only [List.cons_append, List.cons.injEq] at hsplit
      obtain ⟨rfl, rfl⟩ := hsplit
      have hpos : 0 < ((front ++ [last]).filter obs).length := by simp [hlast]
      by_cases hx : obs x = true
      · rw [List.filter_cons_of_pos hx, List.length_cons] at hcount
        rw [← hcount, List.cons_append, takeObserved, if_pos hx, ih rfl (Or.inr ⟨front, last, rfl, hlast⟩)]
      · rw [List.filter_cons_of_neg hx] at hcount
        obtain ⟨m, hm⟩ := Nat.exists_eq_add_of_lt hpos
        rw [Nat.zero_add] at hm
        rw [← hcount, hm, List.cons_append, takeObserved, if_neg hx,
          ih hm (Or.inr ⟨front, last, rfl, hlast⟩)]

end takeObserved

theorem Weft.step_eq {loom : Loom α} {w : Weft α} {cut : Cut α} {before above marked rest : List α}
    (hsplit : w.rest = before ++ (above ++ (marked ++ rest)))
    (hbefore : (before.filter loom.obs).length = cut.start - w.pos)
    (hbeforeLast : before = [] ∨ ∃ front x, before = front ++ [x] ∧ loom.obs x = true)
    (habove : ∀ x ∈ above, loom.above x = true)
    (hstop : ∀ e ∈ (marked ++ rest).head?, loom.above e = false)
    (hmarked : (marked.filter loom.obs).length = cut.stop - cut.start)
    (hmarkedLast : marked = [] ∨ ∃ front x, marked = front ++ [x] ∧ loom.obs x = true) :
    w.step loom cut =
      { done := w.done ++ before ++ above ++ cut.block ++ marked.map loom.mark, rest, pos := cut.stop } := by
  have htake : ∀ ys : List α, (∀ e ∈ ys.head?, loom.above e = false) →
      ys.takeWhile loom.above = [] ∧ ys.dropWhile loom.above = ys := by
    intro ys hys
    cases ys with
    | nil => exact ⟨rfl, rfl⟩
    | cons y ys =>
      have hy : ¬ loom.above y = true := by simp [hys y (by simp)]
      rw [List.takeWhile_cons_of_neg hy, List.dropWhile_cons_of_neg hy]
      exact ⟨rfl, rfl⟩
  obtain ⟨htaken, hdropped⟩ := htake _ hstop
  unfold Weft.step
  rw [hsplit, takeObserved_eq hbefore hbeforeLast]
  dsimp only
  rw [List.takeWhile_append_of_pos habove, List.dropWhile_append_of_pos habove, htaken, hdropped,
    takeObserved_eq hmarked hmarkedLast, List.append_nil]

section order

variable {loom : Loom α}

theorem markFrom_append (cuts : List (Cut α)) (i : Nat) (xs ys : List α) :
    markFrom loom cuts i (xs ++ ys) =
      markFrom loom cuts i xs ++ markFrom loom cuts (i + (xs.filter loom.obs).length) ys := by
  induction xs generalizing i with
  | nil => simp [markFrom]
  | cons x xs ih =>
    simp only [List.cons_append, markFrom]
    by_cases hx : loom.obs x = true
    · rw [if_pos hx, if_pos hx, ih, List.filter_cons_of_pos hx, List.length_cons]
      simp only [List.cons_append]
      rw [Nat.add_right_comm i 1]
      rfl
    · rw [if_neg hx, if_neg hx, ih, List.filter_cons_of_neg hx]
      rfl

theorem markFrom_congr {cuts cuts' : List (Cut α)} {i : Nat} {xs : List α}
    (h : ∀ j, i ≤ j → j < i + (xs.filter loom.obs).length → hit cuts j = hit cuts' j) :
    markFrom loom cuts i xs = markFrom loom cuts' i xs := by
  induction xs generalizing i with
  | nil => rfl
  | cons x xs ih =>
    simp only [markFrom]
    by_cases hx : loom.obs x = true
    · rw [List.filter_cons_of_pos hx, List.length_cons] at h
      rw [if_pos hx, if_pos hx, h i le_rfl (by omega), ih fun j hlo hhi => h j (by omega) (by omega)]
    · rw [List.filter_cons_of_neg hx] at h
      rw [if_neg hx, if_neg hx, ih h]

theorem markFrom_of_not_hit {cuts : List (Cut α)} {i : Nat} {xs : List α}
    (h : ∀ j, i ≤ j → j < i + (xs.filter loom.obs).length → hit cuts j = false) :
    markFrom loom cuts i xs = xs := by
  induction xs generalizing i with
  | nil => rfl
  | cons x xs ih =>
    simp only [markFrom]
    by_cases hx : loom.obs x = true
    · rw [List.filter_cons_of_pos hx, List.length_cons] at h
      rw [if_pos hx, h i le_rfl (by omega), ih fun j hlo hhi => h j (by omega) (by omega)]
      rfl
    · rw [List.filter_cons_of_neg hx] at h
      rw [if_neg hx, ih h]

theorem markFrom_of_hit {cuts : List (Cut α)} {i : Nat} {xs : List α}
    (hmark : ∀ x ∈ xs, loom.obs x = false → loom.mark x = x)
    (h : ∀ j, i ≤ j → j < i + (xs.filter loom.obs).length → hit cuts j = true) :
    markFrom loom cuts i xs = xs.map loom.mark := by
  induction xs generalizing i with
  | nil => rfl
  | cons x xs ih =>
    have hmark' : ∀ y ∈ xs, loom.obs y = false → loom.mark y = y :=
      fun y hy => hmark y (List.mem_cons_of_mem _ hy)
    simp only [markFrom, List.map_cons]
    by_cases hx : loom.obs x = true
    · rw [List.filter_cons_of_pos hx, List.length_cons] at h
      rw [if_pos hx, h i le_rfl (by omega), ih hmark' fun j hlo hhi => h j (by omega) (by omega)]
      rfl
    · rw [List.filter_cons_of_neg hx] at h
      rw [if_neg hx, ih hmark' h, hmark x List.mem_cons_self (by simpa using hx)]

theorem markFrom_map {β : Type} {f : α → β} {cuts : List (Cut α)} {i : Nat} {xs : List α}
    (h : ∀ x ∈ xs, f (loom.mark x) = f x) : (markFrom loom cuts i xs).map f = xs.map f := by
  induction xs generalizing i with
  | nil => rfl
  | cons x xs ih =>
    have hrest := fun i => ih (i := i) fun y hy => h y (List.mem_cons_of_mem _ hy)
    rw [markFrom]
    split
    · rw [List.map_cons, hrest, List.map_cons]
      split
      · rw [h x List.mem_cons_self]
      · rfl
    · rw [List.map_cons, hrest, List.map_cons]

theorem CutsFrom.not_hit_before {total pos i : Nat} {cuts : List (Cut α)}
    (h : CutsFrom total pos cuts) (hi : i < pos) : hit cuts i = false := by
  induction cuts generalizing pos with
  | nil => rfl
  | cons cut cuts ih =>
    have hrest := ih h.2.2 (by have := h.1; have := h.2.1; omega)
    have hlt : ¬ cut.start ≤ i := by have := h.1; omega
    unfold hit at hrest ⊢
    rw [List.any_cons, hrest]
    simp [hlt]

theorem CutsFrom.hit_cons {total pos i : Nat} {cut : Cut α} {cuts : List (Cut α)}
    (h : CutsFrom total pos (cut :: cuts)) :
    hit (cut :: cuts) i =
      if i < cut.stop then decide (cut.start ≤ i) else hit cuts i := by
  have hcons : hit (cut :: cuts) i =
      ((decide (cut.start ≤ i) && decide (i < cut.stop)) || hit cuts i) := rfl
  by_cases hi : i < cut.stop
  · rw [if_pos hi, hcons, h.2.2.not_hit_before hi]
    simp [hi]
  · rw [if_neg hi, hcons]
    simp [hi]

end order

section congr

variable {loom other : Loom α}

/-- Two looms that look at the given elements in the same way. -/
structure Loom.Agrees (loom other : Loom α) (xs : List α) : Prop where
  obs : ∀ x ∈ xs, loom.obs x = other.obs x
  above : ∀ x ∈ xs, loom.above x = other.above x
  mark : ∀ x ∈ xs, loom.mark x = other.mark x

theorem Loom.Agrees.mono {xs ys : List α} (h : loom.Agrees other xs) (hsub : ∀ y ∈ ys, y ∈ xs) :
    loom.Agrees other ys :=
  ⟨fun y hy => h.obs y (hsub y hy), fun y hy => h.above y (hsub y hy), fun y hy => h.mark y (hsub y hy)⟩

private theorem takeObserved_congr {obs obs' : α → Bool} {n : Nat} {xs : List α}
    (h : ∀ x ∈ xs, obs x = obs' x) : takeObserved obs n xs = takeObserved obs' n xs := by
  induction xs generalizing n with
  | nil => cases n <;> rfl
  | cons x xs ih =>
    cases n with
    | zero => rfl
    | succ n =>
      rw [takeObserved, takeObserved, h x List.mem_cons_self,
        ih fun y hy => h y (List.mem_cons_of_mem _ hy)]

private theorem takeWhile_congr {p q : α → Bool} {xs : List α} (h : ∀ x ∈ xs, p x = q x) :
    xs.takeWhile p = xs.takeWhile q ∧ xs.dropWhile p = xs.dropWhile q := by
  induction xs with
  | nil => exact ⟨rfl, rfl⟩
  | cons x xs ih =>
    obtain ⟨htake, hdrop⟩ := ih fun y hy => h y (List.mem_cons_of_mem _ hy)
    simp only [List.takeWhile_cons, List.dropWhile_cons, h x List.mem_cons_self, htake, hdrop, and_self]

theorem Weft.step_congr {w : Weft α} (h : loom.Agrees other w.rest) (cut : Cut α) :
    w.step loom cut = w.step other cut ∧ ∀ x ∈ (w.step loom cut).rest, x ∈ w.rest := by
  have hafter : ∀ x ∈ (takeObserved other.obs (cut.start - w.pos) w.rest).2, x ∈ w.rest := by
    intro x hx
    rw [← takeObserved_append other.obs (cut.start - w.pos) w.rest]
    exact List.mem_append_right _ hx
  obtain ⟨htake, hdrop⟩ := takeWhile_congr fun x hx => h.above x (hafter x hx)
  have hdropped : ∀ x ∈ (takeObserved other.obs (cut.start - w.pos) w.rest).2.dropWhile other.above,
      x ∈ w.rest := fun x hx => hafter x (List.dropWhile_sublist _ |>.subset hx)
  have hmarked := takeObserved_append other.obs (cut.stop - cut.start)
    ((takeObserved other.obs (cut.start - w.pos) w.rest).2.dropWhile other.above)
  have hmarks : (takeObserved other.obs (cut.stop - cut.start)
        ((takeObserved other.obs (cut.start - w.pos) w.rest).2.dropWhile other.above)).1.map loom.mark =
      (takeObserved other.obs (cut.stop - cut.start)
        ((takeObserved other.obs (cut.start - w.pos) w.rest).2.dropWhile other.above)).1.map other.mark := by
    refine List.map_congr_left fun x hx => h.mark x (hdropped x ?_)
    rw [← hmarked]
    exact List.mem_append_left _ hx
  have hsame : w.step loom cut = w.step other cut := by
    unfold Weft.step
    dsimp only
    rw [takeObserved_congr h.obs, htake, hdrop, takeObserved_congr fun x hx => h.obs x (hdropped x hx), hmarks]
  refine ⟨hsame, fun x hx => hdropped x ?_⟩
  rw [hsame] at hx
  rw [← hmarked]
  exact List.mem_append_right _ hx

theorem weave_congr {cuts : List (Cut α)} {xs : List α} (h : loom.Agrees other xs) :
    weave loom cuts xs = weave other cuts xs := by
  suffices hfold : ∀ w : Weft α, loom.Agrees other w.rest →
      cuts.foldl (Weft.step loom) w = cuts.foldl (Weft.step other) w by
    rw [weave, weave, hfold _ h]
  induction cuts with
  | nil => exact fun _ _ => rfl
  | cons cut cuts ih =>
    intro w hw
    obtain ⟨hstep, hsub⟩ := Weft.step_congr hw cut
    rw [List.foldl_cons, List.foldl_cons, ih _ (hw.mono hsub), hstep]

theorem markFrom_eq_map {Id : Type} [BEq Id] [LawfulBEq Id] {id : α → Id} {cuts : List (Cut α)} {xs : List α}
    (hnodup : ((xs.filter loom.obs).map id).Nodup) :
    markFrom loom cuts 0 xs = xs.map fun x =>
      if loom.obs x && hit cuts (((xs.filter loom.obs).map id).idxOf (id x)) then loom.mark x else x := by
  suffices h : ∀ (front : List Id) (xs : List α), (front ++ (xs.filter loom.obs).map id).Nodup →
      markFrom loom cuts front.length xs = xs.map fun x =>
        if loom.obs x && hit cuts ((front ++ (xs.filter loom.obs).map id).idxOf (id x)) then loom.mark x
        else x from h [] xs hnodup
  intro front xs hnodup
  induction xs generalizing front with
  | nil => rfl
  | cons x xs ih =>
    rw [markFrom, List.map_cons]
    by_cases hx : loom.obs x = true
    · rw [List.filter_cons_of_pos hx, List.map_cons] at hnodup ⊢
      have hmove : front ++ id x :: (xs.filter loom.obs).map id =
          (front ++ [id x]) ++ (xs.filter loom.obs).map id := by simp
      have hnot : id x ∉ front := fun hmem =>
        (List.nodup_append.mp hnodup).2.2 _ hmem _ List.mem_cons_self rfl
      have hrest := ih (front ++ [id x]) (hmove ▸ hnodup)
      rw [List.length_append, List.length_singleton] at hrest
      rw [if_pos hx, hrest, hmove]
      congr 1
      rw [← hmove, List.idxOf_append_of_notMem hnot, List.idxOf_cons_self, Nat.add_zero, hx, Bool.true_and]
    · rw [List.filter_cons_of_neg hx] at hnodup ⊢
      rw [if_neg hx, ih front hnodup]
      congr 1
      rw [Bool.not_eq_true] at hx
      simp [hx]

end congr

section step

variable {loom : Loom α}

/-- The pieces a step of the change works on. -/
structure Pieces (loom : Loom α) (w : Weft α) (cut : Cut α) where
  before : List α
  above : List α
  marked : List α
  rest : List α
  split : w.rest = before ++ above ++ marked ++ rest
  step : w.step loom cut =
    { done := w.done ++ before ++ above ++ cut.block ++ marked.map loom.mark, rest, pos := cut.stop }
  before_count : (before.filter loom.obs).length = cut.start - w.pos
  before_nil : cut.start ≤ w.pos → before = []
  before_last : w.pos < cut.start → ∃ front x, before = front ++ [x] ∧ loom.obs x = true
  above_spec : ∀ x ∈ above, loom.above x = true
  above_stop : ∀ e ∈ (marked ++ rest).head?, loom.above e = false
  marked_count : (marked.filter loom.obs).length = cut.stop - cut.start
  marked_nil : cut.stop ≤ cut.start → marked = []
  marked_last : cut.start < cut.stop → ∃ front x, marked = front ++ [x] ∧ loom.obs x = true

/-- One step consumes up to the position of the change, passes what goes before
    the new elements, and marks the observed elements it covers. -/
def Weft.pieces (w : Weft α) (cut : Cut α)
    (habove : ∀ x ∈ w.rest, loom.above x = true → loom.obs x = false)
    (hstart : cut.start - w.pos ≤ (w.rest.filter loom.obs).length)
    (hstop : (cut.start - w.pos) + (cut.stop - cut.start) ≤ (w.rest.filter loom.obs).length) :
    Pieces loom w cut :=
  let before := takeObserved loom.obs (cut.start - w.pos) w.rest
  let above := before.2.takeWhile loom.above
  let tail := before.2.dropWhile loom.above
  let marked := takeObserved loom.obs (cut.stop - cut.start) tail
  have hbefore : before.1 ++ before.2 = w.rest := takeObserved_append _ _ _
  have htail : above ++ tail = before.2 := List.takeWhile_append_dropWhile
  have hcount : (before.1.filter loom.obs).length = cut.start - w.pos := takeObserved_count hstart
  have hnone : above.filter loom.obs = [] := by
    rw [List.filter_eq_nil_iff]
    intro x hx
    have hxrest : x ∈ w.rest := by
      rw [← hbefore, ← htail]
      simp [hx]
    simp [habove x hxrest (List.mem_takeWhile_imp hx)]
  have htailcount : cut.stop - cut.start ≤ (tail.filter loom.obs).length := by
    rw [← hbefore, ← htail, List.filter_append, List.filter_append, hnone, List.nil_append,
      List.length_append, hcount] at hstop
    omega
  { before := before.1
    above
    marked := marked.1
    rest := marked.2
    split := by
      rw [List.append_assoc, takeObserved_append, List.append_assoc, htail, hbefore]
    step := rfl
    before_count := hcount
    before_nil := fun hle => by simp [before, Nat.sub_eq_zero_of_le hle, takeObserved]
    before_last := fun hlt => by
      obtain ⟨n, hn⟩ : ∃ n, cut.start - w.pos = n + 1 := ⟨cut.start - w.pos - 1, by omega⟩
      rw [hn] at hstart
      obtain ⟨front, x, hfront, hx⟩ := takeObserved_last hstart
      exact ⟨front, x, by simp only [before, hn, hfront], hx⟩
    above_spec := fun x hx => List.mem_takeWhile_imp hx
    above_stop := by
      intro e he
      rw [takeObserved_append] at he
      have := List.head?_dropWhile_not loom.above before.2
      simp only [tail] at he
      rw [he] at this
      simpa using this
    marked_count := takeObserved_count htailcount
    marked_nil := fun hle => by simp [marked, Nat.sub_eq_zero_of_le hle, takeObserved]
    marked_last := fun hlt => by
      obtain ⟨n, hn⟩ : ∃ n, cut.stop - cut.start = n + 1 := ⟨cut.stop - cut.start - 1, by omega⟩
      rw [hn] at htailcount
      obtain ⟨front, x, hfront, hx⟩ := takeObserved_last htailcount
      exact ⟨front, x, by simp only [marked, hn, hfront], hx⟩ }

/-- What a weave may assume of its loom on the elements at hand. -/
structure Loom.Fits (loom : Loom α) (xs : List α) : Prop where
  above_obs : ∀ x ∈ xs, loom.above x = true → loom.obs x = false
  mark_obs : ∀ x ∈ xs, loom.obs x = false → loom.mark x = x

theorem Loom.Fits.mono {xs ys : List α} (h : loom.Fits xs) (hsub : ∀ y ∈ ys, y ∈ xs) : loom.Fits ys :=
  ⟨fun y hy => h.above_obs y (hsub y hy), fun y hy => h.mark_obs y (hsub y hy)⟩

theorem Weft.exists_pieces (w : Weft α) {cut : Cut α} {cuts : List (Cut α)} (hfits : loom.Fits w.rest)
    (hcuts : CutsFrom (w.pos + (w.rest.filter loom.obs).length) w.pos (cut :: cuts)) :
    ∃ p : Pieces loom w cut,
      CutsFrom (cut.stop + (p.rest.filter loom.obs).length) cut.stop cuts ∧
        loom.Fits p.rest ∧ (p.above.filter loom.obs) = [] := by
  obtain ⟨hstart, hstop, hrest⟩ := hcuts
  have hle := hrest.le
  refine ⟨w.pieces cut hfits.above_obs (by omega) (by omega), ?_⟩
  generalize w.pieces cut hfits.above_obs _ _ = p
  have hnone : p.above.filter loom.obs = [] := by
    rw [List.filter_eq_nil_iff]
    intro x hx
    have hmem : x ∈ w.rest := by
      rw [p.split]
      simp [hx]
    simp [hfits.above_obs x hmem (p.above_spec x hx)]
  refine ⟨?_, hfits.mono fun y hy => by rw [p.split]; simp [hy], hnone⟩
  have htotal : w.pos + (w.rest.filter loom.obs).length = cut.stop + (p.rest.filter loom.obs).length := by
    rw [p.split]
    simp only [List.filter_append, List.length_append, hnone, List.length_nil, p.before_count, p.marked_count]
    omega
  rwa [htotal] at hrest

theorem Pieces.markFrom_rest {w : Weft α} {cut : Cut α} {cuts : List (Cut α)} (p : Pieces loom w cut)
    {total : Nat} (hfits : loom.Fits w.rest) (hcuts : CutsFrom total w.pos (cut :: cuts))
    (hnone : p.above.filter loom.obs = []) :
    markFrom loom (cut :: cuts) w.pos w.rest =
      p.before ++ p.above ++ p.marked.map loom.mark ++ markFrom loom cuts cut.stop p.rest := by
  have hhit : ∀ i, hit (cut :: cuts) i = if i < cut.stop then decide (cut.start ≤ i) else hit cuts i :=
    fun i => hcuts.hit_cons
  obtain ⟨hstart, hstop, _⟩ := hcuts
  have hcount := p.before_count
  have hcount' := p.marked_count
  have hbefore : markFrom loom (cut :: cuts) w.pos p.before = p.before := by
    refine markFrom_of_not_hit fun j hlo hhi => ?_
    rw [hhit, if_pos (by omega)]
    simp
    omega
  have habove : markFrom loom (cut :: cuts) cut.start p.above = p.above := by
    refine markFrom_of_not_hit fun j hlo hhi => ?_
    rw [hnone, List.length_nil] at hhi
    omega
  have hmarked : markFrom loom (cut :: cuts) cut.start p.marked = p.marked.map loom.mark := by
    refine markFrom_of_hit (fun x hx => hfits.mark_obs x (by rw [p.split]; simp [hx])) fun j hlo hhi => ?_
    rw [hhit, if_pos (by omega)]
    simpa using hlo
  have hrest : markFrom loom (cut :: cuts) cut.stop p.rest = markFrom loom cuts cut.stop p.rest := by
    refine markFrom_congr fun j hlo hhi => ?_
    rw [hhit, if_neg (by omega)]
  have hpos : w.pos + (p.before.filter loom.obs).length = cut.start := by omega
  have hpos' : cut.start + (p.marked.filter loom.obs).length = cut.stop := by omega
  rw [p.split, markFrom_append, markFrom_append, markFrom_append, hbefore]
  simp only [List.filter_append, List.length_append, hnone, List.length_nil, Nat.add_zero]
  rw [hpos, habove, hmarked, ← Nat.add_assoc, hpos, hpos', hrest]

end step

section content

variable {loom : Loom α} {new : α → Bool}

/-- What tells the elements inserted by a change from the ones already there. -/
structure Fresh (loom : Loom α) (new : α → Bool) (cuts : List (Cut α)) (xs : List α) : Prop where
  old : ∀ x ∈ xs, new x = false
  mark : ∀ x ∈ xs, new (loom.mark x) = false
  block : ∀ cut ∈ cuts, ∀ n ∈ cut.block, new n = true

private theorem filter_old (new : α → Bool) {xs : List α} (h : ∀ x ∈ xs, new x = false) :
    xs.filter (fun x => !new x) = xs ∧ xs.filter new = [] := by
  rw [List.filter_eq_self, List.filter_eq_nil_iff]
  exact ⟨fun x hx => by simp [h x hx], fun x hx => by simp [h x hx]⟩

private theorem filter_new (new : α → Bool) {xs : List α} (h : ∀ x ∈ xs, new x = true) :
    xs.filter (fun x => !new x) = [] ∧ xs.filter new = xs := by
  rw [List.filter_eq_self, List.filter_eq_nil_iff]
  exact ⟨fun x hx => by simp [h x hx], fun x hx => h x hx⟩

private theorem foldl_step_filter (cuts : List (Cut α)) (w : Weft α) (hfits : loom.Fits w.rest)
    (hfresh : Fresh loom new cuts w.rest)
    (hcuts : CutsFrom (w.pos + (w.rest.filter loom.obs).length) w.pos cuts) :
    (cuts.foldl (Weft.step loom) w).finish.filter (fun x => !new x) =
        w.done.filter (fun x => !new x) ++ markFrom loom cuts w.pos w.rest ∧
      (cuts.foldl (Weft.step loom) w).finish.filter new =
        w.done.filter new ++ cuts.flatMap Cut.block := by
  induction cuts generalizing w with
  | nil =>
    obtain ⟨hold, hnew⟩ := filter_old new hfresh.old
    rw [markFrom_of_not_hit fun _ _ _ => rfl]
    simp only [List.foldl_nil, Weft.finish, List.filter_append, hold, hnew, List.flatMap_nil, true_and]
  | cons cut cuts ih =>
    obtain ⟨p, hrest, hfits', hnone⟩ := w.exists_pieces hfits hcuts
    have hmark := p.markFrom_rest hfits hcuts hnone
    have hsub : ∀ x, x ∈ p.before ∨ x ∈ p.above ∨ x ∈ p.marked ∨ x ∈ p.rest → x ∈ w.rest := by
      intro x hx
      rw [p.split]
      simp only [List.mem_append]
      tauto
    obtain ⟨hold, hnew⟩ := ih (w.step loom cut) (by rw [p.step]; exact hfits')
      (by
        rw [p.step]
        exact ⟨fun x hx => hfresh.old x (hsub x (by simp [hx])),
          fun x hx => hfresh.mark x (hsub x (by simp [hx])),
          fun c hc => hfresh.block c (List.mem_cons_of_mem _ hc)⟩)
      (by rw [p.step]; exact hrest)
    have hb := filter_old new fun x hx => hfresh.old x (hsub x (Or.inl hx))
    have ha := filter_old new fun x hx => hfresh.old x (hsub x (Or.inr (Or.inl hx)))
    have hm : ∀ x ∈ p.marked.map loom.mark, new x = false := by
      intro x hx
      obtain ⟨y, hy, rfl⟩ := List.mem_map.mp hx
      exact hfresh.mark y (hsub y (by simp [hy]))
    have hm := filter_old new hm
    have hn := filter_new new (hfresh.block cut List.mem_cons_self)
    rw [List.foldl_cons, hold, hnew, p.step, hmark, List.flatMap_cons]
    simp only [List.filter_append, hb.1, hb.2, ha.1, ha.2, hm.1, hm.2, hn.1, hn.2]
    simp

theorem weave_filter_old {cuts : List (Cut α)} {xs : List α} (hfits : loom.Fits xs)
    (hfresh : Fresh loom new cuts xs) (hcuts : CutsFrom (xs.filter loom.obs).length 0 cuts) :
    (weave loom cuts xs).filter (fun x => !new x) = markFrom loom cuts 0 xs := by
  have h := (foldl_step_filter cuts { done := [], rest := xs, pos := 0 } hfits hfresh (by simpa using hcuts)).1
  simpa [weave] using h

theorem weave_filter_new {cuts : List (Cut α)} {xs : List α} (hfits : loom.Fits xs)
    (hfresh : Fresh loom new cuts xs) (hcuts : CutsFrom (xs.filter loom.obs).length 0 cuts) :
    (weave loom cuts xs).filter new = cuts.flatMap Cut.block := by
  have h := (foldl_step_filter cuts { done := [], rest := xs, pos := 0 } hfits hfresh (by simpa using hcuts)).2
  simpa [weave] using h

end content

section rooted

variable {loom : Loom α} {Id : Type} {id : α → Id} {prior : Id → Id → Prop} {origin : Id → Option Id}

/-- How the elements a change inserts stand to the ones already there, whose
    observed part is `doc`: they are rooted at its positions, and `above` tells
    which elements go before them. -/
structure Roots (loom : Loom α) (id : α → Id) (prior : Id → Id → Prop) (origin : Id → Option Id)
    (doc : List Id) (cuts : List (Cut α)) (xs : List α) : Prop where
  mark_id : ∀ x ∈ xs, id (loom.mark x) = id x
  origin_eq : ∀ cut ∈ cuts, ∀ n ∈ cut.block, origin (id n) = (doc.take cut.start).getLast?
  above_prior : ∀ x ∈ xs, loom.above x = true → ∀ cut ∈ cuts, ∀ n ∈ cut.block, prior (id x) (id n)
  prior_below : ∀ x ∈ xs, loom.above x = false → ∀ cut ∈ cuts, ∀ n ∈ cut.block, prior (id n) (id x)
  blocks : ((cuts.flatMap Cut.block).map id).Pairwise prior

private theorem take_getLast {doc front : List Id} {pos : Nat} {x : Id} {rest : List Id}
    (hdoc : doc.drop pos = front ++ x :: rest) {stop : Nat} (hstop : stop = pos + front.length + 1) :
    (doc.take stop).getLast? = some x := by
  have hlen : pos ≤ doc.length := by
    by_contra hnot
    rw [List.drop_eq_nil_of_le (by omega)] at hdoc
    simp at hdoc
  have hsplit : doc = doc.take pos ++ (front ++ [x] ++ rest) := by
    conv_lhs => rw [← List.take_append_drop pos doc, hdoc]
    simp
  have htake : doc.take stop = doc.take pos ++ (front ++ [x]) := by
    conv_lhs => rw [hsplit]
    rw [← List.append_assoc, List.take_left' (by simp [hlen, hstop]; omega)]
  rw [htake, ← List.append_assoc, List.getLast?_append]
  simp

private theorem follows_of_last {doc : List Id} {pos stop : Nat} {left : List Id} {piece : List α}
    {rest : List Id} {front : List α} {x : α} {n : Id} {extra : List Id}
    (hpiece : piece = front ++ [x]) (hx : loom.obs x = true)
    (hdoc : doc.drop pos = (piece.filter loom.obs).map id ++ rest)
    (hstop : stop = pos + (piece.filter loom.obs).length) (hextra : ∀ m ∈ extra, prior m n) :
    Follows prior (doc.take stop).getLast? n (left ++ piece.map id ++ extra) := by
  have hfilter : piece.filter loom.obs = front.filter loom.obs ++ [x] := by
    rw [hpiece, List.filter_append, List.filter_cons_of_pos hx, List.filter_nil]
  have hlast : (doc.take stop).getLast? = some (id x) := by
    rw [hfilter] at hdoc hstop
    have hsplit : doc.drop pos = (front.filter loom.obs).map id ++ id x :: rest := by simpa using hdoc
    exact take_getLast hsplit (by simpa [Nat.add_assoc] using hstop)
  rw [hlast, hpiece]
  exact ⟨left ++ front.map id, extra, by simp, hextra⟩

private theorem foldl_step_rooted [IsTrans Id prior] {doc : List Id} (cuts : List (Cut α)) (w : Weft α)
    (hfits : loom.Fits w.rest) (hroots : Roots loom id prior origin doc cuts w.rest)
    (hcuts : CutsFrom (w.pos + (w.rest.filter loom.obs).length) w.pos cuts)
    (hdoc : doc.drop w.pos = (w.rest.filter loom.obs).map id)
    (htail : ∀ cut ∈ cuts, ∀ n ∈ cut.block,
      Follows prior (doc.take w.pos).getLast? (id n) (w.done.map id))
    (hrooted : Rooted prior origin (w.finish.map id)) :
    Rooted prior origin ((cuts.foldl (Weft.step loom) w).finish.map id) := by
  induction cuts generalizing w with
  | nil => exact hrooted
  | cons cut cuts ih =>
    obtain ⟨p, hrest, hfits', hnone⟩ := w.exists_pieces hfits hcuts
    have hsub : ∀ x, x ∈ p.before ∨ x ∈ p.above ∨ x ∈ p.marked ∨ x ∈ p.rest → x ∈ w.rest := by
      intro x hx
      rw [p.split]
      simp only [List.mem_append]
      tauto
    obtain ⟨hstart, hstop, _⟩ := hcuts
    have hcount := p.before_count
    have hcount' := p.marked_count
    rw [p.split] at hdoc
    simp only [List.filter_append, hnone, List.nil_append, List.map_append, List.append_assoc] at hdoc
    -- an element rooted at the start of the change follows what stands before it
    have hfollows : ∀ c ∈ cut :: cuts, ∀ n ∈ c.block, Follows prior (doc.take cut.start).getLast? (id n)
        (w.done.map id ++ p.before.map id ++ p.above.map id) := by
      intro c hc n hn
      have habove : ∀ m ∈ p.above.map id, prior m (id n) := by
        intro m hm
        obtain ⟨x, hx, rfl⟩ := List.mem_map.mp hm
        exact hroots.above_prior x (hsub x (by simp [hx])) (p.above_spec x hx) c hc n hn
      rcases Nat.lt_or_ge w.pos cut.start with hlt | hge
      · obtain ⟨front, x, hfront, hx⟩ := p.before_last hlt
        exact follows_of_last hfront hx hdoc (by omega) habove
      · have hpos : cut.start = w.pos := by omega
        rw [p.before_nil hge, hpos]
        simpa using (htail c hc n hn).append habove
    have hinsert : Rooted prior origin ((w.done.map id ++ p.before.map id ++ p.above.map id) ++
        cut.block.map id ++ (p.marked ++ p.rest).map id) := by
      have horigin : ∀ m ∈ cut.block.map id, origin m = (doc.take cut.start).getLast? := by
        intro m hm
        obtain ⟨n, hn, rfl⟩ := List.mem_map.mp hm
        exact hroots.origin_eq cut List.mem_cons_self n hn
      refine Rooted.insert ?_ horigin ?_ ?_ ?_
      · simpa [Weft.finish, p.split] using hrooted
      · intro m hm
        obtain ⟨n, hn, rfl⟩ := List.mem_map.mp hm
        exact hfollows cut List.mem_cons_self n hn
      · have hblocks := hroots.blocks
        rw [List.flatMap_cons, List.map_append, List.pairwise_append] at hblocks
        exact hblocks.1
      · intro e he m hm
        obtain ⟨n, hn, rfl⟩ := List.mem_map.mp hm
        rw [List.head?_map, Option.mem_map] at he
        obtain ⟨x, hx, rfl⟩ := he
        have hxmem : x ∈ p.marked ++ p.rest := List.mem_of_mem_head? hx
        exact hroots.prior_below x (hsub x (by simp only [List.mem_append] at hxmem; tauto))
          (p.above_stop x hx) cut List.mem_cons_self n hn
    have hmarkid : (p.marked.map loom.mark).map id = p.marked.map id := by
      rw [List.map_map]
      exact List.map_congr_left fun x hx => hroots.mark_id x (hsub x (by simp [hx]))
    have hdrop : doc.drop cut.start = (p.marked.filter loom.obs).map id ++ (p.rest.filter loom.obs).map id := by
      have hlen : cut.start = w.pos + (cut.start - w.pos) := by omega
      rw [hlen, ← List.drop_drop, hdoc, List.drop_left' (by rw [List.length_map, hcount])]
    have hdrop' : doc.drop cut.stop = (p.rest.filter loom.obs).map id := by
      have hlen : cut.stop = cut.start + (cut.stop - cut.start) := by omega
      rw [hlen, ← List.drop_drop, hdrop, List.drop_left' (by rw [List.length_map, hcount'])]
    rw [List.foldl_cons]
    apply ih
    · rw [p.step]
      exact hfits'
    · rw [p.step]
      have hblocks := hroots.blocks
      rw [List.flatMap_cons, List.map_append, List.pairwise_append] at hblocks
      exact ⟨fun x hx => hroots.mark_id x (hsub x (by simp [hx])),
        fun c hc => hroots.origin_eq c (List.mem_cons_of_mem _ hc),
        fun x hx habove c hc => hroots.above_prior x (hsub x (by simp [hx])) habove c (List.mem_cons_of_mem _ hc),
        fun x hx habove c hc => hroots.prior_below x (hsub x (by simp [hx])) habove c (List.mem_cons_of_mem _ hc),
        hblocks.2.1⟩
    · rw [p.step]
      exact hrest
    · rw [p.step]
      exact hdrop'
    · rw [p.step]
      intro c hc n hn
      simp only [List.map_append, hmarkid]
      rcases Nat.lt_or_ge cut.start cut.stop with hlt | hge
      · obtain ⟨front, x, hfront, hx⟩ := p.marked_last hlt
        have h : Follows prior (doc.take cut.stop).getLast? (id n) ((w.done.map id ++ p.before.map id ++
            p.above.map id ++ cut.block.map id) ++ p.marked.map id ++ []) :=
          follows_of_last hfront hx hdrop (by omega) (by simp)
        simpa using h
      · have hstop' : cut.stop = cut.start := by omega
        rw [p.marked_nil hge, hstop', List.map_nil, List.append_nil]
        refine (hfollows c (List.mem_cons_of_mem _ hc) n hn).append fun m hm => ?_
        have hblocks := hroots.blocks
        rw [List.flatMap_cons, List.map_append, List.pairwise_append] at hblocks
        exact hblocks.2.2 m hm (id n) (List.mem_map_of_mem (List.mem_flatMap.mpr ⟨c, hc, hn⟩))
    · rw [p.step]
      simpa [Weft.finish, hmarkid] using hinsert

theorem weave_rooted [IsTrans Id prior] {cuts : List (Cut α)} {xs : List α} (hfits : loom.Fits xs)
    (hroots : Roots loom id prior origin ((xs.filter loom.obs).map id) cuts xs)
    (hcuts : CutsFrom (xs.filter loom.obs).length 0 cuts) (hrooted : Rooted prior origin (xs.map id)) :
    Rooted prior origin ((weave loom cuts xs).map id) := by
  refine foldl_step_rooted cuts { done := [], rest := xs, pos := 0 } hfits hroots (by simpa using hcuts)
    (by simp) (fun cut hcut n hn m hm => by simp at hm) (by simpa [Weft.finish] using hrooted)

end rooted

end zed.replicated
