import Zed.Replicated.Weave
import Zed.Text.Stitch.Finish

namespace zed.text

open zed.clock zed.rope
open zed.replicated (Cut Weft Loom CutsFrom Fresh weave markFrom markFrom_map weave_filter_new weave_filter_old)
open zed.sum_tree (Bias)

/-- The changes of an edit operation: the insertions of all ranges share one
    timestamp, and their offsets continue from range to range. -/
def cutsOf (timestamp : Lamport) : Nat → List (Range × Str) → List (Cut Atom)
  | _, [] => []
  | offset, (range, new_text) :: edits =>
    { start := range.start
      stop := range.stop
      block := insertedAtoms timestamp offset (utf8 new_text).length } ::
      cutsOf timestamp (offset + (utf8 new_text).length) edits

/-- The bytes that the new texts of an edit operation insert. -/
def Inserts (content : AtomId → UInt8) (timestamp : Lamport) : Nat → List Str → Prop
  | _, [] => True
  | offset, new_text :: new_texts =>
    bytes content (insertedAtoms timestamp offset (utf8 new_text).length) = utf8 new_text ∧
      Inserts content timestamp (offset + (utf8 new_text).length) new_texts

theorem cutsOf_blocks (timestamp : Lamport) (offset : Nat) (edits : List (Range × Str)) :
    (cutsOf timestamp offset edits).flatMap Cut.block =
      insertedAtoms timestamp offset (edits.map fun edit => (utf8 edit.2).length).sum := by
  induction edits generalizing offset with
  | nil => rfl
  | cons edit edits ih =>
    rw [cutsOf, List.flatMap_cons, ih, List.map_cons, List.sum_cons, insertedAtoms_add]

theorem mem_insertedAtoms {timestamp : Lamport} {offset len : Nat} {atom : Atom} :
    atom ∈ insertedAtoms timestamp offset len ↔ ∃ i < len,
      atom = { timestamp, offset := offset + i, visible := true, deletions := [], max_undos := Global.new } := by
  simp only [insertedAtoms, List.mem_map, List.mem_range, eq_comm]

def Atom.insertedBy (timestamp : Lamport) (atom : Atom) : Bool := decide (atom.timestamp = timestamp)

section weave

variable {loom : Loom Atom} {timestamp : Lamport} {edits : List (Range × Str)} {xs : List Atom}

theorem fresh_cutsOf (hmark : ∀ atom ∈ xs, (loom.mark atom).id = atom.id)
    (hfresh : ∀ atom ∈ xs, atom.timestamp ≠ timestamp) (edits : List (Range × Str)) :
    Fresh loom (Atom.insertedBy timestamp) (cutsOf timestamp 0 edits) xs :=
  { old := fun atom hatom => decide_eq_false (hfresh atom hatom)
    mark := fun atom hatom => by
      refine decide_eq_false ?_
      rw [(Prod.mk.inj (hmark atom hatom)).1]
      exact hfresh atom hatom
    block := fun cut hcut atom hatom => by
      have hmem := List.mem_flatMap.mpr ⟨cut, hcut, hatom⟩
      rw [cutsOf_blocks] at hmem
      obtain ⟨i, -, rfl⟩ := mem_insertedAtoms.mp hmem
      exact decide_eq_true rfl }

theorem weave_inserted (hfits : loom.Fits xs) (hmark : ∀ atom ∈ xs, (loom.mark atom).id = atom.id)
    (hfresh : ∀ atom ∈ xs, atom.timestamp ≠ timestamp)
    (hcuts : CutsFrom (xs.filter loom.obs).length 0 (cutsOf timestamp 0 edits)) :
    (weave loom (cutsOf timestamp 0 edits) xs).filter (Atom.insertedBy timestamp) =
      insertedAtoms timestamp 0 (edits.map fun edit => (utf8 edit.2).length).sum :=
  (weave_filter_new hfits (fresh_cutsOf hmark hfresh edits) hcuts).trans (cutsOf_blocks timestamp 0 edits)

theorem weave_kept (hfits : loom.Fits xs) (hmark : ∀ atom ∈ xs, (loom.mark atom).id = atom.id)
    (hfresh : ∀ atom ∈ xs, atom.timestamp ≠ timestamp)
    (hcuts : CutsFrom (xs.filter loom.obs).length 0 (cutsOf timestamp 0 edits)) :
    (weave loom (cutsOf timestamp 0 edits) xs).filter (fun atom => !atom.insertedBy timestamp) =
      markFrom loom (cutsOf timestamp 0 edits) 0 xs :=
  weave_filter_old hfits (fresh_cutsOf hmark hfresh edits) hcuts

theorem weave_nodup (hfits : loom.Fits xs) (hmark : ∀ atom ∈ xs, (loom.mark atom).id = atom.id)
    (hfresh : ∀ atom ∈ xs, atom.timestamp ≠ timestamp)
    (hcuts : CutsFrom (xs.filter loom.obs).length 0 (cutsOf timestamp 0 edits))
    (hnodup : (xs.map Atom.id).Nodup) :
    ((weave loom (cutsOf timestamp 0 edits) xs).map Atom.id).Nodup := by
  have hinserted := weave_inserted hfits hmark hfresh hcuts
  have hkept := weave_kept hfits hmark hfresh hcuts
  have hperm := (List.filter_append_perm (Atom.insertedBy timestamp)
    (weave loom (cutsOf timestamp 0 edits) xs)).map Atom.id
  rw [← hperm.nodup_iff, hinserted, hkept, List.map_append, List.nodup_append,
    markFrom_map hmark]
  refine ⟨?_, hnodup, ?_⟩
  · rw [insertedAtoms, List.map_map]
    refine List.nodup_range.map fun i j heq => ?_
    simpa [Atom.id] using heq
  · intro id hid other hother heq
    obtain ⟨atom, hatom, rfl⟩ := List.mem_map.mp hid
    obtain ⟨i, -, rfl⟩ := mem_insertedAtoms.mp hatom
    obtain ⟨old, hold, rfl⟩ := List.mem_map.mp hother
    exact hfresh old hold (congrArg Prod.fst heq).symm

end weave

namespace Walk

variable {gauge : Gauge} {timestamp : Lamport} {content : AtomId → UInt8} {w last : Walk}

/-- The walk as a sequence in the middle of a change. -/
def weft (gauge : Gauge) (obs : Atom → Bool) (w : Walk) : Weft Atom :=
  { done := atoms w.new_fragments
    rest := w.leftAtoms gauge
    pos := ((w.doneAtoms gauge).filter obs).length }

theorem weft_initial (gauge : Gauge) (obs : Atom → Bool) (fragments : List Fragment)
    (visible_text deleted_text : Rope) :
    (initial fragments visible_text deleted_text).weft gauge obs =
      { done := [], rest := atoms fragments, pos := 0 } := rfl

theorem Stitches.weft_step (loom : Loom Atom) {before : List Atom} (above : List Atom)
    {block marked : List Atom}
    (h : Stitches gauge timestamp content w last (before ++ (above ++ marked))
      (before ++ (above ++ (block ++ marked.map loom.mark))))
    (hbefore : before = [] ∨ ∃ front atom, before = front ++ [atom] ∧ loom.obs atom = true)
    (habove : ∀ atom ∈ above, loom.above atom = true ∧ loom.obs atom = false)
    (hstop : ∀ atom ∈ (marked ++ last.leftAtoms gauge).head?, loom.above atom = false)
    (hmarked : marked = [] ∨ ∃ front atom, marked = front ++ [atom] ∧ loom.obs atom = true) :
    last.weft gauge loom.obs = (w.weft gauge loom.obs).step loom
      { start := (w.weft gauge loom.obs).pos + (before.filter loom.obs).length
        stop := (w.weft gauge loom.obs).pos + (before.filter loom.obs).length +
          (marked.filter loom.obs).length
        block } := by
  have hnone : above.filter loom.obs = [] := by
    rw [List.filter_eq_nil_iff]
    exact fun atom hatom => by simp [(habove atom hatom).2]
  have hsplit : (w.weft gauge loom.obs).rest =
      before ++ (above ++ (marked ++ (last.weft gauge loom.obs).rest)) := by
    change w.leftAtoms gauge = before ++ (above ++ (marked ++ last.leftAtoms gauge))
    rw [h.left]
    simp only [List.append_assoc]
  rw [Weft.step_eq hsplit (by simp) hbefore (fun atom hatom => (habove atom hatom).1) hstop (by simp)
    hmarked]
  simp only [weft, h.new, h.done, List.filter_append, hnone, List.nil_append, List.length_append,
    List.append_assoc, Nat.add_assoc]

/-- From which walk on the first of several ranges is caught up with: the loop
    starts with the fragments before it already kept. -/
def Arrives (gauge : Gauge) (timestamp : Lamport) (content : AtomId → UInt8) (bias : Bias) (before w : Walk) :
    List (Range × Str) → Prop
  | [] => w = before
  | edit :: _ => ∃ taken,
      Stitches gauge timestamp content before (w.catch_up gauge.len edit.1.start bias) taken taken ∧
        CaughtUp gauge edit.1.start bias before (w.catch_up gauge.len edit.1.start bias)

theorem arrives_self (timestamp : Lamport) (content : AtomId → UInt8) (bias : Bias)
    {edits : List (Range × Str)} (h : w.Placed gauge)
    (hedits : ∀ edit ∈ edits.head?, w.fragment_start ≤ edit.1.start ∧ edit.1.start ≤ w.total gauge) :
    Arrives gauge timestamp content bias w w edits := by
  cases edits with
  | nil => rfl
  | cons edit edits =>
    obtain ⟨hle, htotal⟩ := hedits edit (by simp)
    obtain ⟨hcaught, taken, hstitches⟩ := catch_up_stitches timestamp content h bias hle htotal
    exact ⟨taken, hstitches, hcaught⟩

theorem arrives_start (timestamp : Lamport) (content : AtomId → UInt8) (gauge : Gauge) (bias : Bias)
    (fragments : List Fragment) (visible_text deleted_text : Rope) (edit : Range × Str)
    (edits : List (Range × Str)) (htotal : edit.1.start ≤ (fragments.map gauge.len).sum) :
    Arrives gauge timestamp content bias (initial fragments visible_text deleted_text)
      (start gauge.len fragments visible_text deleted_text edit.1.start bias) (edit :: edits) := by
  obtain ⟨hcaught, hsame, taken, hstitches⟩ := start_stitches timestamp content gauge fragments visible_text
    deleted_text bias htotal
  refine ⟨taken, ?_, ?_⟩
  · rw [hsame]
    exact hstitches
  · rw [hsame]
    exact hcaught

end Walk

end zed.text
