import Zed.Text.Stitch.Finish

namespace zed.text

open zed.clock zed.rope
variable {content : AtomId → UInt8} {undo_map : UndoMap} {timestamp : Lamport}

/-- A fragment of an undone edit, with its visibility recomputed. -/
def Fragment.undo (undo_map : UndoMap) (timestamp : Lamport) (fragment : Fragment) : Fragment :=
  { fragment with
    visible := fragment.is_visible undo_map
    max_undos := fragment.max_undos.observe timestamp }

/-- What an undo that found the fragments with the given ids does to a fragment. -/
def Fragment.undoWithin (undo_map : UndoMap) (timestamp : Lamport) (ids : List Locator) (fragment : Fragment) :
    Fragment := if fragment.id ∈ ids then fragment.undo undo_map timestamp else fragment

theorem Fragment.undoWithin_same (undo_map : UndoMap) (timestamp : Lamport) (ids : List Locator)
    (fragment : Fragment) :
    let undone := fragment.undoWithin undo_map timestamp ids
    undone.id = fragment.id ∧ undone.timestamp = fragment.timestamp ∧
      undone.insertion_offset = fragment.insertion_offset ∧ undone.len = fragment.len ∧
      undone.deletions = fragment.deletions := by
  unfold Fragment.undoWithin
  split
  · exact ⟨rfl, rfl, rfl, rfl, rfl⟩
  · exact ⟨rfl, rfl, rfl, rfl, rfl⟩

theorem Fragment.undo_ids (fragment : Fragment) :
    (fragment.undo undo_map timestamp).atoms.map Atom.id = fragment.atoms.map Atom.id := by
  simp only [Fragment.atoms, Fragment.undo, List.map_map]
  rfl

namespace BufferSnapshot

/-- The texts and the patch have come as far as the fragments. -/
structure UndoWalk.Texts (content : AtomId → UInt8) (old : List Fragment) (w : UndoWalk) : Prop where
  fragments : w.old_fragments.passed ++ w.old_fragments.rest = old
  ropes : w.new_ropes.Holds content (atoms old) (atoms w.old_fragments.passed) (atoms w.new_fragments)
  patch : w.edits.Leads (visibleBytes content (atoms w.old_fragments.passed))
    (visibleBytes content (atoms w.new_fragments))

variable {old : List Fragment} {w : UndoWalk}

/-- The walk after the fragments before a given one were kept. -/
def UndoWalk.keep (w : UndoWalk) (before rest : List Fragment) : UndoWalk :=
  { w with
    old_fragments := { passed := w.old_fragments.passed ++ before, rest }
    new_ropes := w.new_ropes.append (summary before).text
    new_fragments := w.new_fragments ++ before }

theorem UndoWalk.Texts.keep {before rest : List Fragment} (h : w.Texts content old)
    (hrest : w.old_fragments.rest = before ++ rest) : (w.keep before rest).Texts content old := by
  have hold : atoms old = atoms w.old_fragments.passed ++ atoms before ++ atoms rest := by
    rw [← h.fragments, hrest]
    simp
  refine ⟨?_, ?_, ?_⟩
  · rw [← h.fragments, hrest]
    simp [UndoWalk.keep]
  · have hropes := h.ropes.append_summary hold
    simpa [UndoWalk.keep] using hropes
  · have hpatch := h.patch.keep (visibleBytes content (atoms before))
    simpa [UndoWalk.keep] using hpatch

/-- The walk after the current fragment was undone. -/
def UndoWalk.undo (undo_map : UndoMap) (timestamp : Lamport) (w : UndoWalk) (fragment : Fragment) : UndoWalk :=
  let undone := fragment.undo undo_map timestamp
  let old_start := w.old_fragments.start Fragment.visible_len
  let new_start := (summary w.new_fragments).text.visible
  { edits :=
      if fragment.visible && !undone.visible then
        w.edits.push { old := ⟨old_start, old_start + fragment.len⟩, new := ⟨new_start, new_start⟩ }
      else if !fragment.visible && undone.visible then
        w.edits.push { old := ⟨old_start, old_start⟩, new := ⟨new_start, new_start + fragment.len⟩ }
      else w.edits
    new_ropes := w.new_ropes.push_fragment undone fragment.visible
    new_fragments := w.new_fragments ++ [undone]
    old_fragments := w.old_fragments.next }

theorem UndoWalk.Texts.undo {fragment : Fragment} {rest : List Fragment} (h : w.Texts content old)
    (hrest : w.old_fragments.rest = fragment :: rest) :
    (w.undo undo_map timestamp fragment).Texts content old := by
  have hold : atoms old = atoms w.old_fragments.passed ++ fragment.atoms ++ atoms rest := by
    rw [← h.fragments, hrest]
    simp
  have hnext : w.old_fragments.next = { passed := w.old_fragments.passed ++ [fragment], rest } := by
    simp [sum_tree.Cursor.next, hrest]
  have hwas : ∀ atom ∈ fragment.atoms, atom.visible = fragment.visible := fun atom hatom =>
    (Fragment.atoms_eq_of_mem hatom).2.1
  have his : ∀ atom ∈ (fragment.undo undo_map timestamp).atoms,
      atom.visible = (fragment.undo undo_map timestamp).visible := fun atom hatom =>
    (Fragment.atoms_eq_of_mem hatom).2.1
  have hbytes : bytes content (fragment.undo undo_map timestamp).atoms = bytes content fragment.atoms :=
    bytes_congr fragment.undo_ids
  refine ⟨?_, ?_, ?_⟩
  · rw [← h.fragments, hrest]
    simp [UndoWalk.undo, hnext]
  · have hropes := h.ropes.push hold hwas his fragment.undo_ids
    rw [Fragment.atoms_length] at hropes
    simpa [UndoWalk.undo, hnext, RopeBuilder.push_fragment, Fragment.undo] using hropes
  · have hlen : (bytes content fragment.atoms).length = fragment.len := by simp [bytes]
    have hstart : (visibleBytes content (atoms w.old_fragments.passed)).length =
        w.old_fragments.start Fragment.visible_len := by
      rw [visibleBytes_length]
      exact Gauge.visible.atoms_length _
    have hreplace := h.patch.replace (visibleBytes content fragment.atoms)
      (visibleBytes content (fragment.undo undo_map timestamp).atoms)
    rw [hstart, visibleBytes_length (atoms w.new_fragments), ← summary_visible] at hreplace
    have hpassed : atoms (w.undo undo_map timestamp fragment).old_fragments.passed =
        atoms w.old_fragments.passed ++ fragment.atoms := by
      simp [UndoWalk.undo, hnext]
    have hnew : atoms (w.undo undo_map timestamp fragment).new_fragments =
        atoms w.new_fragments ++ (fragment.undo undo_map timestamp).atoms := by
      simp [UndoWalk.undo]
    rw [hpassed, hnew, visibleBytes_append, visibleBytes_append]
    -- text that stays visible is kept, and text that stays deleted is on neither side
    cases hvisible : fragment.visible with
    | false =>
      rw [hvisible] at hwas
      cases hundone : (fragment.undo undo_map timestamp).visible with
      | false =>
        rw [hundone] at his
        rw [visibleBytes_of_deleted hwas, visibleBytes_of_deleted his]
        simpa [UndoWalk.undo, hvisible, hundone] using h.patch
      | true =>
        rw [hundone] at his
        rw [visibleBytes_of_deleted hwas, visibleBytes_of_visible his, hbytes, hlen] at hreplace
        rw [visibleBytes_of_deleted hwas, visibleBytes_of_visible his, hbytes]
        simpa [UndoWalk.undo, hvisible, hundone] using hreplace
    | true =>
      rw [hvisible] at hwas
      cases hundone : (fragment.undo undo_map timestamp).visible with
      | false =>
        rw [hundone] at his
        rw [visibleBytes_of_visible hwas, visibleBytes_of_deleted his, hlen] at hreplace
        rw [visibleBytes_of_visible hwas, visibleBytes_of_deleted his]
        simpa [UndoWalk.undo, hvisible, hundone] using hreplace
      | true =>
        rw [hundone] at his
        rw [visibleBytes_of_visible hwas, visibleBytes_of_visible his, hbytes]
        simpa [UndoWalk.undo, hvisible, hundone] using h.patch.keep (bytes content fragment.atoms)

theorem undo_fragment_eq {fragment : Fragment} {before rest : List Fragment}
    (hrest : w.old_fragments.rest = before ++ fragment :: rest)
    (hbefore : ∀ other ∈ before, other.id < fragment.id) :
    undo_fragment undo_map timestamp w fragment.id =
      (w.keep before (fragment :: rest)).undo undo_map timestamp fragment := by
  have htake : w.old_fragments.rest.takeWhile (fun other => decide (other.id < fragment.id)) = before := by
    rw [hrest, List.takeWhile_append_of_pos fun other hother => decide_eq_true (hbefore other hother)]
    simp
  have hdrop : w.old_fragments.rest.dropWhile (fun other => decide (other.id < fragment.id)) =
      fragment :: rest := by
    rw [hrest, List.dropWhile_append_of_pos fun other hother => decide_eq_true (hbefore other hother)]
    simp
  simp only [undo_fragment, sum_tree.Cursor.slice_while, htake, hdrop, sum_tree.Cursor.item, List.head?_cons]
  rfl

theorem foldl_undo_fragment (undo_map : UndoMap) (timestamp : Lamport) {ids : List Locator} (hids : ids.Pairwise (· < ·))
    (hmem : ∀ id ∈ ids, id ∈ w.old_fragments.rest.map Fragment.id)
    (hordered : (w.old_fragments.rest.map Fragment.id).Pairwise (· < ·)) (h : w.Texts content old) :
    let last := ids.foldl (undo_fragment undo_map timestamp) w
    last.Texts content old ∧ last.new_fragments ++ last.old_fragments.rest =
      w.new_fragments ++ w.old_fragments.rest.map (Fragment.undoWithin undo_map timestamp ids) := by
  induction ids generalizing w with
  | nil =>
    refine ⟨h, ?_⟩
    have hsame : Fragment.undoWithin undo_map timestamp [] = id := by
      funext fragment
      simp [Fragment.undoWithin]
    rw [hsame, List.map_id]
    rfl
  | cons id ids ih =>
    obtain ⟨hfirst, hrestIds⟩ := List.pairwise_cons.mp hids
    obtain ⟨fragment, hfragment, rfl⟩ := List.mem_map.mp (hmem id List.mem_cons_self)
    obtain ⟨before, rest, hrest⟩ := List.append_of_mem hfragment
    rw [hrest, List.map_append, List.map_cons] at hordered
    obtain ⟨-, hright, hcross⟩ := List.pairwise_append.mp hordered
    have hbefore : ∀ other ∈ before, other.id < fragment.id := fun other hother =>
      hcross _ (List.mem_map_of_mem hother) _ List.mem_cons_self
    obtain ⟨hafter, hrestOrdered⟩ := List.pairwise_cons.mp hright
    have hnext : ((w.keep before (fragment :: rest)).undo undo_map timestamp fragment).old_fragments.rest =
        rest := rfl
    have hmemRest : ∀ other ∈ ids, other ∈ rest.map Fragment.id := by
      intro other hother
      have hin := hmem other (List.mem_cons_of_mem _ hother)
      rw [hrest, List.map_append, List.map_cons] at hin
      rcases List.mem_append.mp hin with hin | hin
      · exact absurd (hcross _ hin _ List.mem_cons_self) (hfirst other hother).not_gt
      · exact (List.mem_cons.mp hin).resolve_left (hfirst other hother).ne'
    have hkeepRest : (w.keep before (fragment :: rest)).old_fragments.rest = fragment :: rest := rfl
    have htexts : ((w.keep before (fragment :: rest)).undo undo_map timestamp fragment).Texts content old :=
      (h.keep hrest).undo hkeepRest
    rw [List.foldl_cons, undo_fragment_eq hrest hbefore]
    obtain ⟨hlast, hfragments⟩ := ih hrestIds (by rwa [hnext]) (by rwa [hnext]) htexts
    refine ⟨hlast, hfragments.trans ?_⟩
    have hkept : before.map (Fragment.undoWithin undo_map timestamp (fragment.id :: ids)) = before := by
      refine (List.map_congr_left fun other hother => ?_).trans (List.map_id _)
      have hlt := hbefore other hother
      have hnot : other.id ∉ fragment.id :: ids := by
        rintro hin
        rcases List.mem_cons.mp hin with heq | hin
        · exact hlt.ne heq
        · exact (hlt.trans (hfirst _ hin)).false
      rw [Fragment.undoWithin, if_neg hnot]
      rfl
    have hundone : fragment.undoWithin undo_map timestamp (fragment.id :: ids) =
        fragment.undo undo_map timestamp := if_pos List.mem_cons_self
    have hothers : rest.map (Fragment.undoWithin undo_map timestamp (fragment.id :: ids)) =
        rest.map (Fragment.undoWithin undo_map timestamp ids) := by
      refine List.map_congr_left fun other hother => ?_
      have hne : other.id ≠ fragment.id := (hafter _ (List.mem_map_of_mem hother)).ne'
      simp [Fragment.undoWithin, hne]
    rw [hrest, List.map_append, List.map_cons, hkept, hundone, hothers, hnext]
    simp [UndoWalk.undo, UndoWalk.keep]

end BufferSnapshot

end zed.text
