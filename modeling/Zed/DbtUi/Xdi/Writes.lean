import Zed.DbtUi.Xdi

namespace zed.dbt_ui.xdi

open transition

/-- An operation that was queued, with the folder it was asked for and whether a migration was
    shown then. -/
structure Asked where
  op : MigrationOp
  folder : Option Path
  shown : Bool

/-- A store with what was asked of it: what still waits, what was begun and what was dropped, and
    whether an error was left then. -/
structure Session (Options Plan : Type) where
  store : XdiStore Options Plan
  asked : List Asked
  waiting : List Asked
  begun : List (Asked × Write Options Plan)
  dropped : List (Asked × Bool)
  running : Nat

namespace Session

variable {Options Plan : Type}

def new (settings : Options) : Session Options Plan where
  store := .new settings
  asked := []
  waiting := []
  begun := []
  dropped := []
  running := 0

def arrived (s : XdiStore Options Plan) : XdiStore.Action Options → List Asked
  | .queue_migration op => [⟨op, s.migration_folder, s.migration.isSome⟩]
  | _ => []

def began (s t : XdiStore Options Plan) : XdiStore.Action Options → List (Write Options Plan)
  | .queue_migration _ => if s.migrating then [] else t.write.toList
  | .wrote _ _ => t.write.toList
  | _ => []

def complains (s : XdiStore Options Plan) : Bool :=
  match s.last_result with
  | some (.error _) => true
  | _ => false

/-- What an action that leads to `store` does to what waits: the first are no longer queued, and
    one of them may be begun. -/
def advance (s : Session Options Plan) (action : XdiStore.Action Options) (store : XdiStore Options Plan) :
    Session Options Plan :=
  let waiting := s.waiting ++ arrived s.store action
  let left := waiting.take (waiting.length - store.queue.length)
  let writes := began s.store store action
  { store
    asked := s.asked ++ arrived s.store action
    waiting := waiting.drop (waiting.length - store.queue.length)
    begun := s.begun ++ left.zip writes
    dropped := s.dropped ++ (left.drop writes.length).map fun asked => (asked, complains store)
    running := (match action with | .wrote _ _ => s.running - 1 | _ => s.running) + writes.length }

/-- Migration writes go where they were asked: one at a time, in order, each into the folder it was
    asked for, and none is dropped without a word that was asked of a migration shown. -/
structure WritesGoWhereAsked (s : Session Options Plan) : Prop where
  one_at_a_time : s.running ≤ 1
  in_order : (s.begun.map Prod.fst).Sublist s.asked
  same_op : ∀ begun ∈ s.begun, begun.2.op = begun.1.op
  folder : ∀ begun ∈ s.begun, begun.1.folder = some begun.2.migration.folder
  kept : ∀ dropped ∈ s.dropped, dropped.1.shown = true → dropped.2 = true

section

variable (normalized : Path → Path) (plan : Snapshot → Options → Plan) (plan_options : Plan → Options)
  [DecidableEq Options]

def step (s : Session Options Plan) (action : XdiStore.Action Options) : Option (Session Options Plan) :=
  (s.store.step normalized plan plan_options action).map (s.advance action)

end

/-- Whether an action shows another project than the one shown. -/
def Leaves (s : XdiStore Options Plan) : XdiStore.Action Options → Prop
  | .set_active project => s.active ≠ some project
  | .import_project project _ => project ∈ s.projects ∧ s.active ≠ some project
  | .detected projects _ _ =>
    (∃ importing ∈ s.importing, importing ∈ projects) ∨ ∀ active ∈ s.active, active ∉ projects
  | _ => False

/-- An operation is queued while the migration shown goes into the folder chosen, and while some
    wait for it no other project is shown. -/
def MayTake (s : Session Options Plan) (action : XdiStore.Action Options) : Prop :=
  match action with
  | .queue_migration _ => ∀ migration ∈ s.store.migration, s.store.migration_folder = some migration.folder
  | action => s.store.queue ≠ [] → s.store.migration.isSome = true → ¬ Leaves s.store action

/-- Between writes, a step leaves the queue and the write alone; and while a write is under way the
    migration shown changes only when another project is shown. -/
structure Quiet (s t : XdiStore Options Plan) (leaves : Prop) : Prop where
  queue : t.queue = s.queue
  migrating : t.migrating = s.migrating
  write : t.write = s.write
  during : s.migrating = true → s.look = none →
    t.look = none ∧ (t.migration = s.migration ∨ t.migration = none ∧ leaves)

section

variable {s t u : XdiStore Options Plan} {leaves : Prop}

theorem Quiet.refl (s : XdiStore Options Plan) (leaves : Prop) : Quiet s s leaves :=
  ⟨rfl, rfl, rfl, fun _ hlook => ⟨hlook, Or.inl rfl⟩⟩

theorem Quiet.trans (h : Quiet s t leaves) (h' : Quiet t u leaves) : Quiet s u leaves where
  queue := h'.queue.trans h.queue
  migrating := h'.migrating.trans h.migrating
  write := h'.write.trans h.write
  during hmigrating hlook := by
    obtain ⟨hlook, hmigration⟩ := h.during hmigrating hlook
    obtain ⟨hlook, hmigration'⟩ := h'.during (h.migrating.trans hmigrating) hlook
    refine ⟨hlook, ?_⟩
    obtain heq | hnone := hmigration'
    · rw [heq]
      exact hmigration
    · exact Or.inr hnone

theorem Quiet.reload (h : Quiet s t leaves) : Quiet s t.reload leaves := by
  refine h.trans ?_
  unfold XdiStore.reload
  split
  · exact .refl _ _
  · split <;> exact ⟨rfl, rfl, rfl, fun _ hlook => ⟨hlook, Or.inl rfl⟩⟩

theorem Quiet.refresh_migration (h : Quiet s t leaves) : Quiet s t.refresh_migration leaves := by
  refine h.trans ?_
  unfold XdiStore.refresh_migration
  split
  · exact .refl _ _
  · have hidle {look : Option (Look Options Plan)} {migration : Option (Migration Options Plan)}
        (hmigrating : ¬ t.migrating = true) : Quiet t { t with look := look, migration := migration } leaves :=
      ⟨rfl, rfl, rfl, fun hbusy => absurd hbusy hmigrating⟩
    split
    · exact hidle (by assumption)
    · exact hidle (by assumption)

theorem quiet_show_project (h : leaves) (project : Option Path) (result : Option (Except String String)) :
    Quiet s { s.show_project project with last_result := result } leaves :=
  ⟨rfl, rfl, rfl, fun _ hlook => ⟨hlook, Or.inr ⟨rfl, h⟩⟩⟩

theorem quiet_set_active {project : Path} (h : s.active ≠ some project → leaves) :
    Quiet s (s.set_active project) leaves := by
  unfold XdiStore.set_active
  split
  · exact .refl _ _
  · rename_i hother
    exact (quiet_show_project (h hother) _ _).reload

theorem quiet_import_project {project folder : Path}
    (h : project ∈ s.projects ∧ s.active ≠ some project → leaves) :
    Quiet s (s.import_project project folder) leaves := by
  have hset (pinned : Path → Option (List Path)) : Quiet s
      { s with folders := Function.update s.folders project (some folder), pinned := pinned } leaves :=
    ⟨rfl, rfl, rfl, fun _ hlook => ⟨hlook, Or.inl rfl⟩⟩
  have hrest (pinned : Path → Option (List Path)) (moved : Bool) :
      let t : XdiStore Options Plan :=
        { s with folders := Function.update s.folders project (some folder), pinned := pinned }
      Quiet s
        (if project ∈ t.projects then
          if t.active = some project then if moved then { t with last_result := none }.reload else t
          else t.set_active project
        else { t with importing := some project }.detect) leaves := by
    intro t
    split
    · rename_i hproject
      split
      · split
        · exact Quiet.reload ⟨rfl, rfl, rfl, fun _ hlook => ⟨hlook, Or.inl rfl⟩⟩
        · exact hset pinned
      · rename_i hother
        exact (hset pinned).trans (quiet_set_active fun _ => h ⟨hproject, hother⟩)
    · exact ⟨rfl, rfl, rfl, fun _ hlook => ⟨hlook, Or.inl rfl⟩⟩
  unfold XdiStore.import_project
  generalize (s.folders project != some folder) = moved
  cases moved with
  | false => exact hrest s.pinned false
  | true => exact hrest (Function.update s.pinned project none) true

theorem quiet_detected {projects : List Path} {picked : Path → Option (List Path)} {folders : Path → Option Path}
    (h : (∃ importing ∈ s.importing, importing ∈ projects) ∨ (∀ active ∈ s.active, active ∉ projects) → leaves) :
    Quiet s (s.detected_projects projects picked folders) leaves := by
  unfold XdiStore.detected_projects
  dsimp only
  split
  · rename_i importing himporting
    obtain ⟨hmem, hin⟩ := Option.filter_eq_some_iff.mp himporting
    have hleaves : leaves := h (Or.inl ⟨importing, hmem, by simpa using hin⟩)
    exact Quiet.reload ⟨rfl, rfl, rfl, fun _ hlook => ⟨hlook, Or.inr ⟨rfl, hleaves⟩⟩⟩
  · split
    · exact ⟨rfl, rfl, rfl, fun _ hlook => ⟨hlook, Or.inl rfl⟩⟩
    · rename_i himporting hkeep
      have hleaves : leaves := by
        refine h (Or.inr fun active hactive hin => hkeep ?_)
        rw [himporting]
        simp [Option.mem_def.mp hactive, hin]
      exact Quiet.reload ⟨rfl, rfl, rfl, fun _ hlook => ⟨hlook, Or.inr ⟨rfl, hleaves⟩⟩⟩

theorem quiet_set_migration_folder (normalized : Path → Path) (folder : Path) :
    Quiet s (s.set_migration_folder normalized folder) leaves := by
  unfold XdiStore.set_migration_folder
  split
  · exact .refl _ _
  · split
    · exact ⟨rfl, rfl, rfl, fun _ hlook => ⟨hlook, Or.inl rfl⟩⟩
    · dsimp only
      split
      · exact Quiet.reload ⟨rfl, rfl, rfl, fun _ hlook => ⟨hlook, Or.inl rfl⟩⟩
      · exact Quiet.refresh_migration ⟨rfl, rfl, rfl, fun _ hlook => ⟨hlook, Or.inl rfl⟩⟩

theorem quiet_loaded (load : Load) (roots : List Path) : Quiet s (s.loaded load roots) leaves := by
  have hpending {t : XdiStore Options Plan} (h : Quiet s t leaves) :
      Quiet s (if t.reload_pending then { t with reload_pending := false }.reload else t) leaves := by
    split
    · exact Quiet.reload ⟨h.queue, h.migrating, h.write, h.during⟩
    · exact h
  unfold XdiStore.loaded
  apply hpending
  split
  · exact Quiet.refresh_migration ⟨rfl, rfl, rfl, fun _ hlook => ⟨hlook, Or.inl rfl⟩⟩
  · exact ⟨rfl, rfl, rfl, fun _ hlook => ⟨hlook, Or.inl rfl⟩⟩

theorem quiet_looked [DecidableEq Options] (normalized : Path → Path) (plan : Snapshot → Options → Plan)
    (plan_options : Plan → Options) {look : Look Options Plan} (hlook : s.look = some look)
    (state : Except String (Option (MigrationState Options))) :
    Quiet s (s.looked normalized plan plan_options look state) leaves := by
  have hnever : s.look ≠ none := by simp [hlook]
  unfold XdiStore.looked
  dsimp only
  split
  · split
    · rename_i roots _
      obtain ⟨hqueue, hmigrating, hwrite, -⟩ : Quiet s
          { s with look := none, pinned := Function.update s.pinned look.project (some roots) }.reload leaves := by
        refine Quiet.reload ?_
        exact ⟨rfl, rfl, rfl, fun _ h => absurd h hnever⟩
      exact ⟨hqueue, hmigrating, hwrite, fun _ h => absurd h hnever⟩
    · exact ⟨rfl, rfl, rfl, fun _ h => absurd h hnever⟩
  · exact ⟨rfl, rfl, rfl, fun _ h => absurd h hnever⟩

theorem quiet_step [DecidableEq Options] {normalized : Path → Path} {plan : Snapshot → Options → Plan}
    {plan_options : Plan → Options} {action : XdiStore.Action Options}
    (hqueue : ∀ op, action ≠ .queue_migration op) (hwrote : ∀ result state, action ≠ .wrote result state)
    (hstep : s.step normalized plan plan_options action = some t) : Quiet s t (Leaves s action) := by
  have hsame {u : XdiStore Options Plan} (hu : u.queue = s.queue ∧ u.migrating = s.migrating ∧
      u.write = s.write ∧ u.look = s.look ∧ u.migration = s.migration) : Quiet s u (Leaves s action) :=
    ⟨hu.1, hu.2.1, hu.2.2.1, fun _ hlook => ⟨hu.2.2.2.1.trans hlook, Or.inl hu.2.2.2.2⟩⟩
  cases action with
  | queue_migration op => exact absurd rfl (hqueue op)
  | wrote result state => exact absurd rfl (hwrote result state)
  | set_active project =>
    obtain rfl := Option.some.inj hstep
    exact quiet_set_active id
  | reload =>
    obtain rfl := Option.some.inj hstep
    exact (Quiet.refl _ _).reload
  | set_metadata_folders project folders =>
    obtain rfl := Option.some.inj hstep
    unfold XdiStore.set_metadata_folders
    dsimp only
    split
    · refine Quiet.reload ?_
      exact hsame ⟨rfl, rfl, rfl, rfl, rfl⟩
    · exact hsame ⟨rfl, rfl, rfl, rfl, rfl⟩
  | refresh_migration =>
    obtain rfl := Option.some.inj hstep
    exact (Quiet.refl _ _).refresh_migration
  | set_migration_folder folder =>
    obtain rfl := Option.some.inj hstep
    exact quiet_set_migration_folder normalized folder
  | import_project project folder =>
    obtain rfl := Option.some.inj hstep
    exact quiet_import_project id
  | clear_last_result =>
    obtain rfl := Option.some.inj hstep
    exact hsame ⟨rfl, rfl, rfl, rfl, rfl⟩
  | worktrees_changed =>
    obtain rfl := Option.some.inj hstep
    exact hsame ⟨rfl, rfl, rfl, rfl, rfl⟩
  | updated_entries base entries =>
    obtain rfl := Option.some.inj hstep
    unfold XdiStore.updated_entries
    dsimp only
    split
    · exact hsame ⟨rfl, rfl, rfl, rfl, rfl⟩
    · split
      · exact (Quiet.refl _ _).refresh_migration
      · exact .refl _ _
  | settings_changed settings =>
    obtain rfl := Option.some.inj hstep
    exact hsame ⟨rfl, rfl, rfl, rfl, rfl⟩
  | detected projects picked folders =>
    unfold XdiStore.step at hstep
    dsimp only at hstep
    split at hstep
    · obtain rfl := Option.some.inj hstep
      exact quiet_detected id
    · cases hstep
  | debounced =>
    unfold XdiStore.step at hstep
    dsimp only at hstep
    split at hstep
    · obtain rfl := Option.some.inj hstep
      refine Quiet.reload ?_
      exact hsame ⟨rfl, rfl, rfl, rfl, rfl⟩
    · cases hstep
  | loaded roots =>
    obtain ⟨load, -, rfl⟩ := Option.map_eq_some_iff.mp hstep
    exact quiet_loaded load roots
  | looked state =>
    obtain ⟨look, hlook, rfl⟩ := Option.map_eq_some_iff.mp hstep
    exact quiet_looked normalized plan plan_options hlook state

end

/-- What is known of a session whose operations were queued and waited as they may. -/
structure Inv (s : Session Options Plan) : Prop where
  write : s.store.migrating = s.store.write.isSome
  look : s.store.migrating = true → s.store.look = none
  queue : s.store.queue ≠ [] → s.store.migrating = true
  waiting : s.waiting.map Asked.op = s.store.queue
  running : s.running = s.store.write.toList.length
  in_order : (s.begun.map Prod.fst ++ s.waiting).Sublist s.asked
  same_op : ∀ begun ∈ s.begun, begun.2.op = begun.1.op
  folder : ∀ begun ∈ s.begun, begun.1.folder = some begun.2.migration.folder
  kept : ∀ dropped ∈ s.dropped, dropped.1.shown = true → dropped.2 = true
  /-- What waits was asked for the folder of the migration shown; or none was shown. -/
  placed : ∀ asked ∈ s.waiting, (∀ migration ∈ s.store.migration, asked.folder = some migration.folder) ∧
    (asked.shown = true → s.store.migration.isSome = true)

theorem Inv.goes_where_asked {s : Session Options Plan} (h : s.Inv) : s.WritesGoWhereAsked where
  one_at_a_time := by
    rw [h.running]
    cases s.store.write <;> simp
  in_order := (List.sublist_append_left _ _).trans h.in_order
  same_op := h.same_op
  folder := h.folder
  kept := h.kept

theorem new_inv (settings : Options) : (new settings : Session Options Plan).Inv where
  write := rfl
  look _ := rfl
  queue h := absurd rfl h
  waiting := rfl
  running := rfl
  in_order := List.Sublist.refl _
  same_op _ h := absurd h List.not_mem_nil
  folder _ h := absurd h List.not_mem_nil
  kept _ h := absurd h List.not_mem_nil
  placed _ h := absurd h List.not_mem_nil

theorem Inv.quiet {s : Session Options Plan} (h : s.Inv) {action : XdiStore.Action Options}
    (hqueue : ∀ op, action ≠ .queue_migration op) (hwrote : ∀ result state, action ≠ .wrote result state)
    {t : XdiStore Options Plan} (hquiet : Quiet s.store t (Leaves s.store action))
    (hmay : s.store.queue ≠ [] → s.store.migration.isSome = true → ¬ Leaves s.store action) :
    (s.advance action t).Inv := by
  have harrived : arrived s.store action = [] := by
    cases action <;> first | rfl | exact absurd rfl (hqueue _)
  have hbegan : began s.store t action = [] := by
    cases action <;> first | rfl | exact absurd rfl (hqueue _) | exact absurd rfl (hwrote _ _)
  have hlength : (s.waiting ++ []).length - t.queue.length = 0 := by
    rw [List.append_nil, hquiet.queue, ← h.waiting, List.length_map, Nat.sub_self]
  have hadvance : s.advance action t = { s with store := t } := by
    unfold advance
    dsimp only
    rw [harrived, hbegan, hlength]
    cases action <;> first | exact absurd rfl (hwrote _ _) | simp
  rw [hadvance]
  have hplaced : ∀ asked ∈ s.waiting, (∀ migration ∈ t.migration, asked.folder = some migration.folder) ∧
      (asked.shown = true → t.migration.isSome = true) := by
    intro asked hasked
    have hne : s.store.queue ≠ [] := by
      rw [← h.waiting]
      exact List.ne_nil_of_mem (List.mem_map_of_mem hasked)
    have hmigrating := h.queue hne
    obtain ⟨hfolder, hshown⟩ := h.placed asked hasked
    obtain ⟨-, hmigration | ⟨hnone, hleaves⟩⟩ := hquiet.during hmigrating (h.look hmigrating)
    · rw [hmigration]
      exact ⟨hfolder, hshown⟩
    · rw [hnone]
      refine ⟨fun _ hmem => (by cases hmem), fun hasked => ?_⟩
      exact absurd hleaves (hmay hne (hshown hasked))
  exact
    { write := by
        have hwrite := h.write
        rw [← hquiet.migrating, ← hquiet.write] at hwrite
        exact hwrite
      look := fun hmigrating => by
        have hmigrating := hquiet.migrating ▸ hmigrating
        exact (hquiet.during hmigrating (h.look hmigrating)).1
      queue := fun hne => hquiet.migrating ▸ h.queue (hquiet.queue ▸ hne)
      waiting := h.waiting.trans hquiet.queue.symm
      running := by
        have hrunning := h.running
        rw [← hquiet.write] at hrunning
        exact hrunning
      in_order := h.in_order
      same_op := h.same_op
      folder := h.folder
      kept := h.kept
      placed := hplaced }

theorem Inv.queue_behind {s : Session Options Plan} (h : s.Inv) {op : MigrationOp}
    (hmigrating : s.store.migrating = true)
    (hmay : ∀ migration ∈ s.store.migration, s.store.migration_folder = some migration.folder) :
    (s.advance (.queue_migration op) (s.store.queue_migration op)).Inv := by
  have hstore : s.store.queue_migration op = { s.store with queue := s.store.queue ++ [op] } := by
    unfold XdiStore.queue_migration XdiStore.write_next
    exact if_pos hmigrating
  have hlength : (s.waiting ++ arrived s.store (.queue_migration op)).length -
      (s.store.queue ++ [op]).length = 0 := by
    simp [arrived, ← h.waiting]
  have hadvance : s.advance (.queue_migration op) (s.store.queue_migration op) =
      { s with
        store := { s.store with queue := s.store.queue ++ [op] }
        asked := s.asked ++ arrived s.store (.queue_migration op)
        waiting := s.waiting ++ arrived s.store (.queue_migration op) } := by
    rw [hstore]
    unfold advance
    dsimp only
    rw [hlength]
    simp [began, hmigrating]
  rw [hadvance]
  exact
    { write := h.write
      look := h.look
      queue := fun _ => hmigrating
      waiting := by rw [List.map_append, h.waiting]; rfl
      running := h.running
      in_order := by
        rw [← List.append_assoc]
        exact h.in_order.append_right _
      same_op := h.same_op
      folder := h.folder
      kept := h.kept
      placed := fun asked hasked => by
        obtain hasked | hasked := List.mem_append.mp hasked
        · exact h.placed asked hasked
        · obtain rfl := List.mem_singleton.mp hasked
          exact ⟨hmay, id⟩ }

/-- What waits when no write is under way, the first of it next: it was asked for the folder of the
    migration shown. -/
structure Ready (waiting : List Asked) (store : XdiStore Options Plan) : Prop where
  migrating : store.migrating = false
  write : store.write = none
  queue : waiting.map Asked.op = store.queue
  placed : ∀ asked ∈ waiting, (∀ migration ∈ store.migration, asked.folder = some migration.folder) ∧
    (asked.shown = true → store.migration.isSome = true)

theorem Ready.write_next {s : Session Options Plan} (h : s.Inv) {action : XdiStore.Action Options}
    {store : XdiStore Options Plan} (hready : Ready (s.waiting ++ arrived s.store action) store)
    (hbegan : began s.store store.write_next action = store.write_next.write.toList)
    (hrunning : (match action with | .wrote _ _ => s.running - 1 | _ => s.running) = 0)
    (hne : store.queue ≠ []) : (s.advance action store.write_next).Inv := by
  obtain ⟨hmigrating, hwrite, hqueue, hplaced⟩ := hready
  have horder : (s.begun.map Prod.fst ++ (s.waiting ++ arrived s.store action)).Sublist
      (s.asked ++ arrived s.store action) := by
    rw [← List.append_assoc]
    exact h.in_order.append_right _
  cases hops : store.queue with
  | nil => exact absurd hops hne
  | cons op rest =>
    rw [hops] at hqueue
    generalize hwaiting : s.waiting ++ arrived s.store action = waiting at hqueue hplaced horder
    cases hmigration : store.migration with
    | none =>
      have hclear : store.write_next = store.queue_clear := by
        unfold XdiStore.write_next
        rw [hmigrating, hops, hmigration]
        rfl
      have hnext : store.write_next = { store with queue := [] } := hclear
      have hadvance : s.advance action store.write_next =
          { store := { store with queue := [] }
            asked := s.asked ++ arrived s.store action
            waiting := []
            begun := s.begun
            dropped := s.dropped ++ waiting.map fun asked => (asked, complains store)
            running := 0 } := by
        rw [hnext] at hbegan ⊢
        unfold advance
        dsimp only
        rw [hbegan, hrunning, hwaiting, hwrite]
        simp [complains]
      rw [hadvance]
      exact
        { write := by rw [hmigrating, hwrite]; rfl
          look := fun hbusy => by rw [hmigrating] at hbusy; cases hbusy
          queue := fun h => absurd rfl h
          waiting := rfl
          running := by rw [hwrite]; rfl
          in_order := by
            rw [List.append_nil]
            exact (List.sublist_append_left _ _).trans horder
          same_op := h.same_op
          folder := h.folder
          kept := fun dropped hdropped hshown => by
            obtain hdropped | hdropped := List.mem_append.mp hdropped
            · exact h.kept dropped hdropped hshown
            · obtain ⟨asked, hasked, rfl⟩ := List.mem_map.mp hdropped
              have hsome := (hplaced asked hasked).2 hshown
              rw [hmigration] at hsome
              cases hsome
          placed := fun _ hasked => absurd hasked List.not_mem_nil }
    | some migration =>
      cases waiting with
      | nil => cases hqueue
      | cons first waiting =>
        obtain ⟨hop, hrest⟩ := List.cons.inj hqueue
        let write : Write Options Plan := ⟨op, migration, store.settings⟩
        have hnext : store.write_next =
            { store with queue := rest, migrating := true, look := none, write := some write } := by
          unfold XdiStore.write_next
          rw [hmigrating, hops, hmigration]
          rfl
        have hleft : (first :: waiting).length - rest.length = 1 := by
          rw [List.length_cons, ← hrest, List.length_map, Nat.add_sub_cancel_left]
        have hadvance : s.advance action store.write_next =
            { store := { store with queue := rest, migrating := true, look := none, write := some write }
              asked := s.asked ++ arrived s.store action
              waiting := waiting
              begun := s.begun ++ [(first, write)]
              dropped := s.dropped
              running := 1 } := by
          rw [hnext] at hbegan ⊢
          unfold advance
          dsimp only
          rw [hbegan, hrunning, hwaiting, hleft]
          simp
        rw [hadvance]
        have hfirst := hplaced first List.mem_cons_self
        exact
          { write := rfl
            look := fun _ => rfl
            queue := fun _ => rfl
            waiting := hrest
            running := rfl
            in_order := by
              rw [List.map_append, List.append_assoc]
              exact horder
            same_op := fun begun hbegun => by
              obtain hbegun | hbegun := List.mem_append.mp hbegun
              · exact h.same_op begun hbegun
              · rw [List.mem_singleton.mp hbegun]
                exact hop.symm
            folder := fun begun hbegun => by
              obtain hbegun | hbegun := List.mem_append.mp hbegun
              · exact h.folder begun hbegun
              · rw [List.mem_singleton.mp hbegun]
                exact hfirst.1 migration hmigration
            kept := h.kept
            placed := fun asked hasked => by
              have hasked := hplaced asked (List.mem_cons_of_mem _ hasked)
              exact hasked }

theorem Inv.queue_first {s : Session Options Plan} (h : s.Inv) {op : MigrationOp}
    (hmigrating : s.store.migrating = false)
    (hmay : ∀ migration ∈ s.store.migration, s.store.migration_folder = some migration.folder) :
    (s.advance (.queue_migration op) (s.store.queue_migration op)).Inv := by
  have hqueue : s.store.queue = [] := by
    by_contra hne
    rw [h.queue hne] at hmigrating
    cases hmigrating
  have hwaiting : s.waiting = [] := by
    have hmap := h.waiting
    rw [hqueue, List.map_eq_nil_iff] at hmap
    exact hmap
  have hwrite : s.store.write = none := by
    have hwrite := h.write
    rw [hmigrating, eq_comm, Option.isSome_eq_false_iff, Option.isNone_iff_eq_none] at hwrite
    exact hwrite
  have hready : Ready (s.waiting ++ arrived s.store (.queue_migration op))
      { s.store with queue := s.store.queue ++ [op] } := by
    refine ⟨hmigrating, hwrite, ?_, fun asked hasked => ?_⟩
    · rw [hwaiting, hqueue]
      rfl
    · rw [hwaiting] at hasked
      obtain rfl := List.mem_singleton.mp hasked
      exact ⟨hmay, id⟩
  refine hready.write_next h ?_ ?_ (List.append_ne_nil_of_right_ne_nil _ (List.cons_ne_nil _ _))
  · simp [began, hmigrating]
  · rw [h.running, hwrite]
    rfl

section

variable [DecidableEq Options] {normalized : Path → Path} {plan : Snapshot → Options → Plan}
  {plan_options : Plan → Options}

theorem Inv.wrote {s : Session Options Plan} (h : s.Inv) {write : Write Options Plan}
    (hwrite : s.store.write = some write) (result : Except String String)
    (state : Except String (Option (MigrationState Options))) :
    (s.advance (.wrote result state) (s.store.wrote normalized plan plan_options write result state)).Inv := by
  have hmigrating : s.store.migrating = true := by rw [h.write, hwrite]; rfl
  unfold XdiStore.wrote
  dsimp only
  generalize XdiStore.read_migration normalized plan plan_options write.migration.snapshot write.migration.folder
    write.defaults (some (write.migration.plan, write.migration.asked)) state = next
  generalize hstore : s.store.written write.op result next = store
  have hqueue : store.queue = s.store.queue := by rw [← hstore]; rfl
  -- the migration shown stays in its folder
  have hmigration : (∀ now ∈ store.migration, ∃ before ∈ s.store.migration, before.folder = now.folder) ∧
      (s.store.migration.isSome = true → store.migration.isSome = true) := by
    rw [← hstore]
    unfold XdiStore.written
    dsimp only
    split
    · rename_i hcurrent
      refine ⟨fun now hnow => ?_, fun _ => rfl⟩
      obtain rfl := Option.some.inj hnow
      cases hbefore : s.store.migration with
      | none =>
        rw [hbefore] at hcurrent
        cases hcurrent
      | some before =>
        rw [hbefore] at hcurrent
        simp only [Option.any_some, Bool.and_eq_true, beq_iff_eq] at hcurrent
        exact ⟨before, rfl, hcurrent.2⟩
    · exact ⟨fun now hnow => ⟨now, hnow, rfl⟩, id⟩
  have hready : Ready (s.waiting ++ arrived s.store (.wrote result state)) store := by
    refine ⟨by rw [← hstore]; rfl, by rw [← hstore]; rfl, ?_, fun asked hasked => ?_⟩
    · rw [hqueue, ← h.waiting]
      simp [arrived]
    · have hasked : asked ∈ s.waiting := by simpa [arrived] using hasked
      obtain ⟨hfolder, hshown⟩ := h.placed asked hasked
      refine ⟨fun now hnow => ?_, fun hasked => hmigration.2 (hshown hasked)⟩
      obtain ⟨before, hbefore, hsame⟩ := hmigration.1 now hnow
      rw [hfolder before hbefore, hsame]
  have hrunning : s.running - 1 = 0 := by
    rw [h.running, hwrite]
    rfl
  by_cases hempty : store.queue = []
  · have hquiet : Quiet store store.write_done False := by
      unfold XdiStore.write_done
      rw [hempty]
      simp only [List.isEmpty_nil, Bool.not_true, Bool.false_eq_true, if_false]
      split
      · exact (Quiet.refl _ _).refresh_migration
      · exact .refl _ _
    have hwaiting : s.waiting = [] := by
      have hmap := h.waiting
      rw [← hqueue, hempty, List.map_eq_nil_iff] at hmap
      exact hmap
    have hdone : store.write_done.write = none := hquiet.write.trans hready.write
    have hadvance : s.advance (.wrote result state) store.write_done =
        { s with store := store.write_done, waiting := [], running := 0 } := by
      unfold advance
      simp only [arrived, began, hwaiting, hdone, hrunning]
      simp
    rw [hadvance]
    exact
      { write := by rw [hquiet.migrating, hready.migrating, hdone]; rfl
        look := fun hbusy => by rw [hquiet.migrating, hready.migrating] at hbusy; cases hbusy
        queue := fun hne => absurd (hquiet.queue.trans hempty) hne
        waiting := (hquiet.queue.trans hempty).symm
        running := by rw [hdone]; rfl
        in_order := hwaiting ▸ h.in_order
        same_op := h.same_op
        folder := h.folder
        kept := h.kept
        placed := fun _ hasked => absurd hasked List.not_mem_nil }
  · have hnext : store.write_done = store.write_next := by
      unfold XdiStore.write_done
      exact if_pos (by simpa [List.isEmpty_iff] using hempty)
    rw [hnext]
    exact hready.write_next h rfl hrunning hempty

theorem Inv.step {s t : Session Options Plan} {action : XdiStore.Action Options} (h : s.Inv)
    (hmay : s.MayTake action) (hstep : s.step normalized plan plan_options action = some t) : t.Inv := by
  obtain ⟨store, hstore, rfl⟩ := Option.map_eq_some_iff.mp hstep
  by_cases hqueue : ∃ op, action = .queue_migration op
  · obtain ⟨op, rfl⟩ := hqueue
    obtain rfl := Option.some.inj hstore
    by_cases hmigrating : s.store.migrating = true
    · exact h.queue_behind hmigrating hmay
    · exact h.queue_first (by simpa using hmigrating) hmay
  by_cases hwrote : ∃ result state, action = .wrote result state
  · obtain ⟨result, state, rfl⟩ := hwrote
    obtain ⟨write, hwrite, rfl⟩ := Option.map_eq_some_iff.mp hstore
    exact h.wrote hwrite result state
  · have hqueue (op : MigrationOp) : action ≠ .queue_migration op := fun heq => hqueue ⟨op, heq⟩
    have hwrote (result : Except String String) (state : Except String (Option (MigrationState Options))) :
        action ≠ .wrote result state := fun heq => hwrote ⟨result, state, heq⟩
    have hkeep : s.store.queue ≠ [] → s.store.migration.isSome = true → ¬ Leaves s.store action := by
      cases action <;> first | exact hmay | exact absurd rfl (hqueue _)
    exact h.quiet hqueue hwrote (quiet_step hqueue hwrote hstore) hkeep

/-- Writes go where they were asked as long as operations are queued only while the migration shown
    goes into the folder chosen, and no other project is shown while some wait. -/
theorem writes_go_where_asked (normalized : Path → Path) (plan : Snapshot → Options → Plan)
    (plan_options : Plan → Options) (settings : Options) {s : Session Options Plan}
    (hrun : Runs (step normalized plan plan_options) MayTake (new settings) s) : s.WritesGoWhereAsked :=
  (hrun.keeps (fun _ _ _ h hmay hstep => h.step hmay hstep) (new_inv settings)).goes_where_asked

end

/-- A project whose migration is shown, beside another, with an operation being written and another
    waiting. -/
def one_waits : List (XdiStore.Action Unit) :=
  [.detected [["work", "p"], ["work", "q"]] (fun _ => none) (fun _ => none), .loaded [], .looked (.ok none),
    .queue_migration (.migrate ["f"] false), .queue_migration (.tick "k" true)]

/-- Where some actions lead, with nothing to plan. -/
def after (actions : List (XdiStore.Action Unit)) : Session Unit Unit :=
  (take_all (step id (fun _ _ => ()) (fun _ => ())) (new ()) actions).getD (new ())

theorem runs_after_append (actions : List (XdiStore.Action Unit)) (action : XdiStore.Action Unit)
    (hrun : Runs (step id (fun _ _ => ()) (fun _ => ())) MayTake (new ()) (after actions))
    (hmay : (after actions).MayTake action)
    (htaken : (after actions).step id (fun _ _ => ()) (fun _ => ()) action = some (after (actions ++ [action]))) :
    Runs (step id (fun _ _ => ()) (fun _ => ())) MayTake (new ()) (after (actions ++ [action])) :=
  hrun.tail ⟨action, hmay, htaken⟩

theorem one_waits_lands : (after (one_waits ++ [.wrote (.ok "") (.ok none)])).WritesGoWhereAsked := by
  have hshown (actions : List (XdiStore.Action Unit)) (op : MigrationOp)
      (hfolder : (after actions).store.migration.map (·.folder) = (after actions).store.migration_folder) :
      (after actions).MayTake (.queue_migration op) := by
    intro migration hmigration
    rw [← hfolder, Option.mem_def.mp hmigration]
    rfl
  have hdetected := runs_after_append [] (.detected [["work", "p"], ["work", "q"]] (fun _ => none) fun _ => none)
    .refl (fun hne => absurd rfl hne) rfl
  have hloaded := runs_after_append _ (.loaded []) hdetected (fun hne => absurd rfl hne) rfl
  have hlooked := runs_after_append _ (.looked (.ok none)) hloaded (fun hne => absurd rfl hne) rfl
  have hbegun := runs_after_append _ _ hlooked (hshown _ (.migrate ["f"] false) rfl) rfl
  have hwaits := runs_after_append _ _ hbegun (hshown _ (.tick "k" true) rfl) rfl
  have hwrote := runs_after_append _ (.wrote (.ok "") (.ok none)) hwaits (fun _ _ => id) rfl
  exact writes_go_where_asked id (fun _ _ => ()) (fun _ => ()) () hwrote

/-- The one that waits is dropped when the other project is shown. -/
theorem switch_drops :
    ¬ ∀ s : Session Unit Unit,
      Runs (step id (fun _ _ => ()) (fun _ => ())) (fun _ _ => True) (new ()) s → s.WritesGoWhereAsked := by
  intro h
  have hrun : Runs (step id (fun _ _ => ()) (fun _ => ())) (fun _ _ => True) (new ())
      (after (one_waits ++ [.set_active ["work", "q"], .wrote (.ok "") (.ok none)])) :=
    runs_of_take_all (one_waits ++ [.set_active ["work", "q"], .wrote (.ok "") (.ok none)])
      (fun _ _ _ => trivial) rfl
  have hkept := (h _ hrun).kept (⟨.tick "k" true, some ["work", "p_ellode"], true⟩, false) List.mem_cons_self rfl
  cases hkept

end Session

end zed.dbt_ui.xdi
