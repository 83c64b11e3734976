import Zed.Transition

namespace zed.dbt_ui.xdi

abbrev Path := List String

namespace Path

def file_name (path : Path) : Option String :=
  path.getLast?

/-- What follows the last dot of the file's name, unless that dot begins it. -/
def extension (path : Path) : Option String :=
  path.file_name.bind fun name =>
    match name.toList.reverse.span (· != '.') with
    | (_, []) | (_, [_]) => none
    | (after, _) => some (String.ofList after.reverse)

def starts_with (path base : Path) : Bool :=
  base.isPrefixOf path

/-- Where `project` migrates to unless another folder is chosen: a folder beside it. -/
def ellode_folder (project : Path) : Path :=
  project.dropLast ++ [(project.file_name.getD "xdi") ++ "_ellode"]

end Path

def STATE_FILE : String := "xdi-migration.yml"

/-- A project as last read. Its `id` tells apart two that were read alike, as the
    pointers to them do. -/
structure Snapshot where
  id : Nat
  project : Path
  roots : List Path
  deriving DecidableEq

def ptr_eq (a b : Snapshot) : Bool :=
  a.id == b.id

/-- The state file of a migration: the options it keeps to, and the metadata folders. -/
structure MigrationState (Options : Type) where
  options : Options
  metadata : List Path

structure Migration (Options Plan : Type) where
  snapshot : Snapshot
  folder : Path
  asked : Options
  plan : Plan
  state : Option (MigrationState Options)
  error : Option String
  metadata_differs : Option (List Path)

inductive MigrationOp where
  | migrate (fluxes : List String) (rewrite : Bool)
  | tick (key : String) (done : Bool)

/-- A look for the workspace's projects is under way, or a read of a project. -/
structure Load where
  project : Path
  picked : Option (List Path)

/-- A look at where a migration is, and the plan and options it may use again. -/
structure Look (Options Plan : Type) where
  project : Path
  snapshot : Snapshot
  folder : Path
  defaults : Options
  planned : Option (Plan × Options)

/-- A write into a migration's folder. -/
structure Write (Options Plan : Type) where
  op : MigrationOp
  migration : Migration Options Plan
  defaults : Options

/-- The fields from `detecting` on are the store's tasks, and `next_id` and `settings`
    what it reads from outside. -/
structure XdiStore (Options Plan : Type) where
  projects : List Path
  active : Option Path
  picked : Path → Option (List Path)
  pinned : Path → Option (List Path)
  folders : Path → Option Path
  snapshot : Option Snapshot
  loading : Bool
  detected : Bool
  reader : Option Path
  reload_pending : Bool
  migration : Option (Migration Options Plan)
  queue : List MigrationOp
  migrating : Bool
  last_result : Option (Except String String)
  importing : Option Path
  detecting : Bool
  load : Option Load
  debounce : Bool
  look : Option (Look Options Plan)
  write : Option (Write Options Plan)
  next_id : Nat
  settings : Options

namespace XdiStore

variable {Options Plan : Type}

/-- A store that began to look for projects. -/
def new (settings : Options) : XdiStore Options Plan :=
  { projects := []
    active := none
    picked := fun _ => none
    pinned := fun _ => none
    folders := fun _ => none
    snapshot := none
    loading := false
    detected := false
    reader := none
    reload_pending := false
    migration := none
    queue := []
    migrating := false
    last_result := none
    importing := none
    detecting := true
    load := none
    debounce := false
    look := none
    write := none
    next_id := 0
    settings := settings }

/-- The folder the project shown migrates into. -/
def migration_folder (s : XdiStore Options Plan) : Option Path :=
  s.active.map fun project => (s.folders project).getD project.ellode_folder

/-- Whether `path` is a file of the project shown or of its metadata. -/
def reads (s : XdiStore Options Plan) (path : Path) : Bool :=
  match s.active with
  | none => false
  | some project =>
    path.starts_with project || s.snapshot.any fun snapshot => snapshot.roots.any (path.starts_with ·)

def detect (s : XdiStore Options Plan) : XdiStore Options Plan :=
  { s with detecting := true }

/-- Reads the project shown again; asked during a read, it reads once more after. -/
def reload (s : XdiStore Options Plan) : XdiStore Options Plan :=
  match s.active with
  | none => s
  | some project =>
    if s.loading then { s with reload_pending := true }
    else
      { s with
        reader := none
        loading := true
        load := some { project := project, picked := (s.pinned project).or (s.picked project) } }

/-- Shows a project: what was kept of the one shown before goes. -/
def show_project (s : XdiStore Options Plan) (project : Option Path) : XdiStore Options Plan :=
  { s with active := project, snapshot := none, reader := none, migration := none }

def set_active (s : XdiStore Options Plan) (project : Path) : XdiStore Options Plan :=
  if s.active = some project then s
  else { s.show_project (some project) with last_result := none }.reload

def schedule_reload (s : XdiStore Options Plan) : XdiStore Options Plan :=
  { s with debounce := true }

def set_metadata_folders (s : XdiStore Options Plan) (project : Path) (folders : Option (List Path)) :
    XdiStore Options Plan :=
  let s := { s with picked := Function.update s.picked project folders }
  if s.active = some project then s.reload else s

/-- Works out again where the migration of the project shown is. -/
def refresh_migration (s : XdiStore Options Plan) : XdiStore Options Plan :=
  -- a write under way works it out again when done
  if s.migrating then s
  else
    match s.active, s.snapshot, s.migration_folder with
    | some project, some snapshot, some folder =>
      let planned := (s.migration.filter fun migration =>
        ptr_eq migration.snapshot snapshot && migration.folder == folder).map fun migration =>
          (migration.plan, migration.asked)
      { s with
        look := some
          { project := project, snapshot := snapshot, folder := folder
            defaults := s.settings, planned := planned } }
    | _, _, _ => { s with migration := none }

def queue_clear (s : XdiStore Options Plan) : XdiStore Options Plan :=
  { s with queue := [] }

def write_next (s : XdiStore Options Plan) : XdiStore Options Plan :=
  if s.migrating then s
  else
    match s.queue with
    | [] => s
    | op :: queue =>
      match s.migration with
      | none => s.queue_clear
      | some migration =>
        -- what a look begun before would say is stale once written
        { s with
          queue := queue
          migrating := true
          look := none
          write := some { op := op, migration := migration, defaults := s.settings } }

/-- Writes `op` into the migration's folder once those asked before are. -/
def queue_migration (s : XdiStore Options Plan) (op : MigrationOp) : XdiStore Options Plan :=
  { s with queue := s.queue ++ [op] }.write_next

/-- Shows `project`, migrating into `folder`. -/
def import_project (s : XdiStore Options Plan) (project folder : Path) : XdiStore Options Plan :=
  let moved := s.folders project != some folder
  let s := { s with folders := Function.update s.folders project (some folder) }
  let s := if moved then { s with pinned := Function.update s.pinned project none } else s
  if project ∈ s.projects then
    if s.active = some project then
      if moved then { s with last_result := none }.reload else s
    else s.set_active project
  else { s with importing := some project }.detect

/-- Some of the files below `base` changed. -/
def updated_entries (s : XdiStore Options Plan) (base : Path) (entries : List Path) : XdiStore Options Plan :=
  let xdi := entries.any fun path =>
    (path.extension == some "map" || path.extension == some "proc" || path.extension == some "md") &&
      s.reads (base ++ path)
  let state := entries.any fun path =>
    path.file_name == some STATE_FILE && s.migration_folder.any ((base ++ path).starts_with ·)
  if xdi && s.active.isSome then s.schedule_reload
  else if state && !s.migrating then s.refresh_migration
  else s

/-- The workspace's folders were looked at. -/
def detected_projects (s : XdiStore Options Plan) (projects : List Path) (picked : Path → Option (List Path))
    (folders : Path → Option Path) : XdiStore Options Plan :=
  let importing := s.importing.filter (· ∈ projects)
  let s :=
    { s with
      detecting := false
      detected := true
      picked := picked
      -- a folder chosen while they were looked at, not stored yet
      folders := fun project => (folders project).or (s.folders project)
      importing := if importing.isSome then none else s.importing
      projects := projects }
  let keep := importing.isNone && s.active.any (· ∈ projects)
  match importing with
  | some project => { s.show_project (some project) with last_result := none }.reload
  | none => if keep then s else (s.show_project projects.head?).reload

/-- A project was read from the metadata folders asked for, or those found. -/
def loaded (s : XdiStore Options Plan) (load : Load) (default_metadata_roots : List Path) :
    XdiStore Options Plan :=
  let s := { s with loading := false, load := none }
  let s :=
    -- read for a project no longer shown: dropped
    if s.active = some load.project then
      { s with
        reader := some load.project
        snapshot := some
          { id := s.next_id, project := load.project, roots := load.picked.getD default_metadata_roots }
        next_id := s.next_id + 1 }.refresh_migration
    else s
  if s.reload_pending then { s with reload_pending := false }.reload else s

/-- What a write leaves, with the migration as it then is. -/
def written (s : XdiStore Options Plan) (op : MigrationOp) (result : Except String String)
    (next : Migration Options Plan) : XdiStore Options Plan :=
  let current := s.migration.any fun now => ptr_eq now.snapshot next.snapshot && now.folder == next.folder
  let said := match op, result with
    | .migrate _ _, _ | _, .error _ => true
    | _, _ => false
  { s with
    migrating := false
    write := none
    migration := if current then some next else s.migration
    last_result := if said then some result else s.last_result }

/-- What follows a write: the next of the queue, or a look at what was read meanwhile. -/
def write_done (s : XdiStore Options Plan) : XdiStore Options Plan :=
  if !s.queue.isEmpty then s.write_next
  else
    -- the project was read again while writing: worked out again for what was read
    let stale := s.snapshot.any fun now => s.migration.all fun migration => !ptr_eq now migration.snapshot
    if stale then s.refresh_migration else s

section

-- the file system's links, and the importer's planning and reading of a state file
variable (normalized : Path → Path) (plan : Snapshot → Options → Plan) (plan_options : Plan → Options)
  [DecidableEq Options]

def same_folders (a b : List Path) : Bool :=
  let a := a.map normalized
  let b := b.map normalized
  a.all (· ∈ b) && b.all (· ∈ a)

/-- Works out where the migration of `snapshot`'s project into `folder` is. -/
def read_migration (snapshot : Snapshot) (folder : Path) (defaults : Options) (planned : Option (Plan × Options))
    (loaded : Except String (Option (MigrationState Options))) : Migration Options Plan :=
  let state := loaded.toOption.join
  let error := match loaded with
    | .ok _ => none
    | .error message => some message
  let asked := (state.map (·.options)).getD defaults
  let again := planned.filter fun made => made.2 = asked ∨ plan_options made.1 = asked
  { snapshot := snapshot
    folder := folder
    asked := asked
    plan := (again.map Prod.fst).getD (plan snapshot asked)
    state := state
    error := error
    metadata_differs :=
      ((state.map (·.metadata)).filter fun wanted => !wanted.isEmpty).filter fun wanted =>
        !same_folders normalized wanted snapshot.roots }

/-- A look at the migration is done. -/
def looked (s : XdiStore Options Plan) (look : Look Options Plan)
    (state : Except String (Option (MigrationState Options))) : XdiStore Options Plan :=
  let migration :=
    read_migration normalized plan plan_options look.snapshot look.folder look.defaults look.planned state
  let s := { s with look := none }
  let current := s.active = some look.project ∧ s.migration_folder = some look.folder ∧
    s.snapshot.any (ptr_eq · look.snapshot)
  if current then
    -- the migration keeps to other metadata folders: read again from them
    let s := match migration.metadata_differs with
      | some roots => { s with pinned := Function.update s.pinned look.project (some roots) }.reload
      | none => s
    { s with migration := some migration }
  else s

/-- Whether `folder` is one of the project shown or of its metadata. -/
def refuses (s : XdiStore Options Plan) (project folder : Path) : Bool :=
  let roots := (s.snapshot.map (·.roots)).getD []
  (project :: roots).any fun root => (normalized folder).starts_with (normalized root)

/-- Migrates into `folder` from now on, outside the xDI project and its metadata. -/
def set_migration_folder (s : XdiStore Options Plan) (folder : Path) : XdiStore Options Plan :=
  match s.active with
  | none => s
  | some project =>
    if s.refuses normalized project folder then
      { s with
        last_result := some (.error
          "A migration goes into a folder of its own, outside the xDI project and its metadata folders.") }
    else
      let pinned := s.pinned project
      let s :=
        { s with
          folders := Function.update s.folders project (some folder)
          last_result := none
          pinned := Function.update s.pinned project none }
      -- the folder's own metadata folders, if it has any, come with it
      if pinned.isSome then s.reload else s.refresh_migration

/-- A write is done: with what result, and what the state file then says. -/
def wrote (s : XdiStore Options Plan) (write : Write Options Plan) (result : Except String String)
    (state : Except String (Option (MigrationState Options))) : XdiStore Options Plan :=
  let next := read_migration normalized plan plan_options write.migration.snapshot write.migration.folder
    write.defaults (some (write.migration.plan, write.migration.asked)) state
  (s.written write.op result next).write_done

/-- A call of the store, an event it is told of, or the end of one of its tasks with
    what that read. -/
inductive Action (Options : Type) where
  | set_active (project : Path)
  | reload
  | set_metadata_folders (project : Path) (folders : Option (List Path))
  | refresh_migration
  | set_migration_folder (folder : Path)
  | import_project (project folder : Path)
  | queue_migration (op : MigrationOp)
  | clear_last_result
  | worktrees_changed
  | updated_entries (base : Path) (entries : List Path)
  | settings_changed (settings : Options)
  | detected (projects : List Path) (picked : Path → Option (List Path)) (folders : Path → Option Path)
  | debounced
  | loaded (default_metadata_roots : List Path)
  | looked (state : Except String (Option (MigrationState Options)))
  | wrote (result : Except String String) (state : Except String (Option (MigrationState Options)))

def step (s : XdiStore Options Plan) : Action Options → Option (XdiStore Options Plan)
  | .set_active project => some (s.set_active project)
  | .reload => some s.reload
  | .set_metadata_folders project folders => some (s.set_metadata_folders project folders)
  | .refresh_migration => some s.refresh_migration
  | .set_migration_folder folder => some (s.set_migration_folder normalized folder)
  | .import_project project folder => some (s.import_project project folder)
  | .queue_migration op => some (s.queue_migration op)
  | .clear_last_result => some { s with last_result := none }
  | .worktrees_changed => some s.detect
  | .updated_entries base entries => some (s.updated_entries base entries)
  | .settings_changed settings => some { s with settings := settings }
  | .detected projects picked folders =>
    if s.detecting then some (s.detected_projects projects picked folders) else none
  | .debounced => if s.debounce then some { s with debounce := false }.reload else none
  | .loaded default_metadata_roots => s.load.map (s.loaded · default_metadata_roots)
  | .looked state => s.look.map (s.looked normalized plan plan_options · state)
  | .wrote result state => s.write.map (s.wrote normalized plan plan_options · result state)

end

end XdiStore

end zed.dbt_ui.xdi
