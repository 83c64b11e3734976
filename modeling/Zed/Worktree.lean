import Zed.Path.RelPath
import Zed.SumTree.Keyed

namespace zed.std

/-- A character of an `OsString`, or a run of bytes that is no character. -/
inductive OsChar
  | unicode (c : Char)
  | invalid (bytes : List UInt8)
deriving DecidableEq

abbrev Path := List OsChar

def to_string_lossy (path : Path) : List Char :=
  path.map fun
    | .unicode c => c
    | .invalid _ => '\uFFFD'

/-- `Path::new` and `PathBuf::from` of a string. -/
def path_new (s : List Char) : Path := s.map .unicode

theorem to_string_lossy_path_new (s : List Char) : to_string_lossy (path_new s) = s := by
  unfold to_string_lossy path_new
  rw [List.map_map]
  exact List.map_id s

end zed.std

namespace zed.proto

structure Timestamp where
  seconds : Nat
  nanos : Nat
deriving DecidableEq

structure Entry where
  id : Nat
  is_dir : Bool
  path : List Char
  inode : Nat
  mtime : Option Timestamp
  is_ignored : Bool
  is_external : Bool
  is_hidden : Bool
  is_fifo : Bool
  size : Option Nat
  canonical_path : Option (List Char)
  is_unloaded : Bool
deriving DecidableEq

variable {Status Branch : Type}

structure RepositoryEntry (Status Branch : Type) where
  repository_id : Nat
  updated_statuses : List Status
  removed_statuses : List (List Char)
  current_merge_conflicts : List (List Char)
  branch_summary : Option Branch

structure UpdateWorktree (Status Branch : Type) where
  project_id : Nat
  worktree_id : Nat
  root_name : List Char
  updated_entries : List Entry
  removed_entries : List Nat
  updated_repositories : List (RepositoryEntry Status Branch)
  removed_repositories : List Nat
  scan_id : Nat
  is_last_update : Bool
  abs_path : List Char
  root_repo_common_dir : Option (List Char)
  root_repo_is_linked_worktree : Bool

def RepositoryEntry.statuses (repo : RepositoryEntry Status Branch) : Nat :=
  repo.updated_statuses.length + repo.removed_statuses.length

/-- The statuses of a repository that fit in the limit, and the others. -/
def RepositoryEntry.split (repo : RepositoryEntry Status Branch) (limit : Nat) :
    RepositoryEntry Status Branch × RepositoryEntry Status Branch :=
  let updated_statuses_limit := min repo.updated_statuses.length limit
  let removed_statuses_limit := min repo.removed_statuses.length limit
  ({ repo with
      updated_statuses := repo.updated_statuses.take updated_statuses_limit
      removed_statuses := repo.removed_statuses.take removed_statuses_limit },
   { repo with
      updated_statuses := repo.updated_statuses.drop updated_statuses_limit
      removed_statuses := repo.removed_statuses.drop removed_statuses_limit })

/-- `while let Some(repo) = message.updated_repositories.first_mut()`: the repositories
    of the chunk, and what the message still holds. -/
def split_repositories (limit : Nat) :
    List (RepositoryEntry Status Branch) →
      List (RepositoryEntry Status Branch) × List (RepositoryEntry Status Branch)
  | [] => ([], [])
  | repo :: rest =>
    let (chunk, left) := repo.split limit
    -- A repository with statuses left has used up the limit.
    if left.statuses ≠ 0 then ([chunk], left :: rest)
    else if limit - chunk.statuses = 0 then ([chunk], rest)
    else
      let (chunks, left) := split_repositories (limit - chunk.statuses) rest
      (chunk :: chunks, left)

/-- One call of the iterator's closure: a chunk, and the message without it. -/
def split_next (size : Nat) (message : UpdateWorktree Status Branch) :
    UpdateWorktree Status Branch × UpdateWorktree Status Branch × Bool :=
  let updated_entries_chunk_size := min message.updated_entries.length size
  let removed_entries_chunk_size := min message.removed_entries.length size
  let (updated_repositories, repositories_left) := split_repositories size message.updated_repositories
  let updated_left := message.updated_entries.drop updated_entries_chunk_size
  let removed_left := message.removed_entries.drop removed_entries_chunk_size
  let done := updated_left.isEmpty && removed_left.isEmpty && repositories_left.isEmpty
  ({ message with
      updated_entries := message.updated_entries.take updated_entries_chunk_size
      removed_entries := message.removed_entries.take removed_entries_chunk_size
      updated_repositories
      removed_repositories := if done then message.removed_repositories else []
      is_last_update := done && message.is_last_update },
   { message with
      updated_entries := updated_left
      removed_entries := removed_left
      updated_repositories := repositories_left
      removed_repositories := if done then [] else message.removed_repositories },
   done)

/-- What a message still has to send. -/
def UpdateWorktree.load (message : UpdateWorktree Status Branch) : Nat :=
  message.updated_entries.length + message.removed_entries.length +
    (message.updated_repositories.map fun repo => repo.statuses + 1).sum

end zed.proto

namespace zed.worktree

open path proto std sum_tree

/-- `MTime`: a `SystemTime`, in nanoseconds since `UNIX_EPOCH`. -/
structure MTime where
  nanos : Int
deriving DecidableEq

def NANOS_PER_SEC : Nat := 1000000000

/-- Times before `UNIX_EPOCH` are sent as `UNIX_EPOCH`. -/
def MTime.to_proto (mtime : MTime) : Timestamp :=
  let duration := mtime.nanos.toNat
  { seconds := duration / NANOS_PER_SEC
    nanos := duration % NANOS_PER_SEC }

def MTime.from_proto (timestamp : Timestamp) : MTime :=
  ⟨timestamp.seconds * NANOS_PER_SEC + timestamp.nanos⟩

inductive EntryKind
  | UnloadedDir
  | PendingDir
  | Dir
  | File
deriving DecidableEq

def EntryKind.is_dir : EntryKind → Bool
  | .Dir | .PendingDir | .UnloadedDir => true
  | .File => false

def EntryKind.is_unloaded (kind : EntryKind) : Bool := kind = .UnloadedDir

structure Entry where
  id : Nat
  kind : EntryKind
  path : RelPath
  inode : Nat
  mtime : Option MTime
  canonical_path : Option std.Path
  is_ignored : Bool
  is_hidden : Bool
  is_always_included : Bool
  is_external : Bool
  is_private : Bool
  size : Nat
  char_bag : UInt64
  is_fifo : Bool
deriving DecidableEq

structure PathEntry where
  id : Nat
  path : RelPath
  is_ignored : Bool
  scan_id : Nat
deriving DecidableEq

instance : KeyedItem Entry RelPath := ⟨Entry.path⟩

instance : KeyedItem PathEntry Nat := ⟨PathEntry.id⟩

structure Snapshot where
  abs_path : std.Path
  root_name : RelPath
  root_char_bag : UInt64
  entries_by_path : List Entry
  entries_by_id : List PathEntry
  root_repo_common_dir : Option std.Path
  root_repo_is_linked_worktree : Bool
  /-- The most recent scan that was started. -/
  scan_id : Nat
  /-- The most recent scan that was completed. -/
  completed_scan_id : Nat

/-- `proto::Entry::from` -/
def Entry.to_proto (entry : Entry) : proto.Entry where
  id := entry.id
  is_dir := entry.kind.is_dir
  path := entry.path.as_unix_str
  inode := entry.inode
  mtime := entry.mtime.map MTime.to_proto
  is_ignored := entry.is_ignored
  is_hidden := entry.is_hidden
  is_external := entry.is_external
  is_fifo := entry.is_fifo
  size := some entry.size
  canonical_path := entry.canonical_path.map to_string_lossy
  is_unloaded := entry.kind = .UnloadedDir

/-- What the guest's own environment adds to an update: `char::to_lowercase` and the
    `always_included_paths` of its settings. -/
structure Locale where
  simple_lowercase : Char → Char
  always_included : RelPath → Bool

/-- `CharBag::insert` -/
def Locale.insert (locale : Locale) (bag : UInt64) (c : Char) : UInt64 :=
  let c := locale.simple_lowercase c
  if 'a' ≤ c ∧ c ≤ 'z' then
    let idx := UInt64.ofNat (c.toNat - 'a'.toNat)
    bag ||| (((((bag >>> (idx * 2)) <<< 1) ||| 1) &&& 3) <<< (idx * 2))
  else if '0' ≤ c ∧ c ≤ '9' then
    bag ||| ((1 : UInt64) <<< UInt64.ofNat (c.toNat - '0'.toNat + 52))
  else if c = '-' then bag ||| ((1 : UInt64) <<< 62)
  else bag

def to_ascii_lowercase (c : Char) : Char :=
  if 'A' ≤ c ∧ c ≤ 'Z' then Char.ofNat (c.toNat + 32) else c

def Locale.char_bag_for_path (locale : Locale) (root_char_bag : UInt64) (p : RelPath) : UInt64 :=
  (p.as_unix_str.map to_ascii_lowercase).foldl locale.insert root_char_bag

/-- `Entry::try_from` -/
def Entry.try_from (locale : Locale) (root_char_bag : UInt64) (entry : proto.Entry) : Option Entry :=
  let kind :=
    if entry.is_dir then
      if entry.is_unloaded then .UnloadedDir else .Dir
    else EntryKind.File
  (RelPath.from_unix_str entry.path).map fun p =>
    { id := entry.id
      kind
      path := p
      inode := entry.inode
      mtime := entry.mtime.map MTime.from_proto
      size := entry.size.getD 0
      canonical_path := entry.canonical_path.map path_new
      is_ignored := entry.is_ignored
      is_hidden := entry.is_hidden
      is_always_included := locale.always_included p
      is_external := entry.is_external
      is_private := false
      char_bag := locale.char_bag_for_path root_char_bag p
      is_fifo := entry.is_fifo }

namespace Snapshot

def new (locale : Locale) (root_name : RelPath) (abs_path : std.Path) : Snapshot where
  abs_path
  root_name
  root_char_bag := locale.char_bag_for_path 0 root_name
  entries_by_path := []
  entries_by_id := []
  root_repo_common_dir := none
  root_repo_is_linked_worktree := false
  scan_id := 1
  completed_scan_id := 0

/-- The traversal starts at the first entry at or past the path. -/
def entry_for_path (self : Snapshot) (p : RelPath) : Option Entry :=
  (self.entries_by_path.dropWhile fun entry => decide (entry.path < p)).head?.filter
    fun entry => entry.path = p

def entry_for_id (self : Snapshot) (id : Nat) : Option Entry :=
  (get self.entries_by_id id).bind fun entry => self.entry_for_path entry.path

end Snapshot

inductive BackgroundScannerPhase
  | InitialScan
  | EventsReceivedDuringInitialScan
  | Events
deriving DecidableEq

inductive PathChange
  | Added
  | Removed
  | Updated
  | AddedOrUpdated
  | Loaded
deriving DecidableEq

structure EventRoot where
  path : RelPath
  was_rescanned : Bool

/-- The variables of `build_diff`'s loop. A cursor is what it has not passed yet. -/
structure DiffState where
  changes : List (RelPath × Nat × PathChange)
  old_paths : List Entry
  new_paths : List Entry
  last_newly_loaded_dir_path : Option RelPath

namespace DiffState

def added (state : DiffState) (phase : BackgroundScannerPhase) (new_entry : Entry) : PathChange :=
  let is_newly_loaded := phase = .InitialScan ∨
    state.last_newly_loaded_dir_path.any new_entry.path.starts_with = true
  if is_newly_loaded then .Loaded else .Added

/-- The arm of two entries at one path. -/
def compare (state : DiffState) (phase : BackgroundScannerPhase) (event_root : EventRoot)
    (old_entry new_entry : Entry) : DiffState :=
  let removed := (old_entry.path, old_entry.id, PathChange.Removed)
  if phase = .EventsReceivedDuringInitialScan then
    { state with
      changes := state.changes ++ (if old_entry.id ≠ new_entry.id then [removed] else []) ++
        [(new_entry.path, new_entry.id, .AddedOrUpdated)] }
  else if old_entry.id ≠ new_entry.id then
    { state with changes := state.changes ++ [removed, (new_entry.path, new_entry.id, .Added)] }
  else if old_entry ≠ new_entry then
    if old_entry.kind.is_unloaded then
      { state with
        last_newly_loaded_dir_path := some new_entry.path
        changes := state.changes ++ [(new_entry.path, new_entry.id, .Loaded)] }
    else { state with changes := state.changes ++ [(new_entry.path, new_entry.id, .Updated)] }
  else if event_root.was_rescanned then
    { state with changes := state.changes ++ [(new_entry.path, new_entry.id, .Updated)] }
  else state

def remove (state : DiffState) (old_entry : Entry) (rest : List Entry) : DiffState :=
  { state with
    changes := state.changes ++ [(old_entry.path, old_entry.id, .Removed)]
    old_paths := rest }

def add (state : DiffState) (phase : BackgroundScannerPhase) (new_entry : Entry) (rest : List Entry) :
    DiffState :=
  { state with
    changes := state.changes ++ [(new_entry.path, new_entry.id, state.added phase new_entry)]
    new_paths := rest }

/-- One iteration of the loop of an event root, unless it breaks. -/
def step (phase : BackgroundScannerPhase) (event_root : EventRoot) (state : DiffState) :
    Option DiffState :=
  match state.old_paths, state.new_paths with
  | old_entry :: old_rest, new_entry :: new_rest =>
    if event_root.path < old_entry.path ∧ event_root.path < new_entry.path ∧
        ¬ old_entry.path.starts_with event_root.path ∧ ¬ new_entry.path.starts_with event_root.path then
      none
    else if old_entry.path < new_entry.path then some (state.remove old_entry old_rest)
    else if old_entry.path = new_entry.path then
      some { state.compare phase event_root old_entry new_entry with
        old_paths := old_rest
        new_paths := new_rest }
    else some (state.add phase new_entry new_rest)
  | old_entry :: old_rest, [] => some (state.remove old_entry old_rest)
  | [], new_entry :: new_rest => some (state.add phase new_entry new_rest)
  | [], [] => none

theorem step_length {phase : BackgroundScannerPhase} {event_root : EventRoot} {state next : DiffState}
    (h : state.step phase event_root = some next) :
    next.old_paths.length + next.new_paths.length <
      state.old_paths.length + state.new_paths.length := by
  unfold step at h
  split at h
  · next hold hnew =>
    rw [hold, hnew]
    split at h
    · cases h
    · split at h
      · cases h
        simp [remove, hnew]
      · split at h
        · cases h
          simp
          omega
        · cases h
          simp [add, hold]
  · next hold hnew =>
    cases h
    simp [remove, hold, hnew]
  · next hold hnew =>
    cases h
    simp [add, hold, hnew]
  · cases h

def run (phase : BackgroundScannerPhase) (event_root : EventRoot) (state : DiffState) : DiffState :=
  match _hstep : state.step phase event_root with
  | none => state
  | some next => run phase event_root next
termination_by state.old_paths.length + state.new_paths.length
decreasing_by exact step_length _hstep

/-- Both cursors are brought forward to the root, which leaves one that is past it
    where it is. -/
def seek_forward (state : DiffState) (p : RelPath) : DiffState :=
  { state with
    old_paths := state.old_paths.dropWhile fun entry => decide (entry.path < p)
    new_paths := state.new_paths.dropWhile fun entry => decide (entry.path < p) }

end DiffState

def build_diff (phase : BackgroundScannerPhase) (old_snapshot new_snapshot : Snapshot)
    (event_roots : List EventRoot) : List (RelPath × Nat × PathChange) :=
  let start : DiffState :=
    { changes := []
      old_paths := old_snapshot.entries_by_path
      new_paths := new_snapshot.entries_by_path
      last_newly_loaded_dir_path := none }
  (event_roots.foldl (fun state event_root =>
    (state.seek_forward event_root.path).run phase event_root) start).changes

variable {Status Branch : Type}

namespace Snapshot

/-- The fields of an update that do not depend on the entries. -/
def header (self : Snapshot) (project_id worktree_id : Nat) : UpdateWorktree Status Branch where
  project_id
  worktree_id
  abs_path := to_string_lossy self.abs_path
  root_name := self.root_name.as_unix_str
  root_repo_common_dir := self.root_repo_common_dir.map to_string_lossy
  root_repo_is_linked_worktree := self.root_repo_is_linked_worktree
  updated_entries := []
  removed_entries := []
  scan_id := self.scan_id
  is_last_update := self.completed_scan_id = self.scan_id
  updated_repositories := []
  removed_repositories := []

def sort_by_id (entries : List proto.Entry) : List proto.Entry :=
  entries.insertionSort fun x y => x.id ≤ y.id

def build_initial_update (self : Snapshot) (project_id worktree_id : Nat) :
    UpdateWorktree Status Branch :=
  { self.header project_id worktree_id with
    updated_entries := sort_by_id (self.entries_by_path.map Entry.to_proto) }

/-- The binary search for an id finds it in entries sorted by id exactly when an entry has it. -/
def build_update (self : Snapshot) (project_id worktree_id : Nat)
    (entry_changes : List (RelPath × Nat × PathChange)) : UpdateWorktree Status Branch :=
  let removed_entries := entry_changes.filterMap fun (_, entry_id, path_change) =>
    if path_change = .Removed then some entry_id else none
  let updated_entries := sort_by_id (entry_changes.filterMap fun (_, entry_id, path_change) =>
    if path_change = .Removed then none else (self.entry_for_id entry_id).map Entry.to_proto)
  { self.header project_id worktree_id with
    updated_entries
    removed_entries := (removed_entries.insertionSort (· ≤ ·)).filter fun id =>
      !(updated_entries.any fun entry => entry.id = id) }

def update_abs_path (locale : Locale) (self : Snapshot) (abs_path : std.Path) (root_name : RelPath) :
    Snapshot :=
  if root_name ≠ self.root_name then
    { self with
      abs_path
      root_char_bag := locale.char_bag_for_path 0 root_name
      root_name }
  else { self with abs_path }

def removed_edits (self : Snapshot) (entry_id : Nat) :
    List (Edit Entry RelPath) × List (Edit PathEntry Nat) :=
  ((self.entry_for_id entry_id).toList.map fun entry => .Remove entry.path, [.Remove entry_id])

/-- The edits of one updated entry, of the tree by path and of the tree by id. -/
def updated_edits (locale : Locale) (self : Snapshot) (entry : proto.Entry) :
    List (Edit Entry RelPath) × List (Edit PathEntry Nat) :=
  match Entry.try_from locale self.root_char_bag entry with
  | none => ([], [])
  | some entry =>
    let old_path := (get self.entries_by_id entry.id).toList.map fun old => .Remove old.path
    let old_id := ((get self.entries_by_path entry.path).filter fun old => old.id ≠ entry.id).toList.map
      fun old => .Remove old.id
    (old_path ++ [.Insert entry],
     old_id ++
      [.Insert { id := entry.id, path := entry.path, is_ignored := entry.is_ignored, scan_id := 0 }])

/-- The root repository that an update leaves: a missing one counts once the scan is complete. -/
def root_repo (self : Snapshot) (update : UpdateWorktree Status Branch) : Option std.Path × Bool :=
  match update.root_repo_common_dir with
  | some dir => (some (path_new dir), update.root_repo_is_linked_worktree)
  | none =>
    if update.is_last_update then (none, false)
    else (self.root_repo_common_dir, self.root_repo_is_linked_worktree)

def apply_remote_update (locale : Locale) (self : Snapshot) (update : UpdateWorktree Status Branch) :
    Snapshot :=
  let self := match RelPath.from_unix_str update.root_name with
    | some root_name => self.update_abs_path locale (path_new update.abs_path) root_name
    | none => self
  let edits := update.removed_entries.map self.removed_edits ++
    update.updated_entries.map (self.updated_edits locale)
  let (root_repo_common_dir, root_repo_is_linked_worktree) := self.root_repo update
  { self with
    entries_by_path := edit self.entries_by_path (edits.flatMap Prod.fst)
    entries_by_id := edit self.entries_by_id (edits.flatMap Prod.snd)
    root_repo_common_dir
    root_repo_is_linked_worktree
    scan_id := update.scan_id
    completed_scan_id := if update.is_last_update then update.scan_id else self.completed_scan_id }

end Snapshot

end zed.worktree
