import Zed.DbtUi.El.Text

namespace zed.dbt_ui.el.local_runner

abbrev Text := List Char

/-- The name the runner is registered under in `el/remotes.yml`. -/
def REMOTE_NAME : Text := "localhost".toList
def PORT : Nat := 7431
def TOKEN_VAR : Text := "EL_RUNNER_TOKEN".toList
def ORACLE_CLIENT_VAR : Text := "EL_RUNNER_ORACLE_CLIENT_DIR".toList

/-- A component of a path, which need not be Unicode. -/
inductive OsStr
  | unicode (text : Text)
  | raw (bytes : List UInt8)
deriving DecidableEq, Repr

def OsStr.to_str : OsStr → Option Text
  | .unicode text => some text
  | .raw _ => none

abbrev Path := List OsStr

def file_name (path : Path) : Option OsStr := path.getLast?.filter (· ≠ .unicode "..".toList)

def slug_char (c : Char) : Char :=
  if c.isAlphanum ∨ c = '-' ∨ c = '_' ∨ c = '.' then c.toLower else '-'

def slug (project_root : Path) : Text :=
  let name := ((file_name project_root).bind OsStr.to_str).getD "project".toList
  ((name.map slug_char).dropWhile (· = '-')).rdropWhile (· = '-')

/-- One container per project, named after its directory. -/
def container_name (project_root : Path) : Text := "el-runner-".toList ++ slug project_root

/-- A text that is one field of a line of `docker ps`, or one of the names in it. -/
def IsField (text : Text) : Prop := ∀ c ∈ text, c ≠ '\t' ∧ c ≠ '\n' ∧ c ≠ ','

theorem slug_char_ge (c : Char) : 45 ≤ (slug_char c).toNat := by
  unfold slug_char
  split
  · rename_i hc
    unfold Char.toLower
    split
    · rename_i hupper
      have hlow : 65 ≤ c.toNat := hupper.1
      have hhigh : c.toNat ≤ 90 := hupper.2
      have hshift : (c.val + ('a'.val - 'A'.val)).toNat = c.toNat + 32 := by
        have hadd : ('a'.val - 'A'.val).toNat = 32 := by decide
        rw [UInt32.toNat_add, hadd]
        exact Nat.mod_eq_of_lt (show c.toNat + 32 < 2 ^ 32 by omega)
      change 45 ≤ (c.val + ('a'.val - 'A'.val)).toNat
      rw [hshift]
      omega
    · rcases hc with hc | rfl | rfl | rfl
      · have hrange : (65 ≤ c.toNat ∧ c.toNat ≤ 90 ∨ 97 ≤ c.toNat ∧ c.toNat ≤ 122) ∨ 48 ≤ c.toNat ∧ c.toNat ≤ 57 := by
          simpa [Char.isAlphanum, Char.isAlpha, Char.isUpper, Char.isLower, Char.isDigit,
            UInt32.le_iff_toNat_le] using hc
        omega
      all_goals decide
  · decide

theorem container_name_field (project_root : Path) : IsField (container_name project_root) := by
  have hslug : ∀ c ∈ slug project_root, 45 ≤ c.toNat := by
    intro c hc
    have hmem := (List.dropWhile_suffix _).subset ((List.rdropWhile_prefix _ _).subset hc)
    obtain ⟨d, -, rfl⟩ := List.mem_map.mp hmem
    exact slug_char_ge d
  have hname : ∀ c ∈ container_name project_root, 45 ≤ c.toNat := by
    intro c hc
    have hfixed : ∀ c ∈ "el-runner-".toList, 45 ≤ c.toNat := forall_mem_of_all (by decide)
    exact (List.mem_append.mp hc).elim (hfixed c) (hslug c)
  intro c hc
  have hge := hname c hc
  refine ⟨?_, ?_, ?_⟩ <;> rintro rfl <;> revert hge <;> decide

/-- What a container is started with. -/
structure Request where
  project_root : Path
  image : Text
  oracle : List Text
  token : Text

/-- A container that Docker holds, and the request that created it. -/
structure Held where
  name : Text
  started : Option Request
  state : Text
  status : Text
  name_field : IsField name
  state_field : IsField state
  status_line : '\n' ∉ status

structure Docker where
  held : List Held
  nodup : (held.map Held.name).Nodup

/-- How a Docker command comes out: it cannot be run, it fails, or it does its work. A
    `run` that fails may leave a container behind that was created only. -/
inductive Answer
  | absent
  | failed (stderr : Text) (created : Bool)
  | done
deriving DecidableEq

/-- The container of a request, as it is created. -/
def Request.held (request : Request) (running : Bool) : Held where
  name := container_name request.project_root
  started := some request
  state := if running then "running".toList else "created".toList
  status := if running then "Up Less than a second".toList else "Created".toList
  name_field := container_name_field _
  state_field := by
    cases running
    · exact forall_mem_of_all (by decide)
    · exact forall_mem_of_all (by decide)
  status_line := by cases running <;> decide

local instance lawful_texts : LawfulBEq Text := inferInstance

def Docker.taken (docker : Docker) (name : Text) : Bool := decide (name ∈ docker.held.map Held.name)

def Docker.add (docker : Docker) (container : Held) (hfree : docker.taken container.name = false) : Docker where
  held := container :: docker.held
  nodup := by
    rw [List.map_cons, List.nodup_cons]
    exact ⟨by simpa [Docker.taken] using hfree, docker.nodup⟩

/-- `docker rm --force` -/
def Docker.rm (docker : Docker) (name : Text) (answer : Answer) : Docker :=
  if answer = .done then
    { held := docker.held.filter fun container => container.name ≠ name
      nodup := docker.nodup.sublist (List.filter_sublist.map _) }
  else docker

/-- `docker run --detach`: it is refused when its name is taken. -/
def Docker.run (docker : Docker) (request : Request) (answer : Answer) : Docker × Answer :=
  if hfree : docker.taken (container_name request.project_root) = false then
    match answer with
    | .absent => (docker, .absent)
    | .failed stderr created =>
      (if created then docker.add (request.held false) hfree else docker, .failed stderr created)
    | .done => (docker.add (request.held true) hfree, .done)
  else
    match answer with
    | .absent => (docker, .absent)
    | _ => (docker, .failed "Conflict. The container name is already in use".toList false)

/-- The runner container for a project, as `docker ps` reports it. -/
inductive Container
  | Missing
  | Running
  | Stopped (status : Text)
deriving DecidableEq

def strip_return (line : Text) : Text := if line.getLast? = some '\r' then line.dropLast else line

/-- `str::lines`, after the beginning of a line. -/
def lines_after : Text → Text → List Text
  | line, [] => if line = [] then [] else [line]
  | line, c :: text =>
    if c = '\n' then strip_return line :: lines_after [] text else lines_after (line ++ [c]) text

def lines (text : Text) : List Text := lines_after [] text

/-- What is before the first of a character, and what is behind it. -/
def split_once (c : Char) (text : Text) : Option (Text × Text) :=
  if c ∈ text then some (text.takeWhile (· ≠ c), (text.dropWhile (· ≠ c)).tail) else none

/-- The names, the state and the status in a line of `docker ps`. -/
def ps_fields (line : Text) : Option (Text × Text × Text) :=
  (split_once '\t' line).map fun (names, rest) =>
    match split_once '\t' rest with
    | none => (names, rest, [])
    | some (state, status) => (names, state, status)

/-- The `name` filter matches substrings, so the exact name is picked out of
    `docker ps`'s lines here. -/
def parse_container (ps_output name : Text) : Container :=
  match ((lines ps_output).filterMap ps_fields).find? fun (names, _) => (names.splitOn ',').contains name with
  | none => .Missing
  | some (_, state, status) => if state = "running".toList then .Running else .Stopped (trim status)

def Held.line (container : Held) : Text :=
  container.name ++ '\t' :: container.state ++ '\t' :: container.status ++ ['\n']

/-- `docker ps --all --filter name=…` -/
def Docker.ps (docker : Docker) (name_filter : Text → Text → Bool) (name : Text) : Text :=
  (docker.held.filter fun container => name_filter name container.name).flatMap Held.line

/-- Docker's first meaningful stderr line, capped for a tooltip. -/
def first_line (text : Text) : Text :=
  ((((lines text).map trim).find? (· ≠ [])).getD "docker failed without saying why".toList).take 300

inductive StartError
  | remotes_unreadable
  | not_a_reference (name : Text)
  | dotenv_tracked
  | no_instant_client (dir : Text)
  | sqlnet_ora
  | running_docker
  | port_in_use
  | docker (detail : Text)
  | excluding_dotenv
  | writing_dotenv
  | writing_remotes
deriving DecidableEq

structure RemoteSpec where
  url : Text
  token : Option Text
  live : Bool
  extra : List (Text × Text)
deriving DecidableEq

/-- `el/remotes.yml`: its servers in their order, each name once. -/
structure Remotes where
  version : Nat
  remotes : List (Text × RemoteSpec)
  extra : List (Text × Text)
deriving DecidableEq

inductive Host
  | ipv4 (loopback : Bool)
  | ipv6 (loopback : Bool)
  | domain (host : Text)
deriving DecidableEq

structure Url where
  scheme : Text
  host : Option Host
  port : Option Nat
  path : Text
deriving DecidableEq

/-- What the runner uses from outside: how a variable is looked up in the environment and
    a `.env`, and how references, servers and addresses are read and written. -/
structure Engine where
  env_get : Option Text → Text → Option Text
  collect_var_refs : Text → List Text
  load_remotes : Text → Option Remotes
  to_canonical_remotes_yaml : Remotes → Text
  parse_url : Text → Option Url

/-- The files that a start may write: none when there is no such file. -/
structure Files where
  dotenv : Option Text
  exclude : Option Text
  remotes : Option Text
deriving DecidableEq

/-- How writing a file comes out. It is refused when the file cannot be opened, and cut
    when only so much is written. -/
inductive Write
  | done
  | refused
  | cut (written : Nat)
deriving DecidableEq

/-- How the steps of a start come out, and what it asks the machine. -/
structure Answers where
  remotes_readable : Bool
  exclude_path : Bool
  tracked : Bool
  ignored : Bool
  random : Fin 32 → UInt8
  client_found : Text → Bool
  admin : Text
  admin_written : Bool
  rm : Answer
  run : Answer
  clean_up : Answer
  exclude : Write
  comment : Write
  token : Write
  remotes_reread : Bool
  remotes : Write

inductive RemoteChange
  | none
  | token
  | entry
deriving DecidableEq

/-- The server the runner is reached through in `el/remotes.yml`. -/
structure RunnerRemote where
  name : Text
  token_var : Text
  change : RemoteChange
deriving DecidableEq

section

variable (engine : Engine)

/-- Whether a declared URL is the runner's own address: plain http on loopback, at the
    runner's port. -/
def is_runner_url (raw : Text) : Bool :=
  match engine.parse_url (trim raw) with
  | none => false
  | some url =>
    let loopback :=
      match url.host with
      | some (.ipv4 loopback) => loopback
      | some (.ipv6 loopback) => loopback
      | some (.domain host) => host.map Char.toLower == "localhost".toList
      | none => false
    url.scheme == "http".toList && loopback && url.port == some PORT && url.path.all (· == '/')

def load_remotes (readable : Bool) : Option Text → Except StartError Remotes
  | none => .ok { version := 1, remotes := [], extra := [] }
  | some text =>
    match if readable then engine.load_remotes text else none with
    | none => .error .remotes_unreadable
    | some remotes => .ok remotes

/-- The server at the runner's address: with several, `localhost`, otherwise the first. -/
def adopted (remotes : Remotes) : Option (Text × RemoteSpec) :=
  let at_address := remotes.remotes.filter fun (_, remote) => is_runner_url engine remote.url
  (at_address.find? fun (name, _) => name = REMOTE_NAME).or at_address.head?

/-- How the runner is declared, worked out without writing anything. -/
def runner_remote (readable : Bool) (file : Option Text) : Except StartError RunnerRemote := do
  let remotes ← load_remotes engine readable file
  match adopted engine remotes with
  | some (name, remote) =>
    match remote.token with
    | some template =>
      match (engine.collect_var_refs template).head? with
      | none => .error (.not_a_reference name)
      | some token_var => .ok { name, token_var, change := .none }
    | none => .ok { name, token_var := TOKEN_VAR, change := .token }
  | none => .ok { name := REMOTE_NAME, token_var := TOKEN_VAR, change := .entry }

def declared (remotes : Remotes) (remote : RunnerRemote) : Remotes :=
  let template := "$\x7b".toList ++ remote.token_var ++ "\x7d".toList
  match remote.change with
  | .none => remotes
  | .token =>
    { remotes with remotes := remotes.remotes.map fun (name, entry) =>
        (name, if name = remote.name then { entry with token := some template } else entry) }
  | .entry =>
    let url := "http://127.0.0.1:7431".toList
    let entry : RemoteSpec := { url, token := some template, live := true, extra := [] }
    { remotes with remotes := remotes.remotes.filter (·.1 ≠ remote.name) ++ [(remote.name, entry)] }

/-- `fs::write`, which empties the file before it writes. -/
def write_file (file : Option Text) (text : Text) : Write → Option Text × Bool
  | .done => (some text, true)
  | .refused => (file, false)
  | .cut written => (some (text.take written), false)

/-- Appends a line, first ending the file's last line if it has no newline. -/
def append_line (file : Option Text) (line : Text) (write : Write) : Option Text × Bool :=
  let existing := file.getD []
  let separator := if existing = [] ∨ existing.getLast? = some '\n' then [] else ['\n']
  let text := separator ++ line ++ ['\n']
  match write with
  | .done => (some (existing ++ text), true)
  | .refused => (file, false)
  | .cut written => (some (existing ++ text.take written), false)

/-- Writes what `runner_remote` found missing. -/
def declare_remote (answers : Answers) (remote : RunnerRemote) (files : Files) : Files × Except StartError Unit :=
  match load_remotes engine answers.remotes_reread files.remotes with
  | .error error => (files, .error error)
  | .ok remotes =>
    if remote.change = .none then (files, .ok ())
    else
      let yaml := engine.to_canonical_remotes_yaml (declared remotes remote)
      let (file, written) := write_file files.remotes yaml answers.remotes
      ({ files with remotes := file }, if written then .ok () else .error .writing_remotes)

/-- Checks `.env` can safely hold a token, before one is written: whether it is to be
    excluded from git. -/
def dotenv_exclusion (answers : Answers) : Except StartError Bool :=
  if answers.exclude_path then
    if answers.tracked then .error .dotenv_tracked else .ok !answers.ignored
  else .ok false

def oracle_client_args (answers : Answers) (dotenv : Option Text) : Except StartError (List Text) :=
  match ((engine.env_get dotenv ORACLE_CLIENT_VAR).map trim).filter (· ≠ []) with
  | none => .ok []
  | some client =>
    if !answers.client_found client then .error (.no_instant_client client)
    else if !answers.admin_written then .error .sqlnet_ora
    else .ok [
      "--mount".toList,
      "type=bind,source=".toList ++ client ++ ",target=/opt/oracle/instantclient,readonly".toList,
      "--mount".toList,
      "type=bind,source=".toList ++ answers.admin ++ ",target=/opt/oracle/network/admin,readonly".toList,
      "--env".toList, "ELLODE_ORACLE_CLIENT_DIR=/opt/oracle/instantclient".toList,
      "--env".toList, "LD_LIBRARY_PATH=/opt/oracle/instantclient".toList,
      "--env".toList, "TNS_ADMIN=/opt/oracle/network/admin".toList]

def new_token (random : Fin 32 → UInt8) : Text :=
  (List.ofFn random).flatMap fun byte => [Nat.digitChar (byte.toNat / 16), Nat.digitChar (byte.toNat % 16)]

/-- What a start works out before it runs anything. -/
structure Plan where
  remote : RunnerRemote
  existing : Option Text
  exclude : Bool
  token : Text
  oracle : List Text

/-- The token that a variable already has. -/
def existing_token (dotenv : Option Text) (token_var : Text) : Option Text :=
  (engine.env_get dotenv token_var).filter (trim · ≠ [])

def prepare (answers : Answers) (files : Files) : Except StartError Plan := do
  let remote ← runner_remote engine answers.remotes_readable files.remotes
  let existing := existing_token engine files.dotenv remote.token_var
  -- A tracked .env is refused before anything runs, not after.
  let exclude ← (if existing.isSome then .ok false else dotenv_exclusion answers)
  let oracle ← oracle_client_args engine answers files.dotenv
  return { remote, existing, exclude, token := existing.getD (new_token answers.random), oracle }

/-- One step that writes, and the next one if it succeeds. -/
def and_then (outcome : Files × Except StartError Unit) (next : Files → Files × Except StartError Unit) :
    Files × Except StartError Unit :=
  match outcome.2 with
  | .error error => (outcome.1, .error error)
  | .ok () => next outcome.1

def append_exclude (answers : Answers) (exclude : Bool) (files : Files) : Files × Except StartError Unit :=
  if exclude then
    let (file, written) := append_line files.exclude ".env".toList answers.exclude
    ({ files with exclude := file }, if written then .ok () else .error .excluding_dotenv)
  else (files, .ok ())

def append_to_dotenv (line : Text) (write : Write) (files : Files) : Files × Except StartError Unit :=
  let (file, written) := append_line files.dotenv line write
  ({ files with dotenv := file }, if written then .ok () else .error .writing_dotenv)

def token_comment : Text := "# The local EL runner's token, written by the IDE — never commit it.".toList

def append_dotenv (answers : Answers) (key value : Text) (files : Files) : Files × Except StartError Unit :=
  and_then (append_to_dotenv token_comment answers.comment files)
    (append_to_dotenv (key ++ '=' :: value) answers.token)

def record (answers : Answers) (plan : Plan) (files : Files) : Files × Except StartError Unit :=
  if plan.existing.isSome then declare_remote engine answers plan.remote files
  else
    and_then
      (and_then (append_exclude answers plan.exclude files) (append_dotenv answers plan.remote.token_var plan.token))
      (declare_remote engine answers plan.remote)

/-- Starts (or restarts) the project's runner with the project mounted. The token and the
    server entry are worked out first but written only once the container runs. -/
def start (answers : Answers) (project_root : Path) (image : Text) (docker : Docker) (files : Files) :
    Docker × Files × Except StartError Unit :=
  match prepare engine answers files with
  | .error error => (docker, files, .error error)
  | .ok plan =>
    let name := container_name project_root
    if answers.rm = .absent then (docker, files, .error .running_docker)
    else
      let request := { project_root, image, oracle := plan.oracle, token := plan.token }
      match (docker.rm name answers.rm).run request answers.run with
      | (docker, .absent) => (docker, files, .error .running_docker)
      | (docker, .failed stderr _) =>
        -- `docker run` leaves a created, never-started container behind.
        let error :=
          if "port is already allocated".toList <:+: stderr then .port_in_use else .docker (first_line stderr)
        (docker.rm name answers.clean_up, files, .error error)
      | (docker, .done) => (docker, record engine answers plan files)

end

/-- Removes the project's runner container. Already gone is fine. -/
def stop (answer : Answer) (project_root : Path) (docker : Docker) : Docker × Except StartError Unit :=
  (docker.rm (container_name project_root) answer,
    match answer with
    | .absent => .error .running_docker
    | .failed stderr _ =>
      if "No such container".toList <:+: stderr then .ok () else .error (.docker (first_line stderr))
    | .done => .ok ())

def container (answer : Answer) (name_filter : Text → Text → Bool) (project_root : Path) (docker : Docker) :
    Except StartError Container :=
  let name := container_name project_root
  match answer with
  | .absent => .error .running_docker
  | .failed stderr _ => .error (.docker (first_line stderr))
  | .done => .ok (parse_container (docker.ps name_filter name) name)

end zed.dbt_ui.el.local_runner
