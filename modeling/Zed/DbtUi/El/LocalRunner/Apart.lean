import Zed.DbtUi.El.LocalRunner

namespace zed.dbt_ui.el.local_runner

/-- A container that a start of the project created. -/
def Held.is_of (held : Held) (project : Path) : Bool :=
  held.started.any fun request => request.project_root = project

def Docker.of (docker : Docker) (project : Path) : List Held := docker.held.filter (Held.is_of · project)

/-- Docker as if a project had no containers. -/
def Docker.without (docker : Docker) (project : Path) : Docker where
  held := docker.held.filter fun held => !held.is_of project
  nodup := docker.nodup.sublist (List.filter_sublist.map _)

structure World where
  docker : Docker
  files : Path → Files

/-- The operations on projects, with what comes of their steps. -/
inductive Call
  | start (project_root : Path) (image : Text) (answers : Answers)
  | stop (project_root : Path) (answer : Answer)
  | container (project_root : Path) (answer : Answer)

def Call.project : Call → Path
  | .start project_root _ _ => project_root
  | .stop project_root _ => project_root
  | .container project_root _ => project_root

def step (engine : Engine) (world : World) : Call → World
  | .start project_root image answers =>
    let (docker, files, _) :=
      local_runner.start engine answers project_root image world.docker (world.files project_root)
    { docker, files := fun project => if project = project_root then files else world.files project }
  | .stop project_root answer => { world with docker := (local_runner.stop answer project_root world.docker).1 }
  | .container _ _ => world

/-- In every run of operations on two projects, none of which has a container at first, an
    operation on one leaves the containers of the other as they are, and what is reported
    of one is what is reported when the other has none. -/
def Apart (engine : Engine) (name_filter : Text → Text → Bool) (p q : Path) : Prop :=
  ∀ (world : World) (before : List Call), world.docker.of p = [] → world.docker.of q = [] →
    (∀ call ∈ before, call.project = p ∨ call.project = q) →
    ∀ mine other, (mine = p ∧ other = q) ∨ (mine = q ∧ other = p) →
      let reached := before.foldl (step engine) world
      (∀ call : Call, call.project = mine →
          (step engine reached call).docker.of other = reached.docker.of other) ∧
        ∀ answer, container answer name_filter mine reached.docker =
          container answer name_filter mine (reached.docker.without other)

/-- What an operation on a project does to Docker: containers of other names stay, and
    what is new is the project's under its name. -/
structure Touches (project : Path) (docker docker' : Docker) : Prop where
  keeps : docker'.held.filter (fun held => held.name ≠ container_name project) =
    docker.held.filter fun held => held.name ≠ container_name project
  adds : ∀ held ∈ docker'.held, held ∈ docker.held ∨
    (held.is_of project = true ∧ held.name = container_name project)

theorem Touches.refl (project : Path) (docker : Docker) : Touches project docker docker :=
  ⟨rfl, fun _ h => .inl h⟩

theorem Touches.trans {project : Path} {docker docker' docker'' : Docker} (h : Touches project docker docker')
    (h' : Touches project docker' docker'') : Touches project docker docker'' := by
  refine ⟨h'.keeps.trans h.keeps, fun held hheld => ?_⟩
  rcases h'.adds held hheld with hheld | hnew
  · exact h.adds held hheld
  · exact .inr hnew

theorem touches_rm (project : Path) (docker : Docker) (answer : Answer) :
    Touches project docker (docker.rm (container_name project) answer) := by
  unfold Docker.rm
  split
  · refine ⟨?_, fun held hheld => .inl (List.mem_of_mem_filter hheld)⟩
    dsimp only
    rw [List.filter_filter]
    simp only [Bool.and_self]
  · exact Touches.refl project docker

theorem touches_add (request : Request) (running : Bool) (docker : Docker)
    (hfree : docker.taken (request.held running).name = false) :
    Touches request.project_root docker (docker.add (request.held running) hfree) where
  keeps := by
    rw [show (docker.add (request.held running) hfree).held = request.held running :: docker.held from rfl]
    rw [List.filter_cons_of_neg]
    rw [show (request.held running).name = container_name request.project_root from rfl]
    simp only [ne_eq, not_true_eq_false, decide_false, Bool.false_eq_true, not_false_eq_true]
  adds := by
    intro held hheld
    rcases List.mem_cons.mp hheld with rfl | hheld
    · exact .inr ⟨decide_eq_true rfl, rfl⟩
    · exact .inl hheld

theorem touches_run (request : Request) (docker : Docker) (answer : Answer) :
    Touches request.project_root docker (docker.run request answer).1 := by
  unfold Docker.run
  split
  · cases answer with
    | absent => exact Touches.refl _ docker
    | failed stderr created =>
      cases created with
      | true => exact touches_add request false docker ‹_›
      | false => exact Touches.refl _ docker
    | done => exact touches_add request true docker ‹_›
  · cases answer <;> exact Touches.refl _ docker

theorem touches_start (engine : Engine) (answers : Answers) (project_root : Path) (image : Text) (docker : Docker)
    (files : Files) : Touches project_root docker (start engine answers project_root image docker files).1 := by
  unfold start
  cases prepare engine answers files with
  | error error => exact Touches.refl _ docker
  | ok plan =>
    dsimp only
    split
    · exact Touches.refl _ docker
    · have hrm := touches_rm project_root docker answers.rm
      have hrun := touches_run ⟨project_root, image, plan.oracle, plan.token⟩
        (docker.rm (container_name project_root) answers.rm) answers.run
      split
      · rename_i heq
        rw [heq] at hrun
        exact hrm.trans hrun
      · rename_i heq
        rw [heq] at hrun
        exact (hrm.trans hrun).trans (touches_rm project_root _ answers.clean_up)
      · rename_i heq
        rw [heq] at hrun
        exact hrm.trans hrun

theorem touches_step (engine : Engine) (world : World) (call : Call) :
    Touches call.project world.docker (step engine world call).docker := by
  cases call with
  | start project_root image answers => exact touches_start engine answers project_root image world.docker _
  | stop project_root answer => exact touches_rm project_root world.docker answer
  | container project_root answer => exact Touches.refl _ _

def Named (project : Path) (docker : Docker) : Prop :=
  ∀ held ∈ docker.of project, held.name = container_name project

theorem Touches.named {project : Path} {docker docker' : Docker} (h : Touches project docker docker')
    (hnamed : Named project docker) : Named project docker' := by
  intro held hheld
  obtain ⟨hmem, hof⟩ := List.mem_filter.mp hheld
  rcases h.adds held hmem with hold | ⟨-, hname⟩
  · exact hnamed held (List.mem_filter.mpr ⟨hold, hof⟩)
  · exact hname

theorem Held.project_unique {held : Held} {p q : Path} (hp : held.is_of p = true) (hq : held.is_of q = true) :
    p = q := by
  unfold Held.is_of at hp hq
  cases hstarted : held.started with
  | none => simp [hstarted] at hp
  | some request =>
    simp only [hstarted, Option.any_some, decide_eq_true_eq] at hp hq
    exact hp.symm.trans hq

section

variable {p q : Path} (hapart : container_name p ≠ container_name q)
include hapart

theorem Touches.named_other {docker docker' : Docker} (h : Touches p docker docker') (hnamed : Named q docker) :
    Named q docker' := by
  intro held hheld
  obtain ⟨hmem, hof⟩ := List.mem_filter.mp hheld
  rcases h.adds held hmem with hold | ⟨hnew, -⟩
  · exact hnamed held (List.mem_filter.mpr ⟨hold, hof⟩)
  · exact absurd (congrArg container_name (Held.project_unique hnew hof)) hapart

theorem Named.of_eq {docker : Docker} (hnamed : Named q docker) :
    docker.of q = (docker.held.filter fun held => held.name ≠ container_name p).filter (Held.is_of · q) := by
  rw [List.filter_filter]
  refine List.filter_congr fun held hmem => ?_
  cases hof : held.is_of q with
  | false => simp
  | true =>
    have hname := hnamed held (List.mem_filter.mpr ⟨hmem, hof⟩)
    simp [hname, hapart.symm]

theorem Touches.of_eq {docker docker' : Docker} (h : Touches p docker docker') (hnamed : Named q docker) :
    docker'.of q = docker.of q := by
  rw [Named.of_eq hapart hnamed, Named.of_eq hapart (h.named_other hapart hnamed), h.keeps]

end

theorem strip_return_append (before after : Text) :
    strip_return (before ++ '\t' :: after) = before ++ '\t' :: strip_return after := by
  unfold strip_return
  cases after with
  | nil => simp
  | cons c after =>
    rw [List.getLast?_append, List.getLast?_cons_cons, List.getLast?_eq_some_getLast (List.cons_ne_nil c after)]
    rw [Option.some_or]
    split
    · rw [List.dropLast_append_cons]
      rfl
    · rfl

theorem lines_after_line (before line rest : Text) (hline : '\n' ∉ line) :
    lines_after before (line ++ '\n' :: rest) = strip_return (before ++ line) :: lines rest := by
  induction line generalizing before with
  | nil => simp [lines_after, lines]
  | cons c line ih =>
    have hc : c ≠ '\n' := fun heq => hline (heq ▸ List.mem_cons_self)
    rw [List.cons_append, lines_after, if_neg hc, ih _ fun hmem => hline (List.mem_cons_of_mem c hmem)]
    simp

theorem split_once_append {c : Char} {before : Text} (after : Text) (hbefore : c ∉ before) :
    split_once c (before ++ c :: after) = some (before, after) := by
  have htake : ∀ d ∈ before, decide (d ≠ c) = true := fun d hd => by
    simpa using fun heq : d = c => hbefore (heq ▸ hd)
  unfold split_once
  rw [if_pos (by simp), List.takeWhile_append_of_pos htake, List.dropWhile_append_of_pos htake]
  simp

def Held.report (held : Held) : Container :=
  if held.state = "running".toList then .Running else .Stopped (trim (strip_return held.status))

theorem lines_line (held : Held) (rest : Text) :
    lines (held.line ++ rest) =
      (held.name ++ '\t' :: held.state ++ '\t' :: strip_return held.status) :: lines rest := by
  have hline : '\n' ∉ held.name ++ '\t' :: held.state ++ '\t' :: held.status := by
    have hname : '\n' ∉ held.name := fun h => (held.name_field _ h).2.1 rfl
    have hstate : '\n' ∉ held.state := fun h => (held.state_field _ h).2.1 rfl
    simp [hname, hstate, held.status_line]
  have hsplit : held.line ++ rest = (held.name ++ '\t' :: held.state ++ '\t' :: held.status) ++ '\n' :: rest := by
    simp [Held.line]
  rw [hsplit, lines, lines_after_line _ _ _ hline, List.nil_append, strip_return_append]

theorem ps_fields_line (held : Held) (status : Text) :
    ps_fields (held.name ++ '\t' :: held.state ++ '\t' :: status) = some (held.name, held.state, status) := by
  have hname : '\t' ∉ held.name := fun h => (held.name_field _ h).1 rfl
  have hstate : '\t' ∉ held.state := fun h => (held.state_field _ h).1 rfl
  rw [ps_fields, List.append_assoc, List.cons_append, split_once_append _ hname, Option.map_some]
  dsimp only
  rw [split_once_append _ hstate]

theorem names_contains (held : Held) (name : Text) :
    (held.name.splitOn ',').contains name = decide (held.name = name) := by
  have hplain : held.name.splitOn ',' = [held.name] :=
    List.splitOn_eq_singleton fun h => (held.name_field _ h).2.2 rfl
  rw [hplain]
  simp [eq_comm]

theorem parse_container_lines (listed : List Held) (name : Text) :
    parse_container (listed.flatMap Held.line) name =
      match listed.find? (·.name = name) with
      | none => .Missing
      | some held => held.report := by
  unfold parse_container
  induction listed with
  | nil => rfl
  | cons held listed ih =>
    rw [List.flatMap_cons, lines_line, List.filterMap_cons, ps_fields_line]
    dsimp only
    rw [List.find?_cons, List.find?_cons]
    dsimp only
    rw [names_contains]
    cases decide (held.name = name) with
    | true => rfl
    | false => exact ih

theorem container_without (answer : Answer) (name_filter : Text → Text → Bool) {p q : Path} {docker : Docker}
    (hapart : container_name p ≠ container_name q) (hnamed : Named q docker) :
    container answer name_filter p docker = container answer name_filter p (docker.without q) := by
  unfold container
  cases answer with
  | absent => rfl
  | failed stderr created => rfl
  | done =>
    dsimp only [Docker.ps]
    rw [parse_container_lines, parse_container_lines, Docker.without]
    have hfind : ((docker.held.filter fun held => !held.is_of q).filter fun held =>
          name_filter (container_name p) held.name).find? (·.name = container_name p) =
        (docker.held.filter fun held => name_filter (container_name p) held.name).find? (·.name = container_name p) := by
      rw [List.find?_filter, List.find?_filter, List.find?_filter]
      refine List.find?_congr fun held hmem => ?_
      cases hof : held.is_of q with
      | false => simp
      | true =>
        have hname := hnamed held (List.mem_filter.mpr ⟨hmem, hof⟩)
        simp [hname, hapart.symm]
    rw [hfind]

theorem container_name_inj {p q : Path} : container_name p = container_name q ↔ slug p = slug q :=
  List.append_right_inj _

theorem foldl_named (engine : Engine) {p q : Path} (hapart : container_name p ≠ container_name q) {world : World}
    {before : List Call} (hcalls : ∀ call ∈ before, call.project = p ∨ call.project = q)
    (hp : Named p world.docker) (hq : Named q world.docker) :
    Named p (before.foldl (step engine) world).docker ∧ Named q (before.foldl (step engine) world).docker := by
  induction before generalizing world with
  | nil => exact ⟨hp, hq⟩
  | cons call before ih =>
    have htouches := touches_step engine world call
    have hrest : ∀ call ∈ before, call.project = p ∨ call.project = q := fun other h =>
      hcalls other (List.mem_cons_of_mem call h)
    rw [List.foldl_cons]
    rcases hcalls call List.mem_cons_self with hcall | hcall
    · rw [hcall] at htouches
      exact ih hrest (htouches.named hp) (htouches.named_other hapart hq)
    · rw [hcall] at htouches
      exact ih hrest (htouches.named_other hapart.symm hp) (htouches.named hq)

theorem named_of_empty {project : Path} {docker : Docker} (h : docker.of project = []) : Named project docker := by
  intro held hheld
  rw [h] at hheld
  cases hheld

/-- Nothing goes wrong on a machine with nothing on it. -/
def smooth : Answers where
  remotes_readable := true
  exclude_path := false
  tracked := false
  ignored := false
  random := fun _ => 0
  client_found := fun _ => true
  admin := "/data/el-runner/network-admin".toList
  admin_written := true
  rm := .done
  run := .done
  clean_up := .done
  exclude := .done
  comment := .done
  token := .done
  remotes_reread := true
  remotes := .done

def emptyWorld : World where
  docker := { held := [], nodup := List.nodup_nil }
  files := fun _ => { dotenv := none, exclude := none, remotes := none }

theorem prepare_smooth (engine : Engine) : ∃ plan, prepare engine smooth (emptyWorld.files []) = .ok plan := by
  have hremote : runner_remote engine smooth.remotes_readable (emptyWorld.files []).remotes =
      .ok { name := REMOTE_NAME, token_var := TOKEN_VAR, change := .entry } := rfl
  have horacle : ∃ args, oracle_client_args engine smooth (emptyWorld.files []).dotenv = .ok args := by
    unfold oracle_client_args
    split
    · exact ⟨_, rfl⟩
    · exact ⟨_, rfl⟩
  have hexclude : ∀ existing : Bool, (if existing then .ok false else dotenv_exclusion smooth) = .ok false := by
    decide
  obtain ⟨args, horacle⟩ := horacle
  unfold prepare
  rw [hremote, horacle]
  dsimp only [bind, Except.bind]
  rw [hexclude]
  exact ⟨_, rfl⟩

theorem Docker.rm_held (docker : Docker) (name : Text) :
    (docker.rm name .done).held = docker.held.filter fun held => held.name ≠ name := rfl

theorem Docker.run_done (docker : Docker) (request : Request)
    (hfree : docker.taken (container_name request.project_root) = false) :
    docker.run request .done = (docker.add (request.held true) hfree, .done) := by
  unfold Docker.run
  rw [dif_pos hfree]

theorem start_smooth (engine : Engine) (project : Path) (image : Text) :
    ∃ oracle token, (step engine emptyWorld (.start project image smooth)).docker.held =
      [Request.held ⟨project, image, oracle, token⟩ true] := by
  obtain ⟨plan, hplan⟩ := prepare_smooth engine
  refine ⟨plan.oracle, plan.token, ?_⟩
  have hfree : (emptyWorld.docker.rm (container_name project) .done).taken
      (container_name (Request.project_root ⟨project, image, plan.oracle, plan.token⟩)) = false := rfl
  have hrun := Docker.run_done _ ⟨project, image, plan.oracle, plan.token⟩ hfree
  have hfiles : prepare engine smooth (emptyWorld.files project) = .ok plan := hplan
  have hrm : ¬smooth.rm = .absent := by decide
  simp only [step, start, hfiles, if_neg hrm]
  rw [show smooth.rm = .done from rfl, show smooth.run = .done from rfl, hrun]
  rfl

theorem stop_removes {project : Path} {docker : Docker} {held : Held} (hheld : docker.held = [held])
    (hname : held.name = container_name project) : (stop .done project docker).1.held = [] := by
  rw [show (stop .done project docker).1 = docker.rm (container_name project) .done from rfl, Docker.rm_held, hheld]
  simp [hname]

theorem not_apart (engine : Engine) (name_filter : Text → Text → Bool) {p q : Path}
    (hsame : container_name p = container_name q) : ¬Apart engine name_filter p q := by
  intro hall
  obtain ⟨oracle, token, hheld⟩ := start_smooth engine p []
  have hkept := (hall emptyWorld [.start p [] smooth] rfl rfl (by simp [Call.project]) q p (.inr ⟨rfl, rfl⟩)).1
    (.stop q .done) rfl
  rw [List.foldl_cons, List.foldl_nil] at hkept
  have hremoved : (step engine (step engine emptyWorld (.start p [] smooth)) (.stop q .done)).docker.held = [] :=
    stop_removes hheld hsame
  have hof : (Request.held ⟨p, [], oracle, token⟩ true).is_of p = true := decide_eq_true rfl
  rw [Docker.of, Docker.of, hremoved, hheld] at hkept
  simp [hof] at hkept

/-- Projects do not interfere exactly when their directories are told apart by the slug
    that names their containers. -/
theorem runners_apart_iff (engine : Engine) (name_filter : Text → Text → Bool) (p q : Path) :
    Apart engine name_filter p q ↔ slug p ≠ slug q := by
  have hnames : slug p ≠ slug q ↔ container_name p ≠ container_name q := not_congr container_name_inj.symm
  rw [hnames]
  constructor
  · exact fun hall hsame => not_apart engine name_filter hsame hall
  · intro hapart world before hp hq hcalls mine other hpair
    obtain ⟨hpn, hqn⟩ := foldl_named engine hapart hcalls (named_of_empty hp) (named_of_empty hq)
    rcases hpair with ⟨rfl, rfl⟩ | ⟨rfl, rfl⟩
    · refine ⟨fun call hcall => ?_, fun answer => container_without answer name_filter hapart hqn⟩
      have htouches := touches_step engine (before.foldl (step engine) world) call
      rw [hcall] at htouches
      exact htouches.of_eq hapart hqn
    · refine ⟨fun call hcall => ?_, fun answer => container_without answer name_filter hapart.symm hpn⟩
      have htouches := touches_step engine (before.foldl (step engine) world) call
      rw [hcall] at htouches
      exact htouches.of_eq hapart.symm hpn

/-- An environment with no variables. -/
def bareEngine : Engine where
  env_get := fun _ _ => none
  collect_var_refs := fun _ => []
  load_remotes := fun _ => none
  to_canonical_remotes_yaml := fun _ => []
  parse_url := fun _ => none

/-- Two projects in directories of one name share a container. -/
theorem same_directory_clash :
    let shop (parent : Text) : Path := [.unicode parent, .unicode "shop".toList]
    shop "a".toList ≠ shop "b".toList ∧
      ¬Apart bareEngine (fun name other => decide (name <:+: other)) (shop "a".toList) (shop "b".toList) :=
  ⟨by decide, not_apart bareEngine _ rfl⟩

end zed.dbt_ui.el.local_runner
