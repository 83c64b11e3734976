import Zed.DbtUi.El.LocalRunner.Apart

namespace zed.dbt_ui.el.local_runner

/-- The runner's container runs with the token that its server's variable resolves to. -/
def Resolves (engine : Engine) (project_root : Path) (docker : Docker) (files : Files) : Prop :=
  ∃ held ∈ docker.held, held.name = container_name project_root ∧ ∃ request, held.started = some request ∧
    ∃ remote, runner_remote engine true files.remotes = .ok remote ∧
      engine.env_get files.dotenv remote.token_var = some request.token

/-- A start that fails leaves the project's files as they were, and one that succeeds
    shares its token with the container. -/
def Restores (engine : Engine) (answers : Answers) (project_root : Path) (image : Text) (docker : Docker)
    (files : Files) : Prop :=
  match start engine answers project_root image docker files with
  | (_, files', .error _) => files' = files
  | (docker', files', .ok ()) => Resolves engine project_root docker' files'

section

variable (engine : Engine) (answers : Answers)

/-- `el/remotes.yml` has all that a remote needs, or is written. -/
def Declares (remote : RunnerRemote) (file : Option Text) : Prop :=
  (file.isSome = true → answers.remotes_reread = true) ∧ (remote.change = .none ∨ answers.remotes = .done)

/-- `el/remotes.yml` cannot be read again, or is as it was when it is not written whole. -/
def KeepsRemotes (remote : RunnerRemote) (file : Option Text) : Prop :=
  (file.isSome = true ∧ answers.remotes_reread = false) ∨
    ∀ remotes, load_remotes engine true file = .ok remotes →
      (write_file file (engine.to_canonical_remotes_yaml (declared remotes remote)) answers.remotes).1 = file

/-- The container runs once what comes before it is done. -/
def Runs (project_root : Path) (image : Text) (docker : Docker) (plan : Plan) : Prop :=
  answers.rm ≠ .absent ∧
    ((docker.rm (container_name project_root) answers.rm).run
      ⟨project_root, image, plan.oracle, plan.token⟩ answers.run).2 = .done

/-- The lines of `.env` are appended, and the remote declared. -/
def Written (plan : Plan) (file : Option Text) : Prop :=
  answers.comment = .done ∧ answers.token = .done ∧ Declares answers plan.remote file

/-- No write fails but the first one, and that one only if it leaves its file as it was. -/
def Recovers (plan : Plan) (files : Files) : Prop :=
  if plan.existing.isSome then
    Declares answers plan.remote files.remotes ∨ KeepsRemotes engine answers plan.remote files.remotes
  else if plan.exclude then
    if answers.exclude = .done then Written answers plan files.remotes
    else (append_line files.exclude ".env".toList answers.exclude).1 = files.exclude
  else if answers.comment = .done then Written answers plan files.remotes
  else (append_line files.dotenv token_comment answers.comment).1 = files.dotenv

end

/-- A `.env` with the token appended to it. -/
def with_token (dotenv : Option Text) (key value : Text) : Option Text :=
  (append_line (append_line dotenv token_comment .done).1 (key ++ '=' :: value) .done).1

theorem append_line_ok (file : Option Text) (line : Text) (write : Write) :
    (append_line file line write).2 = decide (write = .done) := by
  cases write <;> rfl

theorem append_line_length (file : Option Text) (line : Text) (write : Write) :
    (file.getD []).length ≤ ((append_line file line write).1.getD []).length := by
  cases write <;> simp [append_line]

theorem append_line_done_length (file : Option Text) (line : Text) :
    (file.getD []).length < ((append_line file line .done).1.getD []).length := by
  simp only [append_line, Option.getD_some, List.length_append, List.length_cons, List.length_nil]
  omega

/-- What fails leaves the files as they were. -/
def Clean (files : Files) (outcome : Files × Except StartError Unit) : Prop :=
  ∀ error, outcome.2 = .error error → outcome.1 = files

theorem clean_of_ok {files : Files} {outcome : Files × Except StartError Unit} (h : outcome.2 = .ok ()) :
    Clean files outcome := by
  intro error herror
  rw [h] at herror
  cases herror

theorem clean_iff_ok {files : Files} {outcome : Files × Except StartError Unit} (hne : outcome.1 ≠ files) :
    Clean files outcome ↔ outcome.2 = .ok () := by
  refine ⟨fun hclean => ?_, clean_of_ok⟩
  cases hresult : outcome.2 with
  | ok value => rfl
  | error error => exact absurd (hclean error hresult) hne

theorem and_then_of_ok {outcome : Files × Except StartError Unit} (h : outcome.2 = .ok ())
    (next : Files → Files × Except StartError Unit) : and_then outcome next = next outcome.1 := by
  rw [and_then, h]

theorem and_then_of_error {outcome : Files × Except StartError Unit} {error : StartError}
    (h : outcome.2 = .error error) (next : Files → Files × Except StartError Unit) :
    and_then outcome next = (outcome.1, .error error) := by
  rw [and_then, h]

theorem and_then_ok_iff (outcome : Files × Except StartError Unit) (next : Files → Files × Except StartError Unit) :
    (and_then outcome next).2 = .ok () ↔ outcome.2 = .ok () ∧ (next outcome.1).2 = .ok () := by
  cases h : outcome.2 with
  | ok value => simp [and_then_of_ok h]
  | error error => simp [and_then_of_error h]

theorem and_then_keeps (keeps : Files → Files → Prop)
    (htrans : ∀ a b c, keeps a b → keeps b c → keeps a c) {files : Files}
    {outcome : Files × Except StartError Unit} {next : Files → Files × Except StartError Unit}
    (hfirst : keeps files outcome.1) (hnext : ∀ files, keeps files (next files).1) :
    keeps files (and_then outcome next).1 := by
  cases h : outcome.2 with
  | ok value =>
    rw [and_then_of_ok h]
    exact htrans _ _ _ hfirst (hnext outcome.1)
  | error error =>
    rw [and_then_of_error h]
    exact hfirst

/-- What the steps on `.env` and `el/remotes.yml` keep: the other files, and what `.env` held. -/
def Extends (files files' : Files) : Prop :=
  files'.exclude = files.exclude ∧ (files.dotenv.getD []).length ≤ (files'.dotenv.getD []).length

theorem Extends.trans (a b c : Files) (h : Extends a b) (h' : Extends b c) : Extends a c :=
  ⟨h'.1.trans h.1, h.2.trans h'.2⟩

section

variable {engine : Engine} {answers : Answers} {files : Files} {plan : Plan}

theorem append_to_dotenv_ok_iff (line : Text) (write : Write) (files : Files) :
    (append_to_dotenv line write files).2 = .ok () ↔ write = .done := by
  simp [append_to_dotenv, append_line_ok]

theorem append_to_dotenv_extends (line : Text) (write : Write) (files : Files) :
    Extends files (append_to_dotenv line write files).1 :=
  ⟨rfl, append_line_length files.dotenv line write⟩

theorem declare_remote_extends (remote : RunnerRemote) (files : Files) :
    Extends files (declare_remote engine answers remote files).1 := by
  unfold declare_remote
  split
  · exact ⟨rfl, le_rfl⟩
  · split
    · exact ⟨rfl, le_rfl⟩
    · exact ⟨rfl, le_rfl⟩

theorem load_remotes_again {readable : Bool} {file : Option Text} (h : file.isSome = true → readable = true) :
    load_remotes engine readable file = load_remotes engine true file := by
  cases file with
  | none => rfl
  | some text => rw [h rfl]

theorem declare_remote_unreadable {remote : RunnerRemote} (hfile : files.remotes.isSome = true)
    (hreread : answers.remotes_reread = false) :
    declare_remote engine answers remote files = (files, .error .remotes_unreadable) := by
  obtain ⟨text, htext⟩ := Option.isSome_iff_exists.mp hfile
  have hload : load_remotes engine answers.remotes_reread files.remotes = .error .remotes_unreadable := by
    rw [htext, hreread]
    rfl
  rw [declare_remote, hload]

theorem declare_remote_readable {remote : RunnerRemote} {remotes : Remotes}
    (hreread : files.remotes.isSome = true → answers.remotes_reread = true)
    (hload : load_remotes engine true files.remotes = .ok remotes) :
    declare_remote engine answers remote files =
      if remote.change = .none then (files, .ok ())
      else
        let yaml := engine.to_canonical_remotes_yaml (declared remotes remote)
        ({ files with remotes := (write_file files.remotes yaml answers.remotes).1 },
          if answers.remotes = .done then .ok () else .error .writing_remotes) := by
  rw [declare_remote, load_remotes_again hreread, hload]
  dsimp only
  split
  · rfl
  · cases answers.remotes <;> rfl

theorem declare_remote_ok_iff {remote : RunnerRemote} {remotes : Remotes}
    (hload : load_remotes engine true files.remotes = .ok remotes) :
    (declare_remote engine answers remote files).2 = .ok () ↔ Declares answers remote files.remotes := by
  by_cases hreread : files.remotes.isSome = true → answers.remotes_reread = true
  · rw [declare_remote_readable hreread hload, Declares, and_iff_right hreread]
    by_cases hchange : remote.change = .none
    · simp [hchange]
    · by_cases hwrite : answers.remotes = .done <;> simp [hchange, hwrite]
  · obtain ⟨hfile, hfalse⟩ := Classical.not_imp.mp hreread
    rw [declare_remote_unreadable hfile (Bool.eq_false_of_not_eq_true hfalse), Declares]
    simp [hreread]

theorem declare_remote_clean_iff {remote : RunnerRemote} {remotes : Remotes}
    (hload : load_remotes engine true files.remotes = .ok remotes) :
    Clean files (declare_remote engine answers remote files) ↔
      Declares answers remote files.remotes ∨ KeepsRemotes engine answers remote files.remotes := by
  by_cases hreread : files.remotes.isSome = true → answers.remotes_reread = true
  · by_cases hdeclares : Declares answers remote files.remotes
    · simp [hdeclares, clean_of_ok ((declare_remote_ok_iff hload).mpr hdeclares)]
    · have hchange : ¬remote.change = .none := fun h => hdeclares ⟨hreread, .inl h⟩
      have hwrite : ¬answers.remotes = .done := fun h => hdeclares ⟨hreread, .inr h⟩
      have hkeeps : KeepsRemotes engine answers remote files.remotes ↔
          (write_file files.remotes (engine.to_canonical_remotes_yaml (declared remotes remote)) answers.remotes).1 =
            files.remotes := by
        constructor
        · rintro (⟨hfile, hfalse⟩ | hall)
          · rw [hreread hfile] at hfalse
            cases hfalse
          · exact hall remotes hload
        · intro heq
          refine .inr fun remotes' hload' => ?_
          obtain rfl : remotes = remotes' := Except.ok.inj (hload.symm.trans hload')
          exact heq
      rw [declare_remote_readable hreread hload, if_neg hchange, if_neg hwrite, or_iff_right hdeclares, hkeeps]
      constructor
      · exact fun hclean => congrArg Files.remotes (hclean _ rfl)
      · rintro heq error -
        dsimp only
        rw [heq]
  · obtain ⟨hfile, hfalse⟩ := Classical.not_imp.mp hreread
    have hreread' := Bool.eq_false_of_not_eq_true hfalse
    rw [declare_remote_unreadable hfile hreread']
    exact iff_of_true (fun _ _ => rfl) (.inr (.inl ⟨hfile, hreread'⟩))

/-- The steps after the exclusion. -/
def rest (engine : Engine) (answers : Answers) (plan : Plan) (files : Files) : Files × Except StartError Unit :=
  and_then (append_dotenv answers plan.remote.token_var plan.token files) (declare_remote engine answers plan.remote)

theorem record_of_new (hnew : plan.existing.isSome = false) :
    record engine answers plan files =
      and_then (append_exclude answers plan.exclude files) (rest engine answers plan) := by
  rw [record, hnew, if_neg Bool.false_ne_true]
  cases h : (append_exclude answers plan.exclude files).2 with
  | ok value =>
    rw [and_then_of_ok h, and_then_of_ok h]
    rfl
  | error error =>
    rw [and_then_of_error h, and_then_of_error h, and_then_of_error rfl]

theorem rest_extends (files : Files) : Extends files (rest engine answers plan files).1 := by
  refine and_then_keeps Extends Extends.trans ?_ fun files => declare_remote_extends plan.remote files
  exact and_then_keeps Extends Extends.trans (append_to_dotenv_extends _ _ files) fun files =>
    append_to_dotenv_extends _ _ files

theorem rest_ok_iff {remotes : Remotes} (hload : load_remotes engine true files.remotes = .ok remotes) :
    (rest engine answers plan files).2 = .ok () ↔ Written answers plan files.remotes := by
  have hremotes : (append_dotenv answers plan.remote.token_var plan.token files).1.remotes = files.remotes :=
    and_then_keeps (fun files files' => files'.remotes = files.remotes) (fun _ _ _ h h' => h'.trans h) rfl
      fun _ => rfl
  rw [rest, and_then_ok_iff, append_dotenv, and_then_ok_iff, append_to_dotenv_ok_iff, append_to_dotenv_ok_iff]
  rw [← append_dotenv, declare_remote_ok_iff (hremotes.symm ▸ hload), hremotes, and_assoc]
  rfl

theorem rest_changes (hcomment : answers.comment = .done) (files : Files) :
    (rest engine answers plan files).1 ≠ files := by
  intro heq
  have hok : (append_to_dotenv token_comment answers.comment files).2 = .ok () :=
    (append_to_dotenv_ok_iff _ _ _).mpr hcomment
  have hlonger : (files.dotenv.getD []).length <
      ((append_to_dotenv token_comment answers.comment files).1.dotenv.getD []).length := by
    rw [hcomment]
    exact append_line_done_length files.dotenv token_comment
  have hextends : Extends (append_to_dotenv token_comment answers.comment files).1
      (rest engine answers plan files).1 := by
    rw [rest, append_dotenv, and_then_of_ok hok]
    exact and_then_keeps Extends Extends.trans (append_to_dotenv_extends _ _ _) fun files =>
      declare_remote_extends plan.remote files
  rw [heq] at hextends
  exact absurd hextends.2 (not_le_of_gt hlonger)

theorem rest_clean_iff {remotes : Remotes} (hload : load_remotes engine true files.remotes = .ok remotes) :
    Clean files (rest engine answers plan files) ↔
      if answers.comment = .done then Written answers plan files.remotes
      else (append_line files.dotenv token_comment answers.comment).1 = files.dotenv := by
  by_cases hcomment : answers.comment = .done
  · rw [if_pos hcomment, clean_iff_ok (rest_changes hcomment files), rest_ok_iff hload]
  · rw [if_neg hcomment]
    have hfails : (append_to_dotenv token_comment answers.comment files).2 = .error .writing_dotenv := by
      simp [append_to_dotenv, append_line_ok, hcomment]
    have hrest : rest engine answers plan files =
        ((append_to_dotenv token_comment answers.comment files).1, .error .writing_dotenv) := by
      rw [rest, append_dotenv, and_then_of_error hfails, and_then_of_error rfl]
    rw [hrest]
    constructor
    · exact fun hclean => congrArg Files.dotenv (hclean _ rfl)
    · rintro heq error -
      simp [append_to_dotenv, heq]

/-- What is written once the container runs is undone by a failure exactly when there is
    nothing to undo. -/
theorem record_clean_iff {remotes : Remotes} (hload : load_remotes engine true files.remotes = .ok remotes) :
    Clean files (record engine answers plan files) ↔ Recovers engine answers plan files := by
  unfold Recovers
  cases hexisting : plan.existing.isSome with
  | true =>
    rw [if_pos rfl, record, hexisting, if_pos rfl]
    exact declare_remote_clean_iff hload
  | false =>
    rw [if_neg Bool.false_ne_true, record_of_new hexisting]
    cases hexclude : plan.exclude with
    | false =>
      rw [if_neg Bool.false_ne_true, and_then_of_ok rfl]
      exact rest_clean_iff hload
    | true =>
      rw [if_pos rfl]
      by_cases hwrite : answers.exclude = .done
      · have hok : (append_exclude answers true files).2 = .ok () := by
          simp [append_exclude, append_line_ok, hwrite]
        have hlonger : (files.exclude.getD []).length <
            ((append_exclude answers true files).1.exclude.getD []).length := by
          rw [append_exclude, if_pos rfl, hwrite]
          exact append_line_done_length files.exclude _
        have hne : (rest engine answers plan (append_exclude answers true files).1).1 ≠ files := by
          intro heq
          have hextends : Extends (append_exclude answers true files).1
              (rest engine answers plan (append_exclude answers true files).1).1 := rest_extends _
          rw [heq] at hextends
          rw [← hextends.1] at hlonger
          exact absurd hlonger (lt_irrefl _)
        rw [if_pos hwrite, and_then_of_ok hok, clean_iff_ok hne]
        have hload' : load_remotes engine true (append_exclude answers true files).1.remotes = .ok remotes := hload
        exact rest_ok_iff hload'
      · have hfails : (append_exclude answers true files).2 = .error .excluding_dotenv := by
          simp [append_exclude, append_line_ok, hwrite]
        rw [if_neg hwrite, and_then_of_error hfails]
        constructor
        · exact fun hclean => congrArg Files.exclude (hclean _ rfl)
        · rintro heq error -
          rw [append_exclude, if_pos rfl]
          dsimp only
          rw [heq]

theorem runner_remote_cases {readable : Bool} {file : Option Text} {remote : RunnerRemote}
    (h : runner_remote engine readable file = .ok remote) :
    ∃ remotes, load_remotes engine readable file = .ok remotes ∧
      ((∃ spec template, adopted engine remotes = some (remote.name, spec) ∧ spec.token = some template ∧
          (engine.collect_var_refs template).head? = some remote.token_var ∧ remote.change = .none) ∨
        (∃ spec, adopted engine remotes = some (remote.name, spec) ∧ remote.token_var = TOKEN_VAR ∧
          remote.change = .token) ∨
        (adopted engine remotes = none ∧ remote.name = REMOTE_NAME ∧ remote.token_var = TOKEN_VAR ∧
          remote.change = .entry)) := by
  unfold runner_remote at h
  cases hload : load_remotes engine readable file with
  | error error =>
    rw [hload] at h
    cases h
  | ok remotes =>
    rw [hload] at h
    refine ⟨remotes, rfl, ?_⟩
    dsimp only [bind, Except.bind] at h
    cases hadopted : adopted engine remotes with
    | none =>
      rw [hadopted] at h
      cases h
      exact .inr (.inr ⟨rfl, rfl, rfl, rfl⟩)
    | some found =>
      obtain ⟨name, spec⟩ := found
      rw [hadopted] at h
      dsimp only at h
      cases htoken : spec.token with
      | none =>
        rw [htoken] at h
        cases h
        exact .inr (.inl ⟨spec, rfl, rfl, rfl⟩)
      | some template =>
        rw [htoken] at h
        dsimp only at h
        cases hrefs : (engine.collect_var_refs template).head? with
        | none =>
          rw [hrefs] at h
          cases h
        | some token_var =>
          rw [hrefs] at h
          cases h
          exact .inl ⟨spec, template, rfl, htoken, hrefs, rfl⟩

theorem runner_remote_of_adopted {file : Option Text} {remotes : Remotes} {name template token_var : Text}
    {spec : RemoteSpec} (hload : load_remotes engine true file = .ok remotes)
    (hadopted : adopted engine remotes = some (name, spec)) (htoken : spec.token = some template)
    (hrefs : (engine.collect_var_refs template).head? = some token_var) :
    runner_remote engine true file = .ok { name, token_var, change := .none } := by
  unfold runner_remote
  rw [hload]
  dsimp only [bind, Except.bind]
  rw [hadopted]
  dsimp only
  rw [htoken]
  dsimp only
  rw [hrefs]

theorem adopted_map (change : Text × RemoteSpec → Text × RemoteSpec) (hname : ∀ entry, (change entry).1 = entry.1)
    (hurl : ∀ entry, (change entry).2.url = entry.2.url) (remotes : Remotes) :
    adopted engine { remotes with remotes := remotes.remotes.map change } = (adopted engine remotes).map change := by
  have haddress : (fun entry : Text × RemoteSpec => is_runner_url engine entry.2.url) ∘ change =
      fun entry => is_runner_url engine entry.2.url := funext fun entry => by simp [hurl]
  have hlocal : (fun entry : Text × RemoteSpec => decide (entry.1 = REMOTE_NAME)) ∘ change =
      fun entry => decide (entry.1 = REMOTE_NAME) := funext fun entry => by simp [hname]
  unfold adopted
  dsimp only
  rw [List.filter_map, haddress, List.find?_map, hlocal, List.head?_map, Option.map_or]

/-- The reference that a declared server has for its token. -/
def token_template : Text := "$\x7bEL_RUNNER_TOKEN\x7d".toList

theorem adopted_declared {remotes : Remotes} {remote : RunnerRemote} (hvar : remote.token_var = TOKEN_VAR)
    (hurl : is_runner_url engine "http://127.0.0.1:7431".toList = true)
    (h : (∃ spec, adopted engine remotes = some (remote.name, spec) ∧ remote.change = .token) ∨
      (adopted engine remotes = none ∧ remote.name = REMOTE_NAME ∧ remote.change = .entry)) :
    ∃ spec, adopted engine (declared remotes remote) = some (remote.name, spec) ∧
      spec.token = some token_template := by
  have htemplate : "$\x7b".toList ++ remote.token_var ++ "\x7d".toList = token_template := by
    rw [hvar]
    decide
  unfold declared
  rw [htemplate]
  rcases h with ⟨spec, hadopted, hchange⟩ | ⟨hadopted, hname, hchange⟩
  · have hmap : adopted engine _ = _ := adopted_map
      (fun entry =>
        (entry.1, if entry.1 = remote.name then { entry.2 with token := some token_template } else entry.2))
      (fun _ => rfl) (fun entry => by dsimp only; split <;> rfl) remotes
    rw [hchange]
    refine ⟨_, hmap.trans (congrArg _ hadopted), ?_⟩
    simp
  · have hnone : (remotes.remotes.filter fun entry => is_runner_url engine entry.2.url) = [] :=
      List.head?_eq_none_iff.mp (Option.or_eq_none_iff.mp hadopted).2
    have hothers : ((remotes.remotes.filter (·.1 ≠ REMOTE_NAME)).filter fun entry =>
        is_runner_url engine entry.2.url) = [] := by
      rw [List.filter_comm, hnone, List.filter_nil]
    have hself : ∀ entry : Text × RemoteSpec, entry.2.url = "http://127.0.0.1:7431".toList →
        [entry].filter (fun entry => is_runner_url engine entry.2.url) = [entry] := fun entry hentry => by
      rw [List.filter_cons_of_pos (by rw [hentry]; exact hurl), List.filter_nil]
    rw [hchange, hname, adopted]
    dsimp only
    rw [List.filter_append, hothers, List.nil_append, hself _ rfl]
    exact ⟨_, rfl, rfl⟩

theorem record_ok_dotenv (h : (record engine answers plan files).2 = .ok ()) :
    (record engine answers plan files).1.dotenv =
      if plan.existing.isSome then files.dotenv else with_token files.dotenv plan.remote.token_var plan.token := by
  have hdeclare : ∀ files, (declare_remote engine answers plan.remote files).1.dotenv = files.dotenv := by
    intro files
    unfold declare_remote
    split
    · rfl
    · split <;> rfl
  cases hexisting : plan.existing.isSome with
  | true =>
    rw [record, hexisting, if_pos rfl, if_pos rfl]
    exact hdeclare files
  | false =>
    rw [record_of_new hexisting, and_then_ok_iff] at h
    obtain ⟨hexclude, hrest⟩ := h
    rw [rest, and_then_ok_iff] at hrest
    obtain ⟨hdotenv, -⟩ := hrest
    have hboth := hdotenv
    rw [append_dotenv, and_then_ok_iff, append_to_dotenv_ok_iff, append_to_dotenv_ok_iff] at hboth
    have hsame : (append_exclude answers plan.exclude files).1.dotenv = files.dotenv := by
      unfold append_exclude
      split <;> rfl
    rw [record_of_new hexisting, and_then_of_ok hexclude, rest, and_then_of_ok hdotenv, hdeclare, append_dotenv]
    rw [and_then_of_ok ((append_to_dotenv_ok_iff _ _ _).mpr hboth.1), hboth.1, hboth.2, if_neg Bool.false_ne_true]
    rw [with_token, ← hsame]
    rfl

theorem record_ok_remotes {remotes : Remotes} (hload : load_remotes engine true files.remotes = .ok remotes)
    (h : (record engine answers plan files).2 = .ok ()) :
    (record engine answers plan files).1.remotes =
      if plan.remote.change = .none then files.remotes
      else some (engine.to_canonical_remotes_yaml (declared remotes plan.remote)) := by
  have hdeclare : ∀ before : Files, before.remotes = files.remotes →
      (declare_remote engine answers plan.remote before).2 = .ok () →
      (declare_remote engine answers plan.remote before).1.remotes =
        if plan.remote.change = .none then files.remotes
        else some (engine.to_canonical_remotes_yaml (declared remotes plan.remote)) := by
    intro before hbefore hok
    have hload' : load_remotes engine true before.remotes = .ok remotes := hbefore.symm ▸ hload
    obtain ⟨hreread, hwrite⟩ := (declare_remote_ok_iff hload').mp hok
    rw [declare_remote_readable hreread hload']
    by_cases hchange : plan.remote.change = .none
    · rw [if_pos hchange, if_pos hchange, hbefore]
    · rw [if_neg hchange, if_neg hchange, hwrite.resolve_left hchange]
      rfl
  cases hexisting : plan.existing.isSome with
  | true =>
    rw [record, hexisting, if_pos rfl] at h ⊢
    exact hdeclare files rfl h
  | false =>
    rw [record_of_new hexisting, and_then_ok_iff] at h
    obtain ⟨hexclude, hrest⟩ := h
    rw [rest, and_then_ok_iff] at hrest
    obtain ⟨hdotenv, hlast⟩ := hrest
    rw [record_of_new hexisting, and_then_of_ok hexclude, rest, and_then_of_ok hdotenv]
    refine hdeclare _ ?_ hlast
    have hsame : (append_exclude answers plan.exclude files).1.remotes = files.remotes := by
      unfold append_exclude
      split <;> rfl
    rw [← hsame]
    exact and_then_keeps (fun files files' => files'.remotes = files.remotes) (fun _ _ _ h h' => h'.trans h) rfl
      fun _ => rfl

theorem record_ok_iff {remotes : Remotes} (hload : load_remotes engine true files.remotes = .ok remotes) :
    (record engine answers plan files).2 = .ok () ↔
      if plan.existing.isSome then Declares answers plan.remote files.remotes
      else (plan.exclude = true → answers.exclude = .done) ∧ Written answers plan files.remotes := by
  cases hexisting : plan.existing.isSome with
  | true =>
    rw [record, hexisting, if_pos rfl, if_pos rfl]
    exact declare_remote_ok_iff hload
  | false =>
    have hexclude : (append_exclude answers plan.exclude files).2 = .ok () ↔
        (plan.exclude = true → answers.exclude = .done) := by
      unfold append_exclude
      cases plan.exclude <;> simp [append_line_ok]
    have hsame : (append_exclude answers plan.exclude files).1.remotes = files.remotes := by
      unfold append_exclude
      split <;> rfl
    rw [record_of_new hexisting, and_then_ok_iff, hexclude, rest_ok_iff (hsame.symm ▸ hload), hsame]
    rw [if_neg Bool.false_ne_true]

theorem ok_of_bind_ok {α β : Type} {first : Except StartError α} {next : α → Except StartError β} {b : β}
    (h : first >>= next = .ok b) : ∃ a, first = .ok a ∧ next a = .ok b := by
  cases first with
  | error error => cases h
  | ok a => exact ⟨a, rfl, h⟩

theorem prepare_cases (h : prepare engine answers files = .ok plan) :
    runner_remote engine answers.remotes_readable files.remotes = .ok plan.remote ∧
      plan.existing = existing_token engine files.dotenv plan.remote.token_var ∧
      plan.token = plan.existing.getD (new_token answers.random) := by
  obtain ⟨remote, hremote, h⟩ := ok_of_bind_ok h
  obtain ⟨exclude, -, h⟩ := ok_of_bind_ok h
  obtain ⟨oracle, -, h⟩ := ok_of_bind_ok h
  cases h
  exact ⟨hremote, rfl, rfl⟩

end

def IsVar (name : Text) : Prop := ∀ c ∈ name, c.isAlphanum = true ∨ c = '_'

/-- What the runner relies on: a reference names a variable, a variable without a value
    has the one that is appended to `.env`, and the runner's own address and reference
    are read as they are written. -/
structure Engine.Documented (engine : Engine) : Prop where
  names : ∀ template, ∀ token_var ∈ engine.collect_var_refs template, IsVar token_var
  appended : ∀ dotenv token_var random, IsVar token_var → engine.env_get dotenv token_var = none →
    engine.env_get (with_token dotenv token_var (new_token random)) token_var = some (new_token random)
  template : (engine.collect_var_refs token_template).head? = some TOKEN_VAR
  url : engine.parse_url "http://127.0.0.1:7431".toList =
    some { scheme := "http".toList, host := some (.ipv4 true), port := some PORT, path := ['/'] }

def ReadsBack (engine : Engine) (file : Option Text) : Prop :=
  ∀ remotes remote, load_remotes engine true file = .ok remotes → runner_remote engine true file = .ok remote →
    engine.load_remotes (engine.to_canonical_remotes_yaml (declared remotes remote)) = some (declared remotes remote)

/-- A variable that is set but blank takes the value that is appended to `.env`, when all
    is written. -/
def TakesOver (engine : Engine) (answers : Answers) (plan : Plan) (files : Files) : Prop :=
  plan.existing = none → (plan.exclude = true → answers.exclude = .done) → Written answers plan files.remotes →
    engine.env_get files.dotenv plan.remote.token_var ≠ none →
    engine.env_get (with_token files.dotenv plan.remote.token_var plan.token) plan.remote.token_var = some plan.token

section

variable {engine : Engine} {answers : Answers} {files : Files} {plan : Plan} {project_root : Path} {image : Text}
  {docker : Docker}

theorem start_of_runs (hprepare : prepare engine answers files = .ok plan)
    (hruns : Runs answers project_root image docker plan) :
    start engine answers project_root image docker files =
      (((docker.rm (container_name project_root) answers.rm).run
        ⟨project_root, image, plan.oracle, plan.token⟩ answers.run).1, record engine answers plan files) := by
  obtain ⟨hrm, hrun⟩ := hruns
  unfold start
  rw [hprepare]
  dsimp only
  rw [if_neg hrm]
  split
  · rename_i heq
    rw [heq] at hrun
    cases hrun
  · rename_i heq
    rw [heq] at hrun
    cases hrun
  · rename_i heq
    rw [heq]

theorem start_of_not_runs (hprepare : prepare engine answers files = .ok plan)
    (hruns : ¬Runs answers project_root image docker plan) :
    Restores engine answers project_root image docker files := by
  unfold Restores start
  rw [hprepare]
  dsimp only
  by_cases hrm : answers.rm = .absent
  · rw [if_pos hrm]
  · rw [if_neg hrm]
    cases hrun : (docker.rm (container_name project_root) answers.rm).run
        ⟨project_root, image, plan.oracle, plan.token⟩ answers.run with
    | mk docker' answer =>
      cases answer with
      | absent => rfl
      | failed stderr created => rfl
      | done => exact absurd ⟨hrm, by rw [hrun]⟩ hruns

theorem start_of_unprepared {error : StartError} (hprepare : prepare engine answers files = .error error) :
    Restores engine answers project_root image docker files := by
  unfold Restores start
  rw [hprepare]

theorem run_holds {request : Request} {answer : Answer} (h : (docker.run request answer).2 = .done) :
    request.held true ∈ (docker.run request answer).1.held := by
  unfold Docker.run at h ⊢
  split at h
  · rename_i hfree
    rw [dif_pos hfree]
    cases answer with
    | absent => cases h
    | failed stderr created => cases h
    | done => exact List.mem_cons_self
  · cases answer <;> cases h

theorem resolves_iff {docker' : Docker} {files' : Files} {request : Request} {remote : RunnerRemote}
    (hheld : request.held true ∈ docker'.held) (hremote : runner_remote engine true files'.remotes = .ok remote) :
    Resolves engine request.project_root docker' files' ↔
      engine.env_get files'.dotenv remote.token_var = some request.token := by
  constructor
  · rintro ⟨held, hmem, hname, request', hstarted, remote', hremote', htoken⟩
    obtain rfl : held = request.held true := List.inj_on_of_nodup_map docker'.nodup hmem hheld hname
    obtain rfl : request = request' := Option.some.inj hstarted
    obtain rfl : remote = remote' := Except.ok.inj (hremote.symm.trans hremote')
    exact htoken
  · exact fun htoken => ⟨_, hheld, rfl, request, rfl, remote, hremote, htoken⟩

theorem is_runner_url_own (hengine : engine.Documented) :
    is_runner_url engine "http://127.0.0.1:7431".toList = true := by
  have htrim : trim "http://127.0.0.1:7431".toList = "http://127.0.0.1:7431".toList := by decide
  rw [is_runner_url, htrim, hengine.url]
  decide

theorem load_remotes_readable {readable : Bool} {file : Option Text} {remotes : Remotes}
    (h : load_remotes engine readable file = .ok remotes) : load_remotes engine true file = .ok remotes := by
  cases file with
  | none => exact h
  | some text =>
    cases readable with
    | true => exact h
    | false => cases h

theorem runner_remote_readable {readable : Bool} {file : Option Text} {remote : RunnerRemote}
    (h : runner_remote engine readable file = .ok remote) : runner_remote engine true file = .ok remote := by
  obtain ⟨remotes, hload, -⟩ := runner_remote_cases h
  rw [runner_remote, hload] at h
  rw [runner_remote, load_remotes_readable hload]
  exact h

theorem remote_after (hengine : engine.Documented) (hyaml : ReadsBack engine files.remotes)
    (hremote : runner_remote engine true files.remotes = .ok plan.remote)
    (h : (record engine answers plan files).2 = .ok ()) :
    ∃ remote, runner_remote engine true (record engine answers plan files).1.remotes = .ok remote ∧
      remote.token_var = plan.remote.token_var := by
  obtain ⟨remotes, hload, hcases⟩ := runner_remote_cases hremote
  have hread := hyaml remotes plan.remote hload hremote
  rw [record_ok_remotes hload h]
  have hwritten : ∀ hchange : plan.remote.change ≠ .none, plan.remote.token_var = TOKEN_VAR →
      (∃ spec, adopted engine remotes = some (plan.remote.name, spec) ∧ plan.remote.change = .token) ∨
        (adopted engine remotes = none ∧ plan.remote.name = REMOTE_NAME ∧ plan.remote.change = .entry) →
      ∃ remote, runner_remote engine true (if plan.remote.change = .none then files.remotes
          else some (engine.to_canonical_remotes_yaml (declared remotes plan.remote))) = .ok remote ∧
        remote.token_var = plan.remote.token_var := by
    intro hchange hvar hfound
    obtain ⟨spec, hadopted, htoken⟩ := adopted_declared hvar (is_runner_url_own hengine) hfound
    have hload' : load_remotes engine true
        (some (engine.to_canonical_remotes_yaml (declared remotes plan.remote))) =
          .ok (declared remotes plan.remote) := by
      rw [load_remotes, if_pos rfl, hread]
    rw [if_neg hchange]
    exact ⟨_, runner_remote_of_adopted hload' hadopted htoken hengine.template, hvar.symm⟩
  rcases hcases with ⟨spec, template, hadopted, htoken, hrefs, hchange⟩ | ⟨spec, hadopted, hvar, hchange⟩ |
    ⟨hadopted, hname, hvar, hchange⟩
  · rw [if_pos hchange]
    exact ⟨plan.remote, hremote, rfl⟩
  · exact hwritten (by rw [hchange]; decide) hvar (.inl ⟨spec, hadopted, hchange⟩)
  · exact hwritten (by rw [hchange]; decide) hvar (.inr ⟨hadopted, hname, hchange⟩)

theorem token_var_is_var (hengine : engine.Documented) {readable : Bool} {file : Option Text}
    {remote : RunnerRemote} (h : runner_remote engine readable file = .ok remote) : IsVar remote.token_var := by
  have hown : IsVar TOKEN_VAR := forall_mem_of_all (by decide)
  obtain ⟨remotes, -, hcases⟩ := runner_remote_cases h
  rcases hcases with ⟨spec, template, -, -, hrefs, -⟩ | ⟨spec, -, hvar, -⟩ | ⟨-, -, hvar, -⟩
  · exact hengine.names template _ (List.mem_of_mem_head? hrefs)
  · exact hvar ▸ hown
  · exact hvar ▸ hown

theorem env_after_iff (hengine : engine.Documented) (hprepare : prepare engine answers files = .ok plan)
    (h : (record engine answers plan files).2 = .ok ()) :
    engine.env_get (record engine answers plan files).1.dotenv plan.remote.token_var = some plan.token ↔
      TakesOver engine answers plan files := by
  obtain ⟨hremote, hexisting, htoken⟩ := prepare_cases hprepare
  obtain ⟨remotes, hload, -⟩ := runner_remote_cases (runner_remote_readable hremote)
  have hok := (record_ok_iff hload).mp h
  rw [record_ok_dotenv h]
  cases hcase : plan.existing with
  | some token =>
    rw [hcase, existing_token] at hexisting
    rw [hcase] at htoken
    rw [Option.isSome_some, if_pos rfl, htoken]
    refine iff_of_true (Option.filter_eq_some_iff.mp hexisting.symm).1 fun hnone => ?_
    rw [hcase] at hnone
    cases hnone
  | none =>
    rw [hcase] at hok htoken
    rw [Option.isSome_none, if_neg Bool.false_ne_true] at hok ⊢
    constructor
    · exact fun hafter _ _ _ _ => hafter
    · intro htakes
      by_cases hunset : engine.env_get files.dotenv plan.remote.token_var = none
      · rw [htoken]
        exact hengine.appended _ _ _ (token_var_is_var hengine hremote) hunset
      · exact htakes hcase hok.1 hok.2 hunset

/-- A start restores the project, or shares its token, exactly when no write but the first
    one fails after the container runs and a blank value gives way to the new token. -/
theorem start_restores_iff (engine : Engine) (answers : Answers) (project_root : Path) (image : Text)
    (docker : Docker) (files : Files) (hengine : engine.Documented) (hyaml : ReadsBack engine files.remotes) :
    Restores engine answers project_root image docker files ↔
      ∀ plan, prepare engine answers files = .ok plan → Runs answers project_root image docker plan →
        Recovers engine answers plan files ∧ TakesOver engine answers plan files := by
  cases hprepare : prepare engine answers files with
  | error error => simp [start_of_unprepared hprepare]
  | ok plan =>
    by_cases hruns : Runs answers project_root image docker plan
    · obtain ⟨hremote, -, -⟩ := prepare_cases hprepare
      have hremote' := runner_remote_readable hremote
      obtain ⟨remotes, hload, -⟩ := runner_remote_cases hremote'
      have hclean : Clean files (record engine answers plan files) ↔ Recovers engine answers plan files :=
        record_clean_iff hload
      have hplan : Restores engine answers project_root image docker files ↔
          Clean files (record engine answers plan files) ∧ TakesOver engine answers plan files := by
        rw [Restores, start_of_runs hprepare hruns]
        cases hresult : (record engine answers plan files).2 with
        | error error =>
          have hfails : (record engine answers plan files).2 ≠ .ok () := by simp [hresult]
          have htakes : TakesOver engine answers plan files := by
            intro hexisting hexclude hwritten
            refine absurd ((record_ok_iff hload).mpr ?_) hfails
            rw [hexisting, Option.isSome_none, if_neg Bool.false_ne_true]
            exact ⟨hexclude, hwritten⟩
          rw [and_iff_left htakes]
          have hsplit : record engine answers plan files = ((record engine answers plan files).1, .error error) :=
            Prod.ext rfl hresult
          rw [hsplit]
          exact ⟨fun heq _ _ => heq, fun hclean => hclean error rfl⟩
        | ok value =>
          obtain ⟨remote, hafter, hvar⟩ := remote_after hengine hyaml hremote' hresult
          have hsplit : record engine answers plan files = ((record engine answers plan files).1, .ok ()) :=
            Prod.ext rfl hresult
          rw [and_iff_right (clean_of_ok hresult), ← env_after_iff hengine hprepare hresult, ← hvar]
          rw [← resolves_iff (run_holds hruns.2) hafter, hsplit]
      rw [hplan, hclean]
      refine ⟨fun h plan' heq _ => ?_, fun h => h plan rfl hruns⟩
      rwa [← Except.ok.inj heq]
    · refine iff_of_true (start_of_not_runs hprepare hruns) fun plan' heq hruns' => ?_
      rw [← Except.ok.inj heq] at hruns'
      exact absurd hruns' hruns

end

theorem with_token_eq (dotenv : Option Text) (key value : Text) :
    ∃ before, with_token dotenv key value = some (before ++ '\n' :: (key ++ '=' :: value) ++ ['\n']) := by
  generalize hfirst : (append_line dotenv token_comment .done).1 = first
  obtain ⟨before, hbefore⟩ : ∃ before, first = some (before ++ ['\n']) := by
    rw [← hfirst]
    exact ⟨_, congrArg some (List.append_assoc _ _ _).symm⟩
  refine ⟨before, ?_⟩
  have hlast : (before ++ ['\n']).getLast? = some '\n' := by simp
  rw [with_token, hfirst, hbefore]
  simp [append_line]

/-- The value of a variable in the last line of a `.env`. -/
def last_value (dotenv : Option Text) (key : Text) : Option Text :=
  dotenv.bind fun text =>
    let line := text.dropLast.rtakeWhile (· ≠ '\n')
    if key ++ ['='] <+: line then some (line.drop (key.length + 1)) else none

theorem last_value_with_token (dotenv : Option Text) {key value : Text} (hkey : '\n' ∉ key)
    (hvalue : '\n' ∉ value) : last_value (with_token dotenv key value) key = some value := by
  obtain ⟨before, heq⟩ := with_token_eq dotenv key value
  have hline : ∀ c ∈ (key ++ '=' :: value).reverse, decide (c ≠ '\n') = true := by
    intro c hc
    rw [List.mem_reverse, List.mem_append, List.mem_cons] at hc
    rcases hc with hc | rfl | hc
    · simpa using fun heq : c = '\n' => hkey (heq ▸ hc)
    · decide
    · simpa using fun heq : c = '\n' => hvalue (heq ▸ hc)
  have htake : (before ++ '\n' :: (key ++ '=' :: value)).rtakeWhile (· ≠ '\n') = key ++ '=' :: value := by
    rw [List.rtakeWhile, List.reverse_append, List.reverse_cons, List.append_assoc,
      List.takeWhile_append_of_pos hline]
    simp
  rw [last_value, heq, Option.bind_some, List.dropLast_concat]
  dsimp only
  rw [htake]
  simp

theorem new_token_line (random : Fin 32 → UInt8) : '\n' ∉ new_token random := by
  have hdigit : ∀ n < 16, Nat.digitChar n ≠ '\n' := by decide
  intro hmem
  obtain ⟨byte, -, hbyte⟩ := List.mem_flatMap.mp hmem
  have hbound := byte.toNat_lt
  rcases List.mem_pair.mp hbyte with heq | heq
  · exact hdigit _ (by omega) heq.symm
  · exact hdigit _ (by omega) heq.symm

/-- The servers of a project that has the runner only, and the file that declares it. -/
def ownRemotes : Remotes where
  version := 1
  remotes := [("localhost".toList,
    { url := "http://127.0.0.1:7431".toList, token := some token_template, live := true, extra := [] })]
  extra := []

def ownYaml : Text :=
  "version: 1\nremotes:\n  localhost:\n    url: http://127.0.0.1:7431\n    token: ".toList ++ token_template ++
    "\n    live: true\n".toList

/-- An environment with no variables but the last one of `.env`. -/
def sampleEngine : Engine where
  env_get := last_value
  collect_var_refs := fun template => if template = token_template then [TOKEN_VAR] else []
  load_remotes := fun text => if text = ownYaml then some ownRemotes else none
  to_canonical_remotes_yaml := fun remotes => if remotes = ownRemotes then ownYaml else []
  parse_url := fun url =>
    if url = "http://127.0.0.1:7431".toList then
      some { scheme := "http".toList, host := some (.ipv4 true), port := some PORT, path := ['/'] }
    else none

theorem sampleEngine_documented : sampleEngine.Documented where
  names := by
    have hown : IsVar TOKEN_VAR := forall_mem_of_all (by decide)
    intro template token_var hmem
    unfold sampleEngine at hmem
    dsimp only at hmem
    split at hmem
    · exact List.mem_singleton.mp hmem ▸ hown
    · cases hmem
  appended := by
    intro dotenv token_var random hvar _
    refine last_value_with_token dotenv (fun hmem => ?_) (new_token_line random)
    have hnot : ¬('\n'.isAlphanum = true ∨ '\n' = '_') := by decide
    exact hnot (hvar _ hmem)
  template := rfl
  url := rfl

theorem sampleEngine_readsBack : ReadsBack sampleEngine none := by
  intro remotes remote hload hremote
  cases hload
  cases hremote
  decide

theorem start_restores_sample :
    Restores sampleEngine smooth [.unicode "shop".toList] "el-serve".toList emptyWorld.docker
        (emptyWorld.files []) ↔
      ∀ plan, prepare sampleEngine smooth (emptyWorld.files []) = .ok plan →
        Runs smooth [.unicode "shop".toList] "el-serve".toList emptyWorld.docker plan →
        Recovers sampleEngine smooth plan (emptyWorld.files []) ∧
          TakesOver sampleEngine smooth plan (emptyWorld.files []) :=
  start_restores_iff sampleEngine smooth _ _ _ _ sampleEngine_documented sampleEngine_readsBack

/-- A start that cannot write `el/remotes.yml` in the end leaves the token in `.env`. -/
theorem start_leaves_token :
    ¬Restores sampleEngine { smooth with remotes := .refused } [.unicode "shop".toList] "el-serve".toList
      emptyWorld.docker (emptyWorld.files []) := by
  intro h
  have hdotenv := congrArg Files.dotenv h
  revert hdotenv
  decide

end zed.dbt_ui.el.local_runner
