import Zed.DbtUi.El.Scaffold

namespace zed.dbt_ui.el.scaffold

section Files

variable {Content Text Scalar : Type} {env : Env Content Text Scalar} {allows : Path → Bool} {disk later : Disk Content}

/-- The files after an action, also one that failed. -/
def state : Except (String × Run Content) (Run Content) → Run Content
  | .ok run => run
  | .error (_, run) => run

/-- What one disk has, the other one has too, the settings apart. -/
def Within (disk later : Disk Content) : Prop :=
  ∀ path entry, path ≠ SETTINGS → disk path = some entry → later path = some entry

/-- An action that only adds to the disk, nothing to the settings, and has nothing to do once it was done. -/
structure Careful (action : (Path → Bool) → Action Content) : Prop where
  keeps : ∀ allows run, Within run.disk (state (action allows run)).disk
  settings : ∀ allows run, (state (action allows run)).disk SETTINGS = run.disk SETTINGS
  settled : ∀ allows run next, action allows run = .ok next → ∀ allows' later, Within next.disk later.disk →
    action allows' later = .ok later

theorem within_update {path : Path} {entry : Option (Entry Content)} (hnone : disk path = none) :
    Within disk (Function.update disk path entry) := by
  intro other held _ hheld
  rw [Function.update_of_ne]
  · exact hheld
  · rintro rfl
    rw [hnone] at hheld
    cases hheld

theorem Careful.bind {first second : (Path → Bool) → Action Content} (h : Careful first) (h' : Careful second) :
    Careful fun allows run => first allows run >>= second allows where
  keeps allows run := by
    have hfirst := h.keeps allows run
    cases hrun : first allows run with
    | error error =>
      rw [hrun] at hfirst
      exact hfirst
    | ok next =>
      rw [hrun] at hfirst
      exact fun path entry hpath hentry => h'.keeps allows next path entry hpath (hfirst path entry hpath hentry)
  settings allows run := by
    have hfirst := h.settings allows run
    cases hrun : first allows run with
    | error error =>
      rw [hrun] at hfirst
      exact hfirst
    | ok next =>
      rw [hrun] at hfirst
      exact (h'.settings allows next).trans hfirst
  settled allows run last hlast allows' later hlater := by
    cases hrun : first allows run with
    | error error =>
      rw [hrun] at hlast
      cases hlast
    | ok next =>
      rw [hrun] at hlast
      have hlast : second allows next = .ok last := hlast
      have hwithin : Within next.disk last.disk := by
        have hkeeps := h'.keeps allows next
        rwa [hlast] at hkeeps
      have hagain := h.settled allows run next hrun allows' later
        fun path entry hpath hentry => hlater path entry hpath (hwithin path entry hpath hentry)
      change first allows' later >>= second allows' = _
      rw [hagain]
      exact h'.settled allows next last hlast allows' later hlater

variable (allows) in
theorem make_dirs_spec (disk : Disk Content) (path rest : Path) (hsettings : ∀ below, below <+: rest → path ++ below ≠ SETTINGS) :
    ∃ made, (make_dirs allows disk path rest = .ok made ∧
        ∀ below, below ≠ [] → below <+: rest → made (path ++ below) = some .dir) ∧
          Within disk made ∧ made SETTINGS = disk SETTINGS ∨
      make_dirs allows disk path rest = .error made ∧ Within disk made ∧ made SETTINGS = disk SETTINGS := by
  induction rest generalizing path disk with
  | nil =>
    refine ⟨disk, Or.inl ⟨⟨rfl, fun below hne hbelow => ?_⟩, fun _ _ _ hentry => hentry, rfl⟩⟩
    exact absurd (List.prefix_nil.mp hbelow) hne
  | cons name rest ih =>
    have hdirs : ∀ {disk made : Disk Content}, disk (path ++ [name]) = some .dir → Within disk made →
        (∀ below, below ≠ [] → below <+: rest → made (path ++ [name] ++ below) = some .dir) →
        ∀ below, below ≠ [] → below <+: name :: rest → made (path ++ below) = some .dir := by
      intro disk made hdir hwithin hmade below hne hbelow
      cases below with
      | nil => exact absurd rfl hne
      | cons first below =>
        obtain ⟨rfl, hunder⟩ := List.cons_prefix_cons.mp hbelow
        cases below with
        | nil => exact hwithin _ _ (hsettings [first] (List.cons_prefix_cons.mpr ⟨rfl, List.nil_prefix⟩)) hdir
        | cons next below =>
          have hnext := hmade (next :: below) (List.cons_ne_nil _ _) hunder
          rwa [List.append_assoc] at hnext
    have hrest : ∀ below, below <+: rest → path ++ [name] ++ below ≠ SETTINGS := by
      intro below hbelow
      rw [List.append_assoc]
      exact hsettings (name :: below) (List.cons_prefix_cons.mpr ⟨rfl, hbelow⟩)
    rw [make_dirs]
    cases hentry : disk (path ++ [name]) with
    | some entry =>
      cases entry with
      | dir =>
        obtain ⟨made, ⟨⟨hok, hmade⟩, hwithin, hsame⟩ | herror⟩ := ih disk (path ++ [name]) hrest
        · exact ⟨made, Or.inl ⟨⟨hok, hdirs hentry hwithin hmade⟩, hwithin, hsame⟩⟩
        · exact ⟨made, Or.inr herror⟩
      | file content => exact ⟨disk, Or.inr ⟨rfl, fun _ _ _ hheld => hheld, rfl⟩⟩
    | none =>
      by_cases hallows : allows (path ++ [name]) = true
      · simp only [if_pos hallows]
        have hnew : Within disk (Function.update disk (path ++ [name]) (some .dir)) := within_update hentry
        have hkept : Function.update disk (path ++ [name]) (some .dir) SETTINGS = disk SETTINGS :=
          Function.update_of_ne (Ne.symm (hsettings [name] (List.cons_prefix_cons.mpr ⟨rfl, List.nil_prefix⟩))) _ _
        have htrans : ∀ {made : Disk Content}, Within (Function.update disk (path ++ [name]) (some .dir)) made →
            Within disk made := fun hwithin other held hpath hheld => hwithin other held hpath (hnew other held hpath hheld)
        obtain ⟨made, ⟨⟨hok, hmade⟩, hwithin, hsame⟩ | ⟨herror, hwithin, hsame⟩⟩ :=
          ih (Function.update disk (path ++ [name]) (some .dir)) (path ++ [name]) hrest
        · exact ⟨made, Or.inl ⟨⟨hok, hdirs (Function.update_self ..) hwithin hmade⟩, htrans hwithin, hsame.trans hkept⟩⟩
        · exact ⟨made, Or.inr ⟨herror, htrans hwithin, hsame.trans hkept⟩⟩
      · simp only [if_neg hallows]
        exact ⟨disk, Or.inr ⟨rfl, fun _ _ _ hheld => hheld, rfl⟩⟩

theorem make_dirs_of_dirs (path rest : Path)
    (hdirs : ∀ below, below ≠ [] → below <+: rest → disk (path ++ below) = some .dir) :
    make_dirs allows disk path rest = .ok disk := by
  induction rest generalizing path with
  | nil => rfl
  | cons name rest ih =>
    have hdir := hdirs [name] (List.cons_ne_nil _ _) (List.cons_prefix_cons.mpr ⟨rfl, List.nil_prefix⟩)
    rw [make_dirs, hdir]
    refine ih (path ++ [name]) fun below _ hbelow => ?_
    rw [List.append_assoc]
    exact hdirs (name :: below) (List.cons_ne_nil _ _) (List.cons_prefix_cons.mpr ⟨rfl, hbelow⟩)

theorem create_dir_all_careful (context : String) {path : Path} (hsettings : ∀ below, below <+: path → below ≠ SETTINGS) :
    Careful fun allows => (create_dir_all allows context path : Action Content) where
  keeps allows run := by
    obtain ⟨made, ⟨⟨hok, -⟩, hwithin, -⟩ | ⟨herror, hwithin, -⟩⟩ :=
      make_dirs_spec allows run.disk [] path hsettings
    · rw [create_dir_all, hok]
      exact hwithin
    · rw [create_dir_all, herror]
      exact hwithin
  settings allows run := by
    obtain ⟨made, ⟨⟨hok, -⟩, -, hsame⟩ | ⟨herror, -, hsame⟩⟩ :=
      make_dirs_spec allows run.disk [] path hsettings
    · rw [create_dir_all, hok]
      exact hsame
    · rw [create_dir_all, herror]
      exact hsame
  settled allows run next hnext allows' later hlater := by
    obtain ⟨made, ⟨⟨hok, hmade⟩, -, -⟩ | ⟨herror, -, -⟩⟩ :=
      make_dirs_spec allows run.disk [] path hsettings
    · rw [create_dir_all, hok] at hnext
      obtain rfl := Except.ok.inj hnext
      have hdirs : make_dirs allows' later.disk [] path = .ok later.disk :=
        make_dirs_of_dirs [] path fun below hne hbelow => hlater _ _ (hsettings below hbelow) (hmade below hne hbelow)
      rw [create_dir_all, hdirs]
    · rw [create_dir_all, herror] at hnext
      cases hnext

variable (env allows) in
theorem write_spec (path : Path) (contents : Text) (run : Run Content) :
    write env allows path contents run =
        .ok { run with disk := Function.update run.disk path (some (.file (env.of_text contents))) } ∨
      write env allows path contents run = .error ("writing " ++ env.display path, run) := by
  unfold write
  split
  · exact Or.inr rfl
  · split
    · exact Or.inl rfl
    · exact Or.inr rfl

theorem write_new_careful {path : Path} (contents : Text) (hsettings : path ≠ SETTINGS) :
    Careful fun allows => write_new env allows path contents where
  keeps allows run := by
    unfold write_new
    split
    · exact fun _ _ _ hentry => hentry
    · rename_i hnone
      obtain hok | herror := write_spec env allows path contents run
      · rw [hok]
        exact within_update (Option.not_isSome_iff_eq_none.mp hnone)
      · rw [herror]
        exact fun _ _ _ hentry => hentry
  settings allows run := by
    unfold write_new
    split
    · rfl
    · obtain hok | herror := write_spec env allows path contents run
      · rw [hok]
        exact Function.update_of_ne (Ne.symm hsettings) _ _
      · rw [herror]
        rfl
  settled allows run next hnext allows' later hlater := by
    have hthere : ∃ entry, next.disk path = some entry := by
      unfold write_new at hnext
      split at hnext
      · rename_i hsome
        obtain rfl := Except.ok.inj hnext
        exact Option.isSome_iff_exists.mp hsome
      · obtain hok | herror := write_spec env allows path contents run
        · rw [hok] at hnext
          obtain rfl := Except.ok.inj hnext
          exact ⟨_, Function.update_self ..⟩
        · rw [herror] at hnext
          cases hnext
    obtain ⟨entry, hentry⟩ := hthere
    unfold write_new
    rw [hlater path entry hsettings hentry, Option.isSome_some, if_pos rfl]

theorem seed_demo_careful (worker : Worker Content) : Careful fun _ => seed_demo worker where
  keeps allows run := by
    unfold seed_demo
    simp only
    split
    · exact fun _ _ _ hentry => hentry
    · rename_i hnone
      exact within_update (Option.not_isSome_iff_eq_none.mp hnone)
  settings allows run := by
    unfold seed_demo
    simp only
    split
    · rfl
    · exact Function.update_of_ne (show SETTINGS ≠ ["el", "demo.duckdb"] by decide) worker.database run.disk
  settled allows run next hnext allows' later hlater := by
    obtain rfl := Except.ok.inj hnext
    unfold seed_demo
    simp only
    split
    · rfl
    · rename_i hnone
      have hlaterNone := Option.not_isSome_iff_eq_none.mp hnone
      have hdatabase : worker.database = none := by
        by_contra hsome
        obtain ⟨database, hdatabase⟩ := Option.ne_none_iff_exists'.mp hsome
        have hmissing : ∀ entry, (if (run.disk ["el", "demo.duckdb"]).isSome = true then run.disk
            else Function.update run.disk ["el", "demo.duckdb"] worker.database) ["el", "demo.duckdb"] ≠ some entry := by
          intro entry hentry
          have hheld := hlater _ entry (by decide) hentry
          rw [hlaterNone] at hheld
          cases hheld
        split at hmissing
        · rename_i hthere
          obtain ⟨entry, hentry⟩ := Option.isSome_iff_exists.mp hthere
          exact hmissing entry hentry
        · refine hmissing database ?_
          rw [Function.update_self, hdatabase]
      rw [hdatabase, ← hlaterNone, Function.update_eq_self]

theorem unchanged_careful : Careful fun _ => (pure : Action Content) where
  keeps _ _ _ _ _ hentry := hentry
  settings _ _ := rfl
  settled _ _ _ _ _ _ _ := rfl

theorem scaffold_careful (worker : Option (Worker Content)) : Careful fun allows => scaffold env allows worker := by
  have hel : ∀ name, ∀ below, below <+: ["el", name] → below ≠ SETTINGS := by
    rintro name below hbelow rfl
    obtain ⟨heq, -⟩ := List.cons_prefix_cons.mp hbelow
    exact absurd heq (by decide)
  refine (create_dir_all_careful _ (hel "pipelines")).bind <| (create_dir_all_careful _ (hel ".zdbt")).bind <|
    (write_new_careful _ (by decide)).bind <| (write_new_careful _ (by decide)).bind <|
    (write_new_careful _ (by decide)).bind <| (write_new_careful _ (by decide)).bind <|
    (write_new_careful _ (by decide)).bind <| (write_new_careful _ (by decide)).bind ?_
  cases worker with
  | none => exact unchanged_careful
  | some worker =>
    have hpipeline : Careful fun allows run => if worker.succeeds then
        write_new env allows ["el", "pipelines", "example_duckdb.yml"] (env.str PIPELINE_DUCKDB_EXAMPLE) run
        else return run := by
      cases worker.succeeds with
      | true => exact write_new_careful _ (by decide)
      | false => exact unchanged_careful
    exact (seed_demo_careful worker).bind hpipeline

variable (env) in
/-- All that is done before the settings are read. -/
theorem prepare_careful (worker : Option (Worker Content)) : Careful fun allows run =>
    scaffold env allows worker run >>= create_dir_all allows "creating .zed" [".zed"] := by
  refine (scaffold_careful worker).bind (create_dir_all_careful _ ?_)
  rintro below hbelow rfl
  exact absurd hbelow.length_le (by decide)

end Files

section Initialize

open Json

variable {Content Text Scalar : Type} {env : Env Content Text Scalar} {accepts : Text → Option (Json Scalar)}
  {allows : Path → Bool} {disk : Disk Content} {worker : Option (Worker Content)}

/-- What is relied on of texts and of JSON: what is written is read back, and Zed's own reader accepts what the strict
    one does. -/
structure Env.Lawful (env : Env Content Text Scalar) (accepts : Text → Option (Json Scalar)) : Prop where
  read_of_text : ∀ text, env.read_to_string (env.of_text text) = some text
  from_str_distinct : ∀ text value, env.from_str text = some value → value.Distinct
  from_str_pretty : ∀ value : Json Scalar, value.Distinct → env.from_str (env.to_string_pretty value) = some value
  accepts_strict : ∀ text value, env.from_str text = some value → accepts text = some value

variable (env accepts) in
def zed_settings (disk : Disk Content) : Option (Json Scalar) :=
  match disk SETTINGS with
  | some (.file content) => (env.read_to_string content).bind accepts
  | _ => none

variable (env accepts worker) in
/-- Nothing that was there is lost, and there is nothing to do in another run. -/
structure Preserves (before after : Disk Content) : Prop where
  files : ∀ path content, path ≠ SETTINGS → before path = some (.file content) → after path = some (.file content)
  settings : ∀ value, zed_settings env accepts before = some value →
    ∃ merged, zed_settings env accepts after = some merged ∧ Extends (associations env KEYS) value merged
  again : ∀ allows, (state (initialize_el_workspace env allows worker after)).disk = after ∧
    (state (initialize_el_workspace env allows worker after)).created = []

variable (env accepts) in
/-- The settings that Zed reads are read by the merge too, or hold nothing but what the merge writes by itself. -/
def SettingsRead (disk : Disk Content) : Prop :=
  ∀ value, zed_settings env accepts disk = some value →
    zed_settings env env.from_str disk = some value ∨ Extends (associations env KEYS) value (schema_settings env)

variable (env) in
theorem read_settings_eq (disk : Disk Content) :
    read_settings env disk = (zed_settings env env.from_str disk).getD (.object []) := by
  unfold read_settings zed_settings
  cases disk SETTINGS with
  | none => rfl
  | some entry => cases entry <;> rfl

theorem zed_settings_congr {later : Disk Content} (h : later SETTINGS = disk SETTINGS) :
    zed_settings env accepts later = zed_settings env accepts disk := by
  unfold zed_settings
  rw [h]

/-- A run is the preparation, then the settings are merged and written. -/
theorem initialize_eq (disk : Disk Content) : initialize_el_workspace env allows worker disk =
    (scaffold env allows worker ⟨disk, []⟩ >>= create_dir_all allows "creating .zed" [".zed"]) >>= fun run =>
      match merge_at env "settings.json" KEYS (read_settings env run.disk) with
      | .ok root => write env allows SETTINGS (env.to_string_pretty root) run
      | .error error => .error (error, run) := by
  unfold initialize_el_workspace merge_yaml_schema_settings
  cases scaffold env allows worker ⟨disk, []⟩ with
  | error error => rfl
  | ok run => rfl

theorem initialize_error {error : String} {run : Run Content}
    (h : initialize_el_workspace env allows worker disk = .error (error, run)) : run.disk SETTINGS = disk SETTINGS := by
  have hsettings := (prepare_careful env worker).settings allows ⟨disk, []⟩
  rw [initialize_eq] at h
  cases hprepare : scaffold env allows worker ⟨disk, []⟩ >>= create_dir_all allows "creating .zed" [".zed"] with
  | error failed =>
    rw [hprepare] at h hsettings
    obtain rfl := Except.error.inj h
    exact hsettings
  | ok prepared =>
    rw [hprepare] at h hsettings
    change (match merge_at env "settings.json" KEYS (read_settings env prepared.disk) with
      | .ok root => write env allows SETTINGS (env.to_string_pretty root) prepared
      | .error error => .error (error, prepared)) = _ at h
    cases hmerge : merge_at env "settings.json" KEYS (read_settings env prepared.disk) with
    | error failed =>
      rw [hmerge] at h
      obtain ⟨-, rfl⟩ := Prod.mk.inj (Except.error.inj h)
      exact hsettings
    | ok root =>
      rw [hmerge] at h
      obtain hok | herror := write_spec env allows SETTINGS (env.to_string_pretty root) prepared
      · exact absurd (hok.symm.trans h) (by simp)
      · obtain ⟨-, rfl⟩ := Prod.mk.inj (Except.error.inj (herror.symm.trans h))
        exact hsettings

theorem initialize_ok {run : Run Content} (h : initialize_el_workspace env allows worker disk = .ok run) :
    ∃ prepared root, (scaffold env allows worker ⟨disk, []⟩ >>= create_dir_all allows "creating .zed" [".zed"]) =
        .ok prepared ∧
      merge_at env "settings.json" KEYS (read_settings env disk) = .ok root ∧
      run = { prepared with
        disk := Function.update prepared.disk SETTINGS (some (.file (env.of_text (env.to_string_pretty root)))) } := by
  have hsettings := (prepare_careful env worker).settings allows ⟨disk, []⟩
  rw [initialize_eq] at h
  cases hprepare : scaffold env allows worker ⟨disk, []⟩ >>= create_dir_all allows "creating .zed" [".zed"] with
  | error failed =>
    rw [hprepare] at h
    cases h
  | ok prepared =>
    rw [hprepare] at h hsettings
    change (match merge_at env "settings.json" KEYS (read_settings env prepared.disk) with
      | .ok root => write env allows SETTINGS (env.to_string_pretty root) prepared
      | .error error => .error (error, prepared)) = _ at h
    have hread : read_settings env prepared.disk = read_settings env disk := by
      rw [read_settings_eq, read_settings_eq]
      rw [@zed_settings_congr _ _ _ env env.from_str disk prepared.disk hsettings]
    rw [hread] at h
    cases hmerge : merge_at env "settings.json" KEYS (read_settings env disk) with
    | error failed =>
      rw [hmerge] at h
      cases h
    | ok root =>
      rw [hmerge] at h
      obtain hok | herror := write_spec env allows SETTINGS (env.to_string_pretty root) prepared
      · exact ⟨prepared, root, rfl, rfl, (Except.ok.inj (hok.symm.trans h)).symm⟩
      · exact absurd (herror.symm.trans h) (by simp)

theorem read_merged (hlawful : env.Lawful accepts) {root : Json Scalar}
    (hmerge : merge_at env "settings.json" KEYS (read_settings env disk) = .ok root)
    (hlater : later SETTINGS = some (.file (env.of_text (env.to_string_pretty root)))) :
    read_settings env later = root ∧ zed_settings env accepts later = some root := by
  have hdistinct : root.Distinct := by
    refine merge_at_distinct hmerge ?_
    rw [read_settings_eq]
    cases hsettings : zed_settings env env.from_str disk with
    | none => exact .object List.nodup_nil fun entry hentry => absurd hentry List.not_mem_nil
    | some value =>
      unfold zed_settings at hsettings
      split at hsettings
      · obtain ⟨text, -, hvalue⟩ := Option.bind_eq_some_iff.mp hsettings
        exact hlawful.from_str_distinct text value hvalue
      · cases hsettings
  have hparsed := hlawful.from_str_pretty root hdistinct
  have hread : ∀ reads : Text → Option (Json Scalar), zed_settings env reads later =
      reads (env.to_string_pretty root) := by
    intro reads
    rw [zed_settings, hlater]
    change (env.read_to_string _).bind reads = _
    rw [hlawful.read_of_text]
    rfl
  refine ⟨?_, (hread accepts).trans (hlawful.accepts_strict _ _ hparsed)⟩
  rw [read_settings_eq, hread, hparsed]
  rfl

end Initialize

section Sample

open Json

/-- A text as typed, or as a value is printed. -/
inductive SampleText
  | typed (text : String)
  | printed (value : { value : Json String // value.Distinct })

def dbt : Json String := .object [("dbt", .object [("target", .scalar "dev")])]

def strict_text : String := "\x7b \"dbt\": \x7b \"target\": \"dev\" \x7d \x7d"

def commented_text : String := "\x7b \"dbt\": \x7b \"target\": \"dev\" \x7d \x7d // mine"

open Classical in
noncomputable def sample_env : Env SampleText SampleText String where
  read_to_string := some
  of_text := id
  str := .typed
  string := id
  from_str
    | .typed text => if text = strict_text then some dbt else none
    | .printed value => some value.1
  to_string_pretty value := if h : value.Distinct then .printed ⟨value, h⟩ else .typed ""
  pipeline_json_schema := .object []
  connections_json_schema := .object []
  display path := "/".intercalate path

noncomputable def sample_accepts (text : SampleText) : Option (Json String) :=
  match text with
  | .typed text => if text = strict_text ∨ text = commented_text then some dbt else none
  | .printed value => some value.1

theorem dbt_distinct : dbt.Distinct :=
  .object (by simp) fun entry hentry => by
    rw [List.mem_singleton.mp hentry]
    refine .object (by simp) fun entry hentry => ?_
    rw [List.mem_singleton.mp hentry]
    exact .scalar _

theorem sample_lawful : sample_env.Lawful sample_accepts where
  read_of_text _ := rfl
  from_str_distinct text value h := by
    cases text with
    | typed text =>
      change (if text = strict_text then some dbt else none) = some value at h
      split at h
      · exact Option.some.inj h ▸ dbt_distinct
      · cases h
    | printed printed => exact Option.some.inj h ▸ printed.2
  from_str_pretty value hvalue := by
    simp only [sample_env, dif_pos hvalue]
  accepts_strict text value h := by
    cases text with
    | typed text =>
      change (if text = strict_text then some dbt else none) = some value at h
      change (if text = strict_text ∨ text = commented_text then some dbt else none) = some value
      split at h
      · rename_i htext
        rwa [if_pos (Or.inl htext)]
      · cases h
    | printed printed => exact h

def project (settings : String) : Disk SampleText := fun path =>
  if path = [".zed"] then some .dir else if path = SETTINGS then some (.file (.typed settings)) else none

end Sample

end zed.dbt_ui.el.scaffold
