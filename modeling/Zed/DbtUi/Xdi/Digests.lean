import Mathlib

namespace zed.dbt_ui.xdi.digests

/-- A mapping of the project; `details` is what else its digest reads. -/
structure Job (Details : Type) where
  path : List Char
  name : List Char
  details : Details
deriving DecidableEq

/-- A process of the plan, with the mappings it runs. -/
structure Flux where
  path : List Char
  name : List Char
  flow : Option (List Char)
  mappings : List (List Char)

structure Migration (Details : Type) where
  folder : List Char
  jobs : List (Job Details)

abbrev Disk := List Char → Option (List Char)

def BRIEF_FOLDER : List Char := ".xdi-migration".toList

/-- `Path::join` of a relative path. -/
def join (path other : List Char) : List Char :=
  if path.getLast? = some '/' then path ++ other else path ++ '/' :: other

section Model

variable {Details : Type} (is_alphanumeric : Char → Bool) (digest : List (Job Details) → Job Details → List Char)
  (allows : List Char → Bool)

def brief_name (flux : Flux) : List Char :=
  (flux.flow.getD flux.name).map fun c => if is_alphanumeric c || c = '_' || c = '-' then c else '_'

/-- The folder of `flux`'s brief in the dbt project, relative to it. -/
def brief_folder (flux : Flux) : List Char := BRIEF_FOLDER ++ '/' :: brief_name is_alphanumeric flux

def file_name (job : Job Details) : List Char :=
  (job.name.map fun c => if c = '/' ∨ c = '\\' then '_' else c) ++ ".md".toList

variable (migration : Migration Details) (flux : Flux)

def out : List Char := join migration.folder (brief_folder is_alphanumeric flux)

/-- The loop of `write_digests`. It ends at the first file that the system refuses. -/
def write_mappings : List (List Char) → Disk → Disk × Option (List (List Char))
  | [], disk => (disk, some [])
  | path :: mappings, disk =>
    match migration.jobs.find? fun job => job.path = path with
    | none => write_mappings mappings disk
    | some job =>
      let file := join (out is_alphanumeric migration flux) (file_name job)
      if allows file then
        let (disk, written) := write_mappings mappings (Function.update disk file (some (digest migration.jobs job)))
        (disk, written.map fun written => (brief_folder is_alphanumeric flux ++ '/' :: file_name job) :: written)
      else (disk, none)

/-- Writes a digest of each mapping `flux` runs into its brief folder. `none` is an error of the system, in the
    folder or in a file. -/
def write_digests (disk : Disk) : Disk × Option (List (List Char)) :=
  if allows (out is_alphanumeric migration flux) then
    write_mappings is_alphanumeric digest allows migration flux flux.mappings disk
  else (disk, none)

/-- Calls of `write_digests` one after the other, all of which succeed. -/
def write_all : List Flux → Disk → Option (Disk × List (List (List Char)))
  | [], disk => some (disk, [])
  | flux :: fluxes, disk =>
    match write_digests is_alphanumeric digest allows migration flux disk with
    | (disk, some written) => (write_all fluxes disk).map fun (disk, rest) => (disk, written :: rest)
    | (_, none) => none

/-- The mappings that a process runs and the project has, and the file of one on the disk. -/
def targets : List (Job Details) := flux.mappings.filterMap fun path => migration.jobs.find? fun job => job.path = path

def file (job : Job Details) : List Char := join (out is_alphanumeric migration flux) (file_name job)

/-- What the files of a list of calls, and what they returned, are to be. -/
structure KeepsDigests (calls : List Flux) (written : List (List (List Char))) (disk : Disk) : Prop where
  one_each : written = calls.map fun flux =>
    (targets migration flux).map fun job => brief_folder is_alphanumeric flux ++ '/' :: file_name job
  distinct : ∀ flux ∈ calls, ∀ job ∈ targets migration flux, ∀ other ∈ targets migration flux, job.path ≠ other.path →
    file is_alphanumeric migration flux job ≠ file is_alphanumeric migration flux other
  holds : ∀ flux ∈ calls, ∀ job ∈ targets migration flux,
    disk (file is_alphanumeric migration flux job) = some (digest migration.jobs job)
  apart : calls.Pairwise fun flux next => ∀ job ∈ targets migration flux, ∀ other ∈ targets migration next,
    file is_alphanumeric migration flux job ≠ file is_alphanumeric migration next other

/-- No two mappings of a process have names that become the same, and no two processes whose folders do have such
    mappings. -/
structure NamesApart (calls : List Flux) : Prop where
  mappings : ∀ flux ∈ calls, ∀ job ∈ targets migration flux, ∀ other ∈ targets migration flux, job.path ≠ other.path →
    file_name job ≠ file_name other
  processes : calls.Pairwise fun flux next => brief_name is_alphanumeric flux = brief_name is_alphanumeric next →
    ∀ job ∈ targets migration flux, ∀ other ∈ targets migration next, file_name job ≠ file_name other

end Model

section Paths

theorem append_slash_inj {front front' back back' : List Char} (hfront : '/' ∉ front) (hfront' : '/' ∉ front')
    (h : front ++ '/' :: back = front' ++ '/' :: back') : front = front' ∧ back = back' := by
  induction front generalizing front' with
  | nil =>
    cases front' with
    | nil => exact ⟨rfl, List.tail_eq_of_cons_eq h⟩
    | cons c front' =>
      obtain ⟨rfl, -⟩ := List.cons_eq_cons.mp h
      exact absurd List.mem_cons_self hfront'
  | cons c front ih =>
    cases front' with
    | nil =>
      obtain ⟨rfl, -⟩ := List.cons_eq_cons.mp h
      exact absurd List.mem_cons_self hfront
    | cons c' front' =>
      obtain ⟨rfl, hrest⟩ := List.cons_eq_cons.mp h
      obtain ⟨rfl, hback⟩ := ih (fun hmem => hfront (List.mem_cons_of_mem _ hmem))
        (fun hmem => hfront' (List.mem_cons_of_mem _ hmem)) hrest
      exact ⟨rfl, hback⟩

theorem join_brief (folder : List Char) : ∃ root, ∀ name file : List Char, '/' ∉ name →
    join (join folder (BRIEF_FOLDER ++ '/' :: name)) file = root ++ if name = [] then file else name ++ '/' :: file := by
  have hjoin : ∃ root, ∀ other, join folder other = root ++ other := by
    by_cases hlast : folder.getLast? = some '/'
    · exact ⟨folder, fun other => if_pos hlast⟩
    · exact ⟨folder ++ ['/'], fun other => by simp [join, if_neg hlast]⟩
  obtain ⟨root, hroot⟩ := hjoin
  refine ⟨root ++ BRIEF_FOLDER ++ ['/'], fun name file hname => ?_⟩
  rw [hroot, join]
  cases name using List.reverseRecOn with
  | nil => simp
  | append_singleton name c =>
    have hlast : ¬ (root ++ (BRIEF_FOLDER ++ '/' :: (name ++ [c]))).getLast? = some '/' := by
      have hc : c ≠ '/' := by
        rintro rfl
        simp at hname
      have hshape : root ++ (BRIEF_FOLDER ++ '/' :: (name ++ [c])) = root ++ (BRIEF_FOLDER ++ '/' :: name) ++ [c] := by
        simp only [List.append_assoc, List.cons_append]
      rw [hshape, List.getLast?_concat, Option.some.injEq]
      exact hc
    rw [if_neg hlast, if_neg (by simp)]
    simp

end Paths

section Names

variable {Details : Type} {is_alphanumeric : Char → Bool} {migration : Migration Details} {flux next : Flux}
  {job other : Job Details}

theorem slash_not_mem_brief_name (hslash : is_alphanumeric '/' = false) (flux : Flux) :
    '/' ∉ brief_name is_alphanumeric flux := by
  intro hmem
  obtain ⟨c, -, hc⟩ := List.mem_map.mp hmem
  split at hc
  · rename_i hkept
    subst hc
    simp [hslash] at hkept
  · exact absurd hc (by decide)

theorem slash_not_mem_file_name (job : Job Details) : '/' ∉ file_name job := by
  intro hmem
  rcases List.mem_append.mp hmem with hmem | hmem
  · obtain ⟨c, -, hc⟩ := List.mem_map.mp hmem
    split at hc
    · exact absurd hc (by decide)
    · rename_i hnot
      exact hnot (Or.inl hc)
  · exact absurd hmem (by decide)

theorem file_inj (hslash : is_alphanumeric '/' = false) :
    file is_alphanumeric migration flux job = file is_alphanumeric migration next other ↔
      brief_name is_alphanumeric flux = brief_name is_alphanumeric next ∧ file_name job = file_name other := by
  have hflux := slash_not_mem_brief_name hslash flux
  have hnext := slash_not_mem_brief_name hslash next
  have hjob := slash_not_mem_file_name job
  have hother := slash_not_mem_file_name other
  obtain ⟨root, hroot⟩ := join_brief migration.folder
  unfold file out brief_folder
  rw [hroot _ _ hflux, hroot _ _ hnext, List.append_right_inj]
  constructor
  · intro heq
    by_cases hempty : brief_name is_alphanumeric flux = [] <;> by_cases hempty' : brief_name is_alphanumeric next = []
    · rw [if_pos hempty, if_pos hempty'] at heq
      exact ⟨hempty.trans hempty'.symm, heq⟩
    · rw [if_pos hempty, if_neg hempty'] at heq
      exact absurd (heq ▸ List.mem_append_right _ List.mem_cons_self) hjob
    · rw [if_neg hempty, if_pos hempty'] at heq
      exact absurd (heq ▸ List.mem_append_right _ List.mem_cons_self) hother
    · rw [if_neg hempty, if_neg hempty'] at heq
      exact append_slash_inj hflux hnext heq
  · rintro ⟨hbrief, hfile⟩
    rw [hbrief, hfile]

end Names

section Calls

variable {Details : Type} {is_alphanumeric : Char → Bool} {digest : List (Job Details) → Job Details → List Char}
  {allows : List Char → Bool} {migration : Migration Details} {flux : Flux} {disk finish : Disk}

/-- The disk after files were written one after the other. -/
def wrote (files : List (List Char × List Char)) (disk : Disk) : Disk :=
  files.foldl (fun disk file => Function.update disk file.1 (some file.2)) disk

theorem wrote_append (files more : List (List Char × List Char)) (disk : Disk) :
    wrote (files ++ more) disk = wrote more (wrote files disk) := List.foldl_append

theorem wrote_of_only {files : List (List Char × List Char)} {path content : List Char}
    (honly : ∀ file ∈ files, file.1 = path → file.2 = content) (hmem : ∃ file ∈ files, file.1 = path) :
    wrote files disk path = some content := by
  induction files using List.reverseRecOn with
  | nil => exact absurd hmem (by simp)
  | append_singleton files last ih =>
    rw [wrote_append]
    change Function.update (wrote files disk) last.1 (some last.2) path = _
    by_cases hlast : last.1 = path
    · rw [← hlast, Function.update_self, honly last (by simp) hlast]
    · rw [Function.update_of_ne (Ne.symm hlast)]
      refine ih (fun file hfile => honly file (List.mem_append_left _ hfile)) ?_
      obtain ⟨file, hfile, hpath⟩ := hmem
      rcases List.mem_append.mp hfile with hfile | hfile
      · exact ⟨file, hfile, hpath⟩
      · rw [List.mem_singleton.mp hfile] at hpath
        exact absurd hpath hlast

variable (is_alphanumeric digest migration) in
def writes (flux : Flux) : List (List Char × List Char) :=
  (targets migration flux).map fun job => (file is_alphanumeric migration flux job, digest migration.jobs job)

theorem write_mappings_spec {mappings : List (List Char)} {written : List (List Char)}
    (h : write_mappings is_alphanumeric digest allows migration flux mappings disk = (finish, some written)) :
    let found := mappings.filterMap fun path => migration.jobs.find? fun job => job.path = path
    finish = wrote (found.map fun job => (file is_alphanumeric migration flux job, digest migration.jobs job)) disk ∧
      written = found.map fun job => brief_folder is_alphanumeric flux ++ '/' :: file_name job := by
  induction mappings generalizing disk written with
  | nil =>
    obtain ⟨rfl, hwritten⟩ := Prod.mk.inj h
    exact ⟨rfl, (Option.some.inj hwritten).symm⟩
  | cons path mappings ih =>
    rw [write_mappings] at h
    cases hfind : migration.jobs.find? fun job => job.path = path with
    | none =>
      rw [hfind] at h
      simp only [List.filterMap_cons, hfind]
      exact ih h
    | some job =>
      rw [hfind] at h
      simp only [List.filterMap_cons, hfind]
      by_cases hallows : allows (join (out is_alphanumeric migration flux) (file_name job)) = true
      · simp only [if_pos hallows] at h
        obtain ⟨hfinish, hwritten⟩ := Prod.mk.inj h
        obtain ⟨rest, hrest, rfl⟩ := Option.map_eq_some_iff.mp hwritten
        obtain ⟨hdisk, hpaths⟩ := ih (Prod.ext hfinish hrest)
        exact ⟨hdisk, congrArg _ hpaths⟩
      · simp only [if_neg hallows] at h
        exact absurd (Prod.mk.inj h).2 (by simp)

theorem write_digests_spec {written : List (List Char)}
    (h : write_digests is_alphanumeric digest allows migration flux disk = (finish, some written)) :
    finish = wrote (writes is_alphanumeric digest migration flux) disk ∧
      written = (targets migration flux).map fun job => brief_folder is_alphanumeric flux ++ '/' :: file_name job := by
  rw [write_digests] at h
  split at h
  · exact write_mappings_spec h
  · exact absurd (Prod.mk.inj h).2 (by simp)

theorem write_all_spec {calls : List Flux} {written : List (List (List Char))}
    (h : write_all is_alphanumeric digest allows migration calls disk = some (finish, written)) :
    finish = wrote (calls.flatMap (writes is_alphanumeric digest migration)) disk ∧
      written = calls.map fun flux =>
        (targets migration flux).map fun job => brief_folder is_alphanumeric flux ++ '/' :: file_name job := by
  induction calls generalizing disk written with
  | nil =>
    obtain ⟨rfl, rfl⟩ := Prod.mk.inj (Option.some.inj h)
    exact ⟨rfl, rfl⟩
  | cons flux calls ih =>
    rw [write_all] at h
    cases hcall : write_digests is_alphanumeric digest allows migration flux disk with
    | mk next result =>
      rw [hcall] at h
      cases result with
      | none => exact absurd h (by simp)
      | some paths =>
        obtain ⟨⟨last, rest⟩, hrest, heq⟩ := Option.map_eq_some_iff.mp h
        obtain ⟨rfl, rfl⟩ := Prod.mk.inj heq
        obtain ⟨rfl, rfl⟩ := write_digests_spec hcall
        obtain ⟨hfinish, rfl⟩ := ih hrest
        refine ⟨?_, rfl⟩
        rw [hfinish, List.flatMap_cons, wrote_append]

theorem path_of_mem_targets {flux : Flux} {job : Job Details} (hjob : job ∈ targets migration flux) :
    ∀ other ∈ targets migration flux, other.path = job.path → other = job := by
  intro other hother hpath
  obtain ⟨path, -, hfind⟩ := List.mem_filterMap.mp hjob
  obtain ⟨path', -, hfind'⟩ := List.mem_filterMap.mp hother
  have heq := List.find?_some hfind
  have heq' := List.find?_some hfind'
  simp only [decide_eq_true_eq] at heq heq'
  rw [← heq', hpath, heq, hfind] at hfind'
  exact (Option.some.inj hfind').symm

/-- After calls that all succeed, every mapping of every process has its own file with its own digest, exactly when
    no two of their names become the same. -/
theorem write_all_keeps_iff (hslash : is_alphanumeric '/' = false) {calls : List Flux}
    {written : List (List (List Char))}
    (h : write_all is_alphanumeric digest allows migration calls disk = some (finish, written)) :
    KeepsDigests is_alphanumeric digest migration calls written finish ↔ NamesApart is_alphanumeric migration calls := by
  obtain ⟨rfl, rfl⟩ := write_all_spec h
  constructor
  · intro hkeeps
    refine ⟨fun flux hflux job hjob other hother hpath heq => ?_,
      hkeeps.apart.imp fun hapart hbrief job hjob other hother heq => ?_⟩
    · exact hkeeps.distinct flux hflux job hjob other hother hpath ((file_inj hslash).mpr ⟨rfl, heq⟩)
    · exact hapart job hjob other hother ((file_inj hslash).mpr ⟨hbrief, heq⟩)
  · rintro ⟨hmappings, hprocesses⟩
    have hdistinct : ∀ flux ∈ calls, ∀ job ∈ targets migration flux, ∀ other ∈ targets migration flux,
        job.path ≠ other.path → file is_alphanumeric migration flux job ≠ file is_alphanumeric migration flux other :=
      fun flux hflux job hjob other hother hpath heq =>
        hmappings flux hflux job hjob other hother hpath ((file_inj hslash).mp heq).2
    have hapart : calls.Pairwise fun flux next => ∀ job ∈ targets migration flux, ∀ other ∈ targets migration next,
        file is_alphanumeric migration flux job ≠ file is_alphanumeric migration next other :=
      hprocesses.imp fun hnames job hjob other hother heq =>
        hnames ((file_inj hslash).mp heq).1 job hjob other hother ((file_inj hslash).mp heq).2
    refine ⟨rfl, hdistinct, fun flux hflux job hjob => ?_, hapart⟩
    have hwrites : (file is_alphanumeric migration flux job, digest migration.jobs job) ∈
        calls.flatMap (writes is_alphanumeric digest migration) :=
      List.mem_flatMap.mpr ⟨flux, hflux, List.mem_map_of_mem hjob⟩
    refine wrote_of_only (fun written hwritten hfile => ?_) ⟨_, hwrites, rfl⟩
    obtain ⟨next, hnext, hmem⟩ := List.mem_flatMap.mp hwritten
    obtain ⟨other, hother, rfl⟩ := List.mem_map.mp hmem
    -- the file is written by this process and for this mapping only
    obtain rfl : next = flux := by
      by_contra hne
      have hindexed := List.pairwise_iff_getElem.mp hapart
      obtain ⟨i, hi, rfl⟩ := List.getElem_of_mem hnext
      obtain ⟨j, hj, rfl⟩ := List.getElem_of_mem hflux
      rcases Nat.lt_trichotomy i j with hlt | rfl | hgt
      · exact hindexed i j hi hj hlt other hother job hjob hfile
      · exact hne rfl
      · exact hindexed j i hj hi hgt job hjob other hother hfile.symm
    have hpath : other.path = job.path := by
      by_contra hne
      exact hdistinct next hflux other hother job hjob hne hfile
    rw [path_of_mem_targets hjob other hother hpath]

end Calls

/-- A project with two mappings of one name, and with a third one. -/
def sample : Migration Unit :=
  { folder := "dbt".toList
    jobs := [⟨"a/load".toList, "load".toList, ()⟩, ⟨"b/load".toList, "load".toList, ()⟩,
      ⟨"c/report".toList, "report".toList, ()⟩] }

def namesakes : Flux := ⟨"p".toList, "orders".toList, none, ["a/load".toList, "b/load".toList]⟩

def reporting : Flux := ⟨"q".toList, "report".toList, none, ["a/load".toList, "c/report".toList]⟩

/-- The digest of the one mapping is written over that of the other. -/
theorem namesakes_share_a_file :
    ∃ disk written, write_all Char.isAlphanum (fun _ job => job.path) (fun _ => true) sample [namesakes]
        (fun _ => none) = some (disk, written) ∧
      disk "dbt/.xdi-migration/orders/load.md".toList = some "b/load".toList ∧
      ¬ KeepsDigests Char.isAlphanum (fun _ job => job.path) sample [namesakes] written disk := by
  refine ⟨_, _, rfl, by decide +kernel, fun hkeeps => ?_⟩
  exact hkeeps.distinct namesakes List.mem_cons_self ⟨"a/load".toList, "load".toList, ()⟩ (by decide +kernel)
    ⟨"b/load".toList, "load".toList, ()⟩ (by decide +kernel) (by decide +kernel) (by decide +kernel)

theorem reporting_keeps_iff :
    Char.isAlphanum '/' = false ∧
      ∃ disk written, write_all Char.isAlphanum (fun _ job => job.path) (fun _ => true) sample [reporting]
          (fun _ => none) = some (disk, written) ∧
        (KeepsDigests Char.isAlphanum (fun _ job => job.path) sample [reporting] written disk ↔
          NamesApart Char.isAlphanum sample [reporting]) := by
  obtain ⟨⟨disk, written⟩, hall⟩ := Option.isSome_iff_exists.mp (show (write_all Char.isAlphanum
    (fun _ job => job.path) (fun _ => true) sample [reporting] (fun _ => none)).isSome = true by decide +kernel)
  exact ⟨by decide, disk, written, hall, write_all_keeps_iff (by decide) hall⟩

end zed.dbt_ui.xdi.digests
