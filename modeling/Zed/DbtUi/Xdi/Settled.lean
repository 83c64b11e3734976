import Zed.DbtUi.Xdi

namespace zed.dbt_ui.xdi.XdiStore

open zed.transition

variable {Options Plan : Type}

/-- A read is under way whose result is shown, or that is followed by another. -/
def LoadDue (s : XdiStore Options Plan) : Prop :=
  ∃ load, s.load = some load ∧ (s.active = some load.project ∨ s.reload_pending = true)

/-- A look is under way at the migration of what is shown. -/
def LookDue (s : XdiStore Options Plan) : Prop :=
  ∃ look, s.look = some look ∧ s.snapshot = some look.snapshot ∧ s.active = some look.project ∧
    s.migration_folder = some look.folder

/-- The migration was not worked out from the snapshot shown. -/
def Stale (s : XdiStore Options Plan) : Prop :=
  ∀ snapshot ∈ s.snapshot, ∀ migration ∈ s.migration, migration.snapshot.id ≠ snapshot.id

def Shown (s : XdiStore Options Plan) : Prop :=
  ∃ migration, s.migration = some migration ∧ s.snapshot = some migration.snapshot ∧
    s.migration_folder = some migration.folder

/-- The migration is worked out again whatever folder it goes into: after a read, or
    after a write, as the snapshot is another. -/
def Due (s : XdiStore Options Plan) : Prop :=
  s.LoadDue ∨ s.migrating = true ∧ s.Stale

/-- The migration of what is shown is known, or is going to be worked out. -/
def Settling (s : XdiStore Options Plan) : Prop :=
  s.active = none ∨ s.snapshot = none ∨ s.Shown ∨ s.LookDue ∨ s.Due

/-- The snapshots that the migration and the tasks hold on to. -/
def refs (s : XdiStore Options Plan) : List Snapshot :=
  (s.migration.map (·.snapshot)).toList ++ (s.look.map (·.snapshot)).toList ++
    (s.write.map (·.migration.snapshot)).toList

/-- The flags say which tasks there are, and a snapshot's id is its own. -/
structure Base (s : XdiStore Options Plan) : Prop where
  load : s.loading = s.load.isSome
  pending : s.reload_pending = true → s.loading = true
  write : s.migrating = s.write.isSome
  look : s.migrating = true → s.look = none
  fresh : ∀ snapshot ∈ s.snapshot, snapshot.id < s.next_id
  refs_fresh : ∀ snapshot ∈ s.refs, snapshot.id < s.next_id
  same : ∀ snapshot ∈ s.refs, ∀ now ∈ s.snapshot, now.id = snapshot.id → now = snapshot

theorem base_new (settings : Options) : (new settings : XdiStore Options Plan).Base :=
  ⟨rfl, by simp [new], rfl, by simp [new], by simp [new], by simp [new, refs], by simp [new, refs]⟩

theorem Base.of_refs {s t : XdiStore Options Plan} (hs : s.Base) (hload : t.loading = t.load.isSome)
    (hpending : t.reload_pending = true → t.loading = true) (hwrite : t.migrating = t.write.isSome)
    (hlook : t.migrating = true → t.look = none) (hid : t.next_id = s.next_id)
    (hsnapshot : t.snapshot = s.snapshot ∨ t.snapshot = none)
    (hrefs : ∀ snapshot ∈ t.refs, snapshot ∈ s.refs ∨ s.snapshot = some snapshot) : t.Base := by
  have hkept : ∀ snapshot ∈ t.snapshot, snapshot ∈ s.snapshot := by
    intro snapshot hmem
    obtain hsame | hnone := hsnapshot
    · rwa [hsame] at hmem
    · simp [hnone] at hmem
  refine ⟨hload, hpending, hwrite, hlook, ?_, ?_, ?_⟩
  · intro snapshot hmem
    rw [hid]
    exact hs.fresh snapshot (hkept snapshot hmem)
  · intro snapshot hmem
    rw [hid]
    obtain hold | hnow := hrefs snapshot hmem
    · exact hs.refs_fresh snapshot hold
    · exact hs.fresh snapshot hnow
  · intro snapshot hmem now hnow heq
    obtain hold | hshown := hrefs snapshot hmem
    · exact hs.same snapshot hold now (hkept now hnow) heq
    · exact Option.some.inj ((hkept now hnow).symm.trans hshown)

/-! ## Reading again -/

theorem reload_spec (s : XdiStore Options Plan) :
    s.reload.active = s.active ∧ s.reload.snapshot = s.snapshot ∧ s.reload.migration = s.migration ∧
      s.reload.folders = s.folders ∧ s.reload.look = s.look ∧ s.reload.write = s.write ∧
      s.reload.migrating = s.migrating ∧ s.reload.next_id = s.next_id ∧ s.reload.queue = s.queue := by
  unfold reload
  split
  · simp
  · split <;> simp

theorem Base.reload {s : XdiStore Options Plan} (hs : s.Base) : s.reload.Base := by
  obtain ⟨-, hsnapshot, hmigration, -, hlook, hwrite, hmigrating, hid, -⟩ := reload_spec s
  have hrefs : s.reload.refs = s.refs := by simp only [refs, hmigration, hlook, hwrite]
  have hflags : s.reload.loading = s.reload.load.isSome ∧
      (s.reload.reload_pending = true → s.reload.loading = true) := by
    unfold XdiStore.reload
    split
    · exact ⟨hs.load, hs.pending⟩
    · split
      · next hloading => exact ⟨hs.load, fun _ => hloading⟩
      · simp
  refine hs.of_refs hflags.1 hflags.2 ?_ ?_ hid (.inl hsnapshot) (fun snapshot hmem => .inl (hrefs ▸ hmem))
  · rw [hmigrating, hwrite, hs.write]
  · rw [hmigrating, hlook]
    exact hs.look

theorem Base.reload_due {s : XdiStore Options Plan} (hs : s.Base) {project : Path}
    (hactive : s.active = some project) : s.reload.LoadDue := by
  unfold LoadDue XdiStore.reload
  rw [hactive]
  by_cases hloading : s.loading = true
  · rw [hs.load, Option.isSome_iff_exists] at hloading
    obtain ⟨load, hload⟩ := hloading
    exact ⟨load, by simp [hs.load, hload]⟩
  · simp [hloading]

theorem Base.reload_settling {s : XdiStore Options Plan} (hs : s.Base) : s.reload.Settling := by
  cases hactive : s.active with
  | none =>
    left
    rw [(reload_spec s).1, hactive]
  | some project => exact .inr (.inr (.inr (.inr (.inl (hs.reload_due hactive)))))

/-! ## Looking at the migration -/

theorem refresh_of_shown {s : XdiStore Options Plan} {project folder : Path} {snapshot : Snapshot}
    (hmigrating : s.migrating = false) (hactive : s.active = some project) (hsnapshot : s.snapshot = some snapshot)
    (hfolder : s.migration_folder = some folder) :
    ∃ planned, s.refresh_migration = { s with look := some ⟨project, snapshot, folder, s.settings, planned⟩ } := by
  unfold refresh_migration
  simp only [hmigrating, Bool.false_eq_true, if_false, hactive, hsnapshot, hfolder]
  exact ⟨_, rfl⟩

theorem refresh_of_none {s : XdiStore Options Plan} (hmigrating : s.migrating = false)
    (hnone : s.active = none ∨ s.snapshot = none) : s.refresh_migration = { s with migration := none } := by
  unfold refresh_migration
  rw [if_neg (by simp [hmigrating])]
  split
  · next hactive hsnapshot _ => simp [hactive, hsnapshot] at hnone
  · rfl

theorem refresh_of_migrating {s : XdiStore Options Plan} (hmigrating : s.migrating = true) :
    s.refresh_migration = s := by
  simp [refresh_migration, hmigrating]

theorem migration_folder_of_active {s : XdiStore Options Plan} {project : Path}
    (hactive : s.active = some project) : ∃ folder, s.migration_folder = some folder := by
  simp [migration_folder, hactive]

theorem Base.refresh {s : XdiStore Options Plan} (hs : s.Base) : s.refresh_migration.Base := by
  by_cases hmigrating : s.migrating = true
  · rwa [refresh_of_migrating hmigrating]
  · rw [Bool.not_eq_true] at hmigrating
    by_cases hnone : s.active = none ∨ s.snapshot = none
    · rw [refresh_of_none hmigrating hnone]
      refine hs.of_refs hs.load hs.pending hs.write hs.look rfl (.inl rfl) ?_
      intro snapshot hmem
      simp only [refs, Option.map_none, Option.toList_none, List.nil_append, List.mem_append] at hmem ⊢
      exact .inl (hmem.imp_left .inr)
    · obtain ⟨hactive, hsnapshot⟩ := not_or.mp hnone
      obtain ⟨project, hactive⟩ := Option.ne_none_iff_exists'.mp hactive
      obtain ⟨snapshot, hsnapshot⟩ := Option.ne_none_iff_exists'.mp hsnapshot
      obtain ⟨folder, hfolder⟩ := migration_folder_of_active hactive
      obtain ⟨planned, heq⟩ := refresh_of_shown hmigrating hactive hsnapshot hfolder
      rw [heq]
      refine hs.of_refs hs.load hs.pending hs.write (by simp [hmigrating]) rfl (.inl rfl) ?_
      intro x hmem
      simp only [refs, Option.map_some, Option.toList_some, List.mem_append, List.mem_singleton] at hmem ⊢
      obtain (hmem | rfl) | hmem := hmem
      · exact .inl (.inl (.inl hmem))
      · exact .inr hsnapshot
      · exact .inl (.inr hmem)

theorem refresh_settling {s : XdiStore Options Plan} (hmigrating : s.migrating = false) :
    s.refresh_migration.Settling := by
  by_cases hnone : s.active = none ∨ s.snapshot = none
  · rw [refresh_of_none hmigrating hnone]
    exact hnone.imp_right .inl
  · obtain ⟨hactive, hsnapshot⟩ := not_or.mp hnone
    obtain ⟨project, hactive⟩ := Option.ne_none_iff_exists'.mp hactive
    obtain ⟨snapshot, hsnapshot⟩ := Option.ne_none_iff_exists'.mp hsnapshot
    obtain ⟨folder, hfolder⟩ := migration_folder_of_active hactive
    obtain ⟨planned, heq⟩ := refresh_of_shown hmigrating hactive hsnapshot hfolder
    rw [heq]
    exact .inr (.inr (.inr (.inl ⟨_, rfl, hsnapshot, hactive, hfolder⟩)))

/-! ## What each step keeps -/

/-- What every state of a store keeps. -/
structure Inv (s : XdiStore Options Plan) : Prop where
  base : s.Base
  settling : s.Settling

theorem Inv.reload {s : XdiStore Options Plan} (hs : s.Base) : s.reload.Inv :=
  ⟨hs.reload, hs.reload_settling⟩

theorem Inv.refresh {s : XdiStore Options Plan} (hs : s.Inv) : s.refresh_migration.Inv := by
  refine ⟨hs.base.refresh, ?_⟩
  by_cases hmigrating : s.migrating = true
  · rw [refresh_of_migrating hmigrating]
    exact hs.settling
  · exact refresh_settling (by simpa using hmigrating)

theorem Base.show_project {s : XdiStore Options Plan} (hs : s.Base) (project : Option Path)
    (result : Option (Except String String)) : Base { s.show_project project with last_result := result } := by
  refine hs.of_refs hs.load hs.pending hs.write hs.look rfl (.inr rfl) ?_
  intro snapshot hmem
  simp only [refs, XdiStore.show_project, Option.map_none, Option.toList_none, List.nil_append,
    List.mem_append] at hmem ⊢
  exact .inl (hmem.imp_left .inr)

theorem Inv.set_active {s : XdiStore Options Plan} (hs : s.Inv) (project : Path) : (s.set_active project).Inv := by
  unfold XdiStore.set_active
  split
  · exact hs
  · exact .reload (hs.base.show_project _ _)

theorem Inv.set_metadata_folders {s : XdiStore Options Plan} (hs : s.Inv) (project : Path)
    (folders : Option (List Path)) : (s.set_metadata_folders project folders).Inv := by
  obtain ⟨⟨h1, h2, h3, h4, h5, h6, h7⟩, hsettling⟩ := hs
  dsimp only [XdiStore.set_metadata_folders]
  split
  · exact .reload ⟨h1, h2, h3, h4, h5, h6, h7⟩
  · exact ⟨⟨h1, h2, h3, h4, h5, h6, h7⟩, hsettling⟩

theorem Inv.updated_entries {s : XdiStore Options Plan} (hs : s.Inv) (base : Path) (entries : List Path) :
    (s.updated_entries base entries).Inv := by
  dsimp only [XdiStore.updated_entries]
  split
  · obtain ⟨⟨h1, h2, h3, h4, h5, h6, h7⟩, hsettling⟩ := hs
    exact ⟨⟨h1, h2, h3, h4, h5, h6, h7⟩, hsettling⟩
  · split
    · exact hs.refresh
    · exact hs

theorem Settling.of_folders {s t : XdiStore Options Plan} (hs : s.Settling) (hactive : t.active = s.active)
    (hsnapshot : t.snapshot = s.snapshot) (hmigration : t.migration = s.migration) (hlook : t.look = s.look)
    (hload : t.load = s.load) (hpending : t.reload_pending = s.reload_pending) (hmigrating : t.migrating = s.migrating)
    (hfolder : s.active ≠ none → t.migration_folder = s.migration_folder ∨ s.Due) : t.Settling := by
  have hdue : s.Due → t.Due := by
    simp only [Due, LoadDue, Stale, hactive, hsnapshot, hmigration, hload, hpending, hmigrating, imp_self]
  by_cases hnone : s.active = none
  · exact .inl (hactive.trans hnone)
  · obtain hsame | hagain := hfolder hnone
    · simpa only [Settling, Shown, LookDue, Due, LoadDue, Stale, hactive, hsnapshot, hmigration, hlook, hload,
        hpending, hmigrating, hsame] using hs
    · exact .inr (.inr (.inr (.inr (hdue hagain))))

/-- What a step must not overlook for the store to settle: a folder chosen for the
    project shown while the migration is not looked at again, a look at another
    folder that a write puts an end to, and a snapshot read during a write when the
    rest of the queue is dropped after it. -/
def LooksAgain (normalized : Path → Path) (s : XdiStore Options Plan) : Action Options → Prop
  | .set_migration_folder folder =>
    s.migrating = true → ∀ project ∈ s.active, s.refuses normalized project folder = true ∨
      s.pinned project ≠ none ∨ s.migration_folder = some folder ∨ s.Due
  | .import_project project folder =>
    s.active = some project → project ∈ s.projects ∨ s.migration_folder = some folder ∨ s.Due
  | .detected projects _ folders =>
    ∀ project ∈ s.active, project ∈ projects → (∀ importing ∈ s.importing, importing ∉ projects) →
      (∀ folder ∈ folders project, s.migration_folder = some folder) ∨ s.Due
  | .queue_migration _ =>
    s.migrating = false → ∀ migration ∈ s.migration,
      s.migration_folder = some migration.folder ∨ s.LoadDue ∨ s.Stale
  | .wrote _ _ => s.queue ≠ [] → s.migration = none → s.snapshot = none ∨ s.LoadDue
  | _ => True

theorem migration_folder_update {s t : XdiStore Options Plan} {project folder : Path}
    (hfolders : t.folders = Function.update s.folders project (some folder)) (hactive : t.active = s.active)
    (hsame : s.active = some project → s.migration_folder = some folder) :
    t.migration_folder = s.migration_folder := by
  unfold migration_folder
  rw [hactive, hfolders]
  cases hshown : s.active with
  | none => rfl
  | some shown =>
    by_cases hproject : shown = project
    · subst hproject
      have hfolder := hsame hshown
      rw [migration_folder, hshown] at hfolder
      simpa using hfolder.symm
    · simp [Function.update_of_ne hproject]

theorem Inv.import_project {s : XdiStore Options Plan} (hs : s.Inv) {project folder : Path}
    (hlooks : s.active = some project → project ∈ s.projects ∨ s.migration_folder = some folder ∨ s.Due) :
    (s.import_project project folder).Inv := by
  obtain ⟨⟨h1, h2, h3, h4, h5, h6, h7⟩, hsettling⟩ := hs
  have hbase : ∀ pinned : Path → Option (List Path),
      Base { s with folders := Function.update s.folders project (some folder), pinned := pinned } :=
    fun _ => ⟨h1, h2, h3, h4, h5, h6, h7⟩
  have hsettles : ∀ pinned : Path → Option (List Path),
      (s.active = some project → s.migration_folder = some folder ∨ s.Due) →
      Settling { s with folders := Function.update s.folders project (some folder), pinned := pinned } := by
    intro pinned hfolder
    refine hsettling.of_folders rfl rfl rfl rfl rfl rfl rfl ?_
    intro _
    by_cases hdue : s.Due
    · exact .inr hdue
    · exact .inl (migration_folder_update rfl rfl fun hactive => (hfolder hactive).resolve_right hdue)
  have hunmoved : s.folders project = some folder → s.active = some project → s.migration_folder = some folder := by
    intro hkept hactive
    simp [migration_folder, hactive, hkept]
  dsimp only [XdiStore.import_project]
  by_cases hmoved : (s.folders project != some folder) = true
  · simp only [hmoved, if_true]
    split
    · split
      · exact .reload ⟨h1, h2, h3, h4, h5, h6, h7⟩
      · next hinactive =>
        exact Inv.set_active ⟨hbase _, hsettles _ fun hactive => absurd hactive hinactive⟩ project
    · next hproject =>
      exact ⟨⟨h1, h2, h3, h4, h5, h6, h7⟩, hsettles s.pinned fun hactive => (hlooks hactive).resolve_left hproject⟩
  · simp only [hmoved, Bool.false_eq_true, if_false]
    rw [bne_iff_ne, not_not] at hmoved
    have hinv : Inv { s with folders := Function.update s.folders project (some folder) } :=
      ⟨hbase _, hsettles _ fun hactive => .inl (hunmoved hmoved hactive)⟩
    split
    · split
      · exact hinv
      · exact hinv.set_active project
    · exact ⟨⟨h1, h2, h3, h4, h5, h6, h7⟩, hsettles s.pinned fun hactive => .inl (hunmoved hmoved hactive)⟩

theorem Inv.set_migration_folder {normalized : Path → Path} {s : XdiStore Options Plan} (hs : s.Inv)
    {folder : Path}
    (hlooks : s.migrating = true → ∀ project ∈ s.active, s.refuses normalized project folder = true ∨
      s.pinned project ≠ none ∨ s.migration_folder = some folder ∨ s.Due) :
    (s.set_migration_folder normalized folder).Inv := by
  obtain ⟨⟨h1, h2, h3, h4, h5, h6, h7⟩, hsettling⟩ := hs
  unfold XdiStore.set_migration_folder
  split
  · exact ⟨⟨h1, h2, h3, h4, h5, h6, h7⟩, hsettling⟩
  · next project hactive =>
    split
    · exact ⟨⟨h1, h2, h3, h4, h5, h6, h7⟩, hsettling⟩
    · next hrefuses =>
      dsimp only
      split
      · exact .reload ⟨h1, h2, h3, h4, h5, h6, h7⟩
      · next hpinned =>
        by_cases hmigrating : s.migrating = true
        · simp only [refresh_migration, hmigrating, if_true]
          refine ⟨⟨h1, h2, hmigrating ▸ h3, fun _ => h4 hmigrating, h5, h6, h7⟩, hsettling.of_folders rfl rfl rfl rfl rfl rfl hmigrating.symm ?_⟩
          intro _
          obtain hrefused | hpins | hsame | hdue := hlooks hmigrating project hactive
          · exact absurd hrefused hrefuses
          · exact absurd (Option.isSome_iff_ne_none.mpr hpins) hpinned
          · exact .inl (migration_folder_update rfl rfl fun _ => hsame)
          · exact .inr hdue
        · rw [Bool.not_eq_true] at hmigrating
          exact ⟨Base.refresh ⟨h1, h2, h3, h4, h5, h6, h7⟩, refresh_settling hmigrating⟩

theorem Inv.detected {s : XdiStore Options Plan} (hs : s.Inv) {projects : List Path}
    {picked : Path → Option (List Path)} {folders : Path → Option Path}
    (hlooks : ∀ project ∈ s.active, project ∈ projects → (∀ importing ∈ s.importing, importing ∉ projects) →
      (∀ folder ∈ folders project, s.migration_folder = some folder) ∨ s.Due) :
    (s.detected_projects projects picked folders).Inv := by
  obtain ⟨⟨h1, h2, h3, h4, h5, h6, h7⟩, hsettling⟩ := hs
  have hbase : ∀ importing : Option Path,
      Base { s with
        detecting := false
        detected := true
        picked := picked
        folders := fun project => (folders project).or (s.folders project)
        importing := importing
        projects := projects } :=
    fun _ => ⟨h1, h2, h3, h4, h5, h6, h7⟩
  dsimp only [detected_projects]
  split
  · exact .reload ((hbase _).show_project _ _)
  · next himporting =>
    split
    · next hkeep =>
      refine ⟨hbase _, hsettling.of_folders rfl rfl rfl rfl rfl rfl rfl ?_⟩
      intro _
      rw [Bool.and_eq_true, Option.any_eq_true] at hkeep
      obtain ⟨-, project, hactive, hkept⟩ := hkeep
      have hnone : ∀ importing ∈ s.importing, importing ∉ projects := by
        intro importing hmem hin
        rw [Option.filter_eq_none_iff] at himporting
        exact himporting importing hmem (by simpa using hin)
      obtain hsame | hdue := hlooks project hactive (by simpa using hkept) hnone
      · left
        simp only [migration_folder, hactive, Option.map_some, Option.some.injEq] at hsame ⊢
        cases hstored : folders project with
        | none => simp
        | some folder => simp [hsame folder hstored]
      · exact .inr hdue
    · exact .reload ((hbase _).show_project _ s.last_result)

theorem Inv.reload_pending {s : XdiStore Options Plan} (hs : Base { s with reload_pending := false })
    (hsettling : s.reload_pending = false → s.Settling) :
    (if s.reload_pending then { s with reload_pending := false }.reload else s).Inv := by
  split
  · exact .reload hs
  · next hpending =>
    rw [Bool.not_eq_true] at hpending
    have hsame : { s with reload_pending := false } = s := by rw [← hpending]
    exact ⟨hsame ▸ hs, hsettling hpending⟩

theorem refresh_reload_pending (s : XdiStore Options Plan) (pending : Bool) :
    { s.refresh_migration with reload_pending := pending } = { s with reload_pending := pending }.refresh_migration := by
  unfold refresh_migration
  dsimp only
  split
  · rfl
  · split <;> simp_all [migration_folder]

theorem Inv.loaded {s : XdiStore Options Plan} (hs : s.Inv) {load : Load} (hload : s.load = some load)
    (roots : List Path) : (s.loaded load roots).Inv := by
  obtain ⟨⟨h1, h2, h3, h4, h5, h6, h7⟩, hsettling⟩ := hs
  dsimp only [XdiStore.loaded]
  split
  · next hactive =>
    -- no pointer held on to is that of the snapshot just read
    have hbase : Base { s with
        loading := false
        load := none
        reader := some load.project
        snapshot := some ⟨s.next_id, load.project, load.picked.getD roots⟩
        next_id := s.next_id + 1
        reload_pending := false } := by
      refine ⟨rfl, by simp, h3, h4, by simp, fun x hx => Nat.lt_succ_of_lt (h6 x hx), ?_⟩
      intro x hx now hnow heq
      obtain rfl := Option.some.inj hnow
      exact absurd heq (Nat.ne_of_gt (h6 x hx))
    apply Inv.reload_pending
    · rw [refresh_reload_pending]
      exact hbase.refresh
    · intro _
      by_cases hmigrating : s.migrating = true
      · simp only [refresh_migration, hmigrating, if_true]
        refine .inr (.inr (.inr (.inr (.inr ⟨rfl, ?_⟩))))
        intro snapshot hsnapshot migration hmigration
        obtain rfl := Option.some.inj hsnapshot
        have hmem : migration.snapshot ∈ s.refs := by
          have hmigration' : s.migration = some migration := hmigration
          simp [refs, hmigration']
        exact Nat.ne_of_lt (h6 _ hmem)
      · exact refresh_settling (by simpa using hmigrating)
  · next hactive =>
    apply Inv.reload_pending
    · exact ⟨rfl, by simp, h3, h4, h5, h6, h7⟩
    · intro hpending
      have hpending' : s.reload_pending = false := hpending
      obtain hnone | hnone | hshown | hlook | ⟨again, hagain, hdue⟩ | hstale := hsettling
      · exact .inl hnone
      · exact .inr (.inl hnone)
      · exact .inr (.inr (.inl hshown))
      · exact .inr (.inr (.inr (.inl hlook)))
      · obtain rfl : again = load := Option.some.inj (hagain.symm.trans hload)
        simp [hpending', hactive] at hdue
      · exact .inr (.inr (.inr (.inr (.inr hstale))))

theorem Base.shown_or_stale {s : XdiStore Options Plan} (hs : s.Base) {migration : Migration Options Plan}
    (hmigration : s.migration = some migration) (hfolder : s.migration_folder = some migration.folder) :
    s.Shown ∨ s.Stale := by
  by_cases hstale : s.Stale
  · exact .inr hstale
  · simp only [Stale, not_forall, not_not] at hstale
    obtain ⟨snapshot, hsnapshot, again, hagain, hid⟩ := hstale
    obtain rfl : migration = again := Option.some.inj (hmigration.symm.trans hagain)
    have hmem : migration.snapshot ∈ s.refs := by simp [refs, hmigration]
    obtain rfl := hs.same _ hmem snapshot hsnapshot hid.symm
    exact .inl ⟨migration, hmigration, hsnapshot, hfolder⟩

theorem Inv.write_next {s : XdiStore Options Plan} (hs : s.Base)
    (hsettling : s.migrating = true ∨ s.queue = [] ∨ s.migration = none → s.Settling)
    (hlooks : s.migrating = false → ∀ migration ∈ s.migration,
      s.active = none ∨ s.migration_folder = some migration.folder ∨ s.LoadDue ∨ s.Stale) : s.write_next.Inv := by
  unfold XdiStore.write_next
  split
  · next hmigrating => exact ⟨hs, hsettling (.inl hmigrating)⟩
  · next hmigrating =>
    rw [Bool.not_eq_true] at hmigrating
    split
    · next hqueue => exact ⟨hs, hsettling (.inr (.inl hqueue))⟩
    · next op queue hqueue =>
      split
      · next hmigration =>
        obtain ⟨h1, h2, h3, h4, h5, h6, h7⟩ := hs
        exact ⟨⟨h1, h2, h3, h4, h5, h6, h7⟩, hsettling (.inr (.inr hmigration))⟩
      · next migration hmigration =>
        refine ⟨hs.of_refs hs.load hs.pending rfl (by simp) rfl (.inl rfl) ?_, ?_⟩
        · intro x hx
          left
          simp only [refs, Option.map_none, Option.toList_none, List.append_nil, Option.map_some,
            Option.toList_some, List.mem_append, List.mem_singleton, hmigration] at hx ⊢
          exact .inl (.inl (hx.elim id id))
        · obtain hnone | hsame | hdue | hstale := hlooks hmigrating migration hmigration
          · exact .inl hnone
          · obtain hshown | hstale := hs.shown_or_stale hmigration hsame
            · exact .inr (.inr (.inl hshown))
            · exact .inr (.inr (.inr (.inr (.inr ⟨rfl, hstale⟩))))
          · exact .inr (.inr (.inr (.inr (.inl hdue))))
          · exact .inr (.inr (.inr (.inr (.inr ⟨rfl, hstale⟩))))

theorem Inv.queue_migration {s : XdiStore Options Plan} (hs : s.Inv) {op : MigrationOp}
    (hlooks : s.migrating = false → ∀ migration ∈ s.migration,
      s.migration_folder = some migration.folder ∨ s.LoadDue ∨ s.Stale) : (s.queue_migration op).Inv := by
  obtain ⟨⟨h1, h2, h3, h4, h5, h6, h7⟩, hsettling⟩ := hs
  refine Inv.write_next ⟨h1, h2, h3, h4, h5, h6, h7⟩ (fun _ => hsettling) ?_
  intro hmigrating migration hmigration
  exact .inr (hlooks hmigrating migration hmigration)

theorem Inv.of_shown {s : XdiStore Options Plan} (hs : s.Base) {migration : Migration Options Plan}
    (hsnapshot : s.snapshot = some migration.snapshot) (hfolder : s.migration_folder = some migration.folder) :
    Inv { s with migration := some migration } := by
  refine ⟨hs.of_refs hs.load hs.pending hs.write hs.look rfl (.inl rfl) ?_,
    .inr (.inr (.inl ⟨migration, rfl, hsnapshot, hfolder⟩))⟩
  intro x hx
  simp only [refs, Option.map_some, Option.toList_some, List.mem_append, List.mem_singleton] at hx ⊢
  obtain (rfl | hx) | hx := hx
  · exact .inr hsnapshot
  · exact .inl (.inl (.inr hx))
  · exact .inl (.inr hx)

theorem written_migration (s : XdiStore Options Plan) (op : MigrationOp) (result : Except String String)
    (next : Migration Options Plan) :
    (s.written op result next).migration = s.migration ∨
      ∃ now, s.migration = some now ∧ (s.written op result next).migration = some next ∧
        now.snapshot.id = next.snapshot.id ∧ now.folder = next.folder := by
  dsimp only [written]
  split
  · next hcurrent =>
    obtain ⟨now, hnow, hsame⟩ := (Option.any_eq_true ..).mp hcurrent
    simp only [ptr_eq, Bool.and_eq_true, beq_iff_eq] at hsame
    exact .inr ⟨now, hnow, rfl, hsame.1, hsame.2⟩
  · exact .inl rfl

theorem written_stale {s : XdiStore Options Plan} {op : MigrationOp} {result : Except String String}
    {next : Migration Options Plan} (hstale : s.Stale) : (s.written op result next).Stale := by
  intro snapshot hsnapshot migration hmigration
  obtain hsame | ⟨now, hnow, hnext, hid, -⟩ := written_migration s op result next
  · exact hstale snapshot hsnapshot migration (hsame ▸ hmigration)
  · obtain rfl := Option.some.inj (hnext.symm.trans hmigration)
    exact hid ▸ hstale snapshot hsnapshot now hnow

theorem Base.written_shown {s : XdiStore Options Plan} (hs : s.Base) {op : MigrationOp}
    {result : Except String String} {next : Migration Options Plan} (hmem : next.snapshot ∈ s.refs)
    (hshown : s.Shown) : (s.written op result next).Shown := by
  obtain ⟨shown, hmigration, hsnapshot, hfolder⟩ := hshown
  obtain hsame | ⟨now, hnow, hnext, hid, hnow_folder⟩ := written_migration s op result next
  · exact ⟨shown, hsame.trans hmigration, hsnapshot, hfolder⟩
  · obtain rfl := Option.some.inj (hmigration.symm.trans hnow)
    have heq := hs.same _ hmem _ hsnapshot hid
    exact ⟨next, hnext, heq ▸ hsnapshot, hnow_folder ▸ hfolder⟩

theorem Base.written {s : XdiStore Options Plan} (hs : s.Base) {op : MigrationOp} {result : Except String String}
    {next : Migration Options Plan} (hmem : next.snapshot ∈ s.refs) : (s.written op result next).Base := by
  refine hs.of_refs hs.load hs.pending rfl (by simp [XdiStore.written]) rfl (.inl rfl) ?_
  intro x hx
  left
  have hx' : x ∈ ((s.written op result next).migration.map (·.snapshot)).toList ∨
      x ∈ (s.look.map (·.snapshot)).toList := by
    simpa [refs, XdiStore.written] using hx
  obtain hx' | hx' := hx'
  · obtain hsame | ⟨-, -, hnext, -⟩ := written_migration s op result next
    · rw [hsame] at hx'
      simp only [refs, List.mem_append]
      exact .inl (.inl hx')
    · obtain rfl : x = next.snapshot := by simpa [hnext] using hx'
      exact hmem
  · simp only [refs, List.mem_append]
    exact .inl (.inr hx')

section

variable [DecidableEq Options] {normalized : Path → Path} {plan : Snapshot → Options → Plan}
  {plan_options : Plan → Options}

theorem Inv.looked {s : XdiStore Options Plan} (hs : s.Inv) {look : Look Options Plan} (hlook : s.look = some look)
    (state : Except String (Option (MigrationState Options))) :
    (s.looked normalized plan plan_options look state).Inv := by
  obtain ⟨hbase, hsettling⟩ := hs
  have hmem : look.snapshot ∈ s.refs := by simp [refs, hlook]
  have hkept : Base { s with look := none } := by
    obtain ⟨h1, h2, h3, h4, h5, h6, h7⟩ := hbase
    refine Base.of_refs ⟨h1, h2, h3, h4, h5, h6, h7⟩ h1 h2 h3 (fun _ => rfl) rfl (.inl rfl) ?_
    intro x hx
    simp only [refs, Option.map_none, Option.toList_none, List.append_nil, List.mem_append] at hx ⊢
    exact .inl (hx.imp_left .inl)
  dsimp only [XdiStore.looked]
  split
  · next hcurrent =>
    obtain ⟨hactive, hfolder, hptr⟩ := hcurrent
    obtain ⟨now, hnow, hid⟩ := (Option.any_eq_true ..).mp hptr
    obtain rfl : now = look.snapshot := hbase.same _ hmem now hnow (by simpa [ptr_eq] using hid)
    split
    · next roots hroots =>
      have hpinned : Base { s with look := none, pinned := Function.update s.pinned look.project (some roots) } := by
        obtain ⟨h1, h2, h3, h4, h5, h6, h7⟩ := hkept
        exact ⟨h1, h2, h3, h4, h5, h6, h7⟩
      obtain ⟨hactive', hsnapshot', -, hfolders', -⟩ := reload_spec
        { s with look := none, pinned := Function.update s.pinned look.project (some roots) }
      refine Inv.of_shown hpinned.reload (hsnapshot'.trans hnow) ?_
      rw [migration_folder, hactive', hfolders']
      exact hfolder
    · exact Inv.of_shown hkept hnow hfolder
  · next hstale =>
    refine ⟨hkept, ?_⟩
    obtain hnone | hnone | hshown | ⟨again, hagain, hsnapshot, hactive, hfolder⟩ | hdue := hsettling
    · exact .inl hnone
    · exact .inr (.inl hnone)
    · exact .inr (.inr (.inl hshown))
    · obtain rfl : again = look := Option.some.inj (hagain.symm.trans hlook)
      exact absurd ⟨hactive, hfolder, by simp [hsnapshot, ptr_eq]⟩ hstale
    · exact .inr (.inr (.inr (.inr hdue)))

theorem Inv.wrote {s : XdiStore Options Plan} (hs : s.Inv) {write : Write Options Plan} (hwrite : s.write = some write)
    (result : Except String String) (state : Except String (Option (MigrationState Options)))
    (hlooks : s.queue ≠ [] → s.migration = none → s.snapshot = none ∨ s.LoadDue) :
    (s.wrote normalized plan plan_options write result state).Inv := by
  obtain ⟨hbase, hsettling⟩ := hs
  dsimp only [XdiStore.wrote]
  generalize hnext : read_migration normalized plan plan_options write.migration.snapshot write.migration.folder
    write.defaults (some (write.migration.plan, write.migration.asked)) state = next
  have hmem : next.snapshot ∈ s.refs := by
    rw [← hnext]
    simp [refs, hwrite, read_migration]
  have hmigrating : s.migrating = true := by rw [hbase.write, hwrite, Option.isSome_some]
  have hkept : (s.written write.op result next).Base := hbase.written hmem
  -- the store was settling, by other means than a look: there is none during a write
  have hafter : s.active = none ∨ s.snapshot = none ∨ (s.written write.op result next).Shown ∨ s.LoadDue ∨
      (s.written write.op result next).Stale := by
    obtain hnone | hnone | hshown | ⟨look, hlook, -⟩ | hdue | ⟨-, hstale⟩ := hsettling
    · exact .inl hnone
    · exact .inr (.inl hnone)
    · exact .inr (.inr (.inl (hbase.written_shown hmem hshown)))
    · simp [hbase.look hmigrating] at hlook
    · exact .inr (.inr (.inr (.inl hdue)))
    · exact .inr (.inr (.inr (.inr (written_stale hstale))))
  unfold write_done
  split
  · next hqueue =>
    have hqueue' : s.queue ≠ [] := by simpa [XdiStore.written] using hqueue
    apply Inv.write_next hkept
    · rintro (hbusy | hempty | hmigration)
      · simp [XdiStore.written] at hbusy
      · exact absurd hempty hqueue'
      · have hnone : s.migration = none := by
          obtain hsame | ⟨now, -, hnext, -⟩ := written_migration s write.op result next
          · exact hsame.symm.trans hmigration
          · simp [hmigration] at hnext
        obtain hsnapshot | hdue := hlooks hqueue' hnone
        · exact .inr (.inl hsnapshot)
        · exact .inr (.inr (.inr (.inr (.inl hdue))))
    · intro _ migration hmigration
      obtain hnone | hnone | ⟨shown, hshown, -, hfolder⟩ | hdue | hstale := hafter
      · exact .inl hnone
      · refine .inr (.inr (.inr ?_))
        intro snapshot hsnapshot
        exact absurd (hnone.symm.trans hsnapshot) (by simp)
      · obtain rfl := Option.some.inj (hshown.symm.trans hmigration)
        exact .inr (.inl hfolder)
      · exact .inr (.inr (.inl hdue))
      · exact .inr (.inr (.inr hstale))
  · dsimp only
    split
    · exact ⟨hkept.refresh, refresh_settling rfl⟩
    · next hnew =>
      refine ⟨hkept, ?_⟩
      obtain hnone | hnone | hshown | hdue | hstale := hafter
      · exact .inl hnone
      · exact .inr (.inl hnone)
      · exact .inr (.inr (.inl hshown))
      · exact .inr (.inr (.inr (.inr (.inl hdue))))
      · cases hsnapshot : (s.written write.op result next).snapshot with
        | none => exact .inr (.inl hsnapshot)
        | some snapshot =>
          refine absurd ?_ hnew
          rw [hsnapshot, Option.any_some, Option.all_eq_true_iff_get]
          intro hsome
          have hne := hstale snapshot hsnapshot _ (Option.some_get hsome).symm
          simpa [ptr_eq] using Ne.symm hne

theorem Inv.step {s t : XdiStore Options Plan} {action : Action Options} (hs : s.Inv)
    (hlooks : s.LooksAgain normalized action) (hstep : s.step normalized plan plan_options action = some t) :
    t.Inv := by
  obtain ⟨⟨h1, h2, h3, h4, h5, h6, h7⟩, hsettling⟩ := id hs
  cases action with
  | set_active project => exact Option.some.inj hstep ▸ hs.set_active project
  | reload => exact Option.some.inj hstep ▸ .reload hs.base
  | set_metadata_folders project folders => exact Option.some.inj hstep ▸ hs.set_metadata_folders project folders
  | refresh_migration => exact Option.some.inj hstep ▸ hs.refresh
  | set_migration_folder folder => exact Option.some.inj hstep ▸ hs.set_migration_folder hlooks
  | import_project project folder => exact Option.some.inj hstep ▸ hs.import_project hlooks
  | queue_migration op => exact Option.some.inj hstep ▸ hs.queue_migration hlooks
  | clear_last_result => exact Option.some.inj hstep ▸ ⟨⟨h1, h2, h3, h4, h5, h6, h7⟩, hsettling⟩
  | worktrees_changed => exact Option.some.inj hstep ▸ ⟨⟨h1, h2, h3, h4, h5, h6, h7⟩, hsettling⟩
  | updated_entries base entries => exact Option.some.inj hstep ▸ hs.updated_entries base entries
  | settings_changed settings => exact Option.some.inj hstep ▸ ⟨⟨h1, h2, h3, h4, h5, h6, h7⟩, hsettling⟩
  | detected projects picked folders =>
    obtain ⟨-, heq⟩ := Option.ite_none_right_eq_some.mp hstep
    exact Option.some.inj heq ▸ hs.detected hlooks
  | debounced =>
    obtain ⟨-, heq⟩ := Option.ite_none_right_eq_some.mp hstep
    exact Option.some.inj heq ▸ .reload ⟨h1, h2, h3, h4, h5, h6, h7⟩
  | loaded roots =>
    obtain ⟨load, hload, rfl⟩ := Option.map_eq_some_iff.mp hstep
    exact hs.loaded hload roots
  | looked state =>
    obtain ⟨look, hlook, rfl⟩ := Option.map_eq_some_iff.mp hstep
    exact hs.looked hlook state
  | wrote result state =>
    obtain ⟨write, hwrite, rfl⟩ := Option.map_eq_some_iff.mp hstep
    exact hs.wrote hwrite result state hlooks

/-- No load, no look and no write is under way, and nothing is queued. -/
def AtRest (s : XdiStore Options Plan) : Prop :=
  s.load = none ∧ s.look = none ∧ s.write = none ∧ s.queue = []

/-- In every run whose steps overlook nothing, a store at rest that shows a project's
    snapshot has the migration of that snapshot, into the folder shown. -/
theorem settles {settings : Options} {s : XdiStore Options Plan}
    (hrun : Runs (step normalized plan plan_options) (LooksAgain normalized) (new settings) s) (hrest : s.AtRest)
    {project : Path} {snapshot : Snapshot} (hactive : s.active = some project) (hsnapshot : s.snapshot = some snapshot) :
    ∃ migration, s.migration = some migration ∧ migration.snapshot = snapshot ∧
      s.migration_folder = some migration.folder := by
  have hinv : s.Inv := by
    apply hrun.keeps (fun s action t => Inv.step)
    exact ⟨base_new settings, .inl rfl⟩
  obtain ⟨hload, hlook, hwrite, -⟩ := hrest
  obtain hnone | hnone | ⟨migration, hmigration, hshown, hfolder⟩ | ⟨look, hlook', -⟩ | ⟨load, hload', -⟩ | hstale :=
    hinv.settling
  · simp [hactive] at hnone
  · simp [hsnapshot] at hnone
  · exact ⟨migration, hmigration, Option.some.inj (hshown.symm.trans hsnapshot), hfolder⟩
  · simp [hlook] at hlook'
  · simp [hload] at hload'
  · simp [hinv.base.write, hwrite] at hstale

end

/-- No links, and one plan with one kind of options. -/
abbrev sample_step : XdiStore Nat Unit → Action Nat → Option (XdiStore Nat Unit) :=
  step id (fun _ _ => ()) fun _ => 0

/-- A project is shown, read, and its migration looked at. -/
def sample_shown : List (Action Nat) :=
  [.set_active ["w", "p"], .loaded [], .looked (.ok none)]

theorem sample_settles :
    ∃ s snapshot, take_all sample_step (new 0) sample_shown = some s ∧ s.snapshot = some snapshot ∧
      ∃ migration, s.migration = some migration ∧ migration.snapshot = snapshot ∧
        s.migration_folder = some migration.folder := by
  have hall : ∃ s snapshot, take_all sample_step (new 0) sample_shown = some s ∧ s.AtRest ∧
      s.active = some ["w", "p"] ∧ s.snapshot = some snapshot :=
    ⟨_, _, rfl, ⟨rfl, rfl, rfl, rfl⟩, rfl, rfl⟩
  obtain ⟨s, snapshot, htaken, hrest, hactive, hsnapshot⟩ := hall
  have hlooks : ∀ action ∈ sample_shown, ∀ s : XdiStore Nat Unit, s.LooksAgain id action := by
    simp [sample_shown, LooksAgain]
  exact ⟨s, snapshot, htaken, hsnapshot, settles (runs_of_take_all _ hlooks htaken) hrest hactive hsnapshot⟩

/-- A folder is chosen while a write runs: the store comes to rest with the migration
    into the folder before. -/
theorem sample_folder_overlooked :
    ¬ ∀ s : XdiStore Nat Unit, Runs sample_step (fun _ _ => True) (new 0) s → s.AtRest →
      ∀ project snapshot, s.active = some project → s.snapshot = some snapshot →
        ∃ migration, s.migration = some migration ∧ migration.snapshot = snapshot ∧
          s.migration_folder = some migration.folder := by
  intro hsettles
  have hall : ∃ s snapshot migration,
      take_all sample_step (new 0) (sample_shown ++
        [.queue_migration (.tick "key" true), .set_migration_folder ["w", "other"], .wrote (.ok "") (.ok none)]) =
          some s ∧ s.AtRest ∧ s.active = some ["w", "p"] ∧ s.snapshot = some snapshot ∧
      s.migration = some migration ∧ migration.folder = ["w", "p_ellode"] ∧
      s.migration_folder = some ["w", "other"] :=
    ⟨_, _, _, rfl, ⟨rfl, rfl, rfl, rfl⟩, rfl, rfl, rfl, rfl, rfl⟩
  obtain ⟨s, snapshot, migration, htaken, hrest, hactive, hsnapshot, hmigration, hbefore, hfolder⟩ := hall
  obtain ⟨shown, hshown, -, hsame⟩ :=
    hsettles s (runs_of_take_all _ (fun _ _ _ => trivial) htaken) hrest _ snapshot hactive hsnapshot
  obtain rfl := Option.some.inj (hmigration.symm.trans hshown)
  rw [hfolder, hbefore] at hsame
  simp at hsame

end zed.dbt_ui.xdi.XdiStore
