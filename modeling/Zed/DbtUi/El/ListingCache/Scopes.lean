import Zed.Path.Segments
import Zed.DbtUi.El.ListingCache

namespace zed.dbt_ui.el.listing_cache

open path redis

/-- The listings that a refresh of a scope is about: a database's are its schemas, and
    its schemas' tables. -/
def InScope (project : Hash) (listing : Listing) : Scope → Prop
  | .Project => listing.project = project
  | .Connection connection => listing.project = project ∧ listing.connection = connection
  | .Database connection database =>
    listing.project = project ∧ listing.connection = connection ∧
      (listing.level = .Schemas database ∨ ∃ schema, listing.level = .SchemaTables database schema)
  | .Schema connection database schema =>
    listing.project = project ∧ listing.connection = connection ∧
      listing.level = .SchemaTables database schema

/-- The tables of a schema of the database `db`, under a refresh of the database
    `schema`: the `/db/schema/` of their key is read as the refreshed database. -/
def Swallowed (project : Hash) (listing : Listing) (scope : Scope) : Prop :=
  listing.project = project ∧ scope = .Database listing.connection "schema".toList ∧
    ∃ schema, listing.level = .SchemaTables "db".toList schema

theorem Hash.ext {a b : Hash} (h : a.text = b.text) : a = b := by
  cases a
  cases b
  cases h
  rfl

theorem Hash.not_mem {hash : Hash} {c : Char} (hc : c ∉ "0123456789abcdef".toList) : c ∉ hash.text :=
  fun hmem => hc (hash.hex c hmem)

def escape (c : Char) : List Char :=
  if c = '%' then "%25".toList
  else if c = '/' then "%2F".toList
  else if c = '@' then "%40".toList
  else [c]

theorem segment_eq (name : List Char) : segment name = name.flatMap escape := by
  unfold segment replace
  rw [List.flatMap_assoc, List.flatMap_assoc]
  apply List.flatMap_congr
  intro c _
  unfold escape
  by_cases hpercent : c = '%'
  · subst hpercent
    rfl
  · by_cases hslash : c = '/'
    · subst hslash
      rfl
    · by_cases hat : c = '@'
      · subst hat
        rfl
      · simp [hpercent, hslash, hat]

theorem not_mem_escape {c d : Char} (hc : c = '/' ∨ c = '@') : c ∉ escape d := by
  unfold escape
  split_ifs with hpercent hslash hat
  · obtain rfl | rfl := hc <;> decide
  · obtain rfl | rfl := hc <;> decide
  · obtain rfl | rfl := hc <;> decide
  · rw [List.mem_singleton]
    rintro rfl
    exact hc.elim hslash hat

theorem not_mem_segment {c : Char} (hc : c = '/' ∨ c = '@') (name : List Char) : c ∉ segment name := by
  rw [segment_eq, List.mem_flatMap]
  rintro ⟨d, -, hd⟩
  exact not_mem_escape hc hd

theorem escape_ne_nil (c : Char) : escape c ≠ [] := by
  unfold escape
  split_ifs <;> simp

theorem escape_append_inj {c d : Char} {s t : List Char} (h : escape c ++ s = escape d ++ t) :
    c = d ∧ s = t := by
  unfold escape at h
  split_ifs at h <;> simp at h <;> grind

theorem segment_injective : Function.Injective segment := by
  intro a b h
  rw [segment_eq, segment_eq] at h
  induction a generalizing b with
  | nil =>
    cases b with
    | nil => rfl
    | cons d b => exact absurd (List.append_eq_nil_iff.mp h.symm).1 (escape_ne_nil d)
  | cons c a ih =>
    cases b with
    | nil => exact absurd (List.append_eq_nil_iff.mp h).1 (escape_ne_nil c)
    | cons d b =>
      obtain ⟨rfl, hrest⟩ := escape_append_inj h
      rw [ih hrest]

/-- The segments of `level_suffix`. -/
def Level.segments : Level → List (List Char)
  | .Tables => ["tables".toList]
  | .Databases => ["databases".toList]
  | .Schemas database => ["db".toList, segment database, "schemas".toList]
  | .SchemaTables database schema =>
    ["db".toList, segment database, "schema".toList, segment schema, "tables".toList]

theorem database_prefix_eq (database : List Char) :
    database_prefix database = "db".toList ++ SEPARATOR :: (segment database ++ [SEPARATOR]) := by
  have hdb : "db/".toList = "db".toList ++ [SEPARATOR] := by decide
  rw [ database_prefix, hdb, List.append_assoc, List.append_assoc]
  rfl

theorem level_suffix_eq (level : Level) : level_suffix level = join level.segments := by
  cases level with
  | Tables => rfl
  | Databases => rfl
  | Schemas database =>
    dsimp only [level_suffix, Level.segments]
    rw [database_prefix_eq]
    generalize "db".toList = db, "schemas".toList = schemas
    simp [join]
  | SchemaTables database schema =>
    have hschema : "schema/".toList = "schema".toList ++ [SEPARATOR] := by decide
    have htables : "/tables".toList = SEPARATOR :: "tables".toList := by decide
    dsimp only [level_suffix, Level.segments]
    rw [database_prefix_eq, hschema, htables]
    generalize "db".toList = db, "schema".toList = word, "tables".toList = tables
    simp [join]

theorem Level.segments_ne_nil (level : Level) : level.segments ≠ [] := by
  cases level <;> exact List.cons_ne_nil _ _

theorem Level.segments_injective : Function.Injective Level.segments := by
  intro a b h
  cases a <;> cases b <;> simp_all [Level.segments, segment_injective.eq_iff]

/-- What the key of a listing says after the name of its connection. -/
def Listing.segments (listing : Listing) : List (List Char) :=
  listing.definition.text :: listing.level.segments

theorem not_mem_segments (listing : Listing) : ∀ s ∈ listing.segments, SEPARATOR ∉ s := by
  intro s hs
  have hnames (name : List Char) : SEPARATOR ∉ segment name := not_mem_segment (Or.inl rfl) name
  obtain rfl | hs := List.mem_cons.mp hs
  · exact Hash.not_mem (by decide)
  · cases hlevel : listing.level <;> rw [hlevel] at hs <;>
      simp only [Level.segments, List.mem_cons, List.not_mem_nil, or_false] at hs
    · subst hs
      decide
    · subst hs
      decide
    · obtain rfl | rfl | rfl := hs
      · decide
      · exact hnames _
      · decide
    · obtain rfl | rfl | rfl | rfl | rfl := hs
      · decide
      · exact hnames _
      · decide
      · exact hnames _
      · decide

theorem project_prefix_eq (project : Hash) :
    project_prefix project = ("ellode:explore:".toList ++ project.text) ++ [SEPARATOR] := rfl

theorem key_eq (listing : Listing) :
    listing.key = ("ellode:explore:".toList ++ listing.project.text) ++ SEPARATOR ::
      (segment listing.connection ++ '@' :: join listing.segments) := by
  rw [Listing.segments, join_cons listing.level.segments_ne_nil, ← level_suffix_eq, Listing.key,
    connection_prefix, project_prefix_eq]
  simp only [List.append_assoc, List.cons_append, List.nil_append]
  rfl

theorem not_mem_project (project : Hash) : SEPARATOR ∉ "ellode:explore:".toList ++ project.text := by
  rw [List.mem_append, not_or]
  exact ⟨by decide, Hash.not_mem (by decide)⟩

theorem key_project_iff {listing : Listing} {project : Hash} :
    (∃ rest, listing.key = project_prefix project ++ rest) ↔ listing.project = project := by
  have hsplit (rest : List Char) : project_prefix project ++ rest =
      ("ellode:explore:".toList ++ project.text) ++ SEPARATOR :: rest := by
    rw [project_prefix_eq, List.append_assoc]
    rfl
  constructor
  · rintro ⟨rest, h⟩
    rw [key_eq, hsplit, append_sep_inj (not_mem_project _) (not_mem_project _),
      List.append_cancel_left_eq] at h
    exact Hash.ext h.1
  · rintro rfl
    exact ⟨_, by rw [key_eq, hsplit]⟩

theorem key_connection_iff {listing : Listing} {project : Hash} {connection rest : List Char} :
    listing.key = project_prefix project ++ segment connection ++ '@' :: rest ↔
      listing.project = project ∧ listing.connection = connection ∧ rest = join listing.segments := by
  have hsplit : project_prefix project ++ segment connection ++ '@' :: rest =
      ("ellode:explore:".toList ++ project.text) ++ SEPARATOR :: (segment connection ++ '@' :: rest) := by
    rw [project_prefix_eq, List.append_assoc, List.append_assoc]
    rfl
  have hname (name : List Char) : '@' ∉ segment name := not_mem_segment (Or.inr rfl) name
  rw [key_eq, hsplit, append_sep_inj (not_mem_project _) (not_mem_project _),
    List.append_cancel_left_eq, append_sep_inj (hname _) (hname _), segment_injective.eq_iff,
    eq_comm (a := rest)]
  exact and_congr_left' ⟨Hash.ext, fun h => by rw [h]⟩

theorem key_injective : Function.Injective Listing.key := by
  intro a b h
  rw [key_eq b] at h
  have hsame : a.key = project_prefix b.project ++ segment b.connection ++ '@' :: join b.segments := by
    rw [h, project_prefix_eq, List.append_assoc, List.append_assoc, List.append_assoc]
    rfl
  obtain ⟨hproject, hconnection, hjoin⟩ := key_connection_iff.mp hsame
  have hsegments := join_inj (not_mem_segments b) (not_mem_segments a) (List.cons_ne_nil _ _)
    (List.cons_ne_nil _ _) hjoin
  obtain ⟨hdefinition, hlevel⟩ := List.cons.inj hsegments
  cases a
  cases b
  simp only [Listing.mk.injEq]
  exact ⟨hproject, hconnection, (Hash.ext hdefinition).symm, (Level.segments_injective hlevel).symm⟩

theorem glob_match_escape {text pattern key : List Char} :
    glob_match (glob_escape text ++ pattern) key = true ↔
      ∃ rest, key = text ++ rest ∧ glob_match pattern rest = true := by
  induction text generalizing key with
  | nil => simp [glob_escape]
  | cons c text ih =>
    have hstep : glob_match (glob_escape (c :: text) ++ pattern) key = true ↔
        ∃ v, key = c :: v ∧ glob_match (glob_escape text ++ pattern) v = true := by
      rw [glob_escape, List.flatMap_cons, List.append_assoc]
      split
      · exact glob_match_escaped
      · next hc => exact glob_match_literal hc
    rw [hstep]
    constructor
    · rintro ⟨v, rfl, hv⟩
      obtain ⟨rest, rfl, hrest⟩ := ih.mp hv
      exact ⟨rest, rfl, hrest⟩
    · rintro ⟨rest, rfl, hrest⟩
      exact ⟨text ++ rest, rfl, ih.mpr ⟨rest, rfl, hrest⟩⟩

theorem glob_match_escape_end {text key : List Char} :
    glob_match (glob_escape text) key = true ↔ key = text := by
  rw [← List.append_nil (glob_escape text), glob_match_escape]
  simp [glob_match_nil]

theorem glob_match_any {key : List Char} : glob_match ['*'] key = true :=
  glob_match_star.mpr ⟨key, [], (List.append_nil key).symm, glob_match_nil.mpr rfl⟩

/-- A pattern that goes on after the name of a connection. -/
theorem glob_match_connection {project : Hash} {connection after : List Char} {listing : Listing} :
    glob_match (glob_escape ( project_prefix project ++ segment connection) ++ '@' :: after)
        listing.key = true ↔
      listing.project = project ∧ listing.connection = connection ∧
        glob_match after (join listing.segments) = true := by
  have hat : '@' ∉ special := by decide
  rw [glob_match_escape]
  constructor
  · rintro ⟨rest, hkey, hrest⟩
    obtain ⟨v, rfl, hv⟩ := (glob_match_literal hat).mp hrest
    obtain ⟨hproject, hconnection, rfl⟩ := key_connection_iff.mp hkey
    exact ⟨hproject, hconnection, hv⟩
  · rintro ⟨hproject, hconnection, hafter⟩
    exact ⟨'@' :: join listing.segments, key_connection_iff.mpr ⟨hproject, hconnection, rfl⟩,
      (glob_match_literal hat).mpr ⟨_, rfl, hafter⟩⟩

/-- The `*/` of a pattern stops at some separator of the segments after the definition. -/
theorem glob_match_segments {listing : Listing} {after : List Char} :
    glob_match ('*' :: SEPARATOR :: after) (join listing.segments) = true ↔
      ∃ a b, listing.segments = a ++ b ∧ a ≠ [] ∧ b ≠ [] ∧ glob_match after (join b) = true := by
  have hsep : SEPARATOR ∉ special := by decide
  rw [glob_match_star]
  constructor
  · rintro ⟨u, v, huv, hv⟩
    obtain ⟨w, rfl, hw⟩ := (glob_match_literal hsep).mp hv
    obtain ⟨a, b, hab, ha, hb, -, rfl⟩ := (join_eq_append_sep (not_mem_segments listing)).mp huv
    exact ⟨a, b, hab, ha, hb, hw⟩
  · rintro ⟨a, b, hab, ha, hb, hafter⟩
    exact ⟨join a, SEPARATOR :: join b, by rw [hab, join_append ha hb],
      (glob_match_literal hsep).mpr ⟨_, rfl, hafter⟩⟩

theorem not_mem_database (database : List Char) :
    ∀ s ∈ ["db".toList, segment database], SEPARATOR ∉ s := by
  intro s hs
  obtain rfl | hs := List.mem_cons.mp hs
  · decide
  · rw [List.mem_singleton.mp hs]
    exact not_mem_segment (Or.inl rfl) database

theorem glob_match_database {database : List Char} {b : List (List Char)}
    (hb : ∀ s ∈ b, SEPARATOR ∉ s) :
    glob_match (glob_escape ( database_prefix database) ++ ['*']) (join b) = true ↔
      ∃ rest, b = "db".toList :: segment database :: rest ∧ rest ≠ [] := by
  have hsplit (rest : List Char) : database_prefix database ++ rest =
      join ["db".toList, segment database] ++ SEPARATOR :: rest := by
    rw [database_prefix_eq, join_cons (List.cons_ne_nil _ _), List.append_assoc, List.append_assoc]
    simp only [List.cons_append, List.append_assoc]
    rfl
  rw [glob_match_escape]
  constructor
  · rintro ⟨rest, hrest, -⟩
    rw [hsplit, join_eq_append_sep hb] at hrest
    obtain ⟨b₁, b₂, rfl, hb₁, hb₂, hjoin, -⟩ := hrest
    have heq : b₁ = ["db".toList, segment database] :=
      join_inj (fun s hs => hb s (List.mem_append_left _ hs)) (not_mem_database database) hb₁
        (List.cons_ne_nil _ _) hjoin
    exact ⟨b₂, by rw [heq]; rfl, hb₂⟩
  · rintro ⟨rest, rfl, hrest⟩
    refine ⟨join rest, ?_, glob_match_any⟩
    rw [hsplit]
    exact join_append (List.cons_ne_nil "db".toList [segment database]) hrest

section

variable {α : Type} {v w x y z p q : α} {a rest : List α}

theorem pair_in_three (h : [x, y, z] = a ++ p :: q :: rest) (hrest : rest ≠ []) : x = p ∧ y = q := by
  rcases a with _ | ⟨c, _ | ⟨d, a⟩⟩
  · simp_all
  · simp_all
  · have hlength := congrArg List.length h
    simp only [List.length_cons, List.length_append, List.length_nil] at hlength
    omega

theorem pair_in_five (h : [v, w, x, y, z] = a ++ p :: q :: rest) (hrest : rest ≠ []) :
    (v = p ∧ w = q) ∨ (w = p ∧ x = q) ∨ (x = p ∧ y = q) := by
  rcases a with _ | ⟨c, _ | ⟨d, _ | ⟨e, _ | ⟨f, a⟩⟩⟩⟩
  · simp_all
  · simp_all
  · simp_all
  · simp_all
  · have hlength := congrArg List.length h
    simp only [List.length_cons, List.length_append, List.length_nil] at hlength
    omega

end

/-- The segments of a level hold a database and something after it where the level
    names it, or where `db` itself is the database and a schema follows. -/
theorem segments_database_iff {level : Level} {database : List Char} :
    (∃ a rest, level.segments = a ++ "db".toList :: segment database :: rest ∧ rest ≠ []) ↔
      level = .Schemas database ∨ (∃ schema, level = .SchemaTables database schema) ∨
        database = "schema".toList ∧ ∃ schema, level = .SchemaTables "db".toList schema := by
  have hdb : segment "db".toList = "db".toList := by decide
  have hschema : segment "schema".toList = "schema".toList := by decide
  have hne : "schema".toList ≠ "db".toList := by decide
  constructor
  · rintro ⟨a, rest, h, hrest⟩
    cases level with
    | Tables =>
      have hlength := congrArg List.length h
      simp only [Level.segments, List.length_cons, List.length_append, List.length_nil] at hlength
      omega
    | Databases =>
      have hlength := congrArg List.length h
      simp only [Level.segments, List.length_cons, List.length_append, List.length_nil] at hlength
      omega
    | Schemas name =>
      have hname := segment_injective (pair_in_three h hrest).2
      exact Or.inl (by rw [hname])
    | SchemaTables name schema =>
      obtain ⟨-, hname⟩ | ⟨hname, hword⟩ | ⟨hword, -⟩ := pair_in_five h hrest
      · exact Or.inr (Or.inl ⟨schema, by rw [segment_injective hname]⟩)
      · rw [← hdb] at hname
        rw [← hschema] at hword
        exact Or.inr (Or.inr ⟨(segment_injective hword).symm, schema, by rw [segment_injective hname]⟩)
      · exact absurd hword hne
  · rintro (rfl | ⟨schema, rfl⟩ | ⟨rfl, schema, rfl⟩)
    · exact ⟨[], _, rfl, List.cons_ne_nil _ _⟩
    · exact ⟨[], _, rfl, List.cons_ne_nil _ _⟩
    · refine ⟨["db".toList], [segment schema, "tables".toList], ?_, List.cons_ne_nil _ _⟩
      rw [hschema]
      dsimp only [Level.segments]
      rw [hdb]
      rfl

theorem segments_schema_iff {level : Level} {database schema : List Char} :
    (∃ a b, level.segments = a ++ b ∧ b = (Level.SchemaTables database schema).segments) ↔
      level = .SchemaTables database schema := by
  constructor
  · rintro ⟨a, b, h, rfl⟩
    have hlength := congrArg List.length h
    have hempty : a = [] := by
      rw [← List.length_eq_zero_iff]
      cases level <;> simp only [Level.segments, List.length_cons, List.length_append, List.length_nil] at hlength <;>
        omega
    rw [hempty] at h
    exact Level.segments_injective h
  · rintro rfl
    exact ⟨[], _, rfl, rfl⟩

theorem glob_match_level {project : Hash} {connection after : List Char} {listing : Listing} :
    glob_match (glob_escape ( project_prefix project ++ segment connection) ++
        '@' :: '*' :: SEPARATOR :: after) listing.key = true ↔
      listing.project = project ∧ listing.connection = connection ∧
        ∃ a b, listing.level.segments = a ++ b ∧ b ≠ [] ∧ glob_match after (join b) = true := by
  rw [glob_match_connection, glob_match_segments]
  refine and_congr_right' (and_congr_right' ?_)
  constructor
  · rintro ⟨a, b, hab, ha, hb, hafter⟩
    obtain ⟨c, a, rfl⟩ := List.exists_cons_of_ne_nil ha
    exact ⟨a, b, (List.cons.inj hab).2, hb, hafter⟩
  · rintro ⟨a, b, hab, hb, hafter⟩
    refine ⟨listing.definition.text :: a, b, ?_, List.cons_ne_nil _ _, hb, hafter⟩
    rw [Listing.segments, hab]
    rfl

theorem not_mem_level {level : Level} {a b : List (List Char)} (h : level.segments = a ++ b) :
    ∀ s ∈ b, SEPARATOR ∉ s := by
  intro s hs
  let listing : Listing := ⟨⟨[], by simp⟩, [], ⟨[], by simp⟩, level⟩
  apply not_mem_segments listing s
  rw [Listing.segments, h]
  exact List.mem_cons_of_mem _ (List.mem_append_right _ hs)

theorem match_project_iff {project : Hash} {listing : Listing} :
    glob_match (pattern project .Project) listing.key = true ↔ listing.project = project := by
  rw [← key_project_iff]
  refine Iff.trans glob_match_escape ?_
  exact ⟨fun ⟨rest, h, _⟩ => ⟨rest, h⟩, fun ⟨rest, h⟩ => ⟨rest, h, glob_match_any⟩⟩

theorem match_connection_iff {project : Hash} {connection : List Char} {listing : Listing} :
    glob_match (pattern project (.Connection connection)) listing.key = true ↔
      listing.project = project ∧ listing.connection = connection := by
  have hpattern : pattern project (.Connection connection) =
      glob_escape ( project_prefix project ++ segment connection) ++ '@' :: ['*'] := rfl
  rw [hpattern, glob_match_connection, and_iff_left glob_match_any]

theorem match_database_iff {project : Hash} {connection database : List Char} {listing : Listing} :
    glob_match (pattern project (.Database connection database)) listing.key = true ↔
      listing.project = project ∧ listing.connection = connection ∧
        (listing.level = .Schemas database ∨ (∃ schema, listing.level = .SchemaTables database schema) ∨
          database = "schema".toList ∧ ∃ schema, listing.level = .SchemaTables "db".toList schema) := by
  have hpattern : pattern project (.Database connection database) =
      glob_escape ( project_prefix project ++ segment connection) ++ '@' :: '*' :: SEPARATOR ::
        (glob_escape ( database_prefix database) ++ ['*']) := by
    dsimp only [pattern]
    rw [List.append_assoc, List.append_assoc]
    rfl
  rw [hpattern, glob_match_level, ← segments_database_iff]
  refine and_congr_right' (and_congr_right' ?_)
  constructor
  · rintro ⟨a, b, hab, -, hmatch⟩
    obtain ⟨rest, rfl, hrest⟩ := (glob_match_database (not_mem_level hab)).mp hmatch
    exact ⟨a, rest, hab, hrest⟩
  · rintro ⟨a, rest, hab, hrest⟩
    exact ⟨a, _, hab, List.cons_ne_nil _ _, (glob_match_database (not_mem_level hab)).mpr ⟨rest, rfl, hrest⟩⟩

theorem match_schema_iff {project : Hash} {connection database schema : List Char} {listing : Listing} :
    glob_match (pattern project (.Schema connection database schema)) listing.key = true ↔
      listing.project = project ∧ listing.connection = connection ∧
        listing.level = .SchemaTables database schema := by
  have hpattern : pattern project (.Schema connection database schema) =
      glob_escape ( project_prefix project ++ segment connection) ++ '@' :: '*' :: SEPARATOR ::
        glob_escape (level_suffix (.SchemaTables database schema)) := by
    dsimp only [pattern]
    rw [List.append_assoc]
    rfl
  rw [hpattern, glob_match_level, ← segments_schema_iff]
  refine and_congr_right' (and_congr_right' (exists_congr fun a => exists_congr fun b => ?_))
  rw [glob_match_escape_end, level_suffix_eq]
  constructor
  · rintro ⟨hab, hb, hjoin⟩
    exact ⟨hab, join_inj (not_mem_level hab) (not_mem_level (List.nil_append _).symm) hb
      (Level.segments_ne_nil _) hjoin⟩
  · rintro ⟨hab, rfl⟩
    exact ⟨hab, Level.segments_ne_nil _, rfl⟩

/-- Two listings share a key only if they are the same, and the pattern of a scope matches
    the key of a listing exactly when it is in the scope, but for the one it swallows. -/
theorem scopes_select_iff (project : Hash) (scope : Scope) (listing other : Listing) :
    (listing.key = other.key → listing = other) ∧
      ((glob_match (pattern project scope) listing.key = true ↔ InScope project listing scope) ↔
        ¬ Swallowed project listing scope) := by
  refine ⟨fun h => key_injective h, ?_⟩
  cases scope with
  | Project =>
    refine iff_of_true match_project_iff ?_
    rintro ⟨-, hscope, -⟩
    cases hscope
  | Connection connection =>
    refine iff_of_true match_connection_iff ?_
    rintro ⟨-, hscope, -⟩
    cases hscope
  | Database connection database =>
    rw [match_database_iff]
    constructor
    · rintro h ⟨hproject, hscope, schema, hlevel⟩
      obtain ⟨hconnection, hdatabase⟩ := Scope.Database.inj hscope
      obtain ⟨-, -, hschemas | ⟨other, htables⟩⟩ :=
        h.mp ⟨hproject, hconnection.symm, Or.inr (Or.inr ⟨hdatabase, schema, hlevel⟩)⟩
      · rw [hlevel] at hschemas
        cases hschemas
      · rw [hlevel, hdatabase] at htables
        exact absurd (Level.SchemaTables.inj htables).1 (by decide)
    · intro hswallowed
      refine and_congr_right fun hproject => and_congr_right fun hconnection => ?_
      rw [← or_assoc, or_iff_left]
      rintro ⟨hdatabase, hlevel⟩
      exact hswallowed ⟨hproject, by rw [hconnection, hdatabase], hlevel⟩
  | Schema connection database schema =>
    refine iff_of_true match_schema_iff ?_
    rintro ⟨-, hscope, -⟩
    cases hscope

/-- A refresh of the database `schema` drops a listing of the database `db`. -/
theorem sample_swallowed :
    let project : Hash := ⟨"0123456789abcdef".toList, fun _ hc => hc⟩
    let listing : Listing :=
      { project
        connection := "wh".toList
        definition := project
        level := .SchemaTables "db".toList "raw".toList }
    glob_match (pattern project (.Database "wh".toList "schema".toList)) listing.key = true ∧
      ¬ InScope project listing (.Database "wh".toList "schema".toList) := by
  intro project listing
  refine ⟨match_database_iff.mpr ⟨rfl, rfl, Or.inr (Or.inr ⟨rfl, _, rfl⟩)⟩, ?_⟩
  rintro ⟨-, -, hschemas | ⟨schema, htables⟩⟩
  · cases hschemas
  · exact absurd (Level.SchemaTables.inj htables).1 (by decide)

end zed.dbt_ui.el.listing_cache
