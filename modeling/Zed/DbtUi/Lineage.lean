import Zed.Transition

namespace zed.dbt_ui

/-- A file of target/: what is in it and when it was written, and every mtime it
    ever had. It need not be there yet. -/
structure File (Content : Type) where
  current : Option (Content × Nat)
  mtimes : List Nat
  known : ∀ written ∈ current, written.2 ∈ mtimes

namespace File

variable {Content : Type}

def content (file : File Content) : Option Content :=
  file.current.map Prod.fst

def mtime (file : File Content) : Option Nat :=
  file.current.map Prod.snd

/-- A write: the file gets an mtime that it did not have before. -/
def write (file : File Content) (content : Content) (mtime : Nat) : Option (File Content) :=
  if mtime ∈ file.mtimes then none
  else some
    { current := some (content, mtime)
      mtimes := mtime :: file.mtimes
      known := by simp }

end File

/-- What a store keeps of a graph: when its manifest and its catalog were written. -/
structure Loaded (Graph : Type) where
  graph : Graph
  manifest_mtime : Nat
  catalog_mtime : Option Nat

/-- Where a call of `with_loaded` is. From `reading_manifest` on it holds the lock. -/
inductive Query (Value Graph : Type) where
  | idle
  | reading_manifest_mtime
  | reading_catalog_mtime (manifest_mtime : Nat)
  | locking (manifest_mtime : Nat) (current_catalog_mtime : Option Nat)
  | reading_manifest (manifest_mtime : Nat)
  | reading_catalog (manifest_mtime : Nat) (manifest : Value)
  | storing (manifest_mtime : Nat) (graph : Graph)
  | answering
  | done (answer : Except String Graph)

/-- The files of a project, its store and the calls of `with_loaded`. -/
structure LineageStore (Content Value Graph : Type) where
  manifest : File Content
  catalog : File Content
  inner : Option (Loaded Graph)
  lock : Option Nat
  queries : Nat → Query Value Graph

/-- dbt writes a file, a query is asked, or a query takes its next step. -/
inductive LineageAction (Content : Type) where
  | write_manifest (content : Content) (mtime : Nat)
  | write_catalog (content : Content) (mtime : Nat)
  | ask (query : Nat)
  | advance (query : Nat)

namespace LineageStore

variable {Content Value Graph : Type}

def new (manifest catalog : File Content) : LineageStore Content Value Graph :=
  { manifest := manifest
    catalog := catalog
    inner := none
    lock := none
    queries := fun _ => .idle }

def set_query (s : LineageStore Content Value Graph) (query : Nat) (phase : Query Value Graph) :
    LineageStore Content Value Graph :=
  { s with queries := Function.update s.queries query phase }

/-- A query is answered without the lock, or gives it back. -/
def finish (s : LineageStore Content Value Graph) (query : Nat) (answer : Except String Graph) :
    LineageStore Content Value Graph :=
  { s.set_query query (.done answer) with lock := none }

def needs_rebuild (inner : Option (Loaded Graph)) (manifest_mtime : Nat) (current_catalog_mtime : Option Nat) :
    Bool :=
  match inner with
  | some loaded => loaded.manifest_mtime != manifest_mtime || loaded.catalog_mtime != current_catalog_mtime
  | none => true

section

-- the reader of JSON, and what `build_graph` makes of a manifest and a catalog
variable (from_slice : Content → Option Value) (graph_of : Value → Option Value → Except String Graph)

/-- The next step of a call of `with_loaded`, up to what it next reads from outside. -/
def with_loaded (s : LineageStore Content Value Graph) (query : Nat) : Option (LineageStore Content Value Graph) :=
  match s.queries query with
  | .idle => none
  | .reading_manifest_mtime =>
    match s.manifest.mtime with
    | none => some (s.set_query query (.done (.error "no target/manifest.json — run `dbt parse` first")))
    | some manifest_mtime => some (s.set_query query (.reading_catalog_mtime manifest_mtime))
  | .reading_catalog_mtime manifest_mtime =>
    some (s.set_query query (.locking manifest_mtime s.catalog.mtime))
  | .locking manifest_mtime current_catalog_mtime =>
    if s.lock.isSome then none
    else if needs_rebuild s.inner manifest_mtime current_catalog_mtime then
      some { s.set_query query (.reading_manifest manifest_mtime) with lock := some query }
    else
      some { s.set_query query .answering with lock := some query }
  -- `build_graph` reads the manifest, then the catalog, then the catalog's mtime
  | .reading_manifest manifest_mtime =>
    match s.manifest.content with
    | none => some (s.finish query (.error "opening target/manifest.json"))
    | some content =>
      match from_slice content with
      | none => some (s.finish query (.error "parsing target/manifest.json"))
      | some manifest => some (s.set_query query (.reading_catalog manifest_mtime manifest))
  | .reading_catalog manifest_mtime manifest =>
    match graph_of manifest (s.catalog.content.bind from_slice) with
    | .error message => some (s.finish query (.error message))
    | .ok graph => some (s.set_query query (.storing manifest_mtime graph))
  | .storing manifest_mtime graph =>
    some
      { s.set_query query .answering with
        inner := some
          { graph := graph
            manifest_mtime := manifest_mtime
            catalog_mtime := s.catalog.mtime } }
  | .answering => s.inner.map fun loaded => s.finish query (.ok loaded.graph)
  | .done _ => none

def step (s : LineageStore Content Value Graph) : LineageAction Content → Option (LineageStore Content Value Graph)
  | .write_manifest content mtime =>
    (s.manifest.write content mtime).map fun manifest => { s with manifest := manifest }
  | .write_catalog content mtime =>
    (s.catalog.write content mtime).map fun catalog => { s with catalog := catalog }
  | .ask query =>
    match s.queries query with
    | .idle => some (s.set_query query .reading_manifest_mtime)
    | _ => none
  | .advance query => s.with_loaded from_slice graph_of query

/-- What a query that reads the files as they are now answers. -/
def latest (s : LineageStore Content Value Graph) : Except String Graph :=
  match s.manifest.content with
  | none => .error "no target/manifest.json — run `dbt parse` first"
  | some content =>
    match from_slice content with
    | none => .error "parsing target/manifest.json"
    | some manifest => graph_of manifest (s.catalog.content.bind from_slice)

end

end LineageStore

end zed.dbt_ui

namespace zed.dbt_ui

open zed.transition

namespace File

variable {Content : Type}

/-- What was read of a file together with an mtime it had: as long as the file has
    that mtime, this is what is in it. -/
structure Saw (file : File Content) (mtime : Option Nat) (content : Option Content) : Prop where
  known : ∀ m ∈ mtime, m ∈ file.mtimes
  same : file.mtime = mtime → file.content = content

theorem saw_now (file : File Content) : file.Saw file.mtime file.content := by
  refine ⟨?_, fun _ => rfl⟩
  intro m hm
  obtain ⟨written, hwritten, rfl⟩ := Option.map_eq_some_iff.mp hm
  exact file.known written hwritten

theorem mem_mtimes {file : File Content} {m : Nat} (hm : file.mtime = some m) : m ∈ file.mtimes :=
  (saw_now file).known m (by simp [hm])

theorem content_of_mtime {file : File Content} {m : Nat} (hm : file.mtime = some m) :
    ∃ content, file.content = some content := by
  obtain ⟨written, hwritten, -⟩ := Option.map_eq_some_iff.mp hm
  exact ⟨written.1, by simp [content, hwritten]⟩

theorem write_spec {file file' : File Content} {c : Content} {m : Nat} (hwrite : file.write c m = some file') :
    m ∉ file.mtimes ∧ file'.mtime = some m ∧ file'.content = some c ∧ file'.mtimes = m :: file.mtimes := by
  unfold write at hwrite
  split at hwrite
  · simp at hwrite
  · next hfresh =>
    obtain rfl := Option.some.inj hwrite
    exact ⟨hfresh, rfl, rfl, rfl⟩

theorem Saw.write {file file' : File Content} {c : Content} {m : Nat} {mtime : Option Nat}
    {content : Option Content} (hsaw : file.Saw mtime content) (hwrite : file.write c m = some file') :
    file'.Saw mtime content := by
  obtain ⟨hfresh, hmtime, -, hmtimes⟩ := write_spec hwrite
  refine ⟨fun k hk => ?_, fun heq => ?_⟩
  · rw [hmtimes]
    exact List.mem_cons_of_mem _ (hsaw.known k hk)
  · rw [hmtime] at heq
    exact absurd (hsaw.known m (by simp [← heq])) hfresh

end File

namespace LineageStore

variable {Content Value Graph : Type}

def Locked : Query Value Graph → Prop
  | .reading_manifest _ | .reading_catalog _ _ | .storing _ _ | .answering => True
  | _ => False

@[simp] theorem set_query_manifest (s : LineageStore Content Value Graph) (query : Nat)
    (phase : Query Value Graph) : (s.set_query query phase).manifest = s.manifest := rfl

@[simp] theorem set_query_catalog (s : LineageStore Content Value Graph) (query : Nat)
    (phase : Query Value Graph) : (s.set_query query phase).catalog = s.catalog := rfl

@[simp] theorem set_query_inner (s : LineageStore Content Value Graph) (query : Nat)
    (phase : Query Value Graph) : (s.set_query query phase).inner = s.inner := rfl

@[simp] theorem set_query_lock (s : LineageStore Content Value Graph) (query : Nat)
    (phase : Query Value Graph) : (s.set_query query phase).lock = s.lock := rfl

@[simp] theorem set_query_self (s : LineageStore Content Value Graph) (query : Nat)
    (phase : Query Value Graph) : (s.set_query query phase).queries query = phase := by
  simp [set_query]

theorem set_query_of_ne (s : LineageStore Content Value Graph) {query other : Nat} (phase : Query Value Graph)
    (hne : other ≠ query) : (s.set_query query phase).queries other = s.queries other := by
  simp [set_query, hne]

section

variable (from_slice : Content → Option Value) (graph_of : Value → Option Value → Except String Graph)

/-- The steps of a query: where it was, what it found, and what it leaves. -/
inductive Advances (s : LineageStore Content Value Graph) (query : Nat) : LineageStore Content Value Graph → Prop
  | no_manifest (hphase : s.queries query = .reading_manifest_mtime) (hmtime : s.manifest.mtime = none) :
    Advances s query
      (s.set_query query (.done (.error "no target/manifest.json — run `dbt parse` first")))
  | manifest_mtime (m : Nat) (hphase : s.queries query = .reading_manifest_mtime)
    (hmtime : s.manifest.mtime = some m) :
    Advances s query (s.set_query query (.reading_catalog_mtime m))
  | catalog_mtime (m : Nat) (hphase : s.queries query = .reading_catalog_mtime m) :
    Advances s query (s.set_query query (.locking m s.catalog.mtime))
  | rebuild (m : Nat) (current : Option Nat) (hphase : s.queries query = .locking m current)
    (hlock : s.lock = none) (hneeds : needs_rebuild s.inner m current = true) :
    Advances s query { s.set_query query (.reading_manifest m) with lock := some query }
  | reuse (m : Nat) (current : Option Nat) (hphase : s.queries query = .locking m current)
    (hlock : s.lock = none) (hneeds : needs_rebuild s.inner m current = false) :
    Advances s query { s.set_query query .answering with lock := some query }
  | gone (m : Nat) (hphase : s.queries query = .reading_manifest m) (hcontent : s.manifest.content = none) :
    Advances s query (s.finish query (.error "opening target/manifest.json"))
  | malformed (m : Nat) (content : Content) (hphase : s.queries query = .reading_manifest m)
    (hcontent : s.manifest.content = some content) (hparse : from_slice content = none) :
    Advances s query (s.finish query (.error "parsing target/manifest.json"))
  | manifest (m : Nat) (content : Content) (value : Value) (hphase : s.queries query = .reading_manifest m)
    (hcontent : s.manifest.content = some content) (hparse : from_slice content = some value) :
    Advances s query (s.set_query query (.reading_catalog m value))
  | no_graph (m : Nat) (value : Value) (message : String) (hphase : s.queries query = .reading_catalog m value)
    (hgraph : graph_of value (s.catalog.content.bind from_slice) = .error message) :
    Advances s query (s.finish query (.error message))
  | graph (m : Nat) (value : Value) (graph : Graph) (hphase : s.queries query = .reading_catalog m value)
    (hgraph : graph_of value (s.catalog.content.bind from_slice) = .ok graph) :
    Advances s query (s.set_query query (.storing m graph))
  | store (m : Nat) (graph : Graph) (hphase : s.queries query = .storing m graph) :
    Advances s query
      { s.set_query query .answering with inner := some ⟨graph, m, s.catalog.mtime⟩ }
  | answer (loaded : Loaded Graph) (hphase : s.queries query = .answering) (hinner : s.inner = some loaded) :
    Advances s query (s.finish query (.ok loaded.graph))

variable {from_slice graph_of}

theorem advances_of_with_loaded {s t : LineageStore Content Value Graph} {query : Nat}
    (hstep : s.with_loaded from_slice graph_of query = some t) : Advances from_slice graph_of s query t := by
  unfold with_loaded at hstep
  split at hstep
  case h_1 => simp at hstep
  case h_2 hphase =>
    split at hstep
    · next hmtime => exact Option.some.inj hstep ▸ .no_manifest hphase hmtime
    · next m hmtime => exact Option.some.inj hstep ▸ .manifest_mtime m hphase hmtime
  case h_3 m hphase => exact Option.some.inj hstep ▸ .catalog_mtime m hphase
  case h_4 m current hphase =>
    split at hstep
    · simp at hstep
    · next hlock =>
      rw [Bool.not_eq_true, Option.isSome_eq_false_iff, Option.isNone_iff_eq_none] at hlock
      split at hstep
      · next hneeds => exact Option.some.inj hstep ▸ .rebuild m current hphase hlock hneeds
      · next hneeds =>
        exact Option.some.inj hstep ▸ .reuse m current hphase hlock (by simpa using hneeds)
  case h_5 m hphase =>
    split at hstep
    · next hcontent => exact Option.some.inj hstep ▸ .gone m hphase hcontent
    · next content hcontent =>
      split at hstep
      · next hparse => exact Option.some.inj hstep ▸ .malformed m content hphase hcontent hparse
      · next value hparse => exact Option.some.inj hstep ▸ .manifest m content value hphase hcontent hparse
  case h_6 m value hphase =>
    split at hstep
    · next message hgraph => exact Option.some.inj hstep ▸ .no_graph m value message hphase hgraph
    · next graph hgraph => exact Option.some.inj hstep ▸ .graph m value graph hphase hgraph
  case h_7 m graph hphase => exact Option.some.inj hstep ▸ .store m graph hphase
  case h_8 hphase =>
    obtain ⟨loaded, hinner, rfl⟩ := Option.map_eq_some_iff.mp hstep
    exact .answer loaded hphase hinner
  case h_9 => simp at hstep

theorem ask_spec {s t : LineageStore Content Value Graph} {query : Nat}
    (hstep : s.step from_slice graph_of (.ask query) = some t) :
    s.queries query = .idle ∧ t = s.set_query query .reading_manifest_mtime := by
  cases hphase : s.queries query <;> simp_all [step]

theorem step_files {s t : LineageStore Content Value Graph} {query : Nat}
    (hstep : Advances from_slice graph_of s query t) :
    t.manifest = s.manifest ∧ t.catalog = s.catalog ∧ ∀ other, other ≠ query → t.queries other = s.queries other := by
  cases hstep <;> exact ⟨rfl, rfl, fun other hne => set_query_of_ne s _ hne⟩

variable (from_slice graph_of)

def Built (manifest : File Content) (manifest_mtime : Nat) (catalog : Option Content) (graph : Graph) : Prop :=
  ∃ content value, from_slice content = some value ∧ manifest.Saw (some manifest_mtime) (some content) ∧
    graph_of value (catalog.bind from_slice) = .ok graph

/-- What a query has read so far fits the files; of the catalog, if we may be sure
    that it was not written since. -/
def Knows (sure : Prop) (s : LineageStore Content Value Graph) : Query Value Graph → Prop
  | .reading_catalog_mtime m | .locking m _ | .reading_manifest m => m ∈ s.manifest.mtimes
  | .reading_catalog m value =>
    ∃ content, from_slice content = some value ∧ s.manifest.Saw (some m) (some content)
  | .storing m graph =>
    ∃ catalog, Built from_slice graph_of s.manifest m catalog graph ∧ (sure → s.catalog.content = catalog)
  | _ => True

/-- What every state of a store keeps. -/
structure Inv (sure : Prop) (s : LineageStore Content Value Graph) : Prop where
  inner : ∀ loaded ∈ s.inner, ∃ catalog,
    Built from_slice graph_of s.manifest loaded.manifest_mtime catalog loaded.graph ∧
    (∀ m ∈ loaded.catalog_mtime, m ∈ s.catalog.mtimes) ∧
    (sure → s.catalog.mtime = loaded.catalog_mtime → s.catalog.content = catalog)
  knows : ∀ query, Knows from_slice graph_of sure s (s.queries query)
  locked : ∀ query, Locked (s.queries query) → s.lock = some query

/-- No query is between its reading of the catalog and of the catalog's mtime. -/
def Outside (s : LineageStore Content Value Graph) : Prop :=
  ∀ query m graph, s.queries query ≠ .storing m graph

variable {from_slice graph_of}

theorem inv_new (sure : Prop) (manifest catalog : File Content) :
    Inv from_slice graph_of sure (new manifest catalog : LineageStore Content Value Graph) :=
  ⟨by simp [new], fun _ => trivial, fun _ hlocked => hlocked.elim⟩

theorem Built.write {manifest manifest' : File Content} {c : Content} {m k : Nat} {catalog : Option Content}
    {graph : Graph} (hbuilt : Built from_slice graph_of manifest k catalog graph)
    (hwrite : manifest.write c m = some manifest') : Built from_slice graph_of manifest' k catalog graph := by
  obtain ⟨content, value, hparse, hsaw, hgraph⟩ := hbuilt
  exact ⟨content, value, hparse, hsaw.write hwrite, hgraph⟩

theorem Inv.write_manifest {sure : Prop} {s : LineageStore Content Value Graph} {manifest' : File Content}
    {c : Content} {m : Nat} (hinv : Inv from_slice graph_of sure s)
    (hwrite : s.manifest.write c m = some manifest') :
    Inv from_slice graph_of sure { s with manifest := manifest' } := by
  obtain ⟨-, -, -, hmtimes⟩ := File.write_spec hwrite
  have hmem : ∀ k ∈ s.manifest.mtimes, k ∈ manifest'.mtimes := by simp_all
  refine ⟨?_, ?_, hinv.locked⟩
  · intro loaded hloaded
    obtain ⟨catalog, hbuilt, hrest⟩ := hinv.inner loaded hloaded
    exact ⟨catalog, hbuilt.write hwrite, hrest⟩
  · intro query
    have hknows := hinv.knows query
    show Knows from_slice graph_of sure _ (s.queries query)
    cases hphase : s.queries query <;> rw [hphase] at hknows <;> try trivial
    case reading_catalog_mtime => exact hmem _ hknows
    case locking => exact hmem _ hknows
    case reading_manifest => exact hmem _ hknows
    case reading_catalog =>
      obtain ⟨content, hparse, hsaw⟩ := hknows
      exact ⟨content, hparse, hsaw.write hwrite⟩
    case storing =>
      obtain ⟨catalog, hbuilt, hsame⟩ := hknows
      exact ⟨catalog, hbuilt.write hwrite, hsame⟩

theorem Inv.write_catalog {sure sure' : Prop} {s : LineageStore Content Value Graph} {catalog' : File Content}
    {c : Content} {m : Nat} (hinv : Inv from_slice graph_of sure s)
    (hwrite : s.catalog.write c m = some catalog') (houtside : sure' → s.Outside) :
    Inv from_slice graph_of sure' { s with catalog := catalog' } := by
  obtain ⟨hfresh, hmtime, -, hmtimes⟩ := File.write_spec hwrite
  refine ⟨?_, ?_, hinv.locked⟩
  · intro loaded hloaded
    obtain ⟨catalog, hbuilt, hknown, -⟩ := hinv.inner loaded hloaded
    refine ⟨catalog, hbuilt, fun k hk => hmtimes ▸ List.mem_cons_of_mem _ (hknown k hk), fun _ heq => ?_⟩
    rw [hmtime] at heq
    exact absurd (hknown m (by simp [← heq])) hfresh
  · intro query
    have hknows := hinv.knows query
    show Knows from_slice graph_of sure' _ (s.queries query)
    cases hphase : s.queries query <;> rw [hphase] at hknows <;> try exact hknows
    case storing k graph =>
      obtain ⟨catalog, hbuilt, -⟩ := hknows
      exact ⟨catalog, hbuilt, fun hsure => absurd hphase (houtside hsure query k graph)⟩

theorem Inv.of_query {sure : Prop} {s t : LineageStore Content Value Graph} {query : Nat}
    (hinv : Inv from_slice graph_of sure s) (hmanifest : t.manifest = s.manifest) (hcatalog : t.catalog = s.catalog)
    (hothers : ∀ other, other ≠ query → t.queries other = s.queries other)
    (hinner : t.inner = s.inner) (hknows : Knows from_slice graph_of sure t (t.queries query))
    (hlocked : ∀ other, Locked (t.queries other) → t.lock = some other) : Inv from_slice graph_of sure t := by
  refine ⟨?_, ?_, hlocked⟩
  · rw [hinner, hmanifest, hcatalog]
    exact hinv.inner
  · intro other
    obtain rfl | hne := eq_or_ne other query
    · exact hknows
    · have hother := hinv.knows other
      rw [hothers other hne]
      cases hphase : s.queries other <;> rw [hphase] at hother <;>
        simp only [Knows, hmanifest, hcatalog] at hother ⊢ <;> exact hother

theorem Inv.locked_of_others {sure : Prop} {s t : LineageStore Content Value Graph} {query : Nat}
    (hinv : Inv from_slice graph_of sure s) (hothers : ∀ other, other ≠ query → t.queries other = s.queries other)
    (hlock : t.lock = s.lock ∨ s.lock = none ∨ s.lock = some query)
    (hself : Locked (t.queries query) → t.lock = some query) :
    ∀ other, Locked (t.queries other) → t.lock = some other := by
  intro other hother
  obtain rfl | hne := eq_or_ne other query
  · exact hself hother
  · rw [hothers other hne] at hother
    have hheld := hinv.locked other hother
    obtain hsame | hfree | hheld' := hlock
    · rw [hsame, hheld]
    · simp [hheld] at hfree
    · exact absurd (Option.some.inj (hheld.symm.trans hheld')) hne

theorem Inv.advance {sure : Prop} {s t : LineageStore Content Value Graph} {query : Nat}
    (hinv : Inv from_slice graph_of sure s) (hstep : Advances from_slice graph_of s query t) :
    Inv from_slice graph_of sure t := by
  obtain ⟨hmanifest, hcatalog, hothers⟩ := step_files hstep
  have hknows := hinv.knows query
  have hheld := hinv.locked query
  cases hstep with
  | no_manifest hphase hmtime =>
    refine hinv.of_query rfl rfl hothers rfl (by simp [Knows]) ?_
    exact hinv.locked_of_others hothers (.inl rfl) (by simp [Locked])
  | manifest_mtime m hphase hmtime =>
    refine hinv.of_query rfl rfl hothers rfl (by simpa [Knows] using File.mem_mtimes hmtime) ?_
    exact hinv.locked_of_others hothers (.inl rfl) (by simp [Locked])
  | catalog_mtime m hphase =>
    rw [hphase] at hknows
    refine hinv.of_query rfl rfl hothers rfl (by simpa [Knows] using hknows) ?_
    exact hinv.locked_of_others hothers (.inl rfl) (by simp [Locked])
  | rebuild m current hphase hlock hneeds =>
    rw [hphase] at hknows
    refine hinv.of_query rfl rfl hothers rfl (by simpa [Knows] using hknows) ?_
    exact hinv.locked_of_others hothers (.inr (.inl hlock)) (by simp)
  | reuse m current hphase hlock hneeds =>
    refine hinv.of_query rfl rfl hothers rfl (by simp [Knows]) ?_
    exact hinv.locked_of_others hothers (.inr (.inl hlock)) (by simp)
  | gone m hphase hcontent =>
    rw [hphase] at hheld
    refine hinv.of_query rfl rfl hothers rfl (by simp [Knows, finish]) ?_
    exact hinv.locked_of_others hothers (.inr (.inr (hheld trivial))) (by simp [Locked, finish])
  | malformed m content hphase hcontent hparse =>
    rw [hphase] at hheld
    refine hinv.of_query rfl rfl hothers rfl (by simp [Knows, finish]) ?_
    exact hinv.locked_of_others hothers (.inr (.inr (hheld trivial))) (by simp [Locked, finish])
  | manifest m content value hphase hcontent hparse =>
    rw [hphase] at hheld hknows
    have hsaw : s.manifest.Saw (some m) (some content) :=
      ⟨by simpa [Knows] using hknows, fun _ => hcontent⟩
    refine hinv.of_query rfl rfl hothers rfl (by simpa [Knows] using ⟨content, hparse, hsaw⟩) ?_
    exact hinv.locked_of_others hothers (.inl rfl) (fun _ => hheld trivial)
  | no_graph m value message hphase hgraph =>
    rw [hphase] at hheld
    refine hinv.of_query rfl rfl hothers rfl (by simp [Knows, finish]) ?_
    exact hinv.locked_of_others hothers (.inr (.inr (hheld trivial))) (by simp [Locked, finish])
  | graph m value graph hphase hgraph =>
    rw [hphase] at hheld hknows
    obtain ⟨content, hparse, hsaw⟩ := hknows
    have hbuilt : Built from_slice graph_of s.manifest m s.catalog.content graph :=
      ⟨content, value, hparse, hsaw, hgraph⟩
    refine hinv.of_query rfl rfl hothers rfl (by simpa [Knows] using ⟨_, hbuilt, fun _ => rfl⟩) ?_
    exact hinv.locked_of_others hothers (.inl rfl) (fun _ => hheld trivial)
  | store m graph hphase =>
    rw [hphase] at hheld hknows
    obtain ⟨catalog, hbuilt, hsame⟩ := hknows
    refine ⟨?_, ?_, ?_⟩
    · intro loaded hloaded
      obtain rfl := Option.some.inj hloaded
      exact ⟨catalog, hbuilt, s.catalog.saw_now.known, fun hsure _ => hsame hsure⟩
    · intro other
      obtain rfl | hne := eq_or_ne other query
      · simp [Knows]
      · have hother := hinv.knows other
        rw [hothers other hne]
        cases hphase' : s.queries other <;> rw [hphase'] at hother <;> exact hother
    · exact hinv.locked_of_others hothers (.inl rfl) (fun _ => hheld trivial)
  | answer loaded hphase hinner =>
    rw [hphase] at hheld
    refine hinv.of_query rfl rfl hothers rfl (by simp [Knows, finish]) ?_
    exact hinv.locked_of_others hothers (.inr (.inr (hheld trivial))) (by simp [Locked, finish])

theorem Inv.step {sure : Prop} {s t : LineageStore Content Value Graph} {action : LineageAction Content}
    (hinv : Inv from_slice graph_of sure s)
    (hoverlooked : sure → ∀ content mtime, action = .write_catalog content mtime → s.Outside)
    (hstep : s.step from_slice graph_of action = some t) : Inv from_slice graph_of sure t := by
  cases action with
  | write_manifest content mtime =>
    obtain ⟨manifest', hwrite, rfl⟩ := Option.map_eq_some_iff.mp hstep
    exact hinv.write_manifest hwrite
  | write_catalog content mtime =>
    obtain ⟨catalog', hwrite, rfl⟩ := Option.map_eq_some_iff.mp hstep
    exact hinv.write_catalog hwrite fun hsure => hoverlooked hsure content mtime rfl
  | ask query =>
    obtain ⟨-, rfl⟩ := ask_spec hstep
    have hothers : ∀ other, other ≠ query →
        (s.set_query query .reading_manifest_mtime).queries other = s.queries other :=
      fun other hne => set_query_of_ne s _ hne
    refine hinv.of_query rfl rfl hothers rfl (by simp [Knows]) ?_
    exact hinv.locked_of_others hothers (.inl rfl) (by simp [Locked])
  | advance query => exact hinv.advance (advances_of_with_loaded hstep)

variable (from_slice graph_of)

def Quiet (_ : LineageStore Content Value Graph) : LineageAction Content → Prop
  | .write_manifest _ _ | .write_catalog _ _ => False
  | _ => True

def KeepsCatalog (_ : LineageStore Content Value Graph) : LineageAction Content → Prop
  | .write_catalog _ _ => False
  | _ => True

/-- The states of the runs in which no rebuild is between its reading of the catalog
    and of its mtime when the catalog is last written. -/
inductive Noticed : LineageStore Content Value Graph → Prop
  | new (manifest catalog : File Content) : Noticed (.new manifest catalog)
  | write_catalog {manifest catalog : File Content} {s t : LineageStore Content Value Graph}
    (content : Content) (mtime : Nat)
    (hrun : Runs (LineageStore.step from_slice graph_of) (fun _ _ => True) (.new manifest catalog) s)
    (houtside : s.Outside) (hstep : s.step from_slice graph_of (.write_catalog content mtime) = some t) : Noticed t
  | step {s t : LineageStore Content Value Graph} (action : LineageAction Content) (hs : Noticed s)
    (hkeeps : s.KeepsCatalog action) (hstep : s.step from_slice graph_of action = some t) : Noticed t

variable {from_slice graph_of}

theorem Noticed.inv {s : LineageStore Content Value Graph} (hs : Noticed from_slice graph_of s) :
    Inv from_slice graph_of True s := by
  induction hs with
  | new manifest catalog => exact inv_new True manifest catalog
  | @write_catalog manifest catalog s t content mtime hrun houtside hstep =>
    have hinv : Inv from_slice graph_of False s := by
      apply hrun.keeps _ (inv_new False manifest catalog)
      intro s action t hinv _ hstep
      exact hinv.step False.elim hstep
    obtain ⟨catalog', hwrite, rfl⟩ := Option.map_eq_some_iff.mp hstep
    exact hinv.write_catalog hwrite fun _ => houtside
  | step action _ hkeeps hstep ih =>
    refine ih.step ?_ hstep
    rintro - content mtime rfl
    exact hkeeps.elim

variable (from_slice graph_of)

/-- What a query that was asked after the last write has read is what is there. -/
def Current (s : LineageStore Content Value Graph) : Query Value Graph → Prop
  | .idle => False
  | .reading_manifest_mtime => True
  | .reading_catalog_mtime m => s.manifest.mtime = some m
  | .locking m current => s.manifest.mtime = some m ∧ s.catalog.mtime = current
  | .reading_manifest m => s.manifest.mtime = some m
  | .reading_catalog _ value => ∃ content, s.manifest.content = some content ∧ from_slice content = some value
  | .storing _ graph => s.latest from_slice graph_of = .ok graph
  | .answering => ∃ loaded ∈ s.inner, s.latest from_slice graph_of = .ok loaded.graph
  | .done answer => answer = s.latest from_slice graph_of

variable {from_slice graph_of}

theorem latest_of_read {s : LineageStore Content Value Graph} {content : Content} {value : Value}
    (hcontent : s.manifest.content = some content) (hparse : from_slice content = some value) :
    s.latest from_slice graph_of = graph_of value (s.catalog.content.bind from_slice) := by
  simp only [latest, hcontent, hparse]

theorem Inv.latest_of_reuse {s : LineageStore Content Value Graph} {m : Nat}
    (hinv : Inv from_slice graph_of True s) (hmtime : s.manifest.mtime = some m)
    (hneeds : needs_rebuild s.inner m s.catalog.mtime = false) :
    ∃ loaded ∈ s.inner, s.latest from_slice graph_of = .ok loaded.graph := by
  cases hinner : s.inner with
  | none => simp [needs_rebuild, hinner] at hneeds
  | some loaded =>
    obtain ⟨hm, hcatalog⟩ : loaded.manifest_mtime = m ∧ loaded.catalog_mtime = s.catalog.mtime := by
      simpa [needs_rebuild, hinner] using hneeds
    obtain ⟨catalog, ⟨content, value, hparse, hsaw, hgraph⟩, -, hsame⟩ := hinv.inner loaded hinner
    refine ⟨loaded, rfl, ?_⟩
    rw [latest_of_read (hsaw.same (by rw [hmtime, hm])) hparse, hsame trivial hcatalog.symm, hgraph]

theorem Inv.current_advance {s t : LineageStore Content Value Graph} {query : Nat}
    (hinv : Inv from_slice graph_of True s) (hcurrent : Current from_slice graph_of s (s.queries query))
    (hstep : Advances from_slice graph_of s query t) : Current from_slice graph_of t (t.queries query) := by
  have hknows := hinv.knows query
  cases hstep with
  | no_manifest hphase hmtime =>
    have hgone : s.manifest.content = none := by simpa [File.mtime, File.content] using hmtime
    simp [Current, latest, hgone]
  | manifest_mtime m hphase hmtime => simpa [Current] using hmtime
  | catalog_mtime m hphase =>
    rw [hphase] at hcurrent
    simpa [Current] using hcurrent
  | rebuild m current hphase hlock hneeds =>
    rw [hphase] at hcurrent
    simpa [Current] using hcurrent.1
  | reuse m current hphase hlock hneeds =>
    rw [hphase] at hcurrent
    obtain ⟨hmtime, rfl⟩ := hcurrent
    simpa [Current, latest] using hinv.latest_of_reuse hmtime hneeds
  | gone m hphase hcontent =>
    rw [hphase] at hcurrent
    obtain ⟨content, hthere⟩ := File.content_of_mtime hcurrent
    simp [hcontent] at hthere
  | malformed m content hphase hcontent hparse =>
    simp [Current, finish, latest, hcontent, hparse]
  | manifest m content value hphase hcontent hparse =>
    simpa [Current] using ⟨content, hcontent, hparse⟩
  | no_graph m value message hphase hgraph =>
    rw [hphase] at hcurrent
    obtain ⟨content, hcontent, hparse⟩ := hcurrent
    simp [Current, finish, latest, hcontent, hparse, hgraph]
  | graph m value graph hphase hgraph =>
    rw [hphase] at hcurrent
    obtain ⟨content, hcontent, hparse⟩ := hcurrent
    simp [Current, latest, hcontent, hparse, hgraph]
  | store m graph hphase =>
    rw [hphase] at hcurrent
    simpa [Current, latest] using hcurrent
  | answer loaded hphase hinner =>
    rw [hphase] at hcurrent
    obtain ⟨kept, hkept, hlatest⟩ := hcurrent
    obtain rfl : loaded = kept := Option.some.inj (hinner.symm.trans hkept)
    simpa [Current, finish, latest] using hlatest.symm

theorem Inv.current_other {s t : LineageStore Content Value Graph} {query other : Nat} (hne : query ≠ other)
    (hinv : Inv from_slice graph_of True s) (hcurrent : Current from_slice graph_of s (s.queries query))
    (hstep : Advances from_slice graph_of s other t) : Current from_slice graph_of t (t.queries query) := by
  obtain ⟨hmanifest, hcatalog, hothers⟩ := step_files hstep
  have hlatest : t.latest from_slice graph_of = s.latest from_slice graph_of := by
    simp only [latest, hmanifest, hcatalog]
  rw [hothers query hne]
  by_cases hanswering : s.queries query = .answering
  · have hinner : t.inner = s.inner := by
      cases hstep with
      | store m graph hphase =>
        have hheld := hinv.locked query (by simp [hanswering, Locked])
        have hheld' := hinv.locked other (by simp [hphase, Locked])
        exact absurd (Option.some.inj (hheld.symm.trans hheld')) hne
      | _ => rfl
    rw [hanswering] at hcurrent ⊢
    simpa only [Current, hlatest, hinner] using hcurrent
  · cases hphase : s.queries query <;> rw [hphase] at hcurrent hanswering
    case idle => exact hcurrent.elim
    case answering => exact absurd rfl hanswering
    case reading_manifest_mtime => trivial
    all_goals simpa only [Current, hlatest, hmanifest, hcatalog] using hcurrent

end

/-- A project with the manifest 1 and the catalog 10, whose graph is just the two. -/
def sample : LineageStore Nat Nat (Nat × Option Nat) :=
  new ⟨some (1, 1), [1], by simp⟩ ⟨some (10, 1), [1], by simp⟩

abbrev sample_step : LineageStore Nat Nat (Nat × Option Nat) → LineageAction Nat →
    Option (LineageStore Nat Nat (Nat × Option Nat)) :=
  step some fun manifest catalog => .ok (manifest, catalog)

theorem quiet_of_advances {query n : Nat} : ∀ action ∈ List.replicate n (LineageAction.advance query),
    ∀ s : LineageStore Nat Nat (Nat × Option Nat), s.Quiet action := by
  intro action haction s
  obtain ⟨-, rfl⟩ := List.mem_replicate.mp haction
  trivial

end LineageStore

end zed.dbt_ui
