import Zed.DbtUi.El.ListingCache.Refresh
import Zed.DbtUi.El.ListingCache.Scopes
import Zed.Transition

namespace zed.dbt_ui.el.listing_cache

open redis transition

namespace Redis

variable {Json : Type} {redis : Redis Json}

theorem get_del (redis : Redis Json) (keys : List (List Char)) (key : List Char) :
    (redis.del keys).get key = if key ∈ keys then none else redis.get key := by
  induction redis with
  | nil => simp [del, get]
  | cons entry redis ih =>
    obtain ⟨first, value⟩ := entry
    have hget : ∀ rest : Redis Json, Redis.get ((first, value) :: rest) key =
        if key = first then some value else rest.get key := by
      intro rest
      by_cases heq : key = first
      · subst heq
        simp [get]
      · rw [get, List.lookup_cons, beq_eq_false_iff_ne.mpr heq, if_neg heq]
        rfl
    by_cases hfirst : first ∈ keys
    · have hdel : del ((first, value) :: redis) keys = del redis keys := by simp [del, hfirst]
      rw [hdel, ih, hget]
      by_cases heq : key = first
      · rw [heq, if_pos hfirst, if_pos hfirst]
      · rw [if_neg heq]
    · have hdel : del ((first, value) :: redis) keys = (first, value) :: del redis keys := by simp [del, hfirst]
      rw [hdel, hget, ih, hget]
      by_cases heq : key = first
      · rw [if_pos heq, if_pos heq, heq, if_neg hfirst]
      · rw [if_neg heq, if_neg heq]

theorem get_of_del {keys : List (List Char)} {key : List Char} {entry : Entry Json}
    (h : (redis.del keys).get key = some entry) : key ∉ keys ∧ redis.get key = some entry := by
  rw [get_del] at h
  split at h
  · cases h
  · exact ⟨by assumption, h⟩

theorem get_set_ex (redis : Redis Json) (key other : List Char) (json : Json) (fetched now : Nat) :
    (redis.set_ex key json fetched now).get other =
      if other = key then some ⟨json, fetched, ((redis.get key).map Entry.since).getD now⟩
      else redis.get other := by
  by_cases heq : other = key
  · subst heq
    simp [set_ex, get]
  · rw [if_neg heq, set_ex, get, List.lookup_cons, beq_eq_false_iff_ne.mpr heq]
    have hdel := get_del redis [key] other
    rw [if_neg (by simpa using heq)] at hdel
    exact hdel

theorem mem_of_get {key : List Char} {entry : Entry Json} (h : redis.get key = some entry) :
    (key, entry) ∈ redis := by
  induction redis with
  | nil => cases h
  | cons first redis ih =>
    obtain ⟨other, value⟩ := first
    rw [get, List.lookup_cons] at h
    by_cases heq : key = other
    · subst heq
      simp only [beq_self_eq_true, Option.some.injEq] at h
      rw [h]
      exact List.mem_cons_self
    · rw [beq_eq_false_iff_ne.mpr heq] at h
      exact List.mem_cons_of_mem _ (ih h)

end Redis

theorem glob_match_of_inScope {project : Hash} {listing : Listing} {scope : Scope}
    (h : InScope project listing scope) : glob_match (pattern project scope) listing.key = true := by
  cases scope with
  | Project => exact match_project_iff.mpr h
  | Connection connection => exact match_connection_iff.mpr h
  | Database connection database =>
    obtain ⟨hproject, hconnection, hschemas | htables⟩ := h
    · exact match_database_iff.mpr ⟨hproject, hconnection, Or.inl hschemas⟩
    · exact match_database_iff.mpr ⟨hproject, hconnection, Or.inr (Or.inl htables)⟩
  | Schema connection database schema => exact match_schema_iff.mpr h

namespace Explorer

variable {Json Value : Type}

def RefreshFinal (s : Explorer Json Value) : Prop :=
  ∀ reader refresher listing started value fetched project scope began ended,
    s.readers reader = .answered listing started value fetched →
    s.refreshers refresher = .returned project scope began ended →
    InScope project listing scope → ended < started → began ≤ fetched

/-- A listing that was fetched before a refresh of its scope may only be stored where that
    refresh is still sure to drop it. -/
def Drops (redis : Redis Json) (listing : Listing) (fetched : Nat) : Refresher → Prop
  | .scanning project scope began scanned_from keys =>
    InScope project listing scope → fetched < began →
      listing.key ∈ keys ∨ ∃ entry, redis.get listing.key = some entry ∧ entry.since ≤ scanned_from
  | .dropping project scope began keys =>
    InScope project listing scope → fetched < began → listing.key ∈ keys
  | .returned project scope began _ => InScope project listing scope → began ≤ fetched
  | _ => True

/-- The steps that keep refreshes final. -/
def MayTake (s : Explorer Json Value) : ExplorerAction Value → Prop
  | .set_ex reader succeeds => succeeds = true → ∀ listing started value fetched,
    s.readers reader = .storing listing started value fetched →
      ∀ refresher, Drops s.redis listing fetched (s.refreshers refresher)
  | .connect _ connected => connected = true
  | _ => True

def ReaderOk (s : Explorer Json Value) : Reader Value → Prop
  | .getting _ started | .fetching _ started _ => started < s.clock
  | .storing listing started _ fetched | .answered listing started _ fetched =>
    started < s.clock ∧ ∀ refresher project scope began ended,
      s.refreshers refresher = .returned project scope began ended → InScope project listing scope →
        ended < started → began ≤ fetched
  | _ => True

/-- What is known of a refresher: which listings in its scope from before it are still there. -/
def RefresherOk (clock : Nat) (redis : Redis Json) : Refresher → Prop
  | .connecting _ _ began => began < clock
  | .scanning project scope began scanned_from keys =>
    began < clock ∧ ∀ listing entry, redis.get listing.key = some entry → InScope project listing scope →
      entry.fetched < began → listing.key ∈ keys ∨ entry.since ≤ scanned_from
  | .dropping project scope began keys =>
    began < clock ∧ ∀ listing entry, redis.get listing.key = some entry → InScope project listing scope →
      entry.fetched < began → listing.key ∈ keys
  | .returned project scope began _ =>
    began < clock ∧ ∀ listing entry, redis.get listing.key = some entry → InScope project listing scope →
      began ≤ entry.fetched
  | _ => True

structure Inv (s : Explorer Json Value) : Prop where
  entries : ∀ key entry, s.redis.get key = some entry → entry.since < s.clock
  readers : ∀ reader, s.ReaderOk (s.readers reader)
  refreshers : ∀ refresher, RefresherOk s.clock s.redis (s.refreshers refresher)

theorem Inv.refreshFinal {s : Explorer Json Value} (h : s.Inv) : s.RefreshFinal := by
  intro reader refresher listing started value fetched project scope began ended hreader hrefresher hscope hstarted
  have hok := h.readers reader
  rw [hreader] at hok
  exact hok.2 refresher project scope began ended hrefresher hscope hstarted

theorem new_inv : (new : Explorer Json Value).Inv :=
  ⟨fun _ _ h => absurd h (by simp [new, Redis.get]), fun _ => trivial, fun _ => trivial⟩

theorem RefresherOk.mono {clock clock' : Nat} {redis redis' : Redis Json} {phase : Refresher}
    (h : RefresherOk clock redis phase) (hclock : clock ≤ clock')
    (hredis : ∀ key entry, redis'.get key = some entry → redis.get key = some entry) :
    RefresherOk clock' redis' phase := by
  cases phase with
  | idle | failed => trivial
  | connecting project scope began => exact Nat.lt_of_lt_of_le h hclock
  | scanning project scope began scanned_from keys =>
    exact ⟨Nat.lt_of_lt_of_le h.1 hclock, fun listing entry hget => h.2 listing entry (hredis _ _ hget)⟩
  | dropping project scope began keys =>
    exact ⟨Nat.lt_of_lt_of_le h.1 hclock, fun listing entry hget => h.2 listing entry (hredis _ _ hget)⟩
  | returned project scope began ended =>
    exact ⟨Nat.lt_of_lt_of_le h.1 hclock, fun listing entry hget => h.2 listing entry (hredis _ _ hget)⟩

theorem ReaderOk.mono {s t : Explorer Json Value} {phase : Reader Value} (h : s.ReaderOk phase)
    (hclock : s.clock ≤ t.clock)
    (hreturned : ∀ refresher project scope began ended,
      t.refreshers refresher = .returned project scope began ended →
        s.refreshers refresher = .returned project scope began ended ∨ s.clock ≤ ended) :
    t.ReaderOk phase := by
  have hlater {listing : Listing} {started fetched : Nat} (hstarted : started < s.clock)
      (hknown : ∀ refresher project scope began ended,
        s.refreshers refresher = .returned project scope began ended → InScope project listing scope →
          ended < started → began ≤ fetched) :
      ∀ refresher project scope began ended,
        t.refreshers refresher = .returned project scope began ended → InScope project listing scope →
          ended < started → began ≤ fetched := by
    intro refresher project scope began ended hrefresher hscope hended
    obtain hbefore | hnow := hreturned refresher project scope began ended hrefresher
    · exact hknown refresher project scope began ended hbefore hscope hended
    · omega
  cases phase with
  | idle | failed => trivial
  | getting listing started => exact Nat.lt_of_lt_of_le h hclock
  | fetching listing started connected => exact Nat.lt_of_lt_of_le h hclock
  | storing listing started value fetched => exact ⟨Nat.lt_of_lt_of_le h.1 hclock, hlater h.1 h.2⟩
  | answered listing started value fetched => exact ⟨Nat.lt_of_lt_of_le h.1 hclock, hlater h.1 h.2⟩

theorem Inv.set_reader {s : Explorer Json Value} (h : s.Inv) {reader : Nat} {phase : Reader Value}
    (hphase : (s.set_reader reader phase).ReaderOk phase) : (s.set_reader reader phase).Inv where
  entries key entry hget := Nat.lt_succ_of_lt (h.entries key entry hget)
  readers other := by
    by_cases heq : other = reader
    · subst heq
      have hself : (s.set_reader other phase).readers other = phase := Function.update_self _ _ _
      rw [hself]
      exact hphase
    · have hother : (s.set_reader reader phase).readers other = s.readers other := Function.update_of_ne heq _ _
      rw [hother]
      exact (h.readers other).mono (Nat.le_succ _) fun _ _ _ _ _ hreturned => Or.inl hreturned
  refreshers refresher := (h.refreshers refresher).mono (Nat.le_succ _) fun _ _ hget => hget

theorem Inv.set_refresher {s : Explorer Json Value} (h : s.Inv) {refresher : Nat} {phase : Refresher}
    (hphase : RefresherOk (s.clock + 1) s.redis phase)
    (hended : ∀ project scope began ended, phase = .returned project scope began ended → s.clock ≤ ended) :
    (s.set_refresher refresher phase).Inv where
  entries key entry hget := Nat.lt_succ_of_lt (h.entries key entry hget)
  readers reader := by
    refine (h.readers reader).mono (Nat.le_succ _) fun other project scope began ended hreturned => ?_
    by_cases heq : other = refresher
    · subst heq
      have hself : (s.set_refresher other phase).refreshers other = phase := Function.update_self _ _ _
      exact Or.inr (hended project scope began ended (hself ▸ hreturned))
    · have hother : (s.set_refresher refresher phase).refreshers other = s.refreshers other :=
        Function.update_of_ne heq _ _
      exact Or.inl (hother ▸ hreturned)
  refreshers other := by
    by_cases heq : other = refresher
    · subst heq
      have hself : (s.set_refresher other phase).refreshers other = phase := Function.update_self _ _ _
      rw [hself]
      exact hphase
    · have hother : (s.set_refresher refresher phase).refreshers other = s.refreshers other :=
        Function.update_of_ne heq _ _
      rw [hother]
      exact (h.refreshers other).mono (Nat.le_succ _) fun _ _ hget => hget

theorem Inv.del {s : Explorer Json Value} (h : s.Inv) (keys : List (List Char)) :
    ({ s with redis := s.redis.del keys } : Explorer Json Value).Inv where
  entries key entry hget := h.entries key entry (Redis.get_of_del hget).2
  readers reader := (h.readers reader).mono (Nat.le_refl _) fun _ _ _ _ _ hreturned => Or.inl hreturned
  refreshers refresher := (h.refreshers refresher).mono (Nat.le_refl _) fun _ _ hget => (Redis.get_of_del hget).2

/-- A listing is stored, where every refresh of its scope that it is older than still drops it. -/
theorem Inv.set_ex {s : Explorer Json Value} (h : s.Inv) {listing : Listing} {json : Json} {fetched now : Nat}
    (hnow : now < s.clock) (hdrops : ∀ refresher, Drops s.redis listing fetched (s.refreshers refresher)) :
    ({ s with redis := s.redis.set_ex listing.key json fetched now } : Explorer Json Value).Inv where
  entries key entry hget := by
    rw [Redis.get_set_ex] at hget
    split at hget
    · obtain rfl := Option.some.inj hget
      cases hold : s.redis.get listing.key with
      | none => exact hnow
      | some old => exact h.entries _ old hold
    · exact h.entries key entry hget
  readers reader := (h.readers reader).mono (Nat.le_refl _) fun _ _ _ _ _ hreturned => Or.inl hreturned
  refreshers refresher := by
    have hok := h.refreshers refresher
    have hdrops := hdrops refresher
    cases hphase : s.refreshers refresher with
    | idle | failed => trivial
    | connecting project scope began =>
      rw [hphase] at hok
      exact hok
    | scanning project scope began scanned_from keys =>
      rw [hphase] at hok hdrops
      refine ⟨hok.1, fun other entry hget hscope hbefore => ?_⟩
      rw [Redis.get_set_ex] at hget
      split at hget
      · rename_i hkey
        obtain rfl := key_injective hkey
        obtain rfl := Option.some.inj hget
        obtain hmem | ⟨old, hold, hsince⟩ := hdrops hscope hbefore
        · exact Or.inl hmem
        · rw [hold]
          exact Or.inr hsince
      · exact hok.2 other entry hget hscope hbefore
    | dropping project scope began keys =>
      rw [hphase] at hok hdrops
      refine ⟨hok.1, fun other entry hget hscope hbefore => ?_⟩
      rw [Redis.get_set_ex] at hget
      split at hget
      · rename_i hkey
        obtain rfl := key_injective hkey
        obtain rfl := Option.some.inj hget
        exact hdrops hscope hbefore
      · exact hok.2 other entry hget hscope hbefore
    | returned project scope began ended =>
      rw [hphase] at hok hdrops
      refine ⟨hok.1, fun other entry hget hscope => ?_⟩
      rw [Redis.get_set_ex] at hget
      split at hget
      · rename_i hkey
        obtain rfl := key_injective hkey
        obtain rfl := Option.some.inj hget
        exact hdrops hscope
      · exact hok.2 other entry hget hscope

section

variable {encode : Value → Option Json} {decode : Json → Option Value} {s t : Explorer Json Value} {reader : Nat}
  {refresher : Nat}

theorem Inv.get (h : s.Inv) {succeeds : Bool}
    (hstep : s.read_through encode decode reader (.get reader succeeds) = some t) : t.Inv := by
  unfold read_through at hstep
  dsimp only at hstep
  have hok := h.readers reader
  split at hstep
  · rename_i listing started hreader
    rw [hreader] at hok
    have hmiss : (s.set_reader reader (.fetching listing started true)).Inv :=
      h.set_reader (Nat.lt_succ_of_lt hok)
    split at hstep
    · rename_i entry hget
      have hget : s.redis.get listing.key = some entry := by
        cases succeeds with
        | true => exact hget
        | false => cases hget
      split at hstep
      · rename_i value _
        obtain rfl := Option.some.inj hstep
        -- the refreshes that returned left no older listing behind
        refine h.set_reader ⟨Nat.lt_succ_of_lt hok, fun other project scope began ended hreturned hscope _ => ?_⟩
        have hother := h.refreshers other
        rw [show s.refreshers other = .returned project scope began ended from hreturned] at hother
        exact hother.2 listing entry hget hscope
      · exact Option.some.inj hstep ▸ hmiss
    · exact Option.some.inj hstep ▸ hmiss
  · cases hstep

theorem Inv.began_le (h : s.Inv) {other : Nat} {project : Hash} {scope : Scope} {began ended : Nat}
    (hreturned : s.refreshers other = .returned project scope began ended) : began ≤ s.clock := by
  have hother := h.refreshers other
  rw [hreturned] at hother
  exact Nat.le_of_lt hother.1

theorem Inv.list (h : s.Inv) {answer : Option Value}
    (hstep : s.read_through encode decode reader (.list reader answer) = some t) : t.Inv := by
  unfold read_through at hstep
  dsimp only at hstep
  have hok := h.readers reader
  split at hstep
  · rename_i listing started connected hreader
    rw [hreader] at hok
    split at hstep
    · obtain rfl := Option.some.inj hstep
      exact h.set_reader trivial
    · split at hstep
      · obtain rfl := Option.some.inj hstep
        exact h.set_reader ⟨Nat.lt_succ_of_lt hok, fun _ _ _ _ _ hreturned _ _ => h.began_le hreturned⟩
      · obtain rfl := Option.some.inj hstep
        exact h.set_reader ⟨Nat.lt_succ_of_lt hok, fun _ _ _ _ _ hreturned _ _ => h.began_le hreturned⟩
  · cases hstep

theorem Inv.store (h : s.Inv) {succeeds : Bool} (hmay : s.MayTake (.set_ex reader succeeds))
    (hstep : s.read_through encode decode reader (.set_ex reader succeeds) = some t) : t.Inv := by
  unfold read_through at hstep
  dsimp only at hstep
  have hok := h.readers reader
  split at hstep
  · rename_i listing started value fetched hreader
    rw [hreader] at hok
    have hanswered : (s.set_reader reader (.answered listing started value fetched)).Inv :=
      h.set_reader ⟨Nat.lt_succ_of_lt hok.1, hok.2⟩
    split at hstep
    · rename_i json hencode
      have hsucceeds : succeeds = true := by
        cases succeeds with
        | true => rfl
        | false => cases hencode
      obtain rfl := Option.some.inj hstep
      exact hanswered.set_ex (Nat.lt_succ_self _) (hmay hsucceeds listing started value fetched hreader)
    · exact Option.some.inj hstep ▸ hanswered
  · cases hstep

theorem Inv.connect (h : s.Inv) (hstep : s.invalidate refresher (.connect refresher true) = some t) : t.Inv := by
  unfold invalidate at hstep
  dsimp only at hstep
  have hok := h.refreshers refresher
  split at hstep
  · rename_i project scope began hrefresher
    rw [hrefresher] at hok
    obtain rfl := Option.some.inj hstep
    refine h.set_refresher ⟨Nat.lt_succ_of_lt hok, fun listing entry hget _ _ => Or.inr ?_⟩ fun _ _ _ _ heq => ?_
    · exact Nat.le_of_lt (h.entries _ entry hget)
    · cases heq
  · cases hstep

theorem Inv.scan (h : s.Inv) {found : List (List Char)}
    (hstep : s.invalidate refresher (.scan refresher found) = some t) : t.Inv := by
  unfold invalidate at hstep
  dsimp only at hstep
  have hok := h.refreshers refresher
  split at hstep
  · rename_i project scope began scanned_from keys hrefresher
    rw [hrefresher] at hok
    split at hstep
    · obtain rfl := Option.some.inj hstep
      refine h.set_refresher ⟨Nat.lt_succ_of_lt hok.1, fun listing entry hget hscope hbefore => ?_⟩
        fun _ _ _ _ heq => ?_
      · exact (hok.2 listing entry hget hscope hbefore).imp_left fun hmem => List.mem_append_left _ hmem
      · cases heq
    · cases hstep
  · cases hstep

/-- A full iteration found all the older listings of the scope. -/
theorem Inv.scan_end (h : s.Inv) (hstep : s.invalidate refresher (.scan_end refresher) = some t) : t.Inv := by
  unfold invalidate at hstep
  dsimp only at hstep
  have hok := h.refreshers refresher
  split at hstep
  · rename_i project scope began scanned_from keys hrefresher
    rw [hrefresher] at hok
    split at hstep
    · rename_i hscanned
      have hfound (listing : Listing) (entry : Entry Json) (hget : s.redis.get listing.key = some entry)
          (hscope : InScope project listing scope) (hbefore : entry.fetched < began) : listing.key ∈ keys := by
        obtain hmem | hsince := hok.2 listing entry hget hscope hbefore
        · exact hmem
        · exact hscanned _ (Redis.mem_of_get hget) hsince (glob_match_of_inScope hscope)
      split at hstep
      · rename_i hempty
        obtain rfl := Option.some.inj hstep
        refine h.set_refresher ⟨Nat.lt_succ_of_lt hok.1, fun listing entry hget hscope => ?_⟩
          fun _ _ _ _ heq => ?_
        · by_contra hbefore
          have hmem := hfound listing entry hget hscope (Nat.lt_of_not_le hbefore)
          rw [hempty] at hmem
          exact absurd hmem List.not_mem_nil
        · cases heq
          exact Nat.le_refl _
      · obtain rfl := Option.some.inj hstep
        refine h.set_refresher ⟨Nat.lt_succ_of_lt hok.1, hfound⟩ fun _ _ _ _ heq => ?_
        cases heq
    · cases hstep
  · cases hstep

theorem Inv.drop (h : s.Inv) (hstep : s.invalidate refresher (.del refresher) = some t) : t.Inv := by
  unfold invalidate at hstep
  dsimp only at hstep
  have hok := h.refreshers refresher
  split at hstep
  · rename_i project scope began keys hrefresher
    rw [hrefresher] at hok
    obtain rfl := Option.some.inj hstep
    have hdel := h.del keys
    refine hdel.set_refresher ⟨Nat.lt_succ_of_lt hok.1, fun listing entry hget hscope => ?_⟩ fun _ _ _ _ heq => ?_
    · obtain ⟨hkey, hget⟩ := Redis.get_of_del hget
      by_contra hbefore
      exact hkey (hok.2 listing entry hget hscope (Nat.lt_of_not_le hbefore))
    · cases heq
      exact Nat.le_refl _
  · cases hstep

theorem Inv.step {action : ExplorerAction Value} (h : s.Inv) (hmay : s.MayTake action)
    (hstep : s.step encode decode action = some t) : t.Inv := by
  cases action with
  | read reader listing connected =>
    unfold Explorer.step at hstep
    dsimp only at hstep
    split at hstep
    · split at hstep <;> obtain rfl := Option.some.inj hstep <;>
        exact h.set_reader (Nat.lt_succ_self _)
    · cases hstep
  | get reader succeeds =>
    have hget : s.read_through encode decode reader (.get reader succeeds) = some t := hstep
    exact h.get hget
  | list reader answer =>
    have hlist : s.read_through encode decode reader (.list reader answer) = some t := hstep
    exact h.list hlist
  | set_ex reader succeeds =>
    have hstore : s.read_through encode decode reader (.set_ex reader succeeds) = some t := hstep
    exact h.store hmay hstore
  | invalidate refresher project scope =>
    unfold Explorer.step at hstep
    dsimp only at hstep
    split at hstep
    · obtain rfl := Option.some.inj hstep
      exact h.set_refresher (Nat.lt_succ_self _) fun _ _ _ _ heq => by cases heq
    · cases hstep
  | connect refresher connected =>
    obtain rfl : connected = true := hmay
    exact h.connect hstep
  | scan refresher found => exact h.scan hstep
  | scan_end refresher => exact h.scan_end hstep
  | del refresher => exact h.drop hstep
  | fail refresher =>
    have hfail : (s.set_refresher refresher .failed).Inv :=
      h.set_refresher trivial fun _ _ _ _ heq => by cases heq
    unfold Explorer.step Explorer.invalidate at hstep
    dsimp only at hstep
    split at hstep
    · exact Option.some.inj hstep ▸ hfail
    · exact Option.some.inj hstep ▸ hfail
    · cases hstep
  | expire key =>
    obtain rfl := Option.some.inj hstep
    have hdel := h.del [key]
    exact ⟨fun other entry hget => Nat.lt_succ_of_lt (hdel.entries other entry hget),
      fun reader => (hdel.readers reader).mono (Nat.le_succ _) fun _ _ _ _ _ hreturned => Or.inl hreturned,
      fun refresher => (hdel.refreshers refresher).mono (Nat.le_succ _) fun _ _ hget => hget⟩

end

/-- Refreshes stay final as long as no listing is stored that a refresh of its scope is too late
    to drop, and no refresh goes without a connection to Redis. -/
theorem refresh_final (encode : Value → Option Json) (decode : Json → Option Value) {s : Explorer Json Value}
    (hrun : Runs (step encode decode) MayTake new s) : s.RefreshFinal :=
  (hrun.keeps (fun _ _ _ h hmay hstep => h.step hmay hstep) new_inv).refreshFinal

def sample_project : Hash := ⟨[], fun _ hc => absurd hc List.not_mem_nil⟩

def sample_listing : Listing where
  project := sample_project
  connection := "wh".toList
  definition := sample_project
  level := .Tables

/-- Where some actions lead, with numbers as listings. -/
def after (s : Explorer Nat Nat) (actions : List (ExplorerAction Nat)) : Explorer Nat Nat :=
  (take_all (step some some) s actions).getD s

/-- A refresh, and then a listing up to where it is stored. -/
def refresh_then_list : List (ExplorerAction Nat) :=
  [.invalidate 0 sample_project .Project, .connect 0 true, .scan_end 0,
    .read 0 sample_listing true, .get 0 true, .list 0 (some 7)]

def read_again : List (ExplorerAction Nat) := [.read 1 sample_listing true, .get 1 true]

theorem may_store : (new.after refresh_then_list).MayTake (.set_ex 0 true) := by
  rintro - listing started value fetched hreader refresher
  have hstoring : (new.after refresh_then_list).readers 0 = .storing sample_listing 3 7 5 := rfl
  rw [hstoring] at hreader
  cases hreader
  by_cases hrefresher : refresher = 0
  · subst hrefresher
    exact fun _ => Nat.zero_le 5
  · have hidle : (new.after refresh_then_list).refreshers refresher = .idle := by
      have hupdated : (new.after refresh_then_list).refreshers =
          Function.update (Function.update (Function.update (fun _ => Refresher.idle) 0
            (.connecting sample_project .Project 0)) 0 (.scanning sample_project .Project 0 1 [])) 0
            (.returned sample_project .Project 0 2) := rfl
      rw [hupdated, Function.update_of_ne hrefresher, Function.update_of_ne hrefresher,
        Function.update_of_ne hrefresher]
    rw [hidle]
    trivial

theorem sample_refresh_final :
    (((new.after refresh_then_list).after [.set_ex 0 true]).after read_again).RefreshFinal := by
  have hlisted : Runs (step some some) MayTake new (new.after refresh_then_list) :=
    runs_of_take_all refresh_then_list (by simp [refresh_then_list, MayTake]) rfl
  have hstored : Runs (step some some) MayTake new ((new.after refresh_then_list).after [.set_ex 0 true]) :=
    hlisted.tail ⟨_, may_store, rfl⟩
  have hread : Runs (step some some) MayTake ((new.after refresh_then_list).after [.set_ex 0 true])
      (((new.after refresh_then_list).after [.set_ex 0 true]).after read_again) :=
    runs_of_take_all read_again (by simp [read_again, MayTake]) rfl
  exact refresh_final some some (hstored.trans hread)

/-- A listing that is under way when a refresh begins. -/
def list_across_refresh : List (ExplorerAction Nat) :=
  [.read 0 sample_listing true, .get 0 true, .list 0 (some 7),
    .invalidate 0 sample_project .Project, .connect 0 true, .scan_end 0, .set_ex 0 true]

/-- It is stored after the refresh, for the next reader. -/
theorem stale_listing_returns :
    ¬ ∀ s : Explorer Nat Nat, Runs (step some some) (fun _ _ => True) new s → s.RefreshFinal := by
  intro h
  have hrun : Runs (step some some) (fun _ _ => True) new (new.after (list_across_refresh ++ read_again)) :=
    runs_of_take_all (list_across_refresh ++ read_again) (fun _ _ _ => trivial) rfl
  have hle : 3 ≤ 2 := h _ hrun 1 0 sample_listing 7 7 2 sample_project .Project 3 5 rfl rfl rfl (by decide)
  exact absurd hle (by decide)

end Explorer

end zed.dbt_ui.el.listing_cache
