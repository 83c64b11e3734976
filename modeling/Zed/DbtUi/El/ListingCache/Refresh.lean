import Zed.DbtUi.El.ListingCache

namespace zed.dbt_ui.el.listing_cache

open redis

/-- A value in Redis, with when its listing was fetched and since when its key is there. -/
structure Entry (Json : Type) where
  json : Json
  fetched : Nat
  since : Nat

abbrev Redis (Json : Type) := List (List Char × Entry Json)

namespace Redis

variable {Json : Type} (redis : Redis Json)

def get (key : List Char) : Option (Entry Json) := List.lookup key redis

def del (keys : List (List Char)) : Redis Json := redis.filter fun entry => entry.1 ∉ keys

/-- A key that is there already stays. -/
def set_ex (key : List Char) (json : Json) (fetched now : Nat) : Redis Json :=
  (key, ⟨json, fetched, ((redis.get key).map Entry.since).getD now⟩) :: redis.del [key]

end Redis

/-- Where a call of `read_through` is. -/
inductive Reader (Value : Type)
  | idle
  | getting (listing : Listing) (started : Nat)
  | fetching (listing : Listing) (started : Nat) (connected : Bool)
  | storing (listing : Listing) (started : Nat) (value : Value) (fetched : Nat)
  | answered (listing : Listing) (started : Nat) (value : Value) (fetched : Nat)
  | failed

/-- Where a call of `invalidate` is. -/
inductive Refresher
  | idle
  | connecting (project : Hash) (scope : Scope) (began : Nat)
  | scanning (project : Hash) (scope : Scope) (began scanned_from : Nat) (keys : List (List Char))
  | dropping (project : Hash) (scope : Scope) (began : Nat) (keys : List (List Char))
  | returned (project : Hash) (scope : Scope) (began ended : Nat)
  | failed

/-- The calls of all windows, on one Redis. -/
structure Explorer (Json Value : Type) where
  clock : Nat
  redis : Redis Json
  readers : Nat → Reader Value
  refreshers : Nat → Refresher

/-- A call starts or takes its next step, with what it gets from outside. -/
inductive ExplorerAction (Value : Type)
  | read (reader : Nat) (listing : Listing) (connected : Bool)
  | get (reader : Nat) (succeeds : Bool)
  | list (reader : Nat) (answer : Option Value)
  | set_ex (reader : Nat) (succeeds : Bool)
  | invalidate (refresher : Nat) (project : Hash) (scope : Scope)
  | connect (refresher : Nat) (connected : Bool)
  | scan (refresher : Nat) (found : List (List Char))
  | scan_end (refresher : Nat)
  | del (refresher : Nat)
  | fail (refresher : Nat)
  | expire (key : List Char)

namespace Explorer

variable {Json Value : Type}

def new : Explorer Json Value where
  clock := 0
  redis := []
  readers := fun _ => .idle
  refreshers := fun _ => .idle

def set_reader (s : Explorer Json Value) (reader : Nat) (phase : Reader Value) : Explorer Json Value :=
  { s with clock := s.clock + 1, readers := Function.update s.readers reader phase }

def set_refresher (s : Explorer Json Value) (refresher : Nat) (phase : Refresher) : Explorer Json Value :=
  { s with clock := s.clock + 1, refreshers := Function.update s.refreshers refresher phase }

/-- What SCAN promises of a full iteration: it returned each key that matches and was there
    all along. -/
def Scanned (redis : Redis Json) (project : Hash) (scope : Scope) (scanned_from : Nat)
    (keys : List (List Char)) : Prop :=
  ∀ entry ∈ redis, entry.2.since ≤ scanned_from → glob_match (pattern project scope) entry.1 = true →
    entry.1 ∈ keys

instance (redis : Redis Json) (project : Hash) (scope : Scope) (scanned_from : Nat) (keys : List (List Char)) :
    Decidable (Scanned redis project scope scanned_from keys) :=
  inferInstanceAs (Decidable (∀ entry ∈ redis, _))

section

-- `serde_json`
variable (encode : Value → Option Json) (decode : Json → Option Value)

/-- The steps of `read_through`. -/
def read_through (s : Explorer Json Value) (reader : Nat) : ExplorerAction Value → Option (Explorer Json Value)
  | .get _ succeeds =>
    match s.readers reader with
    | .getting listing started =>
      match (if succeeds then s.redis.get listing.key else none) with
      | some entry =>
        match decode entry.json with
        | some value => some (s.set_reader reader (.answered listing started value entry.fetched))
        -- an older shape of the listing
        | none => some (s.set_reader reader (.fetching listing started true))
      | none => some (s.set_reader reader (.fetching listing started true))
    | _ => none
  | .list _ answer =>
    match s.readers reader with
    | .fetching listing started connected =>
      match answer with
      | none => some (s.set_reader reader .failed)
      | some value =>
        if connected then some (s.set_reader reader (.storing listing started value s.clock))
        else some (s.set_reader reader (.answered listing started value s.clock))
    | _ => none
  | .set_ex _ succeeds =>
    match s.readers reader with
    | .storing listing started value fetched =>
      match (if succeeds then encode value else none) with
      | some json =>
        some { s.set_reader reader (.answered listing started value fetched) with
          redis := s.redis.set_ex listing.key json fetched s.clock }
      | none => some (s.set_reader reader (.answered listing started value fetched))
    | _ => none
  | _ => none

/-- The steps of `invalidate`. -/
def invalidate (s : Explorer Json Value) (refresher : Nat) : ExplorerAction Value → Option (Explorer Json Value)
  | .connect _ connected =>
    match s.refreshers refresher with
    | .connecting project scope began =>
      if connected then some (s.set_refresher refresher (.scanning project scope began s.clock []))
      else some (s.set_refresher refresher (.returned project scope began s.clock))
    | _ => none
  | .scan _ found =>
    match s.refreshers refresher with
    | .scanning project scope began scanned_from keys =>
      if ∀ key ∈ found, key ∈ s.redis.map Prod.fst ∧ glob_match (pattern project scope) key = true then
        some (s.set_refresher refresher (.scanning project scope began scanned_from (keys ++ found)))
      else none
    | _ => none
  | .scan_end _ =>
    match s.refreshers refresher with
    | .scanning project scope began scanned_from keys =>
      if Scanned s.redis project scope scanned_from keys then
        if keys = [] then some (s.set_refresher refresher (.returned project scope began s.clock))
        else some (s.set_refresher refresher (.dropping project scope began keys))
      else none
    | _ => none
  | .del _ =>
    match s.refreshers refresher with
    | .dropping project scope began keys =>
      some { s.set_refresher refresher (.returned project scope began s.clock) with redis := s.redis.del keys }
    | _ => none
  | .fail _ =>
    match s.refreshers refresher with
    | .scanning .. | .dropping .. => some (s.set_refresher refresher .failed)
    | _ => none
  | _ => none

def step (s : Explorer Json Value) (action : ExplorerAction Value) : Option (Explorer Json Value) :=
  match action with
  | .read reader listing connected =>
    match s.readers reader with
    | .idle =>
      if connected then some (s.set_reader reader (.getting listing s.clock))
      else some (s.set_reader reader (.fetching listing s.clock false))
    | _ => none
  | .get reader _ | .list reader _ | .set_ex reader _ => s.read_through encode decode reader action
  | .invalidate refresher project scope =>
    match s.refreshers refresher with
    | .idle => some (s.set_refresher refresher (.connecting project scope s.clock))
    | _ => none
  | .connect refresher _ | .scan refresher _ | .scan_end refresher | .del refresher | .fail refresher =>
    s.invalidate refresher action
  | .expire key => some { s with clock := s.clock + 1, redis := s.redis.del [key] }

end

end Explorer

end zed.dbt_ui.el.listing_cache
