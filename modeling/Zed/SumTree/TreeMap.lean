import Zed.SumTree.Cursor

namespace zed.sum_tree

structure MapEntry (K V : Type) where
  key : K
  value : V
deriving DecidableEq, Repr

instance {K V : Type} : KeyedItem (MapEntry K V) K := ⟨MapEntry.key⟩

/-- An ordered map based on a tree. -/
structure TreeMap (K V : Type) where
  tree : List (MapEntry K V)
deriving DecidableEq, Repr

/-- A target among keys. A key lies before it where the comparison is greater,
    and the keys before it come first. -/
structure MapSeekTarget (K : Type) [LinearOrder K] where
  cmp_cursor : K → Ordering
  mono : ∀ {a b : K}, a ≤ b → cmp_cursor b = .gt → cmp_cursor a = .gt

variable {K V : Type} [LinearOrder K]

def MapSeekTarget.passes (target : MapSeekTarget K) (entry : MapEntry K V) : Bool :=
  decide (target.cmp_cursor entry.key = .gt)

def MapSeekTarget.of_key (key : K) : MapSeekTarget K where
  cmp_cursor location := compare key location
  mono := by
    intro a b hab hb
    rw [compare_gt_iff_gt] at hb ⊢
    exact lt_of_le_of_lt hab hb

namespace TreeMap

/-- A cursor at the first entry whose key is not below the given one, with the
    entries before it. -/
def seek_left (map : TreeMap K V) (key : K) : List (MapEntry K V) × Cursor (MapEntry K V) :=
  (Cursor.new map.tree).slice_while fun entry => decide (entry.key < key)

/-- The entry at a cursor, when it has exactly the given key. -/
def entry_at (cursor : Cursor (MapEntry K V)) (key : K) : Option (MapEntry K V) :=
  cursor.item.filter fun entry => decide (entry.key = key)

def get (map : TreeMap K V) (key : K) : Option V :=
  (entry_at (map.seek_left key).2 key).map MapEntry.value

def contains_key (map : TreeMap K V) (key : K) : Bool := (map.get key).isSome

/-- The replaced value, and the map. -/
def insert_or_replace (map : TreeMap K V) (key : K) (value : V) : Option V × TreeMap K V :=
  ((entry_at (map.seek_left key).2 key).map MapEntry.value,
    { tree := sum_tree.insert_or_replace map.tree ⟨key, value⟩ })

def insert (map : TreeMap K V) (key : K) (value : V) : TreeMap K V :=
  (map.insert_or_replace key value).2

def extend (map : TreeMap K V) (iter : List (K × V)) : TreeMap K V :=
  { tree := edit map.tree (iter.map fun pair => .Insert ⟨pair.1, pair.2⟩) }

def insert_tree (map other : TreeMap K V) : TreeMap K V :=
  { tree := edit map.tree (other.tree.map fun entry => .Insert ⟨entry.key, entry.value⟩) }

def remove (map : TreeMap K V) (key : K) : Option V × TreeMap K V :=
  let (new_tree, cursor) := map.seek_left key
  match entry_at cursor key with
  | some entry => (some entry.value, { tree := new_tree ++ cursor.next.suffix })
  | none => (none, { tree := new_tree ++ cursor.suffix })

def remove_range (map : TreeMap K V) (start stop : MapSeekTarget K) : TreeMap K V :=
  let new_tree := ((Cursor.new map.tree).slice_while start.passes).1
  let cursor := ((Cursor.new map.tree).slice_while stop.passes).2
  { tree := new_tree ++ cursor.suffix }

/-- The entry with the greatest key that is less than or equal to the given key:
    a seek to the right of the key, and one step back. -/
def closest (map : TreeMap K V) (key : K) : Option (K × V) :=
  let cursor := ((Cursor.new map.tree).slice_while fun entry => decide (entry.key ≤ key)).2
  cursor.passed.getLast?.map fun entry => (entry.key, entry.value)

def iter_from (map : TreeMap K V) (key : K) : List (K × V) :=
  (map.seek_left key).2.suffix.map fun entry => (entry.key, entry.value)

/-- What the callback returned, and the map. -/
def update {T : Type} (map : TreeMap K V) (key : K) (f : V → T × V) : Option T × TreeMap K V :=
  let (new_tree, cursor) := map.seek_left key
  match entry_at cursor key with
  | some entry =>
    let (result, value) := f entry.value
    (some result, { tree := new_tree ++ [{ entry with value }] ++ cursor.next.suffix })
  | none => (none, { tree := new_tree ++ cursor.suffix })

/-- The loop of `retain`. The predicate may keep a state of its own. -/
def retain_from {S : Type} (predicate : S → K → V → Bool × S) : S → List (MapEntry K V) →
    List (MapEntry K V)
  | _, [] => []
  | state, entry :: rest =>
    let (keep, state) := predicate state entry.key entry.value
    if keep then entry :: retain_from predicate state rest else retain_from predicate state rest

def retain {S : Type} (map : TreeMap K V) (predicate : S → K → V → Bool × S) (state : S) :
    TreeMap K V :=
  { tree := retain_from predicate state map.tree }

omit [LinearOrder K] in
def iter (map : TreeMap K V) : List (K × V) := map.tree.map fun entry => (entry.key, entry.value)

omit [LinearOrder K] in
def first (map : TreeMap K V) : Option (K × V) :=
  map.tree.head?.map fun entry => (entry.key, entry.value)

omit [LinearOrder K] in
def last (map : TreeMap K V) : Option (K × V) :=
  map.tree.getLast?.map fun entry => (entry.key, entry.value)

end TreeMap

end zed.sum_tree

namespace zed.sum_tree

variable {K V : Type} [LinearOrder K]

/-- An ordered map by what it holds under each key. -/
abbrev Contents (K V : Type) := K → Option V

namespace Contents

def insert (m : Contents K V) (key : K) (value : V) : Contents K V := Function.update m key (some value)

/-- The pairs one after another, so that the later of two with one key wins. -/
def extend (m : Contents K V) (pairs : List (K × V)) : Contents K V :=
  pairs.foldl (fun m pair => m.insert pair.1 pair.2) m

omit [LinearOrder K] in
def insert_tree (m other : Contents K V) : Contents K V := fun key => (other key).or (m key)

def remove (m : Contents K V) (key : K) : Contents K V := Function.update m key none

/-- The keys from the start to before the end are removed. -/
def remove_range (m : Contents K V) (start stop : MapSeekTarget K) : Contents K V := fun key =>
  if start.cmp_cursor key ≠ .gt ∧ stop.cmp_cursor key = .gt then none else m key

def update {T : Type} (m : Contents K V) (key : K) (f : V → T × V) : Contents K V :=
  Function.update m key ((m key).map fun value => (f value).2)

/-- The keys are visited in the order of the list. -/
def retain {S : Type} (predicate : S → K → V → Bool × S) : S → List K → Contents K V → Contents K V
  | _, [], m => m
  | state, key :: keys, m =>
    match m key with
    | none => retain predicate state keys m
    | some value =>
      let (keep, state) := predicate state key value
      retain predicate state keys (if keep then m else m.remove key)

/-- The pairs whose keys have a property, in the order of their keys. -/
def Lists (m : Contents K V) (p : K → Prop) (pairs : List (K × V)) : Prop :=
  pairs.Pairwise (fun x y => x.1 < y.1) ∧ ∀ key value, (key, value) ∈ pairs ↔ p key ∧ m key = some value

/-- The pair with the greatest key with a property, if there is one. -/
def Greatest (m : Contents K V) (p : K → Prop) : Option (K × V) → Prop
  | none => ∀ key, p key → m key = none
  | some (key, value) => p key ∧ m key = some value ∧ ∀ other, p other → (m other).isSome → other ≤ key

/-- The pair with the least key, if there is one. -/
def Least (m : Contents K V) : Option (K × V) → Prop
  | none => ∀ key, m key = none
  | some (key, value) => m key = some value ∧ ∀ other, (m other).isSome → key ≤ other

end Contents

namespace Contents

theorem extend_eq_some {m : Contents K V} {pairs : List (K × V)} (hkeys : (pairs.map Prod.fst).Nodup)
    {k : K} {value : V} :
    m.extend pairs k = some value ↔
      (k, value) ∈ pairs ∨ m k = some value ∧ ∀ pair ∈ pairs, pair.1 ≠ k := by
  induction pairs generalizing m with
  | nil => simp [extend]
  | cons pair pairs ih =>
    obtain ⟨hfirst, hrest⟩ := List.nodup_cons.mp hkeys
    have hcons : m.extend (pair :: pairs) = (m.insert pair.1 pair.2).extend pairs := rfl
    rw [hcons, ih hrest, insert, Function.update_apply]
    by_cases hk : k = pair.1
    · subst hk
      have hnone : ∀ v, (pair.1, v) ∉ pairs := fun v hv => hfirst (List.mem_map.mpr ⟨_, hv, rfl⟩)
      have hall : ∀ other ∈ pairs, other.1 ≠ pair.1 := fun other hother heq =>
        hfirst (heq ▸ List.mem_map_of_mem hother)
      have heq : ((pair.1, value) = pair) ↔ pair.2 = value := by
        rw [Prod.ext_iff]
        simp [eq_comm]
      simp only [if_true, Option.some.injEq, List.mem_cons, heq, hnone, false_or, or_false,
        forall_eq_or_imp, ne_eq, not_true, false_and, and_false]
      exact ⟨fun h => h.1, fun h => ⟨h, hall⟩⟩
    · have hne : (k, value) ≠ pair := fun heq => hk (by rw [← heq])
      simp [hk, hne, Ne.symm hk]

theorem Lists.greatest {m : Contents K V} {p : K → Prop} {pairs : List (K × V)} (h : m.Lists p pairs) :
    m.Greatest p pairs.getLast? := by
  obtain ⟨hsorted, hmem⟩ := h
  rcases List.eq_nil_or_concat pairs with rfl | ⟨init, ⟨key, value⟩, rfl⟩
  · refine fun k hk => Option.eq_none_iff_forall_ne_some.mpr fun v hv => ?_
    exact List.not_mem_nil ((hmem k v).mpr ⟨hk, hv⟩)
  · rw [List.concat_eq_append, List.getLast?_append_of_ne_nil _ (by simp)]
    rw [List.concat_eq_append] at hsorted hmem
    obtain ⟨hp, hvalue⟩ := (hmem key value).mp (by simp)
    refine ⟨hp, hvalue, fun other hother hsome => ?_⟩
    obtain ⟨v, hv⟩ := Option.isSome_iff_exists.mp hsome
    rcases List.mem_append.mp ((hmem other v).mpr ⟨hother, hv⟩) with hin | hin
    · exact ((List.pairwise_append.mp hsorted).2.2 _ hin _ (List.mem_singleton_self _)).le
    · have heq : (other, v) = (key, value) := by simpa using hin
      exact (Prod.ext_iff.mp heq).1.le

theorem Lists.least {m : Contents K V} {pairs : List (K × V)} (h : m.Lists (fun _ => True) pairs) :
    m.Least pairs.head? := by
  obtain ⟨hsorted, hmem⟩ := h
  cases pairs with
  | nil =>
    refine fun k => Option.eq_none_iff_forall_ne_some.mpr fun v hv => ?_
    exact List.not_mem_nil ((hmem k v).mpr ⟨trivial, hv⟩)
  | cons pair rest =>
    obtain ⟨key, value⟩ := pair
    refine ⟨((hmem key value).mp List.mem_cons_self).2, fun other hsome => ?_⟩
    obtain ⟨v, hv⟩ := Option.isSome_iff_exists.mp hsome
    rcases List.mem_cons.mp ((hmem other v).mpr ⟨trivial, hv⟩) with heq | hin
    · exact (Prod.ext_iff.mp heq).1.ge
    · exact ((List.pairwise_cons.mp hsorted).1 _ hin).le

end Contents

/-- A sorted tree holds exactly the pairs of a map. -/
structure TreeMap.Holds (map : TreeMap K V) (m : Contents K V) : Prop where
  sorted : Sorted map.tree
  mem : ∀ entry, entry ∈ map.tree ↔ m entry.key = some entry.value

/-- The keys of a tree increase strictly, and every query gives what the reference
    map gives. -/
structure TreeMap.Agrees (map : TreeMap K V) (m : Contents K V) : Prop where
  sorted : (map.tree.map MapEntry.key).Pairwise (· < ·)
  get : ∀ key, map.get key = m key
  contains_key : ∀ key, map.contains_key key = (m key).isSome
  closest : ∀ key, m.Greatest (· ≤ key) (map.closest key)
  iter_from : ∀ key, m.Lists (key ≤ ·) (map.iter_from key)
  iter : m.Lists (fun _ => True) map.iter
  first : m.Least map.first
  last : m.Greatest (fun _ => True) map.last

def slot (key : K) (value : Option V) : List (MapEntry K V) := (value.map fun value => ⟨key, value⟩).toList

omit [LinearOrder K] in
@[simp] theorem mem_slot {key : K} {value : Option V} {entry : MapEntry K V} :
    entry ∈ slot key value ↔ entry.key = key ∧ value = some entry.value := by
  cases value with
  | none => simp [slot]
  | some v =>
    cases entry
    simp [slot, eq_comm]

namespace TreeMap

theorem Holds.empty : Holds (K := K) (V := V) ⟨[]⟩ fun _ => none := ⟨List.Pairwise.nil, by simp⟩

theorem Holds.around {map : TreeMap K V} {m : Contents K V} (h : map.Holds m) (k : K) :
    ∃ before after, (∀ entry ∈ before, entry.key < k) ∧ (∀ entry ∈ after, k < entry.key) ∧
      map.tree = before ++ slot k (m k) ++ after ∧
      map.seek_left k = (before, { passed := before, rest := slot k (m k) ++ after }) := by
  have hbelow : ∀ entry ∈ map.tree.takeWhile (fun entry => decide (entry.key < k)), entry.key < k :=
    fun entry hentry => (h.sorted.mem_takeWhile.mp hentry).2
  have hrest : ∀ entry ∈ map.tree.dropWhile (fun entry => decide (entry.key < k)), k ≤ entry.key :=
    fun entry hentry => (h.sorted.mem_dropWhile.mp hentry).2
  have hsorted : Sorted (map.tree.dropWhile fun entry => decide (entry.key < k)) :=
    h.sorted.sublist (List.dropWhile_sublist _)
  have htree := List.takeWhile_append_dropWhile (p := fun entry : MapEntry K V => decide (entry.key < k))
    (l := map.tree)
  have hseek : map.seek_left k = (map.tree.takeWhile fun entry => decide (entry.key < k),
      { passed := map.tree.takeWhile fun entry => decide (entry.key < k),
        rest := map.tree.dropWhile fun entry => decide (entry.key < k) }) := rfl
  have hsub : ∀ entry ∈ map.tree.dropWhile (fun entry => decide (entry.key < k)), entry ∈ map.tree :=
    fun entry hentry => (h.sorted.mem_dropWhile.mp hentry).1
  -- the key's own entry is the first one from the cursor on, if there is one
  suffices hslot : ∃ after, (∀ entry ∈ after, k < entry.key) ∧
      map.tree.dropWhile (fun entry => decide (entry.key < k)) = slot k (m k) ++ after by
    obtain ⟨after, habove, heq⟩ := hslot
    rw [heq] at htree hseek
    exact ⟨_, after, hbelow, habove, by rw [List.append_assoc]; exact htree.symm, hseek⟩
  cases hm : m k with
  | some value =>
    have hmem : (⟨k, value⟩ : MapEntry K V) ∈ map.tree.dropWhile fun entry => decide (entry.key < k) :=
      h.sorted.mem_dropWhile.mpr ⟨(h.mem _).mpr hm, le_refl k⟩
    cases hdrop : map.tree.dropWhile fun entry => decide (entry.key < k) with
    | nil => simp [hdrop] at hmem
    | cons entry after =>
      rw [hdrop] at hmem hrest hsorted hsub
      have habove : ∀ other ∈ after, entry.key < other.key := fun other hother => hsorted.head_lt hother
      have hentry : entry = ⟨k, value⟩ := by
        refine h.sorted.eq_of_key_eq (hsub entry List.mem_cons_self) ((h.mem _).mpr hm) ?_
        rcases List.mem_cons.mp hmem with heq | hafter
        · rw [← heq]
        · exact absurd (habove _ hafter) (not_lt_of_ge (hrest entry List.mem_cons_self))
      subst hentry
      exact ⟨after, habove, rfl⟩
  | none =>
    refine ⟨_, fun entry hentry => lt_of_le_of_ne (hrest entry hentry) fun heq => ?_, rfl⟩
    have hvalue := (h.mem entry).mp (hsub entry hentry)
    rw [← heq, hm] at hvalue
    cases hvalue

theorem Holds.set {map : TreeMap K V} {m : Contents K V} (h : map.Holds m) {k : K}
    {before after : List (MapEntry K V)} (hbelow : ∀ entry ∈ before, entry.key < k)
    (habove : ∀ entry ∈ after, k < entry.key) (htree : map.tree = before ++ slot k (m k) ++ after)
    (value : Option V) :
    Holds ⟨before ++ slot k value ++ after⟩ (Function.update m k value) := by
  have hsorted := h.sorted
  rw [htree, Sorted, List.pairwise_append, List.pairwise_append] at hsorted
  obtain ⟨⟨hbefore, _, _⟩, hafter, hacross⟩ := hsorted
  constructor
  · refine List.pairwise_append.mpr ⟨List.pairwise_append.mpr ⟨hbefore, ?_, ?_⟩, hafter, ?_⟩
    · cases value <;> simp [slot]
    · intro x hx y hy
      have hkey := (mem_slot.mp hy).1
      change x.key < y.key
      rw [hkey]
      exact hbelow x hx
    · intro x hx y hy
      rcases List.mem_append.mp hx with hx | hx
      · exact hacross x (List.mem_append_left _ hx) y hy
      · change x.key < y.key
        rw [(mem_slot.mp hx).1]
        exact habove y hy
  · intro entry
    have hmem := h.mem entry
    simp only [htree, List.mem_append, mem_slot] at hmem ⊢
    by_cases hkey : entry.key = k
    · have hnotbefore : entry ∉ before := fun hin => (hbelow entry hin).ne hkey
      have hnotafter : entry ∉ after := fun hin => (habove entry hin).ne' hkey
      simp [hkey, hnotbefore, hnotafter]
    · rw [Function.update_of_ne hkey, ← hmem]
      simp [hkey]

theorem Holds.entry_at {map : TreeMap K V} {m : Contents K V} (h : map.Holds m) (k : K) :
    TreeMap.entry_at (map.seek_left k).2 k = (m k).map fun value => ⟨k, value⟩ := by
  obtain ⟨before, after, -, habove, -, hseek⟩ := h.around k
  rw [hseek, TreeMap.entry_at, Cursor.item]
  cases hm : m k with
  | some value => simp [slot, Option.filter]
  | none =>
    cases after with
    | nil => rfl
    | cons entry after =>
      have hne := (habove entry List.mem_cons_self).ne'
      simp [slot, Option.filter, hne]

theorem Holds.value_at {map : TreeMap K V} {m : Contents K V} (h : map.Holds m) (k : K) :
    (TreeMap.entry_at (map.seek_left k).2 k).map MapEntry.value = m k := by
  rw [h.entry_at]
  cases m k <;> rfl

theorem Holds.insert_or_replace {map : TreeMap K V} {m : Contents K V} (h : map.Holds m) (k : K)
    (value : V) :
    (map.insert_or_replace k value).1 = m k ∧ (map.insert_or_replace k value).2.Holds (m.insert k value) := by
  constructor
  · exact h.value_at k
  · constructor
    · exact insert_or_replace_sorted h.sorted _
    · intro entry
      rw [TreeMap.insert_or_replace, mem_insert_or_replace h.sorted, h.mem, Contents.insert, Function.update_apply]
      by_cases hkey : entry.key = k
      · cases entry
        simp_all [KeyedItem.key, eq_comm]
      · have hne : entry ≠ ⟨k, value⟩ := fun heq => hkey (by rw [heq])
        simp [hkey, hne, KeyedItem.key, Ne.symm hkey]

theorem Holds.remove {map : TreeMap K V} {m : Contents K V} (h : map.Holds m) (k : K) :
    (map.remove k).1 = m k ∧ (map.remove k).2.Holds (m.remove k) := by
  obtain ⟨before, after, hbelow, habove, htree, hseek⟩ := h.around k
  have hentry := h.entry_at k
  have hset := h.set hbelow habove htree none
  rw [hseek] at hentry
  rw [TreeMap.remove, hseek]
  cases hm : m k with
  | some value =>
    rw [hm] at hentry
    simp only [hentry, Option.map_some]
    refine ⟨trivial, ?_⟩
    simpa [slot, Cursor.next, Cursor.suffix, Contents.remove] using hset
  | none =>
    rw [hm] at hentry
    simp only [hentry, Option.map_none]
    refine ⟨trivial, ?_⟩
    simpa [slot, Cursor.suffix, Contents.remove] using hset

theorem Holds.update {T : Type} {map : TreeMap K V} {m : Contents K V} (h : map.Holds m) (k : K)
    (f : V → T × V) :
    (map.update k f).1 = (m k).map (fun value => (f value).1) ∧ (map.update k f).2.Holds (m.update k f) := by
  obtain ⟨before, after, hbelow, habove, htree, hseek⟩ := h.around k
  have hentry := h.entry_at k
  have hset := h.set hbelow habove htree ((m k).map fun value => (f value).2)
  rw [hseek] at hentry
  rw [TreeMap.update, hseek]
  cases hm : m k with
  | some value =>
    rw [hm] at hentry hset
    simp only [hentry, Option.map_some]
    refine ⟨trivial, ?_⟩
    simpa [slot, Cursor.next, Cursor.suffix, Contents.update, hm] using hset
  | none =>
    rw [hm] at hentry hset
    simp only [hentry, Option.map_none]
    refine ⟨trivial, ?_⟩
    simpa [slot, Cursor.suffix, Contents.update, hm] using hset

theorem Holds.extend {map : TreeMap K V} {m : Contents K V} (h : map.Holds m) {pairs : List (K × V)}
    (hkeys : (pairs.map Prod.fst).Nodup) : (map.extend pairs).Holds (m.extend pairs) := by
  have hedits : ((pairs.map fun pair => (⟨pair.1, pair.2⟩ : MapEntry K V)).map key).Nodup := by
    rw [List.map_map]
    exact hkeys
  obtain ⟨hsorted, hmem⟩ := edit_insert_spec hedits h.sorted
  rw [List.map_map] at hsorted hmem
  refine ⟨hsorted, fun entry => (hmem entry).trans ?_⟩
  rw [Contents.extend_eq_some hkeys, h.mem, List.forall_mem_map]
  cases entry
  simp [KeyedItem.key]

theorem Holds.insert_tree {map other : TreeMap K V} {m o : Contents K V} (h : map.Holds m)
    (hother : other.Holds o) : (map.insert_tree other).Holds (m.insert_tree o) := by
  have hkeys : (other.tree.map key).Nodup :=
    List.pairwise_map.mpr (hother.sorted.imp fun hlt => hlt.ne)
  obtain ⟨hsorted, hmem⟩ := edit_insert_spec hkeys h.sorted
  refine ⟨hsorted, fun entry => (hmem entry).trans ?_⟩
  rw [h.mem, hother.mem, Contents.insert_tree]
  cases ho : o entry.key with
  | some value =>
    have hold : (⟨entry.key, value⟩ : MapEntry K V) ∈ other.tree := (hother.mem _).mpr ho
    have hnot : ¬ ∀ item ∈ other.tree, key item ≠ key entry := fun hall => hall _ hold rfl
    simp [hnot]
  | none =>
    have hall : ∀ item ∈ other.tree, key item ≠ key entry := by
      intro item hitem heq
      have hvalue := (hother.mem item).mp hitem
      change item.key = entry.key at heq
      rw [heq, ho] at hvalue
      cases hvalue
    simp only [iff_true_intro hall, and_true, reduceCtorEq, false_or, Option.none_or]

theorem Holds.remove_range {map : TreeMap K V} {m : Contents K V} (h : map.Holds m)
    {start stop : MapSeekTarget K}
    (hle : ∀ key, start.cmp_cursor key = .gt → stop.cmp_cursor key = .gt) :
    (map.remove_range start stop).Holds (m.remove_range start stop) := by
  have hdown : ∀ (target : MapSeekTarget K) (x y : MapEntry K V), key x < key y →
      target.passes y = true → target.passes x = true := by
    intro target x y hlt hy
    exact decide_eq_true (target.mono hlt.le (of_decide_eq_true hy))
  have htree : (map.remove_range start stop).tree =
      map.tree.filter start.passes ++ map.tree.filter fun entry => !stop.passes entry := by
    rw [← h.sorted.takeWhile_eq_filter (hdown start), ← h.sorted.dropWhile_eq_filter (hdown stop)]
    rfl
  constructor
  · rw [htree]
    refine List.pairwise_append.mpr ⟨h.sorted.sublist List.filter_sublist,
      h.sorted.sublist List.filter_sublist, fun x hx y hy => ?_⟩
    obtain ⟨_, hxpass⟩ := List.mem_filter.mp hx
    obtain ⟨_, hypass⟩ := List.mem_filter.mp hy
    have hxgt : start.cmp_cursor x.key = .gt := of_decide_eq_true hxpass
    have hygt : ¬ stop.cmp_cursor y.key = .gt := by simpa [MapSeekTarget.passes] using hypass
    exact lt_of_not_ge fun hge => hygt (stop.mono hge (hle _ hxgt))
  · intro entry
    rw [htree]
    have hmem := h.mem entry
    simp only [List.mem_append, List.mem_filter, MapSeekTarget.passes, Contents.remove_range,
      decide_eq_true_eq, Bool.not_eq_true', decide_eq_false_iff_not]
    split
    · rename_i hin
      simp [hin.1, hin.2]
    · rename_i hout
      rw [← hmem]
      constructor
      · rintro (hin | hin)
        · exact hin.1
        · exact hin.1
      · intro hin
        by_cases hstop : stop.cmp_cursor entry.key = .gt
        · exact Or.inl ⟨hin, not_not.mp fun hstart => hout ⟨hstart, hstop⟩⟩
        · exact Or.inr ⟨hin, hstop⟩

omit [LinearOrder K] in
theorem retain_from_sublist {S : Type} (predicate : S → K → V → Bool × S) (state : S)
    (entries : List (MapEntry K V)) : (retain_from predicate state entries).Sublist entries := by
  induction entries generalizing state with
  | nil => exact List.Sublist.refl []
  | cons entry rest ih =>
    rw [retain_from]
    dsimp only
    split
    · exact (ih _).cons_cons entry
    · exact (ih _).cons entry

theorem mem_retain_from {S : Type} (predicate : S → K → V → Bool × S) (state : S)
    {entries : List (MapEntry K V)} (hsorted : Sorted entries) {m : Contents K V}
    (hm : ∀ entry ∈ entries, m entry.key = some entry.value) (entry : MapEntry K V) :
    m.retain predicate state (entries.map MapEntry.key) entry.key = some entry.value ↔
      entry ∈ retain_from predicate state entries ∨
        entry.key ∉ entries.map MapEntry.key ∧ m entry.key = some entry.value := by
  induction entries generalizing state m with
  | nil => simp [Contents.retain, retain_from]
  | cons first rest ih =>
    have hfirst := hm first List.mem_cons_self
    have hne : ∀ other ∈ rest, other.key ≠ first.key := fun other hother => (hsorted.head_lt hother).ne'
    have hkept : ∀ (keep : Bool), ∀ other ∈ rest,
        (if keep then m else m.remove first.key) other.key = some other.value := by
      intro keep other hother
      cases keep with
      | true => exact hm other (List.mem_cons_of_mem _ hother)
      | false =>
        rw [if_neg (by simp), Contents.remove, Function.update_of_ne (hne other hother)]
        exact hm other (List.mem_cons_of_mem _ hother)
    rw [List.map_cons, Contents.retain, hfirst, retain_from]
    dsimp only
    rw [ih (predicate state first.key first.value).2 hsorted.tail (hkept _)]
    have hnot : first.key ∉ rest.map MapEntry.key := by
      rw [List.mem_map]
      rintro ⟨other, hother, heq⟩
      exact hne other hother heq
    have hnotin : ∀ state, first ∉ retain_from predicate state rest :=
      fun state hin => hne first ((retain_from_sublist predicate state rest).subset hin) rfl
    by_cases hkey : entry.key = first.key
    · have hrest : ∀ state, entry ∉ retain_from predicate state rest := fun state hin =>
        hne entry ((retain_from_sublist predicate state rest).subset hin) hkey
      have heq : first.value = entry.value ↔ entry = first := by
        cases entry
        cases first
        simp_all [eq_comm]
      split
      · simp [hkey, hnot, hrest, hfirst, heq]
      · simp [hkey, hnot, hrest, Contents.remove]
    · have hentry : entry ≠ first := fun heq => hkey (by rw [heq])
      split
      · simp [hkey, hentry]
      · simp [hkey, Contents.remove]

theorem Holds.mem_keys {map : TreeMap K V} {m : Contents K V} (h : map.Holds m) (k : K) :
    k ∈ map.tree.map MapEntry.key ↔ (m k).isSome := by
  rw [List.mem_map, Option.isSome_iff_exists]
  constructor
  · rintro ⟨entry, hentry, rfl⟩
    exact ⟨entry.value, (h.mem entry).mp hentry⟩
  · rintro ⟨value, hvalue⟩
    exact ⟨⟨k, value⟩, (h.mem _).mpr hvalue, rfl⟩

theorem Holds.retain {S : Type} {map : TreeMap K V} {m : Contents K V} (h : map.Holds m)
    (predicate : S → K → V → Bool × S) (state : S) {keys : List K} (hkeys : keys.Pairwise (· < ·))
    (hall : ∀ key, key ∈ keys ↔ (m key).isSome) :
    (map.retain predicate state).Holds (m.retain predicate state keys) := by
  have htree : keys = map.tree.map MapEntry.key :=
    hkeys.eq_of_mem_iff (List.pairwise_map.mpr h.sorted) fun k => (hall k).trans (h.mem_keys k).symm
  subst htree
  refine ⟨h.sorted.sublist (retain_from_sublist predicate state map.tree), fun entry => ?_⟩
  rw [mem_retain_from predicate state h.sorted (fun other hother => (h.mem other).mp hother)]
  constructor
  · exact Or.inl
  · rintro (hin | ⟨hnot, hvalue⟩)
    · exact hin
    · exact absurd (List.mem_map_of_mem ((h.mem entry).mpr hvalue)) hnot

theorem Holds.lists {map : TreeMap K V} {m : Contents K V} (h : map.Holds m) {p : K → Prop}
    (keep : MapEntry K V → Bool) (hkeep : ∀ entry, keep entry = true ↔ p entry.key) :
    m.Lists p ((map.tree.filter keep).map fun entry => (entry.key, entry.value)) := by
  constructor
  · rw [List.pairwise_map]
    exact h.sorted.sublist List.filter_sublist
  · intro key value
    have hmem := h.mem ⟨key, value⟩
    rw [← hmem, List.mem_map]
    constructor
    · rintro ⟨⟨k, v⟩, hin, heq⟩
      simp only [Prod.mk.injEq] at heq
      obtain ⟨rfl, rfl⟩ := heq
      obtain ⟨htree, hkept⟩ := List.mem_filter.mp hin
      exact ⟨(hkeep _).mp hkept, htree⟩
    · rintro ⟨hp, hin⟩
      exact ⟨⟨key, value⟩, List.mem_filter.mpr ⟨hin, (hkeep _).mpr hp⟩, rfl⟩

theorem Holds.lists_iter {map : TreeMap K V} {m : Contents K V} (h : map.Holds m) :
    m.Lists (fun _ => True) map.iter := by
  have hlists := h.lists (p := fun _ => True) (fun _ => true) (by simp)
  rwa [List.filter_eq_self.mpr (by simp)] at hlists

theorem Holds.lists_iter_from {map : TreeMap K V} {m : Contents K V} (h : map.Holds m) (k : K) :
    m.Lists (k ≤ ·) (map.iter_from k) := by
  have hlists := h.lists (p := (k ≤ ·)) (fun entry => !decide (entry.key < k)) (by simp)
  rwa [← h.sorted.dropWhile_eq_filter fun x y hlt hy => ?_] at hlists
  exact decide_eq_true (hlt.trans (of_decide_eq_true hy))

theorem Holds.greatest_closest {map : TreeMap K V} {m : Contents K V} (h : map.Holds m) (k : K) :
    m.Greatest (· ≤ k) (map.closest k) := by
  have hlists := h.lists (p := (· ≤ k)) (fun entry => decide (entry.key ≤ k)) (by simp)
  rw [← h.sorted.takeWhile_eq_filter fun x y hlt hy => ?_] at hlists
  · have hgreatest := hlists.greatest
    rwa [List.getLast?_map] at hgreatest
  · exact decide_eq_true (hlt.le.trans (of_decide_eq_true hy))

theorem Holds.agrees {map : TreeMap K V} {m : Contents K V} (h : map.Holds m) : map.Agrees m where
  sorted := List.pairwise_map.mpr h.sorted
  get := h.value_at
  contains_key k := congrArg Option.isSome (h.value_at k)
  closest := h.greatest_closest
  iter_from := h.lists_iter_from
  iter := h.lists_iter
  first := by
    have hleast := h.lists_iter.least
    rwa [iter, List.head?_map] at hleast
  last := by
    have hgreatest := h.lists_iter.greatest
    rwa [iter, List.getLast?_map] at hgreatest

end TreeMap

end zed.sum_tree
