import Zed.SumTree.TreeMap

namespace zed.sum_tree

variable {K V : Type} [LinearOrder K]

/-- A map that calls make from the empty one, with the reference map after the same
    calls. A batch is extended by only when it is allowed. -/
inductive TreeMap.Run (allowed : List (K × V) → Prop) : TreeMap K V → Contents K V → Prop
  | empty : Run allowed ⟨[]⟩ fun _ => none
  | insert {map m} (key : K) (value : V) (h : Run allowed map m) :
    Run allowed (map.insert key value) (m.insert key value)
  | insert_or_replace {map m} (key : K) (value : V) (h : Run allowed map m) :
    Run allowed (map.insert_or_replace key value).2 (m.insert key value)
  | extend {map m} (pairs : List (K × V)) (hallowed : allowed pairs) (h : Run allowed map m) :
    Run allowed (map.extend pairs) (m.extend pairs)
  | insert_tree {map m other o} (hother : Run allowed other o) (h : Run allowed map m) :
    Run allowed (map.insert_tree other) (m.insert_tree o)
  | remove {map m} (key : K) (h : Run allowed map m) : Run allowed (map.remove key).2 (m.remove key)
  | update {map m} {T : Type} (key : K) (f : V → T × V) (h : Run allowed map m) :
    Run allowed (map.update key f).2 (m.update key f)
  | retain {map m} {S : Type} (predicate : S → K → V → Bool × S) (state : S) (keys : List K)
    (hkeys : keys.Pairwise (· < ·)) (hall : ∀ key, key ∈ keys ↔ (m key).isSome)
    (h : Run allowed map m) :
    Run allowed (map.retain predicate state) (m.retain predicate state keys)
  | remove_range {map m} (start stop : MapSeekTarget K)
    (hle : ∀ key, start.cmp_cursor key = .gt → stop.cmp_cursor key = .gt) (h : Run allowed map m) :
    Run allowed (map.remove_range start stop) (m.remove_range start stop)

/-- The keys of a batch are pairwise distinct. -/
def TreeMap.Distinct (pairs : List (K × V)) : Prop := (pairs.map Prod.fst).Nodup

instance (pairs : List (K × V)) : Decidable (TreeMap.Distinct pairs) :=
  inferInstanceAs (Decidable (List.Nodup _))

namespace TreeMap

theorem Run.holds {map : TreeMap K V} {m : Contents K V} (h : Run Distinct map m) : map.Holds m := by
  induction h with
  | empty => exact Holds.empty
  | insert key value _ ih => exact (ih.insert_or_replace key value).2
  | insert_or_replace key value _ ih => exact (ih.insert_or_replace key value).2
  | extend pairs hdistinct _ ih => exact ih.extend hdistinct
  | insert_tree _ _ ihother ih => exact ih.insert_tree ihother
  | remove key _ ih => exact (ih.remove key).2
  | update key f _ ih => exact (ih.update key f).2
  | retain predicate state keys hkeys hall _ ih => exact ih.retain predicate state hkeys hall
  | remove_range start stop hle _ ih => exact ih.remove_range hle

theorem distinct_of_sorted {map : TreeMap K V} {pairs : List (K × V)}
    (h : ((map.extend pairs).tree.map MapEntry.key).Pairwise (· < ·)) : Distinct pairs := by
  have hsorted : Sorted (edit map.tree
      ((pairs.map fun pair => (⟨pair.1, pair.2⟩ : MapEntry K V)).map Edit.Insert)) := by
    rw [List.map_map]
    exact List.pairwise_map.mp h
  have hnodup := nodup_of_edit_sorted hsorted
  rwa [List.map_map] at hnodup

/-- A map is a sorted map after any calls that extend it by batches with distinct
    keys, and the next batch keeps it one exactly when its keys are distinct. -/
theorem Run.sorted_map {map : TreeMap K V} {m : Contents K V} (h : Run Distinct map m) :
    map.Agrees m ∧ ∀ pairs, (map.extend pairs).Agrees (m.extend pairs) ↔ Distinct pairs := by
  refine ⟨h.holds.agrees, fun pairs => ⟨fun hagrees => distinct_of_sorted hagrees.sorted, fun hdistinct => ?_⟩⟩
  exact (h.holds.extend hdistinct).agrees

/-- A map after one call of each kind. -/
theorem Run.sample_sorted_map : ∃ (map : TreeMap Nat Nat) (m : Contents Nat Nat),
    map.tree = [⟨1, 10⟩, ⟨4, 41⟩] ∧ map.Agrees m ∧
      ∀ pairs, (map.extend pairs).Agrees (m.extend pairs) ↔ Distinct pairs := by
  have hextend := Run.extend [(4, 40), (1, 10), (7, 70), (9, 90)] (by decide)
    (Run.empty : Run Distinct (⟨[]⟩ : TreeMap Nat Nat) _)
  have hinsert := Run.insert_or_replace 7 71 (Run.insert 2 20 hextend)
  have hupdate := Run.remove 2 (Run.update 4 (fun value => ((), value + 1)) hinsert)
  have htree := Run.insert_tree (Run.insert 8 80 Run.empty) hupdate
  have hretain := Run.retain (fun _ key _ => (decide (key ≠ 9), ())) () _
    (List.pairwise_map.mpr htree.holds.sorted) htree.holds.mem_keys htree
  have hrange := Run.remove_range (MapSeekTarget.of_key 5) (MapSeekTarget.of_key 9)
    (fun key hkey => ?_) hretain
  · exact ⟨_, _, by decide, Run.sorted_map hrange⟩
  · change compare 5 key = .gt at hkey
    change compare 9 key = .gt
    rw [compare_gt_iff_gt] at hkey ⊢
    omega

/-- Both pairs of a batch that repeats a key stay in the tree, and the earlier one is
    found. -/
theorem Run.sample_repeated_key :
    Run (fun _ => True) ((⟨[]⟩ : TreeMap Nat Nat).extend [(1, 10), (1, 20)])
        (Contents.extend (fun _ => none) [(1, 10), (1, 20)]) ∧
      ((⟨[]⟩ : TreeMap Nat Nat).extend [(1, 10), (1, 20)]).tree = [⟨1, 10⟩, ⟨1, 20⟩] ∧
      ((⟨[]⟩ : TreeMap Nat Nat).extend [(1, 10), (1, 20)]).get 1 = some 10 ∧
      Contents.extend (fun _ => none) [(1, 10), (1, 20)] 1 = some 20 ∧
      ¬ ∀ (map : TreeMap Nat Nat) (m : Contents Nat Nat), Run (fun _ => True) map m → map.Agrees m := by
  have hrun : Run (fun _ => True) ((⟨[]⟩ : TreeMap Nat Nat).extend [(1, 10), (1, 20)])
      (Contents.extend (fun _ => none) [(1, 10), (1, 20)]) := Run.extend _ trivial Run.empty
  refine ⟨hrun, by decide, by decide, by decide, fun hall => ?_⟩
  exact absurd ((hall _ _ hrun).get 1) (by decide)

end TreeMap

end zed.sum_tree
