import Mathlib

namespace zed.dbt_ui.xdi.layout

/-- A node of the xDI graph, as far as its name goes: `folder` is the text that
    its detail has under that key. -/
structure Node where
  kind : String
  label : String
  connection : Option String
  folder : Option String
deriving DecidableEq, Repr

def qualified_name (nodes : List Node) (node : Node) : String :=
  if nodes.countP (fun other => other.label = node.label) ≤ 1 then node.label
  else if node.kind = "job" then node.label ++ " (" ++ node.folder.getD "" ++ ")"
  else
    match node.connection with
    | some server => node.label ++ "@" ++ server
    | none => node.label

def numbered (name : String) (count : Nat) : String :=
  if count > 1 then name ++ " #" ++ toString count else name

/-- Numbers the names that still clash: `seen` counts those met so far. -/
def number (seen : String → Nat) : List String → List String
  | [] => []
  | name :: names =>
    let count := seen name + 1
    numbered name count :: number (Function.update seen name count) names

def unique_names (nodes : List Node) : List String :=
  number (fun _ => 0) (nodes.map (qualified_name nodes))

/-- The names with the count that each is met with. -/
def tally (seen : String → Nat) : List String → List (String × Nat)
  | [] => []
  | name :: names => (name, seen name + 1) :: tally (Function.update seen name (seen name + 1)) names

theorem number_eq_map_tally (seen : String → Nat) (names : List String) :
    number seen names = (tally seen names).map fun entry => numbered entry.1 entry.2 := by
  induction names generalizing seen with
  | nil => rfl
  | cons name names ih => rw [number, tally, List.map_cons, ih]

theorem mem_tally {seen : String → Nat} {names : List String} {name : String} {count : Nat} :
    (name, count) ∈ tally seen names ↔ seen name < count ∧ count ≤ seen name + names.count name := by
  induction names generalizing seen with
  | nil =>
    simp only [tally, List.not_mem_nil, List.count_nil, false_iff]
    omega
  | cons first names ih =>
    rw [tally, List.mem_cons, ih, Prod.mk.injEq, List.count_cons]
    by_cases hname : name = first
    · subst hname
      simp only [Function.update_self, beq_self_eq_true, if_true, true_and]
      omega
    · have hne : (first == name) = false := by simpa using fun h : first = name => hname h.symm
      simp only [hname, false_and, false_or, Function.update_of_ne hname, hne]
      simp

theorem tally_nodup (seen : String → Nat) (names : List String) : (tally seen names).Nodup := by
  induction names generalizing seen with
  | nil => exact List.nodup_nil
  | cons first names ih =>
    refine List.nodup_cons.mpr ⟨fun hmem => ?_, ih _⟩
    have hlater := (mem_tally.mp hmem).1
    rw [Function.update_self] at hlater
    omega

private theorem sharp_not_mem_repr (count : Nat) : '#' ∉ count.repr.toList := by
  rw [Nat.toList_repr]
  intro hmem
  have hdigit := Nat.isDigit_of_mem_toDigits (by decide) (by decide) hmem
  revert hdigit
  decide

private theorem takeWhile_reverse_sharp (name digits : List Char) (h : '#' ∉ digits) :
    (name ++ '#' :: digits).reverse.takeWhile (fun c => decide (c ≠ '#')) = digits.reverse := by
  rw [List.reverse_append, List.reverse_cons, List.append_assoc, List.takeWhile_append_of_pos]
  · simp
  · intro c hc
    have hne : c ≠ '#' := fun heq => h (heq ▸ List.mem_reverse.mp hc)
    simpa using hne

theorem numbered_inj {first second : String} {m n : Nat}
    (h : first ++ " #" ++ toString m = second ++ " #" ++ toString n) : first = second ∧ m = n := by
  have hlist := congrArg String.toList h
  have hsplit : ∀ (name : String) (count : Nat), (name ++ " #" ++ toString count).toList =
      (name.toList ++ [' ']) ++ '#' :: count.repr.toList := by
    intro name count
    simp
  rw [hsplit, hsplit] at hlist
  have hdigits : m.repr.toList = n.repr.toList := by
    have htake := congrArg (fun text => text.reverse.takeWhile (fun c => decide (c ≠ '#'))) hlist
    simp only [takeWhile_reverse_sharp _ _ (sharp_not_mem_repr _)] at htake
    exact List.reverse_injective htake
  constructor
  · rw [hdigits] at hlist
    exact String.toList_injective (List.append_cancel_right (List.append_cancel_right hlist))
  · rw [Nat.toList_repr, Nat.toList_repr] at hdigits
    have hvalue := congrArg (fun digits => Nat.ofDigitChars 10 digits 0) hdigits
    simpa only [Nat.ofDigitChars_ten_toDigits] using hvalue

/-- The names drawn are pairwise distinct exactly when no node's qualified name is
    one that at least `count` nodes share, `count` being at least two, with
    ` #count` behind it. -/
theorem unique_names_nodup_iff (nodes : List Node) :
    (unique_names nodes).Nodup ↔
      ∀ node ∈ nodes, ∀ other ∈ nodes, ∀ count, 2 ≤ count →
        count ≤ nodes.countP (fun same => qualified_name nodes same = qualified_name nodes node) →
        qualified_name nodes other ≠ qualified_name nodes node ++ " #" ++ toString count := by
  have hcount : ∀ name, (nodes.map (qualified_name nodes)).count name =
      nodes.countP fun same => qualified_name nodes same = name := by
    intro name
    rw [List.count, List.countP_map]
    exact List.countP_congr fun same _ => by simp
  rw [unique_names, number_eq_map_tally, List.nodup_map_iff_inj_on (tally_nodup _ _)]
  constructor
  · intro hinj node hnode other hother count htwo hle heq
    have hfirst : (qualified_name nodes node, count) ∈
        tally (fun _ => 0) (nodes.map (qualified_name nodes)) := by
      rw [mem_tally, hcount]
      omega
    have hsecond : (qualified_name nodes other, 1) ∈
        tally (fun _ => 0) (nodes.map (qualified_name nodes)) := by
      have hpos := List.count_pos_iff.mpr (List.mem_map_of_mem (f := qualified_name nodes) hother)
      rw [mem_tally]
      omega
    have hsame := hinj _ hfirst _ hsecond (by
      rw [numbered, numbered, if_pos (by omega), if_neg (by omega), heq])
    have hone := (Prod.mk.inj hsame).2
    omega
  · rintro hapart ⟨first, m⟩ hfirst ⟨second, n⟩ hsecond heq
    obtain ⟨hm, hmle⟩ := mem_tally.mp hfirst
    obtain ⟨hn, hnle⟩ := mem_tally.mp hsecond
    have hnode : ∀ {name k}, 0 < k → k ≤ 0 + (nodes.map (qualified_name nodes)).count name →
        ∃ node ∈ nodes, qualified_name nodes node = name := by
      intro name k hpos hle
      have hmem := List.count_pos_iff.mp (show 0 < (nodes.map (qualified_name nodes)).count name by omega)
      exact List.mem_map.mp hmem
    obtain ⟨node, hmem, rfl⟩ := hnode hm hmle
    obtain ⟨other, hmem', rfl⟩ := hnode hn hnle
    rw [hcount] at hmle hnle
    simp only [numbered] at heq
    -- a numbered name against a plain one is what the condition rules out
    by_cases hmone : m > 1
    · by_cases hnone : n > 1
      · rw [if_pos hmone, if_pos hnone] at heq
        obtain ⟨hname, hnumber⟩ := numbered_inj heq
        rw [hname, hnumber]
      · rw [if_pos hmone, if_neg hnone] at heq
        exact absurd heq.symm (hapart node hmem other hmem' m hmone (by omega))
    · by_cases hnone : n > 1
      · rw [if_neg hmone, if_pos hnone] at heq
        exact absurd heq (hapart other hmem' node hmem n hnone (by omega))
      · rw [if_neg hmone, if_neg hnone] at heq
        have hcounts : m = n := by omega
        rw [heq, hcounts]

/-- Two tables of one label without a server, and one whose label looks numbered. -/
theorem unique_names_clash :
    let table (label : String) : Node := { kind := "table", label, connection := none, folder := none }
    ¬ (unique_names [table "SALES.ORDERS", table "SALES.ORDERS", table "SALES.ORDERS #2"]).Nodup := by
  decide +kernel

end zed.dbt_ui.xdi.layout
