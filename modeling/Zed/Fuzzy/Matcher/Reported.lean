import Zed.Fuzzy.Matcher.Scores

namespace zed.fuzzy

open zed.rope

section Following

variable {unicode : Unicode} {matcher : Matcher} {slices : Slices} {last_positions : List Nat} {matrices : Matrices}

theorem byteLen_take_succ {chars : List Char} {j : Nat} {char : Char} (h : chars[j]? = some char) :
    byteLen (chars.take (j + 1)) = byteLen (chars.take j) + char.utf8Size := by
  rw [List.take_add_one, h, Option.toList_some, byteLen_append, byteLen_cons, byteLen_nil, Nat.add_zero]

theorem byteLen_take_lt {chars : List Char} {j next : Nat} (hlt : j < next) (hnext : next ≤ chars.length) :
    byteLen (chars.take j) < byteLen (chars.take next) := by
  obtain ⟨middle, hmiddle⟩ : chars.take j <+: chars.take next := List.take_prefix_take_left hlt.le
  have hlength := congrArg List.length hmiddle
  rw [List.length_append, List.length_take, List.length_take] at hlength
  have hne : middle ≠ [] := by
    rintro rfl
    rw [List.length_nil] at hlength
    omega
  rw [← hmiddle, byteLen_append]
  exact Nat.lt_add_of_pos_right (byteLen_pos hne)

theorem skip_chars_eq (slices : Slices) {count char_ix : Nat} (h : char_ix + count ≤ slices.path_len) :
    skip_chars slices count char_ix (byteLen (slices.chars.take char_ix)) =
      some (byteLen (slices.chars.take (char_ix + count))) := by
  induction count generalizing char_ix with
  | zero => rfl
  | succ count ih =>
    obtain ⟨char, hchar⟩ : ∃ char, slices.chars[char_ix]? = some char :=
      ⟨_, List.getElem?_eq_getElem (by rw [slices.chars_length]; omega)⟩
    rw [skip_chars, slices.char_at_eq, hchar]
    simp only
    rw [← byteLen_take_succ hchar, ih (by omega), Nat.add_right_comm]
    rfl

/-- Characters that match the query from one of its characters on: they come in order, from a position on. -/
structure Spots (matcher : Matcher) (slices : Slices) (query_idx start : Nat) (spots : List Nat) : Prop where
  length : spots.length = matcher.query.length - query_idx
  increasing : spots.Pairwise (· < ·)
  start : ∀ j ∈ spots, start ≤ j ∧ j < slices.path_len
  chars : ∀ k j : Nat, spots[k]? = some j → ∃ query_char path_char,
    matcher.lowercase_query[query_idx + k]? = some query_char ∧ slices.lowercase[j]? = some path_char ∧
      Matches query_char path_char

theorem Spots.cons {query_idx start j : Nat} {spots : List Nat} (h : Spots matcher slices (query_idx + 1) (j + 1) spots)
    (hquery : query_idx < matcher.query.length) (hleads : Leads matcher slices matrices query_idx start j) :
    Spots matcher slices query_idx start (j :: spots) := by
  refine ⟨?_, List.pairwise_cons.mpr ⟨fun next hnext => (h.start next hnext).1, h.increasing⟩, ?_, ?_⟩
  · rw [List.length_cons, h.length]
    omega
  · intro next hnext
    rcases List.mem_cons.mp hnext with rfl | hin
    · exact ⟨hleads.le, hleads.lt⟩
    · exact ⟨hleads.le.trans ((Nat.le_succ j).trans (h.start next hin).1), (h.start next hin).2⟩
  · intro k next hnext
    cases k with
    | zero =>
      obtain rfl := Option.some.inj hnext
      exact hleads.chars
    | succ k =>
      obtain ⟨query_char, path_char, hquery_char, hchars⟩ := h.chars k next hnext
      exact ⟨query_char, path_char, by rwa [show query_idx + (k + 1) = query_idx + 1 + k by omega], hchars⟩

theorem follow_spec (hmemo : Memoized matcher slices matrices) {remaining query_idx start : Nat}
    {match_positions : List Nat} (hremaining : query_idx + remaining = matcher.query.length)
    (hpositions : match_positions.length = matcher.query.length) (hstart : start ≤ slices.path_len)
    (hscored : remaining = 0 ∨ (start < slices.path_len ∧ Scored slices matrices query_idx start)) :
    ∃ spots, Spots matcher slices query_idx start spots ∧
      follow slices matrices.best_position_matrix (List.range' query_idx remaining) start
          (byteLen (slices.chars.take start)) start match_positions =
        some (match_positions.take query_idx ++ spots.map fun j => byteLen (slices.chars.take j)) := by
  induction remaining generalizing query_idx start match_positions with
  | zero =>
    refine ⟨[], ⟨by rw [List.length_nil]; omega, List.Pairwise.nil, by simp, by simp⟩, ?_⟩
    rw [List.range'_zero, follow, List.map_nil, List.append_nil, List.take_of_length_le (by omega)]
  | succ remaining ih =>
    obtain ⟨hlt, score, hscore⟩ := hscored.resolve_left (Nat.succ_ne_zero remaining)
    have hquery : query_idx < matcher.query.length := by omega
    obtain ⟨-, j, hbest, hleads⟩ := hmemo.set query_idx start score hquery hlt hscore
    have hle := hleads.le
    have hj := hleads.lt
    obtain ⟨char, hchar⟩ : ∃ char, slices.chars[j]? = some char :=
      ⟨_, List.getElem?_eq_getElem (by rwa [slices.chars_length])⟩
    have hskip := @skip_chars_eq slices (j - start) start (by omega)
    rw [Nat.add_sub_of_le hle] at hskip
    obtain ⟨spots, hspots, hfollow⟩ := @ih (query_idx + 1) (j + 1)
      (match_positions.set query_idx (byteLen (slices.chars.take j))) (by omega) (by rw [List.length_set, hpositions])
      hj (hleads.next.imp (fun hend => by omega) id)
    refine ⟨j :: spots, hspots.cons hquery hleads, ?_⟩
    rw [List.range'_succ, follow, hbest]
    simp only [hskip, slices.char_at_eq, hchar, store, hpositions, if_pos hquery]
    rw [← byteLen_take_succ hchar, hfollow, List.map_cons, List.take_add_one,
      List.getElem?_set_self (by rw [hpositions]; exact hquery), Option.toList_some, List.take_set_of_le le_rfl,
      List.append_assoc, List.singleton_append]

theorem score_match_spec (h : Prepared unicode matcher slices last_positions) (hquery : matcher.query ≠ [])
    {match_positions : List Nat} (hpositions : match_positions.length = matcher.query.length) {length : Nat}
    (hlength : length = matcher.query.length * slices.path_len) :
    ∃ score spots, score_match unicode matcher slices last_positions match_positions
        ⟨List.replicate length none, List.replicate length 0⟩ =
          some (score, spots.map fun j => byteLen (slices.chars.take j)) ∧
      0 < score ∧ Spots matcher slices 0 0 spots := by
  have hquery_pos := List.length_pos_of_ne_nil hquery
  obtain ⟨score, matrices, hscore, hmemo, -, -, hset, hreaches⟩ := recursive_score_match_spec h le_rfl 0
    matcher.query.length _ (memoized_cleared matcher slices hlength)
  rw [Nat.sub_self] at hset hreaches
  have hlast := h.last_positions.length
  rw [h.query, List.length_map] at hlast
  have hpos : 0 < score :=
    hreaches (Or.inr ⟨last_positions[0], List.getElem?_eq_getElem (by omega), Nat.zero_le _⟩)
  have hscored := (hset hpos).resolve_left (by omega)
  have htotal : 0 < score * (matcher.query.length : ℚ) := mul_pos hpos (by exact_mod_cast hquery_pos)
  obtain ⟨spots, hspots, hfollow⟩ := @follow_spec matcher slices matrices hmemo matcher.query.length 0 0 match_positions
    (Nat.zero_add _) hpositions (Nat.zero_le _) (Or.inr hscored)
  refine ⟨_, spots, ?_, htotal, hspots⟩
  rw [score_match, hscore]
  simp only [if_neg (not_le.mpr htotal)]
  rw [List.take_zero, byteLen_nil, List.take_zero, List.nil_append] at hfollow
  rw [List.range_eq_range', hfollow]
  rfl

end Following

/-- Positions in a text are byte offsets, in order, of the characters of a query up to their case, or of a
    separator for an underscore. -/
structure PointsAt (unicode : Unicode) (query text : List Char) (positions : List Nat) : Prop where
  length : positions.length = query.length
  increasing : positions.Pairwise (· < ·)
  chars : ∀ i position : Nat, positions[i]? = some position → ∃ query_char before char after,
    query[i]? = some query_char ∧ text = before ++ char :: after ∧ position = byteLen before ∧
      (simple_lowercase unicode char = simple_lowercase unicode query_char ∨ (char = '/' ∧ query_char = '_'))

section Reported

variable {unicode : Unicode} {matcher : Matcher} {slices : Slices} {last_positions : List Nat}

theorem Spots.points_at {spots : List Nat} (hspots : Spots matcher slices 0 0 spots)
    (h : Prepared unicode matcher slices last_positions) :
    PointsAt unicode matcher.query slices.chars (spots.map fun j => byteLen (slices.chars.take j)) := by
  have hlowercase : slices.lowercase = slices.chars.map (simple_lowercase unicode) := by
    rw [Slices.lowercase, Slices.chars, List.map_append, h.prefix_chars, h.path]
  refine ⟨by rw [List.length_map, hspots.length, Nat.sub_zero], ?_, ?_⟩
  · rw [List.pairwise_map]
    refine hspots.increasing.imp_of_mem fun _ hnext hlt => ?_
    exact byteLen_take_lt hlt (by rw [slices.chars_length]; exact (hspots.start _ hnext).2.le)
  · intro i position hposition
    rw [List.getElem?_map, Option.map_eq_some_iff] at hposition
    obtain ⟨j, hj, rfl⟩ := hposition
    obtain ⟨query_lower, path_lower, hquery, hpath, hmatch⟩ := hspots.chars i j hj
    rw [Nat.zero_add, h.query, List.getElem?_map, Option.map_eq_some_iff] at hquery
    rw [hlowercase, List.getElem?_map, Option.map_eq_some_iff] at hpath
    obtain ⟨query_char, hquery_char, rfl⟩ := hquery
    obtain ⟨char, hchar, rfl⟩ := hpath
    obtain ⟨hlt, hget⟩ := List.getElem?_eq_some_iff.mp hchar
    refine ⟨query_char, slices.chars.take j, char, slices.chars.drop (j + 1), hquery_char, ?_, rfl, ?_⟩
    · rw [← hget, List.getElem_cons_drop, List.take_append_drop]
    · rcases hmatch with hsame | ⟨hslash, hunderscore⟩
      · exact Or.inl hsame.symm
      · have hchar_slash := unicode.lowercase_separator char
          (List.mem_cons.mpr (Or.inl hslash))
        have hquery_underscore := unicode.lowercase_separator query_char
          (List.mem_cons.mpr (Or.inr (List.mem_singleton.mpr hunderscore)))
        exact Or.inr ⟨hchar_slash.symm.trans hslash, hquery_underscore.symm.trans hunderscore⟩

end Reported

/-- A candidate that is reported. -/
structure Match (unicode : Unicode) where
  candidate : Candidate unicode
  score : ℚ
  positions : List Nat

section Candidates

variable {unicode : Unicode} {matcher : Matcher} {prefix_chars : List Char} {cancel_flag : Nat → Bool}

/-- The lowercased text of a candidate holds the query, prefix included. -/
def Holds (unicode : Unicode) (query prefix_chars : List Char) (candidate : Candidate unicode) : Prop :=
  (query.map (simple_lowercase unicode)).Sublist
    (prefix_chars.map (simple_lowercase unicode) ++ candidate.candidate_chars.map (simple_lowercase unicode))

theorem match_candidates_spec (hlowercase : matcher.lowercase_query = matcher.query.map (simple_lowercase unicode))
    (hmin : matcher.min_score = 0) (hquery : matcher.query ≠ []) (candidates : List (Candidate unicode)) (loads : Nat)
    {match_positions : List Nat} (hpositions : match_positions.length = matcher.query.length)
    (results : List (Match unicode)) :
    ∃ reported, match_candidates unicode matcher prefix_chars (prefix_chars.map (simple_lowercase unicode)) cancel_flag
        Match.mk candidates loads match_positions results = some (results ++ reported) ∧
      (∀ found ∈ reported, found.candidate ∈ candidates ∧ 0 < found.score ∧
        PointsAt unicode matcher.query (prefix_chars ++ found.candidate.candidate_chars) found.positions) ∧
      ((∀ load, cancel_flag load = false) → ∀ candidate ∈ candidates,
        candidate.has_chars matcher.query_char_bag = true → Holds unicode matcher.query prefix_chars candidate →
          ∃ found ∈ reported, found.candidate = candidate) := by
  induction candidates generalizing loads match_positions results with
  | nil => exact ⟨[], by rw [match_candidates, List.append_nil], by simp, by simp⟩
  | cons candidate candidates ih =>
    rw [match_candidates]
    by_cases hbag : candidate.has_chars matcher.query_char_bag = false
    · obtain ⟨reported, hreported, hpoints, hall⟩ := ih loads hpositions results
      rw [if_pos hbag]
      refine ⟨reported, hreported, fun found hfound => (hpoints found hfound).imp_left (List.mem_cons_of_mem _),
        fun hcancel other hother hchars => ?_⟩
      rcases List.mem_cons.mp hother with rfl | hin
      · rw [hbag] at hchars
        cases hchars
      · exact hall hcancel other hin hchars
    rw [if_neg hbag]
    by_cases hcancelled : cancel_flag loads = true
    · rw [if_pos hcancelled]
      refine ⟨[], by rw [List.append_nil], by simp, fun hcancel => ?_⟩
      rw [hcancel] at hcancelled
      cases hcancelled
    rw [if_neg hcancelled]
    simp only
    cases hlast : find_last_positions (prefix_chars.map (simple_lowercase unicode))
        (candidate.candidate_chars.map (simple_lowercase unicode)) matcher.lowercase_query with
    | none =>
      obtain ⟨reported, hreported, hpoints, hall⟩ := ih (loads + 1) hpositions results
      refine ⟨reported, hreported, fun found hfound => (hpoints found hfound).imp_left (List.mem_cons_of_mem _),
        fun hcancel other hother hchars hholds => ?_⟩
      rcases List.mem_cons.mp hother with rfl | hin
      · have hsub : ([] ++ matcher.lowercase_query).Sublist (prefix_chars.map (simple_lowercase unicode) ++
            other.candidate_chars.map (simple_lowercase unicode)) := by
          rw [List.nil_append, hlowercase]
          exact hholds
        obtain ⟨_, _, _, hfind, -⟩ := exists_last_positions hsub
        rw [hlast] at hfind
        cases hfind
      · exact hall hcancel other hin hchars hholds
    | some found =>
      obtain ⟨last_positions, left⟩ := found
      have hprepared : Prepared unicode matcher ⟨candidate.candidate_chars,
          candidate.candidate_chars.map (simple_lowercase unicode), prefix_chars,
          prefix_chars.map (simple_lowercase unicode)⟩ last_positions :=
        ⟨hlowercase, rfl, rfl, hmin, (find_last_positions_some hlast).2.1⟩
      obtain ⟨score, spots, hscore, hpos, hspots⟩ := score_match_spec hprepared hquery hpositions
        (show matcher.query.length * ((prefix_chars.map (simple_lowercase unicode)).length +
            (candidate.candidate_chars.map (simple_lowercase unicode)).length) = matcher.query.length * _ by
          rw [List.length_map, List.length_map]; rfl)
      have hpoints_at := hspots.points_at hprepared
      generalize (spots.map fun j => byteLen _) = positions at hscore hpoints_at
      simp only [hscore, if_pos hpos]
      obtain ⟨reported, hreported, hpoints, hall⟩ := ih (loads + 1) hpoints_at.length
        (results ++ [⟨candidate, score, positions⟩])
      refine ⟨⟨candidate, score, positions⟩ :: reported, ?_, fun other hother => ?_, fun hcancel other hother hchars hholds => ?_⟩
      · rw [hreported, List.append_assoc, List.singleton_append]
      · rcases List.mem_cons.mp hother with rfl | hin
        · exact ⟨List.mem_cons_self, hpos, hpoints_at⟩
        · exact (hpoints other hin).imp_left (List.mem_cons_of_mem _)
      · rcases List.mem_cons.mp hother with rfl | hin
        · exact ⟨_, List.mem_cons_self, rfl⟩
        · obtain ⟨match_, hmatch, hsame⟩ := hall hcancel other hin hchars hholds
          exact ⟨match_, List.mem_cons_of_mem _ hmatch, hsame⟩

theorem has_chars_of_sublist {query : List Char} {candidate : Candidate unicode}
    (h : (query.map (simple_lowercase unicode)).Sublist (candidate.candidate_chars.map (simple_lowercase unicode))) :
    candidate.has_chars (CharBag.from_chars unicode (query.map (simple_lowercase unicode))) = true := by
  obtain ⟨root, hroot⟩ := candidate.holds_chars
  rw [Candidate.has_chars, hroot, ← CharBag.extend_lowercase]
  exact CharBag.extend_superset h (CharBag.is_superset_default root)

/-- What a matcher of a query reports points at what was typed, and no index is out of range. Every candidate
    that holds the query is reported, unless the search is cancelled. -/
theorem matches_point_at_query (unicode : Unicode) {query : List Char} (hquery : query ≠ [])
    (smart_case penalize_length : Bool) (prefix_chars : List Char) (cancel_flag : Nat → Bool)
    (candidates : List (Candidate unicode)) :
    ∃ reported, match_candidates unicode
        (Matcher.new query (query.map (simple_lowercase unicode))
          (CharBag.from_chars unicode (query.map (simple_lowercase unicode))) smart_case penalize_length)
        prefix_chars (prefix_chars.map (simple_lowercase unicode)) cancel_flag Match.mk candidates 0
        (List.replicate query.length 0) [] = some reported ∧
      (∀ found ∈ reported, found.candidate ∈ candidates ∧
        PointsAt unicode query (prefix_chars ++ found.candidate.candidate_chars) found.positions) ∧
      ((∀ load, cancel_flag load = false) → ∀ candidate ∈ candidates,
        (query.map (simple_lowercase unicode)).Sublist (candidate.candidate_chars.map (simple_lowercase unicode)) →
          candidate.has_chars (CharBag.from_chars unicode (query.map (simple_lowercase unicode))) = true ∧
            ∃ found ∈ reported, found.candidate = candidate) := by
  obtain ⟨reported, hreported, hpoints, hall⟩ := @match_candidates_spec unicode
    (Matcher.new query (query.map (simple_lowercase unicode))
      (CharBag.from_chars unicode (query.map (simple_lowercase unicode))) smart_case penalize_length)
    prefix_chars cancel_flag rfl rfl hquery candidates 0 (List.replicate query.length 0) List.length_replicate []
  rw [List.nil_append] at hreported
  refine ⟨reported, hreported, fun found hfound => (hpoints found hfound).imp_right And.right,
    fun hcancel candidate hcandidate hsub => ?_⟩
  have hchars := has_chars_of_sublist hsub
  exact ⟨hchars, hall hcancel candidate hcandidate hchars (hsub.trans (List.sublist_append_right _ _))⟩

theorem toLower_cases (c : Char) : c.toLower = c ∨ (97 ≤ c.toLower.val.toNat ∧ c.toLower.val.toNat ≤ 122) := by
  unfold Char.toLower
  split
  · rename_i hupper
    right
    have hlow := UInt32.le_iff_toNat_le.mp hupper.1
    have hhigh := UInt32.le_iff_toNat_le.mp hupper.2
    have hvalue : (c.val + ('a'.val - 'A'.val)).toNat = c.val.toNat + 32 := by
      rw [UInt32.toNat_add]
      change (c.val.toNat + 32) % 2 ^ 32 = _
      change c.val.toNat ≤ 90 at hhigh
      omega
    change 65 ≤ c.val.toNat at hlow
    change c.val.toNat ≤ 90 at hhigh
    change 97 ≤ (c.val + ('a'.val - 'A'.val)).toNat ∧ (c.val + ('a'.val - 'A'.val)).toNat ≤ 122
    omega
  · exact Or.inl rfl

theorem toLower_of_ge {c : Char} (h : 97 ≤ c.val.toNat) : c.toLower = c := by
  unfold Char.toLower
  rw [dif_neg]
  intro hupper
  have hhigh : c.val.toNat ≤ 90 := UInt32.le_iff_toNat_le.mp hupper.2
  omega

def ascii : Unicode where
  to_lowercase c := [c.toLower]
  is_numeric := Char.isDigit
  is_lowercase := Char.isLower
  is_uppercase := Char.isUpper
  lowercase_again c := by
    change c.toLower.toLower = c.toLower
    rcases toLower_cases c with hsame | ⟨hlow, -⟩
    · rw [hsame, hsame]
    · exact toLower_of_ge hlow
  lowercase_separator c h := by
    change c.toLower ∈ ['/', '_'] at h
    change c.toLower = c
    rcases toLower_cases c with hsame | ⟨hlow, -⟩
    · exact hsame
    · rcases List.mem_pair.mp h with hslash | hunderscore
      · rw [hslash] at hlow
        exact absurd hlow (by decide)
      · rw [hunderscore] at hlow
        exact absurd hlow (by decide)

theorem matches_point_at_query_sample :
    ∃ reported, match_candidates ascii
        (Matcher.new ['A'] (['A'].map (simple_lowercase ascii))
          (CharBag.from_chars ascii (['A'].map (simple_lowercase ascii))) false true)
        ['x', '/'] (['x', '/'].map (simple_lowercase ascii)) (fun _ => false) Match.mk
        [⟨['b', 'a'], CharBag.from_chars ascii ['b', 'a'], CharBag.default, rfl⟩] 0 (List.replicate 1 0) [] =
          some reported ∧
      (∀ found ∈ reported,
        found.candidate ∈ [(⟨['b', 'a'], CharBag.from_chars ascii ['b', 'a'], CharBag.default, rfl⟩ : Candidate ascii)] ∧
        PointsAt ascii ['A'] (['x', '/'] ++ found.candidate.candidate_chars) found.positions) ∧
      ((∀ load : Nat, (fun _ : Nat => false) load = false) → ∀ candidate ∈
          [(⟨['b', 'a'], CharBag.from_chars ascii ['b', 'a'], CharBag.default, rfl⟩ : Candidate ascii)],
        (['A'].map (simple_lowercase ascii)).Sublist (candidate.candidate_chars.map (simple_lowercase ascii)) →
          candidate.has_chars (CharBag.from_chars ascii (['A'].map (simple_lowercase ascii))) = true ∧
            ∃ found ∈ reported, found.candidate = candidate) :=
  matches_point_at_query ascii (List.cons_ne_nil 'A' []) false true ['x', '/'] (fun _ => false)
    [⟨['b', 'a'], CharBag.from_chars ascii ['b', 'a'], CharBag.default, rfl⟩]

/-- An empty query is a subsequence of every candidate, but no candidate has a score above zero for it. -/
theorem empty_query_unreported :
    ∃ candidate : Candidate ascii, ([].map (simple_lowercase ascii)).Sublist
        (candidate.candidate_chars.map (simple_lowercase ascii)) ∧
      match_candidates ascii (Matcher.new [] [] (CharBag.from_chars ascii []) false true) [] [] (fun _ => false) Match.mk
        [candidate] 0 [] [] = some [] := by
  refine ⟨⟨['a'], CharBag.from_chars ascii ['a'], CharBag.default, rfl⟩, List.nil_sublist _, ?_⟩
  have hbag : CharBag.is_superset (CharBag.from_chars ascii ['a']) (CharBag.from_chars ascii []) = true :=
    CharBag.is_superset_default _
  simp [match_candidates, Matcher.new, Candidate.has_chars, hbag, find_last_positions, score_match,
    recursive_score_match]

end Candidates

end zed.fuzzy
