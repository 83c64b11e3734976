import Zed.Fuzzy.Matcher.Positions

namespace zed.fuzzy

namespace Slices

variable {slices : Slices}

def chars (slices : Slices) : List Char := slices.prefix_chars ++ slices.path

def lowercase (slices : Slices) : List Char := slices.lowercase_prefix_chars ++ slices.path_lowercased

theorem chars_length (slices : Slices) : slices.chars.length = slices.path_len := List.length_append

theorem char_at_eq (slices : Slices) (j : Nat) : slices.char_at j = slices.chars[j]? := by
  unfold char_at chars
  rcases Nat.lt_or_ge j slices.prefix_chars.length with hlt | hge
  · rw [List.getElem?_append_left hlt, List.getElem?_eq_getElem hlt]
  · rw [List.getElem?_append_right hge, List.getElem?_eq_none hge]

theorem path_char_eq (h : slices.lowercase_prefix_chars.length = slices.prefix_chars.length) (j : Nat) :
    slices.path_char j = some slices.lowercase[j]? := by
  unfold path_char lowercase
  rcases Nat.lt_or_ge j slices.prefix_chars.length with hlt | hge
  · rw [if_pos hlt, List.getElem?_append_left (by omega), List.getElem?_eq_getElem (by omega)]
    rfl
  · rw [if_neg (by omega), List.getElem?_append_right (by omega), h]

end Slices

/-- A character of the query matches one of the path: a separator stands for an underscore too. -/
def Matches (query_char path_char : Char) : Prop := query_char = path_char ∨ (path_char = '/' ∧ query_char = '_')

/-- What a match starts from: lowercased texts of the same lengths, and last positions of the query. -/
structure Prepared (unicode : Unicode) (matcher : Matcher) (slices : Slices) (last_positions : List Nat) : Prop where
  query : matcher.lowercase_query = matcher.query.map (simple_lowercase unicode)
  prefix_chars : slices.lowercase_prefix_chars = slices.prefix_chars.map (simple_lowercase unicode)
  path : slices.path_lowercased = slices.path.map (simple_lowercase unicode)
  min_score : matcher.min_score = 0
  last_positions : LastPositions slices.lowercase matcher.lowercase_query last_positions

section Multiplier

variable {unicode : Unicode} {matcher : Matcher} {slices : Slices}

theorem char_score_pos (unicode : Unicode) (query_idx path_idx j : Nat) (last curr : Char) :
    0 < char_score unicode query_idx path_idx j last curr := by
  unfold char_score
  split_ifs
  · norm_num
  · norm_num
  · norm_num
  · norm_num [BASE_DISTANCE_PENALTY]
  · exact lt_max_of_lt_left (by norm_num [MIN_DISTANCE_PENALTY])

theorem multiplier_pos {query_idx path_idx last_slash j : Nat} (hquery : query_idx < matcher.query.length)
    (hj : j < slices.path_len) (hslash : last_slash < slices.path_len) :
    ∃ value, multiplier unicode matcher slices query_idx path_idx last_slash j = some value ∧ 0 < value := by
  have hat : ∀ {i : Nat}, i < slices.path_len → ∃ char, slices.char_at i = some char := fun {i} hi => by
    rw [slices.char_at_eq, List.getElem?_eq_getElem (by rwa [slices.chars_length])]
    exact ⟨_, rfl⟩
  obtain ⟨curr, hcurr⟩ := hat hj
  have hscore : ∃ score, (if j > path_idx then
      (slices.char_at (j - 1)).map fun last => char_score unicode query_idx path_idx j last curr
      else some (1 : ℚ)) = some score ∧ 0 < score := by
    by_cases hlater : j > path_idx
    · obtain ⟨last, hlast⟩ := hat (show j - 1 < slices.path_len by omega)
      rw [if_pos hlater, hlast]
      exact ⟨_, rfl, char_score_pos unicode query_idx path_idx j last curr⟩
    · rw [if_neg hlater]
      exact ⟨1, rfl, one_pos⟩
  obtain ⟨score, hscore, hpos⟩ := hscore
  have hcase : ∀ score : ℚ, 0 < score →
      0 < (if (matcher.smart_case = true ∨ curr = '/') ∧ matcher.query[query_idx] ≠ curr then score * (1 / 1000) else score) := by
    intro score hpos
    split
    · exact mul_pos hpos (by norm_num)
    · exact hpos
  unfold multiplier
  rw [hcurr, List.getElem?_eq_getElem hquery]
  simp only [hscore, Option.map_some]
  refine ⟨_, rfl, ?_⟩
  split
  · refine div_pos (hcase score hpos) ?_
    exact_mod_cast Nat.sub_pos_of_lt hslash
  · exact hcase score hpos

end Multiplier

section Memo

variable (matcher : Matcher) (slices : Slices) (last_positions : List Nat)

/-- The cell of the score matrix is set. -/
def Scored (matrices : Matrices) (query_idx path_idx : Nat) : Prop :=
  ∃ score, matrices.score_matrix[query_idx * slices.path_len + path_idx]? = some (some score)

/-- A position matches a character of the query, and the cell behind it is set for the next one. -/
structure Leads (matrices : Matrices) (query_idx path_idx j : Nat) : Prop where
  le : path_idx ≤ j
  lt : j < slices.path_len
  chars : ∃ query_char path_char, matcher.lowercase_query[query_idx]? = some query_char ∧
    slices.lowercase[j]? = some path_char ∧ Matches query_char path_char
  next : query_idx + 1 = matcher.query.length ∨ (j + 1 < slices.path_len ∧ Scored slices matrices (query_idx + 1) (j + 1))

/-- Every score in the matrix is one of a match, which the best positions lead through. -/
structure Memoized (matrices : Matrices) : Prop where
  scores : matrices.score_matrix.length = matcher.query.length * slices.path_len
  positions : matrices.best_position_matrix.length = matcher.query.length * slices.path_len
  unset : ∀ ix : Nat, matrices.score_matrix[ix]? = some none → matrices.best_position_matrix[ix]? = some 0
  set : ∀ query_idx path_idx score, query_idx < matcher.query.length → path_idx < slices.path_len →
    matrices.score_matrix[query_idx * slices.path_len + path_idx]? = some (some score) → 0 < score ∧
      ∃ j, matrices.best_position_matrix[query_idx * slices.path_len + path_idx]? = some j ∧
        Leads matcher slices matrices query_idx path_idx j

/-- From one state of the matrices to a later one: what is set stays set, and the rows above do not change. -/
structure Grows (above : Nat) (matrices matrices' : Matrices) : Prop where
  scored : ∀ query_idx path_idx, Scored slices matrices query_idx path_idx → Scored slices matrices' query_idx path_idx
  above : ∀ ix : Nat, ix < above * slices.path_len → matrices'.score_matrix[ix]? = matrices.score_matrix[ix]?

variable {matcher slices last_positions} {matrices matrices' : Matrices}

theorem Grows.refl (above : Nat) (matrices : Matrices) : Grows slices above matrices matrices :=
  ⟨fun _ _ h => h, fun _ _ => rfl⟩

theorem Grows.trans {above : Nat} {later : Matrices} (h : Grows slices above matrices matrices')
    (hlater : Grows slices above matrices' later) : Grows slices above matrices later :=
  ⟨fun _ _ hscored => hlater.scored _ _ (h.scored _ _ hscored),
    fun ix hix => (hlater.above ix hix).trans (h.above ix hix)⟩

theorem Grows.mono {above row : Nat} (h : Grows slices above matrices matrices') (hrow : row ≤ above) :
    Grows slices row matrices matrices' :=
  ⟨h.scored, fun ix hix => h.above ix (hix.trans_le (Nat.mul_le_mul_right _ hrow))⟩

theorem Leads.grows {above query_idx path_idx j : Nat} (h : Leads matcher slices matrices query_idx path_idx j)
    (hgrows : Grows slices above matrices matrices') : Leads matcher slices matrices' query_idx path_idx j :=
  ⟨h.le, h.lt, h.chars, h.next.imp_right fun hnext => ⟨hnext.1, hgrows.scored _ _ hnext.2⟩⟩

theorem cell_inj {length query_idx path_idx query_idx' path_idx' : Nat} (hpath : path_idx < length)
    (hpath' : path_idx' < length) (h : query_idx * length + path_idx = query_idx' * length + path_idx') :
    query_idx = query_idx' ∧ path_idx = path_idx' := by
  have hquery : query_idx = query_idx' := by
    have hdiv := congrArg (· / length) h
    simpa [Nat.mul_comm _ length, Nat.mul_add_div (by omega : 0 < length), Nat.div_eq_of_lt hpath,
      Nat.div_eq_of_lt hpath'] using hdiv
  subst hquery
  exact ⟨rfl, Nat.add_left_cancel h⟩

theorem cell_lt {length query_idx path_idx rows : Nat} (hquery : query_idx < rows) (hpath : path_idx < length) :
    query_idx * length + path_idx < rows * length := by
  have hrow := Nat.mul_le_mul_right length (Nat.succ_le_of_lt hquery)
  rw [Nat.succ_mul] at hrow
  omega

theorem Memoized.write {query_idx path_idx j : Nat} {score : ℚ} (h : Memoized matcher slices matrices)
    (hquery : query_idx < matcher.query.length) (hpath : path_idx < slices.path_len)
    (hunset : matrices.score_matrix[query_idx * slices.path_len + path_idx]? = some none) (hscore : 0 < score)
    (hleads : Leads matcher slices matrices query_idx path_idx j) :
    ∃ best_position_matrix score_matrix,
      (if j ≠ 0 then store matrices.best_position_matrix (query_idx * slices.path_len + path_idx) j
        else some matrices.best_position_matrix) = some best_position_matrix ∧
      store matrices.score_matrix (query_idx * slices.path_len + path_idx) (some score) = some score_matrix ∧
      Memoized matcher slices ⟨score_matrix, best_position_matrix⟩ ∧
      Grows slices query_idx matrices ⟨score_matrix, best_position_matrix⟩ ∧
      Scored slices ⟨score_matrix, best_position_matrix⟩ query_idx path_idx := by
  have hcell := cell_lt hquery hpath
  have hscores : query_idx * slices.path_len + path_idx < matrices.score_matrix.length := by rwa [h.scores]
  have hbest : ∃ best, (if j ≠ 0 then store matrices.best_position_matrix (query_idx * slices.path_len + path_idx) j
      else some matrices.best_position_matrix) = some best ∧ best.length = matrices.best_position_matrix.length ∧
      best[query_idx * slices.path_len + path_idx]? = some j ∧
      ∀ ix, ix ≠ query_idx * slices.path_len + path_idx → best[ix]? = matrices.best_position_matrix[ix]? := by
    by_cases hj : j = 0
    · subst hj
      exact ⟨_, if_neg (by simp), rfl, h.unset _ hunset, fun _ _ => rfl⟩
    · have hlt : query_idx * slices.path_len + path_idx < matrices.best_position_matrix.length := by rwa [h.positions]
      refine ⟨matrices.best_position_matrix.set (query_idx * slices.path_len + path_idx) j, ?_, List.length_set,
        List.getElem?_set_self hlt, fun ix hix => List.getElem?_set_ne (Ne.symm hix)⟩
      rw [if_pos hj, store, if_pos hlt]
  obtain ⟨best, hstore, hlength, hself, hother⟩ := hbest
  have hcells : ∀ ix, ix ≠ query_idx * slices.path_len + path_idx →
      (matrices.score_matrix.set (query_idx * slices.path_len + path_idx) (some score))[ix]? =
        matrices.score_matrix[ix]? := fun ix hix => List.getElem?_set_ne (Ne.symm hix)
  have hwritten : (matrices.score_matrix.set (query_idx * slices.path_len + path_idx) (some score))[
      query_idx * slices.path_len + path_idx]? = some (some score) := List.getElem?_set_self hscores
  have hgrows : Grows slices query_idx matrices
      ⟨matrices.score_matrix.set (query_idx * slices.path_len + path_idx) (some score), best⟩ := by
    refine ⟨fun row column ⟨value, hvalue⟩ => ?_, fun ix hix => hcells ix (by omega)⟩
    by_cases hsame : row * slices.path_len + column = query_idx * slices.path_len + path_idx
    · exact ⟨score, hsame ▸ hwritten⟩
    · exact ⟨value, (hcells _ hsame).trans hvalue⟩
  refine ⟨best, _, hstore, by rw [store, if_pos hscores], ?_, hgrows, ⟨score, hwritten⟩⟩
  refine ⟨by rw [List.length_set, h.scores], hlength.trans h.positions, fun ix hix => ?_,
    fun row column value hrow hcolumn hvalue => ?_⟩
  · have hne : ix ≠ query_idx * slices.path_len + path_idx := by
      rintro rfl
      rw [hwritten] at hix
      cases hix
    rw [hother ix hne]
    exact h.unset ix ((hcells ix hne).symm.trans hix)
  · by_cases hsame : row * slices.path_len + column = query_idx * slices.path_len + path_idx
    · obtain ⟨rfl, rfl⟩ := cell_inj hcolumn hpath hsame
      have heq : some (some score) = some (some value) := hwritten.symm.trans hvalue
      obtain rfl := Option.some.inj (Option.some.inj heq)
      exact ⟨hscore, j, hself, hleads.grows hgrows⟩
    · obtain ⟨hpos, position, hposition, hposition_leads⟩ :=
        h.set row column value hrow hcolumn ((hcells _ hsame).symm.trans hvalue)
      exact ⟨hpos, position, (hother _ hsame).trans hposition, hposition_leads.grows hgrows⟩

end Memo

section Recursion

variable {unicode : Unicode} {matcher : Matcher} {slices : Slices} {last_positions : List Nat} {matrices : Matrices}

/-- What scores the query from a character on: a match is found as long as the last position is not behind. -/
def ScoresFrom (matcher : Matcher) (slices : Slices) (last_positions : List Nat) (query_idx : Nat)
    (rest_score : Nat → ℚ → Matrices → Option (ℚ × Matrices)) : Prop :=
  ∀ path_idx cur_score matrices, Memoized matcher slices matrices → ∃ score matrices',
    rest_score path_idx cur_score matrices = some (score, matrices') ∧ Memoized matcher slices matrices' ∧
      Grows slices query_idx matrices matrices' ∧ 0 ≤ score ∧
      (0 < score → query_idx = matcher.query.length ∨
        (path_idx < slices.path_len ∧ Scored slices matrices' query_idx path_idx)) ∧
      ((query_idx = matcher.query.length ∨ ∃ limit, last_positions[query_idx]? = some limit ∧ path_idx ≤ limit) →
        0 < score)

/-- The best position so far is one of a match. -/
structure Found (matcher : Matcher) (slices : Slices) (query_idx path_idx : Nat) (matrices : Matrices) (best : Best) :
    Prop where
  nonneg : 0 ≤ best.score
  leads : 0 < best.score → Leads matcher slices matrices query_idx path_idx best.best_position
  last_slash : best.last_slash < slices.path_len

theorem Found.grows {query_idx path_idx above : Nat} {matrices' : Matrices} {best : Best}
    (h : Found matcher slices query_idx path_idx matrices best) (hgrows : Grows slices above matrices matrices') :
    Found matcher slices query_idx path_idx matrices' best :=
  ⟨h.nonneg, fun hpos => (h.leads hpos).grows hgrows, h.last_slash⟩

theorem score_positions_spec (h : Prepared unicode matcher slices last_positions)
    {rest_score : Nat → ℚ → Matrices → Option (ℚ × Matrices)} {query_idx path_idx limit : Nat} {query_char : Char}
    {cur_score : ℚ} (hrest : ScoresFrom matcher slices last_positions (query_idx + 1) rest_score)
    (hquery : query_idx < matcher.query.length) (hlimit : last_positions[query_idx]? = some limit)
    (hchar : matcher.lowercase_query[query_idx]? = some query_char) (js : List Nat) (best : Best)
    (hjs : ∀ j ∈ js, path_idx ≤ j ∧ j ≤ limit) (hmemo : Memoized matcher slices matrices)
    (hfound : Found matcher slices query_idx path_idx matrices best) :
    ∃ best' matrices', score_positions unicode matcher slices rest_score query_idx path_idx query_char cur_score js best
        matrices = some (best', matrices') ∧ Memoized matcher slices matrices' ∧
      Grows slices (query_idx + 1) matrices matrices' ∧ Found matcher slices query_idx path_idx matrices' best' ∧
      best.score ≤ best'.score ∧ (limit ∈ js → 0 < best'.score) := by
  have hlengths : slices.lowercase_prefix_chars.length = slices.prefix_chars.length := by
    rw [h.prefix_chars, List.length_map]
  have hlowercase : slices.lowercase.length = slices.path_len := by
    rw [Slices.lowercase, List.length_append, hlengths, h.path, List.length_map]
    rfl
  obtain ⟨last_char, hlast_query, hlast_char⟩ := h.last_positions.found query_idx limit hlimit
  have hlimit_lt : limit < slices.path_len := hlowercase ▸ (List.getElem?_eq_some_iff.mp hlast_char).1
  induction js generalizing best matrices with
  | nil => exact ⟨best, matrices, rfl, hmemo, Grows.refl _ _, hfound, le_rfl, fun hmem => absurd hmem List.not_mem_nil⟩
  | cons j js ih =>
    obtain ⟨hle, hlast⟩ := hjs j List.mem_cons_self
    have hjs' : ∀ j ∈ js, path_idx ≤ j ∧ j ≤ limit := fun j hj => hjs j (List.mem_cons_of_mem _ hj)
    have hj : j < slices.path_len := by omega
    obtain ⟨path_char, hpath_char⟩ : ∃ path_char, slices.lowercase[j]? = some path_char :=
      ⟨_, List.getElem?_eq_getElem (by rwa [hlowercase])⟩
    rw [score_positions, Slices.path_char_eq hlengths, hpath_char]
    simp only
    generalize hslash : (if query_idx = 0 ∧ path_char = '/' then j else best.last_slash) = last_slash
    have hslash_lt : last_slash < slices.path_len := by
      rw [← hslash]
      split
      · exact hj
      · exact hfound.last_slash
    have hkept : Found matcher slices query_idx path_idx matrices { best with last_slash := last_slash } :=
      ⟨hfound.nonneg, hfound.leads, hslash_lt⟩
    by_cases hmatch : query_char = path_char ∨ (path_char = '/' ∧ query_char = '_')
    · obtain ⟨value, hvalue, hpos⟩ := @multiplier_pos unicode matcher slices query_idx path_idx last_slash j hquery hj
        hslash_lt
      rw [if_pos hmatch, hvalue]
      have hmin : ¬ matcher.min_score > 0 := by rw [h.min_score]; exact lt_irrefl 0
      simp only [hmin, false_and, if_false]
      obtain ⟨rest, matrices', hscore, hmemo', hgrows, hnonneg, hset, hreaches⟩ := hrest (j + 1) 1 matrices hmemo
      rw [hscore]
      simp only
      have hleads : 0 < rest → Leads matcher slices matrices' query_idx path_idx j := fun hrest_pos =>
        ⟨hle, hj, ⟨query_char, path_char, hchar, hpath_char, hmatch⟩, hset hrest_pos⟩
      have hkept' := hkept.grows hgrows
      by_cases hbetter : rest * value > best.score
      · have hnew : 0 < rest * value := hfound.nonneg.trans_lt hbetter
        have hrest_pos : 0 < rest := by
          rcases hnonneg.lt_or_eq with hlt | heq
          · exact hlt
          · rw [← heq, zero_mul] at hnew
            exact absurd hnew (lt_irrefl 0)
        have hfound' : Found matcher slices query_idx path_idx matrices' ⟨rest * value, j, last_slash⟩ :=
          ⟨hnew.le, fun _ => hleads hrest_pos, hslash_lt⟩
        rw [if_pos hbetter]
        by_cases hone : rest * value = 1
        · rw [if_pos hone]
          exact ⟨_, matrices', rfl, hmemo', hgrows, hfound', hbetter.le, fun _ => hnew⟩
        · rw [if_neg hone]
          obtain ⟨best', later, hloop, hmemo'', hgrows', hfound'', hge, -⟩ :=
            ih ⟨rest * value, j, last_slash⟩ hjs' hmemo' hfound'
          exact ⟨best', later, hloop, hmemo'', hgrows.trans hgrows', hfound'', hbetter.le.trans hge,
            fun _ => hnew.trans_le hge⟩
      · rw [if_neg hbetter]
        obtain ⟨best', later, hloop, hmemo'', hgrows', hfound'', hge, hall⟩ := ih _ hjs' hmemo' hkept'
        refine ⟨best', later, hloop, hmemo'', hgrows.trans hgrows', hfound'', hge, fun hmem => ?_⟩
        rcases List.mem_cons.mp hmem with rfl | hin
        · -- the last position of the next character is still ahead
          have hrest_pos : 0 < rest := hreaches (by
            rcases Nat.lt_or_ge (query_idx + 1) matcher.query.length with hmore | hend
            · have hlength := h.last_positions.length
              rw [h.query, List.length_map] at hlength
              refine Or.inr ⟨last_positions[query_idx + 1], List.getElem?_eq_getElem (by omega), ?_⟩
              have hincreasing := List.pairwise_iff_getElem.mp h.last_positions.increasing query_idx (query_idx + 1)
                (by omega) (by omega) (by omega)
              rw [List.getElem?_eq_getElem (by omega)] at hlimit
              rw [Option.some.inj hlimit] at hincreasing
              exact hincreasing
            · exact Or.inl (by omega))
          exact ((mul_pos hrest_pos hpos).trans_le (not_lt.mp hbetter)).trans_le hge
        · exact hall hin
    · rw [if_neg hmatch]
      obtain ⟨best', later, hloop, hmemo', hgrows, hfound', hge, hall⟩ := ih _ hjs' hmemo hkept
      refine ⟨best', later, hloop, hmemo', hgrows, hfound', hge, fun hmem => ?_⟩
      rcases List.mem_cons.mp hmem with rfl | hin
      · -- the character is at its last position
        refine absurd (Or.inl ?_) hmatch
        rw [hchar] at hlast_query
        rw [show slices.lowercase[limit]? = some last_char from hlast_char] at hpath_char
        exact (Option.some.inj hlast_query).trans (Option.some.inj hpath_char)
      · exact hall hin

theorem recursive_score_match_spec (h : Prepared unicode matcher slices last_positions) {remaining : Nat}
    (hremaining : remaining ≤ matcher.query.length) :
    ScoresFrom matcher slices last_positions (matcher.query.length - remaining)
      (recursive_score_match unicode matcher slices last_positions remaining) := by
  have hlengths : slices.lowercase_prefix_chars.length = slices.prefix_chars.length := by
    rw [h.prefix_chars, List.length_map]
  have hpath : slices.path_lowercased.length = slices.path.length := by rw [h.path, List.length_map]
  have hlowercase : slices.lowercase.length = slices.path_len := by
    rw [Slices.lowercase, List.length_append, hlengths, hpath]
    rfl
  have hquery_length : matcher.lowercase_query.length = matcher.query.length := by rw [h.query, List.length_map]
  induction remaining with
  | zero =>
    intro path_idx cur_score matrices hmemo
    exact ⟨1, matrices, rfl, hmemo, Grows.refl _ _, zero_le_one, fun _ => Or.inl rfl, fun _ => one_pos⟩
  | succ remaining ih =>
    intro path_idx cur_score matrices hmemo
    have hrest := ih (by omega)
    have hnext : matcher.query.length - remaining = matcher.query.length - (remaining + 1) + 1 := by omega
    rw [hnext] at hrest
    rw [recursive_score_match]
    generalize hquery_idx : matcher.query.length - (remaining + 1) = query_idx at hrest ⊢
    have hquery : query_idx < matcher.query.length := by omega
    have hlast_length := h.last_positions.length
    obtain ⟨limit, hlimit⟩ : ∃ limit, last_positions[query_idx]? = some limit :=
      ⟨_, List.getElem?_eq_getElem (by omega)⟩
    obtain ⟨_, -, hlast_char⟩ := h.last_positions.found query_idx limit hlimit
    have hlimit_lt : limit < slices.path_len := hlowercase ▸ (List.getElem?_eq_some_iff.mp hlast_char).1
    have hpath_len : slices.path_len = slices.prefix_chars.length + slices.path.length := rfl
    have hsafe : min limit (slices.prefix_chars.length + slices.path_lowercased.length - 1) = limit := by omega
    simp only [hlimit, hsafe]
    by_cases hbehind : path_idx > limit
    · rw [if_pos hbehind]
      refine ⟨0, matrices, rfl, hmemo, Grows.refl _ _, le_rfl, fun hpos => absurd hpos (lt_irrefl 0), ?_⟩
      rintro (hend | ⟨limit', hlimit', hle⟩)
      · omega
      · obtain rfl := Option.some.inj hlimit'
        omega
    · rw [if_neg hbehind]
      have hpath_idx : path_idx < slices.path_len := by omega
      have hcell : query_idx * slices.path_len + path_idx < matrices.score_matrix.length := by
        rw [hmemo.scores]
        exact cell_lt hquery hpath_idx
      cases hmemoized : matrices.score_matrix[query_idx * slices.path_len + path_idx]? with
      | none => exact absurd hmemoized (by rw [List.getElem?_eq_getElem hcell]; exact Option.some_ne_none _)
      | some cell =>
        cases cell with
        | some memoized =>
          have hpos := (hmemo.set query_idx path_idx memoized hquery hpath_idx hmemoized).1
          exact ⟨memoized, matrices, rfl, hmemo, Grows.refl _ _, hpos.le,
            fun _ => Or.inr ⟨hpath_idx, memoized, hmemoized⟩, fun _ => hpos⟩
        | none =>
          have hchar : matcher.lowercase_query[query_idx]? = some matcher.lowercase_query[query_idx] :=
            List.getElem?_eq_getElem (by omega)
          obtain ⟨best, matrices', hloop, hmemo', hgrows, hfound, -, hall⟩ :=
            @score_positions_spec unicode matcher slices last_positions matrices h _ query_idx path_idx limit _ cur_score
              hrest hquery hlimit hchar (List.range' path_idx (limit + 1 - path_idx)) ⟨0, 0, 0⟩
              (fun j hj => by rw [List.mem_range'_1] at hj; omega) hmemo
              ⟨le_rfl, fun hpos => absurd hpos (lt_irrefl 0), Nat.zero_lt_of_lt hpath_idx⟩
          have hpos : 0 < best.score := hall (by rw [List.mem_range'_1]; omega)
          have hunset : matrices'.score_matrix[query_idx * slices.path_len + path_idx]? = some none := by
            rw [hgrows.above _ (cell_lt (Nat.lt_succ_self _) hpath_idx), hmemoized]
          obtain ⟨best_position_matrix, score_matrix, hpositions, hscores, hmemo'', hgrows', hscored⟩ :=
            hmemo'.write hquery hpath_idx hunset hpos (hfound.leads hpos)
          simp only [hchar, hloop, hpositions, hscores]
          exact ⟨best.score, _, rfl, hmemo'', (hgrows.mono (Nat.le_succ _)).trans hgrows', hpos.le,
            fun _ => Or.inr ⟨hpath_idx, hscored⟩, fun _ => hpos⟩

theorem memoized_cleared (matcher : Matcher) (slices : Slices) {length : Nat}
    (hlength : length = matcher.query.length * slices.path_len) :
    Memoized matcher slices ⟨List.replicate length none, List.replicate length 0⟩ := by
  refine ⟨by rw [List.length_replicate, hlength], by rw [List.length_replicate, hlength], fun ix hix => ?_,
    fun query_idx path_idx score _ _ hscore => ?_⟩
  · have hlt := (List.getElem?_eq_some_iff.mp hix).1
    rw [List.length_replicate] at hlt
    exact List.getElem?_replicate_of_lt hlt
  · have hmem := List.mem_of_getElem? hscore
    exact absurd (List.eq_of_mem_replicate hmem) (Option.some_ne_none _)

end Recursion

end zed.fuzzy
