import Zed.Fuzzy.CharBag
import Zed.Rope.Chunks

namespace zed.fuzzy

open zed.rope

def BASE_DISTANCE_PENALTY : ℚ := 6 / 10
def ADDITIONAL_DISTANCE_PENALTY : ℚ := 5 / 100
def MIN_DISTANCE_PENALTY : ℚ := 2 / 10

/-- What a matcher keeps from one candidate to the next, but for its working memory. -/
structure Matcher where
  query : List Char
  lowercase_query : List Char
  query_char_bag : CharBag
  smart_case : Bool
  penalize_length : Bool
  min_score : ℚ

def Matcher.new (query lowercase_query : List Char) (query_char_bag : CharBag) (smart_case penalize_length : Bool) :
    Matcher :=
  { query, lowercase_query, query_char_bag, smart_case, penalize_length, min_score := 0 }

/-- The index of the last occurrence. -/
def rposition (char : Char) : List Char → Option Nat
  | [] => none
  | c :: chars =>
    match rposition char chars with
    | some j => some (j + 1)
    | none => if c = char then some 0 else none

/-- The last positions of the query, with what the two iterators have left. Once a character is looked for
    in the prefix the candidate is used up. -/
def find_last_positions (lowercase_prefix_chars lowercase_candidate : List Char) :
    List Char → Option (List Nat × List Char × List Char)
  | [] => some ([], lowercase_prefix_chars, lowercase_candidate)
  | char :: query =>
    match find_last_positions lowercase_prefix_chars lowercase_candidate query with
    | none => none
    | some (last_positions, prefix_left, candidate_left) =>
      match rposition char candidate_left with
      | some j => some ((j + prefix_left.length) :: last_positions, prefix_left, candidate_left.take j)
      | none =>
        match rposition char prefix_left with
        | some j => some (j :: last_positions, prefix_left.take j, [])
        | none => none

/-- The slices that a candidate is matched in. -/
structure Slices where
  path : List Char
  path_lowercased : List Char
  prefix_chars : List Char
  lowercase_prefix_chars : List Char

namespace Slices

variable (slices : Slices)

def path_len : Nat := slices.prefix_chars.length + slices.path.length

/-- The character at a position of the prefix and the path after it. None is a panic. -/
def char_at (j : Nat) : Option Char :=
  match slices.prefix_chars[j]? with
  | some char => some char
  | none => slices.path[j - slices.prefix_chars.length]?

/-- The lowercase character at a position. The inner option is empty behind the path. -/
def path_char (j : Nat) : Option (Option Char) :=
  if j < slices.prefix_chars.length then slices.lowercase_prefix_chars[j]?.map some
  else some slices.path_lowercased[j - slices.prefix_chars.length]?

end Slices

/-- The matrices, a row for each character of the query. -/
structure Matrices where
  score_matrix : List (Option ℚ)
  best_position_matrix : List Nat

/-- `xs[ix] = x` -/
def store {α : Type} (xs : List α) (ix : Nat) (x : α) : Option (List α) :=
  if ix < xs.length then some (xs.set ix x) else none

section Scores

variable (unicode : Unicode) (self : Matcher) (slices : Slices)

/-- The score of a character by the one before it. -/
def char_score (query_idx path_idx j : Nat) (last curr : Char) : ℚ :=
  if last = '/' then 9 / 10
  else if last = '-' ∨ last = '_' ∨ last = ' ' ∨ unicode.is_numeric last ∨
      (unicode.is_lowercase last ∧ unicode.is_uppercase curr) then 8 / 10
  else if last = '.' then 7 / 10
  else if query_idx = 0 then BASE_DISTANCE_PENALTY
  else max MIN_DISTANCE_PENALTY (BASE_DISTANCE_PENALTY - ((j - path_idx - 1 : Nat) : ℚ) * ADDITIONAL_DISTANCE_PENALTY)

/-- What a match at a position multiplies the score by. None is a panic. -/
def multiplier (query_idx path_idx last_slash j : Nat) : Option ℚ :=
  match slices.char_at j, self.query[query_idx]? with
  | some curr, some query_char =>
    let char_score? : Option ℚ :=
      if j > path_idx then
        (slices.char_at (j - 1)).map fun last => char_score unicode query_idx path_idx j last curr
      else some 1
    char_score?.map fun char_score =>
      let char_score :=
        if (self.smart_case = true ∨ curr = '/') ∧ query_char ≠ curr then char_score * (1 / 1000) else char_score
      if self.penalize_length = true ∧ query_idx = 0 then char_score / ((slices.path_len - last_slash : Nat) : ℚ)
      else char_score
  | _, _ => none

/-- The variables of the loop over the positions. -/
structure Best where
  score : ℚ
  best_position : Nat
  last_slash : Nat

/-- The loop over the positions, by the function that scores the rest of the query. -/
def score_positions (rest_score : Nat → ℚ → Matrices → Option (ℚ × Matrices)) (query_idx path_idx : Nat)
    (query_char : Char) (cur_score : ℚ) : List Nat → Best → Matrices → Option (Best × Matrices)
  | [], best, matrices => some (best, matrices)
  | j :: js, best, matrices =>
    match slices.path_char j with
    | none => none
    | some none => score_positions rest_score query_idx path_idx query_char cur_score js best matrices
    | some (some path_char) =>
      let best := { best with last_slash := if query_idx = 0 ∧ path_char = '/' then j else best.last_slash }
      if query_char = path_char ∨ (path_char = '/' ∧ query_char = '_') then
        match multiplier unicode self slices query_idx path_idx best.last_slash j with
        | none => none
        | some multiplier =>
          let next_score := if self.min_score > 0 then cur_score * multiplier else 1
          if self.min_score > 0 ∧ next_score < self.min_score then
            -- a score that is not zero is used in the memo table
            score_positions rest_score query_idx path_idx query_char cur_score js
              { best with score := if best.score = 0 then 1 / 10 ^ 18 else best.score } matrices
          else
            match rest_score (j + 1) next_score matrices with
            | none => none
            | some (rest, matrices) =>
              let new_score := rest * multiplier
              if new_score > best.score then
                let best := { best with score := new_score, best_position := j }
                if new_score = 1 then some (best, matrices)
                else score_positions rest_score query_idx path_idx query_char cur_score js best matrices
              else score_positions rest_score query_idx path_idx query_char cur_score js best matrices
      else score_positions rest_score query_idx path_idx query_char cur_score js best matrices

/-- The score of the last characters of the query from a position on. None is a panic. -/
def recursive_score_match (last_positions : List Nat) : Nat → Nat → ℚ → Matrices → Option (ℚ × Matrices)
  | 0, _, _, matrices => some (1, matrices)
  | remaining + 1, path_idx, cur_score, matrices =>
    let query_idx := self.query.length - (remaining + 1)
    match last_positions[query_idx]? with
    | none => none
    | some limit =>
      let max_valid_index := slices.prefix_chars.length + slices.path_lowercased.length - 1
      let safe_limit := min limit max_valid_index
      if path_idx > safe_limit then some (0, matrices)
      else
        let ix := query_idx * slices.path_len + path_idx
        match matrices.score_matrix[ix]? with
        | none => none
        | some (some memoized) => some (memoized, matrices)
        | some none =>
          match self.lowercase_query[query_idx]? with
          | none => none
          | some query_char =>
            match score_positions unicode self slices (recursive_score_match last_positions remaining) query_idx path_idx
                query_char cur_score (List.range' path_idx (safe_limit + 1 - path_idx)) ⟨0, 0, 0⟩ matrices with
            | none => none
            | some (best, matrices) =>
              let best_position_matrix? :=
                if best.best_position ≠ 0 then store matrices.best_position_matrix ix best.best_position
                else some matrices.best_position_matrix
              match best_position_matrix?, store matrices.score_matrix ix (some best.score) with
              | some best_position_matrix, some score_matrix =>
                some (best.score, { score_matrix, best_position_matrix })
              | _, _ => none

end Scores

section Positions

variable (slices : Slices) (best_position_matrix : List Nat)

def skip_chars : Nat → Nat → Nat → Option Nat
  | 0, _, byte_ix => some byte_ix
  | count + 1, char_ix, byte_ix =>
    match slices.char_at char_ix with
    | none => none
    | some char => skip_chars count (char_ix + 1) (byte_ix + char.utf8Size)

/-- Follows the best positions from each character of the query to the next. -/
def follow : List Nat → Nat → Nat → Nat → List Nat → Option (List Nat)
  | [], _, _, _, match_positions => some match_positions
  | i :: is, cur_start, byte_ix, char_ix, match_positions =>
    match best_position_matrix[i * slices.path_len + cur_start]? with
    | none => none
    | some match_char_ix =>
      match skip_chars slices (match_char_ix - char_ix) char_ix byte_ix, slices.char_at match_char_ix with
      | some byte_ix, some matched_ch =>
        match store match_positions i byte_ix with
        | none => none
        | some match_positions =>
          follow is (match_char_ix + 1) (byte_ix + matched_ch.utf8Size) (match_char_ix + 1) match_positions
      | _, _ => none

end Positions

/-- A candidate and its bag, which may hold the characters of a root as well. -/
structure Candidate (unicode : Unicode) where
  candidate_chars : List Char
  char_bag : CharBag
  holds_chars : ∃ root : CharBag, char_bag = root.extend unicode candidate_chars

def Candidate.has_chars {unicode : Unicode} (self : Candidate unicode) (bag : CharBag) : Bool :=
  self.char_bag.is_superset bag

section Model

variable {R : Type} (unicode : Unicode) (self : Matcher)

/-- The score, and the positions where it is not zero. -/
def score_match (slices : Slices) (last_positions match_positions : List Nat) (matrices : Matrices) :
    Option (ℚ × List Nat) :=
  match recursive_score_match unicode self slices last_positions self.query.length 0 self.query.length matrices with
  | none => none
  | some (score, matrices) =>
    let score := score * self.query.length
    if score ≤ 0 then some (0, match_positions)
    else
      (follow slices matrices.best_position_matrix (List.range self.query.length) 0 0 0 match_positions).map (score, ·)

/-- The candidates that match, in their order, until the cancel flag is seen. The flag is given by the number
    of times it has been loaded. None is a panic. -/
def match_candidates (prefix_chars lowercase_prefix_chars : List Char) (cancel_flag : Nat → Bool)
    (build_match : Candidate unicode → ℚ → List Nat → R) :
    List (Candidate unicode) → Nat → List Nat → List R → Option (List R)
  | [], _, _, results => some results
  | candidate :: candidates, loads, match_positions, results =>
    if candidate.has_chars self.query_char_bag = false then
      match_candidates prefix_chars lowercase_prefix_chars cancel_flag build_match candidates loads match_positions
        results
    else if cancel_flag loads then some results
    else
      let lowercase_candidate_chars := candidate.candidate_chars.map (simple_lowercase unicode)
      match find_last_positions lowercase_prefix_chars lowercase_candidate_chars self.lowercase_query with
      | none =>
        match_candidates prefix_chars lowercase_prefix_chars cancel_flag build_match candidates (loads + 1)
          match_positions results
      | some (last_positions, _) =>
        let matrix_len := self.query.length * (lowercase_prefix_chars.length + lowercase_candidate_chars.length)
        let slices := ⟨candidate.candidate_chars, lowercase_candidate_chars, prefix_chars, lowercase_prefix_chars⟩
        let matrices := ⟨List.replicate matrix_len none, List.replicate matrix_len 0⟩
        match score_match unicode self slices last_positions match_positions matrices with
        | none => none
        | some (score, match_positions) =>
          match_candidates prefix_chars lowercase_prefix_chars cancel_flag build_match candidates (loads + 1)
            match_positions (if score > 0 then results ++ [build_match candidate score match_positions] else results)

end Model

end zed.fuzzy
