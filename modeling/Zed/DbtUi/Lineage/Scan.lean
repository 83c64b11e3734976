import Zed.DbtUi.El.Text
import Zed.StreamingDiff.Operation

namespace zed.dbt_ui.lineage

open zed.streaming_diff (split_bytes)
open zed.dbt_ui.el (trim trim_start trim_end split_whitespace)

/-- The offsets at which a pattern is found, one after the other: each search starts
    behind the last match. -/
def occurrences (pattern : List Char) : Nat → Nat → List Char → List Nat
  | _, _, [] => []
  | skip + 1, offset, c :: text => occurrences pattern skip (offset + c.utf8Size) text
  | 0, offset, c :: text =>
    if pattern.isPrefixOf (c :: text) then
      offset :: occurrences pattern (pattern.length - 1) (offset + c.utf8Size) text
    else occurrences pattern 0 (offset + c.utf8Size) text

/-- `text.matches(pattern)`, by their offsets. -/
def match_offsets (pattern text : List Char) : List Nat := occurrences pattern 0 0 text

/-- `str::rfind` -/
def rfind (pattern : List Char) : List Char → Option Nat
  | [] => none
  | c :: text =>
    match rfind pattern text with
    | some offset => some (offset + c.utf8Size)
    | none => if pattern.isPrefixOf (c :: text) then some 0 else none

/-- `&text[from..]`: no text when that panics. -/
def slice_from (text : List Char) (offset : Nat) : Option (List Char) := (split_bytes offset text).map Prod.snd

/-- `&text[..to]`: no text when that panics. -/
def slice_to (text : List Char) (offset : Nat) : Option (List Char) := (split_bytes offset text).map Prod.fst

/-- The words of a text with one space between two. -/
def normalize_whitespace (text : List Char) : List Char := [' '].intercalate (split_whitespace text)

/-- `str::trim_matches` -/
def trim_matches (c : Char) (text : List Char) : List Char :=
  (text.dropWhile (· == c)).rdropWhile (· == c)

/-- What is behind the last occurrence of a character. -/
def rsplit_last (c : Char) (text : List Char) : List Char := text.rtakeWhile (· != c)

/-- A static summary of the SQL operations that a model applies. -/
structure NodeOps where
  joins : List (List Char)
  aggregations : List (List Char)
  group_by : Bool
  filters : List (List Char)
  windows : Bool
  distinct : Bool
  unions : Nat
deriving DecidableEq, Repr

section

variable (to_lowercase : List Char → List Char) (is_alphanumeric : Char → Bool)

def is_ident (c : Char) : Bool := is_alphanumeric c || c == '_'

/-- The words before a join, the longer ones first. -/
def join_kinds : List (List Char) :=
  ["left outer".toList, "right outer".toList, "full outer".toList, "left".toList, "right".toList, "full".toList,
    "inner".toList, "cross".toList]

/-- The label of the join at an offset of the normalized text. -/
def join_label (norm : List Char) (offset : Nat) : Option (List Char) := do
  let before ← slice_to norm offset
  let kind := (join_kinds.find? fun candidate => candidate.isSuffixOf (trim_end before)).getD "join".toList
  let rest ← slice_from norm (offset + 6)
  let token := rest.takeWhile fun c => is_ident is_alphanumeric c || c == '.' || c == '"'
  let target := trim_matches '"' (rsplit_last '.' token)
  return if target = [] then kind ++ " join (subquery)".toList
    else if kind = "join".toList then "join ".toList ++ target
    else kind ++ " join ".toList ++ target

local instance lawful_texts : LawfulBEq (List Char) := inferInstance

def push_join (joins : List (List Char)) (label : List Char) : List (List Char) :=
  if joins.length < 8 ∧ label ∉ joins then joins ++ [label] else joins

/-- Whether a function is called under its own name. -/
def is_called (lower : List Char) (name : List Char) : Option Bool :=
  (match_offsets (name ++ ['(']) lower).foldlM (fun found offset =>
    if found then some true
    else do
      let before ← slice_to lower offset
      return !(before.getLast?.any (is_ident is_alphanumeric))) false

def aggregate_names : List (List Char) :=
  ["sum".toList, "count".toList, "avg".toList, "min".toList, "max".toList, "array_agg".toList, "listagg".toList,
    "string_agg".toList]

def contains (text pattern : List Char) : Bool := decide (match_offsets pattern text ≠ [])

/-- Number of UNION branches beyond the first. -/
def unions (norm : List Char) : Nat :=
  (match_offsets " union ".toList norm).length + (match_offsets " union all ".toList norm).length / 2

/-- Best-effort text scan of compiled SQL. There is no result when a slice panics. -/
def extract_ops (sql : List Char) : Option NodeOps := do
  let lower := to_lowercase sql
  let norm := normalize_whitespace lower
  let labels ← (match_offsets " join ".toList norm).mapM (join_label is_alphanumeric norm)
  let called ← aggregate_names.mapM fun name => do
    return (name, ← is_called is_alphanumeric lower name)
  return {
    joins := labels.foldl push_join []
    aggregations := (called.filter Prod.snd).map Prod.fst
    group_by := contains norm " group by ".toList
    filters := ["where".toList, "having".toList, "qualify".toList].filter fun clause =>
      contains norm ([' '] ++ clause ++ [' '])
    windows := contains norm " over (".toList || contains norm " over(".toList || contains lower "over(".toList
    distinct := contains norm "select distinct ".toList || contains norm "select distinct\n".toList
    unions := unions norm }

/-- `is_ascii_alphanumeric` or an underscore. -/
def is_ascii_ident (c : Char) : Bool := c.isAlphanum || c == '_'

/-- The top-level FROM of what is behind a select. -/
def from_ix : Option Char → Int → Nat → List Char → Option Nat
  | _, _, _, [] => none
  | previous, depth, offset, c :: text =>
    if c = '(' then from_ix (some c) (depth + 1) (offset + c.utf8Size) text
    else if c = ')' then from_ix (some c) (depth - 1) (offset + c.utf8Size) text
    else if c = 'f' && decide (depth = 0) && "from".toList.isPrefixOf (c :: text) &&
        !previous.any is_ascii_ident && !((text.drop 3).head?.any (is_ident is_alphanumeric)) then some offset
    else from_ix (some c) depth (offset + c.utf8Size) text

/-- The parts of a select list: it is cut at its top-level commas. -/
def segments : Int → List Char → List Char → List (List Char)
  | _, segment, [] => [segment]
  | depth, segment, c :: list =>
    if c = '(' then segments (depth + 1) (segment ++ [c]) list
    else if c = ')' then segments (depth - 1) (segment ++ [c]) list
    else if c = ',' && decide (depth = 0) then segment :: segments depth [] list
    else segments depth (segment ++ [c]) list

/-- The columns found so far, and whether a bare `*` was seen. -/
abbrev Entries := List (List Char × List Char) × Bool

def is_star (segment : List Char) : Bool := segment == ['*'] || ['.', '*'].isSuffixOf segment

/-- The name of a column and its expression: the place of the ` as ` is looked for in
    lower case, and cut in the segment itself. -/
def name_and_expr (segment : List Char) : Option (List Char × List Char) :=
  match rfind " as ".toList (to_lowercase segment) with
  | some pos => do
    let name ← slice_from segment (pos + 4)
    let expr ← slice_to segment pos
    return (trim name, trim expr)
  | none => some (trim (rsplit_last '.' segment), segment)

def push_column (columns : List (List Char × List Char)) (name expr : List Char) : List (List Char × List Char) :=
  let name := trim_matches '"' name
  if name ≠ [] && name.all (is_ident is_alphanumeric) then columns ++ [(name, normalize_whitespace expr)] else columns

def push_segment (found : Entries) (segment : List Char) : Option Entries :=
  let (columns, saw_star) := found
  let segment := trim segment
  if segment = [] then some (columns, saw_star)
  else if is_star segment then some (columns, true)
  else (name_and_expr to_lowercase segment).map fun (name, expr) =>
    (push_column is_alphanumeric columns name expr, saw_star)

def strip_distinct (list : List Char) : List Char :=
  if "distinct".toList.isPrefixOf (trim_start list) then (trim_start list).drop 8 else list

/-- The entries of a select list, none when there are no columns. The outer option is
    a panic. -/
def select_list (list : List Char) : Option (Option Entries) :=
  if contains list "\x7b\x7b".toList then some none
  else
    ((segments 0 [] (strip_distinct list)).foldlM (push_segment to_lowercase is_alphanumeric) ([], false)).map fun found =>
      if found.1 = [] then none else some found

def parse_select_entries_at (sql lower : List Char) (select_pos : Nat) : Option (Option Entries) :=
  (slice_from sql (select_pos + 6)).bind fun body =>
    (slice_from lower (select_pos + 6)).bind fun body_lower =>
      match from_ix is_alphanumeric none 0 0 body_lower with
      | none => some none
      | some ix => (slice_to body ix).bind (select_list to_lowercase is_alphanumeric)

def parse_select_entries (sql : List Char) : Option (Option (List (List Char × List Char))) :=
  let lower := to_lowercase sql
  match (match_offsets "select".toList lower).head? with
  | none => some none
  | some select_pos =>
    (parse_select_entries_at to_lowercase is_alphanumeric sql lower select_pos).map fun found =>
      found.bind fun (entries, saw_star) => if saw_star then none else some entries

/-- `map.entry(key).or_insert(value)`, in the order of the insertions. -/
def or_insert (merged : List (List Char × List Char)) (key value : List Char) : List (List Char × List Char) :=
  if key ∈ merged.map Prod.fst then merged else merged ++ [(key, value)]

/-- Whether the `select` at an offset is a word of its own. -/
def is_select_word (lower : List Char) (offset : Nat) : Option Bool := do
  let before ← slice_to lower offset
  let after ← slice_from lower (offset + 6)
  return !(before.getLast?.any is_ascii_ident) && !(after.head?.any is_ascii_ident)

/-- A column that is a bare rename of another one takes that one's expression. -/
def chain (snapshot : List (List Char × List Char)) (entry : List Char × List Char) : List Char × List Char :=
  let (name, expr) := entry
  let bare := to_lowercase (trim_matches '"' (rsplit_last '.' expr))
  if bare = name || !bare.all (is_ident is_alphanumeric) then (name, expr)
  else
    match snapshot.lookup bare with
    | none => (name, expr)
    | some base =>
      let base_bare := trim_matches '"' (rsplit_last '.' base)
      if base_bare.map Char.toLower ≠ bare.map Char.toLower then (name, base) else (name, expr)

/-- Merges the entries of the select at an offset, when it is a word: the first
    definition of a name stays. -/
def merge_select (sql lower : List Char) (merged : List (List Char × List Char)) (offset : Nat) :
    Option (List (List Char × List Char)) :=
  (is_select_word lower offset).bind fun word =>
    if word then
      (parse_select_entries_at to_lowercase is_alphanumeric sql lower offset).map fun found =>
        (found.elim [] Prod.fst).foldl (fun merged entry => or_insert merged (to_lowercase entry.1) entry.2) merged
    else some merged

/-- Every select statement's (column, expression) pairs, merged first-wins. -/
def parse_all_select_entries (sql : List Char) : Option (List (List Char × List Char)) :=
  let lower := to_lowercase sql
  ((match_offsets "select".toList lower).foldlM (merge_select to_lowercase is_alphanumeric sql lower) []).map fun merged =>
    merged.map (chain to_lowercase is_alphanumeric merged)

end

end zed.dbt_ui.lineage
