import Mathlib

namespace zed.dbt_ui.el

/-- `char::is_whitespace` -/
def is_whitespace (c : Char) : Bool :=
  let n := c.toNat
  (9 ≤ n && n ≤ 13) || n == 0x20 || n == 0x85 || n == 0xA0 || n == 0x1680 || (0x2000 ≤ n && n ≤ 0x200A) ||
    n == 0x2028 || n == 0x2029 || n == 0x202F || n == 0x205F || n == 0x3000

def trim_start (text : List Char) : List Char := text.dropWhile is_whitespace

def trim_end (text : List Char) : List Char := text.rdropWhile is_whitespace

def trim (text : List Char) : List Char := trim_end (trim_start text)

def split_whitespace (text : List Char) : List (List Char) :=
  (text.splitOnP is_whitespace).filter (· ≠ [])

/-- `str::replace` of one character. -/
def replace (c : Char) (with_text text : List Char) : List Char :=
  text.flatMap fun d => if d = c then with_text else [d]

theorem forall_mem_of_all {α : Type} {P : α → Prop} [DecidablePred P] {list : List α}
    (h : (list.all fun x => decide (P x)) = true) : ∀ x ∈ list, P x :=
  fun x hx => of_decide_eq_true (List.all_eq_true.mp h x hx)

/-- What else the standard library does to a text. -/
structure Unicode where
  to_lowercase : List Char → List Char
  /-- A text as `Debug` shows it. -/
  debug : List Char → List Char

end zed.dbt_ui.el
