/-!
# Blank characters and fixed words

Two notions of emptiness occur. Between tokens only space, tab, line feed and carriage return
separate (`isSeparator`). A piece of text counts as blank when it holds nothing but Unicode white
space, line terminators or the byte order mark (`isBlank`). The fixed words that occur in printed text
are rows of characters (`Word`).

Main statements: a run of characters of one class, followed by something that is not of the class, is
cut off whole (`takeWhile_run`), and a text without blank characters has no blank ends (`trim_eq`).
-/
namespace Lisplet.Text

/-- What separates tokens. -/
def isSeparator (c : Char) : Bool :=
  c == ' ' || c == '\t' || c == '\n' || c == '\r'

/-- Unicode white space, line terminators and the byte order mark. U+0085 is none of them. -/
def isBlank (c : Char) : Bool :=
  let n := c.toNat
  (0x09 ≤ n && n ≤ 0x0D) || n == 0x20 || n == 0xA0 || n == 0x1680 || (0x2000 ≤ n && n ≤ 0x200A) ||
    n == 0x2028 || n == 0x2029 || n == 0x202F || n == 0x205F || n == 0x3000 || n == 0xFEFF

/-- A text without its blank ends. -/
def trim (cs : List Char) : List Char :=
  ((cs.dropWhile isBlank).reverse.dropWhile isBlank).reverse

/-! ## Runs of characters -/

section

variable {P : Char → Bool} {run rest : List Char}

/-- A run of characters is cut off where the first character that does not belong to it stands. -/
theorem takeWhile_run (hw : ∀ c ∈ run, P c) (hr : ∀ c, rest.head? = some c → P c = false) :
    (run ++ rest).takeWhile P = run ∧ (run ++ rest).dropWhile P = rest := by
  have hstop : rest.takeWhile P = [] ∧ rest.dropWhile P = rest := by
    cases rest with
    | nil => simp
    | cons c rest => simp [hr c rfl]
  rw [List.takeWhile_append_of_pos hw, List.dropWhile_append_of_pos hw, hstop.1, hstop.2]
  simp

theorem head?_dropWhile {cs : List Char} {c : Char} (h : (cs.dropWhile P).head? = some c) : P c = false := by
  have := List.head?_dropWhile_not P cs
  rw [h] at this
  simpa using this

theorem dropWhile_eq_self {cs : List Char} (h : ∀ c ∈ cs, P c = false) : cs.dropWhile P = cs := by
  cases cs with
  | nil => rfl
  | cons c cs => rw [List.dropWhile_cons_of_neg (by simp [h c])]

/-- A text without blanks has nothing to trim. -/
theorem trim_eq {cs : List Char} (h : ∀ c ∈ cs, isBlank c = false) : trim cs = cs := by
  rw [trim, dropWhile_eq_self h, dropWhile_eq_self (fun c hc => h c (List.mem_reverse.1 hc)), List.reverse_reverse]

end

/-! ## Fixed words -/

namespace Word

/-- A truth value. -/
def boolean : Bool → List Char
  | true => ['t', 'r', 'u', 'e']
  | false => ['f', 'a', 'l', 's', 'e']

/-- The empty list in code. -/
def nil : List Char := ['n', 'i', 'l']

/-- Nothing, in a document. -/
def null : List Char := ['n', 'u', 'l', 'l']

/-- What is no number. -/
def nan : List Char := ['N', 'a', 'N']

/-- The infinity in the brief layout. -/
def infinity : List Char :=
  ['I', 'n', 'f', 'i', 'n', 'i', 't', 'y']

/-- The infinity in the plain layout. -/
def inf : List Char := ['i', 'n', 'f']

/-- What is read where there is no text. -/
def undefined : List Char :=
  ['u', 'n', 'd', 'e', 'f', 'i', 'n', 'e', 'd']

end Word

end Lisplet.Text
