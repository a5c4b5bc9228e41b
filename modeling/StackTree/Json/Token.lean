import StackTree.Json.Value

/-!
# JSON tokens

A JSON text is read in two steps: into tokens, and from tokens to a value. This module holds the
tokens, how each is written, and the scanner. The scanner is strict: no comments, no byte order
mark, blanks only between tokens, no raw control characters in a text.

## Main definitions

* `Json.Token`, `Json.Token.text`: a token and how it is written.
* `Json.scan`: the tokens of a text.
-/

namespace StackTree.Json

/-- A token. -/
inductive Token where
  | openArray
  | closeArray
  | openObject
  | closeObject
  | comma
  | colon
  | null
  | bool (b : Bool)
  | integer (i : Int)
  | real (n : Numeral)
  | text (t : Text)
deriving DecidableEq, Repr

/-! ## Writing -/

/-- The four lower-case hexadecimal digits of a number below 2 ^ 16. -/
def hex4 (n : Nat) : List Char :=
  [Nat.digitChar (n / 4096 % 16), Nat.digitChar (n / 256 % 16), Nat.digitChar (n / 16 % 16),
    Nat.digitChar (n % 16)]

/-- How a character stands in a text: quotes, backslashes and control characters are escaped. -/
def escape (c : Char) : List Char :=
  if c = '"' then ['\\', '"']
  else if c = '\\' then ['\\', '\\']
  else if c = '\x08' then ['\\', 'b']
  else if c = '\x0c' then ['\\', 'f']
  else if c = '\n' then ['\\', 'n']
  else if c = '\x0d' then ['\\', 'r']
  else if c = '\t' then ['\\', 't']
  else if c.toNat < 32 then '\\' :: 'u' :: hex4 c.toNat
  else [c]

/-- How a part of a text stands in it. -/
def Piece.written : Piece → List Char
  | .char c => escape c
  | .half unit => '\\' :: 'u' :: hex4 unit

/-- How a number is written. -/
def Numeral.written (n : Numeral) : List Char :=
  (if n.negative then ['-'] else []) ++ n.whole
    ++ (if n.fraction.isEmpty then [] else '.' :: n.fraction)
    ++ match n.exponent with
      | none => []
      | some (negative, ds) => 'e' :: (if negative then ['-'] else []) ++ ds

/-- How an integer is written. -/
def writtenInt (i : Int) : List Char :=
  if i < 0 then '-' :: (Nat.repr i.natAbs).toList else (Nat.repr i.natAbs).toList

/-- How a token is written. -/
def Token.written : Token → List Char
  | openArray => ['[']
  | closeArray => [']']
  | openObject => ['\x7b']
  | closeObject => ['\x7d']
  | comma => [',']
  | colon => [':']
  | null => ['n', 'u', 'l', 'l']
  | bool true => ['t', 'r', 'u', 'e']
  | bool false => ['f', 'a', 'l', 's', 'e']
  | integer i => writtenInt i
  | real n => n.written
  | text t => '"' :: t.flatMap Piece.written ++ ['"']

/-! ## Scanning texts in quotes -/

/-- The value of a hexadecimal digit. -/
def hexDigit? (c : Char) : Option Nat :=
  if '0' ≤ c ∧ c ≤ '9' then some (c.toNat - '0'.toNat)
  else if 'a' ≤ c ∧ c ≤ 'f' then some (c.toNat - 'a'.toNat + 10)
  else if 'A' ≤ c ∧ c ≤ 'F' then some (c.toNat - 'A'.toNat + 10)
  else none

/-- The number that four hexadecimal digits write. -/
def hexUnit? (a b c d : Char) : Option Nat := do
  return ((← hexDigit? a) * 16 + (← hexDigit? b)) * 256 + (← hexDigit? c) * 16 + (← hexDigit? d)

/-- The character that stands after a backslash for another one. -/
def unescape? : Char → Option Char
  | '"' => some '"'
  | '\\' => some '\\'
  | '/' => some '/'
  | 'b' => some '\x08'
  | 'f' => some '\x0c'
  | 'n' => some '\n'
  | 'r' => some '\x0d'
  | 't' => some '\t'
  | _ => none

/-- Whether a unit is the first half of a surrogate pair. -/
def isHighHalf (unit : Nat) : Bool := 0xD800 ≤ unit && unit < 0xDC00

/-- Whether a unit is the second half of a surrogate pair. -/
def isLowHalf (unit : Nat) : Bool := 0xDC00 ≤ unit && unit < 0xE000

/-- The part of a text that a unit stands for by itself. -/
def Piece.ofUnit (unit : Nat) : Piece :=
  if isHighHalf unit || isLowHalf unit then .half unit else .char (Char.ofNat unit)

/--
Adds the unit of an escape to a text that is written backwards. A second half right after an escaped
first half completes the pair.
-/
def addUnit (done : List Piece) (unit : Nat) : List Piece :=
  match done with
  | .half high :: rest =>
    if isHighHalf high && isLowHalf unit then
      .char (Char.ofNat (0x10000 + (high - 0xD800) * 0x400 + (unit - 0xDC00))) :: rest
    else
      Piece.ofUnit unit :: done
  | _ => Piece.ofUnit unit :: done

/-- The text up to the closing quote, which starts with the parts done, and what follows it. -/
def scanText (done : List Piece) : List Char → Option (Text × List Char)
  | [] => none
  | '"' :: rest => some (done.reverse, rest)
  | '\\' :: 'u' :: a :: b :: c :: d :: rest => do
    scanText (addUnit done (← hexUnit? a b c d)) rest
  | '\\' :: c :: rest => do scanText (.char (← unescape? c) :: done) rest
  | c :: rest => if c = '\\' || c.toNat < 32 then none else scanText (.char c :: done) rest

/-! ## Scanning numbers -/

/-- Whether a character is a decimal digit. -/
def isDigit (c : Char) : Bool := '0' ≤ c && c ≤ '9'

/-- The digits that a list starts with, at least one, and what follows them. -/
def scanDigits (cs : List Char) : Option (List Char × List Char) :=
  if cs.takeWhile isDigit = [] then none
  else some (cs.takeWhile isDigit, cs.dropWhile isDigit)

/-- The digits before the point: a single zero, or digits that start with another one. -/
def scanWhole : List Char → Option (List Char × List Char)
  | '0' :: rest => some (['0'], rest)
  | cs => scanDigits cs

/-- The digits after a point, if there is a point. -/
def scanFraction : List Char → Option (List Char × List Char)
  | '.' :: cs => scanDigits cs
  | cs => some ([], cs)

/-- The sign of an exponent and what follows it. -/
def scanSign : List Char → Bool × List Char
  | '-' :: rest => (true, rest)
  | '+' :: rest => (false, rest)
  | cs => (false, cs)

/-- The exponent, if there is one. -/
def scanExponent : List Char → Option (Option (Bool × List Char) × List Char)
  | [] => some (none, [])
  | c :: cs =>
    if c = 'e' || c = 'E' then
      (scanDigits (scanSign cs).2).map fun (ds, rest) => (some ((scanSign cs).1, ds), rest)
    else
      some (none, c :: cs)

/-- The unsigned number that a list starts with, and what follows it. -/
def scanNumeral (negative : Bool) (cs : List Char) : Option (Numeral × List Char) := do
  let (whole, cs) ← scanWhole cs
  let (fraction, cs) ← scanFraction cs
  let (exponent, cs) ← scanExponent cs
  return ({ negative, whole, fraction, exponent }, cs)

/--
The token of a number. It is an integer if it has neither fraction nor exponent, fits into 64 bits
and is no negative zero.
-/
def Numeral.token (n : Numeral) : Token :=
  if n.fraction.isEmpty && n.exponent.isNone then
    let magnitude := ofDigits n.whole
    if n.negative then
      if 0 < magnitude && Int64.minValue.toInt ≤ -magnitude then .integer (-magnitude)
      else .real n
    else
      if magnitude < UInt64.size then .integer magnitude else .real n
  else
    .real n

/-! ## Scanning tokens -/

/-- Whether a character may stand between tokens. -/
def isBlank (c : Char) : Bool := c = ' ' || c = '\n' || c = '\t' || c = '\x0d'

/-- What follows a word that a list has to start with. -/
def afterWord : (word cs : List Char) → Option (List Char)
  | [], cs => some cs
  | w :: word, c :: cs => if w = c then afterWord word cs else none
  | _ :: _, [] => none

/-- The token that starts with the character `c`, and what follows it. -/
def scanToken (c : Char) (cs : List Char) : Option (Token × List Char) :=
  match c with
  | '[' => some (.openArray, cs)
  | ']' => some (.closeArray, cs)
  | '\x7b' => some (.openObject, cs)
  | '\x7d' => some (.closeObject, cs)
  | ',' => some (.comma, cs)
  | ':' => some (.colon, cs)
  | 'n' => (afterWord ['u', 'l', 'l'] cs).map (.null, ·)
  | 't' => (afterWord ['r', 'u', 'e'] cs).map (.bool true, ·)
  | 'f' => (afterWord ['a', 'l', 's', 'e'] cs).map (.bool false, ·)
  | '"' => (scanText [] cs).map fun (t, rest) => (.text t, rest)
  | '-' => (scanNumeral true cs).map fun (n, rest) => (n.token, rest)
  | c => (scanNumeral false (c :: cs)).map fun (n, rest) => (n.token, rest)

/-! ### Each token takes at least one character -/

theorem length_scanText (done : List Piece) (cs : List Char) (t : Text) (rest : List Char)
    (h : scanText done cs = some (t, rest)) : rest.length ≤ cs.length := by
  fun_induction scanText done cs with
  | case1 => simp at h
  | case2 done cs => simp_all
  | case3 done a b c d cs ih =>
    simp only [Option.bind_eq_bind, Option.bind_eq_some_iff] at h
    obtain ⟨unit, _, h⟩ := h
    have := ih unit h
    simp only [List.length_cons]
    omega
  | case4 done c cs _ ih =>
    simp only [Option.bind_eq_bind, Option.bind_eq_some_iff] at h
    obtain ⟨e, _, h⟩ := h
    have := ih e h
    simp only [List.length_cons]
    omega
  | case5 => simp at h
  | case6 done c cs _ _ _ _ ih =>
    have := ih h
    simp only [List.length_cons]
    omega

theorem length_afterWord (word cs rest : List Char) (h : afterWord word cs = some rest) :
    rest.length ≤ cs.length := by
  fun_induction afterWord word cs with
  | case1 => simp_all
  | case2 word c cs ih =>
    have := ih h
    simp only [List.length_cons]
    omega
  | case3 => simp at h
  | case4 => simp at h

/-- The digits and what follows them are the whole list. -/
theorem eq_append_of_scanDigits {cs ds rest : List Char} (h : scanDigits cs = some (ds, rest)) :
    cs = ds ++ rest ∧ ds ≠ [] := by
  unfold scanDigits at h
  split at h
  · simp at h
  · simp only [Option.some.injEq, Prod.mk.injEq] at h
    obtain ⟨rfl, rfl⟩ := h
    exact ⟨List.takeWhile_append_dropWhile.symm, by assumption⟩

theorem length_scanDigits {cs ds rest : List Char} (h : scanDigits cs = some (ds, rest)) :
    rest.length < cs.length := by
  obtain ⟨rfl, hne⟩ := eq_append_of_scanDigits h
  have := List.length_pos_iff.2 hne
  simp only [List.length_append]
  omega

theorem length_scanWhole {cs ds rest : List Char} (h : scanWhole cs = some (ds, rest)) :
    rest.length < cs.length := by
  unfold scanWhole at h
  split at h
  · simp_all
  · exact length_scanDigits h

theorem length_scanFraction {cs ds rest : List Char} (h : scanFraction cs = some (ds, rest)) :
    rest.length ≤ cs.length := by
  unfold scanFraction at h
  split at h
  · have := length_scanDigits h
    simp only [List.length_cons]
    omega
  · simp_all

theorem length_scanSign (cs : List Char) : (scanSign cs).2.length ≤ cs.length := by
  unfold scanSign
  split <;> simp

theorem length_scanExponent {cs rest : List Char} {e : Option (Bool × List Char)}
    (h : scanExponent cs = some (e, rest)) : rest.length ≤ cs.length := by
  unfold scanExponent at h
  split at h
  · simp_all
  · rename_i c cs
    split at h
    · simp only [Option.map_eq_some_iff, Prod.mk.injEq] at h
      obtain ⟨⟨ds, rest'⟩, hds, _, rfl⟩ := h
      have := length_scanDigits hds
      have := length_scanSign cs
      simp only [List.length_cons]
      omega
    · simp_all

theorem length_scanNumeral {negative : Bool} {cs rest : List Char} {n : Numeral}
    (h : scanNumeral negative cs = some (n, rest)) : rest.length < cs.length := by
  simp only [scanNumeral, Option.bind_eq_bind, Option.bind_eq_some_iff, Prod.exists,
    Option.pure_def, Option.some.injEq, Prod.mk.injEq] at h
  obtain ⟨_, c₁, h₁, _, c₂, h₂, _, c₃, h₃, _, rfl⟩ := h
  have := length_scanWhole h₁
  have := length_scanFraction h₂
  have := length_scanExponent h₃
  omega

/-- What follows a token is no longer than what followed its first character. -/
theorem length_scanToken {c : Char} {cs rest : List Char} {t : Token}
    (h : scanToken c cs = some (t, rest)) : rest.length ≤ cs.length := by
  unfold scanToken at h
  split at h
  iterate 6
    · simp_all
  iterate 3
    · simp only [Option.map_eq_some_iff, Prod.mk.injEq] at h
      obtain ⟨_, h, _, rfl⟩ := h
      exact length_afterWord _ _ _ h
  · simp only [Option.map_eq_some_iff, Prod.mk.injEq] at h
    obtain ⟨⟨t, rest'⟩, h, _, rfl⟩ := h
    exact length_scanText _ _ _ _ h
  · simp only [Option.map_eq_some_iff, Prod.mk.injEq] at h
    obtain ⟨⟨n, rest'⟩, h, _, rfl⟩ := h
    exact Nat.le_of_lt (length_scanNumeral h)
  · simp only [Option.map_eq_some_iff, Prod.mk.injEq] at h
    obtain ⟨⟨n, rest'⟩, h, _, rfl⟩ := h
    exact Nat.lt_succ_iff.1 (length_scanNumeral h)

/-! ## Scanning a whole text -/

/-- The tokens of a text that starts with the tokens done, which are written backwards. -/
def scanFrom (done : List Token) : List Char → Option (List Token)
  | [] => some done.reverse
  | c :: cs =>
    if isBlank c then scanFrom done cs
    else
      match h : scanToken c cs with
      | none => none
      | some (t, rest) =>
        have : rest.length ≤ cs.length := length_scanToken h
        scanFrom (t :: done) rest
termination_by cs => cs.length

/-- The tokens of a text. -/
def scan (text : String) : Option (List Token) := scanFrom [] text.toList

end StackTree.Json
