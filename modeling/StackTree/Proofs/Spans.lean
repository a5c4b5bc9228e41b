import Mathlib.Data.List.TakeWhile

/-!
# Spans of characters

A span is a stretch of characters of one sort, such as the digits of a number. Whoever reads it back
takes characters as long as they are of that sort, so what follows the span must not start with one.
Then the span ends where its characters do, and it can be told from the text together with what
follows it.

## Main definitions

* `Stops`: a text that does not go on with a span.

## Main results

* `takeWhile_span`, `dropWhile_span`: a text is cut where its span ends.
* `span_append_inj`: a span and what follows it can be told from the text.
* `numeral_append_inj`: so can a number in decimal digits.
-/

namespace StackTree.Spans

/-- The text does not start with a character of that sort. -/
def Stops (p : Char → Bool) (cs : List Char) : Prop := ∀ c ∈ cs.head?, p c = false

theorem stops_cons {p : Char → Bool} {c : Char} {cs : List Char} (h : p c = false) :
    Stops p (c :: cs) := by
  intro d hd
  obtain rfl := Option.some.inj hd
  exact h

section

variable {p : Char → Bool} {span rest : List Char}

theorem takeWhile_span (hspan : ∀ c ∈ span, p c = true) (hrest : Stops p rest) :
    (span ++ rest).takeWhile p = span := by
  rw [List.takeWhile_append_of_pos hspan]
  cases rest with
  | nil => simp
  | cons c cs => rw [List.takeWhile_cons_of_neg (by simp [hrest c rfl]), List.append_nil]

theorem dropWhile_span (hspan : ∀ c ∈ span, p c = true) (hrest : Stops p rest) :
    (span ++ rest).dropWhile p = rest := by
  rw [List.dropWhile_append_of_pos hspan]
  cases rest with
  | nil => rfl
  | cons c cs => rw [List.dropWhile_cons_of_neg (by simp [hrest c rfl])]

/-- A span and what follows it can be told from the text. -/
theorem span_append_inj {span' rest' : List Char} (hspan : ∀ c ∈ span, p c = true)
    (hspan' : ∀ c ∈ span', p c = true) (hrest : Stops p rest) (hrest' : Stops p rest')
    (h : span ++ rest = span' ++ rest') : span = span' ∧ rest = rest' := by
  have hsame : span = span' := by
    rw [← takeWhile_span hspan hrest, h, takeWhile_span hspan' hrest']
  exact ⟨hsame, List.append_cancel_left (hsame ▸ h)⟩

end

/-! ## Numbers -/

/-- The digits of a number. -/
abbrev numeral (n : Nat) : List Char := Nat.toDigits 10 n

theorem toList_repr (n : Nat) : n.repr.toList = numeral n := by
  rw [Nat.repr_eq_ofList_toDigits, String.toList_ofList]

theorem isDigit_of_mem_numeral {n : Nat} {c : Char} (h : c ∈ numeral n) : c.isDigit = true :=
  Nat.isDigit_of_mem_toDigits (by decide) (by decide) h

/-- A numeral starts with a digit. -/
theorem exists_numeral_eq_cons (n : Nat) : ∃ c cs, numeral n = c :: cs ∧ c.isDigit = true := by
  have hne : numeral n ≠ [] := Nat.toDigits_ne_nil
  obtain ⟨c, cs, hcs⟩ := List.exists_cons_of_ne_nil hne
  exact ⟨c, cs, hcs, isDigit_of_mem_numeral (n := n) (hcs ▸ List.mem_cons_self ..)⟩

/-- Only the numeral of zero starts with a zero. -/
theorem head?_numeral_ne_zero {n : Nat} (hn : n ≠ 0) : (numeral n).head? ≠ some '0' := by
  induction n using Nat.strong_induction_on with
  | _ n ih =>
    rw [numeral, Nat.toDigits_eq_if (by decide)]
    split
    · simpa using hn
    · have hfront := ih (n / 10) (by omega) (by omega)
      obtain ⟨c, cs, hcs, -⟩ := exists_numeral_eq_cons (n / 10)
      rw [hcs] at hfront
      rw [show Nat.toDigits 10 (n / 10) = _ from hcs]
      exact hfront

/-- A number and what follows it can be told from the text. -/
theorem numeral_append_inj {m n : Nat} {rest rest' : List Char} (hrest : Stops Char.isDigit rest)
    (hrest' : Stops Char.isDigit rest') (h : numeral m ++ rest = numeral n ++ rest') :
    m = n ∧ rest = rest' := by
  obtain ⟨hdigits, hsame⟩ := span_append_inj (fun c hc => isDigit_of_mem_numeral hc)
    (fun c hc => isDigit_of_mem_numeral hc) hrest hrest' h
  have hvalue : m = n := by
    rw [← Nat.ofDigitChars_ten_toDigits (n := m), show Nat.toDigits 10 m = _ from hdigits,
      Nat.ofDigitChars_ten_toDigits]
  exact ⟨hvalue, hsame⟩

end StackTree.Spans
