import StackTree.Json.Reader
import StackTree.Json.Writer
import StackTree.Proofs.Runs
import StackTree.Proofs.Spans

/-!
# Reading back what was written

The compact form of a value reads back as the value, if the value is plain: its numbers are integers
of 64 bits and its texts are strings. A real number that happens to be written like an integer is
read as one, and two halves of a surrogate pair next to each other are read as a character, so other
values need not read back.

Scanning and reading are two passes, and each is undone by itself. The scanner gives the tokens of
the value, where an integer is the one token whose end has to be seen from what follows it; the
reader puts the tokens together again, with whatever frames are open around the value.

## Main definitions

* `Value.Plain`: a value that reads back.
* `Scans`: a text is scanned into some tokens, whatever comes before it.

## Main results

* `scanText_chars`: a string between quotes is scanned back, escapes included.
* `scanToken_writtenInt`: an integer of 64 bits is scanned back.
* `Value.scan_compact`: the compact form is scanned into the tokens of the value.
* `readTokens_tokens`: the tokens are read back.
* `read_compact`: the two together.
-/

namespace StackTree.Json

open Spans

/-! ## Texts in quotes -/

/-- Below 32 the four digits of an escape are those of the unit. -/
theorem hexUnit?_hex4 : ∀ n < 32, ∃ a b c d, hex4 n = [a, b, c, d] ∧ hexUnit? a b c d = some n := by
  intro n hn
  refine ⟨_, _, _, _, rfl, ?_⟩
  revert n
  decide

/-- A control character stands for itself, whatever stands before its escape. -/
theorem addUnit_control (done : List Piece) {c : Char} (hc : c.toNat < 32) :
    addUnit done c.toNat = .char c :: done := by
  have hhigh : isHighHalf c.toNat = false := by simp [isHighHalf]; omega
  have hlow : isLowHalf c.toNat = false := by simp [isLowHalf]; omega
  have hunit : Piece.ofUnit c.toNat = .char c := by simp [Piece.ofUnit, hhigh, hlow]
  unfold addUnit
  split
  · simp [hlow, hunit]
  · rw [hunit]

/-- A character is scanned back from the way in which it stands in a text. -/
theorem scanText_escape (done : List Piece) (c : Char) (rest : List Char) :
    scanText done (escape c ++ rest) = scanText (.char c :: done) rest := by
  unfold escape
  -- The short escapes are closed terms.
  iterate 7
    split
    · subst_vars
      rfl
  split
  · rename_i hc
    obtain ⟨a, b, d, e, hhex, hunit⟩ := hexUnit?_hex4 c.toNat hc
    rw [hhex, ← addUnit_control done hc]
    simp [scanText, hunit]
  · simp [scanText, *]

theorem scanText_chars (done : List Piece) (cs : List Char) (rest : List Char) :
    scanText done ((cs.map Piece.char).flatMap Piece.written ++ '"' :: rest) =
      some (done.reverse ++ cs.map .char, rest) := by
  induction cs generalizing done with
  | nil => simp [scanText]
  | cons c cs ih =>
    rw [List.map_cons, List.flatMap_cons, List.append_assoc, Piece.written, scanText_escape, ih]
    simp

/-! ## Integers -/

theorem isDigit_eq (c : Char) : isDigit c = c.isDigit := rfl

/-- What follows does not go on with a number. -/
def EndsNumber (rest : List Char) : Prop :=
  ∀ c ∈ rest.head?, c.isDigit = false ∧ c ≠ '.' ∧ c ≠ 'e' ∧ c ≠ 'E'

theorem EndsNumber.stops {rest : List Char} (h : EndsNumber rest) : Stops Char.isDigit rest :=
  fun c hc => (h c hc).1

theorem scanWhole_numeral (n : Nat) {rest : List Char} (hrest : Stops Char.isDigit rest) :
    scanWhole (numeral n ++ rest) = some (numeral n, rest) := by
  by_cases hzero : n = 0
  · subst hzero
    rfl
  · have hfirst := head?_numeral_ne_zero hzero
    have hdigits : scanDigits (numeral n ++ rest) = some (numeral n, rest) := by
      have htake := takeWhile_span (fun c hc => isDigit_of_mem_numeral (n := n) hc) hrest
      have hdrop := dropWhile_span (fun c hc => isDigit_of_mem_numeral (n := n) hc) hrest
      simp only [scanDigits, funext isDigit_eq, htake, hdrop]
      exact if_neg Nat.toDigits_ne_nil
    rw [← hdigits]
    obtain ⟨c, cs, hcs, -⟩ := exists_numeral_eq_cons n
    rw [hcs] at hfirst ⊢
    unfold scanWhole
    split
    · simp_all
    · rfl

/-- A number without fraction and exponent is scanned back. -/
theorem scanNumeral_numeral (negative : Bool) (n : Nat) {rest : List Char}
    (hrest : EndsNumber rest) :
    scanNumeral negative (numeral n ++ rest) =
      some ({ negative, whole := numeral n, fraction := [], exponent := none }, rest) := by
  have hfraction : scanFraction rest = some ([], rest) := by
    unfold scanFraction
    split
    · exact absurd rfl (hrest '.' rfl).2.1
    · rfl
  have hexponent : scanExponent rest = some (none, rest) := by
    cases rest with
    | nil => rfl
    | cons c cs =>
      obtain ⟨-, -, he, hE⟩ := hrest c rfl
      simp [scanExponent, he, hE]
  simp [scanNumeral, scanWhole_numeral n hrest.stops, hfraction, hexponent]

theorem ofDigits_numeral (n : Nat) : Numeral.ofDigits (numeral n) = n := by
  have hvalue := Nat.ofDigitChars_ten_toDigits (n := n)
  rwa [Nat.ofDigitChars_eq_foldl] at hvalue

/-- The integers that are read as such. -/
def Fits (i : Int) : Prop := Int64.minValue.toInt ≤ i ∧ i < UInt64.size

theorem token_numeral {i : Int} (h : Fits i) :
    Numeral.token ⟨decide (i < 0), numeral i.natAbs, [], none⟩ = .integer i := by
  obtain ⟨hlow, hhigh⟩ := h
  simp only [Numeral.token, ofDigits_numeral, List.isEmpty_nil, Option.isNone_none, Bool.and_self,
    if_true]
  by_cases hneg : i < 0
  · have habs : -(i.natAbs : Int) = i := by omega
    have hpos : 0 < i.natAbs := by omega
    rw [if_pos (decide_eq_true hneg), habs,
      if_pos (Bool.and_eq_true_iff.mpr ⟨decide_eq_true hpos, decide_eq_true hlow⟩)]
  · have habs : (i.natAbs : Int) = i := by omega
    have hlt : i.natAbs < UInt64.size := by omega
    simp [hneg, habs, hlt]

theorem scanToken_digit {c : Char} (hc : c.isDigit = true) (cs : List Char) :
    scanToken c cs = (scanNumeral false (c :: cs)).map fun (n, rest) => (n.token, rest) := by
  unfold scanToken
  split <;> first | rfl | exact absurd hc (by decide)

theorem isBlank_digit {c : Char} (hc : c.isDigit = true) : isBlank c = false := by
  simp only [isBlank, Bool.or_eq_false_iff, decide_eq_false_iff_not]
  refine ⟨⟨⟨?_, ?_⟩, ?_⟩, ?_⟩ <;> rintro rfl <;> exact absurd hc (by decide)

/-- An integer of 64 bits is scanned back. -/
theorem scanToken_writtenInt {i : Int} (h : Fits i) {rest : List Char} (hrest : EndsNumber rest) :
    ∃ c cs, writtenInt i ++ rest = c :: cs ∧ isBlank c = false ∧
      scanToken c cs = some (.integer i, rest) := by
  have htoken := token_numeral h
  unfold writtenInt
  rw [toList_repr]
  by_cases hneg : i < 0
  · refine ⟨'-', numeral i.natAbs ++ rest, by simp [hneg], by decide, ?_⟩
    simp only [hneg, decide_true] at htoken
    simp [scanToken, scanNumeral_numeral true i.natAbs hrest, htoken]
  · obtain ⟨c, cs, hcs, hdigit⟩ := exists_numeral_eq_cons i.natAbs
    have hscan := scanNumeral_numeral false i.natAbs hrest
    rw [hcs, List.cons_append] at hscan
    simp only [hneg, decide_false, hcs] at htoken
    refine ⟨c, cs ++ rest, by simp [hneg, hcs], isBlank_digit hdigit, ?_⟩
    rw [scanToken_digit hdigit, hscan, Option.map_some]
    exact congrArg (fun t => some (t, rest)) htoken

/-! ## Scanning values -/

/-- A token that the scanner finds is put in front of those done. -/
theorem scanFrom_cons {done : List Token} {c : Char} {cs rest : List Char} {t : Token}
    (hblank : isBlank c = false) (h : scanToken c cs = some (t, rest)) :
    scanFrom done (c :: cs) = scanFrom (t :: done) rest := by
  rw [scanFrom, if_neg (by simp [hblank])]
  split
  · simp_all
  · simp_all

namespace Value

mutual

/-- The value reads back: its numbers are integers of 64 bits and its texts are strings. -/
def Plain : Value → Prop
  | null | bool _ => True
  | integer i => Fits i
  | real _ => False
  | text t => ∃ s, t = Text.ofString s
  | array items => AllPlain items
  | object fields => FieldsPlain fields

/-- Every item reads back. -/
def AllPlain : List Value → Prop
  | [] => True
  | item :: rest => item.Plain ∧ AllPlain rest

/-- Every name is a string and every value reads back. -/
def FieldsPlain : List (Text × Value) → Prop
  | [] => True
  | (name, value) :: rest => (∃ s, name = Text.ofString s) ∧ value.Plain ∧ FieldsPlain rest

end

end Value

@[simp] theorem Value.plain_string (s : String) : (Value.string s).Plain := ⟨s, rfl⟩

@[simp] theorem Value.plain_null : Value.null.Plain := trivial

@[simp] theorem Value.plain_bool (b : Bool) : (Value.bool b).Plain := trivial

@[simp] theorem Value.plain_integer_iff {i : Int} : (Value.integer i).Plain ↔ Fits i := Iff.rfl

@[simp] theorem Value.plain_array_iff {items : List Value} :
    (Value.array items).Plain ↔ ∀ item ∈ items, item.Plain := by
  show AllPlain items ↔ _
  induction items with
  | nil => simp [AllPlain]
  | cons item items ih => rw [AllPlain, ih, List.forall_mem_cons]

@[simp] theorem Value.plain_record_iff {fields : List (String × Value)} :
    (Value.record fields).Plain ↔ ∀ f ∈ fields, f.2.Plain := by
  rw [record, Plain]
  induction fields with
  | nil => simp [FieldsPlain]
  | cons field fields ih =>
    rw [List.map_cons, FieldsPlain, ih, List.forall_mem_cons]
    exact and_iff_right ⟨field.1, rfl⟩

@[simp] theorem fits_int32 (value : Int32) : Fits value.toInt := by
  have hlow := value.minValue_le_toInt
  have hhigh := value.toInt_le
  constructor
  · exact Int.le_trans (by decide) hlow
  · exact Int.lt_of_le_of_lt hhigh (by decide)

theorem fits_natCast {n : Nat} (h : n < UInt64.size) : Fits n := by
  constructor
  · exact Int.le_trans (by decide) (Int.natCast_nonneg n)
  · exact Int.ofNat_lt.mpr h

@[simp] theorem fits_uint64 (args : UInt64) : Fits args.toNat := fits_natCast args.toNat_lt_size

@[simp] theorem fits_uint32 (slot : UInt32) : Fits slot.toNat :=
  fits_natCast (Nat.lt_trans slot.toNat_lt_size (by decide))

/-- The token reads back: it is an integer of 64 bits, a text that is a string, or a fixed one. -/
def Token.Plain : Token → Prop
  | .integer i => Fits i
  | .real _ => False
  | .text t => ∃ s, t = Text.ofString s
  | _ => True

/-- A token is scanned back, an integer if what follows does not go on with it. -/
theorem scanFrom_written {t : Token} (ht : t.Plain) {rest : List Char}
    (hrest : ∀ i, t = .integer i → EndsNumber rest) (done : List Token) :
    scanFrom done (t.written ++ rest) = scanFrom (t :: done) rest := by
  cases t with
  | integer i =>
    obtain ⟨c, cs, hcs, hblank, hscan⟩ := scanToken_writtenInt ht (hrest i rfl)
    rw [Token.written, hcs, scanFrom_cons hblank hscan]
  | real n => exact ht.elim
  | text t =>
    obtain ⟨s, rfl⟩ := ht
    have hscan : scanToken '"' ((Text.ofString s).flatMap Piece.written ++ '"' :: rest) =
        some (.text (Text.ofString s), rest) := by
      simp [scanToken, Text.ofString, scanText_chars]
    simp only [Token.written, List.cons_append, List.append_assoc, List.nil_append]
    exact scanFrom_cons rfl hscan
  | bool b => cases b <;> exact scanFrom_cons rfl rfl
  | _ => exact scanFrom_cons rfl rfl

/-- Some tokens as they are written. -/
def written (ts : List Token) : List Char := ts.flatMap Token.written

/-- The text is scanned into those tokens, whatever was scanned before. -/
def Scans (cs : List Char) (ts : List Token) : Prop :=
  ∀ done, scanFrom done cs = some (done.reverse ++ ts)

theorem scans_nil : Scans [] [] := fun done => by
  rw [List.append_nil]
  exact scanFrom.eq_1 done

namespace Scans

variable {cs : List Char} {ts : List Token} {t : Token}

/-- A token is scanned, an integer if what follows does not go on with it. -/
theorem token (h : Scans cs ts) (ht : t.Plain) (hends : ∀ i, t = .integer i → EndsNumber cs) :
    Scans (t.written ++ cs) (t :: ts) := fun done => by
  rw [scanFrom_written ht hends, h, List.reverse_cons, List.append_assoc]
  rfl

/-- A token that is no integer is scanned, whatever follows. -/
theorem fixed (h : Scans cs ts) (ht : t.Plain) (hfixed : ∀ i, t ≠ .integer i) :
    Scans (t.written ++ cs) (t :: ts) :=
  h.token ht fun i hi => absurd hi (hfixed i)

end Scans

theorem endsNumber_of_fixed {rest : List Char} {c : Char} (hc : c = ',' ∨ c = ']' ∨ c = '\x7d') :
    EndsNumber (c :: rest) := by
  intro d hd
  obtain rfl := Option.some.inj hd
  rcases hc with rfl | rfl | rfl <;> decide

/-! ### The tokens of a value -/

@[simp] theorem written_nil : written [] = [] := rfl

@[simp] theorem written_cons (t : Token) (ts : List Token) :
    written (t :: ts) = t.written ++ written ts := rfl

@[simp] theorem written_append (ts us : List Token) :
    written (ts ++ us) = written ts ++ written us := List.flatMap_append

namespace Value

variable {cs : List Char}

theorem endsNumber_laterItems (items : List Value) (h : EndsNumber cs) :
    EndsNumber (written (laterItemTokens items) ++ cs) := by
  cases items with
  | nil => exact h
  | cons item items => exact endsNumber_of_fixed (Or.inl rfl)

theorem endsNumber_laterFields (fields : List (Text × Value)) (h : EndsNumber cs) :
    EndsNumber (written (laterFieldTokens fields) ++ cs) := by
  cases fields with
  | nil => exact h
  | cons field fields => exact endsNumber_of_fixed (Or.inl rfl)

mutual

/-- The tokens of a value are scanned back, if what follows ends a number. -/
theorem scans_tokens : (v : Value) → v.Plain → ∀ {cs : List Char} {ts : List Token},
    Scans cs ts → EndsNumber cs → Scans (written v.tokens ++ cs) (v.tokens ++ ts)
  | null, _, _, _, h, _ => h.fixed (t := .null) trivial nofun
  | bool b, _, _, _, h, _ => by
    simpa [tokens] using h.fixed (t := .bool b) trivial nofun
  | integer i, hv, _, _, h, hends => by
    simpa [tokens] using h.token (t := .integer i) hv fun _ _ => hends
  | real _, hv, _, _, _, _ => hv.elim
  | text t, hv, _, _, h, _ => by
    simpa [tokens] using h.fixed (t := .text t) hv nofun
  | array items, hv, _, _, h, _ => by
    have hclose := h.fixed (t := .closeArray) trivial nofun
    have hitems := scans_itemTokens items hv hclose (endsNumber_of_fixed (Or.inr (Or.inl rfl)))
    have hopen := hitems.fixed (t := .openArray) trivial nofun
    simpa [tokens] using hopen
  | object fields, hv, _, _, h, _ => by
    have hclose := h.fixed (t := .closeObject) trivial nofun
    have hfields := scans_fieldTokens fields hv hclose (endsNumber_of_fixed (Or.inr (Or.inr rfl)))
    have hopen := hfields.fixed (t := .openObject) trivial nofun
    simpa [tokens] using hopen

theorem scans_itemTokens : (items : List Value) → AllPlain items → ∀ {cs : List Char}
    {ts : List Token}, Scans cs ts → EndsNumber cs →
      Scans (written (itemTokens items) ++ cs) (itemTokens items ++ ts)
  | [], _, _, _, h, _ => h
  | item :: items, hv, _, _, h, hends => by
    have hitems := scans_laterItemTokens items hv.2 h hends
    have hitem := scans_tokens item hv.1 hitems (endsNumber_laterItems items hends)
    simpa [itemTokens] using hitem

theorem scans_laterItemTokens : (items : List Value) → AllPlain items → ∀ {cs : List Char}
    {ts : List Token}, Scans cs ts → EndsNumber cs →
      Scans (written (laterItemTokens items) ++ cs) (laterItemTokens items ++ ts)
  | [], _, _, _, h, _ => h
  | item :: items, hv, _, _, h, hends => by
    have hitems := scans_laterItemTokens items hv.2 h hends
    have hitem := scans_tokens item hv.1 hitems (endsNumber_laterItems items hends)
    have hcomma := hitem.fixed (t := .comma) trivial nofun
    simpa [laterItemTokens] using hcomma

theorem scans_fieldTokens : (fields : List (Text × Value)) → FieldsPlain fields →
    ∀ {cs : List Char} {ts : List Token}, Scans cs ts → EndsNumber cs →
      Scans (written (fieldTokens fields) ++ cs) (fieldTokens fields ++ ts)
  | [], _, _, _, h, _ => h
  | (name, value) :: fields, hv, _, _, h, hends => by
    obtain ⟨hname, hvalue, hrest⟩ := hv
    have hfields := scans_laterFieldTokens fields hrest h hends
    have hval := scans_tokens value hvalue hfields (endsNumber_laterFields fields hends)
    have hcolon := hval.fixed (t := .colon) trivial nofun
    have hfield := hcolon.fixed (t := .text name) hname nofun
    simpa [fieldTokens] using hfield

theorem scans_laterFieldTokens : (fields : List (Text × Value)) → FieldsPlain fields →
    ∀ {cs : List Char} {ts : List Token}, Scans cs ts → EndsNumber cs →
      Scans (written (laterFieldTokens fields) ++ cs) (laterFieldTokens fields ++ ts)
  | [], _, _, _, h, _ => h
  | (name, value) :: fields, hv, _, _, h, hends => by
    obtain ⟨hname, hvalue, hrest⟩ := hv
    have hfields := scans_laterFieldTokens fields hrest h hends
    have hval := scans_tokens value hvalue hfields (endsNumber_laterFields fields hends)
    have hcolon := hval.fixed (t := .colon) trivial nofun
    have hfield := hcolon.fixed (t := .text name) hname nofun
    have hcomma := hfield.fixed (t := .comma) trivial nofun
    simpa [laterFieldTokens] using hcomma

end

/-- The compact form of a plain value is scanned into its tokens. -/
theorem scan_compact {v : Value} (hv : v.Plain) : scan v.compact = some v.tokens := by
  have hall := scans_tokens v hv scans_nil (by intro c hc; cases hc)
  rw [List.append_nil, List.append_nil] at hall
  rw [scan, compact, String.toList_ofList]
  exact hall []

end Value

/-! ## Putting the tokens together -/

namespace Reading

/-- The first token of a value does not close an array. -/
theorem run_firstItem (frames : List Frame) (v : Value) (ts : List Token) :
    run ⟨frames, .firstItem⟩ (v.tokens ++ ts) = run ⟨frames, .value⟩ (v.tokens ++ ts) := by
  cases v <;> rfl

mutual

/-- The tokens of a value are read as the value, whatever is open around it. -/
theorem run_tokens : (v : Value) → ∀ (frames : List Frame) (ts : List Token),
    run ⟨frames, .value⟩ (v.tokens ++ ts) = (supply frames v).bind (·.run ts)
  | .null, _, _ => rfl
  | .bool _, _, _ => rfl
  | .integer _, _, _ => rfl
  | .real _, _, _ => rfl
  | .text _, _, _ => rfl
  | .array items, frames, ts => by
    simp only [Value.tokens, List.cons_append, List.append_assoc, List.nil_append]
    exact run_itemTokens items frames ts
  | .object fields, frames, ts => by
    simp only [Value.tokens, List.cons_append, List.append_assoc, List.nil_append]
    exact run_fieldTokens fields frames ts

theorem run_itemTokens : (items : List Value) → ∀ (frames : List Frame) (ts : List Token),
    run ⟨.array [] :: frames, .firstItem⟩ (Value.itemTokens items ++ .closeArray :: ts) =
      (supply frames (.array items)).bind (·.run ts)
  | [], _, _ => rfl
  | item :: items, frames, ts => by
    rw [Value.itemTokens, List.append_assoc, run_firstItem, run_tokens item]
    exact run_laterItemTokens items frames [item] ts

theorem run_laterItemTokens : (items : List Value) → ∀ (frames : List Frame) (done : List Value)
    (ts : List Token),
    run ⟨.array done :: frames, .separator⟩ (Value.laterItemTokens items ++ .closeArray :: ts) =
      (supply frames (.array (done.reverse ++ items))).bind (·.run ts)
  | [], frames, done, ts => by
    rw [List.append_nil]
    rfl
  | item :: items, frames, done, ts => by
    simp only [Value.laterItemTokens, List.cons_append, List.append_assoc]
    show run ⟨.array done :: frames, .value⟩ (item.tokens ++ _) = _
    rw [run_tokens item]
    show run ⟨.array (item :: done) :: frames, .separator⟩ _ = _
    rw [run_laterItemTokens items, List.reverse_cons, List.append_assoc]
    rfl

theorem run_fieldTokens : (fields : List (Text × Value)) → ∀ (frames : List Frame)
    (ts : List Token),
    run ⟨.object [] :: frames, .firstName⟩ (Value.fieldTokens fields ++ .closeObject :: ts) =
      (supply frames (.object fields)).bind (·.run ts)
  | [], _, _ => rfl
  | (name, value) :: fields, frames, ts => by
    simp only [Value.fieldTokens, List.cons_append, List.append_assoc]
    show run ⟨.field [] name :: frames, .value⟩ (value.tokens ++ _) = _
    rw [run_tokens value]
    exact run_laterFieldTokens fields frames [(name, value)] ts

theorem run_laterFieldTokens : (fields : List (Text × Value)) → ∀ (frames : List Frame)
    (done : List (Text × Value)) (ts : List Token),
    run ⟨.object done :: frames, .separator⟩ (Value.laterFieldTokens fields ++ .closeObject :: ts) =
      (supply frames (.object (done.reverse ++ fields))).bind (·.run ts)
  | [], frames, done, ts => by
    rw [List.append_nil]
    rfl
  | (name, value) :: fields, frames, done, ts => by
    simp only [Value.laterFieldTokens, List.cons_append, List.append_assoc]
    show run ⟨.field done name :: frames, .value⟩ (value.tokens ++ _) = _
    rw [run_tokens value]
    show run ⟨.object ((name, value) :: done) :: frames, .separator⟩ _ = _
    rw [run_laterFieldTokens fields, List.reverse_cons, List.append_assoc]
    rfl

end

end Reading

/-- The tokens of a value make up the value. -/
theorem readTokens_tokens (v : Value) : readTokens v.tokens = some v := by
  have hrun := Reading.run_tokens v [] []
  rw [List.append_nil] at hrun
  rw [readTokens, Reading.start, hrun]
  rfl

/-- The compact form of a plain value reads back as the value. -/
theorem read_compact {v : Value} (hv : v.Plain) : read v.compact = some v := by
  rw [read, Value.scan_compact hv, Option.bind_some, readTokens_tokens]

end StackTree.Json
