import StackTree.Proofs.Spans
import StackTree.Proofs.Text.Pieces
import StackTree.Proofs.Ownership.Reach

/-!
# Texts are unambiguous

Two live nodes with the same text have the same tree under them, up to the names of the nodes and
the value flags of calls, which the text does not show. The nodes may be of different routines. What
is needed is that no method that is called has an opening parenthesis in its name; commas, blanks
and closing parentheses do no harm.

A text is read from the left. The name of the operation is the longest span of letters, digits and
points, a number the longest span of digits, and the name of a method ends at the first opening
parenthesis. So the heading of a node can be told from the text together with what follows it, which
is a parenthesis, a comma, or the end. Then the operands can: the first of them starts with a
letter, the later ones with a comma, and what follows the last is a closing parenthesis.

## Main definitions

* `Term.Legible`: no name of a method in the term has an opening parenthesis.

## Main results

* `Kind.heading_append_inj`: the heading of a node can be told from the text.
* `Term.chars_append_inj`: the term and what follows it can be told from the text.
* `Routine.Reachable.render_unambiguous`: texts are unambiguous.
-/

namespace StackTree

open Spans
open Term (unflagged unflag unflagAll separated continued)

/-! ## What follows a heading -/

/-- What may follow the heading of a node. -/
def Follows (rest : List Char) : Prop := ∀ c ∈ rest.head?, c = '(' ∨ c = ',' ∨ c = ')'

/-- What may follow the whole text of a node. -/
def Ends (rest : List Char) : Prop := ∀ c ∈ rest.head?, c = ',' ∨ c = ')'

theorem follows_cons {c : Char} (rest : List Char) (h : c = '(' ∨ c = ',' ∨ c = ')') :
    Follows (c :: rest) := by
  intro d hd
  obtain rfl := Option.some.inj hd
  exact h

theorem ends_cons {c : Char} (rest : List Char) (h : c = ',' ∨ c = ')') : Ends (c :: rest) := by
  intro d hd
  obtain rfl := Option.some.inj hd
  exact h

theorem Ends.follows {rest : List Char} (h : Ends rest) : Follows rest :=
  fun c hc => Or.inr (h c hc)

theorem Ends.ne_open {rest cs : List Char} (h : Ends rest) : rest ≠ '(' :: cs := by
  rintro rfl
  rcases h '(' rfl with h | h <;> cases h

theorem Follows.stops {p : Char → Bool} {rest : List Char} (h : Follows rest)
    (hopen : p '(' = false) (hcomma : p ',' = false) (hclose : p ')' = false) : Stops p rest := by
  intro c hc
  rcases h c hc with rfl | rfl | rfl
  · exact hopen
  · exact hcomma
  · exact hclose

theorem Follows.stops_digits {rest : List Char} (h : Follows rest) : Stops Char.isDigit rest :=
  h.stops (by decide) (by decide) (by decide)

/-! ## Numbers with a sign -/

/-- The characters of an integer. -/
def signed (i : Int) : List Char :=
  if i < 0 then '-' :: numeral i.natAbs else numeral i.natAbs

theorem flatMap_integerPieces (i : Int) : (integerPieces i).flatMap String.toList = signed i := by
  unfold integerPieces signed
  split <;> simp

theorem minus_ne_numeral (n : Nat) (cs rest : List Char) : '-' :: cs ≠ numeral n ++ rest := by
  intro h
  obtain ⟨c, ds, hds, hdigit⟩ := exists_numeral_eq_cons n
  rw [hds] at h
  obtain ⟨rfl, -⟩ := List.cons.inj h
  exact absurd hdigit (by decide)

/-- An integer and what follows it can be told from the text. -/
theorem signed_append_inj {i j : Int} {rest rest' : List Char} (hrest : Stops Char.isDigit rest)
    (hrest' : Stops Char.isDigit rest') (h : signed i ++ rest = signed j ++ rest') :
    i = j ∧ rest = rest' := by
  unfold signed at h
  by_cases hi : i < 0 <;> by_cases hj : j < 0
  · rw [if_pos hi, if_pos hj] at h
    obtain ⟨habs, hsame⟩ := numeral_append_inj hrest hrest' (List.cons.inj h).2
    exact ⟨by omega, hsame⟩
  · rw [if_pos hi, if_neg hj] at h
    exact absurd h (minus_ne_numeral _ _ _)
  · rw [if_neg hi, if_pos hj] at h
    exact absurd h.symm (minus_ne_numeral _ _ _)
  · rw [if_neg hi, if_neg hj] at h
    obtain ⟨habs, hsame⟩ := numeral_append_inj hrest hrest' h
    exact ⟨by omega, hsame⟩

/-! ## Headings -/

/-- The characters of names of operations. -/
def isNameChar (c : Char) : Bool := c.isLower || c.isDigit || c == '.'

namespace Kind

/-- The kinds are of the same operation, with the same operator. -/
inductive Alike : Kind → Kind → Prop where
  | const (a b : Int32) : Alike (.const a) (.const b)
  | load (a b : UInt32) : Alike (.load a) (.load b)
  | pop : Alike .pop .pop
  | peek : Alike .peek .peek
  | unary (op : UnaryOp) : Alike (.unary op) (.unary op)
  | binary (op : BinaryOp) : Alike (.binary op) (.binary op)
  | store (a b : UInt32) : Alike (.store a) (.store b)
  | call (f g : String) (a b : Bool) : Alike (.call f a) (.call g b)
  | ret : Alike .ret .ret

/-- A name is that of a unary operator only if the kind is. -/
theorem unaryOp_ofName_name (k : Kind) :
    UnaryOp.ofName? k.name = match k with | .unary op => some op | _ => none := by
  cases k with
  | unary op => exact op.ofName_name
  | binary op => cases op <;> rfl
  | _ => rfl

/-- A name is that of a binary operator only if the kind is. -/
theorem binaryOp_ofName_name (k : Kind) :
    BinaryOp.ofName? k.name = match k with | .binary op => some op | _ => none := by
  cases k with
  | unary op => cases op <;> rfl
  | binary op => exact op.ofName_name
  | _ => rfl

/-- No two operations share a name. -/
theorem alike_of_name_eq {k l : Kind} (h : k.name = l.name) : k.Alike l := by
  have hunary := congrArg UnaryOp.ofName? h
  have hbinary := congrArg BinaryOp.ofName? h
  rw [unaryOp_ofName_name, unaryOp_ofName_name] at hunary
  rw [binaryOp_ofName_name, binaryOp_ofName_name] at hbinary
  cases k <;> cases l <;> simp_all [name] <;> constructor

theorem name_all (k : Kind) : ∀ c ∈ k.name.toList, isNameChar c = true := by
  rw [← List.all_eq_true]
  cases k with
  | unary op => cases op <;> decide
  | binary op => cases op <;> decide
  | _ => simp only [name]; decide

theorem name_ne_nil (k : Kind) : k.name.toList ≠ [] := by
  cases k with
  | unary op => cases op <;> decide
  | binary op => cases op <;> decide
  | _ => simp only [name]; decide

/-- What the heading says after the name. -/
def detail : Kind → List Char
  | const value => ' ' :: signed value.toInt
  | load slot | store slot => ' ' :: 'V' :: '_' :: numeral slot.toNat
  | call method _ => ' ' :: method.toList
  | _ => []

theorem flatMap_heading (k : Kind) :
    k.heading.flatMap String.toList = k.name.toList ++ k.detail := by
  cases k <;> simp [heading, detail, flatMap_integerPieces, localName]

/-- A method name without an opening parenthesis, so that the text shows where it ends. -/
def Legible : Kind → Prop
  | call method _ => '(' ∉ method.toList
  | _ => True

/-- The text may follow the heading of the node: a call has parentheses after its heading. -/
def Precedes (k : Kind) (rest : List Char) : Prop :=
  Follows rest ∧ ∀ method flag, k = .call method flag → rest.head? = some '('

theorem stops_detail (k : Kind) {rest : List Char} (h : Follows rest) :
    Stops isNameChar (k.detail ++ rest) := by
  cases k with
  | pop | peek | unary _ | binary _ | ret => exact h.stops (by decide) (by decide) (by decide)
  | const _ | load _ | store _ | call _ _ => exact stops_cons (by decide)

/-- The name of a local variable and what follows it can be told from the text. -/
theorem localName_append_inj {a b : UInt32} {rest rest' : List Char} (hrest : Follows rest)
    (hrest' : Follows rest')
    (h : ' ' :: 'V' :: '_' :: numeral a.toNat ++ rest =
      ' ' :: 'V' :: '_' :: numeral b.toNat ++ rest') : a = b ∧ rest = rest' := by
  obtain ⟨hvalue, hsame⟩ := numeral_append_inj hrest.stops_digits hrest'.stops_digits
    (by simpa using h)
  exact ⟨UInt32.toNat_inj.mp hvalue, hsame⟩

/-- A method name and the parenthesis after it can be told from the text. -/
theorem method_append_inj {f g : String} {rest rest' : List Char} (hf : '(' ∉ f.toList)
    (hg : '(' ∉ g.toList) (hrest : rest.head? = some '(') (hrest' : rest'.head? = some '(')
    (h : f.toList ++ rest = g.toList ++ rest') : f = g ∧ rest = rest' := by
  have hinside {s : String} (hs : '(' ∉ s.toList) : ∀ c ∈ s.toList, (c != '(') = true := by
    intro c hc
    rw [bne_iff_ne]
    rintro rfl
    exact hs hc
  have hstops {cs : List Char} (hcs : cs.head? = some '(') : Stops (· != '(') cs := by
    intro c hc
    rw [hcs] at hc
    obtain rfl := Option.some.inj hc
    rfl
  obtain ⟨hname, hsame⟩ := span_append_inj (hinside hf) (hinside hg) (hstops hrest) (hstops hrest') h
  exact ⟨String.toList_injective hname, hsame⟩

/-- The heading of a node and what follows it can be told from the text. -/
theorem heading_append_inj {k l : Kind} {rest rest' : List Char} (hk : k.Legible) (hl : l.Legible)
    (hrest : k.Precedes rest) (hrest' : l.Precedes rest')
    (h : k.heading.flatMap String.toList ++ rest = l.heading.flatMap String.toList ++ rest') :
    unflagged k = unflagged l ∧ rest = rest' := by
  obtain ⟨hfollows, hopen⟩ := hrest
  obtain ⟨hfollows', hopen'⟩ := hrest'
  rw [flatMap_heading, flatMap_heading, List.append_assoc, List.append_assoc] at h
  obtain ⟨hname, h⟩ := span_append_inj k.name_all l.name_all (k.stops_detail hfollows)
    (l.stops_detail hfollows') h
  cases alike_of_name_eq (String.toList_injective hname) with
  | const a b =>
    obtain ⟨hvalue, hsame⟩ := signed_append_inj hfollows.stops_digits hfollows'.stops_digits
      (List.cons.inj h).2
    exact ⟨by rw [Int32.toInt_inj.mp hvalue], hsame⟩
  | load a b =>
    obtain ⟨rfl, hsame⟩ := localName_append_inj hfollows hfollows' h
    exact ⟨rfl, hsame⟩
  | store a b =>
    obtain ⟨rfl, hsame⟩ := localName_append_inj hfollows hfollows' h
    exact ⟨rfl, hsame⟩
  | call f g a b =>
    obtain ⟨rfl, hsame⟩ := method_append_inj hk hl (hopen f a rfl) (hopen' g b rfl)
      (List.cons.inj h).2
    exact ⟨rfl, hsame⟩
  | pop | peek | unary _ | binary _ | ret => exact ⟨rfl, h⟩

/-- A node without parentheses has no operands. -/
theorem operands_eq_zero {k : Kind} {operands : Nat} (h : k.accepts operands = true)
    (hbare : k.encloses operands = false) : operands = 0 := by
  cases k <;> simp_all [accepts, encloses]

end Kind

/-! ## Terms -/

namespace Term

mutual

/-- No method that is called has an opening parenthesis in its name. -/
def Legible : Term → Prop
  | node kind operands => kind.Legible ∧ AllLegible operands

/-- No method that is called in any of the terms has one. -/
def AllLegible : List Term → Prop
  | [] => True
  | term :: rest => term.Legible ∧ AllLegible rest

end

mutual

/-- Every node has as many operands as its kind takes. -/
def Accepted : Term → Prop
  | node kind operands => kind.accepts operands.length = true ∧ AllAccepted operands

/-- Every node of the terms has. -/
def AllAccepted : List Term → Prop
  | [] => True
  | term :: rest => term.Accepted ∧ AllAccepted rest

end

/-- The characters of the text. -/
def chars (t : Term) : List Char := t.pieces.flatMap String.toList

/-- The characters of operands with commas between them. -/
def separatedChars (ts : List Term) : List Char := (separated ts).flatMap String.toList

/-- The characters of further operands, each after a comma. -/
def continuedChars (ts : List Term) : List Char := (continued ts).flatMap String.toList

theorem toList_text (t : Term) : t.text.toList = t.chars := String.toList_join

/-- The characters after the heading of a node. -/
def operandChars (kind : Kind) (operands : List Term) : List Char :=
  if kind.encloses operands.length then '(' :: separatedChars operands ++ [')'] else []

theorem chars_node (kind : Kind) (operands : List Term) :
    (node kind operands).chars =
      kind.heading.flatMap String.toList ++ operandChars kind operands := by
  rw [chars, pieces, List.flatMap_append, operandChars]
  split <;> simp [separatedChars]

theorem separatedChars_cons (t : Term) (ts : List Term) :
    separatedChars (t :: ts) = t.chars ++ continuedChars ts := by
  rw [separatedChars, separated, List.flatMap_append, chars, continuedChars]

theorem continuedChars_cons (t : Term) (ts : List Term) :
    continuedChars (t :: ts) = ',' :: ' ' :: (t.chars ++ continuedChars ts) := by
  simp [continuedChars, continued, chars]

/-- The text of a node starts with a character of its name. -/
theorem exists_chars_eq_cons (t : Term) : ∃ c cs, t.chars = c :: cs ∧ isNameChar c = true := by
  obtain ⟨kind, operands⟩ := t
  obtain ⟨c, cs, hcs⟩ := List.exists_cons_of_ne_nil kind.name_ne_nil
  refine ⟨c, cs ++ kind.detail ++ operandChars kind operands, ?_, kind.name_all c (by simp [hcs])⟩
  rw [chars_node, Kind.flatMap_heading, hcs]
  simp

/-- A list of operands that is closed at once has none in it. -/
theorem close_ne_chars (t : Term) (cs rest : List Char) : ')' :: cs ≠ t.chars ++ rest := by
  intro h
  obtain ⟨c, ds, hds, hname⟩ := t.exists_chars_eq_cons
  rw [hds] at h
  obtain ⟨rfl, -⟩ := List.cons.inj h
  exact absurd hname (by decide)

theorem precedes_operandChars {kind : Kind} (operands : List Term) {rest : List Char}
    (h : Ends rest) : kind.Precedes (operandChars kind operands ++ rest) := by
  constructor
  · rw [operandChars]
    split
    · exact follows_cons _ (Or.inl rfl)
    · exact h.follows
  · rintro method flag rfl
    rfl

theorem ends_continuedChars (ts : List Term) (rest : List Char) :
    Ends (continuedChars ts ++ ')' :: rest) := by
  cases ts with
  | nil => exact ends_cons _ (Or.inr rfl)
  | cons t ts =>
    rw [continuedChars_cons]
    exact ends_cons _ (Or.inl rfl)

mutual

/-- A term and what follows it can be told from the text, up to the value flags of calls. -/
theorem chars_append_inj : (t u : Term) → t.Legible → u.Legible → t.Accepted → u.Accepted →
    ∀ xs ys : List Char, Ends xs → Ends ys → t.chars ++ xs = u.chars ++ ys →
      t.unflag = u.unflag ∧ xs = ys
  | node k ts, node l us, ht, hu, hat, hau, xs, ys, hxs, hys, h => by
    rw [chars_node, chars_node, List.append_assoc, List.append_assoc] at h
    obtain ⟨hkind, h⟩ := Kind.heading_append_inj ht.1 hu.1 (precedes_operandChars ts hxs)
      (precedes_operandChars us hys) h
    rw [unflag, unflag, hkind]
    unfold operandChars at h
    split at h <;> split at h
    · obtain ⟨hoperands, hsame⟩ := separatedChars_append_inj ts us ht.2 hu.2 hat.2 hau.2 xs ys
        (by simpa using h)
      exact ⟨by rw [hoperands], hsame⟩
    · exact absurd h.symm hys.ne_open
    · exact absurd h hxs.ne_open
    · rename_i hk hl
      have hts := List.length_eq_zero_iff.mp (Kind.operands_eq_zero hat.1 (eq_false_of_ne_true hk))
      have hus := List.length_eq_zero_iff.mp (Kind.operands_eq_zero hau.1 (eq_false_of_ne_true hl))
      exact ⟨by rw [hts, hus], h⟩

theorem separatedChars_append_inj : (ts us : List Term) → AllLegible ts → AllLegible us →
    AllAccepted ts → AllAccepted us → ∀ xs ys : List Char,
      separatedChars ts ++ ')' :: xs = separatedChars us ++ ')' :: ys →
        unflagAll ts = unflagAll us ∧ xs = ys
  | [], [], _, _, _, _, _, _, h => ⟨rfl, (List.cons.inj h).2⟩
  | [], u :: us, _, _, _, _, xs, ys, h => by
    rw [separatedChars_cons, List.append_assoc] at h
    exact absurd h (close_ne_chars u _ _)
  | t :: ts, [], _, _, _, _, xs, ys, h => by
    rw [separatedChars_cons, List.append_assoc] at h
    exact absurd h.symm (close_ne_chars t _ _)
  | t :: ts, u :: us, ht, hu, hat, hau, xs, ys, h => by
    rw [separatedChars_cons, separatedChars_cons, List.append_assoc, List.append_assoc] at h
    obtain ⟨hfirst, h⟩ := chars_append_inj t u ht.1 hu.1 hat.1 hau.1 _ _
      (ends_continuedChars ts xs) (ends_continuedChars us ys) h
    obtain ⟨hrest, hsame⟩ := continuedChars_append_inj ts us ht.2 hu.2 hat.2 hau.2 xs ys h
    exact ⟨by rw [unflagAll, unflagAll, hfirst, hrest], hsame⟩

theorem continuedChars_append_inj : (ts us : List Term) → AllLegible ts → AllLegible us →
    AllAccepted ts → AllAccepted us → ∀ xs ys : List Char,
      continuedChars ts ++ ')' :: xs = continuedChars us ++ ')' :: ys →
        unflagAll ts = unflagAll us ∧ xs = ys
  | [], [], _, _, _, _, _, _, h => ⟨rfl, (List.cons.inj h).2⟩
  | [], u :: us, _, _, _, _, xs, ys, h => by
    rw [continuedChars_cons] at h
    cases (List.cons.inj h).1
  | t :: ts, [], _, _, _, _, xs, ys, h => by
    rw [continuedChars_cons] at h
    cases (List.cons.inj h).1
  | t :: ts, u :: us, ht, hu, hat, hau, xs, ys, h => by
    rw [continuedChars_cons, continuedChars_cons] at h
    obtain ⟨hfirst, h⟩ := chars_append_inj t u ht.1 hu.1 hat.1 hau.1 _ _
      (ends_continuedChars ts xs) (ends_continuedChars us ys) (by simpa using h)
    obtain ⟨hrest, hsame⟩ := continuedChars_append_inj ts us ht.2 hu.2 hat.2 hau.2 xs ys h
    exact ⟨by rw [unflagAll, unflagAll, hfirst, hrest], hsame⟩

end

/-- Legible terms with the same text are the same, up to the value flags of calls. -/
theorem unflag_eq_of_text_eq {t u : Term} (ht : t.Legible) (hu : u.Legible) (hat : t.Accepted)
    (hau : u.Accepted) (h : t.text = u.text) : t.unflag = u.unflag := by
  have hchars : t.chars ++ [] = u.chars ++ [] := by
    rw [← toList_text, ← toList_text, h]
  have hend : Ends [] := fun c hc => by cases hc
  exact (chars_append_inj t u ht hu hat hau [] [] hend hend hchars).1

/-! ### The text does not show the value flags of calls -/

theorem length_unflagAll (ts : List Term) : (unflagAll ts).length = ts.length := by
  induction ts with
  | nil => rfl
  | cons t ts ih => rw [unflagAll, List.length_cons, ih, List.length_cons]

theorem heading_unflagged (k : Kind) : (unflagged k).heading = k.heading := by
  cases k <;> rfl

theorem encloses_unflagged (operands : Nat) (k : Kind) :
    (unflagged k).encloses operands = k.encloses operands := by
  cases k <;> rfl

mutual

theorem pieces_unflag : (t : Term) → t.unflag.pieces = t.pieces
  | node kind operands => by
    rw [unflag, pieces, pieces, heading_unflagged, encloses_unflagged, length_unflagAll,
      separated_unflagAll operands]

theorem separated_unflagAll : (ts : List Term) → separated (unflagAll ts) = separated ts
  | [] => rfl
  | t :: ts => by
    rw [unflagAll, separated, separated, pieces_unflag t, continued_unflagAll ts]

theorem continued_unflagAll : (ts : List Term) → continued (unflagAll ts) = continued ts
  | [] => rfl
  | t :: ts => by
    rw [unflagAll, continued, continued, pieces_unflag t, continued_unflagAll ts]

end

theorem text_eq_of_unflag_eq {t u : Term} (h : t.unflag = u.unflag) : t.text = u.text := by
  rw [text, text, ← pieces_unflag t, h, pieces_unflag u]

end Term

/-! ## Nodes of routines -/

namespace Routine

variable {r s : Routine}

mutual

theorem Sound.accepted_term (h : r.Sound) {n : NodeId} {t : Tree} (ht : r.Shows n t) :
    t.term.Accepted := by
  cases ht with
  | @node _ node ts at_n below =>
    refine ⟨?_, Sound.allAccepted_terms h below⟩
    rw [Tree.length_terms, ← below.length_eq]
    exact h.arity n node at_n

theorem Sound.allAccepted_terms (h : r.Sound) {ns : List NodeId} {ts : List Tree}
    (hts : r.ShowsAll ns ts) : Term.AllAccepted (Tree.terms ts) := by
  cases hts with
  | nil => trivial
  | cons head tail => exact ⟨Sound.accepted_term h head, Sound.allAccepted_terms h tail⟩

end

/-- **Texts are unambiguous.** Two live nodes of reachable routines both have a text. If no method
that is called under them has an opening parenthesis in its name, the texts are the same exactly if
the trees are: the same shape, the same operations with the same constants, locals and methods, and a
value where the other has one. Only the names of the nodes and the value flags of calls are not
shown. -/
theorem Reachable.render_unambiguous (hr : r.Reachable) (hs : s.Reachable) {n m : NodeId}
    (hn : r.isLive n = true) (hm : s.isLive m = true) :
    ∃ t u, r.tree n = .ok t ∧ s.tree m = .ok u ∧
      r.render n = .ok t.term.text ∧ s.render m = .ok u.term.text ∧
      (t.term.Legible → u.term.Legible →
        (r.render n = s.render m ↔ t.term.unflag = u.term.unflag)) := by
  have hr' := hr.sound.toStructured
  have hs' := hs.sound.toStructured
  obtain ⟨t, ht⟩ := hr'.exists_shows hn
  obtain ⟨u, hu⟩ := hs'.exists_shows hm
  refine ⟨t, u, hr'.tree_eq ht, hs'.tree_eq hu, hr'.render_eq ht, hs'.render_eq hu, ?_⟩
  intro hlegible hlegible'
  rw [hr'.render_eq ht, hs'.render_eq hu, Except.ok.injEq]
  constructor
  · exact Term.unflag_eq_of_text_eq hlegible hlegible' (hr.sound.accepted_term ht)
      (hs.sound.accepted_term hu)
  · exact Term.text_eq_of_unflag_eq

/-- Two returns of the same call, built in another order in another routine. The name of the method
has a closing parenthesis and a comma, and only one of the calls is said to leave a value. -/
theorem render_unambiguous_at_odd_name :
    let first : Edit Unit := do
      let a ← alloc (.const (-1)) []
      let b ← alloc .pop []
      let call ← alloc (.call "f), g" true) [a, b]
      let _ ← alloc .ret [call]
    let second : Edit Unit := do
      let b ← alloc .pop []
      let a ← alloc (.const (-1)) []
      let call ← alloc (.call "f), g" false) [a, b]
      let _ ← alloc .ret [call]
    let r := leftBy (first { name := "main" })
    let s := leftBy (second { name := "other" })
    r.Reachable ∧ s.Reachable ∧ r.isLive ⟨3⟩ = true ∧ s.isLive ⟨3⟩ = true ∧
      r.render ⟨3⟩ = .ok "ret(call f), g(ldc.i4 -1, pop))" ∧ r.render ⟨3⟩ = s.render ⟨3⟩ ∧
      ∃ t u, r.tree ⟨3⟩ = .ok t ∧ s.tree ⟨3⟩ = .ok u ∧ t.term.Legible ∧ u.term.Legible ∧
        t.term ≠ u.term ∧ t.term.unflag = u.term.unflag := by
  intro first second r s
  have hr : r.Reachable :=
    ⟨"main", Unit, first, .bind (.alloc _ _) fun _ => .bind (.alloc _ _) fun _ =>
      .bind (.alloc _ _) fun _ => .bind (.alloc _ _) fun _ => .pure _, rfl⟩
  have hs : s.Reachable :=
    ⟨"other", Unit, second, .bind (.alloc _ _) fun _ => .bind (.alloc _ _) fun _ =>
      .bind (.alloc _ _) fun _ => .bind (.alloc _ _) fun _ => .pure _, rfl⟩
  have hn : r.isLive ⟨3⟩ = true := by decide +kernel
  have hm : s.isLive ⟨3⟩ = true := by decide +kernel
  have htext : r.render ⟨3⟩ = .ok "ret(call f), g(ldc.i4 -1, pop))" := by decide +kernel
  have hsame : r.render ⟨3⟩ = s.render ⟨3⟩ := by decide +kernel
  obtain ⟨t, u, ht, hu, -, -, hiff⟩ := Reachable.render_unambiguous hr hs hn hm
  let term (flag : Bool) : Term :=
    .node .ret [.node (.call "f), g" flag) [.node (.const (-1)) [], .node .pop []]]
  have hterm : Tree.term <$> r.tree ⟨3⟩ = .ok (term true) := rfl
  have hterm' : Tree.term <$> s.tree ⟨3⟩ = .ok (term false) := rfl
  rw [ht] at hterm
  rw [hu] at hterm'
  have htrue : t.term = term true := Except.ok.inj hterm
  have hfalse : u.term = term false := Except.ok.inj hterm'
  have hlegible (flag : Bool) : (term flag).Legible := by
    simp [term, Term.Legible, Term.AllLegible, Kind.Legible]
  have hlegible_t : t.term.Legible := htrue ▸ hlegible true
  have hlegible_u : u.term.Legible := hfalse ▸ hlegible false
  have hne : t.term ≠ u.term := by
    rw [htrue, hfalse]
    simp [term]
  exact ⟨hr, hs, hn, hm, htext, hsame, t, u, ht, hu, hlegible_t, hlegible_u, hne,
    (hiff hlegible_t hlegible_u).mp hsame⟩

end Routine

end StackTree
