import StackTree.Proofs.Json.RoundTrip

/-!
# Reading back what was written in lines

The pretty form of a value holds the same tokens as the compact one, with line breaks, indentation
and a blank after each colon between them. Blanks between tokens do not matter to the scanner, so a
plain value reads back from its pretty form as well.

## Main results

* `Value.scan_pretty`: the pretty form is scanned into the tokens of the value.
* `read_pretty`: a plain value reads back from its pretty form, with a line break behind it or not.
-/

namespace StackTree.Json

variable {cs : List Char} {ts : List Token}

/-! ## Blanks -/

namespace Scans

/-- A blank does not matter. -/
theorem blank (h : Scans cs ts) {c : Char} (hc : isBlank c = true) : Scans (c :: cs) ts :=
  fun done => by rw [scanFrom, if_pos hc, h done]

theorem blanks (h : Scans cs ts) {bs : List Char} (hbs : ∀ b ∈ bs, isBlank b = true) :
    Scans (bs ++ cs) ts := by
  induction bs with
  | nil => exact h
  | cons b bs ih =>
    obtain ⟨hb, hbs⟩ := List.forall_mem_cons.mp hbs
    exact (ih hbs).blank hb

theorem newLine (h : Scans cs ts) (level : Nat) : Scans (Value.newLine level ++ cs) ts := by
  refine h.blanks fun b hb => ?_
  rcases List.mem_cons.mp hb with rfl | hspace
  · rfl
  · rw [(List.mem_replicate.mp hspace).2]
    rfl

end Scans

theorem endsNumber_newLine (level : Nat) (cs : List Char) :
    EndsNumber (Value.newLine level ++ cs) := by
  intro c hc
  obtain rfl := Option.some.inj hc
  decide

/-! ## The pretty form -/

namespace Value

theorem endsNumber_prettyItems (level : Nat) (items : List Value) (h : EndsNumber cs) :
    EndsNumber (prettyItems level items ++ cs) := by
  cases items with
  | nil => exact h
  | cons item items => exact endsNumber_of_fixed (Or.inl rfl)

theorem endsNumber_prettyFields (level : Nat) (fields : List (Text × Value))
    (h : EndsNumber cs) : EndsNumber (prettyFields level fields ++ cs) := by
  cases fields with
  | nil => exact h
  | cons field fields => exact endsNumber_of_fixed (Or.inl rfl)

mutual

/-- The pretty form of a value is scanned into its tokens, if what follows ends a number. -/
theorem scans_prettyAt : (v : Value) → v.Plain → ∀ (level : Nat) {cs : List Char}
    {ts : List Token}, Scans cs ts → EndsNumber cs → Scans (v.prettyAt level ++ cs) (v.tokens ++ ts)
  | null, _, _, _, _, h, _ => h.fixed (t := .null) trivial nofun
  | bool b, _, _, _, _, h, _ => h.fixed (t := .bool b) trivial nofun
  | integer i, hv, _, _, _, h, hends => h.token (t := .integer i) hv fun _ _ => hends
  | real _, hv, _, _, _, _, _ => hv.elim
  | text t, hv, _, _, _, h, _ => h.fixed (t := .text t) hv nofun
  | array [], _, _, _, _, h, _ =>
    (h.fixed (t := .closeArray) trivial nofun).fixed (t := .openArray) trivial nofun
  | array (item :: items), hv, level, cs, ts, h, _ => by
    have hclose := (h.fixed (t := .closeArray) trivial nofun).newLine level
    have hitems := scans_prettyItems items hv.2 (level + 1) hclose (endsNumber_newLine level _)
    have hitem := scans_prettyAt item hv.1 (level + 1) hitems
      (endsNumber_prettyItems (level + 1) items (endsNumber_newLine level _))
    have hopen := (hitem.newLine (level + 1)).fixed (t := .openArray) trivial nofun
    simpa [prettyAt, tokens, itemTokens, Token.written] using hopen
  | object [], _, _, _, _, h, _ =>
    (h.fixed (t := .closeObject) trivial nofun).fixed (t := .openObject) trivial nofun
  | object ((name, value) :: fields), hv, level, cs, ts, h, _ => by
    obtain ⟨hname, hvalue, hrest⟩ := hv
    have hclose := (h.fixed (t := .closeObject) trivial nofun).newLine level
    have hfields := scans_prettyFields fields hrest (level + 1) hclose (endsNumber_newLine level _)
    have hval := scans_prettyAt value hvalue (level + 1) hfields
      (endsNumber_prettyFields (level + 1) fields (endsNumber_newLine level _))
    have hcolon := (hval.blank (c := ' ') rfl).fixed (t := .colon) trivial nofun
    have hfield := (hcolon.fixed (t := .text name) hname nofun).newLine (level + 1)
    have hopen := hfield.fixed (t := .openObject) trivial nofun
    simpa [prettyAt, tokens, fieldTokens, Token.written] using hopen

theorem scans_prettyItems : (items : List Value) → AllPlain items → ∀ (level : Nat)
    {cs : List Char} {ts : List Token}, Scans cs ts → EndsNumber cs →
      Scans (prettyItems level items ++ cs) (laterItemTokens items ++ ts)
  | [], _, _, _, _, h, _ => h
  | item :: items, hv, level, cs, ts, h, hends => by
    have hitems := scans_prettyItems items hv.2 level h hends
    have hitem := scans_prettyAt item hv.1 level hitems (endsNumber_prettyItems level items hends)
    have hcomma := (hitem.newLine level).fixed (t := .comma) trivial nofun
    simpa [prettyItems, laterItemTokens, Token.written] using hcomma

theorem scans_prettyFields : (fields : List (Text × Value)) → FieldsPlain fields →
    ∀ (level : Nat) {cs : List Char} {ts : List Token}, Scans cs ts → EndsNumber cs →
      Scans (prettyFields level fields ++ cs) (laterFieldTokens fields ++ ts)
  | [], _, _, _, _, h, _ => h
  | (name, value) :: fields, hv, level, cs, ts, h, hends => by
    obtain ⟨hname, hvalue, hrest⟩ := hv
    have hfields := scans_prettyFields fields hrest level h hends
    have hval := scans_prettyAt value hvalue level hfields
      (endsNumber_prettyFields level fields hends)
    have hcolon := (hval.blank (c := ' ') rfl).fixed (t := .colon) trivial nofun
    have hfield := (hcolon.fixed (t := .text name) hname nofun).newLine level
    have hcomma := hfield.fixed (t := .comma) trivial nofun
    simpa [prettyFields, laterFieldTokens, Token.written] using hcomma

end

/-- The pretty form of a plain value is scanned into its tokens, blanks behind it or not. -/
theorem scan_pretty {v : Value} (hv : v.Plain) {blanks : String}
    (hblanks : ∀ b ∈ blanks.toList, isBlank b = true) :
    scan (v.pretty ++ blanks) = some v.tokens := by
  have hend : Scans blanks.toList [] := by
    have hnil := scans_nil.blanks hblanks
    rwa [List.append_nil] at hnil
  have hends : EndsNumber blanks.toList := by
    intro c hc
    have hblank := hblanks c (List.mem_of_mem_head? hc)
    simp only [isBlank, Bool.or_eq_true, decide_eq_true_eq] at hblank
    rcases hblank with ((rfl | rfl) | rfl) | rfl <;> decide
  have hall := scans_prettyAt v hv 0 hend hends
  rw [List.append_nil] at hall
  rw [scan, pretty, String.toList_append, String.toList_ofList]
  exact hall []

end Value

/-- A plain value reads back from its pretty form, blanks behind it or not. -/
theorem read_pretty {v : Value} (hv : v.Plain) {blanks : String}
    (hblanks : ∀ b ∈ blanks.toList, isBlank b = true) : read (v.pretty ++ blanks) = some v := by
  rw [read, Value.scan_pretty hv hblanks, Option.bind_some, readTokens_tokens]

end StackTree.Json
