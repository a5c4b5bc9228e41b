import StackTree.FlatCode.Document

/-!
# Fields of documents

Things with several fields are written as objects or as arrays. A field of an object is known by its
name, wherever it stands, and others next to it do not matter as long as they have other names. A
field of an array is known by its place. Some fields may be missing. What is read from the fields is
stated here as a relation to what they hold, one lemma for each kind of field.

## Main definitions

* `Json.HasField`: an object has a field, and no other of that name.
* `Json.Value.Gives`: the fields that an object or an array gives.
* `FieldSource.Holds`, `FieldSource.Lacks`, `FieldSource.HoldsOr`: a field that is there, one that
  is missing, and one that may be.
* `Value.Tells`: a value that tells one of several names.

## Main results

* `Json.namedFields?_eq_some_iff`: an object whose names are strings.
* `FieldSource.required_eq_some_iff`, `FieldSource.optional_eq_some_iff`: what a field is read as.
-/

namespace StackTree

namespace Json

/-! ## Names that are strings -/

theorem Text.toString?_eq_some_iff {t : Text} {s : String} :
    t.toString? = some s ↔ t = Text.ofString s := by
  constructor
  · intro h
    obtain ⟨cs, hcs, rfl⟩ := Option.map_eq_some_iff.mp h
    rw [ofString, String.toList_ofList]
    clear h
    induction t generalizing cs with
    | nil =>
      obtain rfl := Option.some.inj hcs
      rfl
    | cons piece rest ih =>
      cases piece with
      | half unit => cases hcs
      | char c =>
        obtain ⟨ds, hds, rfl⟩ := Option.map_eq_some_iff.mp hcs
        rw [List.map_cons, ← ih ds hds]
  · rintro rfl
    exact Text.toString?_ofString s

/-- The fields of a record are those it was made of. -/
theorem namedFields?_record (fields : List (String × Value)) :
    namedFields? (fields.map fun (name, value) => (Text.ofString name, value)) = some fields := by
  induction fields with
  | nil => rfl
  | cons field fields ih => simp [namedFields?, ih]

/-- The fields of an object have names that are strings exactly if it is a record of them. -/
theorem namedFields?_eq_some_iff {entries : List (Text × Value)} {fields : List (String × Value)} :
    namedFields? entries = some fields ↔ Value.object entries = .record fields := by
  rw [Value.record, Value.object.injEq]
  constructor
  · intro h
    induction entries generalizing fields with
    | nil =>
      obtain rfl := Option.some.inj h
      rfl
    | cons entry rest ih =>
      obtain ⟨name, value⟩ := entry
      simp only [namedFields?, Option.bind_eq_bind, Option.bind_eq_some_iff, Option.pure_def,
        Option.some.injEq] at h
      obtain ⟨s, hs, later, hlater, rfl⟩ := h
      rw [List.map_cons, ← ih hlater, Text.toString?_eq_some_iff.mp hs]
  · rintro rfl
    exact namedFields?_record fields

/-! ## Fields of objects -/

/-- The field of that name holds the value, and there is no other of the name. -/
def HasField (fields : List (String × Value)) (name : String) (value : Value) : Prop :=
  ∃ before after, fields = before ++ (name, value) :: after ∧ ∀ f ∈ before ++ after, f.1 ≠ name

section Objects

variable {fields : List (String × Value)} {name : String} {value : Value}

/-- A name is missing among fields exactly if nothing is found by it. -/
theorem filter_name_eq_nil_iff : fields.filter (·.1 == name) = [] ↔ ∀ f ∈ fields, f.1 ≠ name := by
  simp only [List.filter_eq_nil_iff, beq_iff_eq, ne_eq]

/-- An object has a field exactly if just that one is found by the name. -/
theorem hasField_iff :
    HasField fields name value ↔ fields.filter (·.1 == name) = [(name, value)] := by
  constructor
  · rintro ⟨before, after, rfl, hothers⟩
    obtain ⟨hbefore, hafter⟩ := List.forall_mem_append.mp hothers
    rw [List.filter_append, filter_name_eq_nil_iff.mpr hbefore, List.filter_cons_of_pos (by simp),
      filter_name_eq_nil_iff.mpr hafter]
    rfl
  · intro h
    obtain ⟨before, after, rfl, hbefore, -, hafter⟩ := List.filter_eq_cons_iff.mp h
    refine ⟨before, after, rfl, List.forall_mem_append.mpr ⟨fun f hf => ?_, ?_⟩⟩
    · simpa using hbefore f hf
    · exact filter_name_eq_nil_iff.mp hafter

end Objects

/-! ## Fields of objects and arrays -/

/-- The fields that a value gives: those of an object by their names, those of an array by their
places. -/
inductive Value.Gives : Value → FieldSource → Prop where
  | object (fields : List (String × Value)) : Gives (.record fields) (.named fields)
  | array (values : List Value) : Gives (.array values) (.listed values)

@[simp] theorem Value.source?_record (fields : List (String × Value)) :
    (Value.record fields).source? = some (.named fields) := by
  simp [Value.source?, Value.record, namedFields?_record]

theorem Value.source?_eq_some_iff {v : Value} {source : FieldSource} :
    v.source? = some source ↔ v.Gives source := by
  constructor
  · intro h
    cases v with
    | object entries =>
      obtain ⟨fields, hfields, ⟨⟩⟩ := Option.bind_eq_some_iff.mp h
      rw [namedFields?_eq_some_iff.mp hfields]
      exact .object fields
    | array values =>
      obtain ⟨⟩ := h
      exact .array values
    | _ => cases h
  · rintro (fields | values)
    · exact source?_record fields
    · rfl

namespace FieldSource

/-- The field of that name and place holds the value. -/
def Holds : FieldSource → Nat → String → Value → Prop
  | named fields, _, name, value => HasField fields name value
  | listed values, place, _, value => values[place]? = some value

/-- There is no field of that name and place. -/
def Lacks : FieldSource → Nat → String → Prop
  | named fields, _, name => ∀ f ∈ fields, f.1 ≠ name
  | listed values, place, _ => values.length ≤ place

/-- The field of that name and place holds the value, or it is missing and the value is the usual
one. -/
def HoldsOr (source : FieldSource) (place : Nat) (name : String) (value usual : Value) : Prop :=
  source.Holds place name value ∨ (source.Lacks place name ∧ value = usual)

/-- An array has no more values than that; other fields of an object do not matter. -/
def AtMost : FieldSource → Nat → Prop
  | named _, _ => True
  | listed values, count => values.length ≤ count

variable {source : FieldSource} {place count : Nat} {name : String} {value : Value}

@[simp] theorem atMost_eq_some_iff {u : Unit} :
    source.atMost count = some u ↔ source.AtMost count := by
  cases source <;> simp [atMost, AtMost]

theorem find?_eq_some_some_iff :
    source.find? place name = some (some value) ↔ source.Holds place name value := by
  cases source with
  | listed values => rw [find?, Option.some.injEq, Holds]
  | named fields =>
    rw [find?, Holds, hasField_iff]
    have hnamed : ∀ f ∈ fields.filter (·.1 == name), f.1 = name := by
      simp
    generalize fields.filter (·.1 == name) = found at hnamed ⊢
    rcases found with _ | ⟨⟨key, other⟩, _ | ⟨second, others⟩⟩
    · simp
    · obtain rfl : key = name := hnamed (key, other) (by simp)
      simp
    · simp

theorem find?_eq_some_none_iff : source.find? place name = some none ↔ source.Lacks place name := by
  cases source with
  | listed values => rw [find?, Option.some.injEq, Lacks, List.getElem?_eq_none_iff]
  | named fields =>
    rw [find?, Lacks, ← filter_name_eq_nil_iff]
    generalize fields.filter (·.1 == name) = found
    rcases found with _ | ⟨first, _ | ⟨second, others⟩⟩ <;> simp

variable {α : Type} {ofJson? : Value → Option α} {a default : α}

/-- A field that has to be there is read from what it holds. -/
theorem required_eq_some_iff : source.required place name ofJson? = some a ↔
    ∃ v, source.Holds place name v ∧ ofJson? v = some a := by
  simp only [← find?_eq_some_some_iff, required]
  rcases source.find? place name with _ | _ | v <;> simp

/-- A field that may be missing is read from what it holds, or stands for its default. -/
theorem optional_eq_some_iff : source.optional place name default ofJson? = some a ↔
    (∃ v, source.Holds place name v ∧ ofJson? v = some a) ∨
      (source.Lacks place name ∧ a = default) := by
  simp only [← find?_eq_some_some_iff, ← find?_eq_some_none_iff, optional]
  rcases source.find? place name with _ | _ | v <;> simp [eq_comm]

/-- Whatever is read by its only way to be written has to be held in that way. -/
theorem required_eq_some_iff_holds {write : α → Value}
    (hread : ∀ {v a}, ofJson? v = some a ↔ v = write a) :
    source.required place name ofJson? = some a ↔ source.Holds place name (write a) := by
  simp only [required_eq_some_iff, hread, exists_eq_right]

/-- If the field may be missing as well, then that is one more way to write the default. -/
theorem optional_eq_some_iff_holdsOr {write : α → Value}
    (hread : ∀ {v a}, ofJson? v = some a ↔ v = write a) :
    source.optional place name default ofJson? = some a ↔
      source.HoldsOr place name (write a) (write default) := by
  have hinjective : write a = write default ↔ a = default := by
    rw [← hread, hread.mpr rfl, Option.some.injEq, eq_comm]
  simp only [optional_eq_some_iff, hread, exists_eq_right, HoldsOr, hinjective]

end FieldSource

/-! ## Scalars -/

@[simp] theorem Value.string?_string (s : String) : (Value.string s).string? = some s :=
  Text.toString?_ofString s

@[simp] theorem Value.name?_string (s : String) : (Value.string s).name? = some s :=
  Text.toString?_ofString s

@[simp] theorem Value.int32?_toInt (value : Int32) :
    (Value.integer value.toInt).int32? = some value := by
  have hlow := value.minValue_le_toInt
  have hhigh := value.toInt_le
  rw [Value.int32?, if_pos ⟨hlow, hhigh⟩, Int32.ofInt_toInt]

@[simp] theorem Value.uint32?_toNat (slot : UInt32) :
    (Value.integer slot.toNat).uint32? = some slot := by
  have hlt := slot.toNat_lt_size
  rw [Value.uint32?, if_pos ⟨Int.natCast_nonneg _, Int.ofNat_lt.mpr hlt⟩, Int.toNat_natCast,
    UInt32.ofNat_toNat]

@[simp] theorem Value.uint64?_toNat (args : UInt64) :
    (Value.integer args.toNat).uint64? = some args := by
  have hlt := args.toNat_lt_size
  rw [Value.uint64?, if_pos ⟨Int.natCast_nonneg _, Int.ofNat_lt.mpr hlt⟩, Int.toNat_natCast,
    UInt64.ofNat_toNat]

namespace Value

variable {v : Value}

theorem bool?_eq_some_iff {b : Bool} : v.bool? = some b ↔ v = .bool b := by
  cases v <;> simp [bool?]

theorem string?_eq_some_iff {s : String} : v.string? = some s ↔ v = .string s := by
  cases v <;> simp [string?, string, Text.toString?_eq_some_iff]

theorem int32?_eq_some_iff {i : Int32} : v.int32? = some i ↔ v = .integer i.toInt := by
  constructor
  · intro h
    cases v with
    | integer n =>
      obtain ⟨⟨hlow, hhigh⟩, ⟨⟩⟩ := Option.ite_none_right_eq_some.mp h
      rw [Int32.toInt_ofInt_of_le hlow (Int.lt_of_le_of_lt hhigh (by decide))]
    | _ => cases h
  · rintro rfl
    exact int32?_toInt i

theorem uint32?_eq_some_iff {n : UInt32} : v.uint32? = some n ↔ v = .integer n.toNat := by
  constructor
  · intro h
    cases v with
    | integer i =>
      obtain ⟨⟨hlow, hhigh⟩, ⟨⟩⟩ := Option.ite_none_right_eq_some.mp h
      rw [UInt32.toNat_ofNat_of_lt' ((Int.toNat_lt hlow).mpr hhigh), Int.toNat_of_nonneg hlow]
    | _ => cases h
  · rintro rfl
    exact uint32?_toNat n

theorem uint64?_eq_some_iff {n : UInt64} : v.uint64? = some n ↔ v = .integer n.toNat := by
  constructor
  · intro h
    cases v with
    | integer i =>
      obtain ⟨⟨hlow, hhigh⟩, ⟨⟩⟩ := Option.ite_none_right_eq_some.mp h
      rw [UInt64.toNat_ofNat_of_lt' ((Int.toNat_lt hlow).mpr hhigh), Int.toNat_of_nonneg hlow]
    | _ => cases h
  · rintro rfl
    exact uint64?_toNat n

/-- A name is told by a string, or by an object whose only field has that name and holds nothing. -/
inductive Tells (s : String) : Value → Prop where
  | string : Tells s (.string s)
  | null : Tells s (.record [(s, .null)])
  | empty : Tells s (.record [(s, .object [])])

theorem name?_eq_some_iff {s : String} : v.name? = some s ↔ v.Tells s := by
  constructor
  · intro h
    unfold name? at h
    split at h
    · rw [Text.toString?_eq_some_iff.mp h]
      exact .string
    · rw [Text.toString?_eq_some_iff.mp h]
      exact .null
    · rw [Text.toString?_eq_some_iff.mp h]
      exact .empty
    · cases h
  · rintro (_ | _ | _)
    · exact name?_string s
    · exact Text.toString?_ofString s
    · exact Text.toString?_ofString s

end Value

/-! ## Fields with scalars -/

namespace FieldSource

variable {source : FieldSource} {place : Nat} {name : String}

@[simp] theorem required_int32_iff {i : Int32} :
    source.required place name Value.int32? = some i ↔
      source.Holds place name (.integer i.toInt) :=
  required_eq_some_iff_holds Value.int32?_eq_some_iff

@[simp] theorem required_uint32_iff {n : UInt32} :
    source.required place name Value.uint32? = some n ↔
      source.Holds place name (.integer n.toNat) :=
  required_eq_some_iff_holds Value.uint32?_eq_some_iff

@[simp] theorem required_string_iff {s : String} :
    source.required place name Value.string? = some s ↔ source.Holds place name (.string s) :=
  required_eq_some_iff_holds Value.string?_eq_some_iff

@[simp] theorem optional_uint64_iff {n default : UInt64} :
    source.optional place name default Value.uint64? = some n ↔
      source.HoldsOr place name (.integer n.toNat) (.integer default.toNat) :=
  optional_eq_some_iff_holdsOr Value.uint64?_eq_some_iff

@[simp] theorem optional_bool_iff {b default : Bool} :
    source.optional place name default Value.bool? = some b ↔
      source.HoldsOr place name (.bool b) (.bool default) :=
  optional_eq_some_iff_holdsOr Value.bool?_eq_some_iff

end FieldSource

end Json

end StackTree
