import StackTree.Command.Files

/-!
# What is written is read back

In a tree of files, writing puts a file where the path leads. Whatever lies strictly below a
directory makes it one, and a file is only ever put into a directory that is there, so writing makes
no directory and takes none away (`Files.hasDirectory_put`). A path that led to a file or to a
vacancy therefore leads to the file that is there now, and a path that led to another file still
does.

## Main definitions

* `FileSystem.Keeps`, `FileSystem.Spares`: what is written to a path can be read from it, and
  another path leads to what it did.
* `Place.path?`: the path of a file, or of a name that a file may get.

## Main results

* `Files.keeps`: a tree of files keeps what is written, where it may be read.
* `Files.spares`: every other file stays as it is.
* `Files.write_any`: whether a path can be written to does not depend on the text.
-/

namespace StackTree

/-- What is written to the path can be read from it. A device need not keep what is written to it,
and a file may be one that the program must not read. -/
def FileSystem.Keeps {σ : Type} [FileSystem σ] (files : σ) (path : String) : Prop :=
  ∀ text after, FileSystem.write path text files = .ok () after →
    FileSystem.read after path = .ok text

/-- Writing to the path leaves what the other path leads to as it is. -/
def FileSystem.Spares {σ : Type} [FileSystem σ] (files : σ) (path other : String) : Prop :=
  ∀ text after, FileSystem.write path text files = .ok () after →
    FileSystem.read after other = FileSystem.read files other

namespace Place

/-- The path of a file, or of a name that a file may get. -/
def path? : Place → Option Path
  | file path _ | vacant path => some path
  | directory | missing | blocked | tooLong _ => none

/-- Whether the program may read the file that is there or gets created there. -/
def mayRead : Place → Bool
  | file _ there => there.readable
  | _ => true

end Place

namespace Files

variable {files after : Files} {place other : Path} {path text : String} {file : File}

/-! ## Putting a file -/

theorem lookup_put_self (files : Files) (place : Path) (file : File) :
    (files.put place file).lookup place = some (.file file) := by
  have hnone : (files.entries.filter (·.1 != place)).lookup place = none := by
    rw [List.lookup_eq_none_iff]
    intro entry hentry
    have hne : entry.1 ≠ place := bne_iff_ne.mp (List.mem_filter.mp hentry).2
    exact bne_iff_ne.mpr hne.symm
  rw [lookup, put, List.lookup_append, hnone]
  simp

theorem lookup_filter_of_ne {entries : List (Path × Entry)} (hne : other ≠ place) :
    (entries.filter (·.1 != place)).lookup other = entries.lookup other := by
  induction entries with
  | nil => rfl
  | cons entry rest ih =>
    obtain ⟨key, value⟩ := entry
    by_cases hkey : key = place
    · subst hkey
      rw [List.filter_cons, if_neg (by simp), ih, List.lookup_cons, beq_false_of_ne hne]
    · rw [List.filter_cons, if_pos (by simpa using hkey), List.lookup_cons, List.lookup_cons, ih]

theorem lookup_put_of_ne (hne : other ≠ place) :
    (files.put place file).lookup other = files.lookup other := by
  rw [lookup, put, List.lookup_append, lookup_filter_of_ne hne, lookup, List.lookup_cons,
    beq_false_of_ne hne, List.lookup_nil, Option.or_none]

/-! ## Directories -/

theorem hasDirectory_iff : files.hasDirectory place = true ↔
    place <+: files.here ∨ ∃ below entry, (below, entry) ∈ files.entries ∧ place <+: below ∧
      (below ≠ place ∨ entry.isDirectory = true) := by
  simp [hasDirectory]

/-- Whatever a directory lies in is a directory. -/
theorem hasDirectory_above (h : files.hasDirectory place = true) (hle : other <+: place) :
    files.hasDirectory other = true := by
  rw [hasDirectory_iff] at h ⊢
  rcases h with hhere | ⟨below, entry, hentry, hbelow, hproper⟩
  · exact Or.inl (hle.trans hhere)
  · refine Or.inr ⟨below, entry, hentry, hle.trans hbelow, ?_⟩
    rcases hproper with hne | hdirectory
    · left
      rintro rfl
      exact hne (hle.eq_of_length_le hbelow.length_le)
    · exact Or.inr hdirectory

/-- What is strictly above a path is above the directory of the path. -/
theorem prefix_dropLast (hle : other <+: place) (hne : place ≠ other) :
    other <+: place.dropLast := by
  obtain ⟨rest, rfl⟩ := hle
  have hrest : rest ≠ [] := by
    rintro rfl
    exact hne (List.append_nil other)
  rw [List.dropLast_append_of_ne_nil hrest]
  exact List.prefix_append other _

/-- A file can be put there: the directory is there, and no directory is in the way. -/
structure TakesFile (files : Files) (place : Path) : Prop where
  directory : files.hasDirectory place.dropLast = true
  free : files.hasDirectory place = false

/-- Putting a file where one can be changes no directory. -/
theorem hasDirectory_put (h : files.TakesFile place) (file : File) :
    (files.put place file).hasDirectory other = files.hasDirectory other := by
  rw [Bool.eq_iff_iff]
  constructor
  · intro hput
    rcases hasDirectory_iff.mp hput with hhere | ⟨below, entry, hentry, hbelow, hproper⟩
    · exact hasDirectory_iff.mpr (Or.inl hhere)
    · rcases List.mem_append.mp hentry with hold | hnew
      · exact hasDirectory_iff.mpr
          (Or.inr ⟨below, entry, (List.mem_filter.mp hold).1, hbelow, hproper⟩)
      · obtain ⟨rfl, rfl⟩ := Prod.mk.inj (List.mem_singleton.mp hnew)
        rcases hproper with hne | hdirectory
        · exact hasDirectory_above h.directory (prefix_dropLast hbelow hne)
        · cases hdirectory
  · intro hold
    rw [hasDirectory_iff] at hold ⊢
    rcases hold with hhere | ⟨below, entry, hentry, hbelow, hproper⟩
    · exact Or.inl hhere
    · right
      by_cases hplace : below = place
      · -- What stood there was no directory, so it lies strictly below this one.
        subst hplace
        have hne : below ≠ other := by
          rcases hproper with hne | hdirectory
          · exact hne
          · have hthere := hasDirectory_iff.mpr
              (Or.inr ⟨below, entry, hentry, List.prefix_rfl, Or.inr hdirectory⟩)
            rw [h.free] at hthere
            cases hthere
        exact ⟨below, .file file, List.mem_append_right _ (List.mem_singleton_self _), hbelow,
          Or.inl hne⟩
      · exact ⟨below, entry, List.mem_append_left _ (List.mem_filter.mpr ⟨hentry, by simpa⟩),
          hbelow, hproper⟩

/-! ## Paths -/

/-- A walk from a directory leads to a file or a vacancy where a file can be put. -/
theorem walk_takesFile {here : Path} (hhere : files.hasDirectory here = true) (steps : List String)
    (h : (files.walk here steps).path? = some place) : files.TakesFile place := by
  fun_induction walk files here steps with
  | case2 here rest ih => exact ih hhere h
  | case3 here rest ih => exact ih (hasDirectory_above hhere (List.dropLast_prefix here)) h
  | case5 here step rest _ _ next _ hnext ih => exact ih hnext h
  | case6 here step rest _ _ next _ hnext old _ _ =>
    obtain rfl : here ++ [step] = place := Option.some.inj h
    exact ⟨by rwa [List.dropLast_concat], Bool.not_eq_true _ ▸ hnext⟩
  | case8 here step rest _ _ next _ hnext _ _ =>
    obtain rfl : here ++ [step] = place := Option.some.inj h
    exact ⟨by rwa [List.dropLast_concat], Bool.not_eq_true _ ▸ hnext⟩
  | _ => cases h

/-- A step to a name that is short enough to be one. -/
theorem walk_name {here : Path} {step : String} (rest : List String) (hdot : step ≠ ".")
    (hup : step ≠ "..") (hlong : ¬ isTooLong step = true) :
    files.walk here (step :: rest) =
      if files.hasDirectory (here ++ [step]) then files.walk (here ++ [step]) rest
      else
        match files.lookup (here ++ [step]) with
        | some (.file file) => if rest.isEmpty then .file (here ++ [step]) file else .blocked
        | _ => if rest.isEmpty then .vacant (here ++ [step]) else .missing := by
  rw [walk]
  · exact if_neg hlong
  · exact hdot
  · exact hup

/-- With the same directories, a walk to a path leads to the file that is there now. -/
theorem walk_of_hasDirectory_eq {here : Path} (steps : List String)
    (hsame : ∀ other, after.hasDirectory other = files.hasDirectory other)
    (hfile : after.lookup place = some (.file file))
    (h : (files.walk here steps).path? = some place) :
    after.walk here steps = .file place file := by
  fun_induction walk files here steps with
  | case2 here rest ih => exact ih h
  | case3 here rest ih => exact ih h
  | case5 here step rest hdot hup next hlong hnext ih =>
    rw [walk_name rest hdot hup hlong, if_pos ((hsame next).trans hnext)]
    exact ih h
  | case6 here step rest hdot hup next hlong hnext old _ hrest =>
    obtain rfl : here ++ [step] = place := Option.some.inj h
    rw [walk_name rest hdot hup hlong, if_neg (by rwa [hsame]), hfile]
    exact if_pos hrest
  | case8 here step rest hdot hup next hlong hnext hrest _ =>
    obtain rfl : here ++ [step] = place := Option.some.inj h
    rw [walk_name rest hdot hup hlong, if_neg (by rwa [hsame]), hfile]
    exact if_pos hrest
  | _ => cases h

/-- Both directories in which a walk starts are there. -/
theorem hasDirectory_start (files : Files) (path : String) :
    files.hasDirectory (if fromRoot path then [] else files.here) = true := by
  rw [hasDirectory_iff]
  left
  split
  · exact List.nil_prefix
  · exact List.prefix_rfl

theorem locate_takesFile (h : (files.locate path).path? = some place) : files.TakesFile place := by
  unfold locate at h
  split at h
  · cases h
  · exact walk_takesFile (hasDirectory_start files path) _ h

/-- Once a file is put somewhere, a path that led to a place leads to the file that is there now. -/
theorem locate_put (hplace : files.TakesFile place)
    (hother : (files.locate path).path? = some other)
    {there : File} (hthere : (files.put place file).lookup other = some (.file there)) :
    (files.put place file).locate path = .file other there := by
  unfold locate at hother ⊢
  split at hother
  · cases hother
  · next hempty =>
    rw [if_neg hempty]
    exact walk_of_hasDirectory_eq _ (fun _ => hasDirectory_put hplace file) hthere hother

/-- A walk leads to the file that is listed there. -/
theorem lookup_of_walk {here : Path} (steps : List String)
    (h : files.walk here steps = .file place file) : files.lookup place = some (.file file) := by
  fun_induction walk files here steps with
  | case2 here rest ih => exact ih h
  | case3 here rest ih => exact ih h
  | case5 here step rest _ _ next _ _ ih => exact ih h
  | case6 here step rest _ _ next _ _ old hlookup _ =>
    obtain ⟨rfl, rfl⟩ := Place.file.inj h
    exact hlookup
  | _ => cases h

theorem lookup_of_locate (h : files.locate path = .file place file) :
    files.lookup place = some (.file file) := by
  unfold locate at h
  split at h
  · cases h
  · exact lookup_of_walk _ h

/-! ## Writing and reading -/

/-- Writing puts a file with the text where the path leads. It may be read if it could be before. -/
theorem write_cases (h : files.write path text = .ok after) :
    refusal? path = none ∧ endsInSlash path = false ∧
      ∃ place file, (files.locate path).path? = some place ∧ file.text? = some text ∧
        file.readable = (files.locate path).mayRead ∧ after = files.put place file := by
  unfold write at h
  cases hrefusal : refusal? path with
  | some fault => simp [hrefusal] at h
  | none =>
    rw [hrefusal] at h
    cases hslash : endsInSlash path with
    | true => cases hplace : files.locate path <;> simp [hplace, hslash] at h
    | false =>
      refine ⟨rfl, rfl, ?_⟩
      cases hplace : files.locate path with
      | file place old =>
        simp only [hplace, hslash, Bool.false_eq_true, if_false] at h
        split at h
        · exact ⟨place, { old with text? := some text }, rfl, rfl, rfl, (Except.ok.inj h).symm⟩
        · cases h
      | vacant place =>
        simp only [hplace, hslash, Bool.false_eq_true, if_false] at h
        split at h
        · exact ⟨place, _, rfl, rfl, rfl, (Except.ok.inj h).symm⟩
        · cases h
      | directory | missing | blocked | tooLong => simp [hplace] at h

/-- A text that can be read is that of the file that the path leads to. -/
theorem read_cases (h : files.read path = .ok text) :
    refusal? path = none ∧ endsInSlash path = false ∧
      ∃ place file, files.locate path = .file place file ∧ file.text? = some text ∧
        file.readable = true := by
  unfold read at h
  cases hrefusal : refusal? path with
  | some fault => simp [hrefusal] at h
  | none =>
    rw [hrefusal] at h
    cases hplace : files.locate path with
    | file place file =>
      simp only [hplace] at h
      split at h
      · cases h
      · next hslash =>
        split at h
        · next hreadable =>
          split at h
          · next hfile =>
            obtain rfl := Except.ok.inj h
            exact ⟨rfl, Bool.not_eq_true _ ▸ hslash, place, file, rfl, hfile, hreadable⟩
          · cases h
        · cases h
    | _ => simp [hplace] at h

/-- The text of a file that may be read. -/
theorem read_of_locate (hrefusal : refusal? path = none) (hslash : endsInSlash path = false)
    (hplace : files.locate path = .file place file) (htext : file.text? = some text)
    (hreadable : file.readable = true) : files.read path = .ok text := by
  unfold read
  simp [hrefusal, hslash, hplace, htext, hreadable]

theorem locate_file_path? (h : files.locate path = .file place file) :
    (files.locate path).path? = some place := by rw [h]; rfl

/-- What was written is read back, where it may be read. -/
theorem read_write (h : files.write path text = .ok after)
    (hread : (files.locate path).mayRead = true) : after.read path = .ok text := by
  obtain ⟨hrefusal, hslash, place, file, hplace, htext, hreadable, rfl⟩ := write_cases h
  exact read_of_locate hrefusal hslash
    (locate_put (locate_takesFile hplace) hplace (lookup_put_self files place file)) htext
    (hreadable.trans hread)

/-- A file that can be read keeps its text when another one is written. -/
theorem read_write_of_ne {otherPath otherText : String} (h : files.write path text = .ok after)
    (hother : files.read otherPath = .ok otherText)
    (hne : (files.locate otherPath).path? ≠ (files.locate path).path?) :
    after.read otherPath = .ok otherText := by
  obtain ⟨-, -, place, file, hplace, -, -, rfl⟩ := write_cases h
  obtain ⟨hrefusal, hslash, other, there, hlocate, htext, hreadable⟩ := read_cases hother
  have hpath : (files.locate otherPath).path? = some other := locate_file_path? hlocate
  have hlookup : (files.put place file).lookup other = some (.file there) := by
    rw [lookup_put_of_ne]
    · exact lookup_of_locate hlocate
    · rintro rfl
      exact hne (hpath.trans hplace.symm)
  exact read_of_locate hrefusal hslash (locate_put (locate_takesFile hplace) hpath hlookup) htext
    hreadable

/-- Writing to a tree of files as a file system. -/
theorem write_ok_iff : FileSystem.write path text files = .ok () after ↔
    files.write path text = .ok after := by
  cases hwrite : files.write path text <;> simp [FileSystem.write, hwrite]

/-- A tree of files keeps what is written, where it may be read. -/
theorem keeps (hread : (files.locate path).mayRead = true) : FileSystem.Keeps files path :=
  fun _ _ h => read_write (write_ok_iff.mp h) hread

/-- A tree of files spares every file that can be read and is not the one that is written. -/
theorem spares {otherPath : String} (hread : files.read otherPath = .ok text)
    (hne : (files.locate otherPath).path? ≠ (files.locate path).path?) :
    FileSystem.Spares files path otherPath :=
  fun _ _ h => (read_write_of_ne (write_ok_iff.mp h) hread hne).trans hread.symm

/-- Whether a path can be written to does not depend on what is written. -/
theorem write_any (h : files.write path text = .ok after) (other : String) :
    ∃ after, files.write path other = .ok after := by
  obtain ⟨hrefusal, hslash, place, file, hplace, -⟩ := write_cases h
  unfold write at h ⊢
  rw [hrefusal] at h ⊢
  cases hlocate : files.locate path with
  | file place old =>
    simp only [hlocate, hslash, Bool.false_eq_true, if_false] at h ⊢
    split at h
    · next hwritable => simp [hwritable]
    · cases h
  | vacant place =>
    simp only [hlocate, hslash, Bool.false_eq_true, if_false] at h ⊢
    split at h
    · next hcreate => simp [hcreate]
    · cases h
  | directory | missing | blocked | tooLong => simp [hlocate] at h

/-- A path that could be written to takes every text. -/
theorem takes_any (h : files.write path text = .ok after) (other : String) :
    ∃ after, FileSystem.write path other files = .ok () after := by
  obtain ⟨done, hdone⟩ := write_any h other
  exact ⟨done, write_ok_iff.mpr hdone⟩

end Files

end StackTree
