import Mathlib.Data.List.TakeWhile
import ChurchScript.CommandLine.Path

/-!
# The text file beside an output file

A path is a folder, which is empty or ends in a slash, and what is behind it
(`exists_folder`). Where a path ends in a file name, its text file lies in the same folder
and has another name (`textFile_eq`); and as a path, a text file is never its output file
(`components_textFile_ne`).
-/
namespace ChurchScript.CommandLine.Path

/-- What stands in front of the last piece of a path. -/
def IsFolder (folder : List Char) : Prop :=
  folder = [] ∨ ∃ above, folder = above ++ ['/']

theorem exists_folder (path : List Char) :
    ∃ folder name, path = folder ++ name ∧ IsFolder folder ∧ '/' ∉ name := by
  refine ⟨(path.reverse.dropWhile (· != '/')).reverse, (path.reverse.takeWhile (· != '/')).reverse,
    ?_, ?_, ?_⟩
  · rw [← List.reverse_append, List.takeWhile_append_dropWhile, List.reverse_reverse]
  · cases rest : path.reverse.dropWhile (· != '/') with
    | nil => exact .inl rfl
    | cons c cs =>
      have slash : c = '/' := by
        have stopped := List.head?_dropWhile_not (· != '/') path.reverse
        simpa [rest] using stopped
      exact .inr ⟨cs.reverse, by rw [slash, List.reverse_cons]⟩
  · intro slash
    have kept := List.mem_takeWhile_imp (List.mem_reverse.mp slash)
    exact absurd kept (by decide)

section Pieces

variable {folder name : List Char}

theorem pieces_of_plain (current : List Char) (plain : '/' ∉ name) :
    pieces current name = [current.reverse ++ name] := by
  induction name generalizing current with
  | nil => simp [pieces]
  | cons c cs ih =>
    rw [List.mem_cons, not_or] at plain
    have other : (c == '/') = false := beq_false_of_ne (Ne.symm plain.1)
    simp [pieces, other, ih _ plain.2]

theorem pieces_append_slash (current above rest : List Char) :
    pieces current (above ++ '/' :: rest) = pieces current above ++ pieces [] rest := by
  induction above generalizing current with
  | nil => simp [pieces]
  | cons c cs ih =>
    by_cases slash : c = '/'
    · simp [pieces, slash, ih]
    · simp [pieces, slash, ih]

/-- The pieces of a path are those of its folder and the last one. -/
theorem pieces_append (inside : IsFolder folder) (plain : '/' ∉ name) :
    pieces [] (folder ++ name) = (pieces [] folder).dropLast ++ [name] := by
  obtain rfl | ⟨above, rfl⟩ := inside
  · exact pieces_of_plain [] plain
  · rw [List.append_assoc, List.singleton_append, pieces_append_slash, pieces_append_slash,
      pieces_of_plain [] plain]
    simp [pieces]

end Pieces

section Components

/-- A piece that names something other than a directory itself or the one above it. -/
def IsName (name : List Char) : Prop :=
  component? name = some (.name name)

theorem isName_iff {name : List Char} :
    IsName name ↔ name ≠ [] ∧ name ≠ ['.'] ∧ name ≠ ['.', '.'] := by
  unfold IsName component?
  split
  · grind
  · split <;> simp_all

theorem isName_of_two_lt {name : List Char} (long : 2 < name.length) : IsName name := by
  refine isName_iff.mpr ⟨?_, ?_, ?_⟩ <;>
  · rintro rfl
    simp at long

/-- The name that a component gives. -/
def Component.text : Component → List Char
  | .name text => text
  | _ => []

/-- The length of the names along a path. -/
def weight (path : List Char) : Nat :=
  ((components path).flatMap Component.text).length

theorem weight_eq (path : List Char) :
    weight path = (((pieces [] path).filterMap component?).flatMap Component.text).length := by
  simp only [weight, components, List.flatMap_append, List.length_append]
  split <;> simp [Component.text]

theorem weight_append {folder name : List Char} (inside : IsFolder folder) (plain : '/' ∉ name) :
    weight (folder ++ name) =
      ((((pieces [] folder).dropLast).filterMap component?).flatMap Component.text).length +
        ((component? name).toList.flatMap Component.text).length := by
  rw [weight_eq, pieces_append inside plain, List.filterMap_append, List.flatMap_append,
    List.length_append]
  cases named : component? name <;> simp [named]

theorem length_component_le (piece : List Char) :
    ((component? piece).toList.flatMap Component.text).length ≤ piece.length := by
  unfold component?
  split
  · simp
  · split <;> simp [Component.text]

theorem eq_of_component? {piece text : List Char} (named : component? piece = some (.name text)) :
    piece = text := by
  unfold component? at named
  grind

/-- A path with something behind its last name is a longer path. -/
theorem weight_lt_append (path : List Char) {ending : List Char} (plain : '/' ∉ ending)
    (long : 2 < ending.length) : weight path < weight (path ++ ending) := by
  obtain ⟨folder, name, rfl, inside, named⟩ := exists_folder path
  have joined : '/' ∉ name ++ ending := by simp [named, plain]
  have whole : component? (name ++ ending) = some (.name (name ++ ending)) :=
    isName_of_two_lt (by rw [List.length_append]; omega)
  rw [List.append_assoc, weight_append inside named, weight_append inside joined, whole]
  have short := length_component_le name
  simp only [Option.toList_some, List.flatMap_singleton, Component.text, List.length_append]
  omega

/-- The text file of an output file is never that file, compared as paths. -/
theorem components_textFile_ne (output : String) :
    components (textFile output).toList ≠ components output.toList := by
  simp only [textFile]
  split
  · intro same
    rw [String.toList_append] at same
    have longer : weight output.toList < weight (output.toList ++ ".lambda.txt".toList) :=
      weight_lt_append output.toList (by decide) (by decide)
    rw [weight, weight, same] at longer
    exact lt_irrefl _ longer
  · next other =>
    rw [String.toList_ofList]
    exact other

end Components

section Names

variable {folder name : List Char}

theorem dropTrailing_of_name (plain : '/' ∉ name) (filled : name ≠ []) (dotless : name ≠ ['.']) :
    dropTrailing (name.reverse ++ folder.reverse) = name.reverse ++ folder.reverse := by
  generalize turned : name.reverse = back
  have plain' : '/' ∉ back := by rwa [← turned, List.mem_reverse]
  match back with
  | [] => exact absurd (List.reverse_eq_nil_iff.mp turned) filled
  | [c] =>
    have undotted : c ≠ '.' := by
      rintro rfl
      exact dotless (List.reverse_eq_iff.mp turned)
    have unslashed : c ≠ '/' := by
      rintro rfl
      exact plain' List.mem_cons_self
    unfold dropTrailing
    split <;> simp_all
  | c :: d :: cs =>
    unfold dropTrailing
    split <;> simp_all

theorem split_append (inside : IsFolder folder) (plain : '/' ∉ name) (filled : name ≠ [])
    (dotless : name ≠ ['.']) : split (folder ++ name) = (folder, name) := by
  have letters : ∀ c ∈ name.reverse, (c != '/') = true := by
    intro c mem
    rw [List.mem_reverse] at mem
    exact bne_iff_ne.mpr fun same => plain (same ▸ mem)
  have stop : folder.reverse.dropWhile (· != '/') = folder.reverse ∧
      folder.reverse.takeWhile (· != '/') = [] := by
    obtain rfl | ⟨above, rfl⟩ := inside <;> simp
  rw [split, List.reverse_append, dropTrailing_of_name plain filled dotless,
    List.dropWhile_append_of_pos letters, List.takeWhile_append_of_pos letters, stop.1, stop.2]
  simp

theorem fileName?_append (inside : IsFolder folder) (plain : '/' ∉ name) (filled : name ≠ [])
    (dotless : name ≠ ['.']) :
    fileName? (folder ++ name) = if name = ['.', '.'] then none else some name := by
  simp [fileName?, split_append inside plain filled dotless, filled, dotless]

/-- A name is what comes in front of its extension, a dot and the extension. -/
theorem splitExtension_cases (name : List Char) :
    splitExtension name = (name, none) ∨
      ∃ stem extension, stem ≠ [] ∧ name = stem ++ '.' :: extension ∧
        splitExtension name = (stem, some extension) := by
  have whole : name = (name.reverse.dropWhile (· != '.')).reverse ++
      (name.reverse.takeWhile (· != '.')).reverse := by
    rw [← List.reverse_append, List.takeWhile_append_dropWhile, List.reverse_reverse]
  have stopped := List.head?_dropWhile_not (· != '.') name.reverse
  simp only [splitExtension]
  split
  · next dot stem rest =>
    rw [rest] at stopped
    rw [rest] at whole
    split
    · exact .inl rfl
    · next filled =>
      refine .inr ⟨stem.reverse, _, ?_, ?_, rfl⟩
      · simpa using filled
      · have dotted : dot = '.' := by simpa using stopped
        rw [dotted] at whole
        simpa using whole
  · exact .inl rfl

theorem extension?_append (inside : IsFolder folder) (plain : '/' ∉ name) (named : IsName name) :
    extension? (folder ++ name) = (splitExtension name).2 := by
  obtain ⟨filled, dotless, unparented⟩ := isName_iff.mp named
  rw [extension?, fileName?_append inside plain filled dotless, if_neg unparented]
  rfl

/-- A new extension behind a name without one leaves the folder as it is. -/
theorem exists_extended {extension : List Char} (inside : IsFolder folder) (plain : '/' ∉ name)
    (filled : name ≠ []) (dotless : name ≠ ['.']) (ending : '/' ∉ extension) :
    ∃ other, '/' ∉ other ∧ (match fileName? (folder ++ name) with
      | some last => (split (folder ++ name)).1 ++ (splitExtension last).1 ++ '.' :: extension
      | none => folder ++ name) = folder ++ other := by
  rw [fileName?_append inside plain filled dotless, split_append inside plain filled dotless]
  by_cases parent : name = ['.', '.']
  · exact ⟨name, plain, by rw [if_pos parent]⟩
  · have stemPlain : '/' ∉ (splitExtension name).1 := by
      obtain kept | ⟨stem, old, -, whole, divided⟩ := splitExtension_cases name
      · rwa [kept]
      · rw [whole, List.mem_append, not_or] at plain
        rw [divided]
        exact plain.1
    refine ⟨(splitExtension name).1 ++ '.' :: extension, ?_, ?_⟩
    · simp [stemPlain, ending]
    · rw [if_neg parent]
      exact List.append_assoc folder _ _

/-- The path with another extension is in the same folder. -/
theorem withExtension_append {extension : List Char} (inside : IsFolder folder)
    (plain : '/' ∉ name) (named : IsName name) (ending : '/' ∉ extension) :
    ∃ other, '/' ∉ other ∧ withExtension (folder ++ name) extension = folder ++ other := by
  simp only [withExtension, extension?_append inside plain named]
  obtain kept | ⟨stem, old, stemmed, rfl, divided⟩ := splitExtension_cases name
  · obtain ⟨filled, dotless, -⟩ := isName_iff.mp named
    rw [kept]
    exact exists_extended inside plain filled dotless ending
  · have cut : (folder ++ (stem ++ '.' :: old)).take
        ((folder ++ (stem ++ '.' :: old)).length - old.length) = folder ++ (stem ++ ['.']) := by
      have long : (folder ++ (stem ++ '.' :: old)).length - old.length =
          (folder ++ (stem ++ ['.'])).length := by
        simp only [List.length_append, List.length_cons, List.length_nil]
        omega
      have whole : folder ++ (stem ++ '.' :: old) = folder ++ (stem ++ ['.']) ++ old := by simp
      rw [long, whole, List.take_left]
    have stemPlain : '/' ∉ stem ++ ['.'] := by simp_all
    rw [divided]
    simp only [cut]
    exact exists_extended inside stemPlain (by simp) (by simpa using stemmed) ending

/-- The text file of an output file is in the same folder, under another name. -/
theorem textFile_eq {output : String} (path : output.toList = folder ++ name)
    (inside : IsFolder folder) (plain : '/' ∉ name) (named : IsName name) :
    ∃ other, '/' ∉ other ∧ other ≠ name ∧ (textFile output).toList = folder ++ other := by
  obtain ⟨other, otherPlain, same_folder⟩ :
      ∃ other, '/' ∉ other ∧ (textFile output).toList = folder ++ other := by
    simp only [textFile]
    split
    · refine ⟨name ++ ".lambda.txt".toList, by simp [plain], ?_⟩
      rw [String.toList_append, path, List.append_assoc]
    · rw [String.toList_ofList, path]
      exact withExtension_append inside plain named (by decide)
  refine ⟨other, otherPlain, ?_, same_folder⟩
  rintro rfl
  exact components_textFile_ne output (by rw [same_folder, path])

end Names

end ChurchScript.CommandLine.Path
