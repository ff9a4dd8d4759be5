import ChurchScript.CommandLine.FileSystem
import ChurchScript.Proofs.CommandLine.Paths

/-!
# What a write changes

A write that succeeds puts one file where its path leads, makes and removes no directory, and
so changes neither where other paths lead nor what is there (`write_effects`). The text file
of an output file that is written is another file (`locate_textFile_ne`).
-/
namespace ChurchScript.CommandLine.FileSystem
open CommandLine.Path (IsFolder IsName)

variable {disk : FileSystem} {folder name : List Char} {place other : List String}

section Directories

theorem hasDirectory_iff : disk.hasDirectory place = true ↔
    place <+: disk.home ∨ ∃ file ∈ disk.files, place <+: file.1 ∧ place ≠ file.1 := by
  simp [hasDirectory, List.isPrefixOf_iff_prefix]

theorem hasDirectory_of_above (above : place <+: other)
    (found : disk.hasDirectory other = true) : disk.hasDirectory place = true := by
  rw [hasDirectory_iff] at found ⊢
  obtain atHome | ⟨file, mem, under, apart⟩ := found
  · exact .inl (above.trans atHome)
  · refine .inr ⟨file, mem, above.trans under, ?_⟩
    rintro rfl
    exact apart (under.eq_of_length_le above.length_le)

theorem hasDirectory_start (path : List Char) : disk.hasDirectory (disk.start path) = true := by
  rw [hasDirectory_iff, start]
  split
  · exact .inl List.nil_prefix
  · exact .inl (List.prefix_refl _)

theorem enter_eq_ok_iff {piece : List Char} : disk.enter place piece = .ok other ↔
    step place piece = other ∧ disk.hasDirectory other = true := by
  simp only [enter]
  split
  · grind
  · split <;> grind

/-- A walk that succeeds enters its first piece and goes on from there. -/
theorem exists_of_foldlM_cons {piece : List Char} {rest : List (List Char)}
    (walked : (piece :: rest).foldlM disk.enter place = .ok other) :
    ∃ there, disk.enter place piece = .ok there ∧ rest.foldlM disk.enter there = .ok other := by
  rw [List.foldlM_cons] at walked
  cases entered : disk.enter place piece with
  | error fault => simp [entered, bind, Except.bind] at walked
  | ok there =>
    rw [entered] at walked
    exact ⟨there, rfl, walked⟩

/-- Where the directory is that a folder names. -/
def parent (disk : FileSystem) (folder : List Char) : Except FileFault (List String) :=
  (Path.pieces [] folder).dropLast.foldlM disk.enter (disk.start folder)

theorem hasDirectory_of_foldlM {pieces : List (List Char)}
    (begun : disk.hasDirectory place = true)
    (walked : pieces.foldlM disk.enter place = .ok other) : disk.hasDirectory other = true := by
  induction pieces generalizing place with
  | nil =>
    cases walked
    exact begun
  | cons piece rest ih =>
    obtain ⟨there, entered, onward⟩ := exists_of_foldlM_cons walked
    exact ih (enter_eq_ok_iff.mp entered).2 onward

theorem hasDirectory_of_parent (found : disk.parent folder = .ok place) :
    disk.hasDirectory place = true :=
  hasDirectory_of_foldlM (hasDirectory_start folder) found

theorem start_append (inside : IsFolder folder) (plain : '/' ∉ name) :
    disk.start (folder ++ name) = disk.start folder := by
  obtain rfl | ⟨above, rfl⟩ := inside
  · cases name with
    | nil => rfl
    | cons c cs =>
      have other : c ≠ '/' := fun same => plain (same ▸ List.mem_cons_self)
      simp [start, other]
  · cases above <;> simp [start]

theorem locate_append (inside : IsFolder folder) (plain : '/' ∉ name)
    (filled : folder ++ name ≠ []) :
    disk.locate (folder ++ name) = (disk.parent folder).map (step · name) := by
  rw [locate, if_neg (by simpa using filled), Path.pieces_append inside plain,
    start_append inside plain]
  simp only [List.dropLast_concat, List.getLastD_concat]
  rfl

end Directories

section SameDirectories

/-- The same directories, and work in the same of them. -/
def SameDirectories (before after : FileSystem) : Prop :=
  after.home = before.home ∧ ∀ place, after.hasDirectory place = before.hasDirectory place

variable {before after : FileSystem}

/-- What a walk reaches depends on the directories only. -/
theorem SameDirectories.foldlM_eq_ok (same : SameDirectories before after)
    {pieces : List (List Char)} (walked : pieces.foldlM before.enter place = .ok other) :
    pieces.foldlM after.enter place = .ok other := by
  induction pieces generalizing place with
  | nil => exact walked
  | cons piece rest ih =>
    obtain ⟨there, entered, onward⟩ := exists_of_foldlM_cons walked
    have enteredAfter : after.enter place piece = .ok there := by
      rwa [enter_eq_ok_iff, same.2, ← enter_eq_ok_iff]
    rw [List.foldlM_cons, enteredAfter]
    exact ih onward

theorem SameDirectories.locate_eq_ok (same : SameDirectories before after) {path : List Char}
    (found : before.locate path = .ok place) : after.locate path = .ok place := by
  have start : after.start path = before.start path := by simp only [FileSystem.start, same.1]
  rw [locate] at found ⊢
  split at found
  · cases found
  · next filled =>
    rw [if_neg filled, start]
    dsimp only at found ⊢
    cases walked : (Path.pieces [] path).dropLast.foldlM before.enter (before.start path) with
    | error fault => simp [walked, bind, Except.bind] at found
    | ok folder =>
      rw [walked] at found
      rw [same.foldlM_eq_ok walked]
      exact found

end SameDirectories

section Put

variable {contents : ByteArray} {last : String}

@[simp] theorem file?_put_self : (disk.put place contents).file? place = some contents := by
  simp [file?, put]

theorem file?_put_of_ne (apart : other ≠ place) :
    (disk.put place contents).file? other = disk.file? other := by
  have kept : ∀ files : List (List String × ByteArray),
      (files.filter (·.1 != place)).lookup other = files.lookup other := by
    intro files
    induction files with
    | nil => rfl
    | cons file rest ih =>
      by_cases taken : file.1 = place
      · have passed : (other == file.1) = false := by
          rw [taken]
          exact beq_false_of_ne apart
        rw [List.filter_cons_of_neg (by simp [taken]), ih, List.lookup_cons, passed]
      · rw [List.filter_cons_of_pos (by simp [taken]), List.lookup_cons, List.lookup_cons, ih]
  have passed : (other == place) = false := beq_false_of_ne apart
  simp only [file?, put, List.lookup_cons, passed, kept]

/-- A file put into a directory that is there makes no other directory. -/
theorem sameDirectories_put (found : disk.hasDirectory place = true) :
    SameDirectories disk (disk.put (place ++ [last]) contents) := by
  refine ⟨rfl, fun other => ?_⟩
  rw [Bool.eq_iff_iff, hasDirectory_iff]
  constructor
  · rintro (atHome | ⟨file, mem, under, apart⟩)
    · exact hasDirectory_iff.mpr (.inl atHome)
    · obtain rfl | mem := List.mem_cons.mp mem
      · -- strictly above the new file is above its directory
        obtain same | above := List.prefix_concat_iff.mp under
        · exact absurd same apart
        · exact hasDirectory_of_above above found
      · exact hasDirectory_iff.mpr (.inr ⟨file, (List.mem_filter.mp mem).1, under, apart⟩)
  · intro there
    obtain atHome | ⟨file, mem, under, apart⟩ := hasDirectory_iff.mp there
    · exact .inl atHome
    · by_cases replaced : file.1 = place ++ [last]
      · exact .inr ⟨_, List.mem_cons_self, replaced ▸ under, replaced ▸ apart⟩
      · refine .inr ⟨file, List.mem_cons_of_mem _ (List.mem_filter.mpr ⟨mem, ?_⟩), under, apart⟩
        simpa using replaced

end Put

section Write

/-- Where there is no directory one step further, the step goes to a name. -/
theorem isName_of_step (found : disk.hasDirectory place = true)
    (free : disk.hasDirectory (step place name) = false) :
    IsName name ∧ step place name = place ++ [String.ofList name] := by
  revert free
  simp only [step]
  split
  · intro free
    rw [hasDirectory_of_above (List.dropLast_prefix place) found] at free
    cases free
  · next text named =>
    intro free
    obtain rfl := Path.eq_of_component? named
    exact ⟨named, rfl⟩
  · intro free
    rw [found] at free
    cases free

/-- A step elsewhere than to a name does not lead to it. -/
theorem step_ne {twin : List Char} (renamed : twin ≠ name) :
    step place twin ≠ place ++ [String.ofList name] := by
  simp only [step]
  split
  · intro same
    have longer := congrArg List.length same
    simp only [List.length_dropLast, List.length_append, List.length_singleton] at longer
    omega
  · next text named =>
    intro same
    obtain rfl := Path.eq_of_component? named
    have last := List.singleton_inj.mp (List.append_cancel_left same)
    exact renamed (String.ofList_injective last)
  · simp

/-- A path to something other than a directory goes to a name in a directory. -/
theorem exists_name_of_locate {path : List Char} (found : disk.locate path = .ok place)
    (free : disk.hasDirectory place = false) :
    ∃ folder name above, path = folder ++ name ∧ IsFolder folder ∧ '/' ∉ name ∧ IsName name ∧
      disk.parent folder = .ok above ∧ place = above ++ [String.ofList name] := by
  obtain ⟨folder, name, rfl, inside, plain⟩ := Path.exists_folder path
  have filled : folder ++ name ≠ [] := by
    intro empty
    rw [empty] at found
    cases found
  rw [locate_append inside plain filled] at found
  cases above : disk.parent folder with
  | error fault => simp [above, Except.map] at found
  | ok directory =>
    rw [above] at found
    obtain rfl : step directory name = place := by simpa [Except.map] using found
    obtain ⟨named, there⟩ := isName_of_step (hasDirectory_of_parent above) free
    exact ⟨folder, name, directory, rfl, inside, plain, named, above, there⟩

theorem write_eq_ok {path : String} {contents : ByteArray} {after : FileSystem}
    (success : disk.write path contents = .ok after) :
    ∃ place, disk.locate path.toList = .ok place ∧ disk.hasDirectory place = false ∧
      after = disk.put place contents := by
  simp only [write] at success
  split at success
  · split at success
    · cases located : disk.locate (path.toList.reverse.dropWhile (· == '/')).reverse <;>
        simp [located, bind, Except.bind, throw, throwThe, MonadExceptOf.throw] at success
    · cases success
  · cases located : disk.locate path.toList with
    | error fault => simp [located, bind, Except.bind] at success
    | ok place =>
      simp only [located, bind, Except.bind] at success
      split at success
      · cases success
      · next free =>
        cases success
        exact ⟨place, rfl, by simpa using free, rfl⟩

/-- A write that succeeds puts its contents where its path leads, and nothing else changes. -/
theorem write_effects {path : String} {contents : ByteArray} {after : FileSystem}
    (success : disk.write path contents = .ok after) :
    ∃ place, disk.locate path.toList = .ok place ∧ disk.hasDirectory place = false ∧
      SameDirectories disk after ∧ after.file? place = some contents ∧
      ∀ other, other ≠ place → after.file? other = disk.file? other := by
  obtain ⟨place, found, free, rfl⟩ := write_eq_ok success
  obtain ⟨folder, name, above, -, -, -, -, parent, rfl⟩ := exists_name_of_locate found free
  exact ⟨_, found, free, sameDirectories_put (hasDirectory_of_parent parent), file?_put_self,
    fun other apart => file?_put_of_ne apart⟩

/-- The text file of an output file that is no directory lies elsewhere. -/
theorem locate_textFile_ne {output : String} (found : disk.locate output.toList = .ok place)
    (free : disk.hasDirectory place = false)
    (text : disk.locate (Path.textFile output).toList = .ok other) : other ≠ place := by
  obtain ⟨folder, name, above, path, inside, plain, named, parent, rfl⟩ :=
    exists_name_of_locate found free
  obtain ⟨twin, twinPlain, renamed, same_folder⟩ := Path.textFile_eq path inside plain named
  have filled : folder ++ twin ≠ [] := by
    intro empty
    rw [same_folder, empty] at text
    cases text
  rw [same_folder, locate_append inside twinPlain filled, parent] at text
  obtain rfl : step above twin = other := by simpa [Except.map] using text
  exact step_ne renamed

end Write

end ChurchScript.CommandLine.FileSystem
