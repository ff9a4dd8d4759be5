import ChurchScript.CommandLine.Run
import ChurchScript.Proofs.CommandLine.Files

/-!
# File systems with links

What a run may expect of the files that it works on (`Storage.Lawful`): a path leads to a file
or to none, to read changes nothing, and a write that succeeds changes no other file than the
one that its path leads to. Several paths may lead to one file, through links or because
capital letters do not count, so two files are told apart by the file system and not by their
paths (`Storage.Lawful.write_twice`). The file systems that are held as values have no links;
there, the text file of an output file never is that file (`fileAt?_textFile_ne`).
-/
namespace ChurchScript.CommandLine

/-- Files to work on: how a run gets at them, the file that a path leads to through all links,
and what a file holds. -/
structure Storage (σ File : Type) where
  host : Host (StateM σ)
  file? : σ → String → Option File
  contents? : σ → File → Option ByteArray

namespace Storage

variable {σ File : Type} (storage : Storage σ File)

def read (state : σ) (path : String) : Except FileFault ByteArray :=
  ((storage.host.readFile path).run state).1

/-- To write a text to a path succeeds, and leaves the files as they are in `after`. -/
def Writes (before : σ) (path text : String) (after : σ) : Prop :=
  (storage.host.writeFile path text).run before = (.ok (), after)

/-- What a write does to the file that its path leads to. A path that led to a file still leads
to it, and one that led to none now leads to a new file. -/
structure Replaces (before : σ) (path : String) (contents : ByteArray) (after : σ)
    (file : File) : Prop where
  leads : storage.file? after path = some file
  holds : storage.contents? after file = some contents
  fresh : storage.file? before path = none → storage.contents? before file = none
  paths : ∀ other there, storage.file? before other = some there →
    storage.file? after other = some there
  others : ∀ other, other ≠ file → storage.contents? after other = storage.contents? before other

/-- What holds of every file system. -/
structure Lawful : Prop where
  input : ∀ state, (storage.host.readInput.run state).2 = state
  reading : ∀ state path, ((storage.host.readFile path).run state).2 = state
  read_iff : ∀ state path contents, storage.read state path = .ok contents ↔
    ∃ file, storage.file? state path = some file ∧ storage.contents? state file = some contents
  writing : ∀ {before path text after}, storage.Writes before path text after →
    ∃ file, storage.Replaces before path text.toUTF8 after file

variable {storage}

/-- Two writes to paths that lead to two files: both hold what was written to them, and every
other file is as it was. -/
theorem Lawful.write_twice (lawful : storage.Lawful) {before written after : σ}
    {path other first second : String} (wrote : storage.Writes before path first written)
    (wrote' : storage.Writes written other second after)
    (apart : storage.file? written other ≠ storage.file? written path) :
    storage.read after path = .ok first.toUTF8 ∧ storage.read after other = .ok second.toUTF8 ∧
      ∀ file, storage.file? after path ≠ some file → storage.file? after other ≠ some file →
        storage.contents? after file = storage.contents? before file := by
  obtain ⟨file, replaced⟩ := lawful.writing wrote
  obtain ⟨file', replaced'⟩ := lawful.writing wrote'
  have different : file ≠ file' := by
    rintro rfl
    cases led : storage.file? written other with
    | none =>
      have empty := replaced'.fresh led
      rw [replaced.holds] at empty
      cases empty
    | some there =>
      have same := replaced'.paths other there led
      rw [replaced'.leads] at same
      exact apart (by rw [led, replaced.leads, same])
  have leads := replaced'.paths path file replaced.leads
  have holds : storage.contents? after file = some first.toUTF8 :=
    (replaced'.others file different).trans replaced.holds
  refine ⟨(lawful.read_iff _ _ _).mpr ⟨file, leads, holds⟩,
    (lawful.read_iff _ _ _).mpr ⟨file', replaced'.leads, replaced'.holds⟩, ?_⟩
  intro third notFirst notSecond
  rw [leads] at notFirst
  rw [replaced'.leads] at notSecond
  rw [replaced'.others third fun same => notSecond (congrArg some same.symm),
    replaced.others third fun same => notFirst (congrArg some same.symm)]

/-- The same files with further links: a path leads where the renamed path led. -/
def through (storage : Storage σ File) (rename : String → String) : Storage σ File where
  host :=
    { storage.host with
      readFile := fun path => storage.host.readFile (rename path)
      writeFile := fun path => storage.host.writeFile (rename path) }
  file? state path := storage.file? state (rename path)
  contents? := storage.contents?

theorem Lawful.through (lawful : storage.Lawful) (rename : String → String) :
    (storage.through rename).Lawful where
  input := lawful.input
  reading state path := lawful.reading state (rename path)
  read_iff state path := lawful.read_iff state (rename path)
  writing := by
    intro before path text after wrote
    obtain ⟨file, replaced⟩ := lawful.writing wrote
    exact ⟨file, replaced.leads, replaced.holds, replaced.fresh,
      fun other => replaced.paths (rename other), replaced.others⟩

end Storage

namespace FileSystem

variable {disk : FileSystem} {place : List String} {path : String} {contents : ByteArray}

/-- The place of the file that a path leads to. -/
def fileAt? (disk : FileSystem) (path : String) : Option (List String) :=
  match disk.locate path.toList with
  | .ok place => if !disk.hasDirectory place && (disk.file? place).isSome then some place else none
  | .error _ => none

/-- A file system held as a value, with the bytes of standard input. -/
def storage (input : ByteArray) : Storage FileSystem (List String) where
  host := .ofFileSystem input
  file? := fileAt?
  contents? := file?

theorem fileAt?_eq_some_iff : disk.fileAt? path = some place ↔
    disk.locate path.toList = .ok place ∧ disk.hasDirectory place = false ∧
      (disk.file? place).isSome = true := by
  unfold fileAt?
  cases disk.locate path.toList with
  | error fault => simp
  | ok found =>
    simp only [Option.ite_none_right_eq_some, Bool.and_eq_true, Bool.not_eq_true',
      Option.some.injEq, Except.ok.injEq]
    constructor
    · rintro ⟨⟨free, held⟩, rfl⟩
      exact ⟨rfl, free, held⟩
    · rintro ⟨rfl, free, held⟩
      exact ⟨⟨free, held⟩, rfl⟩

theorem read_eq_ok_iff : disk.read path = .ok contents ↔
    ∃ place, disk.fileAt? path = some place ∧ disk.file? place = some contents := by
  simp only [fileAt?_eq_some_iff]
  constructor
  · intro success
    unfold read at success
    cases found : disk.locate path.toList with
    | error fault => simp [found, bind, Except.bind] at success
    | ok place =>
      simp only [found, bind, Except.bind] at success
      split at success
      · cases success
      · next free =>
        cases held : disk.file? place with
        | none =>
          rw [held] at success
          cases success
        | some there =>
          rw [held] at success
          cases success
          exact ⟨place, ⟨rfl, by simpa using free, by rw [held]; rfl⟩, held⟩
  · rintro ⟨place, ⟨found, free, -⟩, held⟩
    simp [read, found, free, held, bind, Except.bind, pure, Except.pure]

theorem write_of_writes {input : ByteArray} {text : String} {after : FileSystem}
    (wrote : (storage input).Writes disk path text after) :
    disk.write path text.toUTF8 = .ok after := by
  unfold Storage.Writes at wrote
  simp only [storage, Host.ofFileSystem, StateT.run_bind, StateT.run_get, pure_bind] at wrote
  cases written : disk.write path text.toUTF8 with
  | error fault =>
    rw [written] at wrote
    cases wrote
  | ok changed =>
    rw [written] at wrote
    cases wrote
    rfl

/-- File systems held as values are file systems. -/
theorem storage_lawful (input : ByteArray) : (storage input).Lawful where
  input _ := rfl
  reading _ _ := rfl
  read_iff _ _ _ := read_eq_ok_iff
  writing := by
    intro before path text after wrote
    obtain ⟨place, found, free, same, held, others⟩ := write_effects (write_of_writes wrote)
    have free' : after.hasDirectory place = false := by rw [same.2, free]
    refine ⟨place, ?_, held, ?_, ?_, others⟩
    · exact fileAt?_eq_some_iff.mpr ⟨same.locate_eq_ok found, free', by rw [held]; rfl⟩
    · intro missing
      by_contra there
      have led : before.fileAt? path = some place :=
        fileAt?_eq_some_iff.mpr ⟨found, free, Option.isSome_iff_ne_none.mpr there⟩
      cases missing.symm.trans led
    · intro other there led
      obtain ⟨led, apart, filled⟩ := fileAt?_eq_some_iff.mp led
      refine fileAt?_eq_some_iff.mpr ⟨same.locate_eq_ok led, by rw [same.2, apart], ?_⟩
      by_cases here : there = place
      · rw [here, held]
        rfl
      · rwa [others there here]

/-- Without links, an output file that is written and its text file are two files. -/
theorem fileAt?_textFile_ne {after : FileSystem} (wrote : disk.write path contents = .ok after) :
    after.fileAt? (Path.textFile path) ≠ after.fileAt? path := by
  obtain ⟨place, found, free, same, held, -⟩ := write_effects wrote
  have found' : after.locate path.toList = .ok place := same.locate_eq_ok found
  have free' : after.hasDirectory place = false := by rw [same.2, free]
  rw [fileAt?_eq_some_iff.mpr ⟨found', free', by rw [held]; rfl⟩]
  intro led
  exact locate_textFile_ne found' free' (fileAt?_eq_some_iff.mp led).1 rfl

end FileSystem
end ChurchScript.CommandLine
