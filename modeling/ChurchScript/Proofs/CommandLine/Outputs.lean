import ChurchScript.Proofs.CommandLine.Storage

/-!
# Runs that write two files

A run that compiles a script and draws what comes out writes the drawing to the output file
and the lambda text to the text file beside it. All is worked out before anything is written
(`perform_run_of_error`). The two files are two, unless the file system has the text file as
another name of the output file (`outputs_kept_apart`).
-/
namespace ChurchScript.CommandLine
open Script (CallGraph)

section Steps

variable {σ ε α β : Type} {next : α → ExceptT ε (StateM σ) β} {before after : σ}

theorem run_bind_of_ok {first : ExceptT ε (StateM σ) α} {value : α}
    (done : first.run.run before = (.ok value, after)) :
    (first >>= next).run.run before = (next value).run.run after := by
  rw [ExceptT.run_bind, StateT.run_bind, done]
  rfl

theorem run_bind_of_error {first : ExceptT ε (StateM σ) α} {error : ε}
    (failed : first.run.run before = (.error error, after)) :
    (first >>= next).run.run before = (.error error, after) := by
  rw [ExceptT.run_bind, StateT.run_bind, failed]
  rfl

theorem run_bind_of_lift {action : StateM σ α} {value : α}
    (done : action.run before = (value, after)) :
    ((liftM action : ExceptT ε (StateM σ) α) >>= next).run.run before =
      (next value).run.run after := by
  apply run_bind_of_ok
  rw [ExceptT.run_liftM, StateT.run_map, done]
  rfl

end Steps

section Hosts

variable {σ File : Type} {storage : Storage σ File} {before after : σ}

/-- The text that a run gets to read, from a file or from standard input. -/
def Storage.text (storage : Storage σ File) (state : σ) (source : Option String) :
    Except Failure String :=
  ((readText storage.host source).run.run state).1

/-- Reading changes no file. -/
theorem Storage.Lawful.readText_run (lawful : storage.Lawful) (state : σ)
    (source : Option String) :
    (readText storage.host source).run.run state = (storage.text state source, state) := by
  refine Prod.ext rfl ?_
  cases source with
  | none =>
    obtain ⟨bytes, got⟩ : ∃ bytes, storage.host.readInput.run state = (bytes, state) :=
      ⟨_, Prod.ext rfl (lawful.input state)⟩
    rw [readText, run_bind_of_lift got]
    cases String.fromUTF8? bytes <;> rfl
  | some path =>
    obtain ⟨found, got⟩ : ∃ found, (storage.host.readFile path).run state = (found, state) :=
      ⟨_, Prod.ext rfl (lawful.reading state path)⟩
    rw [readText, run_bind_of_lift got]
    cases found with
    | error fault => rfl
    | ok bytes =>
      dsimp only
      cases String.fromUTF8? bytes <;> rfl

theorem writeFiles_cons_run {path contents : String} {rest : List (String × String)}
    (wrote : storage.Writes before path contents after) :
    (writeFiles storage.host ((path, contents) :: rest)).run.run before =
      (writeFiles storage.host rest).run.run after := by
  rw [writeFiles, run_bind_of_lift wrote]

/-- How a run ends that does what its options ask for. -/
def Outcome.ofResult : Except Failure String → Outcome
  | .ok output => .done output
  | .error failure => .failed failure.message

theorem run_of_perform {host : Host (StateM σ)} {args : List String} {options : Options}
    {r : Except Failure String} (parsed : Options.parse? args = some options)
    (performed : (perform host options).run.run before = (r, after)) :
    (run host args).run before = (.ofResult r, after) := by
  simp only [run, parsed]
  rw [StateT.run_bind, performed]
  cases r <;> rfl

end Hosts

section Combined

variable {σ File : Type} {storage : Storage σ File} {before : σ} {options : Options}
  {path : String}

/-- A script is compiled and then drawn: neither is asked for alone, nor the demonstrations. -/
def Options.Combined (options : Options) : Prop :=
  options.examples = false ∧ options.transpile = options.visualize

/-- The lambda text of a script and its drawing. -/
def compileAndDraw (options : Options) (text : String) : Except Error (String × String) := do
  let lambda ← lambdaText text
  let drawing ← draw options lambda
  return (lambda, drawing)

/-- What a run makes of the text that it reads, before it writes anything. -/
def Storage.made (storage : Storage σ File) (state : σ) (options : Options) :
    Except Failure (String × String) := do
  let text ← storage.text state options.input
  (compileAndDraw options text).mapError .work

theorem work_of_combined (combined : options.Combined) (output : options.output = some path)
    (text : String) : work options text = (compileAndDraw options text).map fun made =>
      { document := made.2, lambda := some made.1 } := by
  have mixed : (options.visualize && !options.transpile) = false ∧
      (options.transpile && !options.visualize) = false := by simp [combined.2]
  simp only [work, mixed, output, compileAndDraw]
  cases lambdaText text with
  | error error => rfl
  | ok lambda =>
    simp only [bind, Except.bind]
    cases draw options lambda <;> rfl

theorem produce_run (lawful : storage.Lawful) (state : σ) (combined : options.Combined)
    (output : options.output = some path) :
    (produce storage.host options).run.run state =
      ((storage.made state options).map fun made => { document := made.2, lambda := some made.1 },
        state) := by
  have read := lawful.readText_run state options.input
  simp only [produce, combined.1, Bool.false_eq_true, if_false]
  cases given : storage.text state options.input with
  | error failure =>
    rw [given] at read
    rw [run_bind_of_error read, Storage.made, given]
    rfl
  | ok text =>
    rw [given] at read
    rw [run_bind_of_ok read, Storage.made, given, work_of_combined combined output]
    change _ = (((compileAndDraw options text).mapError Failure.work).map _, state)
    cases compileAndDraw options text <;> rfl

theorem perform_run_of_error {failure : Failure} (lawful : storage.Lawful)
    (combined : options.Combined) (output : options.output = some path)
    (failed : storage.made before options = .error failure) :
    (perform storage.host options).run.run before = (.error failure, before) := by
  have produced := produce_run lawful before combined output
  rw [failed] at produced
  rw [perform, run_bind_of_error produced]

theorem perform_run_of_ok {lambda drawing : String} {written after : σ}
    (lawful : storage.Lawful) (combined : options.Combined) (output : options.output = some path)
    (made : storage.made before options = .ok (lambda, drawing))
    (first : storage.Writes before path drawing written)
    (second : storage.Writes written (Path.textFile path) (lambda ++ "\n") after) :
    (perform storage.host options).run.run before = (.ok "", after) := by
  have produced := produce_run lawful before combined output
  rw [made] at produced
  rw [perform, run_bind_of_ok produced, output]
  have wrote : (writeFiles storage.host (Product.files
      { document := drawing, lambda := some lambda } path)).run.run before = (.ok (), after) := by
    simp only [Product.files, Option.map_some, Option.toList_some]
    rw [writeFiles_cons_run first, writeFiles_cons_run second]
    rfl
  exact run_bind_of_ok wrote

/-- Where the work of a run that compiles and draws fails, nothing is written at all. Where both
files are written, each holds its own text and no other file changes, provided that the text
file is not another name of the output file by then: by its path it never is, and without links
it is not either. -/
theorem outputs_kept_apart {σ File : Type} {storage : Storage σ File} (lawful : storage.Lawful)
    (before : σ) {args : List String} {options : Options} {path : String}
    (parsed : Options.parse? args = some options) (combined : options.Combined)
    (output : options.output = some path) :
    Path.components (Path.textFile path).toList ≠ Path.components path.toList ∧
    (∀ failure, storage.made before options = .error failure →
      (run storage.host args).run before = (.failed failure.message, before) ∧
      ((run storage.host args).run before).1.printed = "") ∧
    (∀ lambda drawing written after, storage.made before options = .ok (lambda, drawing) →
      storage.Writes before path drawing written →
      storage.Writes written (Path.textFile path) (lambda ++ "\n") after →
      (run storage.host args).run before = (.done "", after) ∧
      (storage.file? written (Path.textFile path) ≠ storage.file? written path →
        storage.read after path = .ok drawing.toUTF8 ∧
        storage.read after (Path.textFile path) = .ok (lambda ++ "\n").toUTF8 ∧
        ∀ file, storage.file? after path ≠ some file →
          storage.file? after (Path.textFile path) ≠ some file →
          storage.contents? after file = storage.contents? before file)) ∧
    ∀ (disk written : FileSystem) (drawing : ByteArray), disk.write path drawing = .ok written →
      written.fileAt? (Path.textFile path) ≠ written.fileAt? path := by
  refine ⟨Path.components_textFile_ne path, ?_, ?_, ?_⟩
  · intro failure failed
    have ended : (run storage.host args).run before = (.failed failure.message, before) :=
      run_of_perform parsed (perform_run_of_error lawful combined output failed)
    exact ⟨ended, by rw [ended]; rfl⟩
  · intro lambda drawing written after made first second
    exact ⟨run_of_perform parsed (perform_run_of_ok lawful combined output made first second),
      lawful.write_twice first second⟩
  · intro disk written drawing wrote
    exact FileSystem.fileAt?_textFile_ne wrote

end Combined

section Samples

/-- The function `f` of `x` that gives back `x`. -/
def identityScript : String :=
  "\x7b\"type\":\"Program\",\"body\":[\x7b\"type\":\"FunctionDeclaration\"," ++
  "\"id\":\x7b\"name\":\"f\"\x7d," ++
  "\"params\":[\x7b\"type\":\"Identifier\",\"name\":\"x\"\x7d]," ++
  "\"body\":\x7b\"type\":\"BlockStatement\",\"body\":[\x7b\"type\":\"ReturnStatement\"," ++
  "\"argument\":\x7b\"type\":\"Identifier\",\"name\":\"x\"\x7d\x7d]\x7d\x7d]\x7d"

theorem ok_of_toOption {ε α : Type} {x : Except ε α} {value : α}
    (done : x.toOption = some value) : x = .ok value := by
  cases x with
  | error error => cases done
  | ok value' =>
    cases done
    rfl

theorem exists_ok_of_isOk {ε α : Type} {x : Except ε α} (done : x.isOk = true) :
    ∃ value, x = .ok value := by
  cases x with
  | error error => cases done
  | ok value => exact ⟨value, rfl⟩

theorem lambdaText_identityScript : lambdaText identityScript = .ok "λx.x" :=
  ok_of_toOption (by decide +kernel)

theorem diagram_identity :
    diagram "λx.x" = .ok ⟨[.horizontal 0 0 1, .vertical 0 1 0], 1, 1⟩ :=
  ok_of_toOption (by decide +kernel)

/-- A directory to work in that holds a file. -/
def homeWithNotes : FileSystem where
  home := ["home"]
  files := [(["home", "notes"], "kept".toUTF8)]

/-- What a run makes of a script that it reads from standard input. -/
theorem made_of_standard_input {σ File : Type} {storage : Storage σ File} {state : σ}
    {options : Options} {script lambda drawing : String} (input : options.input = none)
    (given : storage.host.readInput.run state = (script.toUTF8, state))
    (compiled : lambdaText script = .ok lambda) (drawn : draw options lambda = .ok drawing) :
    storage.made state options = .ok (lambda, drawing) := by
  have text : storage.text state none = .ok script := by
    have decoded : String.fromUTF8? script.toUTF8 = some script :=
      dif_pos script.isValidUTF8
    rw [Storage.text, readText, run_bind_of_lift given, decoded]
    rfl
  rw [Storage.made, input, text]
  simp only [compileAndDraw, compiled, bind, Except.bind, drawn]
  rfl

/-- An output file that is called like its own text file. -/
theorem identityScript_outputs : ∃ drawing after,
    (run (Host.ofFileSystem identityScript.toUTF8) ["-f", "ascii", "-o", "a.txt"]).run
      homeWithNotes = (.done "", after) ∧
    drawPicture {} "λx.x" = .ok drawing ∧ after.read "a.txt" = .ok drawing.toUTF8 ∧
    after.read "a.txt.lambda.txt" = .ok "λx.x\n".toUTF8 ∧
    after.file? ["home", "notes"] = some "kept".toUTF8 := by
  have parsed : Options.parse? ["-f", "ascii", "-o", "a.txt"] =
      some { format := some .ascii, output := some "a.txt" } := by decide +kernel
  have text : Path.textFile "a.txt" = "a.txt.lambda.txt" := by decide +kernel
  obtain ⟨drawing, drawn⟩ : ∃ drawing, drawPicture {} "λx.x" = .ok drawing :=
    ⟨_, by rw [drawPicture, diagram_identity]; rfl⟩
  obtain ⟨-, -, kept, apart⟩ := outputs_kept_apart
    (FileSystem.storage_lawful identityScript.toUTF8) homeWithNotes parsed ⟨rfl, rfl⟩ rfl
  rw [text] at kept apart
  obtain ⟨ended, held⟩ := kept "λx.x" drawing _ _
    (made_of_standard_input rfl rfl lambdaText_identityScript drawn) rfl rfl
  obtain ⟨output, lambda, others⟩ := held (apart homeWithNotes _ drawing.toUTF8 rfl)
  have notOutput : some ["home", "a.txt"] ≠ some ["home", "notes"] := by decide
  have notText : some ["home", "a.txt.lambda.txt"] ≠ some ["home", "notes"] := by decide
  exact ⟨drawing, _, ended, drawn, output, lambda, others _ notOutput notText⟩

theorem grade_not_recursive : Demo.grade.program.table.callGraph.recursive = [] := by
  have graph : Demo.grade.program.table.callGraph = ⟨[("grade", ["halve"]), ("halve", [])]⟩ := by
    decide +kernel
  rw [graph]
  simp [CallGraph.recursive, CallGraph.reachable, CallGraph.nodes, CallGraph.successors,
    List.lookup_cons]

theorem demonstrations_drawn : ∃ pages, demonstrations {} = .ok pages := by
  have compiled : Church.compile Demo.grade.program = Church.compileAt Church.Code.target
      (fun _ => .ofDepth Church.Code.target {} ⟨Demo.grade.program.table, []⟩ 512)
      Demo.grade.program.table := by
    rw [← grade_not_recursive]
    rfl
  obtain ⟨first, one⟩ := exists_ok_of_isOk (x := Demo.addition.page {}) (by decide +kernel)
  obtain ⟨second, two⟩ := exists_ok_of_isOk (x := Demo.zeroTest.page {}) (by decide +kernel)
  obtain ⟨third, three⟩ := exists_ok_of_isOk (x := Demo.grade.page {}) (by
    rw [Demo.page, compiled]
    decide +kernel)
  refine ⟨String.join [first, second, third], ?_⟩
  rw [demonstrations, Demo.all]
  simp only [List.mapM_cons, one, two, three, List.mapM_nil]
  rfl

/-- The same directory with a link `out.txt` to `out.svg`. -/
def linkedHome : Storage FileSystem (List String) :=
  (FileSystem.storage identityScript.toUTF8).through fun path =>
    if path = "out.txt" then "out.svg" else path

theorem demonstrations_run {pages : String} (drawn : demonstrations {} = .ok pages)
    (input : ByteArray) :
    (run (Host.ofFileSystem input) ["--examples", "-o", "out.svg"]).run homeWithNotes =
      (.done "", homeWithNotes.put ["home", "out.svg"] pages.toUTF8) := by
  have parsed : Options.parse? ["--examples", "-o", "out.svg"] =
      some { examples := true, output := some "out.svg" } := by decide +kernel
  have produced : (produce (Host.ofFileSystem input)
      { examples := true, output := some "out.svg" }).run.run homeWithNotes =
        (.ok { document := pages }, homeWithNotes) := by
    simp only [produce, drawn]
    rfl
  refine run_of_perform (r := .ok "") parsed ?_
  rw [perform, run_bind_of_ok produced]
  rfl

theorem linkedHome_run {drawing : String} (drawn : drawSvg {} "λx.x" = .ok drawing) :
    (run linkedHome.host ["-o", "out.svg"]).run homeWithNotes = (.done "",
      (homeWithNotes.put ["home", "out.svg"] (drawing ++ "\n").toUTF8).put ["home", "out.svg"]
        "λx.x\n".toUTF8) := by
  have parsed : Options.parse? ["-o", "out.svg"] = some { output := some "out.svg" } := by
    decide +kernel
  have text : Path.textFile "out.svg" = "out.txt" := by decide +kernel
  have made : linkedHome.made homeWithNotes { output := some "out.svg" } =
      .ok ("λx.x", drawing ++ "\n") :=
    made_of_standard_input rfl rfl lambdaText_identityScript (by rw [draw]; simp only [drawn]; rfl)
  refine run_of_perform (r := .ok "") parsed (perform_run_of_ok
    ((FileSystem.storage_lawful _).through _) ⟨rfl, rfl⟩ rfl made rfl ?_)
  rw [text]
  rfl

/-- A run that shows the demonstrations writes no text file; and where the text file is a link
to the output file, both files are written and the drawing is lost. -/
theorem demonstrations_and_links_differ :
    (∃ pages after,
      (run (Host.ofFileSystem identityScript.toUTF8) ["--examples", "-o", "out.svg"]).run
        homeWithNotes = (.done "", after) ∧
      demonstrations {} = .ok pages ∧ after.read "out.svg" = .ok pages.toUTF8 ∧
      after.read (Path.textFile "out.svg") = .error .notFound) ∧
    linkedHome.Lawful ∧ ∃ drawing after,
      (run linkedHome.host ["-o", "out.svg"]).run homeWithNotes = (.done "", after) ∧
      drawSvg {} "λx.x" = .ok drawing ∧ drawing ++ "\n" ≠ "λx.x\n" ∧
      linkedHome.read after "out.svg" = .ok "λx.x\n".toUTF8 := by
  refine ⟨?_, (FileSystem.storage_lawful _).through _, ?_⟩
  · obtain ⟨pages, drawn⟩ := demonstrations_drawn
    have text : Path.textFile "out.svg" = "out.txt" := by decide +kernel
    rw [text]
    exact ⟨pages, _, demonstrations_run drawn _, drawn, rfl, rfl⟩
  · have drawn : drawSvg {} "λx.x" =
        .ok (Diagram.Figure.svg {} ⟨[.horizontal 0 0 1, .vertical 0 1 0], 1, 1⟩) := by
      rw [drawSvg, diagram_identity]
      rfl
    exact ⟨_, _, linkedHome_run drawn, drawn, by decide +kernel, rfl⟩

end Samples

end ChurchScript.CommandLine
