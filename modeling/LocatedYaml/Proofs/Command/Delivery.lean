import LocatedYaml.Command.Run
import LocatedYaml.Proofs.Conversion.Basic
import LocatedYaml.Proofs.Command.OutputOption

/-!
# What a run leaves behind

The four operations on a world are opened once (`run_readFile` and its neighbours), and a conversion is cut into the
text it makes and the writing of it (`run_of_convert`).  Up to the text nothing changes the world, and what is written
is written as a whole; so a run that fails leaves the world as it was, and where the standard output is not refused, an
output option changes nothing but the place of the text (`delivery_of_run`).  A run that prints fails where it is
refused, and a run with an output option does not (`run_of_refused_output`).
-/

namespace LocatedYaml.Command

variable {files : FileSystem} {stdin : ByteArray} {host : Host} {world : World} {i : Invocation} {args : List Text}

/-! ### Chains of operations -/

section Chains

variable {ε ε' α β : Type} {x : ExceptT ε (StateM World) α} {f : α → ExceptT ε (StateM World) β} {world' : World}

private theorem run_adapt (g : ε → ε') :
    (x.adapt g).run.run world = ((x.run.run world).1.mapError g, (x.run.run world).2) :=
  rfl

private theorem run_bind_of_error {error : ε} (h : x.run.run world = (.error error, world')) :
    (x >>= f).run.run world = (.error error, world') := by
  rw [ExceptT.run_bind, StateT.run_bind, h]
  rfl

private theorem run_bind_of_ok {a : α} (h : x.run.run world = (.ok a, world')) :
    (x >>= f).run.run world = (f a).run.run world' := by
  rw [ExceptT.run_bind, StateT.run_bind, h]
  rfl

private theorem run_liftM (result : Except ε α) :
    (liftM result : ExceptT ε (StateM World) α).run.run world = (result, world) :=
  rfl

end Chains

/-! ### The operations on a world -/

namespace World

theorem run_readStandardInput : (system host stdin).readStandardInput.run.run world =
    ((host.allow .standardInput).map fun _ => stdin, world) := by
  unfold system
  cases host.allow .standardInput <;> rfl

theorem run_readFile (path : Text) :
    ((system host stdin).readFile path).run.run world = (world.files.read host path, world) :=
  rfl

theorem run_print_of_error {error : FileError} (h : host.refuses .standardOutput = some error) (text : String) :
    ((system host stdin).print text).run.run world = (.error error, world) :=
  run_bind_of_error (x := liftM (host.allow .standardOutput)) (by rw [run_liftM, Host.allow, h])

theorem run_print_of_ok (h : host.refuses .standardOutput = none) (text : String) :
    ((system host stdin).print text).run.run world = (.ok (), { world with stdout := world.stdout ++ text }) :=
  run_bind_of_ok (x := liftM (host.allow .standardOutput)) (by rw [run_liftM, Host.allow, h])

theorem run_writeFile_of_error {path : Text} {text : String} {error : FileError}
    (h : world.files.write host path text.toUTF8 = .error error) :
    ((system host stdin).writeFile path text).run.run world = (.error error, world) :=
  run_bind_of_error (x := liftM (world.files.write host path text.toUTF8)) (by rw [run_liftM, h])

theorem run_writeFile_of_ok {path : Text} {text : String} (h : world.files.write host path text.toUTF8 = .ok files) :
    ((system host stdin).writeFile path text).run.run world = (.ok (), { world with files }) :=
  run_bind_of_ok (x := liftM (world.files.write host path text.toUTF8)) (by rw [run_liftM, h])

end World

/-! ### Conversions -/

namespace Invocation

/-- What a conversion reads. -/
def content (i : Invocation) (files : FileSystem) (stdin : ByteArray) (host : Host) : Except Failure ByteArray :=
  if i.readsStandardInput then ((host.allow .standardInput).map fun _ => stdin).mapError .readStandardInput
  else (files.read host i.input).mapError (.read i.input)

/-- The text that a conversion makes, wherever it is written. -/
def text (i : Invocation) (files : FileSystem) (stdin : ByteArray) (host : Host) : Except Failure String := do
  i.render (← i.content files stdin host)

/-- The output has no part in the text. -/
theorem text_withOutput (output : Option Text) :
    text { i with output } files stdin host = i.text files stdin host :=
  rfl

theorem run_readContent :
    (i.readContent (World.system host stdin)).run.run world = (i.content world.files stdin host, world) := by
  unfold readContent content
  split
  · rw [run_adapt, World.run_readStandardInput]
  · rw [run_adapt, World.run_readFile]

theorem run_perform_of_error (world : World) {failure : Failure} (h : i.text world.files stdin host = .error failure) :
    (i.perform (World.system host stdin)).run.run world = (.error failure, world) := by
  rw [text] at h
  cases hcontent : i.content world.files stdin host with
  | error failure' =>
    rw [hcontent] at h
    cases h
    exact run_bind_of_error (by rw [run_readContent, hcontent])
  | ok content =>
    rw [hcontent] at h
    rw [perform, run_bind_of_ok (a := content) (by rw [run_readContent, hcontent])]
    exact run_bind_of_error (x := liftM (i.render content)) (by rw [run_liftM]; exact congrArg (·, world) h)

theorem run_perform_of_ok (world : World) {output : String} (h : i.text world.files stdin host = .ok output) :
    (i.perform (World.system host stdin)).run.run world =
      (i.writeText (World.system host stdin) output).run.run world := by
  obtain ⟨content, hcontent, hrender⟩ := bind_eq_ok h
  rw [perform, run_bind_of_ok (a := content) (by rw [run_readContent, hcontent])]
  exact run_bind_of_ok (x := liftM (i.render content)) (by rw [run_liftM, hrender])

end Invocation

/-! ### Runs -/

/-- A run that converts makes the text first and writes it then, if there is one. -/
theorem run_of_convert (h : Action.ofArguments args = .ok (.convert i)) :
    run files stdin args host =
      match i.text files stdin host, i.output with
      | .error failure, _ => .failed { files } failure
      | .ok text, none =>
        match host.refuses .standardOutput with
        | some error => .failed { files } (.print error)
        | none => .succeeded { files, stdout := text }
      | .ok text, some path =>
        match files.write host path text.toUTF8 with
        | .error error => .failed { files } (.write path error)
        | .ok files => .succeeded { files } := by
  rw [run, h]
  dsimp only
  cases htext : i.text files stdin host with
  | error failure => rw [Invocation.run_perform_of_error { files } htext]
  | ok text =>
    rw [Invocation.run_perform_of_ok { files } htext, Invocation.writeText]
    cases i.output with
    | none =>
      dsimp only
      rw [run_adapt]
      cases hrefuses : host.refuses .standardOutput with
      | some error => rw [World.run_print_of_error hrefuses]; rfl
      | none =>
        rw [World.run_print_of_ok hrefuses, String.empty_append]
        rfl
    | some path =>
      dsimp only
      rw [run_adapt]
      cases hwrite : files.write host path text.toUTF8 with
      | error error => rw [World.run_writeFile_of_error hwrite]; rfl
      | ok files => rw [World.run_writeFile_of_ok hwrite]; rfl

/-- A run that fails leaves the world as it was. -/
theorem run_of_exit_ne_zero (h : (run files stdin args host).exit ≠ 0) :
    (run files stdin args host).toWorld = { files } := by
  cases haction : Action.ofArguments args with
  | error error =>
    rw [run, haction]
    rfl
  | ok action =>
    cases action with
    | showVersion | showHelp =>
      rw [run, haction] at h
      exact absurd rfl h
    | convert i =>
      rw [run_of_convert haction] at h ⊢
      split at h
      · rfl
      · split at h
        · rfl
        · exact absurd rfl h
      · split at h
        · rfl
        · exact absurd rfl h

/-- The same host with a standard output that is not refused. -/
def Host.printing (host : Host) : Host where
  target := host.target
  refuses
    | .standardOutput => none
    | access => host.refuses access

/-- Where the standard output is refused, a run that would print fails and leaves the world as it was.  Any other run
ends as if it were not refused. -/
theorem run_of_refused_output {error : FileError} (hrefuses : host.refuses .standardOutput = some error)
    (h : Action.ofArguments args = .ok (.convert i)) :
    run files stdin args host =
      if i.output = none ∧ (run files stdin args host.printing).exit = 0 then .failed { files } (.print error)
      else run files stdin args host.printing := by
  have htext : i.text files stdin host.printing = i.text files stdin host := rfl
  have hwrite : ∀ path content, files.write host.printing path content = files.write host path content :=
    fun path content => rfl
  have hprinting : host.printing.refuses .standardOutput = none := rfl
  simp only [run_of_convert h, htext, hwrite, hprinting, hrefuses]
  cases i.text files stdin host with
  | error failure => rw [if_neg fun hprints => Nat.one_ne_zero hprints.2]
  | ok text =>
    cases i.output with
    | none => rw [if_pos ⟨rfl, rfl⟩]
    | some path => rw [if_neg fun hprints => nomatch hprints.1]

/-- The run went well and printed nothing; the file that the path leads to holds the text, and no other file has
changed. -/
structure Delivers (files : FileSystem) (host : Host) (path : Text) (text : String) (outcome : Outcome) : Prop where
  exit : outcome.exit = 0
  error : outcome.error = none
  stdout : outcome.stdout = ""
  file : ∃ name, host.target path = .file name ∧ outcome.files.find? name = some text.toUTF8 ∧
    ∀ other, other ≠ name → outcome.files.find? other = files.find? other

/-- The run failed because the path cannot be written, and left the world as it was. -/
structure Refuses (files : FileSystem) (host : Host) (path : Text) (outcome : Outcome) : Prop where
  exit : outcome.exit = 1
  error : ∃ error, files.destination host path = .error error ∧ outcome.error = some (Failure.write path error).message
  world : outcome.toWorld = { files }

theorem target_of_destination {path name : Text} (h : files.destination host path = .ok name) :
    host.target path = .file name := by
  obtain ⟨_, -, h⟩ := bind_eq_ok h
  cases htarget : host.target path with
  | file => rw [htarget] at h; rw [Except.ok.inj h]
  | directory | outside => rw [htarget] at h; cases h
  | below name deeper => rw [htarget] at h; cases deeper <;> cases h

/-- What is printed without an output goes to the output, if it can be written. -/
theorem delivers_or_refuses {path : Text} {text : String} (h : Action.ofArguments args = .ok (.convert i))
    (houtput : i.output = some path) (htext : i.text files stdin host = .ok text) :
    Delivers files host path text (run files stdin args host) ∨
      Refuses files host path (run files stdin args host) := by
  rw [run_of_convert h, htext, houtput]
  dsimp only
  rw [FileSystem.write]
  cases hdestination : files.destination host path with
  | error error => exact Or.inr ⟨rfl, ⟨error, hdestination, rfl⟩, rfl⟩
  | ok name =>
    refine Or.inl ⟨rfl, rfl, rfl, name, target_of_destination hdestination, ?_, fun other hother => ?_⟩
    · exact (FileSystem.find?_put ..).trans (if_pos rfl)
    · exact (FileSystem.find?_put ..).trans (if_neg hother)

/-- A run that fails has printed nothing and changed no file, whatever is refused.  A conversion with an output names it
in an option in front of the separator; without that option the arguments are valid too.  Where the standard output is
not refused, what they print is delivered to the output if it can be written, and when nothing is printed both fail in
the same way. -/
theorem delivery_of_run (files : FileSystem) (stdin : ByteArray) (host : Host) :
    (∀ args, (run files stdin args host).exit ≠ 0 → (run files stdin args host).toWorld = { stdout := "", files }) ∧
    ∀ args i path, Action.ofArguments args = .ok (.convert i) → i.output = some path →
      (∃ rest, DropsOutput path args rest) ∧
      (host.refuses .standardOutput = none → ∀ rest, DropsOutput path args rest →
        let printing := run files stdin rest host
        let writing := run files stdin args host
        printing.exit = 0 ∧ Delivers files host path printing.stdout writing ∨
        printing.exit = 0 ∧ Refuses files host path writing ∨
        printing.exit ≠ 0 ∧ writing.exit = printing.exit ∧ writing.error = printing.error) := by
  refine ⟨fun args => run_of_exit_ne_zero, fun args i path hargs houtput => ⟨exists_of_output houtput rfl hargs, ?_⟩⟩
  rintro hprints _ ⟨before, option, after, hoption, hbefore, rfl, rfl⟩
  have hrest := (parse_of_dropped hoption hbefore hargs).2
  dsimp only
  cases htext : i.text files stdin host with
  | error failure =>
    rw [run_of_convert hrest, run_of_convert hargs, Invocation.text_withOutput, htext]
    exact Or.inr (Or.inr ⟨Nat.one_ne_zero, rfl, rfl⟩)
  | ok text =>
    have hprinting : run files stdin (before ++ after) host = .succeeded { files, stdout := text } := by
      rw [run_of_convert hrest, Invocation.text_withOutput, htext]
      dsimp only
      rw [hprints]
    rw [hprinting]
    rcases delivers_or_refuses hargs houtput htext with hdelivers | hrefuses
    · exact Or.inl ⟨rfl, hdelivers⟩
    · exact Or.inr (Or.inl ⟨rfl, hrefuses⟩)

/-- A source that is loaded as a string can be written as JSON. -/
private theorem exists_render_of_string {source : Text} {bytes : ByteArray}
    (hbytes : String.fromUTF8? bytes = some (String.ofList source))
    (hload : ((load source i.options).toOption.bind (·.contents)).any
      (fun node => match node with | .scalar s => s.value = .string s.source | _ => false)) :
    ∃ text, i.render bytes = .ok text := by
  have hconvert : ∃ tree, convert (.text source) i.options = .ok tree := by
    rw [convert, Tree.Document.ofReadings]
    change ∃ tree, (do Tree.Document.ofLoaded source (← (load source i.options).mapError ConvertError.load)) = .ok tree
    cases hdoc : load source i.options with
    | error error =>
      rw [hdoc] at hload
      cases hload
    | ok doc =>
      rw [hdoc] at hload
      obtain ⟨node, hnode, hvalue⟩ := (Option.any_eq_true _ _).1 hload
      cases node with
      | scalar s =>
        change ∃ tree, Tree.Document.ofLoaded source doc = .ok tree
        rw [Tree.Document.ofLoaded, show doc.contents = _ from hnode]
        dsimp only
        rw [Tree.ofContents, Tree.ofNode_scalar, Tree.ofScalar, show s.value = _ by simpa using hvalue]
        exact ⟨_, rfl⟩
      | _ => cases hvalue
  obtain ⟨tree, htree⟩ := hconvert
  rw [Invocation.render, Input.ofBytes, hbytes]
  dsimp only
  rw [String.toList_ofList, htree]
  exact ⟨_, rfl⟩

/-- A file that holds one word, converted onto itself. -/
theorem delivery_of_run_onto_input :
    let files : FileSystem := ⟨[("in.yaml".toList, "x".toUTF8)]⟩
    let args := ["in.yaml".toList, "-o=in.yaml".toList]
    DropsOutput "in.yaml".toList args ["in.yaml".toList] ∧ Host.refuses {} .standardOutput = none ∧
      Delivers files {} "in.yaml".toList (run files .empty ["in.yaml".toList]).stdout (run files .empty args) := by
  intro files args
  have hdrops : DropsOutput "in.yaml".toList args ["in.yaml".toList] :=
    ⟨["in.yaml".toList], ["-o=in.yaml".toList], [], .attachedEquals, by decide, rfl, rfl⟩
  refine ⟨hdrops, rfl, ?_⟩
  let i : Invocation := ⟨"in.yaml".toList, {}, false, some "in.yaml".toList⟩
  rcases ((delivery_of_run files .empty {}).2 args i _ rfl rfl).2 rfl _ hdrops with ⟨-, h⟩ | ⟨-, h⟩ | ⟨h, -⟩
  · exact h
  · obtain ⟨error, hdestination, -⟩ := h.error
    cases hdestination
  · obtain ⟨text, hrender⟩ : ∃ text, i.render "x".toUTF8 = .ok text :=
      exists_render_of_string (show _ = some (String.ofList ['x']) by decide +kernel) (by decide +kernel)
    have hcontent : i.content files .empty {} = .ok "x".toUTF8 := rfl
    have htext : i.text files .empty {} = .ok text := by rw [Invocation.text, hcontent, ok_bind, hrender]
    rw [run_of_convert (i := { i with output := none }) rfl, Invocation.text_withOutput, htext] at h
    exact absurd rfl h

end LocatedYaml.Command
