import LocatedYaml.Command.Arguments
import LocatedYaml.Proofs.Result

/-!
# The output option

The option that names the output has five spellings (`OutputOption`).  Arguments that ask for a conversion with an
output hold one of them in front of the separator (`exists_of_output`), and without it they ask for the same conversion
with no output (`parse_of_dropped`), wherever it stands among the other arguments.
-/

namespace LocatedYaml.Command

/-- The argument that ends the options. -/
def separator : Text := ['-', '-']

/-- The spellings of the option that names the output. -/
inductive OutputOption (path : Text) : List Text → Prop where
  | short : OutputOption path [['-', 'o'], path]
  | long : OutputOption path ["--output".toList, path]
  | attached : path ≠ [] → path.head? ≠ some '=' → OutputOption path ['-' :: 'o' :: path]
  | attachedEquals : OutputOption path ['-' :: 'o' :: '=' :: path]
  | longEquals : OutputOption path ["--output=".toList ++ path]

/-- The second arguments are the first ones without an option that names the output. -/
def DropsOutput (path : Text) (args rest : List Text) : Prop :=
  ∃ before option after, OutputOption path option ∧ separator ∉ before ∧
    args = before ++ (option ++ after) ∧ rest = before ++ after

/-! ### Settings -/

namespace Given

variable {given given' : Given} {path : Text}

theorem set_input_eq_ok : given.set (.input path) = .ok given' ↔
    path ≠ [] ∧ given.input = none ∧ given' = { given with input := some path } := by
  by_cases hpath : path = [] <;> cases hinput : given.input <;> simp [set, hpath, hinput, eq_comm]

theorem set_version_eq_ok {name : Text} : given.set (.version name) = .ok given' ↔
    ∃ version, Version.ofName? name = some version ∧ given.version = none ∧
      given' = { given with version := some version } := by
  cases hname : Version.ofName? name <;> cases hversion : given.version <;> simp [set, hname, hversion, eq_comm]

theorem set_compact_eq_ok : given.set .compact = .ok given' ↔
    given.compact = false ∧ given' = { given with compact := true } := by
  cases hcompact : given.compact <;> simp [set, hcompact, eq_comm]

theorem set_output_eq_ok : given.set (.output path) = .ok given' ↔
    path ≠ [] ∧ given.output = none ∧ given' = { given with output := some path } := by
  by_cases hpath : path = [] <;> cases houtput : given.output <;> simp [set, hpath, houtput, eq_comm]

/-- What can still be set behind an output could be set without it. -/
theorem set_of_set_withOutput {setting : Setting} (hnone : given.output = none)
    (h : Given.set { given with output := some path } setting = .ok given') :
    ∃ before, given.set setting = .ok before ∧ before.output = none ∧
      given' = { before with output := some path } := by
  cases setting with
  | input file =>
    obtain ⟨hfile, hinput, rfl⟩ := set_input_eq_ok.1 h
    exact ⟨_, set_input_eq_ok.2 ⟨hfile, hinput, rfl⟩, hnone, rfl⟩
  | version name =>
    obtain ⟨version, hname, hversion, rfl⟩ := set_version_eq_ok.1 h
    exact ⟨_, set_version_eq_ok.2 ⟨version, hname, hversion, rfl⟩, hnone, rfl⟩
  | compact =>
    obtain ⟨hcompact, rfl⟩ := set_compact_eq_ok.1 h
    exact ⟨_, set_compact_eq_ok.2 ⟨hcompact, rfl⟩, hnone, rfl⟩
  | output other => cases (set_output_eq_ok.1 h).2.1

/-- Only the output option sets the output. -/
theorem output_of_set {setting : Setting} (hsetting : ∀ other, setting ≠ .output other)
    (h : given.set setting = .ok given') : given'.output = given.output := by
  cases setting with
  | input file =>
    obtain ⟨-, -, rfl⟩ := set_input_eq_ok.1 h
    rfl
  | version name =>
    obtain ⟨version, -, -, rfl⟩ := set_version_eq_ok.1 h
    rfl
  | compact =>
    obtain ⟨-, rfl⟩ := set_compact_eq_ok.1 h
    rfl
  | output other => exact absurd rfl (hsetting other)

end Given

/-! ### Words -/

/-- The text of a word. -/
def Word.spelling : Word → Text
  | .separator => ['-', '-']
  | .long name none => '-' :: '-' :: name
  | .long name (some value) => '-' :: '-' :: (name ++ '=' :: value)
  | .short letter rest => '-' :: letter :: rest
  | .plain text => text

theorem Word.spelling_ofText (t : Text) : (Word.ofText t).spelling = t := by
  unfold Word.ofText
  split
  · rfl
  · rename_i t _
    have hsplit := List.takeWhile_append_dropWhile (p := (· ≠ '=')) (l := t)
    have hhead := List.head?_dropWhile_not (· ≠ '=') t
    split
    · rfl
    · rename_i c value hdrop
      rw [hdrop, List.head?_cons] at hhead
      obtain rfl : c = '=' := by simpa using hhead
      rw [Word.spelling, ← hdrop, hsplit]
  · rfl
  · rfl

theorem longFlag?_eq_valued {name : Text} {setting : Text → Setting} (h : longFlag? name = some (.valued setting)) :
    setting = .version ∨ setting = .output ∧ name = "output".toList := by
  unfold longFlag? at h
  split at h
  · cases h
    exact Or.inl rfl
  · split at h
    · cases h
    · split at h
      · rename_i hname
        cases h
        exact Or.inr ⟨rfl, hname⟩
      · split at h
        · cases h
        · split at h <;> cases h

theorem shortFlag?_eq_valued {letter : Char} {setting : Text → Setting}
    (h : shortFlag? letter = some (.valued setting)) : setting = .output ∧ letter = 'o' := by
  unfold shortFlag? at h
  split at h
  · rename_i hletter
    cases h
    exact ⟨rfl, hletter⟩
  · split at h
    · cases h
    · split at h <;> cases h

theorem attachedValue?_eq_some {rest value : Text} (h : attachedValue? rest = some value) :
    rest = '=' :: value ∨ rest = value ∧ value ≠ [] ∧ value.head? ≠ some '=' := by
  unfold attachedValue? at h
  split at h
  · cases h
  · cases h
    exact Or.inl rfl
  · rename_i hnil hequals
    cases h
    refine Or.inr ⟨rfl, hnil, fun hhead => ?_⟩
    obtain ⟨value, hvalue⟩ := List.head?_eq_some_iff.1 hhead
    exact hequals value hvalue

theorem attachedValue?_eq_none {rest : Text} (h : attachedValue? rest = none) : rest = [] := by
  unfold attachedValue? at h
  split at h
  · rfl
  · cases h
  · cases h

/-! ### Demands -/

namespace Demand

/-- What an argument in front of the separator can demand, and what is known of its spelling then. -/
inductive Reads (arg : Text) : Demand → Prop where
  | endOptions : arg = separator → Reads arg .endOptions
  | input (path : Text) : Reads arg (.set (.input path))
  | version (name : Text) : Reads arg (.set (.version name))
  | versionNext : Reads arg (.setNext .version)
  | compact : Reads arg (.set .compact)
  | output (path : Text) : OutputOption path [arg] → Reads arg (.set (.output path))
  | outputNext : (∀ path, OutputOption path [arg, path]) → Reads arg (.setNext .output)
  | showVersion : Reads arg .showVersion
  | showHelp : Reads arg .showHelp
  | refuse (error : UsageError) : Reads arg (.refuse error)

private theorem reads_long (name : Text) (value : Option Text) :
    Reads (Word.long name value).spelling (ofWord (.long name value)) := by
  rw [ofWord]
  cases hflag : longFlag? name with
  | none => exact .refuse _
  | some flag =>
    cases flag with
    | valued setting =>
      rcases longFlag?_eq_valued hflag with rfl | ⟨rfl, rfl⟩
      · cases value with
        | none => exact .versionNext
        | some name => exact .version name
      · cases value with
        | none => exact .outputNext fun path => .long
        | some path => exact .output path .longEquals
    | compact => cases value with
      | none => exact .compact
      | some _ => exact .refuse _
    | showVersion => cases value with
      | none => exact .showVersion
      | some _ => exact .refuse _
    | showHelp => cases value with
      | none => exact .showHelp
      | some _ => exact .refuse _

private theorem reads_short (letter : Char) (rest : Text) :
    Reads (Word.short letter rest).spelling (ofWord (.short letter rest)) := by
  rw [ofWord]
  cases hflag : shortFlag? letter with
  | none => exact .refuse _
  | some flag =>
    cases flag with
    | valued setting =>
      obtain ⟨rfl, rfl⟩ := shortFlag?_eq_valued hflag
      cases hvalue : attachedValue? rest with
      | none =>
        rw [attachedValue?_eq_none hvalue]
        exact .outputNext fun path => .short
      | some path =>
        rcases attachedValue?_eq_some hvalue with rfl | ⟨rfl, hnil, hequals⟩
        · exact .output path .attachedEquals
        · exact .output _ (.attached hnil hequals)
    | compact => exact .compact
    | showVersion => exact .showVersion
    | showHelp => exact .showHelp

theorem reads_ofArgument (arg : Text) : Reads arg (ofArgument false arg) := by
  have hword : Reads (Word.ofText arg).spelling (ofWord (Word.ofText arg)) := by
    cases Word.ofText arg with
    | separator => exact .endOptions rfl
    | plain path => exact .input path
    | long name value => exact reads_long name value
    | short letter rest => exact reads_short letter rest
  rwa [Word.spelling_ofText] at hword

/-- The first argument of an output option is no value, and demands that the output be set. -/
theorem exists_of_outputOption {path : Text} {option : List Text} (h : OutputOption path option) :
    ∃ arg, isValue arg = false ∧
      (option = [arg] ∧ ofArgument false arg = .set (.output path) ∨
        option = [arg, path] ∧ ofArgument false arg = .setNext .output) := by
  cases h with
  | short => exact ⟨_, rfl, Or.inr ⟨rfl, rfl⟩⟩
  | long => exact ⟨_, rfl, Or.inr ⟨rfl, rfl⟩⟩
  | attached hnil hequals =>
    refine ⟨_, rfl, Or.inl ⟨rfl, ?_⟩⟩
    obtain ⟨c, cs, rfl⟩ := List.exists_cons_of_ne_nil hnil
    have hvalue : attachedValue? (c :: cs) = some (c :: cs) := by
      unfold attachedValue?
      split
      · contradiction
      · rename_i heq
        exact absurd (by rw [heq]; rfl) hequals
      · rfl
    change ofFlag (.valued .output) (attachedValue? (c :: cs)) = _
    rw [hvalue]
    rfl
  | attachedEquals => exact ⟨_, rfl, Or.inl ⟨rfl, rfl⟩⟩
  | longEquals => exact ⟨_, rfl, Or.inl ⟨rfl, rfl⟩⟩

end Demand

/-! ### Arguments -/

variable {given : Given} {path : Text} {option before after args : List Text} {i : Invocation}

/-- No other output can be set behind an output, so what follows it could stand without it. -/
theorem parse_of_withOutput {ended : Bool} (hnone : given.output = none)
    (h : parse { given with output := some path } ended args = .ok (.convert i)) :
    i.output = some path ∧ parse given ended args = .ok (.convert { i with output := none }) := by
  generalize hgiven : { given with output := some path } = withOutput at h
  fun_induction parse withOutput ended args generalizing given with
  | case1 withOutput ended =>
    subst hgiven
    cases h
    refine ⟨rfl, ?_⟩
    rw [parse, Given.invocation, Given.invocation, hnone]
  | case2 | case4 | case5 | case7 | case9 => cases h
  | case3 withOutput ended arg args hdemand ih =>
    rw [parse, hdemand]
    exact ih hnone hgiven h
  | case6 withOutput ended arg args setting hdemand ih =>
    subst hgiven
    obtain ⟨_, hset, h⟩ := bind_eq_ok h
    obtain ⟨before, hbefore, hnone, rfl⟩ := Given.set_of_set_withOutput hnone hset
    rw [parse, hdemand]
    dsimp only
    rw [hbefore]
    exact ih _ hnone rfl h
  | case8 withOutput ended arg setting hdemand value args hvalue ih =>
    subst hgiven
    obtain ⟨_, hset, h⟩ := bind_eq_ok h
    obtain ⟨before, hbefore, hnone, rfl⟩ := Given.set_of_set_withOutput hnone hset
    rw [parse, hdemand]
    dsimp only
    rw [if_pos hvalue, hbefore]
    exact ih _ hnone rfl h

/-- Behind the separator no output is set. -/
theorem output_of_parse_ended (h : parse given true args = .ok (.convert i)) : i.output = given.output := by
  induction args generalizing given with
  | nil =>
    cases h
    rfl
  | cons arg args ih =>
    obtain ⟨given', hset, h⟩ := bind_eq_ok h
    rw [ih h, Given.output_of_set (fun _ hinput => by cases hinput) hset]

/-- The output option sets the output. -/
theorem parse_option (hoption : OutputOption path option)
    (h : parse given false (option ++ after) = .ok (.convert i)) :
    given.output = none ∧ parse { given with output := some path } false after = .ok (.convert i) := by
  have hset : (do parse (← given.set (.output path)) false after) = .ok (.convert i) := by
    obtain ⟨arg, -, ⟨rfl, hdemand⟩ | ⟨rfl, hdemand⟩⟩ := Demand.exists_of_outputOption hoption
    · rwa [List.singleton_append, parse, hdemand] at h
    · rw [List.cons_append, parse, hdemand] at h
      dsimp only [List.singleton_append] at h
      split at h
      · exact h
      · cases h
  obtain ⟨given', hset, h⟩ := bind_eq_ok hset
  obtain ⟨-, hnone, rfl⟩ := Given.set_output_eq_ok.1 hset
  exact ⟨hnone, h⟩

/-- Without its output option the arguments ask for the same conversion, with no output. -/
theorem parse_of_dropped (hoption : OutputOption path option) :
    ∀ {before : List Text} {given : Given}, separator ∉ before →
      parse given false (before ++ (option ++ after)) = .ok (.convert i) →
        i.output = some path ∧ parse given false (before ++ after) = .ok (.convert { i with output := none })
  | [], given, _, h => by
    obtain ⟨hnone, h⟩ := parse_option hoption h
    exact parse_of_withOutput hnone h
  | arg :: before, given, hbefore, h => by
    obtain ⟨harg, hbefore⟩ := not_or.1 (mt List.mem_cons.2 hbefore)
    have hreads := Demand.reads_ofArgument arg
    rw [List.cons_append, parse] at h ⊢
    cases hdemand : Demand.ofArgument false arg with
    | refuse | showVersion | showHelp =>
      rw [hdemand] at h
      cases h
    | endOptions =>
      rw [hdemand] at hreads
      cases hreads
      exact absurd ‹arg = separator›.symm harg
    | set setting =>
      rw [hdemand] at h
      obtain ⟨given', hset, h⟩ := bind_eq_ok h
      dsimp only
      rw [hset]
      exact parse_of_dropped hoption hbefore h
    | setNext setting =>
      rw [hdemand] at h
      match before with
      | [] =>
        -- the value would be the output option, which is none
        obtain ⟨word, hword, ⟨rfl, -⟩ | ⟨rfl, -⟩⟩ := Demand.exists_of_outputOption hoption
        all_goals
          rw [List.nil_append, List.cons_append] at h
          simp only [hword, Bool.false_eq_true, if_false, reduceCtorEq] at h
      | value :: before =>
        simp only [List.cons_append] at h ⊢
        split at h
        · rename_i hvalue
          obtain ⟨given', hset, h⟩ := bind_eq_ok h
          rw [if_pos hvalue, hset]
          exact parse_of_dropped hoption (fun hmem => hbefore (List.mem_cons_of_mem _ hmem)) h
        · cases h

/-- The arguments of one setting are the output option, or the output is set by what stands behind them. -/
private theorem drops_of_set (read : List Text) {given' : Given} {setting : Setting} (hnone : given.output = none)
    (houtput : i.output = some path) (hset : given.set setting = .ok given')
    (h : parse given' false args = .ok (.convert i))
    (hread : ∀ other, setting = .output other → OutputOption other read) (hseparator : separator ∉ read)
    (ih : given'.output = none → ∃ rest, DropsOutput path args rest) :
    ∃ rest, DropsOutput path (read ++ args) rest := by
  by_cases hsetting : ∃ other, setting = .output other
  · obtain ⟨other, rfl⟩ := hsetting
    obtain ⟨-, -, rfl⟩ := Given.set_output_eq_ok.1 hset
    obtain rfl : other = path := Option.some.inj ((parse_of_withOutput hnone h).1.symm.trans houtput)
    exact ⟨args, [], read, args, hread other rfl, List.not_mem_nil, rfl, rfl⟩
  · have hother := Given.output_of_set (fun other heq => hsetting ⟨other, heq⟩) hset
    obtain ⟨_, before, option, after, hoption, hbefore, rfl, rfl⟩ := ih (hother.trans hnone)
    refine ⟨_, read ++ before, option, after, hoption, ?_, by rw [List.append_assoc], rfl⟩
    exact fun hmem => (List.mem_append.1 hmem).elim hseparator hbefore

/-- Arguments that ask for a conversion with an output hold an output option in front of the separator. -/
theorem exists_of_output (houtput : i.output = some path) : ∀ {args : List Text} {given : Given},
    given.output = none → parse given false args = .ok (.convert i) → ∃ rest, DropsOutput path args rest
  | [], given, hnone, h => by
    cases h
    exact absurd (hnone.symm.trans houtput) nofun
  | arg :: args, given, hnone, h => by
    have hreads := Demand.reads_ofArgument arg
    rw [parse] at h
    cases hdemand : Demand.ofArgument false arg with
    | refuse | showVersion | showHelp =>
      rw [hdemand] at h
      cases h
    | endOptions =>
      rw [hdemand] at h
      exact absurd ((output_of_parse_ended h).symm.trans houtput) (by simp [hnone])
    | set setting =>
      rw [hdemand] at h hreads
      obtain ⟨given', hset, h⟩ := bind_eq_ok h
      refine drops_of_set [arg] hnone houtput hset h (fun other hother => ?_) (fun hmem => ?_)
        fun hnone => exists_of_output houtput hnone h
      · subst hother
        cases hreads
        assumption
      · rw [← List.mem_singleton.1 hmem] at hdemand
        cases hdemand
    | setNext setting =>
      rw [hdemand] at h hreads
      match args with
      | [] => cases h
      | value :: args =>
        dsimp only at h
        split at h
        · rename_i hvalue
          obtain ⟨given', hset, h⟩ := bind_eq_ok h
          refine drops_of_set [arg, value] hnone houtput hset h (fun other hother => ?_) (fun hmem => ?_)
            fun hnone => exists_of_output houtput hnone h
          · cases hreads with
            | versionNext => cases hother
            | outputNext hspelling =>
              cases hother
              exact hspelling value
          · rcases List.mem_cons.1 hmem with heq | hmem
            · rw [← heq] at hdemand
              cases hdemand
            · rw [← List.mem_singleton.1 hmem] at hvalue
              cases hvalue
        · cases h

end LocatedYaml.Command
