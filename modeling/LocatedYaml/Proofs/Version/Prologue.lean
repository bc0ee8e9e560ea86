import LocatedYaml.Proofs.Document.Building
import LocatedYaml.Proofs.Text.Lines
import LocatedYaml.Token.Character
import LocatedYaml.Version

/-!
# What stands in front of a directive

A prologue is a row of lines that are blank, comments or directives other than `%YAML`.  A `%YAML` directive behind a
prologue decides the version of the load, unless one of the comments is indented: the first such comment counts as the
beginning of the document (`judgeLine_of_isIndentedComment`), and the version asked for from outside is used.  The lines
are judged one by one, and `ofLines?_append` says what a prologue leaves of the verdict of the lines behind it.

Without a directive line among the leading lines nothing is decided (`ofLines?_eq_none`).
-/

namespace LocatedYaml

namespace Text

theorem isSpace_of_isBlank {c : Char} (h : Token.isBlank c) : isSpace c := by
  simp only [Token.isBlank, Bool.or_eq_true, beq_iff_eq] at h
  rcases h with rfl | rfl <;> decide

/-- The first word of a text with one word, set off by white space. -/
theorem firstWord?_append {gap word rest : Text} (hgap : ∀ c ∈ gap, isSpace c) (hne : word ≠ [])
    (hword : ∀ c ∈ word, isSpace c = false) (hrest : ∀ c, rest.head? = some c → isSpace c) :
    firstWord? (gap ++ (word ++ rest)) = some word := by
  have hstart : trimStart (gap ++ (word ++ rest)) = word ++ rest := by
    obtain ⟨c, cs, rfl⟩ := List.exists_cons_of_ne_nil hne
    rw [trimStart, List.dropWhile_append_of_pos hgap, List.cons_append,
      List.dropWhile_cons_of_neg (by simp [hword c (by simp)])]
  have htake : (word ++ rest).takeWhile (!isSpace ·) = word := by
    rw [List.takeWhile_append_of_pos fun c hc => by simp [hword c hc]]
    cases rest with
    | nil => simp
    | cons c cs => simp [hrest c rfl]
  rw [firstWord?, hstart, htake]
  obtain ⟨c, cs, rfl⟩ := List.exists_cons_of_ne_nil hne
  rfl

end Text

namespace Version

/-! ### Lines in front of a directive -/

/-- A comment, behind any number of spaces and tabs. -/
def isComment (line : Text) : Bool := (line.dropWhile Token.isBlank).head? == some '#'

/-- A comment that does not begin its line. -/
def isIndentedComment (line : Text) : Bool := isComment line && line.head? != some '#'

/-- A directive that is not a `%YAML` directive. -/
def isOtherDirective (line : Text) : Bool :=
  line.head? == some '%' && (Text.dropStart? ['%', 'Y', 'A', 'M', 'L'] line).isNone

/-- A line that says nothing about the version and does not begin the document. -/
def isQuiet (line : Text) : Bool := line.isBlank || isComment line || isOtherDirective line

/-- Lines that may stand in front of a `%YAML` directive. -/
structure Prologue where
  lines : List Text
  unbroken : ∀ line ∈ lines, '\n' ∉ line
  quiet : ∀ line ∈ lines, isQuiet line

/-- The lines with their breaks. -/
def Prologue.text (p : Prologue) : Text := p.lines.flatMap (· ++ ['\n'])

/-- A `%YAML` directive up to the end of the version that it names. -/
def directive (gap : Text) (version : Version) : Text :=
  ['%', 'Y', 'A', 'M', 'L'] ++ (gap ++ version.name.toList)

variable {line : Text}

theorem isComment_of_head? (h : line.head? = some '#') : isComment line := by
  obtain ⟨rest, rfl⟩ := List.head?_eq_some_iff.1 h
  rw [isComment, List.dropWhile_cons_of_neg (by decide)]
  rfl

theorem head?_ne_of_isIndentedComment (h : isIndentedComment line) :
    line.head? ≠ some '#' ∧ line.head? ≠ some '%' := by
  obtain ⟨hcomment, hhead⟩ := Bool.and_eq_true_iff.1 h
  refine ⟨by simpa using hhead, fun hpercent => ?_⟩
  obtain ⟨rest, rfl⟩ := List.head?_eq_some_iff.1 hpercent
  rw [isComment, List.dropWhile_cons_of_neg (by decide)] at hcomment
  simp at hcomment

theorem isBlank_of_isComment (h : isComment line) : line.isBlank = false := by
  have hmem : '#' ∈ line := (List.dropWhile_sublist _).subset (List.mem_of_mem_head? (by simpa [isComment] using h))
  exact Bool.eq_false_iff.2 fun hblank => absurd (List.all_eq_true.1 hblank _ hmem) (by decide)

/-! ### Verdicts -/

/-- The line break makes no difference to the verdict. -/
theorem judgeLine_concat_break (line : Text) : judgeLine (line ++ ['\n']) = judgeLine line := by
  rw [judgeLine, judgeLine, Text.trimEnd_append_of_isBlank (by decide)]

theorem judgeLine_of_isBlank (h : line.isBlank) : judgeLine line = .undecided := by
  rw [judgeLine, Text.trimEnd_eq_nil_iff.2 h]

theorem judgeLine_of_head?_eq_hash (h : line.head? = some '#') : judgeLine line = .undecided := by
  have hhead := (Text.head?_trimEnd (isBlank_of_isComment (isComment_of_head? h))).trans h
  obtain ⟨rest, hrest⟩ := List.head?_eq_some_iff.1 hhead
  simp [judgeLine, hrest]

theorem judgeLine_of_isOtherDirective (h : isOtherDirective line) : judgeLine line = .undecided := by
  simp only [isOtherDirective, Bool.and_eq_true, beq_iff_eq, Option.isNone_iff_eq_none] at h
  obtain ⟨hhead, hyaml⟩ := h
  obtain ⟨rest, rfl⟩ := List.head?_eq_some_iff.1 hhead
  have htrim : Text.trimEnd ('%' :: rest) = '%' :: Text.trimEnd rest :=
    Text.trimEnd_append_cons (by decide) [] rest
  -- what is left of the line begins it, so it does not begin with the name of the directive either
  have hyaml' : Text.dropStart? ['%', 'Y', 'A', 'M', 'L'] ('%' :: Text.trimEnd rest) = none := by
    refine Option.eq_none_iff_forall_ne_some.2 fun tail htail => ?_
    obtain ⟨spaces, hspaces⟩ := Text.trimEnd_isPrefix ('%' :: rest)
    rw [htrim, Text.dropStart?_eq_some_iff.1 htail, List.append_assoc] at hspaces
    rw [Text.dropStart?_eq_some_iff.2 hspaces.symm] at hyaml
    cases hyaml
  rw [judgeLine, htrim]
  simp [hyaml']

theorem judgeLine_of_head?_ne (hblank : line.isBlank = false) (hhash : line.head? ≠ some '#')
    (hpercent : line.head? ≠ some '%') : judgeLine line = .document := by
  rw [← Text.head?_trimEnd hblank] at hhash hpercent
  unfold judgeLine
  cases htrim : line.trimEnd with
  | nil => simp [Text.trimEnd_eq_nil_iff.1 htrim] at hblank
  | cons c cs =>
    rw [htrim] at hhash hpercent
    simp only [List.head?_cons, ne_eq, Option.some.injEq] at hhash hpercent
    simp [Text.dropStart?, hhash, hpercent, Ne.symm hpercent]

/-- A comment that does not begin its line is taken for the beginning of the document. -/
theorem judgeLine_of_isIndentedComment (h : isIndentedComment line) : judgeLine line = .document := by
  obtain ⟨hhash, hpercent⟩ := head?_ne_of_isIndentedComment h
  exact judgeLine_of_head?_ne (isBlank_of_isComment (Bool.and_eq_true_iff.1 h).1) hhash hpercent

theorem judgeLine_directive {gap rest : Text} (version : Version) (hgap : ∀ c ∈ gap, Token.isBlank c)
    (hrest : ∀ c, rest.head? = some c → Text.isSpace c) :
    judgeLine (directive gap version ++ rest) = .directive (some version) := by
  have hname : ∃ before c, version.name.toList = before ++ [c] ∧ Text.isSpace c = false := by
    cases version with
    | v1_1 => exact ⟨['1', '.'], '1', rfl, by decide⟩
    | v1_2 => exact ⟨['1', '.'], '2', rfl, by decide⟩
  -- the version ends in a digit, so trimming takes nothing of the directive
  have htrim : (directive gap version ++ rest).trimEnd =
      '%' :: 'Y' :: 'A' :: 'M' :: 'L' :: (gap ++ (version.name.toList ++ rest.trimEnd)) := by
    obtain ⟨before, c, hname, hc⟩ := hname
    have := Text.trimEnd_append_cons hc (['%', 'Y', 'A', 'M', 'L'] ++ (gap ++ before)) rest
    simpa [directive, hname] using this
  have hword : Text.firstWord? (gap ++ (version.name.toList ++ rest.trimEnd)) = some version.name.toList := by
    have hchars : version.name.toList.all (!Text.isSpace ·) := by cases version <;> decide
    refine Text.firstWord?_append (fun c hc => Text.isSpace_of_isBlank (hgap c hc)) ?_ (fun c hc => ?_)
      fun c hc => hrest c ?_
    · cases version <;> decide
    · simpa using List.all_eq_true.1 hchars c hc
    · obtain ⟨spaces, hspaces⟩ := Text.trimEnd_isPrefix rest
      rw [← hspaces, List.head?_append, hc]
      rfl
  rw [judgeLine, htrim]
  simp only [Text.dropStart?, ↓reduceIte, hword, Option.bind_eq_bind, Option.bind_some]
  cases version <;> rfl

/-! ### All lines -/

/-- Behind a prologue the next line decides, unless a comment of the prologue is indented. -/
theorem ofLines?_append {lines : List Text} (quiet : ∀ line ∈ lines, isQuiet line) (rest : List Text) :
    ofLines? (lines.map (· ++ ['\n']) ++ rest) =
      if lines.any isIndentedComment then none else ofLines? rest := by
  induction lines with
  | nil => rfl
  | cons line lines ih =>
    obtain ⟨hline, hlines⟩ := List.forall_mem_cons.1 quiet
    rw [List.map_cons, List.cons_append, ofLines?, judgeLine_concat_break, List.any_cons]
    by_cases hindented : isIndentedComment line
    · rw [judgeLine_of_isIndentedComment hindented, hindented]
      rfl
    · -- what is left of the comments begins its line, so every line lets the next one decide
      have hundecided : judgeLine line = .undecided := by
        simp only [isQuiet, Bool.or_eq_true, or_assoc] at hline
        rcases hline with h | h | h
        · exact judgeLine_of_isBlank h
        · exact judgeLine_of_head?_eq_hash (by simpa [isIndentedComment, h] using hindented)
        · exact judgeLine_of_isOtherDirective h
      rw [hundecided, Bool.eq_false_iff.2 hindented, Bool.false_or]
      exact ih hlines

/-- Nothing is decided when the first line that is neither blank nor a comment is not a directive. -/
theorem ofLines?_eq_none {lines : List Text} (h : ∀ line,
    lines.find? (fun line => !line.isBlank && !isComment line) = some line → line.head? ≠ some '%') :
    ofLines? lines = none := by
  induction lines with
  | nil => rfl
  | cons line lines ih =>
    rw [ofLines?]
    cases hblank : line.isBlank with
    | true =>
      rw [judgeLine_of_isBlank hblank]
      exact ih fun line' h' => h line' (by rw [List.find?_cons_of_neg (by simp [hblank]), h'])
    | false =>
      by_cases hhash : line.head? = some '#'
      · rw [judgeLine_of_head?_eq_hash hhash]
        exact ih fun line' h' => h line' (by rw [List.find?_cons_of_neg (by simp [isComment_of_head? hhash]), h'])
      · cases hcomment : isComment line with
        | true => rw [judgeLine_of_isIndentedComment (by simpa [isIndentedComment, hcomment] using hhash)]
        | false => rw [judgeLine_of_head?_ne hblank hhash (h line (by simp [hblank, hcomment]))]

theorem ofDirective?_prologue (p : Prologue) (version : Version) {gap rest : Text}
    (hgap : ∀ c ∈ gap, Token.isBlank c) (hrest : ∀ c, rest.head? = some c → Text.isSpace c) :
    ofDirective? (p.text ++ (directive gap version ++ rest)) =
      if p.lines.any isIndentedComment then none else some version := by
  have hbreak : '\n' ∉ directive gap version := by
    have hgap' : '\n' ∉ gap := fun h => absurd (hgap _ h) (by decide)
    cases version <;> simp [directive, hgap', name]
  obtain ⟨rest', lines, ⟨after, rfl⟩, hlines⟩ :=
    Text.exists_linesWithBreaks_append (by simp [directive]) hbreak rest
  have hrest' : ∀ c, rest'.head? = some c → Text.isSpace c := fun c hc =>
    hrest c (by rw [List.head?_append, hc]; rfl)
  rw [ofDirective?, Prologue.text, Text.linesWithBreaks_flatMap_append p.unbroken, ofLines?_append p.quiet, hlines,
    ofLines?, judgeLine_directive version hgap hrest']

/-- A `%YAML` directive behind a prologue decides the version of the load, whatever is asked for from outside, when no
comment of the prologue is indented; behind an indented comment it is not found.  A text whose first line that is
neither blank nor a comment is not a directive is loaded with the version asked for. -/
theorem version_of_load (chosen : Version) (events : List MarkedEvent) :
    (∀ (p : Prologue) (version : Version) (gap rest : Text), (∀ c ∈ gap, Token.isBlank c) →
      (∀ c, rest.head? = some c → Text.isSpace c) →
      let content := p.text ++ (directive gap version ++ rest)
      let found := if p.lines.any isIndentedComment then none else some version
      ofDirective? content = found ∧
        Document.ofReadings content chosen (events.map .ok) = Document.ofEvents content (found.getD chosen) events) ∧
    ∀ content : Text, (∀ line,
      content.linesWithBreaks.find? (fun line => !line.isBlank && !isComment line) = some line →
        line.head? ≠ some '%') →
      Document.ofReadings content chosen (events.map .ok) = Document.ofEvents content chosen events := by
  refine ⟨fun p version gap rest hgap hrest => ?_, fun content hcontent => ?_⟩
  · have hfound := ofDirective?_prologue p version hgap hrest
    refine ⟨hfound, ?_⟩
    rw [Document.ofReadings_map_ok, effective, hfound]
  · rw [Document.ofReadings_map_ok, effective, ofDirective?, ofLines?_eq_none hcontent]
    rfl

/-- Behind blank lines, a comment and a `%TAG` directive the version is found, and in front of a document it is not. -/
theorem version_of_load_behind_tag_directive :
    ofDirective? "# c\n\n%TAG ! x\n%YAML \t1.1 # d\n---\nyes\n".toList = some .v1_1 ∧
      ∀ chosen events, Document.ofReadings "  # c\nyes: %YAML 1.1\n".toList chosen (events.map .ok) =
        Document.ofEvents "  # c\nyes: %YAML 1.1\n".toList chosen events := by
  refine ⟨?_, fun chosen events => (version_of_load chosen events).2 _ (by decide)⟩
  let p : Prologue := ⟨["# c".toList, [], "%TAG ! x".toList], by decide, by decide⟩
  exact ((version_of_load .v1_2 []).1 p .v1_1 " \t".toList " # d\n---\nyes\n".toList
    (List.all_eq_true.1 (by decide)) fun c hc => Option.some.inj hc ▸ by decide).1

/-- A directive in front of the document that does not decide the version: the comment before it is indented. -/
theorem directive_behind_indented_comment :
    ∃ (p : Prologue) (gap rest : Text), gap ≠ [] ∧ (∀ c ∈ gap, Token.isBlank c) ∧
      (∀ c, rest.head? = some c → Text.isSpace c) ∧
      p.text ++ (directive gap .v1_1 ++ rest) = "  # c\n%YAML 1.1\n---\nyes\n".toList ∧
      effective (p.text ++ (directive gap .v1_1 ++ rest)) .v1_2 = .v1_2 :=
  ⟨⟨["  # c".toList], by decide, by decide⟩, [' '], "\n---\nyes\n".toList, by decide,
    List.all_eq_true.1 (by decide), fun c hc => Option.some.inj hc ▸ by decide, by decide, by decide⟩

end Version

end LocatedYaml
