import LocatedYaml.Proofs.Extent.Region
import LocatedYaml.Proofs.Extent.Sliced

/-!
# Content of block scalars

Which lines below a header are the content of its scalar, said of all texts and without the loop that finds them.
The first line that is not blank decides: when it is indented deeper than the owner, the content goes on as long as the
lines are blank or as deep as that line, and otherwise it has no line that is not blank (`IsRegion`).  The scalar ends
behind the last of these lines, and without `+` behind the last one that is not blank (`blockScalarEnd_of_lines`).
-/

namespace LocatedYaml

namespace Text

/-- The lines before the last end with a line feed. -/
theorem getLast?_of_linesWithBreaks {t : Text} {upto after : List Text} (h : linesWithBreaks t = upto ++ after)
    (hafter : after ≠ []) : ('\n' :: upto.flatten).getLast? = some '\n' := by
  induction t using lines_induction generalizing upto with
  | last line hline =>
    by_cases hne : line = []
    · rw [hne] at h
      obtain ⟨-, hnil⟩ := List.append_eq_nil_iff.1 h.symm
      exact absurd hnil hafter
    · rw [linesWithBreaks_of_not_mem hline hne] at h
      cases upto with
      | nil => rfl
      | cons first upto =>
        obtain ⟨-, hnil⟩ := List.cons.inj h
        exact absurd (List.append_eq_nil_iff.1 hnil.symm).2 hafter
  | line line rest hline ih =>
    rw [linesWithBreaks_append_break hline] at h
    cases upto with
    | nil => rfl
    | cons first upto =>
      obtain ⟨rfl, hrest⟩ := List.cons.inj h
      have hflatten : '\n' :: ((line ++ ['\n']) :: upto).flatten = ('\n' :: line) ++ ('\n' :: upto.flatten) := by simp
      rw [hflatten, List.getLast?_append, ih hrest, Option.some_or]

end Text

namespace Extent

open Text

/-! ### Runs of lines -/

/-- The longest beginning of the lines of which every one has the property. -/
structure IsLongestRun (p : Text → Bool) (lines run : List Text) : Prop where
  isPrefix : run <+: lines
  all : ∀ line ∈ run, p line
  longest : ∀ other, other <+: lines → (∀ line ∈ other, p line) → other <+: run

theorem isLongestRun_takeWhile (p : Text → Bool) (lines : List Text) : IsLongestRun p lines (lines.takeWhile p) := by
  refine ⟨List.takeWhile_prefix p, fun line => List.mem_takeWhile_imp, ?_⟩
  rintro other ⟨after, rfl⟩ hall
  rw [List.takeWhile_append_of_pos hall]
  exact List.prefix_append other _

theorem IsLongestRun.eq {p : Text → Bool} {lines run run' : List Text} (h : IsLongestRun p lines run)
    (h' : IsLongestRun p lines run') : run = run' :=
  (h'.longest run h.isPrefix h.all).eq_of_length_le (h.longest run' h'.isPrefix h'.all).length_le

/-- The lines that can belong to the content of a scalar whose owner is at column `owner`: those that are blank or as
deep as the first line that is not blank, or only blank ones when that line is not deeper than the owner. -/
structure IsRegion (owner : Int) (lines run : List Text) : Prop where
  deeper : ∀ indent : Nat, firstIndent? lines = some indent → owner < indent → IsLongestRun (reaches indent) lines run
  blank : (∀ indent : Nat, firstIndent? lines = some indent → indent ≤ owner) → IsLongestRun isBlank lines run

theorem isRegion_region (owner : Int) (lines : List Text) : IsRegion owner lines (region owner lines) := by
  constructor
  · intro indent hindent hlt
    unfold region
    simp only [hindent, if_pos hlt]
    exact isLongestRun_takeWhile (reaches indent) lines
  · intro hshallow
    unfold region
    split
    · rename_i hnone
      have hall : ∀ line ∈ lines, isBlank line := by
        intro line hline
        simpa using List.find?_eq_none.1 (Option.map_eq_none_iff.1 hnone) line hline
      exact ⟨List.prefix_rfl, hall, fun other hother _ => hother⟩
    · rename_i indent hindent
      rw [if_neg (Int.not_lt.2 (hshallow indent hindent))]
      exact isLongestRun_takeWhile isBlank lines

/-- In either case the lines are a longest run, and those that are not blank are indented deeper than the owner. -/
theorem IsRegion.exists_isLongestRun {owner : Int} {lines run : List Text} (h : IsRegion owner lines run) :
    ∃ p, IsLongestRun p lines run ∧ ∀ line, p line → isBlank line = false → owner < indentOf line := by
  by_cases hdeep : ∃ indent : Nat, firstIndent? lines = some indent ∧ owner < indent
  · obtain ⟨indent, hindent, hlt⟩ := hdeep
    refine ⟨reaches indent, h.deeper indent hindent hlt, fun line hreaches hblank => ?_⟩
    rw [reaches, hblank, Bool.false_or, decide_eq_true_eq] at hreaches
    omega
  · refine ⟨isBlank, h.blank fun indent hindent => ?_, fun line hline hblank => ?_⟩
    · exact Int.not_lt.1 fun hlt => hdeep ⟨indent, hindent, hlt⟩
    · rw [hblank] at hline
      cases hline

/-- What is left of the lines, and the blank lines at the end that are left out. -/
theorem exists_settled (keep : Bool) (lines : List Text) :
    ∃ blanks, lines = settled keep lines ++ blanks ∧ (∀ line ∈ blanks, isBlank line) ∧ (keep → blanks = []) ∧
      (keep = false → ∀ line, (settled keep lines).getLast? = some line → isBlank line = false) := by
  cases keep with
  | true => exact ⟨[], by simp [settled], by simp, fun _ => rfl, fun h => absurd h (by decide)⟩
  | false =>
    refine ⟨lines.rtakeWhile isBlank, (List.rdropWhile_append_rtakeWhile ..).symm, fun line => List.mem_rtakeWhile_imp,
      fun h => absurd h (by decide), fun _ line hline => ?_⟩
    have hline : (lines.rdropWhile isBlank).getLast? = some line := hline
    have hne : lines.rdropWhile isBlank ≠ [] := by
      intro hnil
      rw [hnil] at hline
      cases hline
    rw [List.getLast?_eq_some_getLast hne] at hline
    obtain rfl := Option.some.inj hline
    exact Bool.eq_false_iff.2 (List.rdropWhile_last_not isBlank lines hne)

/-! ### The end of the scalar -/

/-- Below any line, taken as a header: the lines `kept` are those that can belong to the content, without `+` up to the
last one that is not blank.  The scalar ends behind them, at a line feed or with the source; when there are none, it
ends with its header. -/
theorem blockScalarEnd_of_lines (before : Text) {header : Text} (hheader : '\n' ∉ header) (content : Text) :
    let source := before ++ (header ++ '\n' :: content)
    let start := byteLength before
    let owner := parentIndent source start
    let hasPlus := '+' ∈ header.takeWhile (· ≠ '#')
    ∃ run kept blanks : List Text, ∃ after : Text,
      IsRegion owner (linesWithBreaks content) run ∧ run = kept ++ blanks ∧ (∀ line ∈ blanks, isBlank line) ∧
      (hasPlus → blanks = []) ∧ (¬hasPlus → ∀ line, kept.getLast? = some line → isBlank line = false) ∧
      (∀ line ∈ kept, isBlank line = false → owner < indentOf line) ∧
      source = (before ++ (header ++ '\n' :: kept.flatten)) ++ after ∧
      (('\n' :: kept.flatten).getLast? = some '\n' ∨ after = []) ∧
      blockScalarEnd source start = byteLength (before ++ (header ++ '\n' :: kept.flatten)) ∧
      Sliced.blockScalarEnd source start = .ok (blockScalarEnd source start) := by
  intro source start owner hasPlus
  let run := region owner (linesWithBreaks content)
  have hregion : IsRegion owner (linesWithBreaks content) run := isRegion_region owner (linesWithBreaks content)
  obtain ⟨p, hlongest, hdeep⟩ := hregion.exists_isLongestRun
  obtain ⟨blanks, hrun, hblanks, hplus, hlast⟩ := exists_settled (decide hasPlus) run
  obtain ⟨rest, hrest⟩ := hlongest.isPrefix
  have hlines : linesWithBreaks content = settled (decide hasPlus) run ++ (blanks ++ rest) := by
    rw [← List.append_assoc, ← hrun, hrest]
  have hcontent : content = (settled (decide hasPlus) run).flatten ++ (blanks ++ rest).flatten := by
    rw [← List.flatten_append, ← hlines, flatten_linesWithBreaks]
  refine ⟨run, settled (decide hasPlus) run, blanks, (blanks ++ rest).flatten, hregion, hrun, hblanks,
    fun h => hplus (decide_eq_true h), fun h => hlast (decide_eq_false h), ?_, ?_, ?_,
    blockScalarEnd_append hheader rfl, Sliced.blockScalarEnd_eq_ok before _⟩
  · intro line hline hblank
    refine hdeep line (hlongest.all line ?_) hblank
    rw [hrun]
    exact List.mem_append_left blanks hline
  · have hsource : source = before ++ (header ++ '\n' :: content) := rfl
    rw [hsource, hcontent]
    simp
  · by_cases hend : blanks ++ rest = []
    · exact Or.inr (by rw [hend, List.flatten_nil])
    · exact Or.inl (getLast?_of_linesWithBreaks hlines hend)

/-- With `+`, blank lines in front of the first line, and behind the last one that is as deep as it. -/
theorem blockScalarEnd_of_lines_above_shallower :
    let source : Text := "é: |+ # x\n\n  a\n   b\n \n c\n".toList
    '\n' ∉ "|+ # x".toList ∧ source.restFrom 23 = " c\n".toList ∧ blockScalarEnd source 4 = 23 ∧
      Sliced.blockScalarEnd source 4 = .ok 23 := by
  intro source
  let content : Text := "\n  a\n   b\n \n c\n".toList
  have hheader : '\n' ∉ "|+ # x".toList := by decide
  obtain ⟨run, kept, blanks, after, hregion, hrun, -, hplus, -, -, -, -, hend, hsliced⟩ :=
    blockScalarEnd_of_lines "é: ".toList hheader content
  have hsource : "é: ".toList ++ ("|+ # x".toList ++ '\n' :: content) = source := by decide
  have hstart : byteLength "é: ".toList = 4 := by decide
  rw [hsource, hstart] at hregion hend hsliced
  have howner : parentIndent source 4 = 0 := by decide
  have hlongest := hregion.deeper 2 (by decide) (by rw [howner]; decide)
  have hlines := hlongest.eq (isLongestRun_takeWhile (reaches 2) _)
  rw [hplus (by decide), List.append_nil] at hrun
  rw [← hrun, hlines] at hend
  have hstop : blockScalarEnd source 4 = 23 := hend.trans (by decide)
  exact ⟨hheader, by decide, hstop, by rw [hsliced, hstop]⟩

end Extent

end LocatedYaml
