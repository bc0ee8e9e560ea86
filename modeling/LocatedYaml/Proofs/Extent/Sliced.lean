import LocatedYaml.Extent.Sliced
import LocatedYaml.Proofs.Extent.Header
import LocatedYaml.Proofs.Extent.Span
import LocatedYaml.Proofs.Result
import LocatedYaml.Proofs.Text.Slice

/-!
# Pieces of the source

From a boundary of the source on, no piece that the scanners take is missing: scanning by offsets succeeds, with the
answer of the scanner that takes the text apart (`Sliced.scalarEnd_eq_ok`, `Sliced.blockScalarStart_eq_ok`).  What the
scanners answer is a boundary again, behind the start and in the source, or, for the header of a block scalar, not
behind its content (`scanners_within_source`).
-/

namespace LocatedYaml.Extent

open Text

namespace Sliced

/-! ### The owner -/

private theorem utf8Size_indicator {c : Char} (h : c = '-' ∨ c = '?') : c.utf8Size = 1 := by
  rcases h with rfl | rfl
  · rfl
  · rfl

theorem isIndicatorAt_eq_ok (a : Text) (c : Char) (cs : Text) :
    isIndicatorAt (bytes (a ++ c :: cs)) (byteLength a) =
      .ok (decide ((c = '-' ∨ c = '?') ∧ (cs = [] ∨ cs.head? = some ' '))) := by
  obtain ⟨byte, hbyte, hchar⟩ := exists_byteAt a c cs
  have hmark : byte = '-'.toUInt8 ∨ byte = '?'.toUInt8 ↔ c = '-' ∨ c = '?' :=
    or_congr (hchar '-' (by decide)) (hchar '?' (by decide))
  rw [isIndicatorAt, hbyte, ok_bind]
  by_cases hc : c = '-' ∨ c = '?'
  · have hnext : byteLength a + 1 = byteLength (a ++ [c]) := by rw [byteLength_concat, utf8Size_indicator hc]
    rw [if_pos (hmark.2 hc)]
    cases cs with
    | nil =>
      rw [length_bytes, hnext, if_pos rfl, decide_eq_true ⟨hc, Or.inl rfl⟩]
      rfl
    | cons d ds =>
      obtain ⟨next, hnextByte, hfollowing⟩ := exists_byteAt (a ++ [c]) d ds
      rw [List.append_assoc, List.singleton_append] at hnextByte
      have hlt : byteLength a + 1 ≠ (bytes (a ++ c :: d :: ds)).length := by
        have := d.utf8Size_pos
        simp only [length_bytes, byteLength_append, byteLength_cons, utf8Size_indicator hc]
        omega
      have hspace : next = ' '.toUInt8 ↔
          (c = '-' ∨ c = '?') ∧ (d :: ds = [] ∨ (d :: ds).head? = some ' ') := by
        rw [hfollowing ' ' (by decide)]
        simp [hc]
      rw [if_neg hlt, hnext, hnextByte, ok_bind, decide_eq_decide.2 hspace]
      rfl
  · rw [if_neg (mt hmark.1 hc), decide_eq_false fun h => hc h.1]
    rfl

theorem ownerColumn_eq_ok (a b : Text) (indicator : Option Nat) :
    ownerColumn (bytes (a ++ b)) (byteLength a) indicator = .ok (Extent.ownerColumn (byteLength a) indicator b) := by
  induction b generalizing a indicator with
  | nil =>
    rw [ownerColumn.eq_def, if_neg (by simp)]
    cases indicator with
    | none => rfl
    | some column => rfl
  | cons c cs ih =>
    have hlt : byteLength a < (bytes (a ++ c :: cs)).length := by
      have := c.utf8Size_pos
      simp only [length_bytes, byteLength_append, byteLength_cons]
      omega
    -- what follows a character of one byte is scanned from the next index on
    have hrest : ∀ indicator', c.utf8Size = 1 → ownerColumn (bytes (a ++ c :: cs)) (byteLength a + 1) indicator' =
        .ok (Extent.ownerColumn (byteLength a + 1) indicator' cs) := by
      intro indicator' hsize
      have hnext : byteLength a + 1 = byteLength (a ++ [c]) := by rw [byteLength_concat, hsize]
      have happend : a ++ c :: cs = (a ++ [c]) ++ cs := by simp
      rw [hnext, happend, ih]
    obtain ⟨byte, hbyte, hchar⟩ := exists_byteAt a c cs
    have hspace := hchar ' ' (by decide)
    rw [ownerColumn.eq_def, if_pos hlt, hbyte, ok_bind, isIndicatorAt_eq_ok, Extent.ownerColumn]
    by_cases hc : c = ' '
    · rw [if_pos (hspace.2 hc), if_pos hc, hrest _ (by rw [hc]; rfl)]
    · rw [if_neg (mt hspace.1 hc), if_neg hc, ok_bind]
      by_cases hmark : (c = '-' ∨ c = '?') ∧ (cs = [] ∨ cs.head? = some ' ')
      · rw [if_pos (decide_eq_true hmark), if_pos hmark, hrest _ (utf8Size_indicator hmark.1)]
      · rw [if_neg (by simpa using hmark), if_neg hmark]
        rfl

/-- The line of a header in front of it is a piece of the source. -/
theorem parentIndent_eq_ok (before rest : Text) :
    parentIndent (before ++ rest) (byteLength before) =
      .ok (Extent.parentIndent (before ++ rest) (byteLength before)) := by
  obtain ⟨lines, hlines, hstart⟩ := exists_lastLine before
  have hline : slice (before ++ rest) before.lastLineStart (byteLength before) = .ok before.lastLine := by
    refine slice_eq_ok_iff.2 ⟨lines, rest, ?_, hstart.symm, ?_⟩
    · rw [← List.append_assoc, ← hlines]
    · rw [hstart, ← byteLength_append, ← hlines]
  rw [parentIndent, slice_prefix, ok_bind, hline, ok_bind, Extent.parentIndent, uptoOrAll_append]
  split
  · rfl
  · exact ownerColumn_eq_ok [] before.lastLine none

/-! ### The content -/

theorem contentEnd_of_le {source : Text} {position : Nat} (h : byteLength source ≤ position) (keep : Bool)
    (parent : Int) (indent : Option Nat) (stop : Nat) :
    contentEnd source keep parent indent stop position = .ok stop := by
  rw [contentEnd, if_neg (Nat.not_lt.2 h)]
  rfl

/-- What the loop does with a line: the pieces it takes are the rest of the source and the line. -/
theorem contentEnd_line (before : Text) {line : Text} (hline : '\n' ∉ line) (tail : Text) (hne : line ++ tail ≠ [])
    (htail : tail = [] ∨ ∃ more, tail = '\n' :: more) (keep : Bool) (parent : Int) (indent : Option Nat) (stop : Nat) :
    let source := before ++ (line ++ tail)
    let next := byteLength before + byteLength line + 1
    let throughBreak := min next (byteLength source)
    contentEnd source keep parent indent stop (byteLength before) =
      if line.isBlank then contentEnd source keep parent indent (if keep then throughBreak else stop) next
      else if fits parent indent line then
        contentEnd source keep parent (some (indent.getD (indentOf line))) throughBreak next
      else .ok stop := by
  intro source next throughBreak
  have hlength : byteLength source = byteLength before + byteLength (line ++ tail) := byteLength_append ..
  have hlt : byteLength before < byteLength source := by
    have hpos : byteLength (line ++ tail) ≠ 0 := mt byteLength_eq_zero hne
    omega
  have hrest : slice source (byteLength before) (byteLength source) = .ok (line ++ tail) :=
    slice_suffix before (line ++ tail)
  have hend : lineEnd source (line ++ tail) (byteLength before) = byteLength before + byteLength line := by
    unfold lineEnd
    rcases htail with rfl | ⟨more, rfl⟩
    · rw [List.append_nil, firstBreak?_of_not_mem hline]
      simpa using hlength
    · rw [firstBreak?_append_break hline]
  have hslice : slice source (byteLength before) (byteLength before + byteLength line) = .ok line :=
    slice_append before line tail
  rw [contentEnd, if_pos hlt, hrest, ok_bind, hend]
  dsimp only
  rw [hslice]
  rfl

theorem isBlank_append_break (line : Text) : isBlank (line ++ ['\n']) = isBlank line := by
  have hbreak : isSpace '\n' = true := by decide
  simp [isBlank, hbreak]

theorem indentOf_append_break (line : Text) : indentOf (line ++ ['\n']) = indentOf line := by
  simp only [indentOf, List.takeWhile_append]
  split
  · rename_i hspaces
    simp [hspaces]
  · rfl

theorem fits_append_break (parent : Int) (indent : Option Nat) (line : Text) :
    fits parent indent (line ++ ['\n']) = fits parent indent line := by
  cases indent with
  | none => simp only [fits, indentOf_append_break]
  | some required => simp only [fits, indentOf_append_break]

/-- From a line on, the loop ends where the loop over the list of the lines does. -/
theorem contentEnd_eq_ok (keep : Bool) (parent : Int) (indent : Option Nat) (before rest : Text)
    (base done taken : Nat) (hbefore : byteLength before = base + taken) :
    contentEnd (before ++ rest) keep parent indent (base + done) (byteLength before) =
      .ok (base + contentBytes keep parent indent done taken (linesWithBreaks rest)) := by
  induction rest using lines_induction generalizing indent before done taken with
  | last line hline =>
    by_cases hne : line = []
    · rw [hne, contentEnd_of_le (by simp)]
      rfl
    · have hnext : byteLength (before ++ line) ≤ byteLength before + byteLength line + 1 := by
        rw [byteLength_append]
        exact Nat.le_succ _
      have hstep := contentEnd_line before hline [] (by simpa using hne) (Or.inl rfl) keep parent indent (base + done)
      simp only [List.append_nil] at hstep
      have hthrough : min (byteLength before + byteLength line + 1) (byteLength (before ++ line)) =
          base + (taken + byteLength line) := by
        rw [byteLength_append]
        omega
      rw [hstep, hthrough, linesWithBreaks_of_not_mem hline hne, contentBytes]
      simp only [contentEnd_of_le hnext, contentBytes]
      split
      · cases keep <;> rfl
      · split
        · rfl
        · rfl
  | line line rest hline ih =>
    have hnext := (byteLength_append_break before line).symm
    have hsource : before ++ (line ++ '\n' :: rest) = (before ++ (line ++ ['\n'])) ++ rest := by simp
    have hthrough : min (byteLength (before ++ (line ++ ['\n']))) (byteLength ((before ++ (line ++ ['\n'])) ++ rest)) =
        base + (taken + byteLength (line ++ ['\n'])) := by
      simp only [byteLength_append] at hbefore ⊢
      omega
    have hrest : byteLength (before ++ (line ++ ['\n'])) = base + (taken + byteLength (line ++ ['\n'])) := by
      rw [byteLength_append]
      omega
    rw [contentEnd_line before hline ('\n' :: rest) (by simp) (Or.inr ⟨rest, rfl⟩), hnext, hsource, hthrough,
      linesWithBreaks_append_break hline, contentBytes]
    simp only [isBlank_append_break, indentOf_append_break, fits_append_break]
    split
    · have hdone : (if keep then base + (taken + byteLength (line ++ ['\n'])) else base + done) =
          base + (if keep then taken + byteLength (line ++ ['\n']) else done) := by
        cases keep <;> rfl
      rw [hdone, ih _ _ _ _ hrest]
    · split
      · rw [ih _ _ _ _ hrest]
      · rfl

theorem blockScalarEnd_eq_ok (before rest : Text) :
    blockScalarEnd (before ++ rest) (byteLength before) =
      .ok (Extent.blockScalarEnd (before ++ rest) (byteLength before)) := by
  have hrest : restFrom (before ++ rest) (byteLength before) = rest := restFrom_append before rest
  induction rest using lines_induction with
  | last line hline =>
    have hdrop : line.dropWhile (· ≠ '\n') = [] :=
      List.dropWhile_eq_nil_iff.2 fun c hc => decide_eq_true fun heq => hline (heq ▸ hc)
    simp only [blockScalarEnd, Extent.blockScalarEnd, hrest, hdrop, firstBreak?_of_not_mem hline]
    rfl
  | line header content hheader _ =>
    have hslice := slice_append before header ('\n' :: content)
    have hstart := byteLength_append_break before header
    have hsource : before ++ (header ++ '\n' :: content) = (before ++ (header ++ ['\n'])) ++ content := by simp
    have hcontent := fun keep parent => contentEnd_eq_ok keep parent none (before ++ (header ++ ['\n'])) content
      (byteLength before + byteLength header + 1) 0 0 hstart
    rw [← hsource, hstart] at hcontent
    simp only [Nat.add_zero] at hcontent
    simp only [blockScalarEnd, hrest, firstBreak?_append_break hheader, hslice, ok_bind, parentIndent_eq_ok]
    rw [hcontent]
    simp only [Extent.blockScalarEnd, hrest, dropWhile_append_break hheader, firstLine_append_break hheader]

theorem scalarEnd_eq_ok (before rest : Text) (style : Scalar.Style) (value : Text) :
    scalarEnd (before ++ rest) (byteLength before) style value =
      .ok (Extent.scalarEnd (before ++ rest) (byteLength before) style value) := by
  cases style with
  | plain | singleQuoted | doubleQuoted => rfl
  | literal | folded => exact blockScalarEnd_eq_ok before rest

/-! ### The header -/

/-- Room for a header behind the text `a`. -/
def leavesRoom (a : Text) : Bool := a = [] || a.getLast?.any fun c => c = ' ' || c = '\t'

theorem hasRoom_eq_ok (a b : Text) : hasRoom (a ++ b) (byteLength a) = .ok (leavesRoom a) := by
  by_cases ha : a = []
  · rw [ha]
    rfl
  · have hne : byteLength a ≠ 0 := mt byteLength_eq_zero ha
    rw [hasRoom, if_neg hne, slice_prefix, ok_bind, leavesRoom, decide_eq_false ha, Bool.false_or]
    rfl

theorem isHeaderAt_eq_ok (a : Text) (c : Char) (cs : Text) :
    isHeaderAt (a ++ c :: cs) (byteLength a) c = .ok (leavesRoom a && isBlockHeader (c :: cs)) := by
  unfold isHeaderAt
  by_cases hc : c = '|' ∨ c = '>'
  · rw [if_pos hc, hasRoom_eq_ok, ok_bind]
    cases leavesRoom a with
    | false => rfl
    | true =>
      rw [if_pos rfl, slice_suffix]
      rfl
  · have hheader : isBlockHeader (c :: cs) = false := by
      refine Bool.eq_false_iff.2 fun h => hc ?_
      exact (head?_of_isBlockHeader h).imp Option.some.inj Option.some.inj
    rw [if_neg hc, hheader, Bool.and_false]
    rfl

theorem findHeader?_eq_ok (offset : Nat) (a b : Text) :
    ∃ found, findHeader? (a ++ b) (byteLength a) b = .ok found ∧
      found.map (offset + ·) = Extent.findHeader? (offset + byteLength a) (leavesRoom a) b := by
  induction b generalizing a with
  | nil => exact ⟨none, rfl, rfl⟩
  | cons c cs ih =>
    rw [findHeader?, isHeaderAt_eq_ok, ok_bind, Extent.findHeader?]
    by_cases hfound : leavesRoom a ∧ isBlockHeader (c :: cs)
    · refine ⟨some (byteLength a), ?_, by rw [if_pos hfound]; rfl⟩
      rw [hfound.1, hfound.2]
      rfl
    · obtain ⟨found, hok, heq⟩ := ih (a ++ [c])
      have hroom : leavesRoom (a ++ [c]) = (c = ' ' || c = '\t') := by simp [leavesRoom]
      rw [List.append_assoc, List.singleton_append, byteLength_concat] at hok
      rw [hroom, byteLength_concat, ← Nat.add_assoc] at heq
      refine ⟨found, ?_, by rw [if_neg hfound, heq]⟩
      rw [if_neg (by simpa using hfound), hok]

theorem blockScalarStart_eq_ok (before rest : Text) :
    blockScalarStart (before ++ rest) (byteLength before) =
      .ok (Extent.blockScalarStart (before ++ rest) (byteLength before)) := by
  unfold blockScalarStart Extent.blockScalarStart
  rw [restFrom_append, uptoOrAll_append]
  split
  · rfl
  · obtain ⟨lines, hlines, hstart⟩ := exists_lastLine before.trimEnd
    have hlength := congrArg byteLength hlines
    rw [byteLength_append] at hlength
    have hline : slice before.trimEnd before.trimEnd.lastLineStart before.trimEnd.byteLength =
        .ok before.trimEnd.lastLine :=
      slice_eq_ok_iff.2 ⟨lines, [], by rw [List.append_nil, ← hlines], hstart.symm, by rw [hstart, ← hlength]⟩
    obtain ⟨found, hok, heq⟩ := findHeader?_eq_ok before.trimEnd.lastLineStart [] before.trimEnd.lastLine
    have hoffset : before.trimEnd.byteLength - before.trimEnd.lastLine.byteLength =
        before.trimEnd.lastLineStart + byteLength [] := by
      rw [hstart, byteLength_nil]
      omega
    rw [List.nil_append, byteLength_nil] at hok
    dsimp only
    rw [hline, ok_bind, hok, ok_bind, hoffset]
    have hroom : leavesRoom [] = true := rfl
    rw [← hroom, ← heq]
    cases found <;> rfl

end Sliced

/-! ### All scanners -/

/-- A boundary of the source that is not before `start`. -/
structure IsStop (source : Text) (start stop : Nat) : Prop where
  isBoundary : source.IsBoundary stop
  start_le : start ≤ stop
  le_byteLength : stop ≤ source.byteLength

theorem IsStop.of_isSpan {source : Text} {start stop : Nat} (h : source.IsSpan start stop) : IsStop source start stop :=
  ⟨h.isBoundary_stop, h.le, h.stop_le⟩

/-- From a boundary of the source on, scanning by offsets takes no piece that the source does not have.  The ends of
scalars, aliases and flow collections are boundaries from the start to the end of the source, and the header of a block
scalar is at a boundary that is not behind the start. -/
theorem scanners_within_source {source : Text} {start : Nat} (h : source.IsBoundary start) (style : Scalar.Style)
    (value : Text) (bracket : Char) :
    (Sliced.scalarEnd source start style value = .ok (scalarEnd source start style value) ∧
      IsStop source start (scalarEnd source start style value)) ∧
    IsStop source start (aliasEnd source start) ∧
    (∀ stop, flowEnd? source start bracket = some stop → IsStop source start stop) ∧
    (Sliced.blockScalarStart source start = .ok (blockScalarStart source start) ∧
      source.IsBoundary (blockScalarStart source start) ∧ blockScalarStart source start ≤ start) := by
  have hheader := blockScalarStart_isSpan h
  refine ⟨⟨?_, .of_isSpan (scalarEnd_isSpan h style value)⟩, .of_isSpan (aliasEnd_isSpan h),
    fun stop hstop => .of_isSpan (flowEnd?_isSpan h hstop), ?_, hheader.isBoundary_start, hheader.le⟩
  · obtain ⟨before, rest, rfl, rfl⟩ := h
    exact Sliced.scalarEnd_eq_ok before rest style value
  · obtain ⟨before, rest, rfl, rfl⟩ := h
    exact Sliced.blockScalarStart_eq_ok before rest

/-- A block scalar with an ideographic space on a line of its own and no line feed behind its last line: from its header
it goes to the end of the source, and from its content its header is found. -/
theorem scanners_within_source_of_kept_lines :
    let source : Text := "é: |+ # ü\n  ö\n\u3000\n  ü".toList
    source.IsBoundary 4 ∧ source.IsBoundary 14 ∧ source.byteLength = 25 ∧
      Sliced.scalarEnd source 4 .literal "ö\n\nü".toList = .ok 25 ∧ Sliced.blockScalarStart source 14 = .ok 4 := by
  intro source
  have hheader : source.IsBoundary 4 := by decide
  have hcontent : source.IsBoundary 14 := by decide
  obtain ⟨⟨hend, -⟩, -⟩ := scanners_within_source hheader .literal "ö\n\nü".toList ']'
  obtain ⟨-, -, -, hstart, -⟩ := scanners_within_source hcontent .literal "ö\n\nü".toList ']'
  have hstop : scalarEnd source 4 .literal "ö\n\nü".toList = 25 := by decide
  have hfound : blockScalarStart source 14 = 4 := by decide
  rw [hstop] at hend
  rw [hfound] at hstart
  exact ⟨hheader, hcontent, by decide, hend, hstart⟩

end LocatedYaml.Extent
