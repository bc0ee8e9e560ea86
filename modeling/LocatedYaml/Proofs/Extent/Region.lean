import LocatedYaml.Extent.Basic
import LocatedYaml.Proofs.Extent.Header

/-!
# Lines of a block scalar

The loop over the lines below a header keeps three numbers; `contentLines` says without them which lines it takes.  The
first line that is not blank sets the indentation, when it exceeds that of the owner, and the lines go on as long as
they are blank or indented as deeply (`region`).  Blank lines at the end belong to the content only with `+`.  The end
of the scalar is the end of these lines (`blockScalarEnd_append`).

An indentation indicator in the header plays no part in this: behind one the content ends before the first line that is
shallower than the line it begins with (`scalarEnd_of_indicator`).
-/

namespace LocatedYaml.Extent

open Text

/-! ### Lines that belong to the content -/

/-- The number of spaces in front of the first line that is not blank. -/
def firstIndent? (lines : List Text) : Option Nat := (lines.find? (!isBlank ·)).map indentOf

/-- The line is blank or indented by `indent` spaces or more. -/
def reaches (indent : Nat) (line : Text) : Bool := isBlank line || indent ≤ indentOf line

/-- The lines up to the one that ends the content, given what they have to exceed. -/
def region (parent : Int) (lines : List Text) : List Text :=
  match firstIndent? lines with
  | none => lines
  | some indent => lines.takeWhile (if parent < indent then reaches indent else isBlank)

/-- The lines with the blank ones at the end, or without them. -/
def settled (keep : Bool) (lines : List Text) : List Text :=
  if keep then lines else lines.rdropWhile isBlank

/-- The lines of the content. -/
def contentLines (keep : Bool) (parent : Int) (lines : List Text) : List Text := settled keep (region parent lines)

theorem firstIndent?_cons_of_isBlank {line : Text} (h : isBlank line) (lines : List Text) :
    firstIndent? (line :: lines) = firstIndent? lines := by
  simp [firstIndent?, h]

theorem firstIndent?_cons {line : Text} (h : isBlank line = false) (lines : List Text) :
    firstIndent? (line :: lines) = some (indentOf line) := by
  simp [firstIndent?, h]

theorem region_cons_of_isBlank {line : Text} (h : isBlank line) (parent : Int) (lines : List Text) :
    region parent (line :: lines) = line :: region parent lines := by
  unfold region
  rw [firstIndent?_cons_of_isBlank h]
  split
  · rfl
  · refine List.takeWhile_cons_of_pos ?_
    split
    · simp [reaches, h]
    · exact h

theorem region_cons {line : Text} (h : isBlank line = false) (parent : Int) (lines : List Text) :
    region parent (line :: lines) =
      if parent < indentOf line then line :: lines.takeWhile (reaches (indentOf line)) else [] := by
  unfold region
  rw [firstIndent?_cons h]
  by_cases hindent : parent < indentOf line
  · simp only [if_pos hindent]
    exact List.takeWhile_cons_of_pos (by simp [reaches])
  · simp only [if_neg hindent]
    exact List.takeWhile_cons_of_neg (by simp [h])

theorem settled_cons (keep : Bool) (line : Text) (lines : List Text) :
    settled keep (line :: lines) =
      if settled keep lines = [] ∧ isBlank line ∧ keep = false then [] else line :: settled keep lines := by
  cases keep with
  | true => simp [settled]
  | false =>
    have hlines : lines.rdropWhile isBlank = (lines.reverse.dropWhile isBlank).reverse := rfl
    simp only [settled, Bool.false_eq_true, if_false, hlines, List.reverse_eq_nil_iff, and_true]
    rw [List.rdropWhile, List.reverse_cons, List.dropWhile_append]
    cases hrest : lines.reverse.dropWhile isBlank with
    | nil => cases hblank : isBlank line <;> simp [hblank]
    | cons last before => simp

/-! ### The loop -/

/-- Where content ends that ended at `done` before the lines `kept`, which begin at `taken`. -/
def stop (done taken : Nat) : List Text → Nat
  | [] => done
  | line :: lines => taken + byteLength (line :: lines).flatten

theorem stop_cons (done taken : Nat) (line : Text) (lines : List Text) :
    stop done taken (line :: lines) =
      stop (taken + byteLength line) (taken + byteLength line) lines := by
  cases lines with
  | nil => simp [stop]
  | cons next lines =>
    rw [stop, stop, List.flatten_cons, byteLength_append]
    omega

/-- A blank line counts when a line behind it counts, or with `+`. -/
theorem stop_settled_cons_of_isBlank {line : Text} (h : isBlank line) (keep : Bool) (done taken : Nat)
    (lines : List Text) :
    stop done taken (settled keep (line :: lines)) =
      stop (if keep then taken + byteLength line else done) (taken + byteLength line) (settled keep lines) := by
  rw [settled_cons]
  cases keep with
  | true => simp [stop_cons]
  | false =>
    cases hlines : settled false lines with
    | nil => simp [h, stop]
    | cons next lines => simp [stop, Nat.add_assoc]

theorem stop_settled_cons {line : Text} (h : isBlank line = false) (keep : Bool) (done taken : Nat)
    (lines : List Text) :
    stop done taken (settled keep (line :: lines)) =
      stop (taken + byteLength line) (taken + byteLength line) (settled keep lines) := by
  rw [settled_cons, if_neg (by simp [h]), stop_cons]

/-- With the indentation set, the loop takes the lines that reach it. -/
theorem contentBytes_some (keep : Bool) (parent : Int) (indent done taken : Nat) (lines : List Text) :
    contentBytes keep parent (some indent) done taken lines =
      stop done taken (settled keep (lines.takeWhile (reaches indent))) := by
  induction lines generalizing done taken with
  | nil => cases keep <;> rfl
  | cons line lines ih =>
    rw [contentBytes]
    by_cases hblank : isBlank line
    · have hline : reaches indent line := by simp [reaches, hblank]
      rw [if_pos hblank, ih, List.takeWhile_cons_of_pos hline, stop_settled_cons_of_isBlank hblank]
    · have hblank' : isBlank line = false := Bool.eq_false_iff.2 hblank
      rw [if_neg hblank]
      by_cases hindent : indent ≤ indentOf line
      · have hline : reaches indent line := by simp [reaches, hindent]
        have hfits : fits parent (some indent) line := decide_eq_true hindent
        rw [if_pos hfits, Option.getD_some, ih, List.takeWhile_cons_of_pos hline,
          stop_settled_cons hblank']
      · have hline : ¬reaches indent line := by simp [reaches, hblank', hindent]
        have hfits : ¬fits parent (some indent) line := mt of_decide_eq_true hindent
        rw [if_neg hfits, List.takeWhile_cons_of_neg hline]
        cases keep <;> rfl

theorem contentBytes_none (keep : Bool) (parent : Int) (done taken : Nat) (lines : List Text) :
    contentBytes keep parent none done taken lines = stop done taken (contentLines keep parent lines) := by
  induction lines generalizing done taken with
  | nil => cases keep <;> rfl
  | cons line lines ih =>
    rw [contentBytes, contentLines]
    by_cases hblank : isBlank line
    · rw [if_pos hblank, ih, region_cons_of_isBlank hblank, stop_settled_cons_of_isBlank hblank, contentLines]
    · have hblank' : isBlank line = false := Bool.eq_false_iff.2 hblank
      rw [if_neg hblank, region_cons hblank']
      by_cases hindent : parent < indentOf line
      · have hfits : fits parent none line := decide_eq_true hindent
        rw [if_pos hfits, Option.getD_none, if_pos hindent, stop_settled_cons hblank',
          contentBytes_some]
      · have hfits : ¬fits parent none line := mt of_decide_eq_true hindent
        rw [if_neg hfits, if_neg hindent]
        cases keep <;> rfl

/-- A block scalar ends with the lines of its content. -/
theorem blockScalarEnd_append {source before header content : Text} (hheader : '\n' ∉ header)
    (hsource : source = before ++ (header ++ '\n' :: content)) :
    blockScalarEnd source (byteLength before) =
      byteLength (before ++ (header ++ '\n' :: (contentLines ('+' ∈ header.takeWhile (· ≠ '#'))
        (parentIndent source (byteLength before)) (linesWithBreaks content)).flatten)) := by
  have hrest : restFrom source (byteLength before) = header ++ '\n' :: content := by
    rw [hsource]
    exact restFrom_append before _
  have hstop : ∀ lines : List Text, stop 0 0 lines = byteLength lines.flatten := by
    intro lines
    cases lines <;> simp [stop]
  have hnewline : ('\n' : Char).utf8Size = 1 := rfl
  unfold blockScalarEnd
  simp only [hrest, dropWhile_append_break hheader, firstLine_append_break hheader, contentBytes_none, hstop,
    byteLength_append, byteLength_cons, hnewline]
  omega

theorem scalarEnd_of_header {source : Text} (before content : Text) (h : Header) (hplus : '+' ∉ h.marks)
    (hsource : source = before ++ (h.text ++ '\n' :: content)) {style : Scalar.Style}
    (hstyle : style = .literal ∨ style = .folded) (value : Text) :
    scalarEnd source (byteLength before) style value =
      byteLength (before ++ (h.text ++ '\n' ::
        (contentLines false (parentIndent source (byteLength before)) (linesWithBreaks content)).flatten)) := by
  have hkeep : decide ('+' ∈ h.text.takeWhile (· ≠ '#')) = false :=
    decide_eq_false (mt h.plus_mem_takeWhile_text.1 hplus)
  have hend := blockScalarEnd_append h.newline_not_mem_text hsource
  simp only [hkeep] at hend
  rcases hstyle with rfl | rfl
  · exact hend
  · exact hend

/-! ### Passages -/

/-- The content begins with the lines `block`, blank or indented by `least` or more, the last of them not blank, and the
line behind them, if there is one, is not blank and indented by less than `bound`. -/
structure IsPassage (least bound : Nat) (content : Text) (block after : List Text) : Prop where
  lines : linesWithBreaks content = block ++ after
  reach : ∀ line ∈ block, reaches least line
  last : ∃ line, block.getLast? = some line ∧ isBlank line = false
  outside : ∀ line, after.head? = some line → isBlank line = false ∧ indentOf line < bound

variable {least bound first : Nat} {parent : Int} {content : Text} {block after : List Text}

theorem firstIndent?_append (h : firstIndent? block = some first) (after : List Text) :
    firstIndent? (block ++ after) = some first := by
  obtain ⟨line, hline, hfirst⟩ := Option.map_eq_some_iff.1 h
  rw [firstIndent?, List.find?_append, hline, Option.some_or, Option.map_some, hfirst]

theorem IsPassage.least_le (h : IsPassage least bound content block after) (hfirst : firstIndent? block = some first) :
    least ≤ first := by
  obtain ⟨line, hline, rfl⟩ := Option.map_eq_some_iff.1 hfirst
  have hblank : isBlank line = false := by simpa using List.find?_some hline
  have hreach := h.reach line (List.mem_of_find?_eq_some hline)
  simpa [reaches, hblank] using hreach

/-- The last line is not blank, so none is left out at the end. -/
theorem IsPassage.rdropWhile_eq (h : IsPassage least bound content block after) :
    block.rdropWhile isBlank = block := by
  obtain ⟨line, hlast, hblank⟩ := h.last
  refine List.rdropWhile_eq_self_iff.2 fun hne => ?_
  rw [List.getLast?_eq_some_getLast hne] at hlast
  rw [Option.some.inj hlast]
  simp [hblank]

/-- Nothing behind the passage is taken, and of the passage what comes before a line shallower than the first. -/
theorem IsPassage.contentLines_eq (h : IsPassage least bound content block after)
    (hfirst : firstIndent? block = some first) (hparent : parent < first) (hbound : bound ≤ first) :
    contentLines false parent (linesWithBreaks content) = (block.takeWhile (reaches first)).rdropWhile isBlank := by
  have hafter : after.takeWhile (reaches first) = [] := by
    cases hcases : after with
    | nil => rfl
    | cons line lines =>
      obtain ⟨hblank, hindent⟩ := h.outside line (by rw [hcases]; rfl)
      refine List.takeWhile_cons_of_neg ?_
      simp only [reaches, hblank, Bool.false_or, decide_eq_true_eq]
      omega
  have hregion : region parent (linesWithBreaks content) = block.takeWhile (reaches first) := by
    unfold region
    rw [h.lines, firstIndent?_append hfirst]
    simp only [if_pos hparent]
    rw [List.takeWhile_append, hafter, List.append_nil]
    split
    · rename_i hlength
      exact ((List.takeWhile_prefix _).eq_of_length hlength).symm
    · rfl
  rw [contentLines, hregion]
  rfl

/-- All lines of the passage are taken only when none is shallower than the first. -/
theorem IsPassage.byteLength_eq_iff (h : IsPassage least bound content block after) :
    byteLength ((block.takeWhile (reaches first)).rdropWhile isBlank).flatten = byteLength block.flatten ↔
      ∀ line ∈ block, reaches first line := by
  constructor
  · intro hlength line hline
    obtain ⟨rest, hrest⟩ : (block.takeWhile (reaches first)).rdropWhile isBlank <+: block :=
      (List.rdropWhile_prefix _ _).trans (List.takeWhile_prefix _)
    -- what is left of the block has no bytes
    have hbytes := congrArg (fun lines => byteLength (List.flatten lines)) hrest
    simp only [List.flatten_append, byteLength_append] at hbytes
    have hempty : rest.flatten = [] := byteLength_eq_zero (by omega)
    rw [← hrest, List.mem_append] at hline
    rcases hline with hline | hline
    · exact List.mem_takeWhile_imp ((List.rdropWhile_prefix _ _).subset hline)
    · rw [List.flatten_eq_nil_iff.1 hempty line hline]
      rfl
  · intro hall
    rw [List.takeWhile_eq_self_iff.2 hall, h.rdropWhile_eq]

/-- When the first line does not exceed the owner, there is no content. -/
theorem contentLines_of_le {lines : List Text} (hfirst : firstIndent? lines = some first) (hparent : first ≤ parent) :
    contentLines false parent lines = [] := by
  have hregion : region parent lines = lines.takeWhile isBlank := by
    unfold region
    rw [hfirst]
    simp only [if_neg (Int.not_lt.2 hparent)]
  rw [contentLines, hregion, settled, if_neg Bool.false_ne_true]
  exact List.rdropWhile_eq_nil_iff.2 fun line => List.mem_takeWhile_imp

/-! ### Headers with an indentation indicator -/

/-- With the indicator `k` and no `+`, for an owner at column `p`, over lines that are blank or indented by `p + k` at
least: the scalar ends before the first line that is shallower than the first one, at the last line before that is not
blank.  So it takes all the lines only when none is shallower than the first. -/
theorem scalarEnd_of_indicator (before : Text) (h : Header) {k : Nat} (hk : 1 ≤ k ∧ k ≤ 9)
    (hmarks : h.marks ∈ [[k.digitChar], [k.digitChar, '-'], ['-', k.digitChar]])
    {style : Scalar.Style} (hstyle : style = .literal ∨ style = .folded) (value : Text) :
    let source := before ++ (h.text ++ '\n' :: content)
    let column := (parentIndent source (byteLength before)).toNat
    IsPassage (column + k) (column + k) content block after → firstIndent? block = some first →
      scalarEnd source (byteLength before) style value = byteLength (before ++ (h.text ++ '\n' ::
        ((block.takeWhile (reaches first)).rdropWhile isBlank).flatten)) ∧
      (scalarEnd source (byteLength before) style value = byteLength (before ++ (h.text ++ '\n' :: block.flatten)) ↔
        ∀ line ∈ block, reaches first line) := by
  intro source column hpassage hfirst
  have hplus : '+' ∉ h.marks := by
    have hdigit : ∀ k ≤ 9, '+' ≠ Nat.digitChar k := by decide
    have := hdigit k hk.2
    simp only [List.mem_cons, List.not_mem_nil, or_false] at hmarks
    rcases hmarks with hmarks | hmarks | hmarks <;> simp [hmarks, this]
  have hend := scalarEnd_of_header before content h hplus (rfl : source = _) hstyle value
  have hleast := hpassage.least_le hfirst
  have hparent : parentIndent source (byteLength before) < first := by omega
  rw [hpassage.contentLines_eq hfirst hparent hleast] at hend
  refine ⟨hend, ?_⟩
  rw [hend, ← hpassage.byteLength_eq_iff]
  simp only [byteLength_append, byteLength_cons]
  omega

/-- Behind `|2-` come lines with 4, 2 and 3 spaces, and the scalar ends with the first of them. -/
theorem scalarEnd_of_indicator_over_staircase :
    let source : Text := "a: |2-\n    deep\n  shallow\n\n   last\nb: c\n".toList
    scalarEnd source 3 .folded "deep".toList = 16 ∧ scalarEnd source 3 .folded "deep".toList ≠ 35 := by
  let h : Header := ⟨'|', "2-".toList, [], [], Or.inl rfl, List.all_eq_true.1 (by decide), rfl, by simp, by simp⟩
  let content : Text := "    deep\n  shallow\n\n   last\nb: c\n".toList
  let block : List Text := ["    deep\n".toList, "  shallow\n".toList, "\n".toList, "   last\n".toList]
  have hcolumn : (parentIndent ("a: ".toList ++ (h.text ++ '\n' :: content)) (byteLength "a: ".toList)).toNat = 0 := by
    decide
  have hpassage : IsPassage (0 + 2) (0 + 2) content block ["b: c\n".toList] :=
    ⟨by decide, by decide, ⟨"   last\n".toList, by decide, by decide⟩, fun line hline => by
      obtain rfl := Option.some.inj hline
      decide⟩
  have hstart : byteLength "a: ".toList = 3 := by decide
  have hstop : byteLength ("a: ".toList ++ (h.text ++ '\n' ::
      ((block.takeWhile (reaches 4)).rdropWhile isBlank).flatten)) = 16 := by decide
  have hall : byteLength ("a: ".toList ++ (h.text ++ '\n' :: block.flatten)) = 35 := by decide
  have hend := scalarEnd_of_indicator "a: ".toList h (k := 2) (by decide) (by decide) (Or.inr rfl)
    "deep".toList (hcolumn ▸ hpassage) (by decide : firstIndent? block = some 4)
  rw [hstop, hall, hstart] at hend
  exact ⟨hend.1, fun heq => absurd (hend.2.1 heq) (by decide)⟩

/-- A scalar with an indentation indicator that ends before its second line: the source has 25 bytes. -/
theorem staircase_behind_indicator :
    ∃ (h : Header) (before content : Text) (block : List Text), h.marks = [Nat.digitChar 2] ∧
      before ++ (h.text ++ '\n' :: content) = "a: |2\n    deep\n  shallow\n".toList ∧ byteLength before = 3 ∧
      (parentIndent "a: |2\n    deep\n  shallow\n".toList 3).toNat = 0 ∧ IsPassage 2 2 content block [] ∧
      byteLength (before ++ (h.text ++ '\n' :: block.flatten)) = 25 ∧
      scalarEnd "a: |2\n    deep\n  shallow\n".toList 3 .literal "  deep\nshallow\n".toList = 15 :=
  ⟨⟨'|', ['2'], [], [], Or.inl rfl, List.all_eq_true.1 (by decide), rfl, by simp, by simp⟩, "a: ".toList,
    "    deep\n  shallow\n".toList, ["    deep\n".toList, "  shallow\n".toList], rfl, by decide, by decide, by decide,
    ⟨by decide, by decide, ⟨"  shallow\n".toList, by decide, by decide⟩, by simp⟩, by decide, by decide⟩

end LocatedYaml.Extent
