import LocatedYaml.Extent.Block
import LocatedYaml.Proofs.Text.Lines

/-!
# Headers of block scalars

`Header` is the grammar of a header, and `isBlockHeader_iff` says that the program accepts exactly its texts.  From a
place in the content of a block scalar the header is found in the last line before it that is not blank, unless the
content is itself written like a header: then the content is taken for the header (`blockScalarStart_of_content`).
-/

namespace LocatedYaml.Extent

open Text

/-! ### The grammar -/

/-- A header: the indicator, digits and signs, and then white space and a comment at most. -/
structure Header where
  indicator : Char
  marks : Text
  gap : Text
  comment : Text
  isIndicator : indicator = '|' ∨ indicator = '>'
  isMark_of_mem : ∀ c ∈ marks, isMark c
  isBlank_gap : gap.isBlank
  comment_head : ∀ c, comment.head? = some c → c = '#'
  unbroken : '\n' ∉ gap ++ comment

def Header.text (h : Header) : Text := h.indicator :: (h.marks ++ (h.gap ++ h.comment))

theorem isSpace_eq_false_of_isMark {c : Char} (h : isMark c) : isSpace c = false := by
  simp only [isMark, Bool.or_eq_true, decide_eq_true_eq] at h
  rcases h with (h | rfl) | rfl
  · have hrange : 48 ≤ c.toNat ∧ c.toNat ≤ 57 := Char.isDigit_iff_toNat.1 h
    simp [isSpace]
    omega
  · decide
  · decide

variable (h : Header)

theorem Header.isSpace_indicator : isSpace h.indicator = false := by
  rcases h.isIndicator with hindicator | hindicator
  · rw [hindicator]
    decide
  · rw [hindicator]
    decide

theorem Header.ne_indicator {c : Char} (hbar : c ≠ '|') (hangle : c ≠ '>') : c ≠ h.indicator := by
  rcases h.isIndicator with hindicator | hindicator
  · rwa [hindicator]
  · rwa [hindicator]

theorem Header.newline_not_mem_text : '\n' ∉ h.text := by
  intro hmem
  rw [Header.text, List.mem_cons, List.mem_append] at hmem
  rcases hmem with hmem | hmem | hmem
  · exact h.ne_indicator (by decide) (by decide) hmem
  · exact absurd (h.isMark_of_mem _ hmem) (by decide)
  · exact h.unbroken hmem

/-- The header up to its comment. -/
theorem Header.takeWhile_text : h.text.takeWhile (· ≠ '#') = h.indicator :: (h.marks ++ h.gap) := by
  have hfront : ∀ c ∈ h.indicator :: (h.marks ++ h.gap), (c ≠ '#' : Bool) := by
    intro c hc
    refine decide_eq_true ?_
    rintro rfl
    rw [List.mem_cons, List.mem_append] at hc
    rcases hc with hc | hc | hc
    · exact h.ne_indicator (by decide) (by decide) hc
    · exact absurd (h.isMark_of_mem _ hc) (by decide)
    · exact absurd (List.all_eq_true.1 h.isBlank_gap _ hc) (by decide)
  have hcomment : h.comment.takeWhile (· ≠ '#') = [] := by
    cases hcases : h.comment with
    | nil => rfl
    | cons c cs =>
      obtain rfl := h.comment_head c (by rw [hcases]; rfl)
      rfl
  rw [Header.text, ← List.append_assoc, ← List.cons_append, List.takeWhile_append_of_pos hfront, hcomment,
    List.append_nil]

/-- The header asks for the blank lines at the end exactly when `+` is among its marks. -/
theorem Header.plus_mem_takeWhile_text : '+' ∈ h.text.takeWhile (· ≠ '#') ↔ '+' ∈ h.marks := by
  have hindicator : '+' ≠ h.indicator := h.ne_indicator (by decide) (by decide)
  have hgap : '+' ∉ h.gap := fun hmem => absurd (List.all_eq_true.1 h.isBlank_gap _ hmem) (by decide)
  rw [h.takeWhile_text, List.mem_cons, List.mem_append]
  simp [hindicator, hgap]

/-! ### What the program accepts -/

/-- The marks end where the white space or the comment begins. -/
private theorem dropWhile_marks : (h.marks ++ (h.gap ++ h.comment)).dropWhile isMark = h.gap ++ h.comment := by
  rw [List.dropWhile_append_of_pos h.isMark_of_mem]
  cases hrest : h.gap ++ h.comment with
  | nil => rfl
  | cons c cs =>
    have hc : isMark c = false := by
      cases hgap : h.gap with
      | nil =>
        rw [hgap, List.nil_append] at hrest
        obtain rfl := h.comment_head c (by rw [hrest]; rfl)
        decide
      | cons d ds =>
        rw [hgap, List.cons_append] at hrest
        obtain ⟨rfl, -⟩ := List.cons.inj hrest
        have hspace : isSpace d := List.all_eq_true.1 h.isBlank_gap d (by rw [hgap]; simp)
        exact Bool.eq_false_iff.2 fun hmark => by simp [isSpace_eq_false_of_isMark hmark] at hspace
    exact List.dropWhile_cons_of_neg (by simp [hc])

private theorem trimStart_gap : trimStart (h.gap ++ h.comment) = h.comment := by
  have hgap : ∀ c ∈ h.gap, isSpace c := List.all_eq_true.1 h.isBlank_gap
  rw [trimStart, List.dropWhile_append_of_pos hgap]
  cases hcomment : h.comment with
  | nil => rfl
  | cons d ds =>
    obtain rfl := h.comment_head d (by rw [hcomment]; rfl)
    rfl

private theorem isBlockHeader_iff_firstLine {t : Text} : isBlockHeader t ↔ ∃ c cs, t.firstLine = c :: cs ∧
    (c = '|' ∨ c = '>') ∧ ∀ d, (trimStart (cs.dropWhile isMark)).head? = some d → d = '#' := by
  unfold isBlockHeader
  split
  · rename_i hline
    simp [hline]
  · rename_i c cs hline
    cases htail : trimStart (cs.dropWhile isMark) <;> simp [hline, htail]

/-- The program takes for a header what begins with the text of one, on a line of its own. -/
theorem isBlockHeader_iff {t : Text} : isBlockHeader t ↔ ∃ h : Header, t.firstLine = h.text := by
  rw [isBlockHeader_iff_firstLine]
  constructor
  · rintro ⟨c, cs, hline, hc, hcomment⟩
    have hcs : cs.takeWhile isMark ++ ((cs.dropWhile isMark).takeWhile isSpace ++
        trimStart (cs.dropWhile isMark)) = cs := by
      rw [trimStart, List.takeWhile_append_dropWhile, List.takeWhile_append_dropWhile]
    have hbreak : '\n' ∉ c :: cs := by
      intro hmem
      rw [← hline, firstLine] at hmem
      simpa using List.mem_takeWhile_imp hmem
    have hgap : isBlank ((cs.dropWhile isMark).takeWhile isSpace) :=
      List.all_eq_true.2 fun _ => List.mem_takeWhile_imp
    refine ⟨⟨c, cs.takeWhile isMark, (cs.dropWhile isMark).takeWhile isSpace, trimStart (cs.dropWhile isMark), hc,
      fun _ => List.mem_takeWhile_imp, hgap, hcomment, ?_⟩, ?_⟩
    · intro hmem
      rw [← hcs] at hbreak
      exact hbreak (List.mem_cons_of_mem _ (List.mem_append_right _ hmem))
    · rw [hline]
      exact congrArg (c :: ·) hcs.symm
  · rintro ⟨h, hline⟩
    refine ⟨h.indicator, _, hline, h.isIndicator, ?_⟩
    rw [dropWhile_marks, trimStart_gap]
    exact h.comment_head

theorem head?_of_isBlockHeader {t : Text} (ht : isBlockHeader t) : t.head? = some '|' ∨ t.head? = some '>' := by
  obtain ⟨h, hline⟩ := isBlockHeader_iff.1 ht
  obtain ⟨rest, hrest⟩ : t.firstLine <+: t := List.takeWhile_prefix _
  have hhead : t.head? = some h.indicator := by
    rw [← hrest, hline]
    rfl
  rcases h.isIndicator with hc | hc
  · exact Or.inl (hhead.trans (congrArg some hc))
  · exact Or.inr (hhead.trans (congrArg some hc))

theorem Header.isBlockHeader_text : isBlockHeader h.text := by
  refine isBlockHeader_iff.2 ⟨h, ?_⟩
  exact List.takeWhile_eq_self_iff.2 fun c hc => decide_eq_true fun heq => h.newline_not_mem_text (heq ▸ hc)

/-! ### Finding the header -/

/-- Trimmed, a header is still a header. -/
theorem Header.exists_trimEnd : ∃ h' : Header, h.text.trimEnd = h'.text := by
  have hmarks : ∀ c ∈ h.indicator :: h.marks, isSpace c = false :=
    List.forall_mem_cons.2 ⟨h.isSpace_indicator, fun c hc => isSpace_eq_false_of_isMark (h.isMark_of_mem c hc)⟩
  cases hcomment : h.comment with
  | nil =>
    refine ⟨⟨h.indicator, h.marks, [], [], h.isIndicator, h.isMark_of_mem, rfl, by simp, by simp⟩, ?_⟩
    have hfront : trimEnd (h.indicator :: h.marks) = h.indicator :: h.marks := by
      refine List.rdropWhile_eq_self_iff.2 fun hne => ?_
      simp [hmarks _ (List.getLast_mem hne)]
    rw [Header.text, hcomment, List.append_nil, ← List.cons_append, trimEnd_append_of_isBlank h.isBlank_gap, hfront]
    simp [Header.text]
  | cons d ds =>
    obtain rfl := h.comment_head d (by rw [hcomment]; rfl)
    have hunbroken : '\n' ∉ h.gap ++ '#' :: trimEnd ds := by
      intro hmem
      refine h.unbroken ?_
      rw [hcomment]
      simp only [List.mem_append, List.mem_cons] at hmem ⊢
      exact hmem.imp_right (Or.imp_right fun hds => (trimEnd_isPrefix ds).subset hds)
    refine ⟨⟨h.indicator, h.marks, h.gap, '#' :: trimEnd ds, h.isIndicator, h.isMark_of_mem, h.isBlank_gap,
      by simp, hunbroken⟩, ?_⟩
    have := trimEnd_append_cons (c := '#') (by decide) (h.indicator :: (h.marks ++ h.gap)) ds
    simpa [Header.text, hcomment] using this

/-- Behind text without an indicator, the first header found is the one that follows. -/
theorem findHeader?_append {line : Text} (hline : '|' ∉ line ∧ '>' ∉ line) {offset : Nat} {mayStart : Bool}
    (hstart : line = [] → mayStart) (hblank : ∀ c, line.getLast? = some c → c = ' ' ∨ c = '\t') :
    findHeader? offset mayStart (line ++ h.text) = some (offset + byteLength line) := by
  induction line generalizing offset mayStart with
  | nil =>
    have hheader : isBlockHeader (h.indicator :: (h.marks ++ (h.gap ++ h.comment))) := h.isBlockHeader_text
    rw [List.nil_append, Header.text, findHeader?, if_pos ⟨hstart rfl, hheader⟩]
    rfl
  | cons c cs ih =>
    simp only [List.mem_cons, not_or] at hline
    have hc : ¬isBlockHeader (c :: (cs ++ h.text)) := by
      intro hheader
      rcases head?_of_isBlockHeader hheader with hhead | hhead
      · exact hline.1.1 (Option.some.inj hhead).symm
      · exact hline.2.1 (Option.some.inj hhead).symm
    have hrest : findHeader? (offset + c.utf8Size) (c = ' ' || c = '\t') (cs ++ h.text) =
        some (offset + c.utf8Size + byteLength cs) := by
      refine ih ⟨hline.1.2, hline.2.2⟩ ?_ ?_
      · rintro rfl
        simpa using hblank c rfl
      · intro d hd
        refine hblank d ?_
        rw [List.getLast?_cons, hd]
        rfl
    rw [List.cons_append, findHeader?, if_neg fun hfound => hc hfound.2, hrest, byteLength_cons, Nat.add_assoc]

/-- In a text that ends in a header, with room for it behind the line feed or blank before it. -/
theorem Header.findHeader?_lastLine {before : Text}
    (hbefore : ∀ c, before.getLast? = some c → c = '\n' ∨ c = ' ' ∨ c = '\t')
    (hline : '|' ∉ before.lastLine ∧ '>' ∉ before.lastLine) :
    findHeader? (byteLength (before ++ h.text) - byteLength (before ++ h.text).lastLine) true
      (before ++ h.text).lastLine = some (byteLength before) := by
  obtain ⟨lines, hlines⟩ := lastLine_suffix before
  have hblank : ∀ c, before.lastLine.getLast? = some c → c = ' ' ∨ c = '\t' := by
    intro c hc
    have hend : before.getLast? = some c := by
      rw [← hlines, List.getLast?_append, hc]
      rfl
    exact (hbefore c hend).resolve_left (ne_of_mem_lastLine (List.mem_of_getLast? hc))
  have hoffset : byteLength (before ++ h.text) - byteLength (before.lastLine ++ h.text) +
      byteLength before.lastLine = byteLength before := by
    have := congrArg byteLength hlines
    simp only [byteLength_append] at this ⊢
    omega
  rw [lastLine_append h.newline_not_mem_text, findHeader?_append h hline (fun _ => rfl) hblank, hoffset]

/-- From a place behind a header, with white space between the lines, the header is found, unless a header is written
at that place: then the place itself is the answer.  What stands before the header on its line is free of indicators
and leaves room for one. -/
theorem blockScalarStart_of_content (before gap t : Text)
    (hbefore : ∀ c, before.getLast? = some c → c = '\n' ∨ c = ' ' ∨ c = '\t')
    (hline : '|' ∉ before.lastLine ∧ '>' ∉ before.lastLine) (hgap : gap.isBlank) :
    let source := before ++ (h.text ++ '\n' :: (gap ++ t))
    let marker := byteLength (before ++ (h.text ++ '\n' :: gap))
    ((¬∃ h' : Header, t.firstLine = h'.text) → blockScalarStart source marker = byteLength before) ∧
      ((∃ h' : Header, t.firstLine = h'.text) → blockScalarStart source marker = marker) := by
  intro source marker
  have hsource : source = (before ++ (h.text ++ '\n' :: gap)) ++ t := by simp [source]
  have hrest : source.restFrom marker = t := by
    rw [hsource]
    exact restFrom_append _ t
  constructor
  · intro ht
    -- the white space in front of the place is trimmed off with the one at the end of the header
    obtain ⟨h', hh'⟩ := h.exists_trimEnd
    have htrim : (source.uptoOrAll marker).trimEnd = before ++ h'.text := by
      have hspaces : isBlank ('\n' :: gap) := by
        rw [isBlank, List.all_cons, Bool.and_eq_true]
        exact ⟨by decide, hgap⟩
      rw [hsource, uptoOrAll_append, ← List.append_assoc, trimEnd_append_of_isBlank hspaces, ← hh']
      exact trimEnd_append_of_head h.isSpace_indicator before _
    unfold blockScalarStart
    rw [hrest, if_neg (mt isBlockHeader_iff.1 ht)]
    simp only [htrim]
    rw [h'.findHeader?_lastLine hbefore hline]
    rfl
  · intro ht
    unfold blockScalarStart
    rw [hrest, if_pos (isBlockHeader_iff.2 ht)]

/-- The header `>2- # a > b` behind a key, found from a word two lines below it. -/
theorem blockScalarStart_of_content_behind_comment :
    let source : Text := "a>b\n- é: >2- # a > b \n \t\n  word > |\n".toList
    source.restFrom 28 = "word > |\n".toList ∧ blockScalarStart source 28 = 10 := by
  let h : Header := ⟨'>', "2-".toList, [' '], "# a > b ".toList, Or.inr rfl, List.all_eq_true.1 (by decide), by decide,
    fun c hc => (Option.some.inj hc).symm, by decide⟩
  have hcontent : ¬∃ h' : Header, firstLine "word > |\n".toList = h'.text := mt isBlockHeader_iff.2 (by decide)
  have hbefore : ∀ c, List.getLast? "a>b\n- é: ".toList = some c → c = '\n' ∨ c = ' ' ∨ c = '\t' :=
    fun c hc => Or.inr (Or.inl (Option.some.inj hc).symm)
  have hmarker : byteLength ("a>b\n- é: ".toList ++ (h.text ++ '\n' :: " \t\n  ".toList)) = 28 := by decide
  have hstart : byteLength "a>b\n- é: ".toList = 10 := by decide
  have hfound := (blockScalarStart_of_content h "a>b\n- é: ".toList " \t\n  ".toList "word > |\n".toList hbefore
    (by decide) (by decide)).1 hcontent
  rw [hmarker, hstart] at hfound
  exact ⟨by decide, hfound⟩

/-- Content whose first line is `>` alone is taken for a header: the header of the scalar is at offset 3. -/
theorem blockScalarStart_at_lone_indicator :
    ∃ (h : Header) (before gap t : Text), h.text = ['|'] ∧
      (∀ c, before.getLast? = some c → c = '\n' ∨ c = ' ' ∨ c = '\t') ∧
      ('|' ∉ before.lastLine ∧ '>' ∉ before.lastLine) ∧ gap.isBlank ∧ (∃ c, t.head? = some c ∧ isSpace c = false) ∧
      before ++ (h.text ++ '\n' :: (gap ++ t)) = "k: |\n  >\n  quoted\n".toList ∧
      byteLength before = 3 ∧ blockScalarStart "k: |\n  >\n  quoted\n".toList
        (byteLength (before ++ (h.text ++ '\n' :: gap))) = 7 :=
  ⟨⟨'|', [], [], [], Or.inl rfl, List.all_eq_true.1 (by decide), rfl, by simp, by simp⟩, "k: ".toList, "  ".toList,
    ">\n  quoted\n".toList, rfl, fun c hc => Or.inr (Or.inl (Option.some.inj hc).symm), by decide, by decide,
    ⟨'>', rfl, by decide⟩, by decide, by decide, by decide⟩

end LocatedYaml.Extent
