import LocatedYaml.Proofs.Extent.Region

/-!
# Owners of block scalars in sequences

In front of a header that is an entry of a sequence stand entry indicators, and perhaps a tag and an anchor.  The node
that owns the scalar is the sequence of the last indicator, and its column is the one that the content has to exceed.
The program takes the column of a tag or an anchor for it, when there is one (`parentIndent_of_entry`), so content that
is indented deeper than the indicator and not deeper than the tag is cut off (`scalarEnd_of_entry`).
-/

namespace LocatedYaml.Extent

open Text

/-! ### Entries -/

/-- Spaces and entry indicators. -/
inductive Indicators : Text → Prop
  | nil : Indicators []
  | space {t : Text} : Indicators t → Indicators (' ' :: t)
  | entry {t : Text} : Indicators t → Indicators ('-' :: ' ' :: t)

/-- A tag or an anchor, with the spaces behind it. -/
structure Property where
  mark : Char
  name : Text
  spaces : Nat
  isMark : mark = '!' ∨ mark = '&'
  visible : ∀ c ∈ name, isSpace c = false

def Property.text (p : Property) : Text := p.mark :: (p.name ++ List.replicate (p.spaces + 1) ' ')

/-- What stands in front of a header that is an entry: indicators, the last one behind `outer`, and properties. -/
structure Entry where
  outer : Text
  spaces : Nat
  properties : List Property
  indicators : Indicators outer

namespace Entry

variable (e : Entry)

def text : Text :=
  e.outer ++ '-' :: ' ' :: (List.replicate e.spaces ' ' ++ e.properties.flatMap Property.text)

/-- The column of the last indicator. -/
def column : Nat := e.outer.length

/-- The column of the first property, or of the last indicator when there is none. -/
def nodeColumn : Nat := if e.properties = [] then e.column else e.column + 2 + e.spaces

end Entry

/-! ### The column of the owner -/

theorem ownerColumn_replicate (column : Nat) (indicator : Option Nat) (n : Nat) (t : Text) :
    ownerColumn column indicator (List.replicate n ' ' ++ t) = ownerColumn (column + n) indicator t := by
  induction n generalizing column with
  | zero => rfl
  | succ n ih =>
    rw [List.replicate_succ, List.cons_append, ownerColumn, if_pos rfl, ih, Nat.add_right_comm, Nat.add_assoc]

theorem ownerColumn_entry (column : Nat) (indicator : Option Nat) (t : Text) :
    ownerColumn column indicator ('-' :: ' ' :: t) = ownerColumn (column + 2) (some column) t := by
  simp [ownerColumn]

/-- Indicators are passed over. -/
theorem ownerColumn_indicators {outer : Text} (h : Indicators outer) (column : Nat) (indicator : Option Nat)
    (t : Text) : ∃ indicator', ownerColumn column indicator (outer ++ t) =
      ownerColumn (column + outer.length) indicator' t := by
  induction h generalizing column indicator with
  | nil => exact ⟨indicator, rfl⟩
  | space _ ih =>
    obtain ⟨indicator', h⟩ := ih (column + 1) indicator
    refine ⟨indicator', ?_⟩
    rw [List.cons_append, ownerColumn, if_pos rfl, h, List.length_cons, Nat.add_right_comm, Nat.add_assoc]
  | entry _ ih =>
    obtain ⟨indicator', h⟩ := ih (column + 2) (some column)
    refine ⟨indicator', ?_⟩
    rw [List.cons_append, List.cons_append, ownerColumn_entry, h, List.length_cons, List.length_cons]
    congr 1
    omega

theorem ownerColumn_property (column : Nat) (indicator : Option Nat) (p : Property) (t : Text) :
    ownerColumn column indicator (p.text ++ t) = column := by
  rw [Property.text, List.cons_append, ownerColumn]
  rcases p.isMark with h | h
  · simp [h]
  · simp [h]

theorem Entry.ownerColumn_text (e : Entry) : ownerColumn 0 none e.text = e.nodeColumn := by
  obtain ⟨indicator, h⟩ := ownerColumn_indicators e.indicators 0 none
    ('-' :: ' ' :: (List.replicate e.spaces ' ' ++ e.properties.flatMap Property.text))
  rw [Entry.text, h, ownerColumn_entry, ownerColumn_replicate, Entry.nodeColumn, Entry.column]
  cases e.properties with
  | nil => simp [ownerColumn]
  | cons p ps =>
    rw [List.flatMap_cons, ownerColumn_property, if_neg (List.cons_ne_nil p ps), Nat.zero_add]

/-- An entry is not a document marker. -/
theorem dropStart?_trimStart_indicators {outer : Text} (h : Indicators outer) (t : Text) :
    dropStart? ['-', '-', '-'] (trimStart (outer ++ '-' :: ' ' :: t)) = none := by
  have hentry : ∀ t : Text, dropStart? ['-', '-', '-'] (trimStart ('-' :: ' ' :: t)) = none := by
    intro t
    rw [trimStart, List.dropWhile_cons_of_neg (by decide)]
    simp [dropStart?]
  induction h with
  | nil => exact hentry t
  | space _ ih =>
    rw [trimStart, List.cons_append, List.dropWhile_cons_of_pos (by decide)]
    exact ih
  | entry _ _ => exact hentry _

theorem Indicators.newline_not_mem {outer : Text} (h : Indicators outer) : '\n' ∉ outer := by
  induction h with
  | nil => simp
  | space _ ih => simp [ih]
  | entry _ ih => simp [ih]

theorem Entry.newline_not_mem_text (e : Entry) : '\n' ∉ e.text := by
  have hproperty : ∀ p : Property, '\n' ∉ p.text := by
    intro p hmem
    simp only [Property.text, List.mem_cons, List.mem_append, List.mem_replicate] at hmem
    rcases hmem with hmem | hmem | ⟨-, hmem⟩
    · rcases p.isMark with h | h
      · exact absurd (hmem.trans h) (by decide)
      · exact absurd (hmem.trans h) (by decide)
    · exact absurd (p.visible _ hmem) (by decide)
    · exact absurd hmem (by decide)
  simp [Entry.text, e.indicators.newline_not_mem, hproperty]

/-- In front of the header of an entry, the program takes the column of the first property for the owner's. -/
theorem parentIndent_of_entry {before : Text} (hbefore : before.lastLine = []) (e : Entry) (rest : Text) :
    parentIndent ((before ++ e.text) ++ rest) (byteLength (before ++ e.text)) = e.nodeColumn := by
  have hline : lastLine (before ++ e.text) = e.text := by
    rw [lastLine_append e.newline_not_mem_text, hbefore, List.nil_append]
  unfold parentIndent
  simp only [uptoOrAll_append, hline]
  rw [if_neg, e.ownerColumn_text]
  rw [Entry.text, dropStart?_trimStart_indicators e.indicators]
  simp

/-! ### The end of the scalar -/

/-- Content below the header of an entry that is indented by `first`, deeper than the entry: it is taken, up to its last
line, when it is also indented deeper than the properties of the entry, and none of it otherwise. -/
theorem scalarEnd_of_entry (before : Text) (hbefore : before.lastLine = []) (e : Entry) (h : Header)
    (hmarks : h.marks ∈ [[], ['-']]) {style : Scalar.Style} (hstyle : style = .literal ∨ style = .folded)
    (value : Text) {content : Text} {block after : List Text} {first : Nat} (hentry : e.column < first)
    (hpassage : IsPassage first (e.column + 1) content block after) (hfirst : firstIndent? block = some first) :
    scalarEnd ((before ++ e.text) ++ (h.text ++ '\n' :: content)) (byteLength (before ++ e.text)) style value =
      byteLength ((before ++ e.text) ++ (h.text ++ '\n' :: if e.nodeColumn < first then block.flatten else [])) := by
  have hplus : '+' ∉ h.marks := by
    simp only [List.mem_cons, List.not_mem_nil, or_false] at hmarks
    rcases hmarks with hmarks | hmarks <;> simp [hmarks]
  have hend := scalarEnd_of_header (before ++ e.text) content h hplus rfl hstyle value
  rw [parentIndent_of_entry hbefore e] at hend
  rw [hend]
  by_cases hcolumn : e.nodeColumn < first
  · have hlines := hpassage.contentLines_eq hfirst (Int.ofNat_lt.2 hcolumn) hentry
    rw [if_pos hcolumn, hlines, List.takeWhile_eq_self_iff.2 hpassage.reach, hpassage.rdropWhile_eq]
  · have hlines : contentLines false e.nodeColumn (linesWithBreaks content) = [] := by
      rw [hpassage.lines]
      exact contentLines_of_le (firstIndent?_append hfirst after) (Int.ofNat_le.2 (Nat.le_of_not_lt hcolumn))
    rw [if_neg hcolumn, hlines, List.flatten_nil]

/-- An entry with an anchor whose content is indented deeper than the anchor, to the end of the source. -/
theorem scalarEnd_of_entry_behind_anchor :
    scalarEnd "a:\n- - &x |-\n     b\n\n      c".toList 10 .literal "b\n\n c".toList = 28 := by
  let e : Entry := ⟨"- ".toList, 0, [⟨'&', ['x'], 0, Or.inr rfl, by simp; decide⟩], .entry .nil⟩
  let h : Header := ⟨'|', ['-'], [], [], Or.inl rfl, List.all_eq_true.1 (by decide), rfl, by simp, by simp⟩
  let content : Text := "     b\n\n      c".toList
  let block : List Text := ["     b\n".toList, "\n".toList, "      c".toList]
  have hpassage : IsPassage 5 (e.column + 1) content block [] :=
    ⟨by decide, by decide, ⟨"      c".toList, by decide, by decide⟩, by simp⟩
  have hstart : byteLength ("a:\n".toList ++ e.text) = 10 := by decide
  have hstop : byteLength (("a:\n".toList ++ e.text) ++ (h.text ++ '\n' :: block.flatten)) = 28 := by decide
  have hend := scalarEnd_of_entry "a:\n".toList (by decide) e h (by decide) (Or.inl rfl) "b\n\n c".toList
    (by decide) hpassage (by decide)
  rw [if_pos (by decide), hstop, hstart] at hend
  exact hend

/-- An entry with a tag whose content is indented as deeply as the tag: it ends with its header, at offset 9 of 16. -/
theorem content_below_tag :
    ∃ (e : Entry) (h : Header) (content : Text) (block : List Text), e.column = 0 ∧ h.marks = [] ∧
      e.text ++ (h.text ++ '\n' :: content) = "- !Sub |\n  body\n".toList ∧ byteLength e.text = 7 ∧
      IsPassage 2 (e.column + 1) content block [] ∧ firstIndent? block = some 2 ∧
      byteLength (e.text ++ (h.text ++ '\n' :: block.flatten)) = 16 ∧
      scalarEnd "- !Sub |\n  body\n".toList 7 .literal "body\n".toList = 9 :=
  ⟨⟨[], 0, [⟨'!', "Sub".toList, 0, Or.inl rfl, by simp; decide⟩], .nil⟩,
    ⟨'|', [], [], [], Or.inl rfl, List.all_eq_true.1 (by decide), rfl, by simp, by simp⟩,
    "  body\n".toList, ["  body\n".toList], rfl, rfl, by decide, by decide, ⟨by decide, by decide, ⟨"  body\n".toList, by decide, by decide⟩, by simp⟩,
    by decide, by decide, by decide⟩

end LocatedYaml.Extent
