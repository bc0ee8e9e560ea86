import LocatedYaml.Extent.Basic
import LocatedYaml.Proofs.Text.Lines

/-!
# Matching plain scalars

The end of a plain scalar is found by walking over the source and the visible characters of the value together.  The
walk stops behind the last visible character of the longest prefix that both have in common (`plainEnd_of_common`).
Folding changes white space only, so a scalar over several lines has all its visible characters in common with its
value.

A value that stands in the source as it is has all its visible characters in common with it.  So the scalar ends behind
the last of them, and white space at the end of the value is left out (`scalarEnd_of_verbatim`).  YAML itself only folds
spaces, tabs and line breaks; other white space, such as a no-break space, can stand at the end of a value.
-/

namespace LocatedYaml

namespace Text

/-- The beginning of a text through its `k`-th visible character. -/
def throughVisible : Nat → Text → Text
  | 0, _ => []
  | _ + 1, [] => []
  | k + 1, c :: cs => c :: throughVisible (if isSpace c then k + 1 else k) cs

variable {t : Text} {c : Char}

@[simp] theorem throughVisible_zero (t : Text) : throughVisible 0 t = [] := by
  rw [throughVisible]

theorem visible_cons_of_isSpace (h : isSpace c) (t : Text) : visible (c :: t) = visible t := by
  simp [visible, h]

theorem visible_cons (h : isSpace c = false) (t : Text) : visible (c :: t) = c :: visible t := by
  simp [visible, h]

theorem visible_append (s t : Text) : visible (s ++ t) = visible s ++ visible t := List.filter_append ..

theorem isSpace_of_mem_visible (h : c ∈ visible t) : isSpace c = false := by
  simpa using (List.mem_filter.1 h).2

theorem visible_eq_nil_iff : visible t = [] ↔ t.isBlank := by
  simp [visible, isBlank]

theorem trimEnd_cons (c : Char) (ht : t.isBlank = false) : trimEnd (c :: t) = c :: trimEnd t := by
  have hne : t.trimEnd ≠ [] := by
    intro hnil
    rw [trimEnd_eq_nil_iff.1 hnil] at ht
    cases ht
  have hrest : t.reverse.dropWhile isSpace ≠ [] := fun hnil => hne (by rw [trimEnd, hnil, List.reverse_nil])
  rw [trimEnd, List.reverse_cons, List.dropWhile_append, if_neg (by simpa using hrest), List.reverse_append]
  rfl

/-- Trimming leaves a text as it is when its last character is visible. -/
theorem byteLength_trimEnd_eq_iff : byteLength (trimEnd t) = byteLength t ↔ t.getLast?.any isSpace = false := by
  have hself : trimEnd t = t ↔ t.getLast?.any isSpace = false := by
    rcases List.eq_nil_or_concat t with rfl | ⟨before, c, rfl⟩
    · simp [trimEnd]
    · simp [trimEnd]
  rw [← hself]
  constructor
  · intro h
    obtain ⟨spaces, hspaces⟩ := trimEnd_isPrefix t
    have hlength := congrArg byteLength hspaces
    rw [byteLength_append, h] at hlength
    have hnil : spaces = [] := byteLength_eq_zero (by omega)
    rwa [hnil, List.append_nil] at hspaces
  · intro h
    rw [h]

/-- Through the last visible character of its first part, a text is that part without the white space at its end. -/
theorem throughVisible_append (s t : Text) : throughVisible (visible s).length (s ++ t) = trimEnd s := by
  induction s with
  | nil => exact throughVisible_zero t
  | cons c cs ih =>
    by_cases hc : isSpace c
    · rw [visible_cons_of_isSpace hc]
      cases hblank : isBlank cs with
      | true =>
        have htrim : trimEnd (c :: cs) = [] := by
          rw [trimEnd_eq_nil_iff, isBlank, List.all_cons, hc, Bool.true_and]
          exact hblank
        rw [visible_eq_nil_iff.2 hblank, htrim, List.length_nil, throughVisible_zero]
      | false =>
        have hlength : (visible cs).length ≠ 0 := by
          intro hzero
          rw [visible_eq_nil_iff.1 (List.length_eq_zero_iff.1 hzero)] at hblank
          cases hblank
        obtain ⟨k, hk⟩ := Nat.exists_eq_succ_of_ne_zero hlength
        rw [hk] at ih ⊢
        rw [trimEnd_cons c hblank, ← ih, List.cons_append, throughVisible, if_pos hc]
    · rw [Bool.not_eq_true] at hc
      have htrim : trimEnd (c :: cs) = c :: trimEnd cs := trimEnd_append_cons hc [] cs
      rw [visible_cons hc, List.length_cons, List.cons_append, throughVisible, if_neg (by simp [hc]), ih, htrim]

/-- The beginning through a visible character ends with that character. -/
theorem exists_throughVisible {k : Nat} (h : k < (visible t).length) :
    ∃ upto c after, t = upto ++ c :: after ∧ isSpace c = false ∧ (visible upto).length = k ∧
      throughVisible (k + 1) t = upto ++ [c] := by
  induction t generalizing k with
  | nil => exact absurd h (Nat.not_lt_zero k)
  | cons c cs ih =>
    by_cases hc : isSpace c
    · rw [visible_cons_of_isSpace hc] at h
      obtain ⟨upto, d, after, rfl, hd, hlength, hthrough⟩ := ih h
      refine ⟨c :: upto, d, after, rfl, hd, by rw [visible_cons_of_isSpace hc, hlength], ?_⟩
      rw [throughVisible, if_pos hc, hthrough, List.cons_append]
    · rw [Bool.not_eq_true] at hc
      rw [visible_cons hc, List.length_cons] at h
      cases k with
      | zero => exact ⟨[], c, cs, rfl, hc, rfl, by rw [throughVisible, if_neg (by simp [hc]), throughVisible_zero]; rfl⟩
      | succ k =>
        obtain ⟨upto, d, after, rfl, hd, hlength, hthrough⟩ := ih (Nat.lt_of_succ_lt_succ h)
        refine ⟨c :: upto, d, after, rfl, hd, by rw [visible_cons hc, List.length_cons, hlength], ?_⟩
        rw [throughVisible, if_neg (by simp [hc]), hthrough, List.cons_append]

/-! ### Common prefixes -/

/-- Both texts begin with `common`, and with nothing longer. -/
structure IsLongestCommonPrefix (a b common : Text) : Prop where
  left : common <+: a
  right : common <+: b
  longest : ∀ other, other <+: a → other <+: b → other <+: common

/-- What both texts begin with is the longest when they go on differently, or one of them not at all. -/
theorem isLongestCommonPrefix_append {common a b : Text} (h : ∀ c, a.head? = some c → b.head? ≠ some c) :
    IsLongestCommonPrefix (common ++ a) (common ++ b) common := by
  refine ⟨List.prefix_append common a, List.prefix_append common b, fun other hleft hright => ?_⟩
  rcases List.prefix_or_prefix_of_prefix hleft (List.prefix_append common a) with hshort | ⟨more, rfl⟩
  · exact hshort
  · rw [List.prefix_append_right_inj] at hleft hright
    cases more with
    | nil => exact ⟨[], by simp⟩
    | cons c more =>
      obtain ⟨_, rfl⟩ := hleft
      obtain ⟨_, rfl⟩ := hright
      exact absurd rfl (h c rfl)

theorem exists_common (a b : Text) : ∃ common restA restB, a = common ++ restA ∧ b = common ++ restB ∧
    ∀ c, restA.head? = some c → restB.head? ≠ some c := by
  induction a generalizing b with
  | nil => exact ⟨[], [], b, rfl, rfl, fun c hc => nomatch hc⟩
  | cons c cs ih =>
    cases b with
    | nil => exact ⟨[], c :: cs, [], rfl, rfl, fun _ _ hnil => nomatch hnil⟩
    | cons d ds =>
      by_cases hcd : c = d
      · obtain ⟨common, restA, restB, rfl, rfl, hends⟩ := ih ds
        exact ⟨c :: common, restA, restB, rfl, by rw [hcd]; rfl, hends⟩
      · refine ⟨[], c :: cs, d :: ds, rfl, rfl, fun e hc hd => hcd ?_⟩
        exact (Option.some.inj hc).trans (Option.some.inj hd).symm

/-! ### Folding -/

/-- The value is the text as folding leaves it: white space, such as a line break with the blanks around it, may have
become other white space. -/
inductive Folds : Text → Text → Prop
  | nil : Folds [] []
  | kept (piece : Text) {t value : Text} : Folds t value → Folds (piece ++ t) (piece ++ value)
  | gap {spaces joint t value : Text} : spaces.isBlank → joint.isBlank → Folds t value →
    Folds (spaces ++ t) (joint ++ value)

theorem Folds.visible_eq {value : Text} (h : Folds t value) : visible t = visible value := by
  induction h with
  | nil => rfl
  | kept piece _ ih => rw [visible_append, visible_append, ih]
  | gap hspaces hjoint _ ih =>
    rw [visible_append, visible_append, visible_eq_nil_iff.2 hspaces, visible_eq_nil_iff.2 hjoint, ih]

end Text

namespace Extent

open Text

variable {common rest wanted t : Text}

/-- White space of the source is passed over, as no character of it is looked for. -/
theorem matchedBytes_cons_of_isSpace {c w : Char} (hc : isSpace c) (hw : isSpace w = false) (cs ws : Text)
    (matched taken : Nat) :
    matchedBytes matched taken (c :: cs) (w :: ws) = matchedBytes matched (taken + c.utf8Size) cs (w :: ws) := by
  have hne : c ≠ w := by
    rintro rfl
    rw [hw] at hc
    cases hc
  rw [matchedBytes, if_neg hne, if_pos hc]

/-- Nothing is matched when the first visible characters differ, or one side has none. -/
theorem matchedBytes_of_head?_ne (hwanted : ∀ c ∈ wanted, isSpace c = false)
    (hend : ∀ c, (visible t).head? = some c → wanted.head? ≠ some c) (matched taken : Nat) :
    matchedBytes matched taken t wanted = matched := by
  induction t generalizing taken with
  | nil => rw [matchedBytes]
  | cons c cs ih =>
    cases wanted with
    | nil => rw [matchedBytes]
    | cons w ws =>
      by_cases hc : isSpace c
      · rw [visible_cons_of_isSpace hc] at hend
        rw [matchedBytes_cons_of_isSpace hc (hwanted w List.mem_cons_self)]
        exact ih hend _
      · rw [Bool.not_eq_true] at hc
        rw [visible_cons hc] at hend
        have hne : c ≠ w := by
          rintro rfl
          exact hend c rfl rfl
        rw [matchedBytes, if_neg hne, if_neg (by simp [hc])]

/-- The walk takes the source through the visible characters in common, when the next ones differ or one side has no
more of them. -/
theorem matchedBytes_of_common (hwanted : ∀ c ∈ wanted, isSpace c = false)
    (hend : ∀ c, rest.head? = some c → wanted.head? ≠ some c) (ht : visible t = common ++ rest) (matched taken : Nat) :
    matchedBytes matched taken t (common ++ wanted) =
      if common = [] then matched else taken + byteLength (throughVisible common.length t) := by
  induction t generalizing common matched taken with
  | nil =>
    obtain ⟨rfl, -⟩ := List.append_eq_nil_iff.1 ht.symm
    rw [matchedBytes, if_pos rfl]
  | cons c cs ih =>
    cases common with
    | nil =>
      rw [if_pos rfl]
      exact matchedBytes_of_head?_ne hwanted (ht ▸ hend) matched taken
    | cons d common =>
      rw [if_neg (List.cons_ne_nil d common), List.length_cons, throughVisible, byteLength_cons, List.cons_append]
      by_cases hc : isSpace c
      · rw [visible_cons_of_isSpace hc] at ht
        have hd : d ∈ visible cs := by
          rw [ht]
          exact List.mem_cons_self
        have hrest := ih ht matched (taken + c.utf8Size)
        rw [if_neg (List.cons_ne_nil d common), List.length_cons, List.cons_append] at hrest
        rw [matchedBytes_cons_of_isSpace hc (isSpace_of_mem_visible hd), if_pos hc, hrest]
        omega
      · rw [Bool.not_eq_true] at hc
        rw [visible_cons hc, List.cons_append] at ht
        obtain ⟨rfl, htail⟩ := List.cons.inj ht
        rw [matchedBytes, if_pos rfl, if_neg (by simp [hc]), ih htail]
        split
        · rename_i hnil
          simp [hnil]
        · omega

/-- When the visible characters of the source and of the value part behind `common`, the scalar ends behind that. -/
theorem plainEnd_of_visible {value : Text} (before : Text) (hrest : visible t = common ++ rest)
    (hvalue : visible value = common ++ wanted) (hend : ∀ c, rest.head? = some c → wanted.head? ≠ some c) :
    plainEnd (before ++ t) (byteLength before) value =
      byteLength before + byteLength (throughVisible common.length t) := by
  have hwanted : ∀ c ∈ wanted, isSpace c = false := by
    intro c hc
    have hmem : c ∈ visible value := by
      rw [hvalue]
      exact List.mem_append_right common hc
    exact isSpace_of_mem_visible hmem
  rw [plainEnd, restFrom_append, hvalue, matchedBytes_of_common hwanted hend hrest]
  split
  · rename_i hnil
    rw [hnil, List.length_nil, throughVisible_zero, byteLength_nil]
  · rw [Nat.zero_add]

/-- A text that has the visible characters of the value is taken through the last of them. -/
theorem plainEnd_of_visible_eq {inside value : Text} (h : visible inside = visible value) (before after : Text) :
    plainEnd (before ++ (inside ++ after)) (byteLength before) value =
      byteLength before + byteLength inside.trimEnd := by
  have hvalue : visible value = visible inside ++ [] := by rw [List.append_nil, h]
  rw [plainEnd_of_visible before (visible_append inside after) hvalue (by simp), throughVisible_append]

theorem plainEnd_append (before after value : Text) :
    plainEnd (before ++ (value ++ after)) (byteLength before) value =
      byteLength before + byteLength value.trimEnd :=
  plainEnd_of_visible_eq rfl before after

/-- The visible characters of the source behind the start and those of the value have a longest common prefix.  The
scalar ends at its start when that is empty, and otherwise behind the character of the source that comes last in it.  So
a scalar that is folded into its value ends behind its last visible character, over however many lines it stands. -/
theorem plainEnd_of_common (before rest value : Text) :
    ∃ common, IsLongestCommonPrefix (visible rest) (visible value) common ∧
      (common.length = 0 → plainEnd (before ++ rest) (byteLength before) value = byteLength before) ∧
      (0 < common.length → ∃ upto c after, rest = upto ++ c :: after ∧ isSpace c = false ∧
        (visible upto).length + 1 = common.length ∧
        plainEnd (before ++ rest) (byteLength before) value = byteLength (before ++ (upto ++ [c]))) ∧
      ∀ inside after, rest = inside ++ after → Folds inside value →
        plainEnd (before ++ rest) (byteLength before) value = byteLength (before ++ inside.trimEnd) := by
  obtain ⟨common, restA, restB, hrest, hvalue, hends⟩ := exists_common (visible rest) (visible value)
  have hend := plainEnd_of_visible before hrest hvalue hends
  refine ⟨common, ?_, fun hzero => ?_, fun hpos => ?_, ?_⟩
  · rw [hrest, hvalue]
    exact isLongestCommonPrefix_append hends
  · rw [hend, hzero, throughVisible_zero, byteLength_nil, Nat.add_zero]
  · obtain ⟨k, hk⟩ := Nat.exists_eq_succ_of_ne_zero (Nat.ne_of_gt hpos)
    have hlt : k < (visible rest).length := by
      rw [hrest, List.length_append]
      omega
    obtain ⟨upto, c, after, hsplit, hc, hlength, hthrough⟩ := exists_throughVisible hlt
    refine ⟨upto, c, after, hsplit, hc, by omega, ?_⟩
    rw [hend, hk, hthrough, ← byteLength_append]
  · rintro inside after rfl hfolds
    rw [plainEnd_of_visible_eq hfolds.visible_eq before after, byteLength_append]

/-- A scalar on three lines, with an empty line between the last two and a comment behind it. -/
theorem plainEnd_of_common_over_lines :
    let source : Text := "é: first\n  second \n\n\tthird # c\n".toList
    let value : Text := "first second\nthird".toList
    Folds "first\n  second \n\n\tthird".toList value ∧ source.restFrom 27 = " # c\n".toList ∧
      plainEnd source 4 value = 27 := by
  intro source value
  have hinside : "first\n  second \n\n\tthird".toList = "first".toList ++ ("\n  ".toList ++ ("second".toList ++
      (" \n\n\t".toList ++ ("third".toList ++ [])))) := by decide
  have hvalue : value = "first".toList ++ ([' '] ++ ("second".toList ++ (['\n'] ++ ("third".toList ++ [])))) := by
    decide
  have hfolds : Folds "first\n  second \n\n\tthird".toList value := by
    rw [hinside, hvalue]
    exact .kept _ (.gap (by decide) (by decide) (.kept _ (.gap (by decide) (by decide) (.kept _ .nil))))
  obtain ⟨_, -, -, -, hend⟩ := plainEnd_of_common "é: ".toList "first\n  second \n\n\tthird # c\n".toList value
  refine ⟨hfolds, by decide, ?_⟩
  have hstop := hend "first\n  second \n\n\tthird".toList " # c\n".toList (by decide) hfolds
  have hsource : "é: ".toList ++ "first\n  second \n\n\tthird # c\n".toList = source := by decide
  have hstart : byteLength "é: ".toList = 4 := by decide
  have hbytes : byteLength ("é: ".toList ++ trimEnd "first\n  second \n\n\tthird".toList) = 27 := by decide
  rwa [hsource, hstart, hbytes] at hstop

example : plainEnd "one two".toList 0 "on true".toList = 2 := by decide

/-- A plain scalar that stands in the source as it is ends behind its last visible character.  So it has exactly its own
text as range when it does not end with white space. -/
theorem scalarEnd_of_verbatim (before value after : Text) :
    scalarEnd (before ++ (value ++ after)) (byteLength before) .plain value =
      byteLength before + byteLength value.trimEnd ∧
    (scalarEnd (before ++ (value ++ after)) (byteLength before) .plain value = byteLength before + byteLength value ↔
      value.getLast?.any isSpace = false) := by
  have hend : scalarEnd (before ++ (value ++ after)) (byteLength before) .plain value =
      byteLength before + byteLength value.trimEnd := plainEnd_append before after value
  refine ⟨hend, ?_⟩
  rw [hend, Nat.add_left_cancel_iff]
  exact byteLength_trimEnd_eq_iff

/-- YAML has no other blanks and breaks than these four, so a no-break space belongs to the value; but the scalar ends
in front of it. -/
theorem noBreakSpace_behind_scalar :
    let value : Text := ['a', '\u00a0']
    IsBoundary value 0 ∧ value <+: value.restFrom 0 ∧
      (∀ c ∈ value.head?.toList ++ value.getLast?.toList, c ∉ [' ', '\t', '\r', '\n']) ∧
      byteLength value = 3 ∧ scalarEnd value 0 .plain value = 1 := by
  intro value
  refine ⟨by decide, by decide, ?_, by decide, by decide⟩
  intro c hc
  have hends : c = 'a' ∨ c = '\u00a0' := by simpa [value] using hc
  rcases hends with rfl | rfl
  · decide
  · decide

end Extent

end LocatedYaml
