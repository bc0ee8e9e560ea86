import LocatedYaml.Proofs.Binary64.Arithmetic
import LocatedYaml.Proofs.Scalar.CoreSchema

/-!
# Numbers with a point

A text with a point is no integer in either version (`int?_of_dot`).  As a float, YAML 1.1 may group its digits by
underscores and colons; where it has neither, both versions read it alike (`float?_v1_1_eq`), but for one form.  YAML
1.1 asks for a digit anywhere in the text, and that of an exponent will do: a lone point with an exponent behind it is
zero there and a string in YAML 1.2 (`LonePoint`, `floats_of_pointed_texts`).
-/

namespace LocatedYaml.Scalar

open Binary64

variable {version : Version} {t : Text} {c : Char}

/-! ### Integers have no point -/

theorem Row.not_mem {isDigit : Char → Bool} (h : Row isDigit t) (hc : isDigit c = false) : c ∉ t := by
  intro hmem
  have hdigit := h.isDigit c hmem
  rw [hc] at hdigit
  cases hdigit

theorem SpacedRow.not_mem {isDigit : Char → Bool} (h : SpacedRow isDigit t) (hc : isDigit c = false)
    (hunderscore : c ≠ '_') : c ∉ t := by
  intro hmem
  rcases h.isDigit c hmem with hdigit | rfl
  · rw [hc] at hdigit
    cases hdigit
  · exact hunderscore rfl

theorem Sign.not_mem {sign : Text} {negative : Bool} (h : Sign sign negative) (hplus : c ≠ '+') (hminus : c ≠ '-') :
    c ∉ sign := by
  rcases h.text_eq with rfl | rfl | rfl
  · exact List.not_mem_nil
  · simpa using hplus
  · simpa using hminus

theorem IntegerSpelling.dot_not_mem {n : Int} (h : IntegerSpelling version t n) : '.' ∉ t := by
  have hsigns : ∀ {sign : Text} {negative : Bool}, Sign sign negative → '.' ∉ sign := fun hsign =>
    hsign.not_mem (by decide) (by decide)
  cases h with
  | decimal hsign h => simp [hsigns hsign, h.not_mem (c := '.') rfl]
  | octal h => simp [h.not_mem (c := '.') rfl]
  | hex h => simp [h.not_mem (c := '.') rfl]
  | signedBinary hsign h => simp [hsigns hsign, h.not_mem (c := '.') rfl (by decide)]
  | signedHex hsign h => simp [hsigns hsign, h.not_mem (c := '.') rfl (by decide)]
  | signedOctal hsign h => simp [hsigns hsign, h.not_mem (c := '.') rfl (by decide)]
  | zero hsign => simp [hsigns hsign]
  | @spacedDecimal sign rest first negative hsign hfirst hzero h =>
    have hpoint : first ≠ '.' := by
      rintro rfl
      cases hfirst
    have hrest : '.' ∉ rest := by
      intro hmem
      rcases h '.' hmem with hdigit | hunderscore
      · cases hdigit
      · exact absurd hunderscore (by decide)
    simp [hsigns hsign, hpoint.symm, hrest]

theorem int?_of_dot (hdot : '.' ∈ t) (hcolon : ':' ∉ t) : int? version t = none := by
  rw [Option.eq_none_iff_forall_ne_some]
  intro v hv
  cases hread : Numeral.read? version t with
  | none =>
    rw [int?_of_read?_eq_none hcolon hread] at hv
    cases hv
  | some numeral =>
    have hvalue : ((Numeral.read? version t).bind Numeral.value?).isSome := by
      rw [hread, Option.bind_some, ← int?_of_read? hread]
      exact Option.isSome_of_mem hv
    obtain ⟨n, hspelling⟩ := isSome_value?_iff.1 hvalue
    exact hspelling.dot_not_mem hdot

/-! ### Reading without underscores and colons -/

section Reading

variable {body : Text}

private theorem span_congr {p q : Char → Bool} (h : ∀ c ∈ t, p c = q c) :
    t.takeWhile p = t.takeWhile q ∧ t.dropWhile p = t.dropWhile q := by
  induction t with
  | nil => exact ⟨rfl, rfl⟩
  | cons c cs ih =>
    obtain ⟨htake, hdrop⟩ := ih fun c hc => h c (List.mem_cons_of_mem _ hc)
    have hc := h c List.mem_cons_self
    rw [List.takeWhile_cons, List.takeWhile_cons, List.dropWhile_cons, List.dropWhile_cons, hc, htake, hdrop]
    exact ⟨rfl, rfl⟩

theorem Fraction.read?_congr {p q : Char → Bool} (h : ∀ c ∈ body, p c = q c) : read? p body = read? q body := by
  obtain ⟨htake, hdrop⟩ := span_congr h
  simp only [read?, htake, hdrop]
  split
  · rename_i rest hrest
    have hmem : ∀ c ∈ rest, c ∈ body := by
      intro c hc
      have hafter : c ∈ body.dropWhile q := hrest ▸ List.mem_cons_of_mem _ hc
      exact List.dropWhile_subset q hafter
    obtain ⟨htake', hdrop'⟩ := span_congr fun c hc => h c (hmem c hc)
    rw [htake', hdrop']
  · rfl

theorem Exponent.dot_not_mem {exponent : Text} (h : Exponent exponent) : '.' ∉ exponent := by
  cases h with
  | absent => exact List.not_mem_nil
  | marked he hsign h =>
    have hmark : ∀ e : Char, e = 'e' ∨ e = 'E' → '.' ≠ e := by
      rintro e (rfl | rfl) <;> decide
    simp [hmark _ he, hsign.not_mem (c := '.') (by decide) (by decide), h.not_mem (c := '.') rfl]

/-- With a point in it, what is read has digits around the point and an exponent behind them. -/
theorem Fraction.exists_of_read? {f : Fraction} (hdot : '.' ∈ body) (h : read? isDecimalDigit body = some f) :
    ∃ fraction exponent, f.fraction = some fraction ∧ body = f.whole ++ '.' :: (fraction ++ exponent) ∧
      (∀ c ∈ f.whole ++ fraction, isDecimalDigit c) ∧ Exponent exponent := by
  have hdigits : ∀ t : Text, ∀ c ∈ t.takeWhile isDecimalDigit, isDecimalDigit c := fun _ _ => List.mem_takeWhile_imp
  have hbody : body.takeWhile isDecimalDigit ++ body.dropWhile isDecimalDigit = body := List.takeWhile_append_dropWhile
  simp only [read?] at h
  split at h
  · rename_i rest hrest
    obtain ⟨e, he, rfl⟩ := Option.map_eq_some_iff.1 h
    have hsplit : rest.takeWhile isDecimalDigit ++ rest.dropWhile isDecimalDigit = rest :=
      List.takeWhile_append_dropWhile
    refine ⟨_, rest.dropWhile isDecimalDigit, rfl, ?_, ?_, isSome_readExponent?.1 (Option.isSome_of_mem he)⟩
    · rw [hsplit, ← hrest, hbody]
    · exact List.forall_mem_append.2 ⟨hdigits body, hdigits rest⟩
  · obtain ⟨e, he, rfl⟩ := Option.map_eq_some_iff.1 h
    have hexponent := isSome_readExponent?.1 (Option.isSome_of_mem he)
    rw [← hbody] at hdot
    rcases List.mem_append.1 hdot with hmem | hmem
    · exact absurd (hdigits body '.' hmem) (by decide)
    · exact absurd hmem hexponent.dot_not_mem

theorem Sexagesimal.readFloat?_of_not_mem (hcolon : ':' ∉ body) : readFloat? body = none := by
  rw [readFloat?, List.span_eq_takeWhile_dropWhile]
  split
  · rename_i whole fraction heq
    have hwhole : ':' ∉ whole := by
      intro hmem
      rw [← (Prod.mk.inj heq).1] at hmem
      exact hcolon (List.takeWhile_subset _ hmem)
    rw [groups?, List.splitOn_eq_singleton hwhole]
    exact ite_self _
  · rfl

end Reading

/-! ### A lone point -/

/-- A point without digits and an exponent behind it. -/
inductive LonePoint : Bool → Text → Prop
  | intro {sign exponent : Text} {negative : Bool} (hsign : Sign sign negative) (h : Exponent exponent)
      (hne : exponent ≠ []) : LonePoint negative (sign ++ '.' :: exponent)

theorem Exponent.exists_digit {exponent : Text} (h : Exponent exponent) (hne : exponent ≠ []) :
    ∃ c ∈ exponent, isDecimalDigit c := by
  cases h with
  | absent => exact absurd rfl hne
  | @marked e sign digits negative he hsign h =>
    obtain ⟨c, rest, rfl⟩ := List.exists_cons_of_ne_nil h.ne_nil
    exact ⟨c, by simp, h.isDigit c List.mem_cons_self⟩

theorem toBinary64_zero (scale : Int) : Decimal.toBinary64 false ⟨0, scale⟩ = ofRank false 0 := by
  have hrank : Decimal.nearestRank ⟨0, scale⟩ = 0 := by
    simp [Decimal.nearestRank, Binary64.nearestRank]
  rw [Decimal.toBinary64, hrank]

/-- The digit that YAML 1.1 asks for is found in the exponent, and its float is zero; YAML 1.2 asks for one in front of
the exponent. -/
theorem magnitude?_lonePoint {exponent : Text} (h : Exponent exponent) (hne : exponent ≠ []) :
    magnitude? .v1_1 ('.' :: exponent) = some (ofRank false 0) ∧ magnitude? .v1_2 ('.' :: exponent) = none := by
  obtain ⟨e, he⟩ := Option.isSome_iff_exists.1 (isSome_readExponent?.2 h)
  have hread := @Fraction.read?_withPoint [] [] exponent (by simp) (by simp) h
  rw [he, List.nil_append, List.nil_append, Option.map_some] at hread
  have hchars := h.isNumberChar_of_mem
  have hcolon : ':' ∉ '.' :: exponent := by
    intro hmem
    rcases List.mem_cons.1 hmem with heq | hmem
    · cases heq
    · exact absurd (hchars ':' hmem) (by decide)
  have hclass : ∀ c ∈ '.' :: exponent, Numeral.orUnderscore isDecimalDigit c = isDecimalDigit c := by
    refine List.forall_mem_cons.2 ⟨rfl, fun c hc => ?_⟩
    have hunderscore : c ≠ '_' := by
      rintro rfl
      exact absurd (hchars '_' hc) (by decide)
    simp [Numeral.orUnderscore, hunderscore]
  constructor
  · obtain ⟨c, hc, hdigit⟩ := h.exists_digit hne
    have hany : ('.' :: exponent).any isDecimalDigit :=
      List.any_eq_true.2 ⟨c, List.mem_cons_of_mem _ hc, hdigit⟩
    have hread' : Fraction.read1_1? ('.' :: exponent) = some ⟨[], some [], e⟩ := by
      rw [Fraction.read1_1?, Fraction.read?_congr hclass, hread]
      simp [hany]
    simp only [magnitude?, Sexagesimal.readFloat?_of_not_mem hcolon, hread', Option.map_some]
    exact congrArg some (toBinary64_zero _)
  · have hread' : Fraction.read1_2? ('.' :: exponent) = none := by
      rw [Fraction.read1_2?, hread]
      rfl
    simp only [magnitude?, hread', Option.map_none]

/-- Behind the point of a word for infinity or NaN stands no `e`. -/
private theorem point_not_word {exponent : Text} (h : Exponent exponent) (hne : exponent ≠ []) :
    '.' :: exponent ∉ infinityWords ++ nanWords := by
  have hwords : ∀ word ∈ infinityWords ++ nanWords, word.tail.head? ≠ some 'e' ∧ word.tail.head? ≠ some 'E' := by decide
  obtain ⟨e, rest, rfl⟩ := List.exists_cons_of_ne_nil hne
  intro hmem
  obtain ⟨hlower, hupper⟩ := hwords _ hmem
  rcases h.head? e rfl with rfl | rfl
  · exact hlower rfl
  · exact hupper rfl

theorem float?_lonePoint {negative : Bool} (h : LonePoint negative t) :
    float? .v1_1 t = some (.float (ofRank negative 0)) ∧ float? .v1_2 t = none := by
  obtain ⟨hsign, h, hne⟩ := h
  rename_i sign exponent
  have hsplit : splitSign (sign ++ '.' :: exponent) = (negative, '.' :: exponent) := by
    refine splitSign_append hsign ?_
    rintro c ⟨⟩
    decide
  have hword := point_not_word h hne
  have hinfinity : '.' :: exponent ∉ infinityWords := fun hmem => hword (List.mem_append_left _ hmem)
  have hnan : sign ++ '.' :: exponent ∉ nanWords := by
    intro hmem
    rcases hsign.text_eq with rfl | rfl | rfl
    · exact hword (List.mem_append_right _ hmem)
    · simp [nanWords] at hmem
    · simp [nanWords] at hmem
  obtain ⟨hfloat, hnone⟩ := magnitude?_lonePoint h hne
  rw [float?_of_not_word hsplit hinfinity hnan, float?_of_not_word hsplit hinfinity hnan, hfloat, hnone]
  cases negative with
  | false => exact ⟨rfl, rfl⟩
  | true => exact ⟨rfl, rfl⟩

/-! ### All other numbers with a point -/

theorem Fraction.read1_1?_eq_read1_2? {body : Text} (hdot : '.' ∈ body) (hunderscore : '_' ∉ body)
    (hlone : ∀ exponent, Exponent exponent → exponent ≠ [] → body ≠ '.' :: exponent) :
    read1_1? body = read1_2? body := by
  have hclass : ∀ c ∈ body, Numeral.orUnderscore isDecimalDigit c = isDecimalDigit c := by
    intro c hc
    have hne : c ≠ '_' := fun heq => hunderscore (heq ▸ hc)
    simp [Numeral.orUnderscore, hne]
  rw [read1_1?, read1_2?, read?_congr hclass]
  cases hread : read? isDecimalDigit body with
  | none => rfl
  | some f =>
    obtain ⟨fraction, exponent, hfraction, hbody, hdigits, hexponent⟩ := exists_of_read? hdot hread
    by_cases hmantissa : f.whole ++ fraction = []
    · -- without a digit in the mantissa there is no exponent, which would have one
      obtain ⟨hwhole, rfl⟩ := List.append_eq_nil_iff.1 hmantissa
      rw [hwhole, List.nil_append, List.nil_append] at hbody
      have hnil : exponent = [] := by
        by_contra hne
        exact hlone exponent hexponent hne hbody
      have hany : body.any isDecimalDigit = false := by
        rw [hbody, hnil]
        rfl
      simp [Option.filter, hwhole, hfraction, hany]
    · obtain ⟨c, hc⟩ := List.exists_mem_of_ne_nil _ hmantissa
      have hmem : c ∈ body := by
        rw [hbody]
        rcases List.mem_append.1 hc with hc | hc
        · exact List.mem_append_left _ hc
        · exact List.mem_append_right _ (List.mem_cons_of_mem _ (List.mem_append_left _ hc))
      have hany : body.any isDecimalDigit := List.any_eq_true.2 ⟨c, hmem, hdigits c hc⟩
      have hhead : f.whole.head? ≠ some '_' := by
        intro hhead
        refine hunderscore ?_
        rw [hbody]
        exact List.mem_append_left _ (List.mem_of_mem_head? hhead)
      have hsome : f.whole = [] → fraction ≠ [] := fun hwhole hnil => hmantissa (by rw [hwhole, hnil, List.append_nil])
      simpa [Option.filter, hfraction, hhead, hany] using hsome

/-- Without underscores and colons, a text with a point is the same float in both versions, unless the point is a lone
one. -/
theorem float?_v1_1_eq (hdot : '.' ∈ t) (hunderscore : '_' ∉ t) (hcolon : ':' ∉ t)
    (hlone : ∀ negative, ¬LonePoint negative t) : float? .v1_1 t = float? .v1_2 t := by
  rcases hsplit : splitSign t with ⟨negative, body⟩
  obtain ⟨sign, hsign, rfl⟩ := exists_sign hsplit
  have hpoint : '.' ∈ body := (List.mem_append.1 hdot).resolve_left (hsign.not_mem (by decide) (by decide))
  have hunderscore' : '_' ∉ body := fun hmem => hunderscore (List.mem_append_right _ hmem)
  have hcolon' : ':' ∉ body := fun hmem => hcolon (List.mem_append_right _ hmem)
  have hread : Fraction.read1_1? body = Fraction.read1_2? body := by
    refine Fraction.read1_1?_eq_read1_2? hpoint hunderscore' fun exponent hexponent hne hbody => ?_
    refine hlone negative ?_
    rw [hbody]
    exact .intro hsign hexponent hne
  simp only [float?, hsplit, magnitude?, Sexagesimal.readFloat?_of_not_mem hcolon', hread]

/-- Without underscores and colons, a float of YAML 1.2 with a point is the same float in YAML 1.1. -/
theorem float?_v1_1_of_v1_2 {v : Value} (hdot : '.' ∈ t) (hunderscore : '_' ∉ t) (hcolon : ':' ∉ t)
    (h : float? .v1_2 t = some v) : float? .v1_1 t = some v := by
  have hlone : ∀ negative, ¬LonePoint negative t := by
    intro negative hlone
    rw [(float?_lonePoint hlone).2] at h
    cases h
  rw [float?_v1_1_eq hdot hunderscore hcolon hlone]
  exact h

/-! ### The floats of both versions -/

/-- Of the texts with a point but without underscores and colons, YAML 1.1 takes two sorts for floats: the numbers of
YAML 1.2, which have a digit in front of the exponent or are words, each as the same float; and lone points, as zero,
which are strings in YAML 1.2. -/
theorem floats_of_pointed_texts (t : Text) (hdot : '.' ∈ t) (hunderscore : '_' ∉ t) (hcolon : ':' ∉ t) :
    (∀ x, resolvePlain .v1_1 t = .float x ↔ (CoreNumber t ∧ resolvePlain .v1_2 t = .float x) ∨
      ∃ negative, LonePoint negative t ∧ x = ofRank negative 0) ∧
    ∀ negative, LonePoint negative t → ¬CoreNumber t ∧ resolvePlain .v1_2 t = .string t := by
  have hint : ∀ version, int? version t = none := fun version => int?_of_dot hdot hcolon
  constructor
  · intro x
    rw [resolvePlain_eq_float_iff (hint .v1_1), resolvePlain_eq_float_iff (hint .v1_2)]
    constructor
    · intro h
      by_cases hlone : ∃ negative, LonePoint negative t
      · obtain ⟨negative, hlone⟩ := hlone
        rw [(float?_lonePoint hlone).1] at h
        cases h
        exact Or.inr ⟨negative, hlone, rfl⟩
      · rw [float?_v1_1_eq hdot hunderscore hcolon (not_exists.1 hlone)] at h
        exact Or.inl ⟨isSome_number_iff.1 (Or.inr (Option.isSome_of_mem h)), h⟩
    · rintro (⟨-, h⟩ | ⟨negative, hlone, rfl⟩)
      · exact float?_v1_1_of_v1_2 hdot hunderscore hcolon h
      · exact (float?_lonePoint hlone).1
  · intro negative hlone
    have hnumber : ¬CoreNumber t := by
      rw [← isSome_number_iff, hint, (float?_lonePoint hlone).2]
      simp
    have hwords : ∀ word ∈ nullTexts ++ (boolTexts true ++ boolTexts false), '.' ∉ word := by decide
    refine ⟨hnumber, resolvePlain_v1_2_eq_string_iff.2 ?_⟩
    rintro (hnull | ⟨b, hbool⟩ | h)
    · exact hwords t (List.mem_append_left _ hnull) hdot
    · refine hwords t (List.mem_append_right _ ?_) hdot
      cases b with
      | true => exact List.mem_append_left _ hbool
      | false => exact List.mem_append_right _ hbool
    · exact hnumber h

/-- A number with an exponent, and a lone point that is the negative zero. -/
theorem floats_of_pointed_texts_with_exponent :
    ('.' ∈ "-1.5e+3".toList ∧ '_' ∉ "-1.5e+3".toList ∧ ':' ∉ "-1.5e+3".toList) ∧
      resolvePlain .v1_1 "-1.5e+3".toList = .float (ofBits 0xc097700000000000) ∧
      ('.' ∈ "-.E0".toList ∧ '_' ∉ "-.E0".toList ∧ ':' ∉ "-.E0".toList) ∧
      resolvePlain .v1_1 "-.E0".toList = .float (ofBits 0x8000000000000000) ∧
      resolvePlain .v1_2 "-.E0".toList = .string "-.E0".toList := by
  have hwhole : Row isDecimalDigit ['1'] := by decide
  have hmantissa : Mantissa "1.5".toList := .withPoint hwhole (List.forall_mem_singleton.2 rfl)
  have hexponent : Exponent "e+3".toList := .marked (Or.inl rfl) .plus (by decide)
  have hnumber : CoreNumber "-1.5e+3".toList := .fraction .minus hmantissa hexponent
  have hlone : LonePoint true "-.E0".toList :=
    .intro .minus (.marked (Or.inr rfl) .absent (by decide)) (List.cons_ne_nil _ _)
  have htext := floats_of_pointed_texts "-1.5e+3".toList (by decide) (by decide) (by decide)
  have hpoint := floats_of_pointed_texts "-.E0".toList (by decide) (by decide) (by decide)
  exact ⟨by decide, (htext.1 _).2 (Or.inl ⟨hnumber, by decide +kernel⟩), by decide,
    (hpoint.1 _).2 (Or.inr ⟨true, hlone, by decide +kernel⟩), (hpoint.2 true hlone).2⟩

/-- A lone point has no digit in front of its exponent, and yet YAML 1.1 takes it for a float. -/
theorem lone_point_is_float :
    ('.' ∈ ".e5".toList ∧ '_' ∉ ".e5".toList ∧ ':' ∉ ".e5".toList) ∧ LonePoint false ".e5".toList ∧
      resolvePlain .v1_1 ".e5".toList = .float (ofBits 0) ∧ resolvePlain .v1_2 ".e5".toList = .string ".e5".toList :=
  ⟨by decide, .intro .absent (.marked (Or.inl rfl) .absent (by decide)) (List.cons_ne_nil _ _), by decide +kernel,
    by decide +kernel⟩

end LocatedYaml.Scalar
