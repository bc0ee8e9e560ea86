import LocatedYaml.Proofs.Scalar.Plain

/-!
# Core tags and plain scalars

A core tag asks for one form of plain scalars, in any style: with a tag of its own form a text has the value that it
has as a plain scalar.  A float may also be spelled as an integer, and a timestamp is trimmed first.
-/

namespace LocatedYaml.Scalar

/-! ### The tags -/

namespace CoreType

def name : CoreType → Text
  | .str => "str".toList
  | .null => "null".toList
  | .bool => "bool".toList
  | .int => "int".toList
  | .float => "float".toList
  | .binary => "binary".toList
  | .timestamp => "timestamp".toList

/-- The tag of the type in its full form. -/
def tag (type : CoreType) : Text := coreTagStart ++ type.name

/-- YAML 1.2 has no tags for binary values and timestamps. -/
def isKnown (version : Version) : CoreType → Bool
  | .binary | .timestamp => version = .v1_1
  | _ => true

theorem ofTag?_tag {version : Version} {type : CoreType} (h : type.isKnown version) :
    ofTag? version type.tag = some type := by
  cases version <;> cases type <;> first | rfl | cases h

end CoreType

/-- Under the tag of a core type the style of a scalar makes no difference. -/
theorem resolve_tag {version : Version} {type : CoreType} (h : type.isKnown version) (style : Style) (t : Text) :
    resolve version style (some type.tag) t = resolveAs version type t := by
  simp only [resolve, CoreType.ofTag?_tag h]

/-! ### The answers of the types -/

section Answers

variable {version : Version} {t : Text} {v : Value}

theorem resolveAs_null_eq_some_iff :
    resolveAs version .null t = some v ↔ v = .null ∧ resolvePlain version t = v := by
  constructor
  · intro h
    simp only [resolveAs] at h
    split at h
    · obtain rfl := Option.some.inj h
      exact ⟨rfl, resolvePlain_eq_null_iff.2 ‹_›⟩
    · cases h
  · rintro ⟨rfl, h⟩
    exact if_pos (resolvePlain_eq_null_iff.1 h)

theorem resolveAs_bool_eq_some_iff :
    resolveAs version .bool t = some v ↔ (∃ b, v = .bool b) ∧ resolvePlain version t = v := by
  constructor
  · intro h
    obtain ⟨b, rfl⟩ := exists_of_bool? h
    exact ⟨⟨b, rfl⟩, resolvePlain_eq_bool_iff.2 h⟩
  · rintro ⟨⟨b, rfl⟩, h⟩
    exact resolvePlain_eq_bool_iff.1 h

theorem resolveAs_int_cases (version : Version) (t : Text) :
    resolveAs version .int t = none ∨ resolveAs version .int t = some (resolvePlain version t) := by
  cases h : resolveAs version .int t with
  | none => exact Or.inl rfl
  | some v => exact Or.inr (congrArg some (resolvePlain_eq_iff.2 (.int h)).symm)

theorem exists_of_resolveAs_float (h : resolveAs version .float t = some v) : ∃ x, v = .float x := by
  rcases Option.or_eq_some_iff.1 (Option.orElse_eq_or.symm.trans h) with h | ⟨-, h⟩
  · exact exists_of_float? h
  · obtain ⟨w, hint, rfl⟩ := Option.map_eq_some_iff.1 h
    rcases exists_of_int? hint with ⟨n, rfl⟩ | ⟨x, rfl⟩
    · exact ⟨.ofInt n, rfl⟩
    · exact ⟨x, rfl⟩

theorem isSome_resolveAs_float :
    (resolveAs version .float t).isSome ↔
      (∃ n, resolvePlain version t = .int n) ∨ ∃ x, resolvePlain version t = .float x := by
  rw [resolvePlain_eq_number_iff, or_comm, resolveAs]
  cases float? version t <;> simp

theorem resolveAs_timestamp_eq_some_iff :
    resolveAs .v1_1 .timestamp t = some v ↔ (∃ s, v = .timestamp s) ∧ resolvePlain .v1_1 (Text.trim t) = v := by
  constructor
  · intro h
    obtain ⟨-, -, rfl⟩ := eq_of_timestamp? h
    exact ⟨⟨_, rfl⟩, resolvePlain_eq_timestamp_iff.2 h⟩
  · rintro ⟨⟨s, rfl⟩, h⟩
    exact resolvePlain_eq_timestamp_iff.1 h

end Answers

/-- With the tag of a core type a scalar has the value that its text has as a plain scalar, when that is a value of the
type, and no value otherwise.  An integer beyond the range of integers stays the float that it is; a text that is an
integer or a float is a float when one is asked for; a timestamp may stand between white space.  The style of the scalar
makes no difference. -/
theorem resolution_of_core_tags (version : Version) (t : Text) :
    let plain := resolvePlain version t
    let tagged (type : CoreType) (style : Style) := resolve version style (some type.tag) t
    (∀ style v, tagged .null style = some v ↔ v = .null ∧ plain = v) ∧
    (∀ style v, tagged .bool style = some v ↔ (∃ b, v = .bool b) ∧ plain = v) ∧
    (∀ style, (tagged .int style = none ∨ tagged .int style = some plain) ∧
      ∀ n, tagged .int style = some (.int n) ↔ plain = .int n) ∧
    (∀ style, (tagged .float style = none ∨ ∃ x, tagged .float style = some (.float x)) ∧
      ((tagged .float style).isSome ↔ (∃ n, plain = .int n) ∨ ∃ x, plain = .float x)) ∧
    (∀ style v, resolve .v1_1 style (some CoreType.timestamp.tag) t = some v ↔
      (∃ s, v = .timestamp s) ∧ resolvePlain .v1_1 (Text.trim t) = v) ∧
    ∀ type style style', tagged type style = tagged type style' := by
  intro plain tagged
  refine ⟨fun style v => ?_, fun style v => ?_, fun style => ⟨?_, fun n => ?_⟩, fun style => ⟨?_, ?_⟩,
    fun style v => ?_, fun type style style' => rfl⟩
  · rw [show tagged .null style = _ from resolve_tag rfl style t]
    exact resolveAs_null_eq_some_iff
  · rw [show tagged .bool style = _ from resolve_tag rfl style t]
    exact resolveAs_bool_eq_some_iff
  · rw [show tagged .int style = _ from resolve_tag rfl style t]
    exact resolveAs_int_cases version t
  · rw [show tagged .int style = _ from resolve_tag rfl style t]
    exact resolvePlain_eq_int_iff.symm
  · rw [show tagged .float style = _ from resolve_tag rfl style t]
    cases h : resolveAs version .float t with
    | none => exact Or.inl rfl
    | some v =>
      obtain ⟨x, rfl⟩ := exists_of_resolveAs_float h
      exact Or.inr ⟨x, rfl⟩
  · rw [show tagged .float style = _ from resolve_tag rfl style t]
    exact isSome_resolveAs_float
  · rw [resolve_tag rfl]
    exact resolveAs_timestamp_eq_some_iff

end LocatedYaml.Scalar
