import LocatedYaml.Extent.Basic
import LocatedYaml.Proofs.Text.Lines

/-!
# Closing quotes

The body of a double-quoted scalar is a row of units, each a character or a backslash with the character it escapes; the
body of a single-quoted one is a text with its quotes doubled.  A scanner passes over a whole body whatever stands
behind it (`doubleQuotedBytes?_body`, `singleQuotedBytes?_doubled`), so the scalar ends with the quote behind the body,
and with the source when there is none (`scalarEnd_of_quoted`).
-/

namespace LocatedYaml.Extent

open Text

/-! ### Bodies -/

/-- A unit between double quotes. -/
inductive QuotedUnit where
  | character (c : Char) (ne_quote : c ≠ '"') (ne_backslash : c ≠ '\\')
  | escape (c : Char)

namespace QuotedUnit

def text : QuotedUnit → Text
  | character c _ _ => [c]
  | escape c => ['\\', c]

/-- What stands between the quotes. -/
def body (units : List QuotedUnit) : Text := units.flatMap text

end QuotedUnit

/-- The text with every single quote written twice. -/
def doubled (t : Text) : Text := t.flatMap fun c => if c = '\x27' then ['\x27', '\x27'] else [c]

/-! ### Scanning a body -/

theorem map_add_map (n? : Option Nat) (a b : Nat) : (n?.map (b + ·)).map (a + ·) = n?.map (a + b + ·) := by
  rw [Option.map_map]
  congr 1
  funext n
  exact (Nat.add_assoc a b n).symm

theorem doubleQuotedBytes?_unit (unit : QuotedUnit) (rest : Text) :
    doubleQuotedBytes? (unit.text ++ rest) = (doubleQuotedBytes? rest).map (byteLength unit.text + ·) := by
  cases unit with
  | character c hquote hbackslash =>
    show doubleQuotedBytes? (c :: rest) = _
    simp [doubleQuotedBytes?, QuotedUnit.text, hbackslash]
  | escape c =>
    show doubleQuotedBytes? ('\\' :: c :: rest) = _
    rw [doubleQuotedBytes?]
    rfl

/-- The scanner passes over a body, also when it ends with an escaped quote or backslash. -/
theorem doubleQuotedBytes?_body (units : List QuotedUnit) (rest : Text) :
    doubleQuotedBytes? (QuotedUnit.body units ++ rest) =
      (doubleQuotedBytes? rest).map (byteLength (QuotedUnit.body units) + ·) := by
  induction units with
  | nil => simp [QuotedUnit.body]
  | cons unit units ih =>
    have hbody : QuotedUnit.body (unit :: units) = unit.text ++ QuotedUnit.body units := List.flatMap_cons
    rw [hbody, List.append_assoc, doubleQuotedBytes?_unit, ih, map_add_map, byteLength_append]

theorem singleQuotedBytes?_cons {c : Char} (h : c ≠ '\x27') (rest : Text) :
    singleQuotedBytes? (c :: rest) = (singleQuotedBytes? rest).map (c.utf8Size + ·) := by
  simp [singleQuotedBytes?, h]

/-- The scanner passes over doubled quotes in pairs, so none of them is taken for the closing one. -/
theorem singleQuotedBytes?_doubled (t rest : Text) :
    singleQuotedBytes? (doubled t ++ rest) = (singleQuotedBytes? rest).map (byteLength (doubled t) + ·) := by
  induction t with
  | nil => simp [doubled]
  | cons c cs ih =>
    by_cases hc : c = '\x27'
    · have hdoubled : doubled (c :: cs) = '\x27' :: '\x27' :: doubled cs := by
        simp [doubled, hc]
      have hbytes : byteLength (doubled (c :: cs)) = 2 + byteLength (doubled cs) := by
        rw [hdoubled, byteLength_cons, byteLength_cons, ← Nat.add_assoc]
        rfl
      rw [hbytes, ← map_add_map, ← ih, hdoubled]
      rfl
    · have hdoubled : doubled (c :: cs) = c :: doubled cs := by
        simp [doubled, hc]
      rw [hdoubled, List.cons_append, singleQuotedBytes?_cons hc, ih, map_add_map, byteLength_cons]

/-! ### The closing quote -/

theorem singleQuotedBytes?_close {rest : Text} (h : rest.head? ≠ some '\x27') :
    singleQuotedBytes? ('\x27' :: rest) = some 1 := by
  cases rest with
  | nil => rfl
  | cons c cs =>
    have hc : c ≠ '\x27' := by
      rintro rfl
      exact h rfl
    simp [singleQuotedBytes?, hc]

section quotedEnd

variable {bytes? : Text → Option Nat} {body : Text} {quote : Char}

theorem quotedEnd_of_some {n : Nat} (h : bytes? body = some (n + 1)) (hquote : quote.utf8Size = 1) (before : Text) :
    quotedEnd bytes? (before ++ quote :: body) (byteLength before) = byteLength before + n + 2 := by
  simp only [quotedEnd, restFrom_append, h, hquote]
  omega

theorem quotedEnd_of_none (h : bytes? body = none) (before : Text) (quote : Char) :
    quotedEnd bytes? (before ++ quote :: body) (byteLength before) = byteLength (before ++ quote :: body) := by
  simp only [quotedEnd, restFrom_append, h]

end quotedEnd

/-- A quoted scalar ends just behind its closing quote.  When there is none it ends with the source, also behind a
backslash that has nothing to escape. -/
theorem scalarEnd_of_quoted (before after value : Text) :
    (∀ units : List QuotedUnit,
      scalarEnd (before ++ '"' :: (QuotedUnit.body units ++ '"' :: after)) (byteLength before) .doubleQuoted value =
        byteLength before + byteLength (QuotedUnit.body units) + 2 ∧
      scalarEnd (before ++ '"' :: QuotedUnit.body units) (byteLength before) .doubleQuoted value =
        byteLength (before ++ '"' :: QuotedUnit.body units) ∧
      scalarEnd (before ++ '"' :: (QuotedUnit.body units ++ ['\\'])) (byteLength before) .doubleQuoted value =
        byteLength (before ++ '"' :: (QuotedUnit.body units ++ ['\\']))) ∧
    ∀ t : Text,
      (after.head? ≠ some '\x27' →
        scalarEnd (before ++ '\x27' :: (doubled t ++ '\x27' :: after)) (byteLength before) .singleQuoted value =
          byteLength before + byteLength (doubled t) + 2) ∧
      scalarEnd (before ++ '\x27' :: doubled t) (byteLength before) .singleQuoted value =
        byteLength (before ++ '\x27' :: doubled t) := by
  constructor
  · intro units
    refine ⟨?_, ?_, ?_⟩
    · have hclose : doubleQuotedBytes? ('"' :: after) = some 1 := by simp [doubleQuotedBytes?]
      have hbytes : doubleQuotedBytes? (QuotedUnit.body units ++ '"' :: after) =
          some (byteLength (QuotedUnit.body units) + 1) := by
        rw [doubleQuotedBytes?_body, hclose, Option.map_some]
      exact quotedEnd_of_some hbytes rfl before
    · have hopen : doubleQuotedBytes? (QuotedUnit.body units) = none := by
        rw [← List.append_nil (QuotedUnit.body units), doubleQuotedBytes?_body]
        rfl
      exact quotedEnd_of_none hopen before '"'
    · have hbackslash : doubleQuotedBytes? (QuotedUnit.body units ++ ['\\']) = none := by
        rw [doubleQuotedBytes?_body]
        rfl
      exact quotedEnd_of_none hbackslash before '"'
  · intro t
    constructor
    · intro hafter
      have hbytes : singleQuotedBytes? (doubled t ++ '\x27' :: after) = some (byteLength (doubled t) + 1) := by
        rw [singleQuotedBytes?_doubled, singleQuotedBytes?_close hafter, Option.map_some]
      exact quotedEnd_of_some hbytes rfl before
    · have hopen : singleQuotedBytes? (doubled t) = none := by
        rw [← List.append_nil (doubled t), singleQuotedBytes?_doubled]
        rfl
      exact quotedEnd_of_none hopen before '\x27'

/-- A text that begins and ends with a quote, and is doubled to `''é''''`: the scalar goes on to the fifth quote behind
the `é`, the one in front of the comma. -/
theorem scalarEnd_of_quoted_of_quotes :
    [','].head? ≠ some '\x27' ∧
      scalarEnd ("- ".toList ++ '\x27' :: (doubled "\x27é\x27\x27".toList ++ '\x27' :: [','])) 2 .singleQuoted
        "\x27é\x27\x27".toList = 12 := by
  have hafter : [','].head? ≠ some '\x27' := by decide
  exact ⟨hafter, ((scalarEnd_of_quoted "- ".toList [','] _).2 "\x27é\x27\x27".toList).1 hafter⟩

end LocatedYaml.Extent
