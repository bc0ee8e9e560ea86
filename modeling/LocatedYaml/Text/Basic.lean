/-!
# Texts

A text is the list of its characters. Offsets into a text count the bytes of its UTF-8 form, so an offset may
also fall inside a character or behind the end; `cut?` answers only at the offsets where a character starts and at
the end of the text.

* `cut?_eq_some_iff`: the cut at `n` exists exactly when the text splits into a part of `n` bytes and a rest.
-/

namespace LocatedYaml

/-- A text, character by character. -/
abbrev Text := List Char

namespace Text

/-- The number of bytes of the UTF-8 form. -/
def byteLength : Text → Nat
  | [] => 0
  | c :: cs => c.utf8Size + byteLength cs

@[simp] theorem byteLength_nil : byteLength [] = 0 := rfl

@[simp] theorem byteLength_cons (c : Char) (cs : Text) :
    byteLength (c :: cs) = c.utf8Size + byteLength cs := rfl

@[simp] theorem byteLength_append (a b : Text) : byteLength (a ++ b) = byteLength a + byteLength b := by
  induction a with
  | nil => simp
  | cons c cs ih => simp [ih]; omega

theorem byteLength_eq_zero {a : Text} (h : byteLength a = 0) : a = [] := by
  cases a with
  | nil => rfl
  | cons c cs => have := c.utf8Size_pos; simp at h; omega

/-- The two parts of the text at byte offset `n`, when a character starts or the text ends there. -/
def cut? : Nat → Text → Option (Text × Text)
  | 0, cs => some ([], cs)
  | _ + 1, [] => none
  | n + 1, c :: cs =>
    if c.utf8Size ≤ n + 1 then (cut? (n + 1 - c.utf8Size) cs).map fun (a, b) => (c :: a, b) else none

theorem cut?_append (a b : Text) : cut? (byteLength a) (a ++ b) = some (a, b) := by
  induction a with
  | nil => simp [cut?]
  | cons c cs ih =>
    have hc := c.utf8Size_pos
    obtain ⟨n, hn⟩ : ∃ n, byteLength (c :: cs) = n + 1 := ⟨byteLength (c :: cs) - 1, by simp; omega⟩
    have hle : c.utf8Size ≤ n + 1 := by simp at hn; omega
    have hsub : n + 1 - c.utf8Size = byteLength cs := by simp at hn; omega
    rw [hn, List.cons_append, cut?, if_pos hle, hsub, ih]
    rfl

theorem eq_append_of_cut? {n : Nat} {t a b : Text} (h : cut? n t = some (a, b)) :
    t = a ++ b ∧ byteLength a = n := by
  induction t generalizing n a with
  | nil =>
    cases n with
    | zero => simp [cut?] at h; simp [h]
    | succ n => simp [cut?] at h
  | cons c cs ih =>
    cases n with
    | zero => simp [cut?] at h; simp [h]
    | succ n =>
      rw [cut?] at h
      split at h
      · obtain ⟨⟨a', b'⟩, h', heq⟩ := Option.map_eq_some_iff.1 h
        obtain ⟨rfl, rfl⟩ := Prod.mk.inj heq
        obtain ⟨rfl, hlen⟩ := ih h'
        exact ⟨rfl, by simp [hlen]; omega⟩
      · simp at h

theorem cut?_eq_some_iff {n : Nat} {t a b : Text} :
    cut? n t = some (a, b) ↔ t = a ++ b ∧ byteLength a = n :=
  ⟨eq_append_of_cut?, fun ⟨ht, hn⟩ => by rw [ht, ← hn]; exact cut?_append a b⟩

/-- What stands from byte offset `n` on; nothing where the text has no cut. -/
def restFrom : Text → Nat → Text
  | t, 0 => t
  | [], _ + 1 => []
  | c :: cs, n + 1 => if c.utf8Size ≤ n + 1 then restFrom cs (n + 1 - c.utf8Size) else []

theorem restFrom_eq_cut? (t : Text) (n : Nat) : restFrom t n = ((cut? n t).map Prod.snd).getD [] := by
  induction t generalizing n with
  | nil => cases n <;> rfl
  | cons c cs ih =>
    cases n with
    | zero => rfl
    | succ n =>
      rw [restFrom, cut?]
      split
      · rw [ih]
        cases cut? (n + 1 - c.utf8Size) cs <;> rfl
      · rfl

/-- What stands before byte offset `n`; the whole text where it has no cut. -/
def uptoOrAll (t : Text) (n : Nat) : Text :=
  match cut? n t with
  | some (before, _) => before
  | none => t

/-- An offset at which a character of the text starts, or its end. -/
def IsBoundary (t : Text) (n : Nat) : Prop := ∃ a b, t = a ++ b ∧ byteLength a = n

theorem isBoundary_iff_cut? {t : Text} {n : Nat} : IsBoundary t n ↔ (cut? n t).isSome := by
  constructor
  · rintro ⟨a, b, h⟩
    simp [cut?_eq_some_iff.2 h]
  · intro h
    obtain ⟨⟨a, b⟩, hab⟩ := Option.isSome_iff_exists.1 h
    exact ⟨a, b, cut?_eq_some_iff.1 hab⟩

instance (t : Text) (n : Nat) : Decidable (IsBoundary t n) := decidable_of_iff _ isBoundary_iff_cut?.symm

/-- The byte offset of the character with the given index, or the length of the text when there is none. -/
def offsetOfIndex : Text → Nat → Nat
  | _, 0 => 0
  | [], _ + 1 => 0
  | c :: cs, index + 1 => c.utf8Size + offsetOfIndex cs index

theorem offsetOfIndex_eq_byteLength (t : Text) (index : Nat) :
    offsetOfIndex t index = byteLength (t.take index) := by
  induction t generalizing index with
  | nil => cases index <;> simp [offsetOfIndex]
  | cons c cs ih => cases index <;> simp [offsetOfIndex, ih]

theorem isBoundary_offsetOfIndex (t : Text) (index : Nat) : IsBoundary t (offsetOfIndex t index) :=
  ⟨t.take index, t.drop index, (List.take_append_drop index t).symm, (offsetOfIndex_eq_byteLength t index).symm⟩

theorem offsetOfIndex_mono (t : Text) {i j : Nat} (h : i ≤ j) : offsetOfIndex t i ≤ offsetOfIndex t j := by
  induction t generalizing i j with
  | nil => cases i <;> cases j <;> simp [offsetOfIndex]
  | cons c cs ih =>
    cases i with
    | zero => simp [offsetOfIndex]
    | succ i =>
      obtain ⟨j, rfl⟩ : ∃ k, j = k + 1 := ⟨j - 1, by omega⟩
      have := ih (i := i) (j := j) (by omega)
      simp only [offsetOfIndex]
      omega

/-- The text split behind every line feed, which stays with the line it ends. -/
def linesWithBreaks : Text → List Text
  | [] => []
  | c :: cs =>
    if c = '\n' then [c] :: linesWithBreaks cs
    else
      match linesWithBreaks cs with
      | [] => [[c]]
      | line :: lines => (c :: line) :: lines

theorem flatten_linesWithBreaks (t : Text) : (linesWithBreaks t).flatten = t := by
  induction t with
  | nil => rfl
  | cons c cs ih =>
    rw [linesWithBreaks]
    split
    · simp [ih]
    · split <;> simp_all

/-- What stands behind the last line feed. -/
def lastLine (t : Text) : Text := (t.reverse.takeWhile (· ≠ '\n')).reverse

/-- The text up to its first line feed, without it. -/
def firstLine (t : Text) : Text := t.takeWhile (· ≠ '\n')

/-- What is left of the text behind `start`, when the text begins with it. -/
def dropStart? : Text → Text → Option Text
  | [], t => some t
  | _ :: _, [] => none
  | c :: cs, d :: ds => if c = d then dropStart? cs ds else none

theorem dropStart?_eq_some_iff {start t rest : Text} : dropStart? start t = some rest ↔ t = start ++ rest := by
  induction start generalizing t with
  | nil => simp [dropStart?, eq_comm]
  | cons c cs ih =>
    cases t with
    | nil => simp [dropStart?]
    | cons d ds => by_cases h : c = d <;> simp [dropStart?, h, ih, eq_comm (a := d)]

end Text

end LocatedYaml
