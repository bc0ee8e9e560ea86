import LocatedYaml.Text.Basic

/-!
# Pieces of a text

A piece of a text is taken by two byte offsets, and a byte of it by one. Both can fail: a piece ends where it
starts or behind that, at boundaries of the text, and a byte is read before the end.

* `slice_eq_ok_iff`: the piece exists exactly when the text splits into it and what stands before and behind it.
-/

namespace LocatedYaml

/-- Why a part of a text cannot be taken. -/
inductive AccessFault
  | outOfBounds
  | splitsCharacter
deriving Repr, DecidableEq

namespace Text

variable {t inside before after : Text} {start stop : Nat}

/-- The piece from byte offset `start` to byte offset `stop`. -/
def slice (t : Text) (start stop : Nat) : Except AccessFault Text :=
  if start ≤ stop ∧ stop ≤ byteLength t then
    match cut? start t with
    | none => .error .splitsCharacter
    | some (_, rest) =>
      match cut? (stop - start) rest with
      | none => .error .splitsCharacter
      | some (inside, _) => .ok inside
  else .error .outOfBounds

theorem slice_eq_ok_iff : slice t start stop = .ok inside ↔
    ∃ before after, t = before ++ (inside ++ after) ∧ byteLength before = start ∧
      start + byteLength inside = stop := by
  constructor
  · intro h
    unfold slice at h
    split at h
    · rename_i hbounds
      split at h
      · cases h
      · rename_i before rest hstart
        obtain ⟨rfl, hbefore⟩ := eq_append_of_cut? hstart
        split at h
        · cases h
        · rename_i inside' after hstop
          obtain ⟨rfl, hinside⟩ := eq_append_of_cut? hstop
          obtain rfl := Except.ok.inj h
          exact ⟨before, after, rfl, hbefore, by omega⟩
    · cases h
  · rintro ⟨before, after, rfl, rfl, rfl⟩
    have hlength : byteLength before + byteLength inside - byteLength before = byteLength inside := by omega
    unfold slice
    rw [if_pos (by simp only [byteLength_append]; omega), cut?_append]
    simp only [hlength, cut?_append]

theorem slice_append (before inside after : Text) :
    slice (before ++ (inside ++ after)) (byteLength before) (byteLength before + byteLength inside) = .ok inside :=
  slice_eq_ok_iff.2 ⟨before, after, rfl, rfl, rfl⟩

theorem slice_prefix (before after : Text) : slice (before ++ after) 0 (byteLength before) = .ok before :=
  slice_eq_ok_iff.2 ⟨[], after, rfl, rfl, Nat.zero_add _⟩

theorem slice_suffix (before after : Text) :
    slice (before ++ after) (byteLength before) (byteLength (before ++ after)) = .ok after :=
  slice_eq_ok_iff.2 ⟨before, [], by rw [List.append_nil], rfl, (byteLength_append before after).symm⟩

example : slice ['a', 'é'] 0 2 = .error .splitsCharacter := rfl

example : slice ['a', 'é'] 1 4 = .error .outOfBounds := rfl

/-! ### Bytes -/

/-- The bytes of the UTF-8 form. -/
def bytes (t : Text) : List UInt8 := t.flatMap String.utf8EncodeChar

@[simp] theorem length_bytes (t : Text) : (bytes t).length = byteLength t := by
  induction t with
  | nil => rfl
  | cons c cs ih =>
    rw [bytes, List.flatMap_cons, List.length_append, String.length_utf8EncodeChar, ← bytes, ih, byteLength]

/-- The byte at an index. -/
def byteAt (bytes : List UInt8) (index : Nat) : Except AccessFault UInt8 :=
  match bytes[index]? with
  | some byte => .ok byte
  | none => .error .outOfBounds

/-! ### Line feeds -/

/-- The byte offset of the first line feed. -/
def firstBreak? : Text → Option Nat
  | [] => none
  | c :: cs => if c = '\n' then some 0 else (firstBreak? cs).map (c.utf8Size + ·)

/-- The byte offset of the last line feed. -/
def lastBreak? : Text → Option Nat
  | [] => none
  | c :: cs =>
    match lastBreak? cs with
    | some n => some (c.utf8Size + n)
    | none => if c = '\n' then some 0 else none

/-- The byte offset at which the last line starts. -/
def lastLineStart (t : Text) : Nat :=
  match lastBreak? t with
  | some n => n + 1
  | none => 0

end Text

end LocatedYaml
