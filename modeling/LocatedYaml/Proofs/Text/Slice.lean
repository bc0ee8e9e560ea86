import LocatedYaml.Proofs.Text.Lines
import LocatedYaml.Text.Slice

/-!
# Bytes and line feeds by offsets

The byte at the start of a character tells which character of a single byte stands there, if one does
(`exists_byteAt`).  The first and the last line feed of a text are found where cutting it into lines finds them
(`firstBreak?_append_break`, `exists_lastLine`).
-/

namespace LocatedYaml.Text

/-! ### Bytes -/

theorem byteLength_concat (t : Text) (c : Char) : byteLength (t ++ [c]) = byteLength t + c.utf8Size := by
  rw [byteLength_append, byteLength_cons, byteLength_nil, Nat.add_zero]

/-- Behind a line feed the next line starts. -/
theorem byteLength_append_break (before line : Text) :
    byteLength (before ++ (line ++ ['\n'])) = byteLength before + byteLength line + 1 := by
  rw [byteLength_append, byteLength_concat, ← Nat.add_assoc]
  rfl

/-- The first byte of a character tells whether it is a given one of a single byte. -/
theorem exists_head?_utf8EncodeChar (c : Char) : ∃ byte, (String.utf8EncodeChar c).head? = some byte ∧
    ∀ d : Char, d.toNat < 128 → (byte = d.toUInt8 ↔ c = d) := by
  have hchar : ∀ d : Char, c = d ↔ c.toNat = d.toNat := fun d => Char.toNat_inj.symm
  have hbyte : ∀ d : Char, d.toUInt8.toNat = d.toNat % 256 := fun d => rfl
  have hval : c.val.toNat = c.toNat := rfl
  unfold String.utf8EncodeChar
  simp only [hval]
  split
  · refine ⟨_, rfl, fun d hd => ?_⟩
    rw [hchar, ← UInt8.toNat_inj, hbyte, UInt8.toNat_ofNat']
    omega
  · rename_i hwide
    -- the first byte of a longer character is no character by itself
    have hlead : ∀ n, 128 ≤ n % 256 → ∀ d : Char, d.toNat < 128 → (UInt8.ofNat n = d.toUInt8 ↔ c = d) := by
      intro n hn d hd
      rw [hchar, ← UInt8.toNat_inj, hbyte, UInt8.toNat_ofNat']
      omega
    split
    · exact ⟨_, rfl, hlead _ (by omega)⟩
    · split
      · exact ⟨_, rfl, hlead _ (by omega)⟩
      · exact ⟨_, rfl, hlead _ (by omega)⟩

theorem bytes_append (a b : Text) : bytes (a ++ b) = bytes a ++ bytes b := List.flatMap_append

/-- The byte at the start of a character. -/
theorem exists_byteAt (a : Text) (c : Char) (cs : Text) :
    ∃ byte, byteAt (bytes (a ++ c :: cs)) (byteLength a) = .ok byte ∧
      ∀ d : Char, d.toNat < 128 → (byte = d.toUInt8 ↔ c = d) := by
  obtain ⟨byte, hbyte, hchar⟩ := exists_head?_utf8EncodeChar c
  refine ⟨byte, ?_, hchar⟩
  have hget : (bytes (a ++ c :: cs))[byteLength a]? = some byte := by
    rw [bytes_append, ← length_bytes a, List.getElem?_append_right (Nat.le_refl _), Nat.sub_self,
      ← List.head?_eq_getElem?, bytes, List.flatMap_cons, List.head?_append, hbyte, Option.some_or]
  rw [byteAt, hget]

/-! ### Line feeds -/

variable {line : Text}

theorem firstBreak?_of_not_mem (h : '\n' ∉ line) : firstBreak? line = none := by
  induction line with
  | nil => rfl
  | cons c cs ih =>
    obtain ⟨hc, hcs⟩ := not_or.1 (mt List.mem_cons.2 h)
    rw [firstBreak?, if_neg (Ne.symm hc), ih hcs, Option.map_none]

theorem firstBreak?_append_break (h : '\n' ∉ line) (rest : Text) :
    firstBreak? (line ++ '\n' :: rest) = some (byteLength line) := by
  induction line with
  | nil => rfl
  | cons c cs ih =>
    obtain ⟨hc, hcs⟩ := not_or.1 (mt List.mem_cons.2 h)
    rw [List.cons_append, firstBreak?, if_neg (Ne.symm hc), ih hcs, Option.map_some, byteLength_cons]

theorem lastBreak?_of_not_mem (h : '\n' ∉ line) : lastBreak? line = none := by
  induction line with
  | nil => rfl
  | cons c cs ih =>
    obtain ⟨hc, hcs⟩ := not_or.1 (mt List.mem_cons.2 h)
    rw [lastBreak?, ih hcs, if_neg (Ne.symm hc)]

theorem lastBreak?_append_break (h : '\n' ∉ line) (before : Text) :
    lastBreak? (before ++ '\n' :: line) = some (byteLength before) := by
  induction before with
  | nil => rw [List.nil_append, lastBreak?, lastBreak?_of_not_mem h, if_pos rfl, byteLength_nil]
  | cons c cs ih => rw [List.cons_append, lastBreak?, ih, byteLength_cons]

/-- The last line is what stands from its start on. -/
theorem exists_lastLine (t : Text) : ∃ lines, t = lines ++ lastLine t ∧ lastLineStart t = byteLength lines := by
  by_cases h : '\n' ∈ t
  · obtain ⟨line, before, hreverse, hline⟩ := List.eq_append_cons_of_mem (List.mem_reverse.2 h)
    have hbreak : '\n' ∉ line.reverse := mt List.mem_reverse.1 hline
    have ht : t = before.reverse ++ '\n' :: line.reverse := by
      rw [← List.reverse_reverse t, hreverse]
      simp
    have hlast : lastLine t = line.reverse := by
      have hbefore : lastLine (before.reverse ++ ['\n']) = [] := by simp [lastLine]
      rw [ht, ← List.singleton_append, ← List.append_assoc, lastLine_append hbreak, hbefore, List.nil_append]
    refine ⟨before.reverse ++ ['\n'], ?_, ?_⟩
    · rw [hlast, List.append_assoc, List.singleton_append, ← ht]
    · rw [lastLineStart, ht, lastBreak?_append_break hbreak, byteLength_append]
      rfl
  · have hlast : lastLine t = t := by
      have := lastLine_append h []
      rwa [List.nil_append] at this
    exact ⟨[], by rw [hlast, List.nil_append], by rw [lastLineStart, lastBreak?_of_not_mem h, byteLength_nil]⟩

end LocatedYaml.Text
