import LocatedYaml.Text.Space
import Mathlib.Data.List.DropRight
import Mathlib.Data.List.TakeWhile

/-!
# Lines of a text

What cutting, trimming and splitting into lines do to a text that is put together from parts.  A part without a line
feed goes on with the last line before it (`lastLine_append`), and one with a line feed behind it is a line
(`linesWithBreaks_append_break`).
-/

namespace LocatedYaml.Text

/-! ### Offsets -/

theorem restFrom_append (before after : Text) : restFrom (before ++ after) (byteLength before) = after := by
  rw [restFrom_eq_cut?, cut?_append]
  rfl

theorem uptoOrAll_append (before after : Text) : uptoOrAll (before ++ after) (byteLength before) = before := by
  rw [uptoOrAll, cut?_append]

/-! ### White space at the end -/

theorem trimEnd_eq_nil_iff {t : Text} : t.trimEnd = [] ↔ t.isBlank := by
  simp [trimEnd, isBlank, List.dropWhile_eq_nil_iff]

theorem trimEnd_isPrefix (t : Text) : t.trimEnd <+: t := List.rdropWhile_prefix isSpace t

/-- A character that is not white space is kept, with all that stands before it. -/
theorem trimEnd_append_cons {c : Char} (hc : isSpace c = false) (a b : Text) :
    trimEnd (a ++ c :: b) = a ++ c :: trimEnd b := by
  simp only [trimEnd, List.reverse_append, List.reverse_cons, List.append_assoc, List.dropWhile_append]
  split
  · rename_i h
    rw [List.isEmpty_iff.1 h]
    simp [hc]
  · simp

theorem trimEnd_append_of_head {c : Char} (hc : isSpace c = false) (a b : Text) :
    trimEnd (a ++ c :: b) = a ++ trimEnd (c :: b) := by
  have := trimEnd_append_cons hc [] b
  rw [trimEnd_append_cons hc, ← List.nil_append (c :: b), this, List.nil_append]

theorem trimEnd_append_of_isBlank {spaces : Text} (h : spaces.isBlank) (t : Text) :
    trimEnd (t ++ spaces) = trimEnd t := by
  have hspaces : ∀ c ∈ spaces.reverse, isSpace c := fun c hc =>
    List.all_eq_true.1 h c (List.mem_reverse.1 hc)
  rw [trimEnd, List.reverse_append, List.dropWhile_append_of_pos hspaces, trimEnd]

theorem head?_trimEnd {t : Text} (h : t.isBlank = false) : t.trimEnd.head? = t.head? := by
  obtain ⟨spaces, hspaces⟩ := trimEnd_isPrefix t
  have hne : t.trimEnd ≠ [] := fun hnil => by simp [trimEnd_eq_nil_iff.1 hnil] at h
  conv => rhs; rw [← hspaces]
  obtain ⟨c, cs, hcons⟩ := List.exists_cons_of_ne_nil hne
  rw [hcons]
  rfl

/-! ### The first and the last line -/

theorem firstLine_append_break {line : Text} (h : '\n' ∉ line) (rest : Text) :
    firstLine (line ++ '\n' :: rest) = line := by
  have hline : ∀ c ∈ line, (c ≠ '\n' : Bool) := fun c hc => decide_eq_true fun heq => h (heq ▸ hc)
  rw [firstLine, List.takeWhile_append_of_pos hline, List.takeWhile_cons_of_neg (by simp), List.append_nil]

theorem dropWhile_append_break {line : Text} (h : '\n' ∉ line) (rest : Text) :
    (line ++ '\n' :: rest).dropWhile (· ≠ '\n') = '\n' :: rest := by
  have hline : ∀ c ∈ line, (c ≠ '\n' : Bool) := fun c hc => decide_eq_true fun heq => h (heq ▸ hc)
  rw [List.dropWhile_append_of_pos hline, List.dropWhile_cons_of_neg (by simp)]

theorem lastLine_suffix (t : Text) : t.lastLine <:+ t := List.rtakeWhile_suffix (· ≠ '\n') t

theorem lastLine_append {line : Text} (h : '\n' ∉ line) (before : Text) :
    lastLine (before ++ line) = lastLine before ++ line := by
  have hline : ∀ c ∈ line.reverse, (c ≠ '\n' : Bool) := fun c hc =>
    decide_eq_true fun heq => h (heq ▸ List.mem_reverse.1 hc)
  rw [lastLine, List.reverse_append, List.takeWhile_append_of_pos hline, List.reverse_append, List.reverse_reverse,
    lastLine]

theorem ne_of_mem_lastLine {t : Text} {c : Char} (h : c ∈ t.lastLine) : c ≠ '\n' := by
  simpa using List.mem_rtakeWhile_imp (p := (· ≠ '\n')) h

/-! ### All lines -/

/-- Every text is one line, or a line with its line feed and a text behind it. -/
@[elab_as_elim]
theorem lines_induction {motive : Text → Prop} (last : ∀ line, '\n' ∉ line → motive line)
    (line : ∀ line rest, '\n' ∉ line → motive rest → motive (line ++ '\n' :: rest)) (t : Text) : motive t := by
  induction hn : t.length using Nat.strong_induction_on generalizing t with
  | _ n ih =>
    by_cases h : '\n' ∈ t
    · obtain ⟨before, rest, rfl, hbefore⟩ := List.eq_append_cons_of_mem h
      have hlength : rest.length < n := by
        rw [← hn, List.length_append, List.length_cons]
        omega
      exact line before rest hbefore (ih rest.length hlength rest rfl)
    · exact last t h

theorem linesWithBreaks_of_not_mem {line : Text} (h : '\n' ∉ line) (hne : line ≠ []) :
    linesWithBreaks line = [line] := by
  induction line with
  | nil => exact absurd rfl hne
  | cons c cs ih =>
    obtain ⟨hc, hcs⟩ := not_or.1 (mt List.mem_cons.2 h)
    rw [linesWithBreaks, if_neg (Ne.symm hc)]
    by_cases hnil : cs = []
    · rw [hnil]
      rfl
    · rw [ih hcs hnil]

theorem linesWithBreaks_append_break {line : Text} (h : '\n' ∉ line) (rest : Text) :
    linesWithBreaks (line ++ '\n' :: rest) = (line ++ ['\n']) :: linesWithBreaks rest := by
  induction line with
  | nil => rfl
  | cons c cs ih =>
    obtain ⟨hc, hcs⟩ := not_or.1 (mt List.mem_cons.2 h)
    rw [List.cons_append, linesWithBreaks, if_neg (Ne.symm hc), ih hcs]
    rfl

theorem linesWithBreaks_flatMap_append {lines : List Text} (h : ∀ line ∈ lines, '\n' ∉ line) (rest : Text) :
    linesWithBreaks (lines.flatMap (· ++ ['\n']) ++ rest) = lines.map (· ++ ['\n']) ++ linesWithBreaks rest := by
  induction lines with
  | nil => rfl
  | cons line lines ih =>
    obtain ⟨hline, hlines⟩ := List.forall_mem_cons.1 h
    have := linesWithBreaks_append_break hline (lines.flatMap (· ++ ['\n']) ++ rest)
    rw [ih hlines] at this
    simpa using this

/-- The first line of a text goes on behind a beginning without line feeds. -/
theorem exists_linesWithBreaks_append {a : Text} (ha : a ≠ []) (h : '\n' ∉ a) (rest : Text) :
    ∃ rest' lines, rest' <+: rest ∧ linesWithBreaks (a ++ rest) = (a ++ rest') :: lines := by
  induction a with
  | nil => exact absurd rfl ha
  | cons c cs ih =>
    obtain ⟨hc, hcs⟩ := not_or.1 (mt List.mem_cons.2 h)
    rw [List.cons_append, linesWithBreaks, if_neg (Ne.symm hc)]
    by_cases hnil : cs = []
    · subst hnil
      cases hlines : linesWithBreaks rest with
      | nil => exact ⟨[], [], List.nil_prefix, by simp [hlines]⟩
      | cons line lines =>
        refine ⟨line, lines, ⟨lines.flatten, ?_⟩, by simp [hlines]⟩
        rw [← List.flatten_cons, ← hlines, flatten_linesWithBreaks]
    · obtain ⟨rest', lines, hrest, hlines⟩ := ih hnil hcs
      exact ⟨rest', lines, hrest, by rw [hlines]; rfl⟩

end LocatedYaml.Text
