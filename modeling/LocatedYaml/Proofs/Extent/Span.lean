import LocatedYaml.Extent.Basic
import LocatedYaml.Proofs.Text.Lines

/-!
# Extents as spans of the source

A span of a text runs from one boundary to the same or a later one.  From a boundary on, every extent is a span of the
source: each scanner takes a prefix of what stands behind its start (`scalarEnd_isSpan`, `aliasEnd_isSpan`,
`flowEnd?_isSpan`).  The header of a block scalar is found on a boundary not behind its content
(`blockScalarStart_isSpan`).
-/

namespace LocatedYaml

namespace Text

/-- The text has a stretch from `start` to `stop`. -/
def IsSpan (t : Text) (start stop : Nat) : Prop :=
  ∃ before inside after, t = before ++ (inside ++ after) ∧ byteLength before = start ∧
    start + byteLength inside = stop

variable {t : Text} {start stop : Nat}

theorem IsSpan.le (h : IsSpan t start stop) : start ≤ stop := by
  obtain ⟨before, inside, after, -, -, hstop⟩ := h
  omega

theorem IsSpan.stop_le (h : IsSpan t start stop) : stop ≤ byteLength t := by
  obtain ⟨before, inside, after, rfl, hstart, hstop⟩ := h
  simp only [byteLength_append]
  omega

theorem IsSpan.isBoundary_start (h : IsSpan t start stop) : IsBoundary t start := by
  obtain ⟨before, inside, after, ht, hstart, -⟩ := h
  exact ⟨before, inside ++ after, ht, hstart⟩

theorem IsSpan.isBoundary_stop (h : IsSpan t start stop) : IsBoundary t stop := by
  obtain ⟨before, inside, after, ht, hstart, hstop⟩ := h
  exact ⟨before ++ inside, after, by rw [ht, List.append_assoc], by rw [byteLength_append, hstart, hstop]⟩

theorem IsBoundary.le (h : IsBoundary t start) : start ≤ byteLength t := by
  obtain ⟨before, after, rfl, hstart⟩ := h
  simp only [byteLength_append]
  omega

theorem IsBoundary.eq_append_restFrom (h : IsBoundary t start) :
    ∃ before, t = before ++ restFrom t start ∧ byteLength before = start := by
  obtain ⟨before, after, rfl, rfl⟩ := h
  exact ⟨before, by rw [restFrom_append], rfl⟩

/-- A prefix of what stands behind a boundary is a span. -/
theorem IsBoundary.isSpan_add (h : IsBoundary t start) {inside : Text} (hinside : inside <+: restFrom t start) :
    IsSpan t start (start + byteLength inside) := by
  obtain ⟨before, ht, hstart⟩ := h.eq_append_restFrom
  obtain ⟨after, hafter⟩ := hinside
  exact ⟨before, inside, after, by rw [hafter, ← ht], hstart, rfl⟩

theorem IsBoundary.isSpan_self (h : IsBoundary t start) : IsSpan t start start :=
  h.isSpan_add List.nil_prefix

theorem IsBoundary.isSpan_byteLength (h : IsBoundary t start) : IsSpan t start (byteLength t) := by
  obtain ⟨before, ht, hstart⟩ := h.eq_append_restFrom
  have hlength : byteLength t = start + byteLength (restFrom t start) := by
    conv => lhs; rw [ht]
    rw [byteLength_append, hstart]
  rw [hlength]
  exact h.isSpan_add (List.prefix_refl _)

/-- Between two boundaries stands a piece of the text. -/
theorem IsBoundary.isSpan (h : IsBoundary t start) (hstop : IsBoundary t stop) (hle : start ≤ stop) :
    IsSpan t start stop := by
  obtain ⟨before, after, rfl, rfl⟩ := h
  obtain ⟨upto, rest, hsplit, rfl⟩ := hstop
  rcases List.append_eq_append_iff.1 hsplit with ⟨inside, rfl, rfl⟩ | ⟨inside, rfl, rfl⟩
  · exact ⟨before, inside, rest, rfl, rfl, (byteLength_append ..).symm⟩
  · rw [byteLength_append] at hle
    obtain rfl : inside = [] := byteLength_eq_zero (by omega)
    exact ⟨upto, [], after, by simp, by simp, by simp⟩

/-- One byte behind a boundary is a boundary again when the character there has no other byte. -/
theorem IsBoundary.succ_iff {c : Char} {rest : Text} (h : IsBoundary t start) (hrest : restFrom t start = c :: rest) :
    IsBoundary t (start + 1) ↔ c.utf8Size = 1 := by
  constructor
  · intro hstop
    obtain ⟨before, inside, after, rfl, rfl, hlength⟩ := h.isSpan hstop (Nat.le_succ start)
    rw [restFrom_append] at hrest
    cases inside with
    | nil => simp at hlength
    | cons d inside =>
      obtain ⟨rfl, -⟩ := List.cons.inj hrest
      have hpos := d.utf8Size_pos
      rw [byteLength_cons] at hlength
      omega
  · intro hc
    have hprefix : [c] <+: restFrom t start := by
      rw [hrest]
      exact (List.prefix_cons_inj _).2 List.nil_prefix
    have hspan := h.isSpan_add hprefix
    rw [byteLength_cons, byteLength_nil, hc] at hspan
    exact hspan.isBoundary_stop

end Text

namespace Extent

open Text

variable {source : Text} {start : Nat}

/-! ### Plain scalars -/

/-- The scanner answers what it had matched before, or a prefix of the text. -/
private theorem matchedBytes_cases (matched taken : Nat) (rest wanted : Text) :
    matchedBytes matched taken rest wanted = matched ∨
      ∃ inside, inside <+: rest ∧ matchedBytes matched taken rest wanted = taken + byteLength inside := by
  fun_induction matchedBytes matched taken rest wanted with
  | case1 | case2 | case5 => exact Or.inl rfl
  | case3 matched taken cs c ws taken' ih =>
    right
    rcases ih with ih | ⟨inside, hinside, ih⟩
    · exact ⟨[c], by simp, by simpa [taken'] using ih⟩
    · exact ⟨c :: inside, by simpa using hinside, by rw [ih, byteLength_cons]; omega⟩
  | case4 matched taken c cs w ws taken' _ _ ih =>
    rcases ih with ih | ⟨inside, hinside, ih⟩
    · exact Or.inl ih
    · exact Or.inr ⟨c :: inside, by simpa using hinside, by rw [ih, byteLength_cons]; omega⟩

theorem plainEnd_isSpan (h : IsBoundary source start) (value : Text) :
    IsSpan source start (plainEnd source start value) := by
  rw [plainEnd]
  rcases matchedBytes_cases 0 0 (source.restFrom start) value.visible with hnone | ⟨inside, hinside, hsome⟩
  · rw [hnone]
    exact h.isSpan_self
  · rw [hsome, Nat.zero_add]
    exact h.isSpan_add hinside

/-! ### Quoted scalars -/

private theorem doubleQuotedBytes?_prefix {body : Text} {n : Nat} (h : doubleQuotedBytes? body = some n) :
    ∃ inside, inside <+: body ∧ n = byteLength inside := by
  fun_induction doubleQuotedBytes? body generalizing n with
  | case1 | case3 => cases h
  | case2 cs => exact ⟨['"'], by simp, by cases h; rfl⟩
  | case4 c cs ih =>
    obtain ⟨m, hm, rfl⟩ := Option.map_eq_some_iff.1 h
    obtain ⟨inside, hinside, rfl⟩ := ih hm
    have hbackslash : ('\\' : Char).utf8Size = 1 := rfl
    exact ⟨'\\' :: c :: inside, by simpa using hinside, by simp only [byteLength_cons, hbackslash]; omega⟩
  | case5 c cs _ _ _ ih =>
    obtain ⟨m, hm, rfl⟩ := Option.map_eq_some_iff.1 h
    obtain ⟨inside, hinside, rfl⟩ := ih hm
    exact ⟨c :: inside, by simpa using hinside, rfl⟩

private theorem singleQuotedBytes?_prefix {body : Text} {n : Nat} (h : singleQuotedBytes? body = some n) :
    ∃ inside, inside <+: body ∧ n = byteLength inside := by
  fun_induction singleQuotedBytes? body generalizing n with
  | case1 => cases h
  | case2 cs ih =>
    obtain ⟨m, hm, rfl⟩ := Option.map_eq_some_iff.1 h
    obtain ⟨inside, hinside, rfl⟩ := ih hm
    have hquote : ('\x27' : Char).utf8Size = 1 := rfl
    exact ⟨'\x27' :: '\x27' :: inside, by simpa using hinside, by simp only [byteLength_cons, hquote]; omega⟩
  | case3 cs _ => exact ⟨['\x27'], by simp, by cases h; rfl⟩
  | case4 c cs _ _ ih =>
    obtain ⟨m, hm, rfl⟩ := Option.map_eq_some_iff.1 h
    obtain ⟨inside, hinside, rfl⟩ := ih hm
    exact ⟨c :: inside, by simpa using hinside, rfl⟩

theorem quotedEnd_isSpan {bytes? : Text → Option Nat}
    (hbytes : ∀ body n, bytes? body = some n → ∃ inside, inside <+: body ∧ n = byteLength inside)
    (h : IsBoundary source start) : IsSpan source start (quotedEnd bytes? source start) := by
  unfold quotedEnd
  split
  · exact h.isSpan_byteLength
  · rename_i quote body hrest
    split
    · rename_i n hn
      obtain ⟨inside, hinside, rfl⟩ := hbytes body n hn
      have hquoted : quote :: inside <+: source.restFrom start := by
        rw [hrest]
        exact (List.prefix_cons_inj _).2 hinside
      rw [Nat.add_assoc]
      exact h.isSpan_add hquoted
    · exact h.isSpan_byteLength

/-! ### Block scalars -/

/-- The content ends where it ended before or behind one of the lines. -/
private theorem contentBytes_cases (keep : Bool) (parent : Int) (indent : Option Nat) (done taken : Nat)
    (lines : List Text) :
    contentBytes keep parent indent done taken lines = done ∨
      ∃ inside, inside <+: lines ∧
        contentBytes keep parent indent done taken lines = taken + byteLength inside.flatten := by
  induction lines generalizing indent done taken with
  | nil => exact Or.inl rfl
  | cons line lines ih =>
    -- what the rest of the lines answer, when the content ends at `done'` before them
    have hrest : ∀ indent' done', done' = done ∨ done' = taken + line.byteLength →
        contentBytes keep parent indent' done' (taken + line.byteLength) lines = done ∨
          ∃ inside, inside <+: line :: lines ∧
            contentBytes keep parent indent' done' (taken + line.byteLength) lines =
              taken + byteLength inside.flatten := fun indent' done' hdone => by
      rcases ih indent' done' (taken + line.byteLength) with h | ⟨inside, hinside, h⟩
      · rcases hdone with rfl | rfl
        · exact Or.inl h
        · exact Or.inr ⟨[line], by simp, by simpa using h⟩
      · refine Or.inr ⟨line :: inside, by simpa using hinside, ?_⟩
        rw [h, List.flatten_cons, byteLength_append]
        omega
    rw [contentBytes]
    split
    · exact hrest _ _ (by cases keep <;> simp)
    · split
      · exact hrest _ _ (Or.inr rfl)
      · exact Or.inl rfl

theorem blockScalarEnd_isSpan (h : IsBoundary source start) : IsSpan source start (blockScalarEnd source start) := by
  unfold blockScalarEnd
  have hsplit := List.takeWhile_append_dropWhile (p := (· ≠ '\n')) (l := source.restFrom start)
  have hhead := List.head?_dropWhile_not (· ≠ '\n') (source.restFrom start)
  dsimp only
  split
  · exact h.isSpan_byteLength
  · rename_i c content hdrop
    rw [hdrop, List.head?_cons] at hhead
    obtain rfl : c = '\n' := by simpa using hhead
    have hnewline : ('\n' : Char).utf8Size = 1 := rfl
    obtain ⟨inside, hinside, hbytes⟩ : ∃ inside, inside <+: linesWithBreaks content ∧
        contentBytes _ (parentIndent source start) none 0 0 (linesWithBreaks content) =
          byteLength inside.flatten := by
      rcases contentBytes_cases _ (parentIndent source start) none 0 0 (linesWithBreaks content) with hnone | hsome
      · exact ⟨[], List.nil_prefix, hnone⟩
      · simpa using hsome
    rw [hbytes, firstLine, Nat.add_assoc, Nat.add_assoc]
    have hend : IsSpan source start (start + byteLength
        ((source.restFrom start).takeWhile (· ≠ '\n') ++ '\n' :: inside.flatten)) := by
      refine h.isSpan_add ?_
      conv => rhs; rw [← hsplit, hdrop]
      obtain ⟨after, hafter⟩ := hinside
      refine (List.prefix_append_right_inj _).2 ((List.prefix_cons_inj _).2 ⟨after.flatten, ?_⟩)
      rw [← List.flatten_append, hafter, flatten_linesWithBreaks]
    rwa [byteLength_append, byteLength_cons, hnewline] at hend

theorem scalarEnd_isSpan (h : IsBoundary source start) (style : Scalar.Style) (value : Text) :
    IsSpan source start (scalarEnd source start style value) := by
  cases style with
  | plain => exact plainEnd_isSpan h value
  | singleQuoted => exact quotedEnd_isSpan (fun _ _ => singleQuotedBytes?_prefix) h
  | doubleQuoted => exact quotedEnd_isSpan (fun _ _ => doubleQuotedBytes?_prefix) h
  | literal | folded => exact blockScalarEnd_isSpan h

private theorem findHeader?_eq_some {offset n : Nat} {mayStart : Bool} {line : Text}
    (h : findHeader? offset mayStart line = some n) :
    ∃ before, before <+: line ∧ n = offset + byteLength before := by
  induction line generalizing offset mayStart with
  | nil => cases h
  | cons c cs ih =>
    rw [findHeader?] at h
    split at h
    · obtain rfl := Option.some.inj h
      exact ⟨[], List.nil_prefix, rfl⟩
    · obtain ⟨before, hbefore, rfl⟩ := ih h
      exact ⟨c :: before, by simpa using hbefore, by rw [byteLength_cons]; omega⟩

/-- The header of a block scalar stands before its content or is found instead of it. -/
theorem blockScalarStart_isSpan {marker : Nat} (h : IsBoundary source marker) :
    IsSpan source (blockScalarStart source marker) marker := by
  unfold blockScalarStart
  split
  · exact h.isSpan_self
  · obtain ⟨upto, rest, rfl, rfl⟩ := h
    simp only [uptoOrAll_append]
    cases hfind : findHeader? (upto.trimEnd.byteLength - upto.trimEnd.lastLine.byteLength) true
        upto.trimEnd.lastLine with
    | none => exact IsBoundary.isSpan_self ⟨upto, rest, rfl, rfl⟩
    | some n =>
      obtain ⟨before, ⟨after, hline⟩, rfl⟩ := findHeader?_eq_some hfind
      obtain ⟨spaces, hspaces⟩ := trimEnd_isPrefix upto
      obtain ⟨lines, hlines⟩ := lastLine_suffix upto.trimEnd
      have hlength := congrArg byteLength hlines
      have hupto := congrArg byteLength hspaces
      have hlast := congrArg byteLength hline
      rw [byteLength_append] at hlength hupto hlast
      rw [Option.getD_some]
      refine ⟨lines ++ before, after ++ spaces, rest, ?_, ?_, ?_⟩
      · conv => lhs; rw [← hspaces, ← hlines, ← hline]
        simp only [List.append_assoc]
      · rw [byteLength_append]
        omega
      · rw [byteLength_append]
        omega

/-! ### Aliases and flow collections -/

theorem aliasEnd_isSpan (h : IsBoundary source start) : IsSpan source start (aliasEnd source start) := by
  unfold aliasEnd
  split
  · exact h.isSpan_self
  · rename_i indicator rest hrest
    have hname : indicator :: rest.takeWhile (!endsName ·) <+: source.restFrom start := by
      rw [hrest]
      exact (List.prefix_cons_inj _).2 (List.takeWhile_prefix _)
    rw [Nat.add_assoc]
    exact h.isSpan_add hname

theorem flowEnd?_isSpan {close stop : Nat} {bracket : Char} (h : IsBoundary source close)
    (hstop : flowEnd? source close bracket = some stop) : IsSpan source close stop := by
  unfold flowEnd? at hstop
  split at hstop
  · rename_i hhead
    obtain rfl := Option.some.inj hstop
    obtain ⟨rest, hrest⟩ := List.head?_eq_some_iff.1 hhead
    have hbracket : [bracket] <+: source.restFrom close := by
      rw [hrest]
      exact (List.prefix_cons_inj _).2 List.nil_prefix
    exact h.isSpan_add hbracket
  · cases hstop

end Extent

end LocatedYaml
