import LocatedYaml.Scalar.Numeral
import LocatedYaml.Token.Scanner

/-!
# Anchors, tags and directives

All faults of these tokens are located at `start`, where the token starts.
-/

namespace LocatedYaml.Scanner

/-- The name of an anchor or alias, behind its indicator. -/
def anchorName (start : Mark) : Scan Text := do
  next
  let name ← takeWhile Token.isAnchorChar
  if name.isEmpty then failAt start .anchorName
  return name

/-! ### Tags -/

/-- How many octets a character has whose first octet is `octet`. -/
def octetCount? (octet : Nat) : Option Nat :=
  if octet < 0x80 then some 1
  else if octet / 0x20 = 6 then some 2
  else if octet / 0x10 = 14 then some 3
  else if octet / 0x08 = 30 then some 4
  else none

/-- An octet written as `%` and two hexadecimal digits. -/
def uriOctet (start : Mark) : Scan Nat := do
  let high ← charAt 1
  let low ← charAt 2
  unless (← char) == '%' && Scalar.isHexDigit high && Scalar.isHexDigit low do
    failAt start .uriOctet
  return Scalar.digitValue high * 16 + Scalar.digitValue low

/-- The remaining octets of a character, appended to `code`. -/
def uriTrailing (start : Mark) : Nat → Nat → Scan Nat
  | 0, code => return code
  | n + 1, code => do
    let octet ← uriOctet start
    unless octet / 0x40 = 2 do failAt start .uriTrailingOctet
    move (·.skip 3)
    uriTrailing start n (code * 0x100 + octet)

/-- A character written as escaped octets; its code is the row of the octets as they are. -/
def uriEscape (start : Mark) : Scan Char := do
  let octet ← uriOctet start
  match octetCount? octet with
  | none => failAt start .uriLeadingOctet
  | some count =>
    move (·.skip 3)
    let code ← uriTrailing start (count - 1) octet
    if code.isValidChar then return Char.ofNat code else failAt start .uriCodePoint

/-- One character of a tag, written as itself or escaped. -/
def uriChar (start : Mark) : Scan Char := do
  let c ← char
  if c == '%' then uriEscape start
  else
    next
    return c

/-- The characters of a class, some of them escaped. -/
def uriWhile (p : Char → Bool) (start : Mark) : Nat → Scan Text
  | 0 => return []
  | fuel + 1 => do
    if p (← char) then
      let c ← uriChar start
      return c :: (← uriWhile p start fuel)
    else return []

/-- The characters of a class up to the first other one. -/
def uriText (p : Char → Bool) (start : Mark) : Scan Text := do uriWhile p start ((← get).cursor.size + 1)

/-- A tag handle: `!`, a word, and a second `!` that may be missing except in a directive. -/
def tagHandle (directive : Bool) (start : Mark) : Scan Text := do
  unless (← char) == '!' do failAt start .tagHandle
  next
  let word ← takeWhile Token.isWordChar
  if (← char) == '!' then
    next
    return '!' :: word ++ ['!']
  if directive && !word.isEmpty then failAt start .directiveHandle
  return '!' :: word

/-- A tag of the form `!<…>`. -/
def verbatimTag (start : Mark) : Scan Tag := do
  move (·.skip 2)
  let suffix ← uriText Token.isUriChar start
  unless (← char) == '>' do failAt start .verbatimTagEnd
  next
  return ⟨[], suffix⟩

/-- A tag with a handle. What looks like a handle without a second `!` is the start of the suffix, and `!` alone
is a tag of its own. -/
def shorthandTag (start : Mark) : Scan Tag := do
  let handle ← tagHandle false start
  let rest ← uriText Token.isTagChar start
  if 2 ≤ handle.length ∧ handle.getLast? = some '!' then
    if rest.isEmpty then failAt start .tagSuffix
    return ⟨handle, rest⟩
  let suffix := handle.tail ++ rest
  return if suffix.isEmpty then ⟨[], ['!']⟩ else ⟨['!'], suffix⟩

/-- A tag and the gap behind it. -/
def readTag (start : Mark) : Scan Tag := do
  let tag ← if (← charAt 1) == '<' then verbatimTag start else shorthandTag start
  let c ← char
  unless Token.isGap c || ((← inFlow) && Token.isFlow c) do failAt start .tagEnd
  return tag

/-! ### Directives -/

/-- A number of a version: one to nine digits. -/
def versionNumber (start : Mark) : Scan Unit := do
  let digits ← takeWhile Scalar.isDecimalDigit
  if 9 < digits.length then failAt start .versionTooLong
  if digits.isEmpty then failAt start .versionNumber

/-- What follows the name `YAML`: two numbers with a point between them. -/
def versionDirective (start : Mark) : Scan TokenKind := do
  move (·.skipWhile Token.isBlank)
  versionNumber start
  unless (← char) == '.' do failAt start .versionDot
  next
  versionNumber start
  return .versionDirective

/-- What follows the name `TAG`: a handle and the text that it stands for. -/
def tagDirective (start : Mark) : Scan TokenKind := do
  move (·.skipWhile Token.isBlank)
  let handle ← tagHandle true start
  move (·.skipWhile Token.isBlank)
  let c ← char
  unless c == '!' || Token.isTagChar c do failAt start .tagExpansion
  let first ← uriChar start
  let rest ← uriText Token.isUriChar start
  unless Token.isGap (← char) do failAt start .tagDirectiveEnd
  return .tagDirective handle (first :: rest)

/-- The name of a directive. -/
def directiveName : Scan Text := do
  let start ← mark
  let name ← takeWhile Token.isWordChar
  if name.isEmpty then failAt start .directiveName
  unless Token.isGap (← char) do failAt start .directiveNameEnd
  return name

/-- A directive with its line. One that is not known declares an empty handle. -/
def readDirective (start : Mark) : Scan TokenKind := do
  next
  let name ← directiveName
  let kind ←
    if name = "YAML".toList then versionDirective start
    else if name = "TAG".toList then tagDirective start
    else do
      move Cursor.skipLine
      pure (.tagDirective [] [])
  let _ ← skipToLineEnd true
  unless Token.isLineEnd (← char) do failAt start .directiveEnd
  if Token.isBreak (← char) then next
  return kind

end LocatedYaml.Scanner
