import LocatedYaml.Text.Basic

/-!
# Extent of quoted scalars

A quoted scalar ends behind its closing quote, or with the source when there is none. In double quotes a backslash
takes the next character with it; in single quotes a doubled quote stands for a quote.
-/

namespace LocatedYaml.Extent

/-- The bytes up to and with the closing double quote, for a text behind the opening one. -/
def doubleQuotedBytes? : Text → Option Nat
  | [] => none
  | '"' :: _ => some 1
  | ['\\'] => none
  | '\\' :: c :: cs => (doubleQuotedBytes? cs).map (1 + c.utf8Size + ·)
  | c :: cs => (doubleQuotedBytes? cs).map (c.utf8Size + ·)

/-- The bytes up to and with the closing single quote, for a text behind the opening one. -/
def singleQuotedBytes? : Text → Option Nat
  | [] => none
  | '\x27' :: '\x27' :: cs => (singleQuotedBytes? cs).map (2 + ·)
  | '\x27' :: _ => some 1
  | c :: cs => (singleQuotedBytes? cs).map (c.utf8Size + ·)

/-- The end of a scalar whose opening quote is at `start`. -/
def quotedEnd (bytes? : Text → Option Nat) (source : Text) (start : Nat) : Nat :=
  match source.restFrom start with
  | [] => source.byteLength
  | quote :: body =>
    match bytes? body with
    | some n => start + quote.utf8Size + n
    | none => source.byteLength

def doubleQuotedEnd : Text → Nat → Nat := quotedEnd doubleQuotedBytes?

def singleQuotedEnd : Text → Nat → Nat := quotedEnd singleQuotedBytes?

end LocatedYaml.Extent
