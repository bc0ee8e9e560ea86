/-!
# Characters of YAML

The classes of characters that decide where tokens end. The character NUL stands for the end of the text.
-/

namespace LocatedYaml.Token

/-- What is read behind the last character. -/
def endMark : Char := '\x00'

def isBlank (c : Char) : Bool := c == ' ' || c == '\t'

def isBreak (c : Char) : Bool := c == '\n' || c == '\r'

/-- A line break or the end of the text. -/
def isLineEnd (c : Char) : Bool := isBreak c || c == endMark

/-- A blank, a line break or the end of the text. -/
def isGap (c : Char) : Bool := isBlank c || isLineEnd c

/-- The indicators of flow collections. -/
def isFlow (c : Char) : Bool := c == ',' || c == '[' || c == ']' || c == '{' || c == '}'

/-- The characters of names in directives and tag handles. -/
def isWordChar (c : Char) : Bool := c.isAlphanum || c == '_' || c == '-'

/-- The characters of anchor names; the byte order mark is not one of them. -/
def isAnchorChar (c : Char) : Bool := !isGap c && !isFlow c && c != '\ufeff'

/-- The characters of URIs. -/
def isUriChar (c : Char) : Bool := c.isAlphanum || "-#;/?:@&=+$,_.!~*'()[]%".toList.contains c

/-- The characters of tag suffixes. -/
def isTagChar (c : Char) : Bool := isUriChar c && !isFlow c && c != '!'

end LocatedYaml.Token
