import LocatedYaml.Event.Basic

/-!
# Faults

What can be wrong with a text that is not YAML, and the wording of each fault.
-/

namespace LocatedYaml

inductive Fault where
  -- keys and values
  | simpleKeyExpected
  | colonExpected
  | keyNotAllowed
  | valueNotAllowed
  | valueNeedsSpace
  | misplacedColon
  -- white space and indentation
  | commentNotSeparated
  | tabIndentation
  | tabInKey
  | spaceExpected
  | invalidIndentation
  | contentAfterDocumentEnd
  | unexpectedCharacter (c : Char)
  -- collections
  | flowTooDeep
  | entryInFlow
  | entryNotAllowed
  | entryNeedsSpace
  | anchorIndentation
  -- directives
  | directiveName
  | directiveNameEnd
  | versionNumber
  | versionDot
  | versionTooLong
  | directiveEnd
  | directiveHandle
  | tagExpansion
  | tagDirectiveEnd
  -- anchors and tags
  | anchorName
  | tagHandle
  | tagSuffix
  | tagEnd
  | verbatimTagEnd
  | uriOctet
  | uriLeadingOctet
  | uriTrailingOctet
  | uriCodePoint
  -- scalars
  | plainIndentation
  | plainDash
  | plainTab
  | quotedDocumentMarker
  | quotedUnterminated
  | quotedIndentation
  | quotedTab
  | quotedTrailing
  | escapeUnknown
  | escapeDigits
  | escapeCodePoint
  | blockIndentZero
  | blockHeaderEnd
  | blockTab
  | blockIndentation
  -- the order of tokens
  | documentStartExpected
  | duplicateVersion
  | directiveBeforeDocumentEnd
  | unknownAnchor
  | undeclaredHandle
  | nodeExpected
  | blockKeyExpected
  | blockEntryExpected
  | flowSequenceSeparator
  | flowMappingSeparator
  | unexpectedEnd
  deriving DecidableEq, Repr

namespace Fault

def info : Fault → String
  | .simpleKeyExpected => "simple key expected"
  | .colonExpected => "simple key expect ':'"
  | .keyNotAllowed => "mapping keys are not allowed in this context"
  | .valueNotAllowed => "mapping values are not allowed in this context"
  | .valueNeedsSpace => "':' must be followed by a valid YAML whitespace"
  | .misplacedColon => "illegal placement of ':' indicator"
  | .commentNotSeparated => "comments must be separated from other tokens by whitespace"
  | .tabIndentation => "tabs disallowed within this context (block indentation)"
  | .tabInKey => "tabs disallowed in this context"
  | .spaceExpected => "expected whitespace"
  | .invalidIndentation => "invalid indentation"
  | .contentAfterDocumentEnd => "invalid content after document end marker"
  | .unexpectedCharacter c => "unexpected character: `" ++ String.singleton c ++ "'"
  | .flowTooDeep => "recursion limit exceeded"
  | .entryInFlow => "\"-\" is only valid inside a block"
  | .entryNotAllowed => "block sequence entries are not allowed in this context"
  | .entryNeedsSpace => "'-' must be followed by a valid YAML whitespace"
  | .anchorIndentation => "invalid indentation for anchor"
  | .directiveName => "while scanning a directive, could not find expected directive name"
  | .directiveNameEnd => "while scanning a directive, found unexpected non-alphabetical character"
  | .versionNumber => "while scanning a YAML directive, did not find expected version number"
  | .versionDot => "while scanning a YAML directive, did not find expected digit or '.' character"
  | .versionTooLong => "while scanning a YAML directive, found extremely long version number"
  | .directiveEnd => "while scanning a directive, did not find expected comment or line break"
  | .directiveHandle => "while parsing a tag directive, did not find expected '!'"
  | .tagExpansion => "invalid global tag character"
  | .tagDirectiveEnd => "while scanning TAG, did not find expected whitespace or line break"
  | .anchorName =>
    "while scanning an anchor or alias, did not find expected alphabetic or numeric character"
  | .tagHandle => "while scanning a tag, did not find expected '!'"
  | .tagSuffix => "while parsing a tag, did not find expected tag URI"
  | .tagEnd => "while scanning a tag, did not find expected whitespace or line break"
  | .verbatimTagEnd => "while scanning a verbatim tag, did not find the expected '>'"
  | .uriOctet => "while parsing a tag, did not find URI escaped octet"
  | .uriLeadingOctet => "while parsing a tag, found an incorrect leading UTF-8 octet"
  | .uriTrailingOctet => "while parsing a tag, found an incorrect trailing UTF-8 octet"
  | .uriCodePoint => "while parsing a tag, found an invalid UTF-8 codepoint"
  | .plainIndentation => "invalid indentation in flow construct"
  | .plainDash => "plain scalar cannot start with '-' followed by ,[]\x7b\x7d"
  | .plainTab => "while scanning a plain scalar, found a tab"
  | .quotedDocumentMarker => "while scanning a quoted scalar, found unexpected document indicator"
  | .quotedUnterminated => "while scanning a quoted scalar, found unexpected end of stream"
  | .quotedIndentation => "invalid indentation in quoted scalar"
  | .quotedTab => "tab cannot be used as indentation"
  | .quotedTrailing => "invalid trailing content after double-quoted scalar"
  | .escapeUnknown => "while parsing a quoted scalar, found unknown escape character"
  | .escapeDigits => "while parsing a quoted scalar, did not find expected hexadecimal number"
  | .escapeCodePoint => "while parsing a quoted scalar, found invalid Unicode character escape code"
  | .blockIndentZero => "while scanning a block scalar, found an indentation indicator equal to 0"
  | .blockHeaderEnd => "while scanning a block scalar, did not find expected comment or line break"
  | .blockTab => "a block scalar content cannot start with a tab"
  | .blockIndentation => "wrongly indented line in block scalar"
  | .documentStartExpected => "did not find expected <document start>"
  | .duplicateVersion => "duplicate version directive"
  | .directiveBeforeDocumentEnd => "missing explicit document end marker before directive"
  | .unknownAnchor => "while parsing node, found unknown anchor"
  | .undeclaredHandle => "the handle wasn't declared"
  | .nodeExpected => "while parsing a node, did not find expected node content"
  | .blockKeyExpected => "while parsing a block mapping, did not find expected key"
  | .blockEntryExpected => "while parsing a block collection, did not find expected '-' indicator"
  | .flowSequenceSeparator => "while parsing a flow sequence, expected ',' or ']'"
  | .flowMappingSeparator => "while parsing a flow mapping, did not find expected ',' or '\x7d'"
  | .unexpectedEnd => "unexpected eof"

/-- The fault at a place. -/
def located (fault : Fault) (mark : Mark) : SyntaxError := ⟨fault.info, mark⟩

end Fault

end LocatedYaml
