/-!
# What is wrong with a document

Each way in which a text can fail to be a document, with its wording. A problem is told with the
line where the thing that holds it starts; if that is the first line of the text, with the line
where it was found; and with no line if that is the first one too.
-/

namespace Covenant

namespace Yaml

/-- **What is wrong with a text.** -/
inductive Problem where
  | controlCharacter
  /-- A word that has to be a key is none. -/
  | noColon
  | tooDeep
  | strayCharacter
  | strayDash
  | strayKey
  | strayValue
  | unknownDirective
  | noDirectiveName
  | badDirectiveName
  | noVersion
  | longVersion
  | noVersionPoint
  | noBlank
  | noBlankOrBreak
  | noCommentOrBreak
  | noName
  | noClosingAngle
  | noExclamationMark
  | noTagName
  | noOctet
  | badLeadingOctet
  | badTrailingOctet
  | zeroMargin
  | tabInMargin
  | tabInIndentation
  | boundaryInQuotes
  | unclosedQuotes
  | unknownEscape
  | noEscapeDigits
  | badEscapeCode
  | noDocumentStart
  | undefinedHandle
  | noContent
  | noDash
  | noKey
  | noCommaOrBracket
  | noCommaOrBrace
  | repeatedVersion
  | otherVersion
  | repeatedHandle
  | unknownAnchor (name : String)
deriving DecidableEq, Repr, Inhabited

/-- The wording of a problem. -/
def Problem.message : Problem → String
  | controlCharacter => "control characters are not allowed"
  | noColon => "could not find expected ':'"
  | tooDeep => "exceeded max depth of 10000"
  | strayCharacter => "found character that cannot start any token"
  | strayDash => "block sequence entries are not allowed in this context"
  | strayKey => "mapping keys are not allowed in this context"
  | strayValue => "mapping values are not allowed in this context"
  | unknownDirective => "found unknown directive name"
  | noDirectiveName => "could not find expected directive name"
  | badDirectiveName => "found unexpected non-alphabetical character"
  | noVersion => "did not find expected version number"
  | longVersion => "found extremely long version number"
  | noVersionPoint => "did not find expected digit or '.' character"
  | noBlank => "did not find expected whitespace"
  | noBlankOrBreak => "did not find expected whitespace or line break"
  | noCommentOrBreak => "did not find expected comment or line break"
  | noName => "did not find expected alphabetic or numeric character"
  | noClosingAngle => "did not find the expected '>'"
  | noExclamationMark => "did not find expected '!'"
  | noTagName => "did not find expected tag URI"
  | noOctet => "did not find URI escaped octet"
  | badLeadingOctet => "found an incorrect leading UTF-8 octet"
  | badTrailingOctet => "found an incorrect trailing UTF-8 octet"
  | zeroMargin => "found an indentation indicator equal to 0"
  | tabInMargin => "found a tab character where an indentation space is expected"
  | tabInIndentation => "found a tab character that violates indentation"
  | boundaryInQuotes => "found unexpected document indicator"
  | unclosedQuotes => "found unexpected end of stream"
  | unknownEscape => "found unknown escape character"
  | noEscapeDigits => "did not find expected hexdecimal number"
  | badEscapeCode => "found invalid Unicode character escape code"
  | noDocumentStart => "did not find expected <document start>"
  | undefinedHandle => "found undefined tag handle"
  | noContent => "did not find expected node content"
  | noDash => "did not find expected '-' indicator"
  | noKey => "did not find expected key"
  | noCommaOrBracket => "did not find expected ',' or ']'"
  | noCommaOrBrace => "did not find expected ',' or '\x7d'"
  | repeatedVersion => "found duplicate %YAML directive"
  | otherVersion => "found incompatible YAML document"
  | repeatedHandle => "found duplicate %TAG directive"
  | unknownAnchor name => "unknown anchor '" ++ name ++ "' referenced"

/-- **Why a text is no document**: a problem and the line it is told with, zero for none. -/
structure Error where
  problem : Problem
  line : Nat := 0
deriving DecidableEq, Repr, Inhabited

namespace Error

/-- A problem in the spelling of a text, in something that starts at one line and fails at another.
Lines count from zero here and from one where they are told, except that the first is not. -/
def spelling (start found : Nat) (problem : Problem) : Error :=
  let line := if start = 0 then found else start
  { problem, line := if line = 0 then 0 else line + 1 }

/-- A problem in the order of the parts of a text. The line told is the one before. -/
def structural (start found : Nat) (problem : Problem) : Error :=
  { problem, line := if start = 0 then found else start }

/-- The wording of an error. -/
def message (e : Error) : String :=
  "yaml: " ++ (if e.line = 0 then "" else "line " ++ toString e.line ++ ": ") ++ e.problem.message

end Error

end Yaml

end Covenant
