import Covenant.Source.Position
import Covenant.Text.Quoted

/-!
# Tokens

The words of the source language: literals, identifiers, operators and punctuation. Comments and
blanks separate tokens and are none themselves. A string token carries the text it denotes, not
the text it was written with. The causes for which a text has no reading are here as well, since
tokens and productions report them alike.
-/

namespace Covenant

namespace Source

/-- The classes of tokens. -/
inductive TokenKind where
  | text
  | number
  | identifier
  | operator
  | punctuation
deriving DecidableEq, Repr, Inhabited

/-- **A token**: its class, its value and where it starts. -/
structure Token where
  kind : TokenKind
  value : String
  pos : Position
deriving DecidableEq, Repr, Inhabited

/-- **A text cut into tokens**, and the place where the text ends. -/
structure TokenStream where
  tokens : List Token
  finish : Position
deriving DecidableEq, Repr, Inhabited

/-- Why a text has no reading. -/
inductive SyntaxCause where
  /-- No token starts with the text that follows; a sample of it is kept. -/
  | strayText (sample : String)
  /-- A string literal holds an escape that is none. -/
  | malformedText (literal : String)
  /-- No production continues with this token; `none` stands for the end of the text. -/
  | unexpected (token : Option String)
deriving DecidableEq, Repr, Inhabited

/-- **A failure to read a text**: the cause and the place. -/
structure SyntaxError where
  cause : SyntaxCause
  pos : Position
deriving DecidableEq, Repr, Inhabited

namespace SyntaxCause

/-- The wording of a cause. -/
def message : SyntaxCause → String
  | strayText sample => "lexer: invalid input text " ++ Text.quote sample
  | malformedText literal => "invalid quoted string " ++ Text.quote literal ++ ": invalid syntax"
  | unexpected token => "unexpected token " ++ Text.quote (token.getD "<EOF>")

end SyntaxCause

namespace SyntaxError

/-- The wording of a failure. -/
def message (e : SyntaxError) : String :=
  e.cause.message

/-- The failure on one line, behind the place it was found at. -/
def render (e : SyntaxError) : String :=
  e.pos.render ++ ": " ++ e.message

end SyntaxError

end Source

end Covenant
