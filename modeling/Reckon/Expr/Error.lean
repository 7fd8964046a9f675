import Reckon.Literal
import Reckon.Token.Error

namespace Reckon

/-- The rule that was broken; `other` is none of the language's own. -/
inductive ParseFault where
  | lexical
  | literal
  | unexpectedToken
  | factor
  | operator
  | keywordCall
  | bracketMismatch
  | identifier
  | unimplementedKeyword
  | statement
  | other (code : Int)
  deriving DecidableEq, Repr, Inhabited

def ParseFault.name : ParseFault → String
  | .lexical => "lexical error"
  | .literal => "invalid literal"
  | .unexpectedToken => "unexpected token"
  | .factor => "unexpected token in factor"
  | .operator => "operator not allowed"
  | .keywordCall => "malformed keyword call"
  | .bracketMismatch => "mismatched bracket"
  | .identifier => "invalid identifier use"
  | .unimplementedKeyword => "keyword not implemented"
  | .statement => "unexpected token after statement"
  | .other code => s!"ParseErrorKind({code})"

/-- A broken rule: the production that was being read, what it expected and what stood there. -/
structure Violation where
  fault : ParseFault
  production : String := ""
  expected : String := ""
  found : Token := .zero
  pos : Position := .zero
  deriving DecidableEq, Repr, Inhabited

inductive ParseCause where
  | lexical (error : LexError)
  | literal (error : LiteralError)
  deriving DecidableEq, Repr, Inhabited

structure ParseError extends Violation where
  cause : Option ParseCause := none
  deriving DecidableEq, Repr, Inhabited

end Reckon
