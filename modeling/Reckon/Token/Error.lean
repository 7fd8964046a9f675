import Reckon.Token

namespace Reckon

/-- What is wrong with a piece of source; `other` is none of the language's own faults. -/
inductive LexFault where
  | unreadable (path : String)
  | unexpected (expected found : Token)
  | invalidNumber (raw : Text)
  | unopened (symbol opener : Char)
  | unknownSymbol (raw : Text)
  | unterminatedString
  | other (code : Int)
  deriving DecidableEq, Repr, Inhabited

structure LexError where
  fault : LexFault
  pos : Position := .zero
  deriving DecidableEq, Repr, Inhabited

end Reckon
