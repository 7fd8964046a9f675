import Reckon.Number.Numeral
import Reckon.Number.Shortest
import Reckon.Token

namespace Reckon

inductive LiteralKind where
  | integer
  | float
  | string
  | boolean
  | symbol
  | other (code : Int)
  deriving DecidableEq, Repr, Inhabited

def LiteralKind.name : LiteralKind → String
  | .integer => "integer"
  | .float => "float"
  | .string => "string"
  | .boolean => "boolean"
  | .symbol => "symbol"
  | .other code => s!"LiteralKind({code})"

inductive Literal where
  | integer (value : Int32)
  | float (value : Single)
  | string (value : Text)
  | boolean (value : Bool)
  | symbol (name : String)
  | other (code : Int) (text : String)
  deriving DecidableEq, Repr, Inhabited

namespace Literal

def kind : Literal → LiteralKind
  | .integer _ => .integer
  | .float _ => .float
  | .string _ => .string
  | .boolean _ => .boolean
  | .symbol _ => .symbol
  | .other code _ => .other code

def text : Literal → String
  | .integer v => toString v.toInt
  | .float v => v.text
  | .string s => s.quote
  | .boolean b => if b then "true" else "false"
  | .symbol s => s
  | .other _ s => s

end Literal

/-- Why a token is no numeric literal; `other` is none of the language's own reasons. -/
inductive LiteralFault where
  | conversion
  | notNumeric
  | other (code : Int)
  deriving DecidableEq, Repr, Inhabited

structure LiteralError where
  fault : LiteralFault
  expected : String := ""
  found : Token
  deriving DecidableEq, Repr, Inhabited

/-- The literal a numeral stands for: a number with a point is single precision, any other an
integer of thirty-two bits. -/
def Token.literal (t : Token) : Except LiteralError Literal :=
  if t.kind ≠ .numeric then .error { fault := .notNumeric, found := t }
  else if t.hint = .floatingPoint then
    match Single.read? t.raw.chars with
    | some x => .ok (.float x)
    | none => .error { fault := .conversion, expected := "float", found := t }
  else
    match int32? t.raw.chars with
    | some n => .ok (.integer n)
    | none => .error { fault := .conversion, expected := "int", found := t }

end Reckon
