import Reckon.Expr.Error

namespace Reckon

/-- An error of any part of the program, with what caused it. -/
inductive Diagnostic where
  | note (text : String)
  | lexical (error : LexError) (cause : Option Diagnostic)
  | literal (error : LiteralError)
  | violation (error : Violation) (cause : Option Diagnostic)
  | unsupported (node : String)
  | stage (name : String) (cause : Diagnostic)
  | stackUnderflow
  | sinkFull
  | within (context : String) (cause : Diagnostic)
  deriving Inhabited

namespace Diagnostic

def lexicalMessage (fault : LexFault) (cause : String) : String :=
  match fault with
  | .unreadable path => "cannot read " ++ path ++ ": " ++ cause
  | .unexpected expected found => "expected " ++ expected.describe ++ ", found " ++ found.describe
  | .invalidNumber raw => "not a valid number " ++ raw.quote
  | .unopened symbol opener =>
    "can't find opening " ++ quoteChar opener ++ " for " ++ quoteChar symbol
  | .unknownSymbol raw => "unknown symbol " ++ raw.quote
  | .unterminatedString => "unterminated string literal"
  | .other _ => "lexical error"

def literalMessage (error : LiteralError) : String :=
  match error.fault with
  | .notNumeric => "expected a numeric literal, found " ++ error.found.describe
  | .conversion | .other _ => error.found.raw.quote ++ " does not fit in " ++ error.expected

def violationHead (v : Violation) : String :=
  v.pos.text ++ ": " ++ v.fault.name ++
    (if v.production = "" then "" else " (" ++ v.production ++ ")") ++ ": "

def violationFound (v : Violation) : String :=
  (if v.expected = "" then "found " else "expected " ++ v.expected ++ ", found ") ++
    v.found.describe

def message : Diagnostic → String
  | .note text => text
  | .lexical error none => lexicalMessage error.fault "<nil>"
  | .lexical error (some cause) => lexicalMessage error.fault cause.message
  | .literal error => literalMessage error
  | .violation error none => violationHead error ++ violationFound error
  | .violation error (some cause) => violationHead error ++ cause.message
  | .unsupported node => "operation not supported by the code generator: " ++ node
  | .stage name cause => name ++ " failed: " ++ cause.message
  | .stackUnderflow => "stack underflow"
  | .sinkFull => "sink full"
  | .within context cause => context ++ cause.message

/-- A diagnostic and all that caused it, from the outside in. -/
def chain : Diagnostic → List Diagnostic
  | d@(.lexical _ (some cause)) => d :: cause.chain
  | d@(.violation _ (some cause)) => d :: cause.chain
  | d@(.stage _ cause) => d :: cause.chain
  | d@(.within _ cause) => d :: cause.chain
  | d => [d]

def causes (d : Diagnostic) : List String := d.chain.tail.map message

end Diagnostic

def LexError.diagnostic (e : LexError) : Diagnostic := .lexical e none

def ParseError.diagnostic (e : ParseError) : Diagnostic :=
  .violation e.toViolation <| e.cause.map fun
    | .lexical cause => cause.diagnostic
    | .literal cause => .literal cause

end Reckon
