import Reckon.Literal
import Reckon.Operator

namespace Reckon

/-- An expression. A tree made by hand may lack an operand or have too many. -/
inductive Expr where
  | missing
  | literal (l : Literal)
  | apply (op : Operator) (args : List Expr)
  deriving Repr, Inhabited

inductive RenderFault where
  | noOperand (index count : Nat)
  | unknownOperator (code : Int)
  deriving DecidableEq, Repr

def RenderFault.text : RenderFault → String
  | .noOperand index count => panicked s!"[{index}] with length {count}"
  | .unknownOperator code =>
    panicked (if code < 0 then s!"[{code}]" else s!"[{code}] with length {OpKind.count}")
where
  /-- What is shown for an operand whose text cannot be made. -/
  panicked (place : String) : String :=
    "%!s(PANIC=String method: runtime error: index out of range " ++ place ++ ")"

namespace Expr

def arrange (op : Operator) (args : List String) : Except RenderFault String :=
  match op.kind with
  | .other code => .error (.unknownOperator code)
  | .call =>
    match args with
    | [] => .error (.noOperand 0 0)
    | a :: _ => .ok (op.name ++ "(" ++ a ++ ")")
  | .define =>
    match args with
    | [] => .error (.noOperand 0 0)
    | [_] => .error (.noOperand 1 1)
    | a :: b :: _ => .ok (op.name ++ "(" ++ a ++ ") \x7b " ++ b ++ " \x7d")
  | .index =>
    match args with
    | [] => .error (.noOperand 0 0)
    | [_] => .error (.noOperand 1 1)
    | a :: b :: _ => .ok (a ++ "[" ++ b ++ "]")
  | kind =>
    match args with
    | [] => .error (.noOperand 0 0)
    | [a] => .ok ("(" ++ kind.symbol ++ a ++ ")")
    | a :: b :: _ => .ok ("(" ++ a ++ " " ++ kind.symbol ++ " " ++ b ++ ")")

mutual

/-- The text of a tree is fully parenthesised. A tree with an unknown operator or too few operands
has none. -/
def render : Expr → Except RenderFault String
  | .missing => .ok "%!s(<nil>)"
  | .literal l => .ok l.text
  | .apply op args => arrange op (renderAll args)

/-- The texts of some operands, with the reason in place of a text that there is not. -/
def renderAll : List Expr → List String
  | [] => []
  | e :: es =>
    (match e.render with
    | .ok text => text
    | .error fault => fault.text) :: renderAll es

end

def text (e : Expr) : String :=
  match e.render with
  | .ok text => text
  | .error fault => fault.text

def binary (kind : OpKind) (left right : Expr) : Expr := .apply { kind } [left, right]

def unary (kind : OpKind) (operand : Expr) : Expr := .apply { kind } [operand]

def call (name : String) (arg : Expr) : Expr := .apply { kind := .call, name } [arg]

def define (name : String) (condition body : Expr) : Expr :=
  .apply { kind := .define, name } [condition, body]

def symbol (name : String) : Expr := .literal (.symbol name)

mutual

def preorder (depth : Nat) : Expr → List (Nat × (Literal ⊕ Operator))
  | .missing => []
  | .literal l => [(depth, .inl l)]
  | .apply op args => (depth, .inr op) :: preorderAll (depth + 1) args

def preorderAll (depth : Nat) : List Expr → List (Nat × (Literal ⊕ Operator))
  | [] => []
  | e :: es => e.preorder depth ++ preorderAll depth es

end

end Expr

end Reckon
