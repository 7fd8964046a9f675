namespace Reckon

/-- How tightly a binary operator binds, from loose to tight. -/
inductive Tier where
  | logical
  | expression
  | term
  deriving DecidableEq, Repr, Inhabited

/-- The operators; `other` is none of the language's own. -/
inductive OpKind where
  | unaryPass
  | unaryMinus
  | logicalNegate
  | multiply
  | division
  | modulos
  | equal
  | lessThan
  | greaterThan
  | lessThanOrEqual
  | greaterThanOrEqual
  | plus
  | subtract
  | booleanAnd
  | booleanOr
  | call
  | define
  | index
  | assignment
  | other (code : Int)
  deriving DecidableEq, Repr, Inhabited

structure OpInfo where
  name : String
  symbol : String
  tier : Option Tier
  arity : Nat
  deriving DecidableEq, Repr

namespace OpKind

def info? : OpKind → Option OpInfo
  | .unaryPass => some ⟨"UnaryPass", "+", none, 1⟩
  | .unaryMinus => some ⟨"UnaryMinus", "-", none, 1⟩
  | .logicalNegate => some ⟨"LogicalNegate", "!", none, 1⟩
  | .multiply => some ⟨"Multiply", "*", some .term, 2⟩
  | .division => some ⟨"Division", "/", some .term, 2⟩
  | .modulos => some ⟨"Modulos", "%", some .term, 2⟩
  | .equal => some ⟨"Equal", "==", some .term, 2⟩
  | .lessThan => some ⟨"LessThan", "<", some .term, 2⟩
  | .greaterThan => some ⟨"GreaterThan", ">", some .term, 2⟩
  | .lessThanOrEqual => some ⟨"LessThanOrEqual", "<=", some .term, 2⟩
  | .greaterThanOrEqual => some ⟨"GreaterThanOrEqual", ">=", some .term, 2⟩
  | .plus => some ⟨"Plus", "+", some .expression, 2⟩
  | .subtract => some ⟨"Subtract", "-", some .expression, 2⟩
  | .booleanAnd => some ⟨"BooleanAnd", "&&", some .logical, 2⟩
  | .booleanOr => some ⟨"BooleanOr", "||", some .logical, 2⟩
  | .call => some ⟨"Call", "", none, 1⟩
  | .define => some ⟨"Define", "", none, 2⟩
  | .index => some ⟨"Index", "", none, 2⟩
  | .assignment => some ⟨"Assignment", "=", none, 2⟩
  | .other _ => none

def count : Nat := 19

def binary : List OpKind :=
  [.multiply, .division, .modulos, .equal, .lessThan, .greaterThan, .lessThanOrEqual,
    .greaterThanOrEqual, .plus, .subtract, .booleanAnd, .booleanOr]

def name (k : OpKind) : String :=
  match k with
  | .other code => s!"OpKind({code})"
  | k => (k.info?.map OpInfo.name).getD ""

/-- The spelling of an operator; that of calls and the like is empty. -/
def symbol (k : OpKind) : String := (k.info?.map OpInfo.symbol).getD ""

def tier? (k : OpKind) : Option Tier := k.info?.bind OpInfo.tier

/-- How many operands an operator takes; an unknown one takes none. -/
def arity (k : OpKind) : Nat := (k.info?.map OpInfo.arity).getD 0

def ofBinary? (symbol : String) : Option OpKind := binary.find? (·.symbol = symbol)

def ofSign? (symbol : String) : Option OpKind :=
  if symbol = "+" then some .unaryPass
  else if symbol = "-" then some .unaryMinus
  else none

end OpKind

structure Operator where
  kind : OpKind
  name : String := ""
  deriving DecidableEq, Repr, Inhabited

def Operator.text (o : Operator) : String :=
  if o.name = "" then o.kind.name else o.kind.name ++ "(" ++ o.name ++ ")"

end Reckon
