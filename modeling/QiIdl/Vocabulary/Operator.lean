/-!
# Operators

The operators of value expressions, how tightly they bind, and where they may stand. A higher precedence binds
tighter. The minus sign is both a binary and a prefix operator; the array fetch `a[b]` is postfix only and binds
tightest.
-/

namespace QiIdl

inductive Operator where
  | boolOr
  | boolAnd
  | bitOr
  | bitXor
  | bitAnd
  | equal
  | notEqual
  | greater
  | less
  | greaterEqual
  | lessEqual
  | plus
  | minus
  | divide
  | multiply
  | modulus
  | fetch
  | negate
deriving DecidableEq, Repr

namespace Operator

/-- Every operator, the loosest first, except that prefix negation comes last. -/
def all : List Operator :=
  [.boolOr, .boolAnd, .bitOr, .bitXor, .bitAnd, .equal, .notEqual, .greater, .less, .greaterEqual,
   .lessEqual, .plus, .minus, .divide, .multiply, .modulus, .fetch, .negate]

def spelling : Operator → String
  | boolOr => "||"
  | boolAnd => "&&"
  | bitOr => "|"
  | bitXor => "^"
  | bitAnd => "&"
  | equal => "=="
  | notEqual => "!="
  | greater => ">"
  | less => "<"
  | greaterEqual => ">="
  | lessEqual => "<="
  | plus => "+"
  | minus => "-"
  | divide => "/"
  | multiply => "*"
  | modulus => "%"
  | fetch => "[]"
  | negate => "!"

/-- How tightly an operator binds. -/
def precedence : Operator → Nat
  | boolOr => 10
  | boolAnd => 20
  | bitOr => 30
  | bitXor => 35
  | bitAnd => 40
  | equal | notEqual => 50
  | greater | less | greaterEqual | lessEqual => 60
  | plus | minus => 70
  | divide | multiply | modulus => 80
  | fetch => 100
  | negate => 90

/-- Whether an operator may stand between its operands. -/
def isInfix : Operator → Bool
  | fetch | negate => false
  | _ => true

/-- Whether an operator may stand before its operand. -/
def isPrefix : Operator → Bool
  | minus | negate => true
  | _ => false

/-- Whether an operator may stand after its operand. -/
def isPostfix : Operator → Bool
  | fetch => true
  | _ => false

/-- The name a message gives to an operator. -/
def name : Operator → String
  | boolOr => "BoolOr"
  | boolAnd => "BoolAnd"
  | bitOr => "Or"
  | bitXor => "Xor"
  | bitAnd => "And"
  | equal => "EqEq"
  | notEqual => "Ne"
  | greater => "Gt"
  | less => "Lt"
  | greaterEqual => "Ge"
  | lessEqual => "Le"
  | plus => "Plus"
  | minus => "Minus"
  | divide => "Divide"
  | multiply => "Multiply"
  | modulus => "Modulus"
  | fetch => "FetchArray"
  | negate => "Negate"

def ofSpelling? (s : String) : Option Operator := all.find? (·.spelling == s)

end Operator
end QiIdl
