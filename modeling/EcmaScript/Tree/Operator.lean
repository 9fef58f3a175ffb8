/-!
Operators of expressions and the kinds of declarations and members.

Each has the name under which it stands in a written tree.
-/

namespace EcmaScript

/-- Operators with two operands, both always evaluated. -/
inductive BinaryOperator where
  | add | sub | mul | div | mod | exp
  | eq | notEq | strictEq | strictNotEq
  | lt | ltEq | gt | gtEq
  | bitwiseAnd | bitwiseOr | bitwiseXor
  | leftShift | rightShift | unsignedRightShift
  | instanceof | in_
deriving DecidableEq

/-- Name of the operator in a tree. -/
def BinaryOperator.name : BinaryOperator → String
  | .add => "Add"
  | .sub => "Sub"
  | .mul => "Mul"
  | .div => "Div"
  | .mod => "Mod"
  | .exp => "Exp"
  | .eq => "Eq"
  | .notEq => "NotEq"
  | .strictEq => "StrictEq"
  | .strictNotEq => "StrictNotEq"
  | .lt => "Lt"
  | .ltEq => "LtEq"
  | .gt => "Gt"
  | .gtEq => "GtEq"
  | .bitwiseAnd => "BitwiseAnd"
  | .bitwiseOr => "BitwiseOr"
  | .bitwiseXor => "BitwiseXor"
  | .leftShift => "LeftShift"
  | .rightShift => "RightShift"
  | .unsignedRightShift => "UnsignedRightShift"
  | .instanceof => "Instanceof"
  | .in_ => "In"

/-- Operators that may leave their right operand unevaluated. -/
inductive LogicalOperator where
  | and | or | nullishCoalesce
deriving DecidableEq

/-- Name of the operator in a tree. -/
def LogicalOperator.name : LogicalOperator → String
  | .and => "And"
  | .or => "Or"
  | .nullishCoalesce => "NullishCoalesce"

/-- Operators in front of one operand. -/
inductive UnaryOperator where
  | minus | plus | not | bitwiseNot | typeof | void | delete
deriving DecidableEq

/-- Name of the operator in a tree. -/
def UnaryOperator.name : UnaryOperator → String
  | .minus => "Minus"
  | .plus => "Plus"
  | .not => "Not"
  | .bitwiseNot => "BitwiseNot"
  | .typeof => "Typeof"
  | .void => "Void"
  | .delete => "Delete"

/-- Operators that change their operand. -/
inductive UpdateOperator where
  | increment | decrement
deriving DecidableEq

/-- Name of the operator in a tree. -/
def UpdateOperator.name : UpdateOperator → String
  | .increment => "Increment"
  | .decrement => "Decrement"

inductive AssignmentOperator where
  | assign
  | add | sub | mul | div | mod | exp
  | bitAnd | bitOr | bitXor
  | leftShift | rightShift | unsignedRightShift
  | logicalAnd | logicalOr | nullishCoalesce
deriving DecidableEq

/-- Name of the operator in a tree. -/
def AssignmentOperator.name : AssignmentOperator → String
  | .assign => "Assign"
  | .add => "AddAssign"
  | .sub => "SubAssign"
  | .mul => "MulAssign"
  | .div => "DivAssign"
  | .mod => "ModAssign"
  | .exp => "ExpAssign"
  | .bitAnd => "BitAndAssign"
  | .bitOr => "BitOrAssign"
  | .bitXor => "BitXorAssign"
  | .leftShift => "LeftShiftAssign"
  | .rightShift => "RightShiftAssign"
  | .unsignedRightShift => "UnsignedRightShiftAssign"
  | .logicalAnd => "LogicalAndAssign"
  | .logicalOr => "LogicalOrAssign"
  | .nullishCoalesce => "NullishCoalesceAssign"

inductive VariableKind where
  | let_ | const | var
deriving DecidableEq

/-- Name of the kind in a tree. -/
def VariableKind.name : VariableKind → String
  | .let_ => "let"
  | .const => "const"
  | .var => "var"

inductive MethodKind where
  | method | get | set | constructor
deriving DecidableEq

/-- Name of the kind in a tree. -/
def MethodKind.name : MethodKind → String
  | .method => "method"
  | .get => "get"
  | .set => "set"
  | .constructor => "constructor"

inductive PropertyKind where
  | init | get | set
deriving DecidableEq

/-- Name of the kind in a tree. -/
def PropertyKind.name : PropertyKind → String
  | .init => "init"
  | .get => "get"
  | .set => "set"

end EcmaScript
