/-!
The words that the scanner sets apart from identifiers.

Five of them are contextual: outside the places where the grammar gives them a meaning they are
ordinary identifiers. A word written with an escape is never a keyword.
-/

namespace EcmaScript

/-- A word with a meaning of its own; a trailing underscore only avoids a clash of names. -/
inductive Keyword where
  | let_ | const | var | function | return_ | if_ | else_ | while | for_ | break_ | continue_
  | class_ | extends_ | new | this | super | async | await | true_ | false_ | null | typeof
  | void | instanceof | in_ | try_ | catch_ | finally_ | throw | yield | import_ | export_
  | default | delete | with_ | switch | case | do_ | debugger | static
deriving DecidableEq

namespace Keyword

def spelling : Keyword → String
  | .let_ => "let"
  | .const => "const"
  | .var => "var"
  | .function => "function"
  | .return_ => "return"
  | .if_ => "if"
  | .else_ => "else"
  | .while => "while"
  | .for_ => "for"
  | .break_ => "break"
  | .continue_ => "continue"
  | .class_ => "class"
  | .extends_ => "extends"
  | .new => "new"
  | .this => "this"
  | .super => "super"
  | .async => "async"
  | .await => "await"
  | .true_ => "true"
  | .false_ => "false"
  | .null => "null"
  | .typeof => "typeof"
  | .void => "void"
  | .instanceof => "instanceof"
  | .in_ => "in"
  | .try_ => "try"
  | .catch_ => "catch"
  | .finally_ => "finally"
  | .throw => "throw"
  | .yield => "yield"
  | .import_ => "import"
  | .export_ => "export"
  | .default => "default"
  | .delete => "delete"
  | .with_ => "with"
  | .switch => "switch"
  | .case => "case"
  | .do_ => "do"
  | .debugger => "debugger"
  | .static => "static"

/-- Every keyword once. -/
def all : List Keyword :=
  [.let_, .const, .var, .function, .return_, .if_, .else_, .while, .for_, .break_, .continue_,
   .class_, .extends_, .new, .this, .super, .async, .await, .true_, .false_, .null, .typeof,
   .void, .instanceof, .in_, .try_, .catch_, .finally_, .throw, .yield, .import_, .export_,
   .default, .delete, .with_, .switch, .case, .do_, .debugger, .static]

def ofWord? (word : String) : Option Keyword :=
  all.find? (fun k => k.spelling == word)

/-- Whether the keyword is an identifier outside the places that give it a meaning. -/
def isContextual : Keyword → Bool
  | .let_ | .async | .await | .yield | .static => true
  | _ => false

end Keyword

end EcmaScript
