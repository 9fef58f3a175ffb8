import EcmaScript.Source
import EcmaScript.ReservedWord

/-!
Diagnostics: what is wrong with a source, and where.

A cause says what is wrong; its kind and its wording are functions of the cause, so that every
text a user can see stands in this module. Private-name rules are static semantics and give early
errors, all other causes are errors of the grammar. Hooks may also report a text of their own.
-/

namespace EcmaScript

/-- Whether the grammar or the static semantics is violated. -/
inductive ErrorKind where
  | syntaxError
  | earlyError
deriving DecidableEq

/-- Name of the kind in reports. -/
def ErrorKind.name : ErrorKind → String
  | .syntaxError => "SyntaxError"
  | .earlyError => "EarlyError"

/-- Violations of the static rules on private class elements. -/
inductive PrivateNameViolation where
  /-- One name declared twice in a class body. -/
  | duplicate
  /-- A private element named `constructor`. -/
  | namedConstructor
  /-- A use of a name that no enclosing class declares. -/
  | undeclared
  /-- `delete` applied to a private member. -/
  | deleted
  /-- `super(...)` in a private method. -/
  | directSuper
deriving DecidableEq

def PrivateNameViolation.message : PrivateNameViolation → String
  | .duplicate => "Duplicate private element"
  | .namedConstructor => "Classes may not have a private method named constructor"
  | .undeclared => "Usage of undeclared private name"
  | .deleted => "Private elements may not be deleted"
  | .directSuper => "A class method that is not a constructor may not contain a direct super"

inductive ScanCause where
  | unterminatedComment
  | unterminatedString
  | unterminatedTemplate
  | unterminatedRegExp
  | unexpectedCharacter (c : Char)
  /-- An escape denotes a character that its place in the identifier does not allow. -/
  | escapeNotInIdentifier
  | badEscape
  | codePointOutOfBounds
  | octalInTemplate
  | digitsExpected (radix : Nat)
  | invalidNumber
  | invalidBigInt
  | identifierAfterNumber
deriving DecidableEq

/-- The text of a scanner error. -/
def ScanCause.message : ScanCause → String
  | .unterminatedComment => "Unterminated comment"
  | .unterminatedString => "Unterminated string constant"
  | .unterminatedTemplate => "Unterminated template"
  | .unterminatedRegExp => "Unterminated regular expression"
  | .unexpectedCharacter c => "Unexpected character '" ++ String.singleton c ++ "'"
  | .escapeNotInIdentifier => "Invalid Unicode escape sequence in identifier"
  | .badEscape => "Bad character escape sequence"
  | .codePointOutOfBounds => "Code point out of bounds"
  | .octalInTemplate => "Octal literal in template string"
  | .digitsExpected radix => "Expected number in radix " ++ toString radix
  | .invalidNumber => "Invalid number"
  | .invalidBigInt => "Invalid BigInt literal"
  | .identifierAfterNumber => "Identifier directly after number"

/-- Where an optional chain is not allowed. -/
inductive ChainPlace where
  | assignmentTarget
  | newCallee
  | templateTag
deriving DecidableEq

def ChainPlace.message : ChainPlace → String
  | .assignmentTarget => "Optional chaining cannot appear in left-hand side"
  | .newCallee => "Optional chaining cannot appear in the callee of new expressions"
  | .templateTag => "Optional chaining cannot appear in the tag of tagged template expressions"

/-- Errors of class elements. -/
inductive ClassCause where
  | duplicateConstructor
  | accessorConstructor
  | generatorConstructor
  | asyncConstructor
  | staticPrototype
  | getterParameters
  | setterParameters
  | constructorField
deriving DecidableEq

/-- The text of a class element error. -/
def ClassCause.message : ClassCause → String
  | .duplicateConstructor => "Duplicate constructor in the same class"
  | .accessorConstructor => "Constructor can't have get/set modifier"
  | .generatorConstructor => "Constructor can't be a generator"
  | .asyncConstructor => "Constructor can't be an async method"
  | .staticPrototype => "Classes may not have a static property named prototype"
  | .getterParameters => "getter should have no params"
  | .setterParameters => "setter should have exactly one param"
  | .constructorField => "Classes can't have a field named 'constructor'"

/-- What is wrong. -/
inductive Cause where
  | scan (cause : ScanCause)
  | unexpectedToken
  | word (rejection : WordRejection)
  | returnOutsideFunction
  | breakOutsideLoop
  | continueOutsideLoop
  | newlineAfterThrow
  | tryWithoutHandler
  | multipleDefaults
  | classElement (cause : ClassCause)
  | invalidTarget
  /-- Assignment to `eval` or `arguments` in strict code. -/
  | strictAssignment (name : String)
  /-- Binding of `eval` or `arguments` in strict code. -/
  | strictBinding (name : String)
  | strictDelete
  | optionalChain (place : ChainPlace)
  | superOutsideMethod
  | privateName (violation : PrivateNameViolation)
  /-- A text supplied from outside the library. -/
  | custom (kind : ErrorKind) (text : String)
deriving DecidableEq

namespace Cause

/-- Kind of error that the cause is reported as. -/
def kind : Cause → ErrorKind
  | .privateName _ => .earlyError
  | .custom kind _ => kind
  | _ => .syntaxError

/-- The text of the error, without its position. -/
def message : Cause → String
  | .scan cause => cause.message
  | .unexpectedToken => "Unexpected token"
  | .word rejection => rejection.message
  | .returnOutsideFunction => "'return' outside of function"
  | .breakOutsideLoop => "Unsyntactic break"
  | .continueOutsideLoop => "Unsyntactic continue"
  | .newlineAfterThrow => "Illegal newline after throw"
  | .tryWithoutHandler => "Missing catch or finally clause"
  | .multipleDefaults => "Multiple default clauses"
  | .classElement cause => cause.message
  | .invalidTarget => "Assigning to rvalue"
  | .strictAssignment name => "Assigning to " ++ name ++ " in strict mode"
  | .strictBinding name => "Binding " ++ name ++ " in strict mode"
  | .strictDelete => "Deleting local variable in strict mode"
  | .optionalChain place => place.message
  | .superOutsideMethod => "'super' keyword outside a method"
  | .privateName violation => violation.message
  | .custom _ text => text

end Cause

/-- An error of a source: its cause and, where known, its position. -/
structure Diagnostic where
  cause : Cause
  position : Option Position
deriving DecidableEq

namespace Diagnostic

def located (cause : Cause) (position : Position) : Diagnostic := ⟨cause, some position⟩

/-- Kind of the error. -/
def kind (d : Diagnostic) : ErrorKind := d.cause.kind

/-- Text of the error without its position. -/
def message (d : Diagnostic) : String := d.cause.message

/-- Text of the error, followed by `(line:column)` where the position is known. -/
def render (d : Diagnostic) : String :=
  match d.position with
  | some position => d.message ++ " (" ++ position.render ++ ")"
  | none => d.message

end Diagnostic

/-- How reading a source can fail. An error of the source is returned; any other failure breaks the
run off where it happens. -/
inductive Failure where
  /-- The source is wrong. -/
  | error (diagnostic : Diagnostic)
  /-- A step was out of range: a character was requested behind the end of the source, or one was to
  be taken from a counter at zero. -/
  | overrun
  /-- A bound on the number of steps was reached. -/
  | exhausted
deriving DecidableEq

end EcmaScript
