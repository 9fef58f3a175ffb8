import EcmaScript.Grammar
import EcmaScript.Hooks.PrivateNames

/-!
Parsers.

A parser reads one source under fixed options and hooks. Parsing again goes on where the last
parse stopped, also after an error: lexer, context and the state of the hooks are kept.
-/

namespace EcmaScript

/-- A parser of one source, with hooks over a state `σ`. -/
structure Parser (σ : Type) where
  options : Options
  hooks : Hooks σ
  state : ParserState σ

namespace Parser

variable {σ : Type}

/-- A parser at the start of the source, whose hooks begin in the given state. -/
def ofSource (source : String) (options : Options) (hooks : Hooks σ) (initial : σ) : Parser σ where
  options := options
  hooks := hooks
  state :=
    { lexer := .ofSource source hooks.tokenRules
      context := { strict := options.goal == .module }
      hooks := initial }

def grammar (parser : Parser σ) : Grammar σ :=
  .ofLength parser.options parser.hooks parser.state.lexer.source.length

/-- Parses what is left of the source. -/
def parse (parser : Parser σ) : Except Failure Program × Parser σ :=
  match parser.grammar.program parser.state with
  | .ok program state => (.ok program, { parser with state })
  | .error failure state => (.error failure, { parser with state })

end Parser

/-- Parses a source with the given hooks, which begin in the given state. -/
def parseWith {σ : Type} (source : String) (options : Options) (hooks : Hooks σ) (initial : σ) :
    Except Failure Program :=
  (Parser.ofSource source options hooks initial).parse.1

/-- Parses a source without private names. -/
def parsePlain (source : String) (options : Options) : Except Failure Program :=
  parseWith source options (.silent []) ()

/-- Parses a source with private names. -/
def parse (source : String) (options : Options) : Except Failure Program :=
  parseWith source options .privateNames {}

end EcmaScript
