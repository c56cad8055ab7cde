import Formula.Assignment
import Formula.Engine
import Formula.Listing
import Formula.Report
import Formula.Text.Lines

namespace Formula

structure Options where
  bindings : List (String × Literal) := []
  bool : Bool := false
  listing : Bool := false
  expression : Option String := none

structure Transcript where
  output : String
  errors : String
  status : Nat

namespace Options

inductive Outcome
  | run (options : Options)
  | help
  | misused (reason : String)

def splitLong (cs : List Char) : List Char × Option (List Char) :=
  match cs.dropWhile (· ≠ '=') with
  | [] => (cs, none)
  | _ :: value => (cs.takeWhile (· ≠ '='), some value)

def isOption (arg : String) : Bool :=
  match arg.toList with
  | '-' :: _ :: _ => true
  | _ => false

def withExpression (o : Options) (arg : String) : Except String Options :=
  match o.expression with
  | none => .ok { o with expression := some arg }
  | some _ => .error ("unexpected argument '" ++ arg ++ "'")

def withVariable (o : Options) (assignment : String) : Except String Options :=
  match Assignment.read assignment with
  | .ok binding => .ok { o with bindings := o.bindings ++ [binding] }
  | .error e => .error e.message

def withBool (o : Options) : Except String Options :=
  if o.bool then .error "the argument '--bool' cannot be used multiple times"
  else .ok { o with bool := true }

def withListing (o : Options) : Except String Options :=
  if o.listing then .error "the argument '--debug-parse' cannot be used multiple times"
  else .ok { o with listing := true }

inductive Argument
  | separator
  | assignment (text : String)
  | assignmentNext
  | bool
  | listing
  | help
  | expression (text : String)
  | invalid (reason : String)

/-- The argument that a text is. Two dashes end the options; a single dash is an expression. -/
def Argument.ofText (arg : String) : Argument :=
  match arg.toList with
  | ['-', '-'] => separator
  | '-' :: '-' :: long =>
    match splitLong long with
    | (name, value) =>
      if name = "var".toList then
        match value with
        | some v => assignment (String.ofList v)
        | none => assignmentNext
      else if value.isSome then invalid ("unexpected value in '" ++ arg ++ "'")
      else if name = "bool".toList then bool
      else if name = "debug-parse".toList then listing
      else if name = "help".toList then help
      else invalid ("unexpected argument '" ++ arg ++ "'")
  | '-' :: 'h' :: _ => help
  | '-' :: _ :: _ => invalid ("unexpected argument '" ++ arg ++ "'")
  | _ => expression arg

def Outcome.orRead (read : Options → Outcome) : Except String Options → Outcome
  | .ok o => read o
  | .error reason => .misused reason

def readPlain (o : Options) : List String → Outcome
  | [] => .run o
  | arg :: args => Outcome.orRead (readPlain · args) (o.withExpression arg)

def read (o : Options) : List String → Outcome
  | [] => .run o
  | arg :: args => match Argument.ofText arg with
    | .separator => o.readPlain args
    | .assignment text => Outcome.orRead (read · args) (o.withVariable text)
    | .assignmentNext => match args with
      | [] => .misused "a value is required for '--var <NAME=VALUE>'"
      | v :: rest =>
        if isOption v then .misused "a value is required for '--var <NAME=VALUE>'"
        else Outcome.orRead (read · rest) (o.withVariable v)
    | .bool => Outcome.orRead (read · args) o.withBool
    | .listing => Outcome.orRead (read · args) o.withListing
    | .help => .help
    | .expression text => Outcome.orRead (read · args) (o.withExpression text)
    | .invalid reason => .misused reason

def helpText : String :=
  "Evaluate dexpr expressions\n\n" ++
  "Usage: dexpr [OPTIONS] [EXPRESSION]\n\n" ++
  "Arguments:\n" ++
  "  [EXPRESSION]  Expression to evaluate (if not provided, reads from stdin)\n\n" ++
  "Options:\n" ++
  "      --var <NAME=VALUE>  Bind a variable (NAME=VALUE, may be repeated)\n" ++
  "      --bool              Require every expression to evaluate to a boolean\n" ++
  "      --debug-parse       Print the parsed AST (for debugging)\n" ++
  "  -h, --help              Print help\n"

end Options

namespace Command

def listingText (e : Expr) : String :=
  String.join ((["=== Parsed AST ==="] ++ (Listed.ofExpr e).lines ++ [""]).map (· ++ "\n"))

def failedText (failures : Nat) : String := Nat.repr failures ++ " expression(s) failed"

structure Interpreter where
  engine : Engine
  bindings : Bindings
  bool : Bool
  listing : Bool
  output : String := ""
  errors : String := ""
  failures : Nat := 0

namespace Interpreter

def start (o : Options) : Interpreter :=
  { engine := .standard, bindings := NameMap.ofList o.bindings, bool := o.bool, listing := o.listing }

def print (s : Interpreter) (text : String) : Interpreter := { s with output := s.output ++ text }

def fail (s : Interpreter) (failure : Failure) : Interpreter :=
  { s with errors := s.errors ++ Report.text true failure, failures := s.failures + 1 }

def resultText (s : Interpreter) (c : Compiled) : Except Failure String :=
  if s.bool then (c.evaluateBool s.bindings).map fun b => (Literal.bool b).text
  else (c.evaluate s.bindings).map Literal.text

def interpret (s : Interpreter) (source : String) : Interpreter :=
  match s.engine.compile source with
  | .error failure => s.fail failure
  | .ok c =>
    let listed := if s.listing then s.print (listingText c.expr) else s
    match listed.resultText c with
    | .ok text => listed.print (text ++ "\n")
    | .error failure => listed.fail failure

def interpretLines (s : Interpreter) : List (List Char) → Interpreter
  | [] => s
  | line :: lines =>
    let next := if (Unicode.trim line).isEmpty then s else s.interpret (String.ofList line)
    next.interpretLines lines

/-- What has been printed in the end; a failure makes the status one, however many follow that do not
fail. -/
def transcript (s : Interpreter) : Transcript :=
  if s.failures = 0 then ⟨s.output, s.errors, 0⟩
  else ⟨s.output, s.errors ++ "Error: " ++ failedText s.failures ++ "\n", 1⟩

end Interpreter

def runOptions (o : Options) (input : String) : Transcript :=
  let start := Interpreter.start o
  match o.expression with
  | some source => (start.interpret source).transcript
  | none => (start.interpretLines (textLines input.toList)).transcript

def run (args : List String) (input : String) : Transcript :=
  match ({} : Options).read args with
  | .run o => runOptions o input
  | .help => ⟨Options.helpText, "", 0⟩
  | .misused reason => ⟨"", "error: " ++ reason ++ "\n", 2⟩

end Command

end Formula
