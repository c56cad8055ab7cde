import Formula.Compile
import Formula.Evaluation
import Formula.Function.Math

namespace Formula

structure Engine where
  maxDepth : Nat := 500
  functions : Registry := NameMap.empty

structure Compiled where
  source : String
  expr : Expr
  functions : Registry

namespace Compiled

def evaluation (c : Compiled) (bindings : Bindings) : Evaluation Literal :=
  c.expr.value ⟨bindings, c.functions⟩

def explain {α : Type} (c : Compiled) : Except Flaw α → Except Failure α
  | .ok a => .ok a
  | .error flaw => .error (flaw.inSource c.source)

def evaluate (c : Compiled) (bindings : Bindings) : Except Failure Literal :=
  c.explain (c.evaluation bindings).outcome

def calls (c : Compiled) (bindings : Bindings) : List Call := (c.evaluation bindings).calls

def evaluateBool (c : Compiled) (bindings : Bindings) : Except Failure Bool :=
  match c.evaluate bindings with
  | .error failure => .error failure
  | .ok (.bool b) => .ok b
  | .ok _ => .error ((⟨.incompatibleTypes, c.expr.span, none⟩ : Flaw).inSource c.source)

end Compiled

namespace Engine

def standard : Engine := ⟨500, Registry.standard⟩

def compile (e : Engine) (source : String) : Except Failure Compiled :=
  (Formula.compile e.maxDepth source).map fun expr => ⟨source, expr, e.functions⟩

def evaluate (e : Engine) (source : String) (bindings : Bindings) : Except Failure Literal :=
  match e.compile source with
  | .error failure => .error failure
  | .ok c => c.evaluate bindings

def evaluateBool (e : Engine) (source : String) (bindings : Bindings) : Except Failure Bool :=
  match e.compile source with
  | .error failure => .error failure
  | .ok c => c.evaluateBool bindings

end Engine

/-- The value of the expression that the first argument spells, on its own: without variables and
functions. Without a text there it is the empty expression. -/
def Function.expression : Function :=
  ⟨fun args =>
    let source := ((args.head?.bind Literal.asString).getD "")
    match ({} : Engine).evaluate source NameMap.empty with
    | .ok v => .ok v
    | .error failure => .error failure.message, false⟩

end Formula
