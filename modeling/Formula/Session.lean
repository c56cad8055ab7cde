import Formula.Engine

/-!
Sessions: an engine, variables, and compiled expressions under names of their own. A compiled
expression keeps the functions it was compiled with, and is evaluated with the variables of the
moment.
-/

namespace Formula

structure Session where
  engine : Engine
  bindings : Bindings
  expressions : NameMap Compiled

inductive Step
  | set (name : String) (value : Literal)
  | unset (name : String)
  | listVariables
  | replaceEngine (engine : Engine)
  | hasFunction (name : String)
  | compile (id source : String)
  | mustCompile (id source : String)
  | display (id : String)
  | same (id other : String)
  | evaluate (id : String)
  | evaluateBool (id : String)
  | fold (id target : String)
  | once (source : String)
  | onceBool (source : String)

inductive Answer
  | bound (count : Nat)
  | bindings (bindings : Bindings)
  | engine (engine : Engine)
  | flag (b : Bool)
  | source (text : String)
  | value (v : Literal)
  | failed (failure : Failure)
  | aborted (message : String)
  | unknownExpression

namespace Answer

def ofValue : Except Failure Literal → Answer
  | .ok v => value v
  | .error failure => failed failure

def ofBool (result : Except Failure Bool) : Answer := ofValue (result.map .bool)

end Answer

namespace Session

def bind (s : Session) (name : String) (v : Literal) : Session :=
  { s with bindings := s.bindings.insert name v }

def keep (s : Session) (id : String) (c : Compiled) : Session :=
  { s with expressions := s.expressions.insert id c }

def recorded (s : Session) (c : Compiled) : List Call :=
  (c.calls s.bindings).filter (·.recorded)

def ask (s : Session) (c : Compiled) (f : Compiled → Bindings → Answer) : Answer × List Call :=
  (f c s.bindings, s.recorded c)

def step (s : Session) : Step → Session × Answer × List Call
  | .set name v => let s := s.bind name v; (s, .bound s.bindings.size, [])
  | .unset name =>
    let s := { s with bindings := s.bindings.erase name }
    (s, .bound s.bindings.size, [])
  | .listVariables => (s, .bindings s.bindings, [])
  | .replaceEngine e => ({ s with engine := e }, .engine e, [])
  | .hasFunction name => (s, .flag (s.engine.functions.get? name).isSome, [])
  | .compile id source =>
    match s.engine.compile source with
    | .ok c => (s.keep id c, .source c.source, [])
    | .error failure => (s, .failed failure, [])
  | .mustCompile id source =>
    match s.engine.compile source with
    | .ok c => (s.keep id c, .source c.source, [])
    | .error failure => (s, .aborted failure.message, [])
  | .display id =>
    match s.expressions.get? id with
    | some c => (s, .source c.source, [])
    | none => (s, .unknownExpression, [])
  | .same id other =>
    match s.expressions.get? id, s.expressions.get? other with
    | some c, some d => (s, .flag (c.expr.same d.expr), [])
    | _, _ => (s, .unknownExpression, [])
  | .evaluate id =>
    match s.expressions.get? id with
    | some c => (s, s.ask c fun c bindings => .ofValue (c.evaluate bindings))
    | none => (s, .unknownExpression, [])
  | .evaluateBool id =>
    match s.expressions.get? id with
    | some c => (s, s.ask c fun c bindings => .ofBool (c.evaluateBool bindings))
    | none => (s, .unknownExpression, [])
  | .fold id target =>
    match s.expressions.get? id with
    | some c =>
      let v := match c.evaluate s.bindings with
        | .ok v => v
        | .error failure => failure.toLiteral
      (s.bind target v, .value v, s.recorded c)
    | none => (s, .unknownExpression, [])
  | .once source =>
    match s.engine.compile source with
    | .ok c => (s, s.ask c fun c bindings => .ofValue (c.evaluate bindings))
    | .error failure => (s, .failed failure, [])
  | .onceBool source =>
    match s.engine.compile source with
    | .ok c => (s, s.ask c fun c bindings => .ofBool (c.evaluateBool bindings))
    | .error failure => (s, .failed failure, [])

def steps (s : Session) : List Step → List (Answer × List Call)
  | [] => []
  | step :: rest =>
    let (next, result) := s.step step
    result :: next.steps rest

end Session

end Formula
