import Formula.Proofs.Outcomes
import Formula.Session

namespace Formula

def Session.after (s : Session) : List Step → Session
  | [] => s
  | step :: rest => (s.step step).1.after rest

def Step.engine (engine : Engine) : Step → Engine
  | .replaceEngine e => e
  | _ => engine

def Step.target? : Step → Option String
  | .set name _ | .unset name | .fold _ name => some name
  | _ => none

def Step.compiled? (engine : Engine) (id : String) : Step → Option String
  | .compile other source | .mustCompile other source =>
    if other = id ∧ (engine.compile source).isOk then some source else none
  | _ => none

/-- The source that was last compiled under an id with success, and the engine in force then. -/
def Step.lastCompiled? (id : String) (engine : Engine) : List Step → Option (Engine × String)
  | [] => none
  | step :: rest =>
    -- A later success counts, and this step only where there is none.
    (lastCompiled? id (step.engine engine) rest).or
      ((step.compiled? engine id).map fun source => (engine, source))

def Literal.folded : Except Failure Literal → Literal
  | .ok v => v
  | .error failure => failure.toLiteral

namespace Session

def callsOf (s : Session) (e : Engine) (source : String) : List Call :=
  (({ s with engine := e } : Session).step (.once source)).2.2

/-- What a session does, told by the engine and the source that an expression was last compiled by: an
evaluation is the one of that source with that engine and the variables of the moment, and leaves the
session as it is, whether it succeeds or not; so does a compilation that fails. A folded result changes
the variable it is folded into, and no step changes a variable but its target. -/
structure Follows (s : Session) (last : String → Option (Engine × String)) : Prop where
  evaluate : ∀ {id e source}, last id = some (e, source) →
    s.step (.evaluate id) = (s, .ofValue (e.evaluate source s.bindings), s.callsOf e source)
  evaluateBool : ∀ {id e source}, last id = some (e, source) →
    s.step (.evaluateBool id) = (s, .ofBool (e.evaluateBool source s.bindings), s.callsOf e source)
  unknown : ∀ {id}, last id = none → ∀ step ∈ [.evaluate id, .evaluateBool id],
    s.step step = (s, .unknownExpression, [])
  once : ∀ source,
    s.step (.once source) =
        (s, .ofValue (s.engine.evaluate source s.bindings), s.callsOf s.engine source) ∧
      s.step (.onceBool source) =
        (s, .ofBool (s.engine.evaluateBool source s.bindings), s.callsOf s.engine source)
  failed : ∀ {source failure}, s.engine.compile source = .error failure → ∀ id,
    s.step (.compile id source) = (s, .failed failure, []) ∧
      s.step (.mustCompile id source) = (s, .aborted failure.message, [])
  replaced : ∀ e, (s.step (.replaceEngine e)).1.bindings = s.bindings ∧
    (s.step (.replaceEngine e)).1.expressions = s.expressions
  folded : ∀ id target, (s.step (.fold id target)).1.engine = s.engine ∧
    (s.step (.fold id target)).1.expressions = s.expressions ∧
    (s.step (.fold id target)).1.bindings.get? target =
      match last id with
      | some (e, source) => some (.folded (e.evaluate source s.bindings))
      | none => s.bindings.get? target
  kept : ∀ {step : Step} {name}, step.target? ≠ some name →
    (s.step step).1.bindings.get? name = s.bindings.get? name

variable {s : Session} {id : String}

/-- A history that goes on is answered by the session after its first part. -/
theorem steps_append (s : Session) (history more : List Step) :
    s.steps (history ++ more) = s.steps history ++ (s.after history).steps more := by
  induction history generalizing s with
  | nil => rfl
  | cons step rest ih =>
    rw [List.cons_append]
    change (s.step step).2 :: (s.step step).1.steps (rest ++ more) = _
    rw [ih]
    rfl

/-- Only a step that replaces the engine changes it. -/
theorem engine_step (s : Session) (step : Step) : (s.step step).1.engine = step.engine s.engine := by
  cases step with
  | set | unset | listVariables | replaceEngine | hasFunction => rfl
  | _ =>
    delta Session.step
    dsimp only
    split <;> rfl

/-- A step changes no variable but its target. -/
theorem bindings_step {step : Step} {name : String} (h : step.target? ≠ some name) :
    (s.step step).1.bindings.get? name = s.bindings.get? name := by
  cases step with
  | set other v =>
    have hne : other ≠ name := fun he => h (congrArg some he)
    exact (NameMap.get_insert s.bindings other name v).trans (if_neg hne)
  | unset other =>
    have hne : other ≠ name := fun he => h (congrArg some he)
    exact (NameMap.get_erase s.bindings other name).trans (if_neg hne)
  | fold id target =>
    have hne : target ≠ name := fun he => h (congrArg some he)
    delta Session.step
    dsimp only
    split
    · exact (NameMap.get_insert s.bindings target name _).trans (if_neg hne)
    · rfl
  | listVariables | replaceEngine | hasFunction => rfl
  | _ =>
    delta Session.step
    dsimp only
    split <;> rfl

theorem get_keep {c : Compiled} {other : String} :
    (s.keep other c).expressions.get? id = if other = id then some c else s.expressions.get? id :=
  NameMap.get_insert s.expressions other id c

/-- A step that compiles changes the expression of its own id, if it succeeds. -/
theorem expressions_compile (other source : String) (answer : Compiled → Answer × List Call)
    (failed : Failure → Answer × List Call) :
    (match s.engine.compile source with
      | .ok c => (s.keep other c, answer c)
      | .error failure => (s, failed failure)).1.expressions.get? id =
    match Step.compiled? s.engine id (.compile other source) with
      | some source => (s.engine.compile source).toOption
      | none => s.expressions.get? id := by
  cases hc : s.engine.compile source with
  | error failure => simp [Step.compiled?, hc, Except.isOk, Except.toBool]
  | ok c =>
    by_cases h : other = id
    · simp [Step.compiled?, hc, h, get_keep, Except.isOk, Except.toBool, Except.toOption]
    · simp [Step.compiled?, h, get_keep]

/-- Only a step that compiles with success changes an expression, that of its own id. -/
theorem expressions_step (s : Session) (step : Step) (id : String) :
    (s.step step).1.expressions.get? id =
      match step.compiled? s.engine id with
      | some source => (s.engine.compile source).toOption
      | none => s.expressions.get? id := by
  cases step with
  | compile other source | mustCompile other source => exact expressions_compile other source _ _
  | set | unset | listVariables | replaceEngine | hasFunction => rfl
  | _ =>
    delta Session.step
    dsimp only
    split <;> rfl

/-- The expression under an id comes from the source that was last compiled under it with success. -/
theorem expressions_after (s : Session) (history : List Step) (id : String) :
    (s.after history).expressions.get? id =
      match Step.lastCompiled? id s.engine history with
      | some (e, source) => (e.compile source).toOption
      | none => s.expressions.get? id := by
  -- The rest of the history starts under another engine: the session stays general.
  induction history generalizing s with
  | nil => rfl
  | cons step rest ih =>
    rw [after, ih, engine_step, expressions_step, Step.lastCompiled?]
    cases Step.lastCompiled? id (step.engine s.engine) rest with
    | some last => rfl
    | none => cases step.compiled? s.engine id <;> rfl

section Compiled

variable {e : Engine} {source : String} {c : Compiled}

theorem callsOf_compile (hc : e.compile source = .ok c) :
    s.callsOf e source = s.recorded c := by
  delta callsOf step
  simp only [hc]
  rfl

/-- An expression answers as the source that compiles to it. -/
theorem step_evaluate (hc : e.compile source = .ok c) (hget : s.expressions.get? id = some c) :
    s.step (.evaluate id) =
      (s, .ofValue (e.evaluate source s.bindings), s.callsOf e source) := by
  rw [callsOf_compile hc]
  delta step
  simp only [hget, Engine.evaluate, hc]
  rfl

theorem step_evaluateBool (hc : e.compile source = .ok c)
    (hget : s.expressions.get? id = some c) :
    s.step (.evaluateBool id) =
      (s, .ofBool (e.evaluateBool source s.bindings), s.callsOf e source) := by
  rw [callsOf_compile hc]
  delta step
  simp only [hget, Engine.evaluateBool, hc]
  rfl

theorem step_fold (target : String) (hc : e.compile source = .ok c)
    (hget : s.expressions.get? id = some c) :
    (s.step (.fold id target)).1 =
      s.bind target (Literal.folded (e.evaluate source s.bindings)) := by
  delta step
  simp only [hget, Engine.evaluate, hc]
  rfl

end Compiled

theorem step_once (s : Session) (source : String) :
    s.step (.once source) =
        (s, .ofValue (s.engine.evaluate source s.bindings), s.callsOf s.engine source) ∧
      s.step (.onceBool source) =
        (s, .ofBool (s.engine.evaluateBool source s.bindings), s.callsOf s.engine source) := by
  cases hc : s.engine.compile source
  all_goals
    delta callsOf step
    simp only [hc, Engine.evaluate, Engine.evaluateBool]
    exact ⟨rfl, rfl⟩

/-- A session whose expressions come from what was compiled last does what that tells. -/
theorem follows_of_expressions {last : String → Option (Engine × String)}
    (hcompiles : ∀ {id e source}, last id = some (e, source) → ∃ c, e.compile source = .ok c)
    (hget : ∀ id, s.expressions.get? id =
      (last id).bind fun (e, source) => (e.compile source).toOption) : s.Follows last := by
  have hsome {id e source} (h : last id = some (e, source)) :
      ∃ c, e.compile source = .ok c ∧ s.expressions.get? id = some c := by
    obtain ⟨c, hc⟩ := hcompiles h
    exact ⟨c, hc, by simp [hget, h, hc, Except.toOption]⟩
  have hnone {id} (h : last id = none) : s.expressions.get? id = none := by
    rw [hget, h, Option.bind_none]
  constructor
  case evaluate =>
    intro id e source h
    obtain ⟨c, hc, hid⟩ := hsome h
    exact step_evaluate hc hid
  case evaluateBool =>
    intro id e source h
    obtain ⟨c, hc, hid⟩ := hsome h
    exact step_evaluateBool hc hid
  case unknown =>
    intro id h
    simp [step, hnone h]
  case once => exact s.step_once
  case failed =>
    intro source failure h id
    simp [step, h]
  case replaced => exact fun _ => ⟨rfl, rfl⟩
  case folded =>
    intro id target
    cases h : last id with
    | none => simp [step, hnone h]
    | some compiled =>
      obtain ⟨e, source⟩ := compiled
      obtain ⟨c, hc, hid⟩ := hsome h
      rw [step_fold target hc hid]
      exact ⟨rfl, rfl, (NameMap.get_insert s.bindings target target _).trans (if_pos rfl)⟩
  case kept => exact bindings_step

end Session

namespace Step

theorem compiles_of_compiled {engine : Engine} {id source : String} {step : Step}
    (h : step.compiled? engine id = some source) : ∃ c, engine.compile source = .ok c := by
  cases step with
  | compile other text | mustCompile other text =>
    obtain ⟨⟨-, hok⟩, heq⟩ := Option.ite_none_right_eq_some.mp h
    obtain rfl := Option.some.inj heq
    exact exists_ok hok
  | _ => cases h

/-- What was compiled with success compiles again. -/
theorem compiles_of_last {id source : String} {engine e : Engine} {history : List Step}
    (h : lastCompiled? id engine history = some (e, source)) : ∃ c, e.compile source = .ok c := by
  induction history generalizing engine with
  | nil => cases h
  | cons step rest ih =>
    rw [lastCompiled?, Option.or_eq_some_iff] at h
    rcases h with h | ⟨-, h⟩
    · exact ih h
    · obtain ⟨text, htext, heq⟩ := Option.map_eq_some_iff.mp h
      cases heq
      exact compiles_of_compiled htext

end Step

/-- A session that starts without expressions, after any history: an id stands for the source that was last
compiled under it with success and the engine of that moment, and the history goes on from there. -/
theorem session_follows_history (engine : Engine) (bindings : Bindings) (history : List Step) :
    let start : Session := ⟨engine, bindings, NameMap.empty⟩
    (start.after history).Follows (Step.lastCompiled? · engine history) ∧
      ∀ more, start.steps (history ++ more) =
        start.steps history ++ (start.after history).steps more := by
  intro start
  refine ⟨Session.follows_of_expressions Step.compiles_of_last fun id => ?_,
    start.steps_append history⟩
  rw [Session.expressions_after]
  cases Step.lastCompiled? id start.engine history <;> rfl

/-- The functions of an engine that was replaced, behind a text that does not compile. -/
example : ((⟨Engine.standard, NameMap.empty, NameMap.empty⟩ : Session).steps
    [.compile "a" "max(x, 2)", .replaceEngine {}, .compile "a" "max(x,", .set "x" (.int 3),
      .evaluate "a"]).getLast? = some (.value (.int 3), []) := by
  rfl

end Formula
