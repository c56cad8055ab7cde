import Formula.Literal
import Formula.Span

namespace Formula

inductive FailureKind
  | malformed
  | invalidOperator (operator : String)
  | invalidCompositeType
  | invalidIndex
  | typeNotIndexable
  | unknownVariable (name : String)
  | unknownFunction (name : String)
  | functionFailed (name cause : String)
  | divisionByZero
  | incompatibleTypes
  | outOfRange
  | propagated (cause : String)
deriving DecidableEq

def FailureKind.message : FailureKind → String
  | malformed => "syntax error"
  | invalidOperator operator => "invalid operator: " ++ operator
  | invalidCompositeType => "invalid composite type"
  | invalidIndex => "invalid index"
  | typeNotIndexable => "type not indexable"
  | unknownVariable name => "variable doesn't exist: " ++ name
  | unknownFunction name => "function doesn't exist: " ++ name
  | functionFailed name cause => "function: " ++ name ++ ", returned error: " ++ cause
  | divisionByZero => "divide by zero"
  | incompatibleTypes => "incompatible types in expression"
  | outOfRange => "underflow/overflow"
  | propagated cause => cause

structure Flaw where
  kind : FailureKind
  span : Span
  detail : Option String := none
deriving DecidableEq

structure Failure where
  source : String
  kind : FailureKind
  span : Option Span := none
  detail : Option String := none
deriving DecidableEq

def Flaw.inSource (source : String) (f : Flaw) : Failure := ⟨source, f.kind, some f.span, f.detail⟩

def Flaw.malformed (span : Span) (detail : String) : Flaw := ⟨.malformed, span, some detail⟩

namespace Failure

def message (f : Failure) : String :=
  "invalid expression: " ++ f.source ++ " (" ++ f.kind.message ++ ")"

def causes (f : Failure) : List String :=
  match f.kind with
  | .functionFailed _ cause => [f.kind.message, cause]
  | _ => [f.kind.message]

def toLiteral (f : Failure) : Literal := .err f.message

end Failure

end Formula
