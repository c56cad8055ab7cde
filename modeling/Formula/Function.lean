import Formula.Literal
import Formula.NameMap

namespace Formula

/-- A function: from its arguments it makes a value or the text of an error. The calls of a recorded
one are reported. -/
structure Function where
  call : List Literal → Except String Literal
  recorded : Bool := false

abbrev Registry := NameMap Function

namespace Function

def constant (v : Literal) : Function := ⟨fun _ => .ok v, false⟩

def failing (message : String) : Function := ⟨fun _ => .error message, false⟩

def count : Function := ⟨fun args => .ok (.int (Int64.ofNat args.length)), false⟩

def argument (n : Nat) : Function :=
  ⟨fun args => match args[n]? with
    | some v => .ok v
    | none => .error "missing argument", false⟩

def probe : Function :=
  ⟨fun args => match args.getLast? with
    | some v => .ok v
    | none => .error "missing argument", true⟩

end Function

end Formula
