import Formula.Function

namespace Formula.Function

def floatArgument (v : Literal) : Except String Binary64 :=
  match v.asFloat with
  | some x => .ok x
  | none => .error "can't convert to float"

def wrongCount {α : Type} (expected given : Nat) : Except String α :=
  .error (if expected < given then "too many arguments" else "too few arguments")

/-- The nearest multiple of a power of ten, ties upwards: the number is scaled, half of one is
added, and the whole part is scaled back, each step rounded on its own. -/
def roundAt (x : Binary64) (places : Int) : Binary64 :=
  let shift := Binary64.pow (Binary64.ofInt 10) places
  let half := Binary64.ofDecimal ⟨false, 5, -1⟩
  Binary64.div (Binary64.floor (Binary64.add half (Binary64.mul x shift))) shift

def roundTo : List Literal → Except String Literal
  | [v, w] =>
    match floatArgument v with
    | .error e => .error e
    | .ok x =>
      match w.asInt with
      | none => .error "can't convert to int"
      | some places =>
        if -2147483648 ≤ places.toInt ∧ places.toInt ≤ 2147483647 then
          let rounded := roundAt x places.toInt
          if rounded.isFinite then .ok (.float rounded) else .error "result out of range"
        else .error "can't convert to int"
  | args => wrongCount 2 args.length

def absolute : List Literal → Except String Literal
  | [v] =>
    match v.asIntOperand.bind fun a => int64? a.toInt.natAbs with
    | some n => .ok (.int n)
    | none => (floatArgument v).map fun x => .float x.abs
  | args => wrongCount 1 args.length

/-- The argument that no later one replaces: an integer if all are integers, else a float. -/
def extreme (replacesInt : Int → Int → Bool) (replacesFloat : Binary64 → Binary64 → Bool) :
    List Literal → Except String Literal
  | [] => wrongCount 1 0
  | v :: vs =>
    match v.asIntOperand, vs.mapM Literal.asIntOperand with
    | some a, some as =>
      .ok (.int (as.foldl (fun best n => if replacesInt n.toInt best.toInt then n else best) a))
    | _, _ =>
      match floatArgument v, vs.mapM floatArgument with
      | .error e, _ | _, .error e => .error e
      | .ok x, .ok xs =>
        .ok (.float (xs.foldl (fun best y => if replacesFloat y best then y else best) x))

def least : List Literal → Except String Literal :=
  extreme (fun a b => a < b) (fun x y => x.below y)

def greatest : List Literal → Except String Literal :=
  extreme (fun a b => b < a) (fun x y => y.below x)

def standardList : List (String × Function) :=
  [("roundto", ⟨roundTo, false⟩), ("abs", ⟨absolute, false⟩), ("min", ⟨least, false⟩),
   ("max", ⟨greatest, false⟩)]

end Formula.Function

namespace Formula

def Registry.standard : Registry := NameMap.ofList Function.standardList

end Formula
