import Formula.Literal
import Formula.Unicode.Alphabetic
import Formula.Unicode.Blank

namespace Formula

inductive AssignmentError
  | missingEquals (text : String)
  | invalidName (name : String)
deriving DecidableEq

def AssignmentError.message : AssignmentError → String
  | missingEquals text => "invalid variable `" ++ text ++ "`: expected NAME=VALUE"
  | invalidName name => "invalid variable name `" ++ name ++ "`"

def AssignmentError.help : AssignmentError → String
  | missingEquals _ => "pass variables as --var name=value"
  | invalidName _ => "names start with a letter or `_` and contain only letters, digits and `_`"

namespace Assignment

def isName : List Char → Bool
  | [] => false
  | c :: cs =>
    (Unicode.isAlphabetic c || c = '_') && cs.all fun d => Unicode.isAlphanumeric d || d = '_'

def valueOf (text : String) : Literal :=
  if text = "true" then .bool true else if text = "false" then .bool false else .str text

def read (text : String) : Except AssignmentError (String × Literal) :=
  let cs := text.toList
  match cs.dropWhile (· ≠ '=') with
  | [] => .error (.missingEquals text)
  | _ :: value =>
    let name := Unicode.trim (cs.takeWhile (· ≠ '='))
    if isName name then .ok (String.ofList name, valueOf (String.ofList value))
    else .error (.invalidName (String.ofList name))

end Assignment

end Formula
