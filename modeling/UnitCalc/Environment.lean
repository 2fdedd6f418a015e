import UnitCalc.Bindings
import UnitCalc.Builtin
import UnitCalc.Expr

/-!
# Environments

What a session remembers: its variables and the functions declared in it. Constants and builtin functions
are the same in every session and cannot be changed.

A call is evaluated in an environment of its own, whose variables are the parameters. The scopes around
it, from the caller's to the session's, can be read but not written, and are passed along beside it.
-/

namespace UnitCalc

/-- The value of a constant. -/
def constant? : String → Option Value
  | "pi" => some (.real 3.141592653589793)
  | "e" => some (.real 2.718281828459045)
  | "true" => some (.truth true)
  | "false" => some (.truth false)
  | _ => none

def isConstant (name : String) : Bool := (constant? name).isSome

/-- A declared function. -/
structure Function where
  name : String
  params : List String
  body : Expr

/-- The variables of one call, or of the session. -/
abbrev Scope := Bindings Value

structure Environment where
  scope : Scope := .empty
  functions : Bindings Function := .empty

namespace Environment

/-- The innermost binding of a variable. -/
def binding? (env : Environment) (outer : List Scope) (name : String) : Option Value :=
  (env.scope :: outer).findSome? fun s => s.get? name

/-- What a name stands for. No variable hides a constant. -/
def lookup? (env : Environment) (outer : List Scope) (name : String) : Option Value :=
  (constant? name).or (env.binding? outer name)

/-- Binds a variable in the innermost scope. -/
def assign (env : Environment) (name : String) (value : Value) : Except EvalError Environment :=
  if isConstant name then .error (.constantAssigned name)
  else .ok { env with scope := env.scope.set name value }

/-- Stores a function under its name, in place of one that has it already. -/
def declare (env : Environment) (f : Function) : Except EvalError Environment :=
  if isConstant f.name then .error (.constantDeclared f.name)
  else .ok { env with functions := env.functions.set f.name f }

end Environment

end UnitCalc
