/-
  Calculator/Memory.lean
  ======================
  **The memory of a session** (`State`): constants that never change, and variables
  in the order in which they were first assigned.  Assigning a variable again
  keeps its place.  A constant's name is never a variable's.
-/
import Calculator.Number.Elementary
import Calculator.Number.Text
import Calculator.Text.Quoted

namespace Calculator

/-- The constants, by name (`CONSTANTS`). -/
def constants : List (String × Binary64) := [
  ("E", .euler),
  ("PI", .pi),
  ("TAU", .tau)]

/-- The value of a constant. -/
def constant? (name : String) : Option Binary64 := constants.lookup name

/-- The variables of a session, in the order of their first assignments. -/
structure Memory where
  bindings : List (String × Binary64)
  deriving DecidableEq, Repr

namespace Memory

/-- The memory without variables. -/
def empty : Memory := ⟨[]⟩

/-- The value of a name: a constant's, or else a variable's (`value_of`, `lookup`). -/
def get? (m : Memory) (name : String) : Option Binary64 :=
  (constant? name).or (m.bindings.lookup name)

/-- Whether a name has a value (`__contains__`). -/
def contains (m : Memory) (name : String) : Bool := (m.get? name).isSome

/-- Replaces the value of a name in its place, or puts the name at the end. -/
def put (name : String) (value : Binary64) : List (String × Binary64) → List (String × Binary64)
  | [] => [(name, value)]
  | (n, v) :: rest => if n = name then (n, value) :: rest else (n, v) :: put name value rest

/-- The memory after an assignment (`assign`); `none` for a constant, which cannot be assigned. -/
def assign? (m : Memory) (name : String) (value : Binary64) : Option Memory :=
  if (constant? name).isSome then none else some ⟨put name value m.bindings⟩

/-- The memory in messages (`__repr__`): its variables with the debug texts of their values. -/
def debugText (m : Memory) : String :=
  let entries := m.bindings.map fun (name, value) => quoted name ++ ": " ++ value.debugText
  "State(variables=\x7b" ++ ", ".intercalate entries ++ "\x7d)"

end Memory

end Calculator
