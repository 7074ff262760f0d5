/-
  Calculator/Function.lean
  ========================
  **The function library** (`BUILTINS`).  A function is found by its name and its
  number of arguments (`lookup`); a name with another number of arguments is no
  function.  Angles
  are in radians.

  The functions below the primitive ones are composed of them, and every step
  of a composition is rounded.
-/
import Calculator.Number.Power

namespace Calculator

/-! ### Composed functions -/

namespace Binary64

/-- The secant (`_sec`). -/
def sec (x : Binary64) : Binary64 := recip (cos x)

/-- The cosecant (`_csc`). -/
def csc (x : Binary64) : Binary64 := recip (sin x)

/-- The cotangent (`_cot`). -/
def cot (x : Binary64) : Binary64 := recip (tan x)

/-- The inverse secant (`_asec`). -/
def asec (x : Binary64) : Binary64 := acos (recip x)

/-- The inverse cosecant (`_acsc`). -/
def acsc (x : Binary64) : Binary64 := asin (recip x)

/-- The number two. -/
def two : Binary64 := ofWhole false 2

/-- The number one half. -/
def half : Binary64 := recip two

/-- The inverse cotangent, from zero to a half turn (`_acot`). -/
def acot (x : Binary64) : Binary64 := sub (div pi two) (atan x)

/-- The hyperbolic secant (`_sech`). -/
def sech (x : Binary64) : Binary64 := recip (cosh x)

/-- The hyperbolic cosecant (`_csch`). -/
def csch (x : Binary64) : Binary64 := recip (sinh x)

/-- The hyperbolic cotangent (`_coth`). -/
def coth (x : Binary64) : Binary64 := recip (tanh x)

/-- The reciprocal of the square. -/
def recipSquare (x : Binary64) : Binary64 := pow x two.negate

/-- The inverse hyperbolic secant: `ln (1/x + √(1/x² - 1))` (`_asech`). -/
def asech (x : Binary64) : Binary64 :=
  ln (add (recip x) (sqrt (sub (recipSquare x) (one false))))

/-- The inverse hyperbolic cosecant: `ln (1/x + √(1/x² + 1))` (`_acsch`). -/
def acsch (x : Binary64) : Binary64 :=
  ln (add (recip x) (sqrt (add (recipSquare x) (one false))))

/-- The inverse hyperbolic cotangent: `ln (1 + 2/(x - 1)) / 2` (`_acoth`). -/
def acoth (x : Binary64) : Binary64 := mul half (log1p (div two (sub x (one false))))

end Binary64

/-! ### The table -/

/-- A function of the library. -/
inductive Function where
  | unary (apply : Binary64 → Binary64)
  | binary (apply : Binary64 → Binary64 → Binary64)

namespace Function

/-- The number of arguments. -/
def arity : Function → Nat
  | unary _ => 1
  | binary _ => 2

/-- The value at a list of arguments.  It is a NaN at a list of another length than the
function's number of arguments, which no call in an expression has. -/
def apply : Function → List Binary64 → Binary64
  | unary f, [x] => f x
  | binary f, [x, y] => f x y
  | _, _ => .nan

open Binary64 in
/-- The functions of the library by name (`_UNARY`, `BUILTINS`). -/
def table : List (String × Function) := [
  ("exp", unary exp),
  ("sqrt", unary sqrt),
  ("cbrt", unary cbrt),
  ("abs", unary abs),
  ("floor", unary floor),
  ("ceil", unary ceil),
  ("round", unary round),
  ("ln", unary ln),
  ("log2", unary log2),
  ("log10", unary log10),
  ("sin", unary sin),
  ("cos", unary cos),
  ("tan", unary tan),
  ("asin", unary asin),
  ("acos", unary acos),
  ("atan", unary atan),
  ("sec", unary sec),
  ("csc", unary csc),
  ("cot", unary cot),
  ("asec", unary asec),
  ("acsc", unary acsc),
  ("acot", unary acot),
  ("sinh", unary sinh),
  ("cosh", unary cosh),
  ("tanh", unary tanh),
  ("asinh", unary asinh),
  ("acosh", unary acosh),
  ("atanh", unary atanh),
  ("sech", unary sech),
  ("csch", unary csch),
  ("coth", unary coth),
  ("asech", unary asech),
  ("acsch", unary acsch),
  ("acoth", unary acoth),
  ("log", binary log)]

/-- The function with a given name and number of arguments (`lookup`). -/
def find? (name : String) (arity : Nat) : Option Function :=
  (table.find? fun entry => entry.1 = name && entry.2.arity = arity).map Prod.snd

/-- The names and numbers of arguments of the library, sorted by name. -/
def signatures : List (String × Nat) :=
  (table.map fun entry => (entry.1, entry.2.arity)).mergeSort fun a b => a.1 ≤ b.1

end Function

end Calculator
