/-
  Calculator/Proofs/Expr/NormalForm.lean
  ======================================
  **The normal form of a tree**: the tree that its canonical text spells.  A
  unary plus is gone, every operation and every assignment has parentheses of its
  own and never two pairs of them, and a number is written without a sign, so
  that a negative one is the opposite of a positive one.  The numbers that are
  not finite are written as names.

  A tree and its normal form have one text.  The normal form is well formed and
  stands wherever an operand may stand, because only parentheses are wrapped
  around what binds more loosely than a sign.  As long as the tree has finite
  numbers only, the normal form also has the same meaning: a literal that comes
  back as the opposite of its absolute value comes to the same number, and the
  message of a call that no function answers shows the same text.
-/
import Calculator.Expr.Meaning
import Calculator.Expr.Text
import Calculator.Proofs.Expr.Grammar
import Calculator.Proofs.Number.ReadBack

namespace Calculator

namespace Expr

/-! ### Names and numbers of a tree -/

mutual

/-- The names in an expression: of identifiers, of functions and of targets. -/
def names : Expr → List String
  | .number _ => []
  | .identifier name => [name]
  | .group body => body.names
  | .unary _ operand => operand.names
  | .binary _ left right => left.names ++ right.names
  | .call name args => name :: allNames args
  | .assign _ target value => target :: value.names

def allNames : List Expr → List String
  | [] => []
  | e :: rest => e.names ++ allNames rest

end

mutual

/-- The numbers in an expression. -/
def numbers : Expr → List Binary64
  | .number value => [value]
  | .identifier _ => []
  | .group body => body.numbers
  | .unary _ operand => operand.numbers
  | .binary _ left right => left.numbers ++ right.numbers
  | .call _ args => allNumbers args
  | .assign _ _ value => value.numbers

def allNumbers : List Expr → List Binary64
  | [] => []
  | e :: rest => e.numbers ++ allNumbers rest

end

theorem mem_allNames {name : String} {es : List Expr} :
    name ∈ allNames es ↔ ∃ e ∈ es, name ∈ e.names := by
  induction es with
  | nil => simp [allNames]
  | cons e rest ih => simp [allNames, ih]

theorem mem_allNumbers {x : Binary64} {es : List Expr} :
    x ∈ allNumbers es ↔ ∃ e ∈ es, x ∈ e.numbers := by
  induction es with
  | nil => simp [allNumbers]
  | cons e rest ih => simp [allNumbers, ih]

theorem names_of_mem_children {c e : Expr} (h : c ∈ e.children) {name : String}
    (hname : name ∈ c.names) : name ∈ e.names := by
  cases e with
  | call f args => exact List.mem_cons_of_mem _ (mem_allNames.mpr ⟨c, h, hname⟩)
  | binary op left right =>
    simp only [children, List.mem_cons, List.not_mem_nil, or_false] at h
    rcases h with rfl | rfl
    · exact List.mem_append_left _ hname
    · exact List.mem_append_right _ hname
  | _ => simp_all [children, names]

theorem numbers_of_mem_children {c e : Expr} (h : c ∈ e.children) {x : Binary64}
    (hx : x ∈ c.numbers) : x ∈ e.numbers := by
  cases e with
  | call f args => exact mem_allNumbers.mpr ⟨c, h, hx⟩
  | binary op left right =>
    simp only [children, List.mem_cons, List.not_mem_nil, or_false] at h
    rcases h with rfl | rfl
    · exact List.mem_append_left _ hx
    · exact List.mem_append_right _ hx
  | _ => simp_all [children, numbers]

/-! ### Normal forms -/

/-- The normal form of a number: a name, or a number without a sign, or the opposite of one of
these. -/
def numberNormalForm : Binary64 → Expr
  | .nan => .identifier "NaN"
  | .inf false => .identifier "inf"
  | .inf true => .unary .minus (.identifier "inf")
  | .finite false m => .number (.finite false m)
  | .finite true m => .unary .minus (.number (.finite false m))

mutual

/-- The normal form of an expression. -/
def normalForm : Expr → Expr
  | .number value => numberNormalForm value
  | .identifier name => .identifier name
  | .group body => if body.isParenthesized then body.normalForm else .group body.normalForm
  | .unary .plus operand => operand.normalForm
  | .unary .minus operand => .unary .minus operand.normalForm
  | .binary op left right => .group (.binary op left.normalForm right.normalForm)
  | .call name args => .call name (normalForms args)
  | .assign op target value => .group (.assign op target value.normalForm)

def normalForms : List Expr → List Expr
  | [] => []
  | e :: rest => e.normalForm :: normalForms rest

end

/-- The normal form of a number is an operand without parentheses. -/
theorem numberNormalForm_operand (value : Binary64) :
    (numberNormalForm value).isWellFormed = true ∧ (numberNormalForm value).level = .unary ∧
      (numberNormalForm value).isParenthesized = false := by
  cases value with
  | nan => exact ⟨rfl, rfl, rfl⟩
  | inf s => cases s <;> exact ⟨rfl, rfl, rfl⟩
  | finite s m => cases s <;> exact ⟨rfl, rfl, rfl⟩

theorem normalForms_eq_map (es : List Expr) : normalForms es = es.map normalForm := by
  induction es with
  | nil => rfl
  | cons e rest ih => rw [normalForms, ih, List.map_cons]

@[simp] theorem length_normalForms (es : List Expr) : (normalForms es).length = es.length := by
  rw [normalForms_eq_map, List.length_map]

/-! ### The normal form is well formed -/

/-- A normal form may stand wherever an operand may stand. -/
theorem level_normalForm (e : Expr) : e.normalForm.level = .unary := by
  induction e using of_children with
  | step e ih =>
    cases e with
    | number value => exact (numberNormalForm_operand value).2.1
    | identifier name => rfl
    | group body =>
      rw [normalForm]
      split
      · exact ih body (by simp [children])
      · rfl
    | unary op operand =>
      cases op with
      | plus => exact ih operand (by simp [children])
      | minus => rfl
    | binary op left right => rfl
    | call name args => rfl
    | assign op target value => rfl

theorem isWellFormed_normalForm (e : Expr) : e.normalForm.isWellFormed = true := by
  induction e using of_children with
  | step e ih =>
    cases e with
    | number value => exact (numberNormalForm_operand value).1
    | identifier name => rfl
    | group body =>
      have hbody := ih body (by simp [children])
      rw [normalForm]
      split
      · exact hbody
      · exact hbody
    | unary op operand =>
      have hoperand := ih operand (by simp [children])
      cases op with
      | plus => exact hoperand
      | minus =>
        simp only [normalForm, isWellFormed, hoperand, level_normalForm, Bool.true_and]
        rfl
    | binary op left right =>
      have hleft := ih left (by simp [children])
      have hright := ih right (by simp [children])
      simp [normalForm, isWellFormed, hleft, hright, level_normalForm, Level.le_unary]
    | call name args =>
      refine (areWellFormed_iff _).mpr ?_
      intro d hd
      rw [normalForms_eq_map, List.mem_map] at hd
      obtain ⟨c, hc, rfl⟩ := hd
      exact ih c hc
    | assign op target value => exact ih value (by simp [children])

/-! ### The normal form has the text of the tree -/

theorem isParenthesized_normalForm (e : Expr) :
    e.normalForm.isParenthesized = e.isParenthesized := by
  induction e using of_children with
  | step e ih =>
    cases e with
    | number value => exact (numberNormalForm_operand value).2.2
    | identifier name => rfl
    | group body =>
      rw [normalForm]
      split
      · next hbody => rw [ih body (by simp [children]), hbody, isParenthesized]
      · rfl
    | unary op operand =>
      cases op with
      | plus => exact ih operand (by simp [children])
      | minus => rfl
    | binary op left right => rfl
    | call name args => rfl
    | assign op target value => rfl

/-- A minus is set apart only from a text that starts with a minus. -/
theorem negated_of_ne {text : String} (h : text.front? ≠ some '-') :
    negated text = "-" ++ text := if_neg h

/-- A negative number is written as the opposite of its absolute value is. -/
theorem numberText_negative (m : Magnitude) :
    (Binary64.finite true m).numberText = negated (Binary64.finite false m).numberText := by
  have hfront : (signed false m.numberText).front? ≠ some '-' := by
    obtain ⟨c, rest, htext, hdigit⟩ := m.writes_numberText.starts
    simp only [String.front?_eq, signed, htext, Bool.false_eq_true, if_false,
      String.toList_ofList, List.head?_cons, ne_eq, Option.some.injEq]
    rintro rfl
    simp at hdigit
  refine Eq.trans ?_ (negated_of_ne hfront).symm
  refine String.toList_inj.mp ?_
  simp [signed, Binary64.numberText]

theorem text_numberNormalForm (value : Binary64) :
    (numberNormalForm value).text = value.numberText := by
  rcases value with _ | s | ⟨s, m⟩
  · rfl
  · cases s <;> rfl
  · cases s with
    | false => rfl
    | true => exact (numberText_negative m).symm

theorem texts_normalForms {es : List Expr} (h : ∀ e ∈ es, e.normalForm.text = e.text) :
    texts (normalForms es) = texts es := by
  induction es with
  | nil => rfl
  | cons e rest ih =>
    have hfirst := h e List.mem_cons_self
    have hrest := ih fun d hd => h d (List.mem_cons_of_mem e hd)
    rw [normalForms, texts_cons, texts_cons, hfirst, hrest]

/-- A tree and its normal form have one text. -/
theorem text_normalForm (e : Expr) : e.normalForm.text = e.text := by
  induction e using of_children with
  | step e ih =>
    cases e with
    | number value => exact text_numberNormalForm value
    | identifier name => rfl
    | group body =>
      have hbody := ih body (by simp [children])
      have hparenthesized := isParenthesized_normalForm body
      rw [normalForm]
      split
      · next h => simp [text, nodeText, h, hbody]
      · next h => simp [text, nodeText, hparenthesized, h, hbody]
    | unary op operand =>
      have hoperand := ih operand (by simp [children])
      cases op with
      | plus => exact hoperand
      | minus => simp [normalForm, text, nodeText, hoperand]
    | binary op left right =>
      have hleft := ih left (by simp [children])
      have hright := ih right (by simp [children])
      simp [normalForm, text, nodeText, isParenthesized, hleft, hright]
    | call name args =>
      have hargs := texts_normalForms ih
      simp only [children] at hargs
      simp [normalForm, text, nodeText, hargs]
    | assign op target value =>
      have hvalue := ih value (by simp [children])
      simp [normalForm, text, nodeText, isParenthesized, hvalue]

theorem render_normalForm (e : Expr) : e.normalForm.render = e.render := by
  rw [render_eq_text, render_eq_text, text_normalForm]

/-! ### The normal form has the meaning of the tree -/

theorem bind_value {α : Type} (x : Evaluation α) : x.bind .value = x := by
  obtain ⟨outcome, memory, writes⟩ := x
  cases outcome with
  | error why => rfl
  | ok a => simp [Evaluation.bind, Evaluation.value]

theorem meanings_normalForms {es : List Expr}
    (h : ∀ e ∈ es, ∀ m, meaning e.normalForm m = meaning e m) (m : Memory) :
    meanings (normalForms es) m = meanings es m := by
  induction es generalizing m with
  | nil => rfl
  | cons e rest ih =>
    have hfirst := h e List.mem_cons_self
    have hrest := ih fun d hd => h d (List.mem_cons_of_mem e hd)
    simp only [normalForms, meanings, hfirst, hrest]

theorem meaning_numberNormalForm {value : Binary64} (h : value.isFinite = true) (m : Memory) :
    meaning (numberNormalForm value) m = .value value m := by
  rcases value with _ | s | ⟨s, mag⟩
  · simp [Binary64.isFinite] at h
  · simp [Binary64.isFinite] at h
  · cases s <;> rfl

/-- A tree of finite numbers and its normal form have one meaning. -/
theorem meaning_normalForm (e : Expr) (h : ∀ x ∈ e.numbers, x.isFinite = true) (m : Memory) :
    meaning e.normalForm m = meaning e m := by
  induction e using of_children generalizing m with
  | step e ih =>
    have hchildren : ∀ c ∈ e.children, ∀ m, meaning c.normalForm m = meaning c m := by
      intro c hc
      refine ih c hc ?_
      intro x hx
      exact h x (numbers_of_mem_children hc hx)
    cases e with
    | number value => exact meaning_numberNormalForm (h value (by simp [numbers])) m
    | identifier name => rfl
    | group body =>
      have hbody := hchildren body (by simp [children])
      rw [normalForm]
      split
      · exact hbody m
      · exact hbody m
    | unary op operand =>
      have hoperand := hchildren operand (by simp [children])
      cases op with
      | plus =>
        rw [normalForm, hoperand, meaning]
        exact (bind_value _).symm
      | minus => simp only [normalForm, meaning, hoperand]
    | binary op left right =>
      have hleft := hchildren left (by simp [children])
      have hright := hchildren right (by simp [children])
      simp only [normalForm, meaning, hleft, hright]
    | call name args =>
      have hargs := meanings_normalForms hchildren m
      have hrender := render_normalForm (.call name args)
      simp only [children] at hargs
      simp only [normalForm] at hrender
      simp only [normalForm, meaning, hargs, length_normalForms, hrender]
    | assign op target value =>
      have hvalue := hchildren value (by simp [children])
      simp only [normalForm, meaning, hvalue]

end Expr

end Calculator
