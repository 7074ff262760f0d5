/-
  Calculator/Proofs/Expr/Scope.lean
  =================================
  **Names decide whether an expression has a value.**  A check walks through an
  expression in the order of its evaluation and looks at names only: at the
  names that are bound, at the targets of assignments, and at the functions that
  are called with so many arguments.  It knows no values.

  An evaluation fails exactly where the check fails, and it binds the names that
  the check binds.  No value of a variable, not even an infinity or a NaN, makes
  a difference.  The induction carries a scope along with the memory: the scope
  has the names that the memory has, in the same order.
-/
import Calculator.Expr.Meaning
import Calculator.Proofs.Memory

namespace Calculator

/-! ### Scopes -/

/-- The names that are bound at some point of an expression: those that were bound before it,
and those that it has added, in order. -/
structure Scope where
  before : String → Bool
  added : List String

/-- What a check of names comes to: the first error, and the scope that it has reached. -/
structure Verdict where
  error? : Option EvalError
  scope : Scope

namespace Scope

def binds (s : Scope) (name : String) : Bool := s.before name || s.added.contains name

def bind (s : Scope) (name : String) : Scope :=
  if s.binds name then s else ⟨s.before, s.added ++ [name]⟩

def read (s : Scope) (name : String) : Verdict :=
  if s.binds name then ⟨none, s⟩ else ⟨some (.unbound name), s⟩

def write (s : Scope) (name : String) : Verdict :=
  if (constant? name).isSome then ⟨some (.constantTarget name), s⟩ else ⟨none, s.bind name⟩

end Scope

/-- One check and then another one in the scope after it, unless the first one fails. -/
def Verdict.andThen (v : Verdict) (next : Scope → Verdict) : Verdict :=
  match v.error? with
  | none => next v.scope
  | some _ => v

/-- A scope with the names of a memory: those that it has added are the memory's last
variables, after those of an earlier memory. -/
structure Scope.Describes (s : Scope) (first m : Memory) : Prop where
  binds : ∀ name, m.contains name = s.binds name
  order : m.variableNames = first.variableNames ++ s.added

/-- The error of an evaluation that has no value. -/
def Evaluation.error? {α : Type} (x : Evaluation α) : Option EvalError :=
  match x.outcome with
  | .ok _ => none
  | .error why => some why

/-- A check comes to the error of an evaluation, and to the names of the memory after it. -/
structure Verdict.Foretells {α : Type} (v : Verdict) (first : Memory) (x : Evaluation α) :
    Prop where
  error : x.error? = v.error?
  describes : v.scope.Describes first x.memory

namespace Expr

/-! ### The check -/

mutual

/-- Checks the names of an expression in the order of its evaluation. -/
def check : Expr → Scope → Verdict
  | .number _, s => ⟨none, s⟩
  | .identifier name, s => s.read name
  | .group body, s => check body s
  | .unary _ operand, s => check operand s
  | .binary _ left right, s => (check left s).andThen fun s => check right s
  | .call name args, s =>
    if (Function.find? name args.length).isSome then checkAll args s
    else ⟨some (.unknownCall (render (.call name args))), s⟩
  | .assign op target value, s =>
    let assigned := fun s => (check value s).andThen fun s => s.write target
    if op.combines?.isSome then (s.read target).andThen assigned else assigned s

def checkAll : List Expr → Scope → Verdict
  | [], s => ⟨none, s⟩
  | e :: rest, s => (check e s).andThen fun s => checkAll rest s

end

/-! ### Names decide -/

section Foretelling

variable {α β : Type} {s : Scope} {first m : Memory}

theorem foretells_value (h : s.Describes first m) (a : α) :
    Verdict.Foretells ⟨none, s⟩ first (Evaluation.value a m) :=
  ⟨rfl, h⟩

theorem foretells_failure (h : s.Describes first m) (why : EvalError) :
    Verdict.Foretells ⟨some why, s⟩ first (Evaluation.failure why m : Evaluation α) :=
  ⟨rfl, h⟩

/-- The second check is made in the scope after the first one, whatever the value is with which
the second evaluation goes on. -/
theorem foretells_bind {v : Verdict} {x : Evaluation α} (hx : v.Foretells first x)
    {after : Scope → Verdict} {next : α → Memory → Evaluation β}
    (hnext : ∀ a n t, t.Describes first n → (after t).Foretells first (next a n)) :
    (v.andThen after).Foretells first (x.bind next) := by
  have herror := hx.error
  cases houtcome : x.outcome with
  | ok a =>
    have hv : v.error? = none := by
      rw [← herror, Evaluation.error?, houtcome]
    have hy := hnext a x.memory v.scope hx.describes
    rw [Verdict.andThen, hv]
    refine ⟨?_, ?_⟩
    · rw [← hy.error]
      simp only [Evaluation.error?, Evaluation.bind, houtcome]
    · have hmemory : (x.bind next).memory = (next a x.memory).memory := by
        simp only [Evaluation.bind, houtcome]
      rw [hmemory]
      exact hy.describes
  | error why =>
    have hv : v.error? = some why := by
      rw [← herror, Evaluation.error?, houtcome]
    rw [Verdict.andThen, hv]
    refine ⟨?_, ?_⟩
    · rw [hv]
      simp only [Evaluation.error?, Evaluation.bind, houtcome]
    · have hmemory : (x.bind next).memory = x.memory := by
        simp only [Evaluation.bind, houtcome]
      rw [hmemory]
      exact hx.describes

theorem foretells_map {v : Verdict} {x : Evaluation α} (hx : v.Foretells first x) (f : α → β) :
    v.Foretells first (x.bind fun a => .value (f a)) := by
  have hbind : (v.andThen fun t => ⟨none, t⟩).Foretells first (x.bind fun a => .value (f a)) :=
    foretells_bind hx fun a n t ht => foretells_value ht (f a)
  have hv : v.andThen (fun t => ⟨none, t⟩) = v := by
    obtain ⟨error, scope⟩ := v
    cases error with
    | none => rfl
    | some why => rfl
  rwa [hv] at hbind

theorem get?_of_describes (h : s.Describes first m) (name : String) :
    (∃ value, m.get? name = some value ∧ s.read name = ⟨none, s⟩) ∨
      (m.get? name = none ∧ s.read name = ⟨some (.unbound name), s⟩) := by
  have hbinds : (m.get? name).isSome = s.binds name := h.binds name
  cases hget : m.get? name with
  | some value =>
    rw [hget] at hbinds
    exact Or.inl ⟨value, rfl, if_pos hbinds.symm⟩
  | none =>
    rw [hget] at hbinds
    exact Or.inr ⟨rfl, if_neg (by simp [← hbinds])⟩

/-- A write binds its name, at the end of the names if it was not bound. -/
theorem describes_bind (h : s.Describes first m) {target : String}
    (hvariable : (constant? target).isSome = false) (value : Binary64) :
    (s.bind target).Describes first ⟨Memory.put target value m.bindings⟩ := by
  have hbinds : s.binds target = true ↔ target ∈ m.variableNames := by
    rw [← h.binds, Memory.contains_iff, hvariable]
    simp
  have hvariables : (Memory.mk (Memory.put target value m.bindings)).variableNames =
      if target ∈ m.variableNames then m.variableNames else m.variableNames ++ [target] :=
    Memory.map_fst_put target value m.bindings
  by_cases hmem : target ∈ m.variableNames
  · have hbound : s.bind target = s := if_pos (hbinds.mpr hmem)
    rw [if_pos hmem] at hvariables
    rw [hbound]
    constructor
    · intro name
      rw [← h.binds, Bool.eq_iff_iff, Memory.contains_iff, Memory.contains_iff, hvariables]
    · rw [hvariables, h.order]
  · have hadded : s.bind target = ⟨s.before, s.added ++ [target]⟩ :=
      if_neg (fun hbound => hmem (hbinds.mp hbound))
    rw [if_neg hmem] at hvariables
    rw [hadded]
    constructor
    · intro name
      have hname : (Scope.mk s.before (s.added ++ [target])).binds name =
          (s.binds name || decide (name = target)) := by
        simp [Scope.binds, Bool.or_assoc]
      rw [hname, ← h.binds, Bool.eq_iff_iff, Bool.or_eq_true, Memory.contains_iff,
        Memory.contains_iff, hvariables, List.mem_append, List.mem_singleton, decide_eq_true_iff,
        or_assoc]
    · rw [hvariables, h.order, List.append_assoc]

theorem foretells_write (h : s.Describes first m) (target : String) (value : Binary64) :
    (s.write target).Foretells first (.write target value m) := by
  cases hconstant : (constant? target).isSome with
  | true =>
    rw [Scope.write, if_pos hconstant, Evaluation.write, Memory.assign?_constant hconstant]
    exact foretells_failure h _
  | false =>
    rw [Scope.write, if_neg (by simp [hconstant]), Evaluation.write,
      Memory.assign?_variable hconstant]
    exact ⟨rfl, describes_bind h hconstant value⟩

theorem foretells_checkAll {es : List Expr}
    (each : ∀ e ∈ es, ∀ {s : Scope} {m : Memory}, s.Describes first m →
      (check e s).Foretells first (meaning e m))
    (h : s.Describes first m) : (checkAll es s).Foretells first (meanings es m) := by
  induction es generalizing s m with
  | nil => exact foretells_value h []
  | cons e rest ih =>
    have others : ∀ {t : Scope} {n : Memory}, t.Describes first n →
        (checkAll rest t).Foretells first (meanings rest n) :=
      fun ht => ih (fun d hd _ _ => each d (List.mem_cons_of_mem e hd)) ht
    rw [checkAll, meanings]
    exact foretells_bind (each e List.mem_cons_self h) fun a n t ht =>
      foretells_map (others ht) (a :: ·)

/-- The check of an expression foretells its evaluation in every memory with these names. -/
theorem foretells_check (e : Expr) (h : s.Describes first m) :
    (check e s).Foretells first (meaning e m) := by
  induction e using of_children generalizing s m with
  | step e ih =>
    cases e with
    | number value => exact foretells_value h value
    | identifier name =>
      rw [check, meaning]
      rcases get?_of_describes h name with ⟨value, hget, hread⟩ | ⟨hget, hread⟩
      · rw [hget, hread]
        exact foretells_value h value
      · rw [hget, hread]
        exact foretells_failure h _
    | group body =>
      rw [check, meaning]
      exact ih body (by simp [children]) h
    | unary op operand =>
      rw [check, meaning]
      exact foretells_map (ih operand (by simp [children]) h) op.apply
    | binary op left right =>
      rw [check, meaning]
      exact foretells_bind (ih left (by simp [children]) h) fun a n t ht =>
        foretells_map (ih right (by simp [children]) ht) (op.apply a)
    | call name args =>
      rw [check, meaning]
      cases hknown : Function.find? name args.length with
      | none =>
        rw [if_neg (by simp)]
        exact foretells_failure h _
      | some f =>
        rw [if_pos (by simp)]
        have hargs : (checkAll args s).Foretells first (meanings args m) :=
          foretells_checkAll (fun d hd _ _ => ih d (by simpa [children] using hd)) h
        exact foretells_map hargs f.apply
    | assign op target value =>
      have hvalue := @ih value (by simp [children])
      rw [check, meaning]
      cases hop : op.combines? with
      | none =>
        exact foretells_bind (hvalue h) fun v n t ht => foretells_write ht target v
      | some o =>
        -- The target is read before the value is evaluated, in the scope before both.
        rcases get?_of_describes h target with ⟨current, hget, hread⟩ | ⟨hget, hread⟩
        · simp only [Option.isSome_some, if_true, hread, Verdict.andThen, hget]
          exact foretells_bind (hvalue h) fun v n t ht =>
            foretells_write ht target (o.apply current v)
        · simp only [Option.isSome_some, if_true, hread, Verdict.andThen, hget]
          exact foretells_failure h _

end Foretelling

/-! ### Expressions that never have a value -/

/-- An expression occurs in another one, or is that expression. -/
inductive Within (d : Expr) : Expr → Prop where
  | self : Within d d
  | operand {c e : Expr} (hc : c ∈ e.children) (h : Within d c) : Within d e

theorem andThen_error?_eq_none {v : Verdict} {next : Scope → Verdict}
    (h : (v.andThen next).error? = none) : v.error? = none ∧ (next v.scope).error? = none := by
  cases hv : v.error? with
  | none =>
    rw [Verdict.andThen, hv] at h
    exact ⟨rfl, h⟩
  | some why =>
    rw [Verdict.andThen, hv] at h
    simp [hv] at h

theorem exists_check_of_checkAll {es : List Expr} {s : Scope} (h : (checkAll es s).error? = none)
    {d : Expr} (hd : d ∈ es) : ∃ t, (check d t).error? = none := by
  induction es generalizing s with
  | nil => cases hd
  | cons e rest ih =>
    obtain ⟨hfirst, hrest⟩ := andThen_error?_eq_none h
    rcases List.mem_cons.mp hd with rfl | hd
    · exact ⟨s, hfirst⟩
    · exact ih hrest hd

/-- A check that succeeds has checked every operand. -/
theorem exists_check_of_mem_children {e c : Expr} {s : Scope} (h : (check e s).error? = none)
    (hc : c ∈ e.children) : ∃ t, (check c t).error? = none := by
  cases e with
  | number value => cases hc
  | identifier name => cases hc
  | group body =>
    obtain rfl : c = body := by simpa [children] using hc
    exact ⟨s, h⟩
  | unary op operand =>
    obtain rfl : c = operand := by simpa [children] using hc
    exact ⟨s, h⟩
  | binary op left right =>
    obtain ⟨hleft, hright⟩ := andThen_error?_eq_none h
    rcases (by simpa [children] using hc : c = left ∨ c = right) with rfl | rfl
    · exact ⟨s, hleft⟩
    · exact ⟨_, hright⟩
  | call name args =>
    rw [check] at h
    split at h
    · exact exists_check_of_checkAll h hc
    · simp at h
  | assign op target value =>
    obtain rfl : c = value := by simpa [children] using hc
    rw [check] at h
    split at h
    · exact ⟨_, (andThen_error?_eq_none (andThen_error?_eq_none h).2).1⟩
    · exact ⟨_, (andThen_error?_eq_none h).1⟩

theorem exists_check_of_within {d e : Expr} (hd : Within d e) {s : Scope}
    (h : (check e s).error? = none) : ∃ t, (check d t).error? = none := by
  induction hd generalizing s with
  | self => exact ⟨s, h⟩
  | operand hc _ ih =>
    obtain ⟨t, ht⟩ := exists_check_of_mem_children h hc
    exact ih ht

/-- A node that fails whatever its operands come to: an assignment to a constant, or a call
that no function answers. -/
inductive IsHopeless : Expr → Prop where
  | constant {op : AssignOp} {target : String} {value : Expr}
      (h : target ∈ ["PI", "TAU", "E"]) : IsHopeless (.assign op target value)
  | call {name : String} {args : List Expr} (h : Function.find? name args.length = none) :
      IsHopeless (.call name args)

theorem check_ne_none_of_isHopeless {d : Expr} (hd : IsHopeless d) (s : Scope) :
    (check d s).error? ≠ none := by
  intro h
  cases hd with
  | @constant op target value htarget =>
    have hconstant : (constant? target).isSome = true := by
      simp only [List.mem_cons, List.not_mem_nil, or_false] at htarget
      rcases htarget with rfl | rfl | rfl <;> rfl
    have hwrite : ∀ t : Scope, (t.write target).error? ≠ none := by
      intro t
      simp [Scope.write, hconstant]
    rw [check] at h
    split at h
    · exact hwrite _ (andThen_error?_eq_none (andThen_error?_eq_none h).2).2
    · exact hwrite _ (andThen_error?_eq_none h).2
  | call hunknown =>
    rw [check, hunknown, if_neg (by simp)] at h
    simp at h

/-! ### Evaluations -/

/-- The scope of a memory in which nothing has been evaluated. -/
theorem describes_contains (m : Memory) : Scope.Describes ⟨m.contains, []⟩ m m :=
  ⟨fun name => by simp [Scope.binds], by simp⟩

theorem foretells_evaluate (e : Expr) (m : Memory) :
    (check e ⟨m.contains, []⟩).Foretells m (e.evaluate m) := by
  rw [evaluate_eq_meaning]
  exact foretells_check e (describes_contains m)

theorem outcome_eq_error_iff (e : Expr) (m : Memory) (why : EvalError) :
    (e.evaluate m).outcome = .error why ↔ (check e ⟨m.contains, []⟩).error? = some why := by
  rw [← (foretells_evaluate e m).error, Evaluation.error?]
  cases (e.evaluate m).outcome with
  | ok a => simp
  | error e => simp

/-- **Names decide.**  The check of the bound names says whether an expression has a value, with
which error it has none, and which names it binds.  So two memories that bind the same names
agree on all of this, whatever their values; and no memory gives a value to an expression with an
assignment to a constant or an unknown call in it. -/
theorem evaluate_foretold (e : Expr) :
    (∀ m : Memory,
      (∀ why, (e.evaluate m).outcome = .error why ↔
        (check e ⟨m.contains, []⟩).error? = some why) ∧
      (e.evaluate m).memory.variableNames
        = m.variableNames ++ (check e ⟨m.contains, []⟩).scope.added) ∧
    (∀ m n : Memory, (∀ name, m.contains name = n.contains name) →
      ((∃ a, (e.evaluate m).outcome = .ok a) ∧ ∃ b, (e.evaluate n).outcome = .ok b) ∨
      ∃ why, (e.evaluate m).outcome = .error why ∧ (e.evaluate n).outcome = .error why) ∧
    (∀ d, Within d e → IsHopeless d →
      ∀ m : Memory, ∃ why, (e.evaluate m).outcome = .error why) := by
  refine ⟨?_, ?_, ?_⟩
  · intro m
    exact ⟨outcome_eq_error_iff e m, (foretells_evaluate e m).describes.order⟩
  · intro m n hnames
    have hsame : m.contains = n.contains := funext hnames
    have hn := outcome_eq_error_iff e n
    rw [← hsame] at hn
    cases hm : (e.evaluate m).outcome with
    | error why =>
      right
      exact ⟨why, rfl, (hn why).mpr ((outcome_eq_error_iff e m why).mp hm)⟩
    | ok a =>
      left
      cases houtcome : (e.evaluate n).outcome with
      | ok b => exact ⟨⟨a, rfl⟩, b, rfl⟩
      | error why =>
        have hfails := (outcome_eq_error_iff e m why).mpr ((hn why).mp houtcome)
        simp [hm] at hfails
  · intro d hd hhopeless m
    cases hcheck : (check e ⟨m.contains, []⟩).error? with
    | some why => exact ⟨why, (outcome_eq_error_iff e m why).mpr hcheck⟩
    | none =>
      obtain ⟨t, ht⟩ := exists_check_of_within hd hcheck
      exact absurd ht (check_ne_none_of_isHopeless hhopeless t)

/-- The expression of `(x = y) + (PI = x)`. -/
def rebindingPi : Expr :=
  .binary .add (.group (.assign .assign "x" (.identifier "y")))
    (.group (.assign .assign "PI" (.identifier "x")))

/-- An infinity and a NaN in the same variable make no difference: the assignment to the
constant fails, after the other one has bound its name. -/
theorem evaluate_rebindingPi :
    (∀ name, (Memory.mk [("y", .inf false)]).contains name
      = (Memory.mk [("y", .nan)]).contains name) ∧
    (∃ why, (rebindingPi.evaluate ⟨[("y", .inf false)]⟩).outcome = .error why ∧
      (rebindingPi.evaluate ⟨[("y", .nan)]⟩).outcome = .error why) ∧
    (rebindingPi.evaluate ⟨[("y", .nan)]⟩).memory.variableNames = ["y", "x"] := by
  obtain ⟨hcheck, hsame, hhopeless⟩ := evaluate_foretold rebindingPi
  have hnames : ∀ name, (Memory.mk [("y", .inf false)]).contains name
      = (Memory.mk [("y", .nan)]).contains name := by
    intro name
    rw [Bool.eq_iff_iff, Memory.contains_iff, Memory.contains_iff]
    rfl
  have hpi : Within (.assign .assign "PI" (.identifier "x")) rebindingPi :=
    .operand (c := .group (.assign .assign "PI" (.identifier "x")))
      (by simp [rebindingPi, children]) (.operand (by simp [children]) .self)
  refine ⟨hnames, ?_, ?_⟩
  · rcases hsame _ _ hnames with ⟨⟨a, ha⟩, _⟩ | hfails
    · obtain ⟨why, hwhy⟩ := hhopeless _ hpi (.constant (by simp)) ⟨[("y", .inf false)]⟩
      simp [ha] at hwhy
    · exact hfails
  · rw [(hcheck ⟨[("y", .nan)]⟩).2]
    decide +kernel

end Expr

end Calculator
