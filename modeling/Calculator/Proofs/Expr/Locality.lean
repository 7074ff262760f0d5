/-
  Calculator/Proofs/Expr/Locality.lean
  ====================================
  **What an evaluation reads and writes.**  An expression reads its identifiers
  and the targets of its compound assignments, and writes nothing but the targets
  of its assignments.  Two memories that agree on the names that are read are
  written to in the same way, also if the evaluation fails.

  The induction carries the agreement of two memories through an evaluation.  What
  has been written so far is the same in both runs, so the memories go on to agree
  where they agreed before: a name that was written has its last value in both,
  and any other name is as it was.  The memories themselves stay different.
-/
import Calculator.Proofs.Expr.Writes

namespace Calculator

/-! ### Agreement -/

namespace Memory

/-- Two memories in which names have the same values, or the same names have none. -/
def AgreeOn (names : List String) (m n : Memory) : Prop := ∀ name ∈ names, m.get? name = n.get? name

theorem agreeOn_append {xs ys : List String} {m n : Memory} :
    AgreeOn (xs ++ ys) m n ↔ AgreeOn xs m n ∧ AgreeOn ys m n := List.forall_mem_append

theorem agreeOn_replay {names : List String} {m n : Memory} (h : AgreeOn names m n)
    (writes : List (String × Binary64)) : AgreeOn names (m.replay writes) (n.replay writes) := by
  intro name hname
  rcases get?_replay_cases writes name with ⟨value, hwritten⟩ | hsame
  · rw [hwritten m, hwritten n]
  · rw [hsame m, hsame n]
    exact h name hname

end Memory

/-! ### Evaluations that match -/

/-- Two evaluations, perhaps in different memories, that come to one outcome with the same
writes. -/
structure Evaluation.Matches {α : Type} (x y : Evaluation α) : Prop where
  outcome : x.outcome = y.outcome
  writes : x.writes = y.writes

section Matching

variable {α β : Type} {x y : Evaluation α}

theorem matches_value (a : α) (m n : Memory) :
    (Evaluation.value a m).Matches (Evaluation.value a n) := ⟨rfl, rfl⟩

theorem matches_failure (why : EvalError) (m n : Memory) :
    (Evaluation.failure why m : Evaluation α).Matches (Evaluation.failure why n) := ⟨rfl, rfl⟩

theorem matches_bind (h : x.Matches y) {next : α → Memory → Evaluation β}
    (hnext : ∀ a, (next a x.memory).Matches (next a y.memory)) :
    (x.bind next).Matches (y.bind next) := by
  have houtcome := h.outcome
  cases hx : x.outcome with
  | error why =>
    rw [hx] at houtcome
    simp only [Evaluation.bind, hx, ← houtcome]
    exact ⟨rfl, h.writes⟩
  | ok a =>
    rw [hx] at houtcome
    simp only [Evaluation.bind, hx, ← houtcome]
    refine ⟨(hnext a).outcome, ?_⟩
    rw [h.writes, (hnext a).writes]

theorem matches_map (h : x.Matches y) (f : α → β) :
    (x.bind fun a => .value (f a)).Matches (y.bind fun a => .value (f a)) :=
  matches_bind h fun a => matches_value (f a) _ _

/-- Whether a target can be written does not depend on the memory. -/
theorem matches_write (target : String) (value : Binary64) (m n : Memory) :
    (Evaluation.write target value m).Matches (.write target value n) := by
  cases hconstant : (constant? target).isSome with
  | true =>
    simp only [Evaluation.write, Memory.assign?_constant hconstant]
    exact matches_failure _ m n
  | false =>
    simp only [Evaluation.write, Memory.assign?_variable hconstant]
    exact ⟨rfl, rfl⟩

end Matching

namespace Expr

/-! ### The names that are read, and the names that are written -/

mutual

/-- The names whose values an expression reads: identifiers and targets of compound
assignments. -/
def reads : Expr → List String
  | .number _ => []
  | .identifier name => [name]
  | .group body => body.reads
  | .unary _ operand => operand.reads
  | .binary _ left right => left.reads ++ right.reads
  | .call _ args => allReads args
  | .assign op target value => (if op.combines?.isSome then [target] else []) ++ value.reads

def allReads : List Expr → List String
  | [] => []
  | e :: rest => e.reads ++ allReads rest

end

mutual

/-- The targets of the assignments in an expression. -/
def targets : Expr → List String
  | .number _ => []
  | .identifier _ => []
  | .group body => body.targets
  | .unary _ operand => operand.targets
  | .binary _ left right => left.targets ++ right.targets
  | .call _ args => allTargets args
  | .assign _ target value => value.targets ++ [target]

def allTargets : List Expr → List String
  | [] => []
  | e :: rest => e.targets ++ allTargets rest

end

/-! ### Reading -/

theorem agreeOn_meaning {names : List String} {m n : Memory} (h : Memory.AgreeOn names m n)
    {e : Expr} (hmatches : (meaning e m).Matches (meaning e n)) :
    Memory.AgreeOn names (meaning e m).memory (meaning e n).memory := by
  have hm := memory_evaluate e m
  have hn := memory_evaluate e n
  rw [evaluate_eq_meaning] at hm hn
  rw [hm, hn, hmatches.writes]
  exact Memory.agreeOn_replay h _

theorem matches_meanings {es : List Expr}
    (each : ∀ e ∈ es, ∀ m n, Memory.AgreeOn e.reads m n → (meaning e m).Matches (meaning e n))
    {m n : Memory} (h : Memory.AgreeOn (allReads es) m n) :
    (meanings es m).Matches (meanings es n) := by
  induction es generalizing m n with
  | nil => exact matches_value [] m n
  | cons e rest ih =>
    obtain ⟨hfirst, hothers⟩ := Memory.agreeOn_append.mp h
    have hvalue := each e List.mem_cons_self m n hfirst
    have hafter := agreeOn_meaning hothers hvalue
    rw [meanings, meanings]
    refine matches_bind hvalue ?_
    intro a
    exact matches_map (ih (fun d hd => each d (List.mem_cons_of_mem e hd)) hafter) _

/-- In memories that agree on the names that are read, an expression comes to one outcome with
the same writes. -/
theorem matches_meaning (e : Expr) {m n : Memory} (h : Memory.AgreeOn e.reads m n) :
    (meaning e m).Matches (meaning e n) := by
  induction e using of_children generalizing m n with
  | step e ih =>
    cases e with
    | number value => exact matches_value value m n
    | identifier name =>
      have hsame : m.get? name = n.get? name := h name (by simp [reads])
      rw [meaning, meaning, hsame]
      cases n.get? name with
      | some value => exact matches_value value m n
      | none => exact matches_failure _ m n
    | group body =>
      rw [meaning, meaning]
      exact ih body (by simp [children]) h
    | unary op operand =>
      rw [meaning, meaning]
      exact matches_map (ih operand (by simp [children]) h) _
    | binary op left right =>
      obtain ⟨hleft, hright⟩ := Memory.agreeOn_append.mp h
      have hvalue := ih left (by simp [children]) hleft
      -- The right operand is evaluated in two memories that the left one has written to.
      have hafter := agreeOn_meaning hright hvalue
      rw [meaning, meaning]
      refine matches_bind hvalue ?_
      intro a
      exact matches_map (ih right (by simp [children]) hafter) _
    | call name args =>
      rw [meaning, meaning]
      cases Function.find? name args.length with
      | none => exact matches_failure _ m n
      | some f =>
        have each : ∀ d ∈ args, ∀ m n, Memory.AgreeOn d.reads m n →
            (meaning d m).Matches (meaning d n) := by
          intro d hd m n hagree
          exact ih d (by simpa [children] using hd) hagree
        exact matches_map (matches_meanings each h) _
    | assign op target value =>
      obtain ⟨htarget, hreads⟩ := Memory.agreeOn_append.mp h
      have hvalue := ih value (by simp [children]) hreads
      rw [meaning, meaning]
      cases hop : op.combines? with
      | none => exact matches_bind hvalue fun a => matches_write target a _ _
      | some o =>
        have hsame : m.get? target = n.get? target := htarget target (by simp [hop])
        simp only [hsame]
        cases n.get? target with
        | none => exact matches_failure _ m n
        | some current => exact matches_bind hvalue fun a => matches_write target _ _ _

/-! ### Writing -/

theorem append_subset_append {earlier later : List (String × Binary64)} {xs ys : List String}
    (hearlier : earlier.map Prod.fst ⊆ xs) (hlater : later.map Prod.fst ⊆ ys) :
    (earlier ++ later).map Prod.fst ⊆ xs ++ ys := by
  rw [List.map_append, List.append_subset]
  constructor
  · exact List.subset_append_of_subset_left _ hearlier
  · exact List.subset_append_of_subset_right _ hlater

theorem writtenAfter_subset {names : List String} (x : Evaluation Binary64)
    {later : Memory → List (String × Binary64)}
    (h : ∀ m, (later m).map Prod.fst ⊆ names) : (writtenAfter x later).map Prod.fst ⊆ names := by
  rw [writtenAfter]
  split
  · exact h _
  · exact List.nil_subset _

theorem ownWrite_subset (target : String) (x : Evaluation Binary64) :
    (ownWrite target x).map Prod.fst ⊆ [target] := by
  rw [ownWrite]
  split
  · exact List.Subset.refl _
  · exact List.nil_subset _

theorem allCompletions_subset {es : List Expr}
    (each : ∀ e ∈ es, ∀ m, (completions e m).map Prod.fst ⊆ e.targets) (m : Memory) :
    (allCompletions es m).map Prod.fst ⊆ allTargets es := by
  induction es generalizing m with
  | nil => exact List.nil_subset _
  | cons e rest ih =>
    have hothers := ih fun d hd => each d (List.mem_cons_of_mem e hd)
    rw [allCompletions, allTargets]
    exact append_subset_append (each e List.mem_cons_self m) (writtenAfter_subset _ hothers)

/-- Completed assignments have targets of the expression. -/
theorem completions_subset (e : Expr) (m : Memory) :
    (completions e m).map Prod.fst ⊆ e.targets := by
  induction e using of_children generalizing m with
  | step e ih =>
    cases e with
    | number value => exact List.nil_subset _
    | identifier name => exact List.nil_subset _
    | group body => exact ih body (by simp [children]) m
    | unary op operand => exact ih operand (by simp [children]) m
    | binary op left right =>
      have hright := ih right (by simp [children])
      rw [completions, targets]
      exact append_subset_append (ih left (by simp [children]) m) (writtenAfter_subset _ hright)
    | call name args =>
      rw [completions, targets]
      split
      · exact allCompletions_subset (fun d hd => ih d (by simpa [children] using hd)) m
      · exact List.nil_subset _
    | assign op target value =>
      rw [completions, targets]
      split
      · exact append_subset_append (ih value (by simp [children]) m) (ownWrite_subset _ _)
      · exact List.nil_subset _

theorem writes_subset_targets (e : Expr) (m : Memory) :
    (e.evaluate m).writes.map Prod.fst ⊆ e.targets := by
  rw [writes_evaluate]
  exact completions_subset e m

/-! ### Locality -/

theorem get?_evaluate_of_not_mem {e : Expr} {name : String} (h : name ∉ e.targets) (m : Memory) :
    (e.evaluate m).memory.get? name = m.get? name := by
  rw [memory_evaluate]
  exact Memory.get?_replay_of_not_mem (fun hwritten => h (writes_subset_targets e m hwritten)) m

theorem variableNames_prefix_evaluate (e : Expr) (m : Memory) :
    m.variableNames <+: (e.evaluate m).memory.variableNames := by
  rw [memory_evaluate]
  exact Memory.variableNames_prefix_replay m _

theorem memory_evaluate_of_no_targets {e : Expr} (h : e.targets = []) (m : Memory) :
    (e.evaluate m).memory = m := by
  have hnone : (e.evaluate m).writes = [] := by
    have hsubset := writes_subset_targets e m
    rw [h] at hsubset
    exact List.map_eq_nil_iff.mp (List.subset_nil.mp hsubset)
  rw [memory_evaluate, hnone, Memory.replay_nil]

/-- **Evaluation is local.**  In two memories that agree on the names that an expression reads,
it has the same value or the same error and writes the same.  Every name is as before in both
memories afterwards, or it has one value in both.  In each of them only targets of assignments
change, and the earlier variables keep their places, whether the evaluation succeeds or fails.
An expression without assignments changes nothing. -/
theorem evaluate_local (e : Expr) (m n : Memory) (h : Memory.AgreeOn e.reads m n) :
    (e.evaluate m).outcome = (e.evaluate n).outcome ∧
      (e.evaluate m).writes = (e.evaluate n).writes ∧
      (∀ name,
        ((e.evaluate m).memory.get? name = m.get? name ∧
          (e.evaluate n).memory.get? name = n.get? name) ∨
        ∃ value, (e.evaluate m).memory.get? name = some value ∧
          (e.evaluate n).memory.get? name = some value) ∧
      (∀ name, name ∉ e.targets →
        (e.evaluate m).memory.get? name = m.get? name ∧
          (e.evaluate n).memory.get? name = n.get? name) ∧
      m.variableNames <+: (e.evaluate m).memory.variableNames ∧
      n.variableNames <+: (e.evaluate n).memory.variableNames ∧
      (e.targets = [] → (e.evaluate m).memory = m ∧ (e.evaluate n).memory = n) := by
  have hmatches := matches_meaning e h
  rw [← evaluate_eq_meaning, ← evaluate_eq_meaning] at hmatches
  refine ⟨hmatches.outcome, hmatches.writes, ?_, ?_, variableNames_prefix_evaluate e m,
    variableNames_prefix_evaluate e n, ?_⟩
  · intro name
    rw [memory_evaluate e m, memory_evaluate e n, hmatches.writes]
    rcases Memory.get?_replay_cases (e.evaluate n).writes name with ⟨value, hwritten⟩ | hsame
    · exact Or.inr ⟨value, hwritten m, hwritten n⟩
    · exact Or.inl ⟨hsame m, hsame n⟩
  · intro name hname
    exact ⟨get?_evaluate_of_not_mem hname m, get?_evaluate_of_not_mem hname n⟩
  · intro hnone
    exact ⟨memory_evaluate_of_no_targets hnone m, memory_evaluate_of_no_targets hnone n⟩

/-- `(y = x) + (x += z)`, which fails between its two writes if `z` has no value. -/
def halfWritten : Expr :=
  .binary .add (.group (.assign .assign "y" (.identifier "x")))
    (.group (.assign .add "x" (.identifier "z")))

/-- The memories need not agree on `y`, which is written and not read, and `y` keeps its place in
the one that has it. -/
theorem evaluate_halfWritten :
    Memory.AgreeOn halfWritten.reads ⟨[("y", .nan), ("x", .one false)]⟩ ⟨[("x", .one false)]⟩ ∧
      (halfWritten.evaluate ⟨[("y", .nan), ("x", .one false)]⟩).outcome = .error (.unbound "z") ∧
      (halfWritten.evaluate ⟨[("y", .nan), ("x", .one false)]⟩).memory
        = ⟨[("y", .one false), ("x", .one false)]⟩ ∧
      (halfWritten.evaluate ⟨[("x", .one false)]⟩).outcome = .error (.unbound "z") ∧
      (halfWritten.evaluate ⟨[("x", .one false)]⟩).memory
        = ⟨[("x", .one false), ("y", .one false)]⟩ := by
  have hagree : Memory.AgreeOn halfWritten.reads ⟨[("y", .nan), ("x", .one false)]⟩
      ⟨[("x", .one false)]⟩ := by
    unfold Memory.AgreeOn
    decide
  obtain ⟨houtcome, -⟩ := evaluate_local halfWritten _ _ hagree
  have hsecond : halfWritten.evaluate ⟨[("x", .one false)]⟩
      = ⟨.error (.unbound "z"), ⟨[("x", .one false), ("y", .one false)]⟩,
        [("y", .one false)]⟩ := by
    rw [evaluate_eq_meaning]
    rfl
  have hfirst : (halfWritten.evaluate ⟨[("y", .nan), ("x", .one false)]⟩).memory
      = ⟨[("y", .one false), ("x", .one false)]⟩ := by
    rw [evaluate_eq_meaning]
    rfl
  rw [hsecond] at houtcome
  exact ⟨hagree, houtcome, hfirst, by rw [hsecond], by rw [hsecond]⟩

end Expr

end Calculator
