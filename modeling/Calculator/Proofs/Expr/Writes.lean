/-
  Calculator/Proofs/Expr/Writes.lean
  ==================================
  **The writes of an evaluation.**  A step of the walk leaves the memory and the
  list of writes alone, or it puts one value to one variable and the same pair on
  the list.  So the memory is at every stage of the walk the replay of the list on
  the memory in which the evaluation began, also if the evaluation fails later.

  Which writes these are is said without the walk: every assignment that has a
  value writes it once, after the writes of its operand, and a node with several
  operands has the writes of the first one first.
-/
import Calculator.Expr.Meaning
import Calculator.Proofs.Memory
import Mathlib.Logic.Relation

namespace Calculator.Expr

/-! ### The steps of the walk -/

/-- A stage of the walk: what is still to be done, and what has been reached. -/
abbrev Stage : Type := List Task × Progress

/-- One step of the walk that does not end it. -/
inductive Step : Stage → Stage → Prop where
  | finished {e : Expr} {tasks : List Task} {p q : Progress} (h : visitStep e p = .finished q) :
      Step (.visit e :: tasks, p) (tasks, q)
  | waiting {e : Expr} {tasks : List Task} {p q : Progress} (h : visitStep e p = .waiting q) :
      Step (.visit e :: tasks, p) (visits e.children ++ .finish e :: tasks, q)
  | combined {e : Expr} {tasks : List Task} {p q : Progress}
      (h : finishStep e p = some (.ok q)) : Step (.finish e :: tasks, p) (tasks, q)

/-- The walk goes through a stage on its way from another one. -/
abbrev Reaches : Stage → Stage → Prop := Relation.ReflTransGen Step

def start (e : Expr) (m : Memory) : Stage := ([.visit e], ⟨[], m, []⟩)

theorem runTasks_step {c d : Stage} (h : Step c d) : runTasks c.1 c.2 = runTasks d.1 d.2 := by
  cases h with
  | finished h => rw [runTasks, h]
  | waiting h => rw [runTasks, h]
  | combined h => rw [runTasks, h]

theorem runTasks_reaches {c d : Stage} (h : Reaches c d) :
    runTasks c.1 c.2 = runTasks d.1 d.2 := by
  induction h with
  | refl => rfl
  | tail _ hstep ih => rw [ih, runTasks_step hstep]

/-! ### The writes of a step -/

/-- What has been reached after further writes of variables, in their order. -/
structure Progress.Follows (later : List (String × Binary64)) (p q : Progress) : Prop where
  writes : q.writes = later.reverse ++ p.writes
  memory : q.memory = p.memory.replay later
  targets : ∀ write ∈ later, constant? write.1 = none

theorem follows_refl (p : Progress) : Progress.Follows [] p p :=
  ⟨rfl, rfl, fun _ h => absurd h List.not_mem_nil⟩

theorem follows_of_eq {p q : Progress} (hmemory : q.memory = p.memory)
    (hwrites : q.writes = p.writes) : Progress.Follows [] p q :=
  ⟨hwrites, hmemory, fun _ h => absurd h List.not_mem_nil⟩

theorem follows_trans {earlier later : List (String × Binary64)} {p q r : Progress}
    (hearlier : Progress.Follows earlier p q) (hlater : Progress.Follows later q r) :
    Progress.Follows (earlier ++ later) p r := by
  constructor
  · rw [hlater.writes, hearlier.writes, List.reverse_append, List.append_assoc]
  · rw [hlater.memory, hearlier.memory, Memory.replay_append]
  · intro write hwrite
    rcases List.mem_append.mp hwrite with h | h
    · exact hearlier.targets write h
    · exact hlater.targets write h

theorem follows_visitStep {e : Expr} {p q : Progress}
    (h : visitStep e p = .finished q ∨ visitStep e p = .waiting q) :
    Progress.Follows [] p q := by
  have hpush : ∀ value, Progress.Follows [] p (p.push value) := fun _ => follows_of_eq rfl rfl
  cases e with
  | number value =>
    obtain rfl : p.push value = q := by simpa [visitStep] using h
    exact hpush value
  | identifier name =>
    rw [visitStep] at h
    cases hget : p.memory.get? name with
    | some value =>
      obtain rfl : p.push value = q := by simpa [hget] using h
      exact hpush value
    | none => simp [hget] at h
  | group body =>
    obtain rfl : p = q := by simpa [visitStep] using h
    exact follows_refl p
  | unary op operand =>
    obtain rfl : p = q := by simpa [visitStep] using h
    exact follows_refl p
  | binary op left right =>
    obtain rfl : p = q := by simpa [visitStep] using h
    exact follows_refl p
  | call name args =>
    rw [visitStep] at h
    cases hknown : Function.find? name args.length with
    | some f =>
      obtain rfl : p = q := by simpa [hknown] using h
      exact follows_refl p
    | none => simp [hknown] at h
  | assign op target value =>
    rw [visitStep] at h
    cases hop : op.combines? with
    | none =>
      obtain rfl : p = q := by simpa [hop] using h
      exact follows_refl p
    | some o =>
      cases hget : p.memory.get? target with
      | some current =>
        obtain rfl : p.push current = q := by simpa [hop, hget] using h
        exact hpush current
      | none => simp [hop, hget] at h

theorem follows_writeStep {target : String} {value : Binary64} {p q : Progress}
    (h : writeStep target value p = .ok q) : Progress.Follows [(target, value)] p q := by
  rw [writeStep] at h
  cases hconstant : (constant? target).isSome with
  | true =>
    rw [Memory.assign?_constant hconstant] at h
    cases h
  | false =>
    rw [Memory.assign?_variable hconstant] at h
    cases h
    refine ⟨rfl, rfl, ?_⟩
    intro write hwrite
    obtain rfl := List.mem_singleton.mp hwrite
    simpa using hconstant

theorem take?_keeps {p q : Progress} {n : Nat} {values : List Binary64}
    (h : p.take? n = some (values, q)) : q.memory = p.memory ∧ q.writes = p.writes := by
  rw [Progress.take?] at h
  split at h
  · cases h
  · cases h
    exact ⟨rfl, rfl⟩

/-- Finishing a node writes nothing, or it completes one assignment. -/
theorem follows_finishStep {e : Expr} {p q : Progress} (h : finishStep e p = some (.ok q)) :
    ∃ writes : List (String × Binary64), writes.length ≤ 1 ∧ Progress.Follows writes p q := by
  obtain ⟨⟨values, r⟩, htake, hfinish⟩ := Option.bind_eq_some_iff.mp h
  obtain ⟨hmemory, hwrites⟩ := take?_keeps htake
  have hpush : ∀ value, q = r.push value →
      ∃ writes : List (String × Binary64), writes.length ≤ 1 ∧ Progress.Follows writes p q := by
    rintro value rfl
    exact ⟨[], Nat.zero_le 1, follows_of_eq hmemory hwrites⟩
  have hwrite : ∀ target value, writeStep target value r = .ok q →
      ∃ writes : List (String × Binary64), writes.length ≤ 1 ∧ Progress.Follows writes p q := by
    intro target value hq
    exact ⟨[(target, value)], Nat.le_refl 1,
      follows_trans (follows_of_eq hmemory hwrites) (follows_writeStep hq)⟩
  dsimp only at hfinish
  split at hfinish
  · exact hpush _ (by simpa using hfinish.symm)
  · exact hpush _ (by simpa using hfinish.symm)
  · exact hpush _ (by simpa using hfinish.symm)
  · split at hfinish
    · exact hpush _ (by simpa using hfinish.symm)
    · simp at hfinish
  · exact hwrite _ _ (by simpa using hfinish)
  · exact hwrite _ _ (by simpa using hfinish)
  · cases hfinish

theorem follows_step {c d : Stage} (h : Step c d) :
    ∃ writes : List (String × Binary64), writes.length ≤ 1 ∧ Progress.Follows writes c.2 d.2 := by
  cases h with
  | finished h => exact ⟨[], Nat.zero_le 1, follows_visitStep (Or.inl h)⟩
  | waiting h => exact ⟨[], Nat.zero_le 1, follows_visitStep (Or.inr h)⟩
  | combined h => exact follows_finishStep h

/-! ### The writes of a run -/

theorem follows_reaches {c d : Stage} (h : Reaches c d) :
    ∃ writes, Progress.Follows writes c.2 d.2 := by
  induction h with
  | refl => exact ⟨[], follows_refl c.2⟩
  | tail _ hstep ih =>
    obtain ⟨earlier, hearlier⟩ := ih
    obtain ⟨last, -, hlast⟩ := follows_step hstep
    exact ⟨earlier ++ last, follows_trans hearlier hlast⟩

/-- A run goes through a stage for every part of its writes: no step makes two of them. -/
theorem exists_reaches_of_part {c d : Stage} (h : Reaches c d)
    {writes part : List (String × Binary64)} (hwrites : d.2.writes = writes.reverse ++ c.2.writes)
    (hpart : part <+: writes) :
    ∃ b, Reaches c b ∧ b.2.writes = part.reverse ++ c.2.writes := by
  induction h generalizing writes part with
  | refl =>
    have hnil : writes = [] := by simpa using hwrites
    obtain rfl : part = [] := by simpa [hnil] using hpart
    exact ⟨c, .refl, rfl⟩
  | @tail b d hreaches hstep ih =>
    obtain ⟨last, hlength, hlast⟩ := follows_step hstep
    obtain ⟨earlier, hearlier⟩ := follows_reaches hreaches
    have hsplit : writes = earlier ++ last := by
      have hboth := hlast.writes
      rw [hwrites, hearlier.writes, ← List.append_assoc, ← List.reverse_append] at hboth
      exact List.reverse_inj.mp (List.append_cancel_right hboth)
    by_cases hshort : part <+: earlier
    · exact ih hearlier.writes hshort
    · -- A longer part is the whole list, because the last step adds at most one write.
      have hlong : earlier.length < part.length := by
        apply Nat.lt_of_not_le
        intro hle
        rw [hsplit] at hpart
        exact hshort (List.prefix_of_prefix_length_le hpart (List.prefix_append _ _) hle)
      have hwhole : part = writes := by
        have htotal : writes.length = earlier.length + last.length := by simp [hsplit]
        exact hpart.eq_of_length_le (by omega)
      exact ⟨d, hreaches.tail hstep, by rw [hwrites, hwhole]⟩

/-- A run that comes to an end ends in a stage that it reaches. -/
theorem exists_reaches_of_runTasks {tasks : List Task} {p : Progress} {x : Evaluation Binary64}
    (h : runTasks tasks p = some x) :
    ∃ c, Reaches (tasks, p) c ∧ x.memory = c.2.memory ∧ x.writes = c.2.writes.reverse := by
  induction tasks, p using runTasks.induct with
  | case1 p =>
    rw [runTasks, Option.map_eq_some_iff] at h
    obtain ⟨value, -, rfl⟩ := h
    exact ⟨([], p), .refl, rfl, rfl⟩
  | case2 e tasks p q hvisit ih =>
    rw [runTasks, hvisit] at h
    obtain ⟨c, hreaches, hend⟩ := ih h
    exact ⟨c, hreaches.head (.finished hvisit), hend⟩
  | case3 e tasks p q hvisit ih =>
    rw [runTasks, hvisit] at h
    obtain ⟨c, hreaches, hend⟩ := ih h
    exact ⟨c, hreaches.head (.waiting hvisit), hend⟩
  | case4 e tasks p why hvisit =>
    rw [runTasks, hvisit, Option.some.injEq] at h
    exact ⟨(.visit e :: tasks, p), .refl, by rw [← h]; rfl, by rw [← h]; rfl⟩
  | case5 e tasks p q hfinish ih =>
    rw [runTasks, hfinish] at h
    obtain ⟨c, hreaches, hend⟩ := ih h
    exact ⟨c, hreaches.head (.combined hfinish), hend⟩
  | case6 e tasks p why hfinish =>
    rw [runTasks, hfinish, Option.some.injEq] at h
    exact ⟨(.finish e :: tasks, p), .refl, by rw [← h]; rfl, by rw [← h]; rfl⟩
  | case7 e tasks p hfinish =>
    rw [runTasks, hfinish] at h
    cases h

theorem runTasks_start (e : Expr) (m : Memory) :
    runTasks (start e m).1 (start e m).2 = some (e.evaluate m) := by
  rw [evaluate_eq_meaning, start, runTasks_visit, resume]
  obtain ⟨outcome, memory, writes⟩ := meaning e m
  cases outcome with
  | ok a => simp [runTasks]
  | error why => simp

/-! ### The writes of an evaluation -/

/-- At every stage of an evaluation the memory is the replay of the writes so far, and these are
the first writes of the evaluation. -/
theorem follows_of_reaches_start {e : Expr} {m : Memory} {c : Stage} (h : Reaches (start e m) c) :
    c.2.memory = m.replay c.2.writes.reverse ∧ c.2.writes.reverse <+: (e.evaluate m).writes := by
  obtain ⟨earlier, hearlier⟩ := follows_reaches h
  have hreverse : c.2.writes.reverse = earlier := by simp [hearlier.writes, start]
  refine ⟨by rw [hreverse, hearlier.memory]; rfl, ?_⟩
  have hrun : runTasks c.1 c.2 = some (e.evaluate m) := by
    rw [← runTasks_reaches h, runTasks_start]
  -- The rest of the walk begins at this stage, so it only adds writes.
  obtain ⟨d, hlast, -, hwrites⟩ := exists_reaches_of_runTasks hrun
  obtain ⟨later, hlater⟩ := follows_reaches hlast
  have hall : d.2.writes = later.reverse ++ c.2.writes := hlater.writes
  rw [hwrites, hall, List.reverse_append, List.reverse_reverse]
  exact List.prefix_append _ _

theorem evaluate_follows (e : Expr) (m : Memory) :
    ∃ c, Reaches (start e m) c ∧ (e.evaluate m).memory = c.2.memory ∧
      (e.evaluate m).writes = c.2.writes.reverse :=
  exists_reaches_of_runTasks (runTasks_start e m)

theorem memory_evaluate (e : Expr) (m : Memory) :
    (e.evaluate m).memory = m.replay (e.evaluate m).writes := by
  obtain ⟨c, hreaches, hmemory, hwrites⟩ := evaluate_follows e m
  rw [hmemory, hwrites]
  exact (follows_of_reaches_start hreaches).1

theorem constant?_of_mem_writes {e : Expr} {m : Memory} {write : String × Binary64}
    (h : write ∈ (e.evaluate m).writes) : constant? write.1 = none := by
  obtain ⟨c, hreaches, -, hwrites⟩ := evaluate_follows e m
  obtain ⟨writes, hfollows⟩ := follows_reaches hreaches
  have hall : (e.evaluate m).writes = writes := by
    rw [hwrites, hfollows.writes]
    simp [start]
  rw [hall] at h
  exact hfollows.targets write h

theorem exists_stage_of_part {e : Expr} {m : Memory} {part : List (String × Binary64)}
    (h : part <+: (e.evaluate m).writes) :
    ∃ c, Reaches (start e m) c ∧ c.2.writes.reverse = part := by
  obtain ⟨d, hreaches, -, hwrites⟩ := evaluate_follows e m
  have hall : d.2.writes = (e.evaluate m).writes.reverse ++ (start e m).2.writes := by
    simp [hwrites, start]
  obtain ⟨c, hc, hpart⟩ := exists_reaches_of_part hreaches hall h
  exact ⟨c, hc, by simp [hpart, start]⟩

/-! ### Completed assignments -/

/-- What is written after an evaluation, unless it fails. -/
def writtenAfter (x : Evaluation Binary64) (later : Memory → List (String × Binary64)) :
    List (String × Binary64) :=
  match x.outcome with
  | .ok _ => later x.memory
  | .error _ => []

/-- The write of an assignment: it writes its value if it has one. -/
def ownWrite (target : String) (x : Evaluation Binary64) : List (String × Binary64) :=
  match x.outcome with
  | .ok value => [(target, value)]
  | .error _ => []

mutual

/-- The completed assignments of an expression in the order of their evaluation. -/
def completions : Expr → Memory → List (String × Binary64)
  | .number _, _ => []
  | .identifier _, _ => []
  | .group body, m => completions body m
  | .unary _ operand, m => completions operand m
  | .binary _ left right, m =>
    completions left m ++ writtenAfter (left.evaluate m) (completions right)
  | .call name args, m =>
    if (Function.find? name args.length).isSome then allCompletions args m else []
  | .assign op target value, m =>
    if op.combines?.isNone || m.contains target then
      completions value m ++ ownWrite target ((assign op target value).evaluate m)
    else []

def allCompletions : List Expr → Memory → List (String × Binary64)
  | [], _ => []
  | e :: rest, m => completions e m ++ writtenAfter (e.evaluate m) (allCompletions rest)

end

theorem writes_bind {α β : Type} (x : Evaluation α) (next : α → Memory → Evaluation β) :
    (x.bind next).writes = x.writes ++
      match x.outcome with
      | .ok a => (next a x.memory).writes
      | .error _ => [] := by
  cases h : x.outcome with
  | ok a => simp [Evaluation.bind, h]
  | error why => simp [Evaluation.bind, h]

theorem writes_map {α β : Type} (x : Evaluation α) (f : α → β) :
    (x.bind fun a => .value (f a)).writes = x.writes := by
  rw [writes_bind]
  cases x.outcome with
  | ok a => simp [Evaluation.value]
  | error why => simp

/-- The writes of an assignment that comes to its own value. -/
theorem writes_bind_write (x : Evaluation Binary64) (target : String)
    (f : Binary64 → Binary64) :
    (x.bind fun v => .write target (f v)).writes
      = x.writes ++ ownWrite target (x.bind fun v => .write target (f v)) := by
  rw [writes_bind, ownWrite]
  cases h : x.outcome with
  | error why => simp [Evaluation.bind, h]
  | ok v =>
    simp only [Evaluation.bind, h, Evaluation.write]
    cases x.memory.assign? target (f v) with
    | none => simp [Evaluation.failure]
    | some memory => simp

theorem writes_meanings {es : List Expr}
    (each : ∀ e ∈ es, ∀ m, (meaning e m).writes = completions e m) (m : Memory) :
    (meanings es m).writes = allCompletions es m := by
  induction es generalizing m with
  | nil => rfl
  | cons e rest ih =>
    have others := ih fun d hd => each d (List.mem_cons_of_mem e hd)
    rw [meanings, allCompletions, writes_bind, each e List.mem_cons_self, writtenAfter,
      evaluate_eq_meaning]
    cases (meaning e m).outcome with
    | error why => rfl
    | ok a => simp only [writes_map, others]

theorem writes_meaning (e : Expr) (m : Memory) : (meaning e m).writes = completions e m := by
  induction e using of_children generalizing m with
  | step e ih =>
    cases e with
    | number value => rfl
    | identifier name =>
      rw [meaning, completions]
      cases m.get? name with
      | some value => rfl
      | none => rfl
    | group body =>
      rw [meaning, completions]
      exact ih body (by simp [children]) m
    | unary op operand =>
      rw [meaning, completions, writes_map]
      exact ih operand (by simp [children]) m
    | binary op left right =>
      have hleft := ih left (by simp [children])
      have hright := ih right (by simp [children])
      rw [meaning, completions, writes_bind, hleft, writtenAfter, evaluate_eq_meaning]
      cases (meaning left m).outcome with
      | error why => rfl
      | ok a => simp only [writes_map, hright]
    | call name args =>
      rw [meaning, completions]
      cases hknown : Function.find? name args.length with
      | none => rfl
      | some f =>
        rw [if_pos (by simp), writes_map]
        exact writes_meanings (fun d hd => ih d (by simpa [children] using hd)) m
    | assign op target value =>
      have hvalue := ih value (by simp [children])
      rw [completions, evaluate_eq_meaning, meaning]
      cases hop : op.combines? with
      | none =>
        rw [if_pos (by simp), ← hvalue]
        exact writes_bind_write (meaning value m) target id
      | some o =>
        cases hget : m.get? target with
        | none => simp [Memory.contains, hget, Evaluation.failure]
        | some current =>
          rw [if_pos (by simp [Memory.contains, hget]), ← hvalue]
          exact writes_bind_write (meaning value m) target (o.apply current)

/-- An evaluation makes one write for every completed assignment, in their order. -/
theorem writes_evaluate (e : Expr) (m : Memory) : (e.evaluate m).writes = completions e m := by
  rw [evaluate_eq_meaning, writes_meaning]

end Calculator.Expr
