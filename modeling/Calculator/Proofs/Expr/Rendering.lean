/-
  Calculator/Proofs/Expr/Rendering.lean
  =====================================
  **The walk of a rendering.**  At every stage of the walk the tasks that are left
  lead to one list of texts, if a visit is taken to add the text of its expression
  and a node to find the texts of its own operands on top of the others.  At the
  start this list has the text of the whole expression and nothing else, and every
  step keeps it: a visit is replaced by the visits of the operands and the node
  that they end in, or by the text of a node without operands.  So no node finds
  too few texts or the texts of another node, whatever lies below them.

  An evaluation shows the text of a call that it cannot look up.  It looks up every
  call when it comes to visit it, so the call that is shown is the one at which the
  walk of the evaluation stands, however deep that call is in the tree.
-/
import Calculator.Expr.Text
import Calculator.Proofs.Expr.Writes

namespace Calculator.Expr

/-! ### The steps of the walk -/

/-- A stage of the walk: what is still to be done, and the finished texts. -/
abbrev Draft : Type := List Task × List String

namespace Draft

inductive Step : Draft → Draft → Prop where
  | leaf {e : Expr} {tasks : List Task} {done : List String} (h : e.children = []) :
      Step (.visit e :: tasks, done) (tasks, e.nodeText [] :: done)
  | opened {e : Expr} {tasks : List Task} {done : List String} (h : e.children ≠ []) :
      Step (.visit e :: tasks, done) (visits e.children ++ .finish e :: tasks, done)
  | closed {e : Expr} {tasks : List Task} {done : List String}
      (h : e.children.length ≤ done.length) :
      Step (.finish e :: tasks, done)
        (tasks, e.nodeText (done.take e.children.length).reverse :: done.drop e.children.length)

/-- The walk goes through a stage on its way from another one. -/
abbrev Reaches : Draft → Draft → Prop := Relation.ReflTransGen Step

/-- The steps are those of the rendering: each keeps what the walk returns. -/
theorem renderTasks_step {c d : Draft} (h : Step c d) :
    renderTasks c.1 c.2 = renderTasks d.1 d.2 := by
  cases h with
  | leaf h => rw [renderTasks, if_pos (List.isEmpty_iff.mpr h)]
  | opened h => rw [renderTasks, if_neg (mt List.isEmpty_iff.mp h)]
  | closed h => rw [renderTasks, if_neg (Nat.not_lt.mpr h)]

theorem renderTasks_reaches {c d : Draft} (h : Reaches c d) :
    renderTasks c.1 c.2 = renderTasks d.1 d.2 := by
  induction h with
  | refl => rfl
  | tail _ hstep ih => exact ih.trans (renderTasks_step hstep)

theorem workLeft_step {c d : Draft} (h : Step c d) : workLeft d.1 < workLeft c.1 := by
  cases h with
  | @leaf e tasks done h =>
    have hpos := size_pos e
    simp only [workLeft_cons, Task.work]
    omega
  | @opened e tasks done h => exact workLeft_expand_lt e tasks
  | closed h =>
    simp only [workLeft_cons, Task.work]
    omega

/-! ### What the tasks lead to -/

/-- The tasks lead to a list of texts when each node finds the texts of its operands. -/
inductive Leads (final : List String) : List Task → List String → Prop where
  | ended : Leads final [] final
  | visit {e : Expr} {tasks : List Task} {done : List String}
      (h : Leads final tasks (e.text :: done)) : Leads final (.visit e :: tasks) done
  | finish {e : Expr} {tasks : List Task} {done : List String}
      (h : Leads final tasks (e.text :: done)) :
      Leads final (.finish e :: tasks) ((texts e.children).reverse ++ done)

variable {final : List String}

theorem leads_visits {es : List Expr} {tasks : List Task} {done : List String}
    (h : Leads final tasks ((texts es).reverse ++ done)) :
    Leads final (visits es ++ tasks) done := by
  induction es generalizing done with
  | nil => exact h
  | cons e rest ih =>
    apply Leads.visit
    apply ih
    simpa using h

/-- A node that finds the texts of its operands leaves its own text on the others. -/
theorem step_finish (e : Expr) (tasks : List Task) (done : List String) :
    Step (.finish e :: tasks, (texts e.children).reverse ++ done) (tasks, e.text :: done) := by
  have henough : e.children.length ≤ ((texts e.children).reverse ++ done).length := by simp
  have hstep : Step (.finish e :: tasks, _) _ := .closed henough
  rw [List.take_left' (by simp), List.drop_left' (by simp), List.reverse_reverse,
    ← text_eq_nodeText] at hstep
  exact hstep

theorem step_unique {c d d' : Draft} (h : Step c d) (h' : Step c d') : d = d' := by
  cases h with
  | leaf h =>
    cases h' with
    | leaf => rfl
    | opened h' => exact absurd h h'
  | opened h =>
    cases h' with
    | leaf h' => exact absurd h' h
    | opened => rfl
  | closed h =>
    cases h' with
    | closed => rfl

theorem leads_finish {e : Expr} {tasks : List Task} {done : List String}
    (h : Leads final (.finish e :: tasks) done) :
    ∃ others, done = (texts e.children).reverse ++ others ∧
      Leads final tasks (e.text :: others) := by
  cases h with
  | finish h => exact ⟨_, rfl, h⟩

theorem leads_step {c d : Draft} (h : Leads final c.1 c.2) (hstep : Step c d) :
    Leads final d.1 d.2 := by
  cases hstep with
  | @leaf e tasks done hleaf =>
    cases h with
    | visit h =>
      have htext : e.nodeText [] = e.text := by rw [text_eq_nodeText, hleaf, texts_nil]
      rw [htext]
      exact h
  | @opened e tasks done hoperands =>
    cases h with
    | visit h => exact leads_visits (.finish h)
  | @closed e tasks done henough =>
    obtain ⟨others, rfl, hothers⟩ := leads_finish h
    rw [step_unique (Step.closed henough) (step_finish e tasks others)]
    exact hothers

theorem leads_reaches {c d : Draft} (h : Leads final c.1 c.2) (hreaches : Reaches c d) :
    Leads final d.1 d.2 := by
  induction hreaches with
  | refl => exact h
  | tail _ hstep ih => exact leads_step ih hstep

theorem exists_step {c : Draft} (h : Leads final c.1 c.2) (hne : c.1 ≠ []) : ∃ d, Step c d := by
  obtain ⟨tasks, done⟩ := c
  cases h with
  | ended => exact absurd rfl hne
  | @visit e tasks _ h =>
    by_cases hleaf : e.children = []
    · exact ⟨_, .leaf hleaf⟩
    · exact ⟨_, .opened hleaf⟩
  | @finish e tasks others h => exact ⟨_, step_finish e tasks others⟩

/-- The walk comes to an end, and then the texts are those that the tasks lead to. -/
theorem reaches_final {c : Draft} (h : Leads final c.1 c.2) : Reaches c ([], final) := by
  by_cases hne : c.1 = []
  · obtain ⟨tasks, done⟩ := c
    cases h with
    | ended => exact .refl
    | visit => cases hne
    | finish => cases hne
  · obtain ⟨d, hstep⟩ := exists_step h hne
    have hless := workLeft_step hstep
    exact (reaches_final (leads_step h hstep)).head hstep
termination_by workLeft c.1

theorem leads_start (e : Expr) : Leads [e.text] [.visit e] [] := .visit .ended

end Draft

/-! ### Calls that are not found -/

/-- An evaluation fails at the visit of a node, or when it finishes one. -/
theorem exists_failure_of_runTasks {tasks : List Task} {p : Progress} {x : Evaluation Binary64}
    {why : EvalError} (h : runTasks tasks p = some x) (hx : x.outcome = .error why) :
    ∃ e rest q, (Reaches (tasks, p) (.visit e :: rest, q) ∧ visitStep e q = .failed why) ∨
      (Reaches (tasks, p) (.finish e :: rest, q) ∧ finishStep e q = some (.error why)) := by
  induction tasks, p using runTasks.induct with
  | case1 p =>
    rw [runTasks, Option.map_eq_some_iff] at h
    obtain ⟨value, -, rfl⟩ := h
    cases hx
  | case2 e tasks p q hvisit ih =>
    rw [runTasks, hvisit] at h
    obtain ⟨d, rest, r, hfails⟩ := ih h
    have hstep : Step (.visit e :: tasks, p) (tasks, q) := .finished hvisit
    exact ⟨d, rest, r, hfails.imp (And.imp_left (.head hstep)) (And.imp_left (.head hstep))⟩
  | case3 e tasks p q hvisit ih =>
    rw [runTasks, hvisit] at h
    obtain ⟨d, rest, r, hfails⟩ := ih h
    have hstep : Step (.visit e :: tasks, p) (visits e.children ++ .finish e :: tasks, q) :=
      .waiting hvisit
    exact ⟨d, rest, r, hfails.imp (And.imp_left (.head hstep)) (And.imp_left (.head hstep))⟩
  | case4 e tasks p why' hvisit =>
    rw [runTasks, hvisit, Option.some.injEq] at h
    subst h
    obtain rfl : why' = why := Except.error.inj hx
    exact ⟨e, tasks, p, Or.inl ⟨.refl, hvisit⟩⟩
  | case5 e tasks p q hfinish ih =>
    rw [runTasks, hfinish] at h
    obtain ⟨d, rest, r, hfails⟩ := ih h
    have hstep : Step (.finish e :: tasks, p) (tasks, q) := .combined hfinish
    exact ⟨d, rest, r, hfails.imp (And.imp_left (.head hstep)) (And.imp_left (.head hstep))⟩
  | case6 e tasks p why' hfinish =>
    rw [runTasks, hfinish, Option.some.injEq] at h
    subst h
    obtain rfl : why' = why := Except.error.inj hx
    exact ⟨e, tasks, p, Or.inr ⟨.refl, hfinish⟩⟩
  | case7 e tasks p hfinish =>
    rw [runTasks, hfinish] at h
    cases h

/-- Every call that is still to be finished has been found. -/
def KnowsCalls (tasks : List Task) : Prop :=
  ∀ name args, Task.finish (.call name args) ∈ tasks → Function.find? name args.length ≠ none

theorem knowsCalls_step {c d : Stage} (hstep : Step c d) (h : KnowsCalls c.1) :
    KnowsCalls d.1 := by
  cases hstep with
  | finished => exact fun name args hmem => h name args (List.mem_cons_of_mem _ hmem)
  | combined => exact fun name args hmem => h name args (List.mem_cons_of_mem _ hmem)
  | @waiting e tasks p q hvisit =>
    intro name args hmem
    rcases List.mem_append.mp hmem with hvisited | hrest
    · simp [visits] at hvisited
    · rcases List.mem_cons.mp hrest with heq | htasks
      · -- The visit of a call that is not found fails and does not wait.
        intro hnone
        obtain rfl : call name args = e := Task.finish.inj heq
        simp [visitStep, hnone] at hvisit
      · exact h name args (List.mem_cons_of_mem _ htasks)

theorem knowsCalls_reaches {c d : Stage} (h : Reaches c d) (hc : KnowsCalls c.1) :
    KnowsCalls d.1 := by
  induction h with
  | refl => exact hc
  | tail _ hstep ih => exact knowsCalls_step hstep ih

theorem visitStep_eq_unknownCall {e : Expr} {p : Progress} {shown : String}
    (h : visitStep e p = .failed (.unknownCall shown)) :
    ∃ name args, e = .call name args ∧ Function.find? name args.length = none ∧
      shown = e.text := by
  cases e with
  | number value => simp [visitStep] at h
  | group body => simp [visitStep] at h
  | unary op operand => simp [visitStep] at h
  | binary op left right => simp [visitStep] at h
  | identifier name =>
    rw [visitStep] at h
    cases hget : p.memory.get? name with
    | some value => simp [hget] at h
    | none => simp [hget] at h
  | assign op target value =>
    rw [visitStep] at h
    cases hop : op.combines? with
    | none => simp [hop] at h
    | some o =>
      cases hget : p.memory.get? target with
      | some current => simp [hop, hget] at h
      | none => simp [hop, hget] at h
  | call name args =>
    rw [visitStep] at h
    cases hfind : Function.find? name args.length with
    | some f => simp [hfind] at h
    | none =>
      refine ⟨name, args, rfl, hfind, ?_⟩
      rw [← render_eq_text]
      simpa [hfind] using h.symm

theorem finishStep_eq_unknownCall {e : Expr} {p : Progress} {shown : String}
    (h : finishStep e p = some (.error (.unknownCall shown))) :
    ∃ name args, e = .call name args ∧ Function.find? name args.length = none := by
  obtain ⟨⟨values, q⟩, -, hfinish⟩ := Option.bind_eq_some_iff.mp h
  have hwrite : ∀ target value, writeStep target value q ≠ .error (.unknownCall shown) := by
    intro target value hfails
    rw [writeStep] at hfails
    cases hassign : q.memory.assign? target value with
    | none => simp [hassign] at hfails
    | some memory => simp [hassign] at hfails
  dsimp only at hfinish
  split at hfinish
  · simp at hfinish
  · simp at hfinish
  · simp at hfinish
  · next values name args =>
    split at hfinish
    · simp at hfinish
    · next hfind => exact ⟨name, args, rfl, hfind⟩
  · exact absurd (Option.some.inj hfinish) (hwrite _ _)
  · exact absurd (Option.some.inj hfinish) (hwrite _ _)
  · cases hfinish

/-- An evaluation shows a call exactly when its walk comes to visit that call and there is no
such function. -/
theorem outcome_eq_unknownCall_iff (e : Expr) (m : Memory) (shown : String) :
    (e.evaluate m).outcome = .error (.unknownCall shown) ↔
      ∃ name args tasks p, Reaches (start e m) (.visit (.call name args) :: tasks, p) ∧
        Function.find? name args.length = none ∧ shown = (call name args).text := by
  constructor
  · intro h
    obtain ⟨d, rest, q, ⟨hreaches, hvisit⟩ | ⟨hreaches, hfinish⟩⟩ :=
      exists_failure_of_runTasks (runTasks_start e m) h
    · obtain ⟨name, args, rfl, hfind, hshown⟩ := visitStep_eq_unknownCall hvisit
      exact ⟨name, args, rest, q, hreaches, hfind, hshown⟩
    · obtain ⟨name, args, rfl, hfind⟩ := finishStep_eq_unknownCall hfinish
      have hknows : KnowsCalls (start e m).1 := by
        intro name' args' hmem
        simp [start] at hmem
      exact absurd hfind (knowsCalls_reaches hreaches hknows name args List.mem_cons_self)
  · rintro ⟨name, args, tasks, p, hreaches, hfind, rfl⟩
    have hrun := runTasks_reaches hreaches
    rw [runTasks_start, runTasks, visitStep] at hrun
    simp only [hfind, render_eq_text, Option.some.injEq] at hrun
    rw [hrun]
    rfl

/-- **The walk of a rendering computes the recursive text.**  The text of a node is made of the
texts of its operands in source order.  On top of any tasks and any texts the walk adds the text
of an expression and changes nothing else.  Whenever it finishes a node, the texts of the node's
own operands lie on top, the first one deepest, and the node's text takes their place; at every
stage the rest of the walk returns the one text of the whole, and at the end it is there.  The
call that an evaluation shows as unknown is the one that its walk visits, wherever that call is,
and it is shown as its recursive text. -/
theorem render_recursive (e : Expr) :
    (e.render = e.text ∧ e.text = e.nodeText (texts e.children)) ∧
    (∀ tasks done, renderTasks (.visit e :: tasks) done = renderTasks tasks (e.text :: done)) ∧
    (∀ d tasks done, Draft.Reaches ([.visit e], []) (.finish d :: tasks, done) →
      ∃ others, done = (texts d.children).reverse ++ others ∧
        Draft.Step (.finish d :: tasks, done) (tasks, d.text :: others)) ∧
    (∀ c, Draft.Reaches ([.visit e], []) c → renderTasks c.1 c.2 = some [e.text]) ∧
    (Draft.Reaches ([.visit e], []) ([], [e.text]) ∧
      ∀ done, Draft.Reaches ([.visit e], []) ([], done) → done = [e.text]) ∧
    ∀ m shown, (e.evaluate m).outcome = .error (.unknownCall shown) ↔
      ∃ name args tasks p, Reaches (start e m) (.visit (.call name args) :: tasks, p) ∧
        Function.find? name args.length = none ∧ shown = (call name args).text := by
  refine ⟨⟨render_eq_text e, text_eq_nodeText e⟩, renderTasks_visit e, ?_, ?_, ⟨?_, ?_⟩, ?_⟩
  · intro d tasks done hreaches
    obtain ⟨others, rfl, -⟩ :=
      Draft.leads_finish (Draft.leads_reaches (Draft.leads_start e) hreaches)
    exact ⟨others, rfl, Draft.step_finish d tasks others⟩
  · intro c hreaches
    rw [← Draft.renderTasks_reaches hreaches, renderTasks_visit, renderTasks]
  · exact Draft.reaches_final (Draft.leads_start e)
  · intro done hreaches
    cases Draft.leads_reaches (Draft.leads_start e) hreaches with
    | ended => rfl
  · intro m shown
    exact outcome_eq_unknownCall_iff e m shown

/-- The tree of `-g(PI, f())`. -/
def negatedCall : Expr := .unary .minus (.call "g" [.identifier "PI", .call "f" []])

/-- The outer call is finished with the texts of its two arguments, one of them an empty call, and
it is the call that an evaluation shows. -/
theorem render_negatedCall :
    Draft.Reaches ([.visit negatedCall], [])
        ([.finish (.call "g" [.identifier "PI", .call "f" []]), .finish negatedCall],
          ["f()", "PI"]) ∧
      Draft.Step ([.finish (.call "g" [.identifier "PI", .call "f" []]), .finish negatedCall],
          ["f()", "PI"]) ([.finish negatedCall], ["g(PI, f())"]) ∧
      negatedCall.render = "-g(PI, f())" ∧
      ∀ m, (negatedCall.evaluate m).outcome = .error (.unknownCall "g(PI, f())") := by
  obtain ⟨⟨hrender, -⟩, -, hown, -, -, hcalls⟩ := render_recursive negatedCall
  have hreaches : Draft.Reaches ([.visit negatedCall], [])
      ([.finish (.call "g" [.identifier "PI", .call "f" []]), .finish negatedCall],
        ["f()", "PI"]) := by
    refine .head (.opened ?_) (.head (.opened ?_) (.head (.leaf rfl) (.single (.leaf rfl))))
    · simp [negatedCall, children]
    · simp [children]
  obtain ⟨others, hothers, hstep⟩ := hown _ _ _ hreaches
  have htexts : (texts (call "g" [identifier "PI", call "f" []]).children).reverse =
      ["f()", "PI"] := rfl
  obtain rfl : others = [] := by simpa [htexts] using hothers
  refine ⟨hreaches, hstep, hrender.trans rfl, ?_⟩
  intro m
  have hfind : Function.find? "g" [identifier "PI", call "f" []].length = none := by decide
  exact (hcalls m _).mpr ⟨_, _, _, _, .single (.waiting rfl), hfind, rfl⟩

end Calculator.Expr
