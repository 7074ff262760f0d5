/-
  Calculator/Proofs/Prompt.lean
  =============================
  **The prompt is a fold of its lines.**  The loop takes one line in every round
  and goes on whatever the line comes to: a line raises nothing but the errors of
  the calculator, and these are caught where they are printed.  Only an interrupt
  or the end of the input is no line, and either ends the loop at once.  So every
  line is answered, in order, in the memory that the lines before it have left, and
  a session leaves the memory that its lines leave when they are evaluated in turn.

  A line can reach another line only through the memory, and the memory changes
  only by the assignments that an evaluation completes.  A line that completes
  none, for whatever reason, may therefore be left out, and every other line has
  the same answer as before.
-/
import Calculator.Expr.Text
import Calculator.Proofs.Session
import Calculator.Prompt

namespace Calculator

/-! ### Running steps -/

namespace Action

variable {α β : Type} {c : Conversation}

@[simp] theorem run_pure (a : α) : (pure a : Action α).run c = (.ok a, c) := rfl

@[simp] theorem run_throw (r : Raised) : (throw r : Action α).run c = (.error r, c) := rfl

theorem run_bind (x : Action α) (next : α → Action β) (c : Conversation) :
    (x >>= next).run c =
      match x.run c with
      | (.ok a, d) => (next a).run d
      | (.error r, d) => (.error r, d) := by
  simp only [run, ExceptT.run_bind, StateT.run_bind]
  rcases StateT.run (ExceptT.run x) c with ⟨r | a, d⟩ <;> rfl

theorem run_tryCatch (x : Action α) (handler : Raised → Action α) (c : Conversation) :
    (tryCatch x handler).run c =
      match x.run c with
      | (.ok a, d) => (.ok a, d)
      | (.error r, d) => (handler r).run d := by
  change StateT.run (ExceptT.run (ExceptT.tryCatch x handler)) c = _
  simp only [run, ExceptT.tryCatch, ExceptT.run, ExceptT.mk, StateT.run_bind]
  rcases StateT.run x c with ⟨r | a, d⟩ <;> rfl

/-- A step comes to an outcome and a memory, and what it writes comes after what has been written
before. -/
def Ends (x : Action α) (c : Conversation) (r : Except Raised α) (m : Memory)
    (w : List Written) : Prop :=
  x.run c = (r, ⟨m, c.written ++ w⟩)

variable {x : Action α} {next : α → Action β} {a : α} {m n : Memory} {v w : List Written}

theorem ends_pure (a : α) (c : Conversation) : (pure a : Action α).Ends c (.ok a) c.memory [] := by
  rw [Ends, run_pure, List.append_nil]

theorem ends_throw (r : Raised) (c : Conversation) :
    (throw r : Action α).Ends c (.error r) c.memory [] := by
  rw [Ends, run_throw, List.append_nil]

theorem ends_get (c : Conversation) : (get : Action Conversation).Ends c (.ok c) c.memory [] := by
  rw [Ends, List.append_nil]
  rfl

theorem ends_set (m : Memory) (c : Conversation) :
    (set (Conversation.mk m c.written) : Action Unit).Ends c (.ok ()) m [] := by
  rw [Ends, List.append_nil]
  rfl

theorem Ends.bind {r : Except Raised β} (h : x.Ends c (.ok a) m w)
    (hnext : (next a).Ends ⟨m, c.written ++ w⟩ r n v) : (x >>= next).Ends c r n (w ++ v) := by
  rw [Ends, run_bind, h]
  simp only
  rw [hnext, List.append_assoc]

/-- What comes after a step may do nothing. -/
theorem Ends.bind_silent {r : Except Raised β} (h : x.Ends c (.ok a) m w)
    (hnext : (next a).Ends ⟨m, c.written ++ w⟩ r m []) : (x >>= next).Ends c r m w := by
  simpa using h.bind hnext

/-- After a step that only looks, nothing has changed. -/
theorem Ends.bind_unchanged {r : Except Raised β} (h : x.Ends c (.ok a) c.memory [])
    (hnext : (next a).Ends c r n v) : (x >>= next).Ends c r n v := by
  rw [Ends, run_bind, h]
  simp only [List.append_nil]
  exact hnext

theorem Ends.bind_error {r : Raised} (h : x.Ends c (.error r) m w) :
    (x >>= next).Ends c (.error r) m w := by
  rw [Ends, run_bind, h]

theorem Ends.caught {handler : Raised → Action α} {r : Raised} {s : Except Raised α}
    (h : x.Ends c (.error r) m w) (hhandler : (handler r).Ends ⟨m, c.written ++ w⟩ s n v) :
    (tryCatch x handler).Ends c s n (w ++ v) := by
  rw [Ends, run_tryCatch, h]
  simp only
  rw [hhandler, List.append_assoc]

theorem Ends.uncaught {handler : Raised → Action α} (h : x.Ends c (.ok a) m w) :
    (tryCatch x handler).Ends c (.ok a) m w := by
  rw [Ends, run_tryCatch, h]

theorem ends_ofOutcome {ε : Type} (error : ε → Error) (r : Except ε α) (c : Conversation) :
    (ofOutcome error (some r)).Ends c (r.mapError fun why => .known (error why)) c.memory [] := by
  cases r with
  | error why => exact ends_throw _ c
  | ok a => exact ends_pure a c

end Action

/-! ### The stages of a line -/

theorem scanLine_ends (line : String) (c : Conversation) :
    (scanLine line).Ends c ((tokenize line).mapError fun why => .known (.lexical why)) c.memory
      [] :=
  Action.ends_ofOutcome .lexical (tokenize line) c

/-- The descent never reads past the end of the tokens. -/
theorem readLine_ends [CallStack] (tokens : List Token) (c : Conversation) :
    (readLine tokens).Ends c
      ((Expr.parse tokens).mapError fun why => .known (.syntactic why)) c.memory [] := by
  have hdescent := Action.ends_ofOutcome .syntactic
    (Expr.parseFrom (some CallStack.room) tokens 0) c
  rw [← Expr.run_eq_parseFrom] at hdescent
  unfold readLine Expr.parse Expr.parseWithin
  cases hparse : Expr.parseFrom (some CallStack.room) tokens 0 with
  | error why =>
    rw [hparse] at hdescent
    exact hdescent.bind_error
  | ok found =>
    obtain ⟨e, offset⟩ := found
    rw [hparse] at hdescent
    refine hdescent.bind_unchanged ?_
    simp only
    split
    · exact (Action.ends_throw _ c).bind_error
    · exact (Action.ends_pure _ c).bind_unchanged (Action.ends_pure e c)

/-- The walk of an evaluation always finds the values that it takes. -/
theorem evaluateRead_ends (e : Expr) (c : Conversation) :
    (evaluateRead e).Ends c
      ((e.evaluate c.memory).outcome.mapError fun why => .known (.evaluation why))
      (e.evaluate c.memory).memory [] := by
  have hrun : Expr.runTasks [.visit e] ⟨[], c.memory, []⟩ = some (e.evaluate c.memory) :=
    Expr.runTasks_start e c.memory
  unfold evaluateRead
  refine (Action.ends_get c).bind_unchanged ?_
  simp only [hrun]
  exact (Action.ends_set _ c).bind (Action.ends_ofOutcome .evaluation _ _)

/-! ### The answer to a line -/

section Answers

variable [Terminal] [Terminal.Writes] {c : Conversation}

/-- A text with what the terminal writes for it. -/
def written (p : Print) : Written :=
  ⟨p, (Terminal.written? p).get (Terminal.Writes.isSome_written? p)⟩

theorem print_ends (p : Print) (c : Conversation) :
    (print p).Ends c (.ok ()) c.memory [written p] := by
  have hwritten : Terminal.written? p = some (written p).text :=
    (Option.some_get (Terminal.Writes.isSome_written? p)).symm
  unfold print
  rw [hwritten]
  rfl

theorem printTree_ends (e : Expr) (c : Conversation) :
    (printTree e).Ends c (.ok ()) c.memory [written (.line .out .tree e.render)] := by
  have hrendering : (Expr.renderTasks [.visit e] []).bind List.head? = some e.render := by
    rw [Expr.renderTasks_visit, Expr.renderTasks, Expr.render_eq_text]
    rfl
  unfold printTree
  rw [hrendering]
  exact print_ends _ c

/-- What is written for an error. -/
def errorReport (message : String) (location : Option Location) : List Written :=
  written (.line .err .error ("✗ " ++ message))
    :: (location.map fun l => written (.line .err .muted l.text)).toList

theorem printError_ends (message : String) (location : Option Location) (c : Conversation) :
    (printError message location).Ends c (.ok ()) c.memory (errorReport message location) := by
  unfold printError
  refine (print_ends _ c).bind ?_
  cases location with
  | none => exact Action.ends_pure () _
  | some location => exact print_ends _ _

/-- What is written for a tree that is wanted. -/
def treeReport (tree : Bool) (e : Expr) : List Written :=
  if tree then [written (.line .out .tree e.render)] else []

theorem evaluateTree_ends (tree : Bool) (e : Expr) (c : Conversation) :
    (show Action Binary64 from do
        if tree then printTree e
        evaluateRead e).Ends c
      ((e.evaluate c.memory).outcome.mapError fun why => .known (.evaluation why))
      (e.evaluate c.memory).memory (treeReport tree e) := by
  cases tree with
  | true => exact (printTree_ends e c).bind (evaluateRead_ends e _)
  | false => exact evaluateRead_ends e c

/-- What a line has written before its result or its error. -/
def readReport [CallStack] (tree : Bool) (line : String) : List Written :=
  match readSource line with
  | .error _ => []
  | .ok (_, e) => treeReport tree e

theorem attemptLine_ends [CallStack] (tree : Bool) (line : String) (c : Conversation) :
    (attemptLine tree line).Ends c
      ((evaluateSource line c.memory).outcome.mapError .known)
      (evaluateSource line c.memory).memory (readReport tree line) := by
  have hscan := scanLine_ends line c
  unfold attemptLine evaluateSource readReport readSource
  cases htokens : tokenize line with
  | error why =>
    rw [htokens] at hscan
    exact hscan.bind_error
  | ok tokens =>
    rw [htokens] at hscan
    have hread := readLine_ends tokens
    cases hparse : Expr.parse tokens with
    | error why =>
      simp only [hparse] at hread ⊢
      exact hscan.bind_unchanged (hread c).bind_error
    | ok e =>
      simp only [hparse] at hread ⊢
      have hevaluated := evaluateTree_ends tree e c
      cases houtcome : (e.evaluate c.memory).outcome <;> rw [houtcome] at hevaluated
      all_goals exact hscan.bind_unchanged ((hread c).bind_unchanged hevaluated)

/-- What is written for a line in a memory: first its tree, and then its error or its result. -/
def answer [CallStack] (tree : Bool) (m : Memory) (line : String) : List Written :=
  readReport tree line ++
    match (evaluateSource line m).outcome with
    | .error e => errorReport e.message (e.location? line)
    | .ok value => [written (.line .out .plain value.numberText)]

/-- Whatever a line comes to, nothing is raised. -/
theorem evaluateLine_ends [CallStack] (tree : Bool) (line : String) (c : Conversation) :
    (evaluateLine tree line).Ends c (.ok (evaluateSource line c.memory).outcome.isOk)
      (evaluateSource line c.memory).memory (answer tree c.memory line) := by
  have hattempt := attemptLine_ends tree line c
  unfold evaluateLine answer
  cases houtcome : (evaluateSource line c.memory).outcome with
  | error e =>
    rw [houtcome] at hattempt
    have hreport := printError_ends e.message (e.location? line)
    refine Action.Ends.bind_silent (a := none) ?_ (Action.ends_pure false _)
    exact hattempt.bind_error.caught ((hreport _).bind_silent (Action.ends_pure none _))
  | ok value =>
    rw [houtcome] at hattempt
    have hprint := print_ends (.line .out .plain value.numberText)
    refine Action.Ends.bind (a := some value) ?_ ((hprint _).bind_silent (Action.ends_pure true _))
    exact (hattempt.bind_silent (Action.ends_pure (some value) _)).uncaught

end Answers

namespace Prompt

/-! ### The rounds of the loop -/

/-- The lines that are evaluated. -/
def spoken (lines : List String) : List String := lines.filter fun line => !isBlankLine line

theorem spoken_append (before after : List String) :
    spoken (before ++ after) = spoken before ++ spoken after := List.filter_append _ _

theorem memoryAfter_spoken_cons [CallStack] (m : Memory) (line : String) (rest : List String) :
    Session.memoryAfter m (spoken (line :: rest))
      = Session.memoryAfter (Session.memoryAfter m (spoken [line])) (spoken rest) := by
  rw [← Session.memoryAfter_append, ← spoken_append, List.singleton_append]

section Rounds

variable [CallStack] [Terminal] [Terminal.Writes] (settings : Settings) (tree : Bool)

/-- What is written for a line, which is nothing for a blank one. -/
def reply (m : Memory) (line : String) : List Written :=
  if isBlankLine line then [] else answer tree m line

/-- What is written for lines in turn. -/
def replies : Memory → List String → List (List Written)
  | _, [] => []
  | m, line :: rest =>
    reply tree m line :: replies (Session.memoryAfter m (spoken [line])) rest

/-- Answers with the prompt before each of them. -/
def transcript (answers : List (List Written)) : List Written :=
  answers.flatMap fun answer => written (.prompt settings.prompt) :: answer

/-- A round prints the prompt and the answer to a line, and the loop goes on. -/
theorem run_loop_line (line : String) (rest : List Reading) (c : Conversation) :
    (loop settings tree (.line line :: rest)).run c
      = (loop settings tree rest).run
          ⟨Session.memoryAfter c.memory (spoken [line]),
            c.written ++ written (.prompt settings.prompt) :: reply tree c.memory line⟩ := by
  rw [loop, Action.run_bind, print_ends (.prompt settings.prompt) c]
  cases hblank : isBlankLine line with
  | true => simp [hblank, spoken, reply, Session.memoryAfter]
  | false =>
    have hline := evaluateLine_ends tree line
      ⟨c.memory, c.written ++ [written (.prompt settings.prompt)]⟩
    simp only [Bool.false_eq_true, if_false, Action.run_bind]
    rw [hline]
    simp [hblank, spoken, reply, Session.memoryAfter]

theorem run_loop_lines (lines : List String) (rest : List Reading) (c : Conversation) :
    (loop settings tree (lines.map .line ++ rest)).run c
      = (loop settings tree rest).run
          ⟨Session.memoryAfter c.memory (spoken lines),
            c.written ++ transcript settings (replies tree c.memory lines)⟩ := by
  induction lines generalizing c with
  | nil => simp [spoken, Session.memoryAfter, replies, transcript]
  | cons line lines ih =>
    rw [List.map_cons, List.cons_append, run_loop_line, ih,
      memoryAfter_spoken_cons c.memory line lines]
    simp [replies, transcript]

/-- What the terminal gives after the last line. -/
def lastReading (interrupted : Bool) : Reading := if interrupted then .interrupt else .ending

/-- What is written when the input ends. -/
def farewell (interrupted : Bool) : List Written :=
  [written (.prompt settings.prompt),
    written (.line .out .muted (if interrupted then "CTRL-C" else "CTRL-D"))]

/-- What is written before the first prompt. -/
def opening : List Written :=
  if settings.banner then
    [written (.line .out .title logo), written (.line .out .subtitle version)]
  else []

theorem loop_last_ends (interrupted : Bool) (others : List Reading) (c : Conversation) :
    (loop settings tree (lastReading interrupted :: others)).Ends c (.ok ()) c.memory
      (farewell settings interrupted) := by
  cases interrupted <;> exact (print_ends _ c).bind (print_ends _ _)

theorem run_session (readings : List Reading) (c : Conversation) :
    (session settings tree readings).run c
      = (loop settings tree readings).run ⟨c.memory, c.written ++ opening settings⟩ := by
  unfold session opening
  cases settings.banner with
  | true =>
    have hbanner : printBanner.Ends c (.ok ()) c.memory
        [written (.line .out .title logo), written (.line .out .subtitle version)] :=
      (print_ends _ c).bind (print_ends _ _)
    simp only [if_true, Action.run_bind]
    rw [hbanner]
  | false => simp

theorem length_replies (m : Memory) (lines : List String) :
    (replies tree m lines).length = lines.length := by
  induction lines generalizing m with
  | nil => rfl
  | cons line rest ih => simp [replies, ih]

theorem replies_append (m : Memory) (before after : List String) :
    replies tree m (before ++ after)
      = replies tree m before ++ replies tree (Session.memoryAfter m (spoken before)) after := by
  induction before generalizing m with
  | nil => rfl
  | cons line rest ih =>
    rw [List.cons_append, replies, ih, replies, memoryAfter_spoken_cons m line rest,
      List.cons_append]

end Rounds

/-! ### Lines that write nothing -/

/-- A line that completes no assignment in a memory. -/
inductive Idle [CallStack] (m : Memory) (line : String) : Prop where
  | blank (hblank : isBlankLine line = true)
  /-- The line has a wrong character, is no expression, or is too deep. -/
  | unread {why : Error} (hread : readSource line = .error why)
  /-- The evaluation has a value or fails, and it has not written before. -/
  | writeless {tokens : List Token} {e : Expr} (hread : readSource line = .ok (tokens, e))
      (hwrites : (e.evaluate m).writes = [])

section Removal

variable [CallStack]

theorem memory_evaluateSource (line : String) (m : Memory) :
    (evaluateSource line m).memory =
      match readSource line with
      | .error _ => m
      | .ok (_, e) => (e.evaluate m).memory := by
  unfold evaluateSource readSource
  cases tokenize line with
  | error why => rfl
  | ok tokens =>
    cases hparse : Expr.parse tokens with
    | error why => simp only [hparse]
    | ok e =>
      simp only [hparse]
      cases (e.evaluate m).outcome <;> rfl

/-- A line that completes no assignment leaves the memory alone. -/
theorem memoryAfter_of_idle {m : Memory} {line : String} (h : Idle m line) :
    Session.memoryAfter m (spoken [line]) = m := by
  cases hblank : isBlankLine line with
  | true => simp [spoken, hblank, Session.memoryAfter]
  | false =>
    have hspoken : spoken [line] = [line] := by simp [spoken, hblank]
    rw [hspoken, Session.memoryAfter, Session.memoryAfter, memory_evaluateSource]
    cases h with
    | blank hblank' => simp [hblank] at hblank'
    | unread hread => rw [hread]
    | writeless hread hwrites =>
      rw [hread]
      simp only
      rw [Expr.memory_evaluate, hwrites]
      rfl

/-- Without an idle line the memory after the lines is the same. -/
theorem memoryAfter_eraseIdx {m : Memory} {before after : List String} {line : String}
    (h : Idle (Session.memoryAfter m (spoken before)) line) :
    Session.memoryAfter m (spoken (before ++ after))
      = Session.memoryAfter m (spoken (before ++ line :: after)) := by
  rw [spoken_append, spoken_append, Session.memoryAfter_append, Session.memoryAfter_append,
    memoryAfter_spoken_cons _ line after, memoryAfter_of_idle h]

/-- Without an idle line all other answers are the same. -/
theorem replies_eraseIdx [Terminal] [Terminal.Writes] (tree : Bool) {m : Memory}
    {before after : List String} {line : String}
    (h : Idle (Session.memoryAfter m (spoken before)) line) :
    replies tree m (before ++ after)
      = (replies tree m (before ++ line :: after)).eraseIdx before.length := by
  rw [replies_append, replies_append, replies, memoryAfter_of_idle h,
    List.eraseIdx_append_of_length_le (Nat.le_of_eq (length_replies ..)), length_replies,
    Nat.sub_self, List.eraseIdx_zero, List.tail_cons]

end Removal

/-! ### Sessions -/

/-- **A session is the fold of its lines, and idle lines leave no trace on the others.**  Where the
console library writes every text, nothing that a line comes to is raised, and a line leaves the
memory that evaluating it leaves.  The loop takes the lines in order and goes on with whatever the
terminal gives after them; it ends at the first reading that is no line, and takes nothing
after it.  Every line that is not blank is answered in the memory that the lines before it have
left, and the memory is at the end that of evaluating these lines in turn.  Without a line that
completes no assignment the memory and all other answers are the same. -/
theorem session_fold [CallStack] [Terminal] [Terminal.Writes] (settings : Settings) (tree : Bool)
    (lines : List String) :
    (∀ line c, (evaluateLine tree line).run c =
      (.ok (evaluateSource line c.memory).outcome.isOk,
        ⟨(evaluateSource line c.memory).memory, c.written ++ answer tree c.memory line⟩)) ∧
    (∀ rest c, (loop settings tree (lines.map .line ++ rest)).run c =
      (loop settings tree rest).run
        ⟨Session.memoryAfter c.memory (spoken lines),
          c.written ++ transcript settings (replies tree c.memory lines)⟩) ∧
    (∀ interrupted others,
      (session settings tree (lines.map .line ++ lastReading interrupted :: others)).run
          ⟨.empty, []⟩ =
        (.ok (),
          ⟨Session.memoryAfter .empty (spoken lines),
            opening settings ++ transcript settings (replies tree .empty lines)
              ++ farewell settings interrupted⟩)) ∧
    (∀ before line after, lines = before ++ line :: after →
      (replies tree .empty lines)[before.length]? =
        some (if isBlankLine line then []
          else answer tree (Session.memoryAfter .empty (spoken before)) line)) ∧
    ∀ before line after, lines = before ++ line :: after →
      Idle (Session.memoryAfter .empty (spoken before)) line →
      replies tree .empty (before ++ after)
          = (replies tree .empty lines).eraseIdx before.length ∧
        Session.memoryAfter .empty (spoken (before ++ after))
          = Session.memoryAfter .empty (spoken lines) := by
  refine ⟨evaluateLine_ends tree, run_loop_lines settings tree lines, ?_, ?_, ?_⟩
  · intro interrupted others
    rw [run_session, run_loop_lines, loop_last_ends]
    rfl
  · rintro before line after rfl
    rw [replies_append, List.getElem?_append_right (Nat.le_of_eq (length_replies ..)),
      length_replies, Nat.sub_self, replies, List.getElem?_cons_zero, reply]
  · rintro before line after rfl hidle
    exact ⟨replies_eraseIdx tree hidle, memoryAfter_eraseIdx hidle⟩

section Plain

attribute [local instance] CallStack.unused Terminal.plain

/-- A line that fails without a write may be left out after one that fails with a write. -/
theorem session_withoutIdle :
    Idle (Session.memoryAfter .empty (spoken ["(x=TAU)+y"])) "y" ∧
      replies true .empty ["(x=TAU)+y", "x"]
        = (replies true .empty ["(x=TAU)+y", "y", "x"]).eraseIdx 1 ∧
      Session.memoryAfter .empty (spoken ["(x=TAU)+y", "x"])
        = Session.memoryAfter .empty (spoken ["(x=TAU)+y", "y", "x"]) := by
  have hidle : Idle (Session.memoryAfter .empty (spoken ["(x=TAU)+y"])) "y" := by
    refine .writeless (e := .identifier "y")
      (Expr.readSource_of_short rfl (by decide) rfl) ?_
    rw [Expr.writes_evaluate]
    rfl
  obtain ⟨-, -, -, -, hremoved⟩ := session_fold .default true ["(x=TAU)+y", "y", "x"]
  exact ⟨hidle, hremoved ["(x=TAU)+y"] "y" ["x"] rfl hidle⟩

end Plain

end Prompt

end Calculator
