/-
  Calculator/Proofs/Session.lean
  ==============================
  **Sessions keep what they have written.**  The sources of a session are
  evaluated in turn in one memory, and each of them may fail at any stage.  The
  trace has an event for every stage that succeeds and for every assignment that
  is completed, in order.  At every moment, also in the middle of an evaluation,
  the memory is the replay of the assignments of the trace so far, which begins
  without variables.

  A moment of a session lies between two sources, between the stages of a source,
  or at a stage of the walk of an evaluation.  The trace has a moment after each
  of its events.
-/
import Calculator.Proofs.Expr.Parsing
import Calculator.Proofs.Expr.Writes

namespace Calculator.Session

/-! ### Runs of sessions -/

section Runs

variable [CallStack]

/-- The evaluations of sources in turn. -/
def turns : Memory → List String → List Turn
  | _, [] => []
  | m, source :: rest =>
    let turn := evaluateSource source m
    turn :: turns turn.memory rest

def memoryAfter : Memory → List String → Memory
  | m, [] => m
  | m, source :: rest => memoryAfter (evaluateSource source m).memory rest

def trace (m : Memory) (sources : List String) : List Event :=
  (turns m sources).flatMap Turn.events

theorem memoryAfter_append (m : Memory) (before after : List String) :
    memoryAfter m (before ++ after) = memoryAfter (memoryAfter m before) after := by
  induction before generalizing m with
  | nil => rfl
  | cons source rest ih => simp only [List.cons_append, memoryAfter, ih]

theorem turns_append (m : Memory) (before after : List String) :
    turns m (before ++ after) = turns m before ++ turns (memoryAfter m before) after := by
  induction before generalizing m with
  | nil => rfl
  | cons source rest ih =>
    simp only [List.cons_append, turns, memoryAfter, ih]

@[simp] theorem trace_nil (m : Memory) : trace m [] = [] := rfl

theorem trace_cons (m : Memory) (source : String) (rest : List String) :
    trace m (source :: rest)
      = (evaluateSource source m).events ++ trace (evaluateSource source m).memory rest := rfl

theorem trace_append (m : Memory) (before after : List String) :
    trace m (before ++ after) = trace m before ++ trace (memoryAfter m before) after := by
  simp only [trace, turns_append, List.flatMap_append]

end Runs

/-! ### Writes in traces -/

def eventOf (write : String × Binary64) : Event := .assigned write.1 write.2

def write? : Event → Option (String × Binary64)
  | .assigned name value => some (name, value)
  | _ => none

/-- The assignments that events report. -/
def writes (events : List Event) : List (String × Binary64) := events.filterMap write?

theorem writes_append (earlier later : List Event) :
    writes (earlier ++ later) = writes earlier ++ writes later :=
  List.filterMap_append

theorem writes_map_eventOf (w : List (String × Binary64)) : writes (w.map eventOf) = w := by
  induction w with
  | nil => rfl
  | cons write rest ih => exact congrArg (write :: ·) ih

/-! ### One source -/

section Sources

/-- The events before the evaluation of a source that has been read. -/
def readEvents (source : String) (tokens : List Token) (e : Expr) : List Event :=
  [.tokenized source.length tokens.length, .parsed tokens.length e.render]

variable [CallStack]

/-- What a source leaves behind.  A source that cannot be read leaves the memory as it was. -/
inductive Traced (source : String) (m : Memory) : Turn → Prop where
  | lexical {why : InvalidToken} (hscan : tokenize source = .error why) :
      Traced source m ⟨[], .error (.lexical why), m⟩
  | syntactic {tokens : List Token} {why : SyntaxError} (hscan : tokenize source = .ok tokens)
      (hparse : Expr.parse tokens = .error why) :
      Traced source m
        ⟨[.tokenized source.length tokens.length], .error (.syntactic why), m⟩
  | evaluation {tokens : List Token} {e : Expr} {why : EvalError}
      (hscan : tokenize source = .ok tokens) (hparse : Expr.parse tokens = .ok e)
      (houtcome : (e.evaluate m).outcome = .error why) :
      Traced source m
        ⟨readEvents source tokens e ++ (e.completions m).map eventOf,
          .error (.evaluation why), (e.evaluate m).memory⟩
  | value {tokens : List Token} {e : Expr} {value : Binary64}
      (hscan : tokenize source = .ok tokens) (hparse : Expr.parse tokens = .ok e)
      (houtcome : (e.evaluate m).outcome = .ok value) :
      Traced source m
        ⟨readEvents source tokens e ++ (e.completions m).map eventOf
            ++ [.evaluated tokens.length value], .ok value, (e.evaluate m).memory⟩

theorem traced_evaluateSource (source : String) (m : Memory) :
    Traced source m (evaluateSource source m) := by
  cases hscan : tokenize source with
  | error why =>
    have hturn : evaluateSource source m = ⟨[], .error (.lexical why), m⟩ := by
      simp only [evaluateSource, hscan]
    rw [hturn]
    exact .lexical hscan
  | ok tokens =>
    cases hparse : Expr.parse tokens with
    | error why =>
      have hturn : evaluateSource source m
          = ⟨[.tokenized source.length tokens.length], .error (.syntactic why), m⟩ := by
        simp only [evaluateSource, hscan, hparse]
      rw [hturn]
      exact .syntactic hscan hparse
    | ok e =>
      cases houtcome : (e.evaluate m).outcome with
      | error why =>
        have hturn : evaluateSource source m
            = ⟨readEvents source tokens e ++ (e.completions m).map eventOf,
                .error (.evaluation why), (e.evaluate m).memory⟩ := by
          simp only [evaluateSource, hscan, hparse, houtcome, ← Expr.writes_evaluate]
          rfl
        rw [hturn]
        exact .evaluation hscan hparse houtcome
      | ok value =>
        have hturn : evaluateSource source m
            = ⟨readEvents source tokens e ++ (e.completions m).map eventOf
                ++ [.evaluated tokens.length value], .ok value, (e.evaluate m).memory⟩ := by
          simp only [evaluateSource, hscan, hparse, houtcome, ← Expr.writes_evaluate]
          rfl
        rw [hturn]
        exact .value hscan hparse houtcome

/-- A source writes nothing, or what its evaluation writes. -/
theorem traced_cases {source : String} {m : Memory} {turn : Turn} (h : Traced source m turn) :
    (writes turn.events = [] ∧ turn.memory = m) ∨
      ∃ e : Expr, writes turn.events = (e.evaluate m).writes ∧
        turn.memory = (e.evaluate m).memory := by
  cases h with
  | lexical => exact Or.inl ⟨rfl, rfl⟩
  | syntactic => exact Or.inl ⟨rfl, rfl⟩
  | @evaluation tokens e why =>
    refine Or.inr ⟨e, ?_, rfl⟩
    rw [writes_append, writes_map_eventOf, ← Expr.writes_evaluate]
    rfl
  | @value tokens e value =>
    refine Or.inr ⟨e, ?_, rfl⟩
    rw [writes_append, writes_append, writes_map_eventOf, ← Expr.writes_evaluate]
    exact List.append_nil _

theorem memory_of_traced {source : String} {m : Memory} {turn : Turn}
    (h : Traced source m turn) : turn.memory = m.replay (writes turn.events) := by
  rcases traced_cases h with ⟨hwrites, hmemory⟩ | ⟨e, hwrites, hmemory⟩
  · rw [hwrites, hmemory]
    rfl
  · rw [hwrites, hmemory]
    exact Expr.memory_evaluate e m

theorem constant?_of_traced {source : String} {m : Memory} {turn : Turn}
    (h : Traced source m turn) {write : String × Binary64} (hwrite : write ∈ writes turn.events) :
    constant? write.1 = none := by
  rcases traced_cases h with ⟨hwrites, -⟩ | ⟨e, hwrites, -⟩
  · rw [hwrites] at hwrite
    cases hwrite
  · rw [hwrites] at hwrite
    exact Expr.constant?_of_mem_writes hwrite

/-- The events of a source that has been read begin with those of its reading and its
assignments. -/
theorem prefix_events {source : String} {tokens : List Token} {e : Expr}
    (hscan : tokenize source = .ok tokens) (hparse : Expr.parse tokens = .ok e) (m : Memory) :
    readEvents source tokens e ++ (e.completions m).map eventOf
      <+: (evaluateSource source m).events := by
  have hevents := Expr.writes_evaluate e m
  cases houtcome : (e.evaluate m).outcome with
  | error why =>
    simp only [evaluateSource, hscan, hparse, houtcome, hevents]
    exact List.prefix_refl _
  | ok value =>
    simp only [evaluateSource, hscan, hparse, houtcome, hevents]
    exact List.prefix_append _ _

/-! ### Whole sessions -/

theorem memoryAfter_eq_replay (m : Memory) (sources : List String) :
    memoryAfter m sources = m.replay (writes (trace m sources)) := by
  induction sources generalizing m with
  | nil => rfl
  | cons source rest ih =>
    have hturn := memory_of_traced (traced_evaluateSource source m)
    calc memoryAfter m (source :: rest)
        = (evaluateSource source m).memory.replay
            (writes (trace (evaluateSource source m).memory rest)) := ih _
      _ = (m.replay (writes (evaluateSource source m).events)).replay
            (writes (trace (evaluateSource source m).memory rest)) := by rw [← hturn]
      _ = m.replay (writes (trace m (source :: rest))) := by
        rw [← Memory.replay_append, ← writes_append, trace_cons]

theorem constant?_of_mem_writes {m : Memory} {sources : List String}
    {write : String × Binary64} (h : write ∈ writes (trace m sources)) :
    constant? write.1 = none := by
  induction sources generalizing m with
  | nil => cases h
  | cons source rest ih =>
    rw [trace_cons, writes_append] at h
    rcases List.mem_append.mp h with h | h
    · exact constant?_of_traced (traced_evaluateSource source m) h
    · exact ih h

/-! ### Moments -/

/-- The trace and the memory at a moment of a session that begins without variables. -/
inductive Moment (sources : List String) : List Event → Memory → Prop where
  | between {before after : List String} (h : sources = before ++ after) :
      Moment sources (trace .empty before) (memoryAfter .empty before)
  | scanned {before after : List String} {source : String} {tokens : List Token}
      (h : sources = before ++ source :: after) (hscan : tokenize source = .ok tokens) :
      Moment sources (trace .empty before ++ [.tokenized source.length tokens.length])
        (memoryAfter .empty before)
  | during {before after : List String} {source : String} {tokens : List Token} {e : Expr}
      {stage : Expr.Stage} (h : sources = before ++ source :: after)
      (hscan : tokenize source = .ok tokens) (hparse : Expr.parse tokens = .ok e)
      (hreaches : Expr.Reaches (e.start (memoryAfter .empty before)) stage) :
      Moment sources
        (trace .empty before ++
          (readEvents source tokens e ++ stage.2.writes.reverse.map eventOf))
        stage.2.memory

theorem replay_of_moment {sources : List String} {events : List Event} {m : Memory}
    (h : Moment sources events m) : m = Memory.empty.replay (writes events) := by
  cases h with
  | between h => exact memoryAfter_eq_replay _ _
  | scanned h hscan =>
    rw [writes_append, Memory.replay_append]
    exact memoryAfter_eq_replay _ _
  | during h hscan hparse hreaches =>
    have hmemory := (Expr.follows_of_reaches_start hreaches).1
    rw [memoryAfter_eq_replay, ← Memory.replay_append] at hmemory
    rw [hmemory, writes_append, writes_append, writes_map_eventOf]
    rfl

theorem prefix_of_moment {sources : List String} {events : List Event} {m : Memory}
    (h : Moment sources events m) : events <+: trace .empty sources := by
  cases h with
  | between h =>
    rw [h, trace_append]
    exact List.prefix_append _ _
  | @scanned before after source tokens h hscan =>
    rw [h, trace_append, trace_cons, List.prefix_append_right_inj]
    apply List.IsPrefix.trans _ (List.prefix_append _ _)
    cases hparse : Expr.parse tokens with
    | error why =>
      simp only [evaluateSource, hscan, hparse]
      exact List.prefix_refl _
    | ok e =>
      refine List.IsPrefix.trans ?_ (prefix_events hscan hparse _)
      exact ⟨_, rfl⟩
  | @during before after source tokens e stage h hscan hparse hreaches =>
    rw [h, trace_append, trace_cons, List.prefix_append_right_inj]
    apply List.IsPrefix.trans _ (List.prefix_append _ _)
    apply List.IsPrefix.trans _ (prefix_events hscan hparse _)
    rw [List.prefix_append_right_inj, ← Expr.writes_evaluate]
    exact (Expr.follows_of_reaches_start hreaches).2.map eventOf

/-- A part of a trace ends in the events of some source, or it is the whole trace. -/
theorem prefix_trace_cases {m : Memory} {sources : List String} {events : List Event}
    (h : events <+: trace m sources) :
    events = trace m sources ∨
      ∃ before source after part, sources = before ++ source :: after ∧
        part <+: (evaluateSource source (memoryAfter m before)).events ∧
        events = trace m before ++ part := by
  induction sources generalizing m events with
  | nil => exact Or.inl (List.prefix_nil.mp h)
  | cons source rest ih =>
    rw [trace_cons] at h
    rcases List.prefix_or_prefix_of_prefix h (List.prefix_append _ _) with hpart | hfirst
    · exact Or.inr ⟨[], source, rest, events, rfl, hpart, rfl⟩
    · obtain ⟨others, rfl⟩ := hfirst
      rw [List.prefix_append_right_inj] at h
      rcases ih h with hall | ⟨before, next, after, part, hsources, hpart, hothers⟩
      · left
        rw [hall, trace_cons]
      · right
        exact ⟨source :: before, next, after, part, congrArg (source :: ·) hsources, hpart,
          by rw [hothers, trace_cons, List.append_assoc]⟩

theorem exists_moment_of_part {sources : List String} {events : List Event}
    (h : events <+: trace .empty sources) : ∃ m, Moment sources events m := by
  rcases prefix_trace_cases h with rfl | ⟨before, source, after, part, hsources, hpart, rfl⟩
  · exact ⟨_, .between (List.append_nil sources).symm⟩
  · have hnone : ∃ m, Moment sources (trace .empty before ++ []) m := by
      rw [List.append_nil]
      exact ⟨_, .between hsources⟩
    have hall : ∃ m, Moment sources
        (trace .empty before ++ (evaluateSource source (memoryAfter .empty before)).events) m := by
      have htrace : trace .empty (before ++ [source]) = trace .empty before ++
          (evaluateSource source (memoryAfter .empty before)).events := by
        rw [trace_append, trace_cons, trace_nil, List.append_nil]
      rw [← htrace]
      have hbetween : sources = before ++ [source] ++ after := by
        rw [hsources, List.append_assoc, List.singleton_append]
      exact ⟨_, .between hbetween⟩
    -- A source whose evaluation fails and one that has a value share all events but the last.
    have hduring : ∀ {tokens : List Token} {e : Expr} {part : List Event},
        tokenize source = .ok tokens → Expr.parse tokens = .ok e →
        part <+: readEvents source tokens e
          ++ (e.completions (memoryAfter .empty before)).map eventOf →
        ∃ m, Moment sources (trace .empty before ++ part) m := by
      intro tokens e part hscan hparse hpart
      rcases List.prefix_cons_iff.mp hpart with rfl | ⟨read, rfl, hread⟩
      · exact hnone
      rcases List.prefix_cons_iff.mp hread with rfl | ⟨assigned, rfl, hassigned⟩
      · exact ⟨_, .scanned hsources hscan⟩
      -- Some stage of the walk has made exactly these assignments.
      obtain ⟨w, hw, rfl⟩ := List.prefix_map_iff.mp hassigned
      rw [← Expr.writes_evaluate] at hw
      obtain ⟨stage, hreaches, rfl⟩ := Expr.exists_stage_of_part hw
      exact ⟨_, .during hsources hscan hparse hreaches⟩
    have htraced := traced_evaluateSource source (memoryAfter .empty before)
    generalize evaluateSource source (memoryAfter .empty before) = turn at *
    cases htraced with
    | lexical hscan =>
      obtain rfl := List.prefix_nil.mp hpart
      exact hnone
    | syntactic hscan hparse =>
      rcases List.prefix_cons_iff.mp hpart with rfl | ⟨read, rfl, hread⟩
      · exact hnone
      obtain rfl := List.prefix_nil.mp hread
      exact ⟨_, .scanned hsources hscan⟩
    | evaluation hscan hparse houtcome => exact hduring hscan hparse hpart
    | value hscan hparse houtcome =>
      rcases List.prefix_concat_iff.mp hpart with rfl | hassigned
      · exact hall
      · exact hduring hscan hparse hassigned

/-! ### The memory of a session is its trace -/

/-- **The memory of a session is the replay of its trace.**  Every source leaves behind what its
stages come to.  At every moment the variables stand in the order in which they were first
assigned, and each has the value that was assigned last; no constant is ever assigned, and no
name loses its value. -/
theorem session_replays (sources : List String) :
    (∀ before source after, sources = before ++ source :: after →
      ∃ turn, Traced source (memoryAfter .empty before) turn ∧
        turns .empty sources = turns .empty before ++ turn :: turns turn.memory after) ∧
    (∀ events, events <+: trace .empty sources ↔ ∃ m, Moment sources events m) ∧
    (∀ events m, Moment sources events m →
      m = Memory.empty.replay (writes events) ∧
      m.variableNames = ((writes events).map Prod.fst).eraseDups ∧
      ∀ name, m.bindings.lookup name = (writes events).reverse.lookup name) ∧
    (∀ name value, .assigned name value ∈ trace .empty sources → constant? name = none) ∧
    (∀ events m later n, Moment sources events m → Moment sources later n → events <+: later →
      ∀ name, m.contains name = true → n.contains name = true) := by
  refine ⟨?_, ?_, ?_, ?_, ?_⟩
  · intro before source after hsources
    refine ⟨evaluateSource source (memoryAfter .empty before), traced_evaluateSource _ _, ?_⟩
    rw [hsources, turns_append, turns]
  · intro events
    exact ⟨exists_moment_of_part, fun ⟨m, hm⟩ => prefix_of_moment hm⟩
  · intro events m hm
    have hreplay := replay_of_moment hm
    refine ⟨hreplay, ?_, ?_⟩
    · rw [hreplay, Memory.variableNames_replay_empty]
    · intro name
      rw [hreplay, Memory.lookup_replay]
      exact Option.or_none
  · intro name value hevent
    have hwrite : (name, value) ∈ writes (trace .empty sources) :=
      List.mem_filterMap.mpr ⟨_, hevent, rfl⟩
    exact constant?_of_mem_writes hwrite
  · intro events m later n hm hn hlater name hname
    obtain ⟨others, rfl⟩ := hlater
    rw [replay_of_moment hn, writes_append, Memory.replay_append, ← replay_of_moment hm]
    exact Memory.contains_replay hname _

end Sources

def interruptedTokens : List Token :=
  [⟨.symbol .leftParen, 0, 1⟩, ⟨.identifier "x", 1, 2⟩, ⟨.symbol .assign, 2, 3⟩,
    ⟨.identifier "TAU", 3, 6⟩, ⟨.symbol .rightParen, 6, 7⟩, ⟨.symbol .plus, 7, 8⟩,
    ⟨.identifier "y", 8, 9⟩]

def interrupted : Expr :=
  .binary .add (.group (.assign .assign "x" (.identifier "TAU"))) (.identifier "y")

section Unused

attribute [local instance] CallStack.unused

/-- An assignment that was completed before a failure stays in the trace and in the memory. -/
theorem session_interrupted :
    ∃ m, Moment ["(x=TAU)+y"]
      (readEvents "(x=TAU)+y" interruptedTokens interrupted ++ [.assigned "x" .tau]) m ∧
      m.variableNames = ["x"] ∧ m.bindings.lookup "x" = some .tau := by
  obtain ⟨-, hparts, hmoment, -, -⟩ := session_replays ["(x=TAU)+y"]
  have hscan : tokenize "(x=TAU)+y" = .ok interruptedTokens := by rfl
  have hparse : Expr.parse interruptedTokens = .ok interrupted :=
    Expr.parse_of_short (by decide)
  have htau : Memory.empty.get? "TAU" = some .tau := by
    simp [Memory.get?, constant?, constants, Memory.lookup_cons]
  have hy : (Memory.mk [("x", .tau)]).get? "y" = none := by
    simp [Memory.get?, constant?, constants, Memory.lookup_cons]
  have hwrite : Evaluation.write "x" .tau .empty
      = ⟨.ok .tau, ⟨[("x", .tau)]⟩, [("x", .tau)]⟩ := by
    rw [Evaluation.write, Memory.assign?_variable (by decide)]
    rfl
  have hcompletions : interrupted.completions .empty = [("x", .tau)] := by
    rw [← Expr.writes_meaning]
    simp [interrupted, Expr.meaning, AssignOp.combines?, htau, hy, hwrite, Evaluation.bind,
      Evaluation.value, Evaluation.failure]
  have hevents : readEvents "(x=TAU)+y" interruptedTokens interrupted ++ [.assigned "x" .tau]
      <+: trace .empty ["(x=TAU)+y"] := by
    have hread := prefix_events hscan hparse .empty
    rw [trace_cons, trace_nil, List.append_nil]
    simpa only [hcompletions, List.map_singleton, eventOf] using hread
  obtain ⟨m, hm⟩ := (hparts _).mp hevents
  obtain ⟨-, hvariables, hlookup⟩ := hmoment _ m hm
  exact ⟨m, hm, hvariables, hlookup "x"⟩

end Unused

end Calculator.Session
