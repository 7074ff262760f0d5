/-
  Calculator/Proofs/Expr/Agreement.lean
  =====================================
  **The descent and the reader agree.**  While a procedure runs, the reader that
  stood where it was entered takes the same tokens.  When the procedure ends, the
  reader need not have closed what the procedure has built, but it treats the next
  lexeme as if it had, and the next lexeme asks for nothing that the procedure
  would have taken.  When the procedure refuses, the reader refuses the same token
  for the same reason.  The points on the way need no more frames than the
  procedures hold, and no fewer.

  All this is one more contract of the procedures, and every body keeps it.
-/
import Calculator.Proofs.Expr.Standing

namespace Calculator.Expr

variable {tokens : List Token} {r r' : Reader} {p n origin : Nat} {a : Activation}
  {inner : List Frame → List Frame} {bound : Level}

/-! ### The contract -/

/-- From where a procedure is entered a reader comes to where another one is entered, inside
further constructs, if there are frames for what that one needs in any case. -/
def Comes (tokens : List Token) (n : Nat) (a : Activation) (inner : List Frame → List Frame)
    (b : Activation) : Prop :=
  ∀ m frames r, n ≤ m → b.reach ≤ m → a.IsCharged frames → Stands tokens a frames r →
    ∃ r', Passes tokens m (r, a.start) (r', b.start) ∧ Stands tokens b (inner frames) r'

/-- From where a procedure is entered a reader comes to the end of an expression inside further
constructs. -/
def Arrives (tokens : List Token) (n : Nat) (a : Activation) (inner : List Frame → List Frame)
    (e : Expr) (stop : Nat) (bound : Level) : Prop :=
  ∀ frames r, a.IsCharged frames → Stands tokens a frames r →
    ∃ r', Passes tokens n (r, a.start) (r', stop) ∧
      r'.EndsBefore (inner frames) e (lexemeAt tokens stop) ∧ r'.focus ≠ .operand ∧
      closingLevel (lexemeAt tokens stop) ≤ bound

/-- From where a procedure is entered a reader comes to a token that it refuses. -/
def Refuses (tokens : List Token) (n : Nat) (a : Activation) (why : Refusal) (stop : Nat) : Prop :=
  ∀ frames r, a.IsCharged frames → Stands tokens a frames r →
    ∃ r', Passes tokens n (r, a.start) (r', stop) ∧
      r'.next (lexemeAt tokens stop) = .refused why ∧ r'.need (lexemeAt tokens stop) ≤ n

/-- A reader that stands where a procedure is entered takes what the procedure takes and refuses
what it refuses, over points that need no more than so many frames if all procedures find one. -/
def agreement (tokens : List Token) (origin n : Nat) : Contract where
  enters _ b := ∃ frames, Reached tokens origin b frames
  fits a := a.depth ≤ n
  takes _ := True
  returned a e stop := a.reach ≤ n ∧ Arrives tokens n a id e stop a.procedure.bound
  refused a why stop := a.reach ≤ n ∧ Refuses tokens n a why stop
  trans _ h := h

theorem Arrives.comes {b : Activation} {e : Expr} {stop : Nat}
    (harrives : Arrives tokens n b id e stop bound) (hreach : b.reach ≤ n)
    (hcharge : ∀ frames, a.IsCharged frames → b.IsCharged (inner frames))
    (hcomes : Comes tokens n a inner b) : Arrives tokens n a inner e stop bound := by
  intro frames r hcharged hstands
  obtain ⟨r', hpasses, hstands'⟩ := hcomes n frames r (Nat.le_refl n) hreach hcharged hstands
  obtain ⟨r'', hpasses', hends⟩ := harrives (inner frames) r' (hcharge frames hcharged) hstands'
  exact ⟨r'', hpasses.trans hpasses', hends⟩

theorem Arrives.weaken {e : Expr} {stop : Nat} {bound' : Level}
    (h : Arrives tokens n a inner e stop bound) (hbound : bound ≤ bound') :
    Arrives tokens n a inner e stop bound' := by
  intro frames r hcharged hstands
  obtain ⟨r', hpasses, hends, hfocus, hlevel⟩ := h frames r hcharged hstands
  exact ⟨r', hpasses, hends, hfocus, Level.le_trans hlevel hbound⟩

/-- The last operand of an operation ends the operation. -/
theorem Arrives.close {f : Frame} {e whole : Expr} {stop : Nat}
    (h : Arrives tokens n a (f :: ·) e stop bound) (hclose : f.close? e = some (f.level, whole))
    (hbracket : f.isBracket = false) (hlevel : bound ≤ f.level) :
    Arrives tokens n a id whole stop bound := by
  intro frames r hcharged hstands
  obtain ⟨r', hpasses, hends, hfocus, hcloses⟩ := h frames r hcharged hstands
  exact ⟨r', hpasses, hends.close hclose hbracket (Level.le_trans hcloses hlevel), hfocus, hcloses⟩

/-- The charge of a construct: as many procedures are entered inside it as it weighs, beside those
down to the one that opens it. -/
def Charges (f g : Procedure) (inner : List Frame → List Frame) : Prop :=
  ∀ frames, f.height + totalWeight frames + 1 = g.height + totalWeight (inner frames)

theorem Charges.isCharged {callee : Procedure} (h : Charges a.procedure callee inner)
    {frames : List Frame} (hcharged : a.IsCharged frames) :
    (Activation.mk callee p (a.depth + 1)).IsCharged (inner frames) := by
  have hcharge := h frames
  simp only [Activation.IsCharged] at hcharged ⊢
  omega

/-- A run that has come to a procedure comes to those that it calls. -/
theorem Reached.calls {callee : Procedure} {frames : List Frame}
    (h : Reached tokens origin a frames)
    (hcomes : Comes tokens n a inner ⟨callee, p, a.depth + 1⟩)
    (hcharges : Charges a.procedure callee inner) (hcalled : callee.isLoop = false) :
    Reached tokens origin ⟨callee, p, a.depth + 1⟩ (inner frames) := by
  obtain ⟨m, r, hpasses, hstands⟩ := h.stands
  have hcharged := hcharges.isCharged (p := p) h.charged
  -- A bound for the points so far, and for those of the callee.
  obtain ⟨k, hnk, hmk, hreach⟩ : ∃ k, n ≤ k ∧ m ≤ k ∧
      (Activation.mk callee p (a.depth + 1)).reach ≤ k :=
    ⟨max (max n m) (Activation.mk callee p (a.depth + 1)).reach, by omega, by omega, by omega⟩
  obtain ⟨r', hpasses', hstands'⟩ := hcomes k frames r hnk hreach h.charged hstands
  have hwhole : Passes tokens k _ _ := (hpasses.mono hmk).trans hpasses'
  refine ⟨hcharged, ⟨k, r', hwhole, hstands'⟩, ⟨k, p, ?_⟩,
    exists_need_of_stands _ hcharged hstands' hwhole hcalled⟩
  rw [hstands'.eq_operand hcalled] at hwhole
  exact hwhole

/-- A run that has come to a procedure comes to its loop, in the same frame. -/
theorem Reached.loops {rest : Procedure} {frames : List Frame}
    (h : Reached tokens origin a frames)
    (hcomes : Comes tokens n a id ⟨rest, p, a.depth⟩) (hheight : rest.height = a.procedure.height) :
    Reached tokens origin ⟨rest, p, a.depth⟩ frames := by
  obtain ⟨m, r, hpasses, hstands⟩ := h.stands
  obtain ⟨k, hnk, hmk, hreach⟩ : ∃ k, n ≤ k ∧ m ≤ k ∧ (Activation.mk rest p a.depth).reach ≤ k :=
    ⟨max (max n m) (Activation.mk rest p a.depth).reach, by omega, by omega, by omega⟩
  obtain ⟨r', hpasses', hstands'⟩ := hcomes k frames r hnk hreach h.charged hstands
  have hwhole : Passes tokens k _ _ := (hpasses.mono hmk).trans hpasses'
  refine ⟨?_, ⟨k, r', hwhole, hstands'⟩, h.opened, h.needed⟩
  have hcharged := h.charged
  simp only [Activation.IsCharged] at hcharged ⊢
  omega

/-- A call agrees if the reader comes to the callee, and the rest agrees once the reader arrives
at the callee's end. -/
theorem agrees_calls {callee : Procedure} {next : Expr → Body}
    (hreached : ∃ frames, Reached tokens origin a frames)
    (hcomes : Comes tokens n a inner ⟨callee, p, a.depth + 1⟩)
    (hcharges : Charges a.procedure callee inner) (hcalled : callee.isLoop = false)
    (hbelow : a.procedure.below ≤ callee.below + 1)
    (hnext : ∀ e stop, a.reach ≤ n → Arrives tokens n a inner e stop callee.bound →
      (next e).Meets tokens (agreement tokens origin n) a stop) :
    (Body.calls callee next).Meets tokens (agreement tokens origin n) a p := by
  have hreach : (Activation.mk callee p (a.depth + 1)).reach ≤ n → a.reach ≤ n := by
    simp only [Activation.reach]
    omega
  refine ⟨?_, ?_, ?_⟩
  · obtain ⟨frames, hframes⟩ := hreached
    exact ⟨_, hframes.calls hcomes hcharges hcalled⟩
  · rintro why stop ⟨hcallee, hrefuses⟩
    refine ⟨hreach hcallee, ?_⟩
    intro frames r hcharged hstands
    obtain ⟨r', hpasses, hstands'⟩ := hcomes n frames r (Nat.le_refl n) hcallee hcharged hstands
    obtain ⟨r'', hpasses', hrefused⟩ :=
      hrefuses (inner frames) r' (hcharges.isCharged hcharged) hstands'
    exact ⟨r'', hpasses.trans hpasses', hrefused⟩
  · rintro e stop _ ⟨hcallee, harrives⟩
    have harrives' : Arrives tokens n _ id e stop callee.bound := harrives
    exact hnext e stop (hreach hcallee)
      (harrives'.comes hcallee (fun _ hcharged => hcharges.isCharged hcharged) hcomes)

theorem agrees_last {callee : Procedure} (hreached : ∃ frames, Reached tokens origin a frames)
    (hcomes : Comes tokens n a id ⟨callee, p, a.depth + 1⟩)
    (hcharges : Charges a.procedure callee id) (hcalled : callee.isLoop = false)
    (hbelow : a.procedure.below ≤ callee.below + 1)
    (hbound : callee.bound ≤ a.procedure.bound) :
    (Body.calls callee .returns).Meets tokens (agreement tokens origin n) a p :=
  agrees_calls hreached hcomes hcharges hcalled hbelow fun _ _ hreach harrives =>
    ⟨hreach, harrives.weaken hbound⟩

/-- A procedure agrees that goes on with its loop. -/
theorem agrees_loops {rest : Procedure} (hreached : ∃ frames, Reached tokens origin a frames)
    (hcomes : Comes tokens n a id ⟨rest, p, a.depth⟩)
    (hheight : rest.height = a.procedure.height) (hreach : a.reach ≤ n)
    (hbound : rest.bound ≤ a.procedure.bound) :
    (Body.loops rest).Meets tokens (agreement tokens origin n) a p := by
  have hcharge : ∀ frames, a.IsCharged frames →
      (Activation.mk rest p a.depth).IsCharged frames := by
    intro frames hcharged
    simp only [Activation.IsCharged] at hcharged ⊢
    omega
  refine ⟨?_, ?_, ?_⟩
  · obtain ⟨frames, hframes⟩ := hreached
    exact ⟨_, hframes.loops hcomes hheight⟩
  · rintro why stop ⟨hrest, hrefuses⟩
    refine ⟨hreach, ?_⟩
    intro frames r hcharged hstands
    obtain ⟨r', hpasses, hstands'⟩ := hcomes n frames r (Nat.le_refl n) hrest hcharged hstands
    obtain ⟨r'', hpasses', hrefused⟩ := hrefuses frames r' (hcharge frames hcharged) hstands'
    exact ⟨r'', hpasses.trans hpasses', hrefused⟩
  · rintro e stop _ ⟨hrest, harrives⟩
    have harrives' : Arrives tokens n _ id e stop rest.bound := harrives
    exact ⟨hreach, (harrives'.comes hrest hcharge hcomes).weaken hbound⟩

/-- A binary operator opens its operation around the operand that has ended. -/
theorem comes_rightOperand {op : BinaryOp} {left : Expr} {callee : Procedure} {depth : Nat}
    (harrives : Arrives tokens n a id left p bound)
    (hop : lexemeAt tokens p = some (.symbol op.symbol))
    (hplace : ∀ frames r, Stands tokens a frames r → hole frames ≤ op.level)
    (hstands : ∀ frames, Fresh tokens (p + 1) frames op.rightLevel →
      Stands tokens ⟨callee, p + 1, depth⟩ frames ⟨frames, .operand⟩) :
    Comes tokens n a (.ofBinary op left :: ·) ⟨callee, p + 1, depth⟩ := by
  intro m frames r hnm _ hcharged h
  obtain ⟨r', hpasses, hends, hfocus, -⟩ := harrives frames r hcharged h
  rw [hop] at hends
  have hopen := Reader.EndsBefore.advance hends (hplace frames r h)
  have hfresh : Fresh tokens (p + 1) (.ofBinary op left :: frames) op.rightLevel := by
    rw [← Frame.hole_ofBinary op left]
    exact fresh_inside (by cases op <;> rfl) (p + 1)
  have hneed : r'.need (some (.symbol op.symbol)) ≤ m := by simp [need_eq_zero hfocus]
  exact ⟨_, (hpasses.mono hnm).trans (passes_taken hop hopen hneed), hstands _ hfresh⟩

theorem Arrives.binary {op : BinaryOp} {left right : Expr} {stop : Nat}
    (h : Arrives tokens n a (.ofBinary op left :: ·) right stop bound) (hbound : bound ≤ op.level) :
    Arrives tokens n a id (.binary op left right) stop bound := by
  refine h.close ?_ (Frame.isBracket_ofBinary op left) ?_
  · rw [Frame.level_ofBinary]
    exact Frame.close?_ofBinary op left right
  · rw [Frame.level_ofBinary]
    exact hbound

/-! ### The procedures -/

/-- A procedure that hands on to the next one of the grammar opens nothing. -/
theorem charges_id {f g : Procedure} (h : g.height = f.height + 1) : Charges f g id := by
  intro frames
  dsimp only [id]
  omega

/-- A procedure that opens a construct. -/
theorem charges_opened {f g : Procedure} {frame : Frame}
    (h : g.height + frame.weight = f.height + 1) : Charges f g (frame :: ·) := by
  intro frames
  rw [totalWeight]
  omega

theorem height_operand (c : Chain) : c.operand.height = (Procedure.chain c).height + 1 := by
  cases c <;> rfl

theorem below_chain_le (c : Chain) : (Procedure.chain c).below ≤ c.operand.below + 1 := by
  cases c <;> decide

theorem isLoop_operand (c : Chain) : c.operand.isLoop = false := by cases c <;> rfl

theorem height_chainRest (c : Chain) (left : Expr) :
    (Procedure.chainRest c left).height = (Procedure.chain c).height := by cases c <;> rfl

theorem weight_ofBinary_of_level {c : Chain} {op : BinaryOp} (left : Expr)
    (h : op.level = c.level) : (Frame.ofBinary op left).weight = 0 := by
  cases c <;> cases op <;> first | rfl | cases h

section Bodies

variable {depth : Nat}

theorem agrees_expression
    (hreached : ∃ frames, Reached tokens origin ⟨.expression, p, depth⟩ frames) :
    Procedure.expression.body.Meets tokens (agreement tokens origin n) ⟨.expression, p, depth⟩ p :=
  agrees_last hreached (fun _ _ r _ _ _ hstands => ⟨r, .refl, hstands⟩) (charges_id rfl) rfl
    (Nat.le_refl _) (Level.le_refl _)

theorem agrees_assignment
    (hreached : ∃ frames, Reached tokens origin ⟨.assignment, p, depth⟩ frames) :
    Procedure.assignment.body.Meets tokens (agreement tokens origin n) ⟨.assignment, p, depth⟩
      p := by
  simp only [Procedure.body, Body.Meets, Nat.add_zero]
  split
  · next target op htarget =>
    obtain ⟨hfirst, s, hsecond, hop⟩ := exists_of_target? htarget
    obtain rfl := eq_symbol_of_assignOp? hop
    refine ⟨trivial, fun _ _ => ⟨trivial, fun _ _ => ?_⟩⟩
    have hcomes : Comes tokens n ⟨.assignment, p, depth⟩ (.assign op target :: ·)
        ⟨.assignment, p + 1 + 1, depth + 1⟩ := by
      rintro m frames r - hreach hcharged ⟨rfl, hplace, -⟩
      have hneed : Reader.need ⟨frames, .operand⟩ (some (.identifier target)) ≤ m := by
        have hle := need_le ⟨frames, .operand⟩ (some (.identifier target))
        simp only [Activation.reach, Activation.IsCharged, Procedure.below, Procedure.height] at *
        omega
      have hnamed : Passes tokens m (⟨frames, .operand⟩, p) (⟨frames, .named target⟩, p + 1) :=
        passes_taken hfirst rfl hneed
      have hopen := passes_taken hsecond (advance_assign op target hplace) (Nat.zero_le m)
      exact ⟨_, hnamed.trans hopen, rfl, Level.le_refl _, fun _ _ _ => by simp⟩
    exact agrees_calls hreached hcomes (charges_opened rfl) rfl (Nat.le_succ _)
      fun value stop hreach harrives => ⟨hreach, harrives.close rfl rfl (Level.le_refl _)⟩
  · next htarget =>
    refine agrees_last hreached ?_ (charges_id rfl) rfl (Nat.le_refl _) (Level.le_refl _)
    rintro m frames r - - - ⟨rfl, hplace, hunclosed⟩
    exact ⟨_, .refl, rfl, hunclosed, fun _ => htarget,
      Level.le_trans hplace (Level.assignment_le _)⟩

/-- A chain goes on after what has been read of it. -/
theorem comes_chainRest {c : Chain} {left : Expr}
    (harrives : Arrives tokens n a id left p c.operand.bound)
    (hplace : ∀ frames r, Stands tokens a frames r → hole frames ≤ c.level) :
    Comes tokens n a id ⟨.chainRest c left, p, depth⟩ := by
  intro m frames r hnm _ hcharged hstands
  obtain ⟨r', hpasses, hends, hfocus, hlevel⟩ := harrives frames r hcharged hstands
  exact ⟨r', hpasses.mono hnm, hplace frames r hstands, hends, hfocus,
    Level.le_trans hlevel (bound_operand_le c)⟩

theorem agrees_chain (c : Chain)
    (hreached : ∃ frames, Reached tokens origin ⟨.chain c, p, depth⟩ frames) :
    (Procedure.chain c).body.Meets tokens (agreement tokens origin n) ⟨.chain c, p, depth⟩ p := by
  have hcomes : Comes tokens n ⟨.chain c, p, depth⟩ id ⟨c.operand, p, depth + 1⟩ := by
    rintro m frames r - - - ⟨rfl, hfresh⟩
    exact ⟨_, .refl, stands_operand (hfresh.weaken (level_le_operandLevel c))⟩
  refine agrees_calls hreached hcomes (charges_id (height_operand c)) (isLoop_operand c)
    (below_chain_le c) fun left stop hreach harrives => ?_
  refine agrees_loops hreached (comes_chainRest harrives ?_) (height_chainRest c left) hreach ?_
  · rintro frames r ⟨-, hfresh⟩
    exact hfresh.hole_le
  · cases c <;> exact Level.le_refl _

theorem agrees_chainRest (c : Chain) (left : Expr)
    (hreached : ∃ frames, Reached tokens origin ⟨.chainRest c left, p, depth⟩ frames)
    (hfits : depth ≤ n) :
    (Procedure.chainRest c left).body.Meets tokens (agreement tokens origin n)
      ⟨.chainRest c left, p, depth⟩ p := by
  have hplace : ∀ frames r, Stands tokens ⟨.chainRest c left, p, depth⟩ frames r →
      hole frames ≤ c.level := fun _ _ hstands => hstands.1
  have hhere : Arrives tokens n ⟨.chainRest c left, p, depth⟩ id left p c.level :=
    fun frames r _ hstands => ⟨r, .refl, hstands.2⟩
  apply meets_takesIf
  · intro s op hs hop
    obtain ⟨rfl, hlevel⟩ := eq_symbol_of_op? hop
    have hcomes : Comes tokens n ⟨.chainRest c left, p, depth⟩ (.ofBinary op left :: ·)
        ⟨c.operand, p + 1, depth + 1⟩ := by
      refine comes_rightOperand hhere hs (by rwa [hlevel]) ?_
      intro frames hfresh
      rw [rightLevel_of_level hlevel] at hfresh
      exact stands_operand hfresh
    have hcharges : Charges (.chainRest c left) c.operand (.ofBinary op left :: ·) := by
      apply charges_opened
      rw [weight_ofBinary_of_level left hlevel, height_operand c, height_chainRest c left]
    refine ⟨trivial, agrees_calls hreached hcomes hcharges (isLoop_operand c) (Nat.zero_le _)
      fun right stop hreach harrives => ?_⟩
    have hwhole := harrives.binary (by rw [hlevel]; exact bound_operand_le c)
    exact agrees_loops hreached (comes_chainRest hwhole hplace)
      (by rw [height_chainRest, height_chainRest]) hreach (by cases c <;> exact Level.le_refl _)
  · intro hnone
    refine ⟨hfits, ?_⟩
    rintro frames r - ⟨-, hends, hfocus, hlevel⟩
    exact ⟨r, .refl, hends, hfocus, closingLevel_le_of_op? left hlevel hnone⟩

theorem agrees_power (hreached : ∃ frames, Reached tokens origin ⟨.power, p, depth⟩ frames) :
    Procedure.power.body.Meets tokens (agreement tokens origin n) ⟨.power, p, depth⟩ p := by
  have hcomes : Comes tokens n ⟨.power, p, depth⟩ id ⟨.signed, p, depth + 1⟩ := by
    rintro m frames r - - - ⟨rfl, hfresh⟩
    exact ⟨_, .refl, rfl, hfresh.weaken (Level.le_unary _)⟩
  refine agrees_calls hreached hcomes (charges_id rfl) rfl (Nat.le_refl _)
    fun base stop hreach harrives => ?_
  apply meets_takesIf
  · intro s _ hs hcaret
    obtain rfl := eq_of_only hcaret
    have hcomes' : Comes tokens n ⟨.power, p, depth⟩ (.ofBinary .pow base :: ·)
        ⟨.power, stop + 1, depth + 1⟩ := by
      refine comes_rightOperand harrives hs ?_ fun frames hfresh => ⟨rfl, hfresh⟩
      rintro frames r ⟨-, hfresh⟩
      exact hfresh.hole_le
    exact ⟨trivial, agrees_calls hreached hcomes' (charges_opened rfl) rfl (Nat.le_succ _)
      fun exponent stop' hreach' harrives' => ⟨hreach', harrives'.binary (by decide)⟩⟩
  · intro hnone
    refine ⟨hreach, ?_⟩
    intro frames r hcharged hstands
    obtain ⟨r', hpasses, hends, hfocus, -⟩ := harrives frames r hcharged hstands
    exact ⟨r', hpasses, hends, hfocus, closingLevel_le_product hnone⟩

theorem agrees_signed (hreached : ∃ frames, Reached tokens origin ⟨.signed, p, depth⟩ frames) :
    Procedure.signed.body.Meets tokens (agreement tokens origin n) ⟨.signed, p, depth⟩ p := by
  apply meets_takesIf
  · intro s op hs hop
    obtain rfl := eq_symbol_of_unaryOp? hop
    have hcomes : Comes tokens n ⟨.signed, p, depth⟩ (.unary op :: ·)
        ⟨.signed, p + 1, depth + 1⟩ := by
      rintro m frames r - hreach hcharged ⟨rfl, -⟩
      have hopen : Reader.advance ⟨frames, .operand⟩ (.symbol op.symbol) =
          .taken ⟨.unary op :: frames, .operand⟩ := by cases op <;> rfl
      have hneed : Reader.need ⟨frames, .operand⟩ (some (.symbol op.symbol)) ≤ m := by
        have hle := need_le ⟨frames, .operand⟩ (some (.symbol op.symbol))
        simp only [Activation.reach, Activation.IsCharged, Procedure.below, Procedure.height] at *
        omega
      exact ⟨_, passes_taken hs hopen hneed, rfl, fresh_inside rfl (p + 1)⟩
    exact ⟨trivial, agrees_calls hreached hcomes (charges_opened rfl) rfl (Nat.le_succ _)
      fun operand stop hreach harrives =>
        ⟨hreach, harrives.close rfl rfl (Level.le_unary _)⟩⟩
  · intro hnone
    refine agrees_last hreached ?_ (charges_id rfl) rfl (Nat.le_refl _) (Level.le_refl _)
    rintro m frames r - - - ⟨rfl, hfresh⟩
    exact ⟨_, .refl, rfl, hfresh, hnone⟩

/-- A bracket is closed after its last operand, or refused. -/
theorem agrees_closes {f : Frame} {e whole : Expr} {stop : Nat} (hreach : a.reach ≤ n)
    (harrives : Arrives tokens n a (f :: ·) e stop .assignment) (hbracket : f.isBracket = true)
    (hwhole : ∀ frames, afterOperand (f :: frames) e (.symbol .rightParen) =
      .taken (endedAt frames whole))
    (hcomma : lexemeAt tokens stop = some (.symbol .comma) → f = .paren)
    (hbound : a.procedure.bound = .unary) :
    (Body.closes whole).Meets tokens (agreement tokens origin n) a stop := by
  apply meets_closes
  · intro hparen
    refine ⟨trivial, hreach, ?_⟩
    intro frames r hcharged hstands
    obtain ⟨r', hpasses, hends, hfocus, -⟩ := harrives frames r hcharged hstands
    rw [hparen] at hends
    have hneed : r'.need (some (.symbol .rightParen)) ≤ n := by simp [need_eq_zero hfocus]
    have hclosed := passes_taken hparen (advance_rightParen hends (hwhole frames) hbracket) hneed
    refine ⟨_, hpasses.trans hclosed, endsBefore_endedAt frames whole _, by simp [endedAt], ?_⟩
    rw [hbound]
    exact Level.le_unary _
  · intro hparen
    refine ⟨hreach, ?_⟩
    intro frames r hcharged hstands
    obtain ⟨r', hpasses, hends, hfocus, hlevel⟩ := harrives frames r hcharged hstands
    exact ⟨r', hpasses, next_unclosed hends hbracket hlevel hparen hcomma,
      by simp [need_eq_zero hfocus]⟩

theorem agrees_primary
    (hreached : ∃ frames, Reached tokens origin ⟨.primary, p, depth⟩ frames) (hfits : depth ≤ n) :
    Procedure.primary.body.Meets tokens (agreement tokens origin n) ⟨.primary, p, depth⟩ p := by
  -- The primary expression itself is as deep as its first token needs.
  have hneed : ∀ frames x, (Activation.mk .primary p depth).IsCharged frames →
      Reader.need ⟨frames, .operand⟩ x ≤ n := by
    intro frames x hcharged
    have hle := need_le ⟨frames, .operand⟩ x
    simp only [Activation.IsCharged, Procedure.height] at hcharged
    dsimp only at hle
    omega
  simp only [Procedure.body, Body.Meets, Nat.add_zero]
  split
  · next name hfirst =>
    split
    · next hsecond =>
      refine agrees_last hreached ?_ (charges_id rfl) rfl (Nat.zero_le _) (Level.le_refl _)
      rintro m frames r - - - ⟨rfl, -⟩
      exact ⟨_, .refl, rfl, ⟨name, hfirst⟩, hsecond⟩
    · next hsecond =>
      refine ⟨trivial, fun _ _ => ⟨hfits, ?_⟩⟩
      rintro frames r hcharged ⟨rfl, hfresh, -⟩
      refine ⟨_, passes_taken hfirst rfl (hneed frames _ hcharged), endsBefore_named hsecond ?_,
        by simp, Level.le_unary _⟩
      -- Where an assignment may start, the name is no target.
      intro op hop
      cases hadmits : admitsAssignment frames with
      | false => rfl
      | true =>
        have htarget := hfresh.untargeted hadmits
        rw [hfirst, hop] at htarget
        simp [target?] at htarget
  · next value hfirst =>
    refine ⟨trivial, fun _ _ => ⟨hfits, ?_⟩⟩
    rintro frames r hcharged ⟨rfl, -⟩
    exact ⟨_, passes_taken hfirst rfl (hneed frames _ hcharged), endsBefore_endedAt frames _ _,
      by simp, Level.le_unary _⟩
  · next hfirst =>
    have hcomes : Comes tokens n ⟨.primary, p, depth⟩ (.paren :: ·)
        ⟨.assignment, p + 1, depth + 1⟩ := by
      rintro m frames r hnm - hcharged ⟨rfl, -⟩
      exact ⟨_, passes_taken hfirst (opened_none .paren frames)
        (Nat.le_trans (hneed frames _ hcharged) hnm), rfl, Level.le_refl _, fun _ _ _ => by simp⟩
    exact ⟨trivial, fun _ _ => agrees_calls hreached hcomes (charges_opened rfl) rfl
      (Nat.zero_le _) fun e stop hreach harrives =>
        agrees_closes hreach harrives rfl (fun _ => rfl) (fun _ => rfl) rfl⟩
  · next hname hnumber hparen =>
    refine ⟨hfits, ?_⟩
    rintro frames r hcharged ⟨rfl, hfresh, hunary⟩
    refine ⟨_, .refl, ?_, hneed frames _ hcharged⟩
    cases hfirst : lexemeAt tokens p with
    | none => rfl
    | some x =>
      rcases atOperand_cases frames x with ⟨value, rfl, -⟩ | ⟨name, rfl, -⟩ | ⟨rfl, -⟩ |
        ⟨name, rest, rfl, heq, -⟩ | ⟨op, rfl, -⟩ | hrefused
      · exact absurd hfirst (hnumber value)
      · exact absurd hfirst (hname name)
      · exact absurd hfirst hparen
      · exact absurd heq (hfresh.unclosed hfirst name rest)
      · rw [hfirst] at hunary
        simp [operator?] at hunary
      · exact hrefused

/-- A list of arguments goes on after its last argument. -/
theorem comes_argumentsRest {name : String} {last : Expr} {earlier : List Expr}
    (harrives : Arrives tokens n a (.call name earlier :: ·) last p .assignment) :
    Comes tokens n a id ⟨.argumentsRest name last earlier, p, depth⟩ := by
  intro m frames r hnm _ hcharged hstands
  obtain ⟨r', hpasses, hends⟩ := harrives frames r hcharged hstands
  exact ⟨r', hpasses.mono hnm, hends⟩

theorem agrees_call
    (hreached : ∃ frames, Reached tokens origin ⟨.call, p, depth⟩ frames) (hfits : depth ≤ n) :
    Procedure.call.body.Meets tokens (agreement tokens origin n) ⟨.call, p, depth⟩ p := by
  refine ⟨trivial, fun x hx => ⟨trivial, fun _ _ => ?_⟩⟩
  simp only [Body.Meets, Nat.add_zero]
  have hopen : ∀ m frames r, n ≤ m → (Activation.mk .call p depth).IsCharged frames →
      Stands tokens ⟨.call, p, depth⟩ frames r →
      Passes tokens m (r, p) (⟨.call (contentText x) [] :: frames, .operand⟩, p + 1 + 1) := by
    rintro m frames r hnm hcharged ⟨rfl, ⟨name, hname⟩, hparen⟩
    obtain rfl : x = .identifier name := Option.some.inj (hx.symm.trans hname)
    refine passes_call _ hname hparen ?_
    simp only [Activation.IsCharged, Procedure.height] at hcharged
    omega
  split
  · next hclosed =>
    apply meets_closes
    · intro _
      refine ⟨trivial, hfits, ?_⟩
      intro frames r hcharged hstands
      have hempty : Reader.advance ⟨.call (contentText x) [] :: frames, .operand⟩
          (.symbol .rightParen) = .taken (endedAt frames (.call (contentText x) [])) := rfl
      -- An empty call holds no frame beside the one of the call itself.
      have hneed : Reader.need ⟨.call (contentText x) [] :: frames, .operand⟩
          (some (.symbol .rightParen)) ≤ n := by
        simp only [Activation.IsCharged, Procedure.height] at hcharged
        simp only [Reader.need, Reader.closesCall, totalWeight, Frame.weight, if_true]
        omega
      exact ⟨_, (hopen n frames r (Nat.le_refl n) hcharged hstands).trans
        (passes_taken hclosed hempty hneed), endsBefore_endedAt frames _ _, by simp [endedAt],
        Level.le_unary _⟩
    · exact fun hother => absurd hclosed hother
  · next hother =>
    have hcomes : Comes tokens n ⟨.call, p, depth⟩ (.call (contentText x) [] :: ·)
        ⟨.assignment, p + 1 + 1, depth + 1⟩ := by
      intro m frames r hnm _ hcharged hstands
      exact ⟨_, hopen m frames r hnm hcharged hstands, rfl, Level.le_refl _,
        fun hclosed => absurd hclosed hother⟩
    exact agrees_calls hreached hcomes (charges_opened rfl) rfl (Nat.zero_le _)
      fun e stop hreach harrives =>
        agrees_loops hreached (comes_argumentsRest harrives) rfl hreach (Level.le_refl _)

theorem agrees_argumentsRest (name : String) (last : Expr) (earlier : List Expr)
    (hreached : ∃ frames, Reached tokens origin ⟨.argumentsRest name last earlier, p, depth⟩ frames)
    (hfits : depth ≤ n) :
    (Procedure.argumentsRest name last earlier).body.Meets tokens (agreement tokens origin n)
      ⟨.argumentsRest name last earlier, p, depth⟩ p := by
  have hhere : Arrives tokens n ⟨.argumentsRest name last earlier, p, depth⟩
      (.call name earlier :: ·) last p .assignment := fun frames r _ hstands => ⟨r, .refl, hstands⟩
  apply meets_takesIf
  · intro s _ hs hcomma
    obtain rfl := eq_of_only hcomma
    have hcomes : Comes tokens n ⟨.argumentsRest name last earlier, p, depth⟩
        (.call name (last :: earlier) :: ·) ⟨.assignment, p + 1, depth + 1⟩ := by
      rintro m frames r - - - ⟨hends, hfocus, -⟩
      rw [hs] at hends
      have hneed : r.need (some (.symbol .comma)) ≤ m := by simp [need_eq_zero hfocus]
      exact ⟨_, passes_taken hs hends hneed, rfl, Level.le_refl _, fun _ _ _ => by simp⟩
    exact ⟨trivial, agrees_calls hreached hcomes (charges_opened rfl) rfl (Nat.zero_le _)
      fun e stop hreach harrives =>
        agrees_loops hreached (comes_argumentsRest harrives) rfl hreach (Level.le_refl _)⟩
  · intro hnone
    refine agrees_closes hfits hhere rfl (fun _ => rfl) ?_ rfl
    intro hcomma
    rw [hcomma] at hnone
    simp [operator?, only] at hnone

end Bodies

/-- Every body agrees with the reader. -/
theorem isKept_agreement (tokens : List Token) (origin n : Nat) :
    (agreement tokens origin n).IsKept tokens := by
  rintro _ ⟨f, p, depth⟩ hreached hfits
  cases f with
  | expression => exact agrees_expression hreached
  | assignment => exact agrees_assignment hreached
  | chain c => exact agrees_chain c hreached
  | chainRest c left => exact agrees_chainRest c left hreached hfits
  | power => exact agrees_power hreached
  | signed => exact agrees_signed hreached
  | primary => exact agrees_primary hreached hfits
  | call => exact agrees_call hreached hfits
  | argumentsRest name last earlier => exact agrees_argumentsRest name last earlier hreached hfits

end Calculator.Expr
