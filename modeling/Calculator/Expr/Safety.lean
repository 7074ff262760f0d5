/-
  Calculator/Expr/Safety.lean
  ===========================
  **Descents are safe and come to an end.**  A property of the whole descent is
  checked body by body: a *contract* says what has to hold where a procedure is
  entered, where a token is taken and where a procedure ends.

  The contract of this file is safety.  A token is taken only where a look ahead
  has found one, in the same procedure or, for a call, in the procedure before
  it.  So the unguarded steps (`advance` twice in `_parse_func_call`, the two
  tokens that `parse_assignment` skips) stay inside the list.  And a procedure
  that is entered without a token taken since its caller was entered comes later
  in the grammar than its caller.  So no procedure can come back to itself in one
  place, and the descent comes to an end.
-/
import Calculator.Expr.Descent

namespace Calculator.Expr

/-- The place of a procedure in the grammar. -/
def Procedure.rank : Procedure → Nat
  | expression => 0
  | assignment => 1
  | chain .sums => 2
  | chainRest .sums _ => 3
  | chain .products => 4
  | chainRest .products _ => 5
  | power => 6
  | signed => 7
  | primary => 8
  | call => 9
  | argumentsRest _ _ _ => 10

variable {tokens : List Token}

theorem lt_of_lexemeAt {offset : Nat} {x : Lexeme} (h : lexemeAt tokens offset = some x) :
    offset < tokens.length := by
  obtain ⟨token, htoken, -⟩ := Option.map_eq_some_iff.mp h
  exact (List.getElem?_eq_some_iff.mp htoken).1

/-! ### Contracts -/

/-- What has to hold where one procedure leads to another, by a call or as its loop, where a
token is taken, and where a procedure ends or refuses.  What is entered through several
procedures is entered from the first of them. -/
structure Contract where
  enters : Activation → Activation → Prop
  fits : Activation → Prop
  takes : Nat → Prop
  returned : Activation → Expr → Nat → Prop
  refused : Activation → Refusal → Nat → Prop
  trans : ∀ {a b d}, enters a b → enters b d → enters a d

/-- A body keeps a contract from an offset on if the procedures that it leads to keep it. -/
def Body.Meets (tokens : List Token) (c : Contract) (a : Activation) : Body → Nat → Prop
  | .returns e, offset => c.returned a e offset
  | .refuses why, offset => c.refused a why offset
  | .looks ahead next, offset => (next (lexemeAt tokens (offset + ahead))).Meets tokens c a offset
  | .takes next, offset =>
    c.takes offset ∧
      ∀ x, lexemeAt tokens offset = some x → (next x).Meets tokens c a (offset + 1)
  | .calls callee next, offset =>
    c.enters a ⟨callee, offset, a.depth + 1⟩ ∧
      (∀ why stop, c.refused ⟨callee, offset, a.depth + 1⟩ why stop → c.refused a why stop) ∧
      ∀ e stop, offset ≤ stop → c.returned ⟨callee, offset, a.depth + 1⟩ e stop →
        (next e).Meets tokens c a stop
  | .loops rest, offset =>
    c.enters a ⟨rest, offset, a.depth⟩ ∧
      (∀ why stop, c.refused ⟨rest, offset, a.depth⟩ why stop → c.refused a why stop) ∧
      ∀ e stop, offset ≤ stop → c.returned ⟨rest, offset, a.depth⟩ e stop → c.returned a e stop

/-- Every procedure keeps the contract wherever it may be entered and has a frame. -/
def Contract.IsKept (tokens : List Token) (c : Contract) : Prop :=
  ∀ a b, c.enters a b → c.fits b → b.procedure.body.Meets tokens c b b.start

variable {c : Contract} {a : Activation}

theorem meets_takesIf {α : Type} {op? : Symbol → Option α} {found : α → Body} {otherwise : Body}
    {offset : Nat}
    (hfound : ∀ s op, lexemeAt tokens offset = some (.symbol s) → op? s = some op →
      c.takes offset ∧ (found op).Meets tokens c a (offset + 1))
    (hotherwise : operator? op? (lexemeAt tokens offset) = none →
      otherwise.Meets tokens c a offset) :
    (Body.takesIf op? found otherwise).Meets tokens c a offset := by
  simp only [Body.takesIf, Body.Meets, Nat.add_zero]
  split
  · next op hop =>
    unfold operator? at hop
    split at hop
    · next s hs =>
      obtain ⟨htakes, hmeets⟩ := hfound s op hs hop
      exact ⟨htakes, fun _ _ => hmeets⟩
    · simp at hop
  · next hnone => exact hotherwise hnone

theorem meets_closes {e : Expr} {offset : Nat}
    (hclosed : lexemeAt tokens offset = some (.symbol .rightParen) →
      c.takes offset ∧ c.returned a e (offset + 1))
    (hopen : lexemeAt tokens offset ≠ some (.symbol .rightParen) →
      c.refused a .closingExpected offset) :
    (Body.closes e).Meets tokens c a offset := by
  simp only [Body.closes, Body.Meets, Nat.add_zero]
  split
  · next hparen =>
    obtain ⟨htakes, hreturned⟩ := hclosed hparen
    exact ⟨htakes, fun _ _ => hreturned⟩
  · next hparen => exact hopen hparen

/-! ### Safety -/

/-- One procedure may lead to another: a token has been taken since the first was entered, or the
second comes later in the grammar. -/
def Activation.Precedes (a b : Activation) : Prop :=
  a.start < b.start ∨ a.start = b.start ∧ a.procedure.rank < b.procedure.rank

/-- The two tokens that a call takes without a look are a name and a parenthesis. -/
def Activation.IsReady (tokens : List Token) : Activation → Prop
  | ⟨.call, start, _⟩ =>
    (∃ name, lexemeAt tokens start = some (.identifier name)) ∧
      lexemeAt tokens (start + 1) = some (.symbol .leftParen)
  | _ => True

theorem Activation.Precedes.trans {a b d : Activation} (hab : a.Precedes b) (hbd : b.Precedes d) :
    a.Precedes d := by
  unfold Precedes at *
  omega

theorem precedes_later {f g : Procedure} {p q m n : Nat} (h : p ≤ q) (hrank : f.rank < g.rank) :
    (Activation.mk f p m).Precedes ⟨g, q, n⟩ := by
  rcases Nat.lt_or_eq_of_le h with hlt | heq
  · exact Or.inl hlt
  · exact Or.inr ⟨heq, hrank⟩

theorem precedes_after {f g : Procedure} {p q m n : Nat} (h : p < q) :
    (Activation.mk f p m).Precedes ⟨g, q, n⟩ := Or.inl h

/-- Tokens are taken only where there are tokens, procedures are entered later in the grammar or
after a token, and calls where a name and a parenthesis stand. -/
def safety (tokens : List Token) : Contract where
  enters a b := a.Precedes b ∧ b.IsReady tokens
  fits _ := True
  takes offset := offset < tokens.length
  returned _ _ _ := True
  refused _ _ _ := True
  trans hab hbd := ⟨hab.1.trans hbd.1, hbd.2⟩

theorem isReady_operand (c : Chain) (offset depth : Nat) :
    (Activation.mk c.operand offset depth).IsReady tokens := by
  cases c <;> exact trivial

theorem rank_operand (c : Chain) : (Procedure.chain c).rank < c.operand.rank := by
  cases c <;> decide

theorem rank_chainRest (c : Chain) (left : Expr) :
    (Procedure.chain c).rank < (Procedure.chainRest c left).rank := by
  cases c <;> simp [Procedure.rank]

/-- A call, and what comes after it. -/
theorem safe_calls {callee : Procedure} {next : Expr → Body} {offset : Nat}
    (hprecedes : a.Precedes ⟨callee, offset, a.depth + 1⟩)
    (hready : (Activation.mk callee offset (a.depth + 1)).IsReady tokens)
    (hnext : ∀ e stop, offset ≤ stop → (next e).Meets tokens (safety tokens) a stop) :
    (Body.calls callee next).Meets tokens (safety tokens) a offset :=
  ⟨⟨hprecedes, hready⟩, fun _ _ h => h, fun e stop hle _ => hnext e stop hle⟩

theorem safe_loops {rest : Procedure} {offset : Nat}
    (hprecedes : a.Precedes ⟨rest, offset, a.depth⟩)
    (hready : (Activation.mk rest offset a.depth).IsReady tokens) :
    (Body.loops rest).Meets tokens (safety tokens) a offset :=
  ⟨⟨hprecedes, hready⟩, fun _ _ h => h, fun _ _ _ h => h⟩

theorem safe_closes (e : Expr) (offset : Nat) :
    (Body.closes e).Meets tokens (safety tokens) a offset :=
  meets_closes (fun hparen => ⟨lt_of_lexemeAt hparen, trivial⟩) fun _ => trivial

theorem exists_of_target? {x y : Option Lexeme} {target : String} {op : AssignOp}
    (h : target? x y = some (target, op)) :
    x = some (.identifier target) ∧ ∃ s, y = some (.symbol s) ∧ assignOp? s = some op := by
  unfold target? at h
  split at h
  · next name s =>
    obtain ⟨op', hop, heq⟩ := Option.map_eq_some_iff.mp h
    obtain ⟨rfl, rfl⟩ := Prod.mk.inj heq
    exact ⟨rfl, s, rfl, hop⟩
  · cases h

section Bodies

variable (p depth : Nat)

theorem safe_expression :
    Procedure.expression.body.Meets tokens (safety tokens) ⟨.expression, p, depth⟩ p :=
  safe_calls (precedes_later (Nat.le_refl p) (by decide)) trivial fun _ _ _ => trivial

theorem safe_assignment :
    Procedure.assignment.body.Meets tokens (safety tokens) ⟨.assignment, p, depth⟩ p := by
  simp only [Procedure.body, Body.Meets, Nat.add_zero]
  split
  · next target op htarget =>
    -- Both tokens that are skipped have been seen.
    obtain ⟨hfirst, s, hsecond, -⟩ := exists_of_target? htarget
    refine ⟨lt_of_lexemeAt hfirst, fun _ _ => ⟨lt_of_lexemeAt hsecond, fun _ _ => ?_⟩⟩
    exact safe_calls (precedes_after (by omega)) trivial fun _ _ _ => trivial
  · exact safe_calls (precedes_later (Nat.le_refl p) (by decide)) trivial fun _ _ _ => trivial

theorem safe_chain (c : Chain) :
    (Procedure.chain c).body.Meets tokens (safety tokens) ⟨.chain c, p, depth⟩ p := by
  refine safe_calls (precedes_later (Nat.le_refl p) (rank_operand c)) (isReady_operand c p _) ?_
  intro left q hq
  exact safe_loops (precedes_later hq (rank_chainRest c left)) trivial

theorem safe_chainRest (c : Chain) (left : Expr) :
    (Procedure.chainRest c left).body.Meets tokens (safety tokens) ⟨.chainRest c left, p, depth⟩
      p := by
  apply meets_takesIf
  · intro s op hs _
    refine ⟨lt_of_lexemeAt hs,
      safe_calls (precedes_after (Nat.lt_succ_self p)) (isReady_operand c _ _) ?_⟩
    intro right q hq
    exact safe_loops (precedes_after hq) trivial
  · exact fun _ => trivial

theorem safe_power :
    Procedure.power.body.Meets tokens (safety tokens) ⟨.power, p, depth⟩ p := by
  refine safe_calls (precedes_later (Nat.le_refl p) (by decide)) trivial ?_
  intro base q hq
  apply meets_takesIf
  · intro s _ hs _
    exact ⟨lt_of_lexemeAt hs,
      safe_calls (precedes_after (Nat.lt_succ_of_le hq)) trivial fun _ _ _ => trivial⟩
  · exact fun _ => trivial

theorem safe_signed :
    Procedure.signed.body.Meets tokens (safety tokens) ⟨.signed, p, depth⟩ p := by
  apply meets_takesIf
  · intro s op hs _
    exact ⟨lt_of_lexemeAt hs,
      safe_calls (precedes_after (Nat.lt_succ_self p)) trivial fun _ _ _ => trivial⟩
  · exact fun _ =>
      safe_calls (precedes_later (Nat.le_refl p) (by decide)) trivial fun _ _ _ => trivial

theorem safe_primary :
    Procedure.primary.body.Meets tokens (safety tokens) ⟨.primary, p, depth⟩ p := by
  simp only [Procedure.body, Body.Meets, Nat.add_zero]
  split
  · next name hfirst =>
    split
    · next hsecond =>
      exact safe_calls (precedes_later (Nat.le_refl p) (by decide)) ⟨⟨name, hfirst⟩, hsecond⟩
        fun _ _ _ => trivial
    · exact ⟨lt_of_lexemeAt hfirst, fun _ _ => trivial⟩
  · next value hfirst => exact ⟨lt_of_lexemeAt hfirst, fun _ _ => trivial⟩
  · next hfirst =>
    refine ⟨lt_of_lexemeAt hfirst, fun _ _ => ?_⟩
    exact safe_calls (precedes_after (Nat.lt_succ_self p)) trivial
      fun e q _ => safe_closes (.group e) q
  · trivial

theorem safe_call (hready : (Activation.mk .call p depth).IsReady tokens) :
    Procedure.call.body.Meets tokens (safety tokens) ⟨.call, p, depth⟩ p := by
  obtain ⟨⟨name, hname⟩, hparen⟩ := hready
  refine ⟨lt_of_lexemeAt hname, fun taken _ => ⟨lt_of_lexemeAt hparen, fun _ _ => ?_⟩⟩
  simp only [Body.Meets]
  split
  · exact safe_closes _ _
  · refine safe_calls (precedes_after (by omega)) trivial ?_
    intro e q hq
    exact safe_loops (precedes_after (by omega)) trivial

theorem safe_argumentsRest (name : String) (last : Expr) (earlier : List Expr) :
    (Procedure.argumentsRest name last earlier).body.Meets tokens (safety tokens)
      ⟨.argumentsRest name last earlier, p, depth⟩ p := by
  apply meets_takesIf
  · intro s _ hs _
    refine ⟨lt_of_lexemeAt hs, safe_calls (precedes_after (Nat.lt_succ_self p)) trivial ?_⟩
    intro e q hq
    exact safe_loops (precedes_after hq) trivial
  · exact fun _ => safe_closes _ _

end Bodies

/-- Every procedure is safe where it is ready. -/
theorem safe_body {b : Activation} (hready : b.IsReady tokens) :
    b.procedure.body.Meets tokens (safety tokens) b b.start := by
  obtain ⟨f, p, depth⟩ := b
  cases f with
  | expression => exact safe_expression p depth
  | assignment => exact safe_assignment p depth
  | chain c => exact safe_chain p depth c
  | chainRest c left => exact safe_chainRest p depth c left
  | power => exact safe_power p depth
  | signed => exact safe_signed p depth
  | primary => exact safe_primary p depth
  | call => exact safe_call p depth hready
  | argumentsRest name last earlier => exact safe_argumentsRest p depth name last earlier

theorem isKept_safety (tokens : List Token) : (safety tokens).IsKept tokens :=
  fun _ _ henters _ => safe_body henters.2

/-! ### The end of a descent -/

namespace Descent

/-- A descent without limits comes to where the last procedure ends, or to a refusal. -/
inductive Completes (tokens : List Token) : Descent → Prop where
  | ended {d : Descent} {x : Except SyntaxError (Expr × Nat)} (h : d.result? none tokens = some x) :
      Completes tokens d
  | goesOn {d d' : Descent} (hstep : d.next? tokens = some d') (h : Completes tokens d') :
      Completes tokens d

/-- The innermost procedure comes to an end: the descent comes to one if it does from wherever
the procedure returns, which is not before the offset and not beyond the last token. -/
def Ends (tokens : List Token) (d : Descent) : Prop :=
  (∀ a e stop, d.offset ≤ stop → stop ≤ max d.offset tokens.length →
    Completes tokens ⟨a, .returns e, d.callers, stop⟩) → d.Completes tokens

/-- A body comes to an end if the procedures that it leads to do. -/
theorem ends_body {a : Activation} {body : Body} {offset : Nat}
    (hmeets : body.Meets tokens (safety tokens) a offset) (hle : a.start ≤ offset)
    (hbound : offset ≤ max a.start tokens.length)
    (hleads : ∀ b callers, a.Precedes b → b.start ≤ max a.start tokens.length →
      b.IsReady tokens → Ends tokens ⟨b, b.procedure.body, callers, b.start⟩)
    (callers : List Caller) : Ends tokens ⟨a, body, callers, offset⟩ := by
  intro hreturned
  induction body generalizing offset with
  | returns e => exact hreturned a e offset (Nat.le_refl _) (Nat.le_max_left _ _)
  | refuses why => exact .ended rfl
  | looks ahead next ih => exact .goesOn rfl (ih _ hmeets hle hbound hreturned)
  | takes next ih =>
    obtain ⟨hlt, hnext⟩ := hmeets
    have hlt' : offset < tokens.length := hlt
    have hx : lexemeAt tokens offset = some tokens[offset].lexeme := by simp [lexemeAt, hlt']
    have hstep : next? tokens ⟨a, .takes next, callers, offset⟩ =
        some ⟨a, next tokens[offset].lexeme, callers, offset + 1⟩ := by
      simp only [next?, hx, Option.map_some]
    refine .goesOn hstep (ih _ (hnext _ hx) (by omega) (by omega) fun b e stop hforth hstop => ?_)
    dsimp only at hforth hstop
    exact hreturned b e stop (by dsimp only; omega) (by dsimp only; omega)
  | calls callee next ih =>
    obtain ⟨⟨hprecedes, hready⟩, -, hnext⟩ := hmeets
    refine .goesOn rfl (hleads ⟨callee, offset, a.depth + 1⟩ (⟨a, next⟩ :: callers) hprecedes
      hbound hready ?_)
    -- The callee has ended, and the body goes on with its expression.
    intro b e stop hforth hstop
    dsimp only at hforth hstop
    suffices hresumed : Completes tokens ⟨a, next e, callers, stop⟩ from .goesOn rfl hresumed
    refine ih e (hnext e stop hforth trivial) (by omega) (by omega) ?_
    intro b' e' stop' hforth' hstop'
    dsimp only at hforth' hstop'
    exact hreturned b' e' stop' (by dsimp only; omega) (by dsimp only; omega)
  | loops rest =>
    obtain ⟨⟨hprecedes, hready⟩, -, -⟩ := hmeets
    exact .goesOn rfl (hleads ⟨rest, offset, a.depth⟩ callers hprecedes hbound hready hreturned)

theorem rank_le (f : Procedure) : f.rank ≤ 10 := by
  cases f with
  | chain c => cases c <;> decide
  | chainRest c left => cases c <;> simp [Procedure.rank]
  | _ => simp [Procedure.rank]

/-- Every procedure comes to an end: what it leads to starts at a later token, or at the same one
and later in the grammar. -/
theorem ends (tokens : List Token) (a : Activation) (callers : List Caller)
    (hready : a.IsReady tokens) : Ends tokens ⟨a, a.procedure.body, callers, a.start⟩ := by
  refine ends_body (safe_body hready) (Nat.le_refl _) (Nat.le_max_left _ _) ?_ callers
  intro b waiting hprecedes hbound hb
  exact ends tokens b waiting hb
termination_by (tokens.length - a.start, 10 - a.procedure.rank)
decreasing_by
  have hrank := rank_le b.procedure
  rcases hprecedes with hlt | ⟨heq, hlt⟩
  · exact Prod.Lex.left _ _ (by omega)
  · rw [heq]
    exact Prod.Lex.right _ (by omega)

theorem completes_start (tokens : List Token) (offset : Nat) : (start offset).Completes tokens :=
  ends tokens ⟨.expression, offset, 1⟩ [] trivial fun _ _ _ _ _ => .ended rfl

variable {room : Option Nat} {d : Descent}

theorem next?_of_result? {x : Except SyntaxError (Expr × Nat)}
    (h : d.result? none tokens = some x) : d.next? tokens = none := by
  unfold result? at h
  unfold next?
  simp only [overflows, Option.any_none, Bool.false_eq_true, if_false] at h
  split at h <;> simp_all

theorem result?_of_fits (h : d.overflows room = false) :
    d.result? room tokens = d.result? none tokens := by
  have hnone : d.overflows none = false := rfl
  rw [result?, result?, h, hnone]

theorem result?_of_overflows (h : d.overflows room = true) :
    d.result? room tokens = some (.error (.tooDeep (placeAt tokens d.offset))) := by
  rw [result?, if_pos h]

theorem Completes.halts (h : d.Completes tokens) : d.Halts tokens := by
  induction h with
  | ended hresult =>
    refine ⟨_, fun d' hstep => ?_⟩
    rw [next?_of_result? hresult] at hstep
    cases hstep
  | goesOn hstep h ih =>
    refine ⟨_, fun d' hother => ?_⟩
    obtain rfl := Option.some.inj (hstep.symm.trans hother)
    exact ih

/-- A descent that comes to its end has a result in every room: its end's, or a refusal of a
procedure before it. -/
theorem Completes.isSome_run (room : Option Nat) (h : d.Completes tokens) :
    (d.run room tokens h.halts).isSome = true := by
  induction h with
  | @ended d x hended =>
    cases hfits : d.overflows room with
    | true => rw [run_of_result? _ (result?_of_overflows hfits), Option.isSome_some]
    | false => rw [run_of_result? _ ((result?_of_fits hfits).trans hended), Option.isSome_some]
  | @goesOn d d' hstep h ih =>
    cases hresult : d.result? room tokens with
    | some x => rw [run_of_result? _ hresult, Option.isSome_some]
    | none =>
      rw [run_of_next? _ hresult hstep]
      exact ih

/-- **Every descent comes to an end**, from every offset. -/
theorem halts_start (tokens : List Token) (offset : Nat) : (start offset).Halts tokens :=
  (completes_start tokens offset).halts

/-- **Every descent has a result**, from every offset and with any number of frames. -/
theorem isSome_run (room : Option Nat) (tokens : List Token) (offset : Nat) :
    ((start offset).run room tokens (halts_start tokens offset)).isSome = true :=
  (completes_start tokens offset).isSome_run room

end Descent

end Calculator.Expr
