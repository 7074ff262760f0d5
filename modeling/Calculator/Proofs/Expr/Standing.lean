/-
  Calculator/Proofs/Expr/Standing.lean
  ====================================
  **Where procedures are entered.**  Where a procedure of the descent is entered, a
  reader stands that waits for an operand inside some open constructs, and these
  constructs let the procedure's rule stand there.

  The frames that are held there can be counted.  A procedure holds its own frame
  and those of the procedures above it in the grammar, down from the one that
  starts inside the innermost open construct.  And every open construct holds what
  it weighs: from the primary expression that opens a parenthesis it is six
  procedures down to the primary expression inside, seven through a call, and one
  from a signed expression, a power or an assignment to the next one.
-/
import Calculator.Proofs.Expr.Descent
import Calculator.Proofs.Expr.Points
import Calculator.Proofs.Expr.Viable

namespace Calculator.Expr

variable {tokens : List Token} {r r' : Reader} {p q n : Nat}

/-! ### Reading from an offset -/

/-- The lexemes from an offset on. -/
def lexemesFrom (tokens : List Token) (offset : Nat) : List Lexeme :=
  (tokens.drop offset).map Token.lexeme

/-- What a reader makes of the tokens from an offset on. -/
def reading (tokens : List Token) (r : Reader) (offset : Nat) :
    Except (Refusal × List Token) (Expr × List Token) :=
  readTokens r (tokens.drop offset)

theorem head?_drop_lexeme (tokens : List Token) (offset : Nat) :
    (tokens.drop offset).head?.map Token.lexeme = lexemeAt tokens offset := by
  rw [List.head?_drop, lexemeAt]

theorem head?_lexemesFrom (tokens : List Token) (offset : Nat) :
    (lexemesFrom tokens offset).head? = lexemeAt tokens offset := by
  rw [lexemesFrom, List.head?_map, head?_drop_lexeme]

theorem lexemesFrom_zero (tokens : List Token) :
    lexemesFrom tokens 0 = tokens.map Token.lexeme := by
  rw [lexemesFrom, List.drop_zero]

theorem lexemesFrom_eq_cons {x : Lexeme} (hx : lexemeAt tokens p = some x) :
    lexemesFrom tokens p = x :: lexemesFrom tokens (p + 1) := by
  obtain ⟨token, htoken, rfl⟩ := Option.map_eq_some_iff.mp hx
  obtain ⟨hlt, rfl⟩ := List.getElem?_eq_some_iff.mp htoken
  rw [lexemesFrom, List.drop_eq_getElem_cons hlt, List.map_cons, lexemesFrom]

theorem reading_taken {x : Lexeme} (hx : lexemeAt tokens p = some x)
    (h : r.advance x = .taken r') : reading tokens r p = reading tokens r' (p + 1) := by
  obtain ⟨token, htoken, rfl⟩ := Option.map_eq_some_iff.mp hx
  obtain ⟨hlt, rfl⟩ := List.getElem?_eq_some_iff.mp htoken
  simp only [reading, List.drop_eq_getElem_cons hlt, readTokens, h]

theorem reading_refused {why : Refusal} (h : r.next (lexemeAt tokens p) = .refused why) :
    reading tokens r p = .error (why, tokens.drop p) :=
  readTokens_refused (by rw [head?_drop_lexeme]; exact h)

theorem reading_finished {e : Expr} (h : r.next (lexemeAt tokens p) = .finished e) :
    reading tokens r p = .ok (e, tokens.drop p) :=
  readTokens_finished (by rw [head?_drop_lexeme]; exact h)

/-- A reader takes the token at an offset, at a point that needs at most so many procedures. -/
def Takes (tokens : List Token) (n : Nat) (a b : Reader × Nat) : Prop :=
  ∃ x, lexemeAt tokens a.2 = some x ∧ a.1.advance x = .taken b.1 ∧ b.2 = a.2 + 1 ∧
    a.1.need (some x) ≤ n

/-- A reader comes from one offset to another one over such points. -/
abbrev Passes (tokens : List Token) (n : Nat) : Reader × Nat → Reader × Nat → Prop :=
  Relation.ReflTransGen (Takes tokens n)

theorem passes_taken {x : Lexeme} (hx : lexemeAt tokens p = some x)
    (h : r.advance x = .taken r') (hneed : r.need (some x) ≤ n) :
    Passes tokens n (r, p) (r', p + 1) :=
  .single ⟨x, hx, h, rfl, hneed⟩

theorem Passes.mono {m : Nat} {a b : Reader × Nat} (h : Passes tokens n a b) (hle : n ≤ m) :
    Passes tokens m a b := by
  refine Relation.ReflTransGen.mono ?_ _ _ h
  rintro _ _ ⟨x, hx, hstep, hoffset, hneed⟩
  exact ⟨x, hx, hstep, hoffset, Nat.le_trans hneed hle⟩

theorem Passes.reading_eq {a b : Reader × Nat} (h : Passes tokens n a b) :
    reading tokens a.1 a.2 = reading tokens b.1 b.2 := by
  induction h with
  | refl => rfl
  | tail _ hstep ih =>
    obtain ⟨x, hx, hstep, hoffset, -⟩ := hstep
    rw [ih, reading_taken hx hstep, hoffset]

/-- Where a reader comes to is a point of its run. -/
theorem Passes.mem_points {a b : Reader × Nat} (h : Passes tokens n a b) :
    (b.1, lexemeAt tokens b.2) ∈ points a.1 (lexemesFrom tokens a.2) := by
  induction h using Relation.ReflTransGen.head_induction_on with
  | refl =>
    have hfirst := first_mem_points b.1 (lexemesFrom tokens b.2)
    rwa [head?_lexemesFrom] at hfirst
  | head hstep _ ih =>
    obtain ⟨x, hx, hstep, hoffset, -⟩ := hstep
    rw [lexemesFrom_eq_cons hx, points_taken hstep, ← hoffset]
    exact Set.mem_insert_of_mem _ ih

/-- What the points of a run need is what those on the way need, and those after it. -/
theorem Passes.needs_le {a b : Reader × Nat} (h : Passes tokens n a b)
    (hafter : ∀ k ∈ needs b.1 (lexemesFrom tokens b.2), k ≤ n) :
    ∀ k ∈ needs a.1 (lexemesFrom tokens a.2), k ≤ n := by
  induction h using Relation.ReflTransGen.head_induction_on with
  | refl => exact hafter
  | head hstep _ ih =>
    obtain ⟨x, hx, hstep, hoffset, hneed⟩ := hstep
    rw [lexemesFrom_eq_cons hx, needs_taken hstep, ← hoffset]
    rintro k (rfl | hk)
    · exact hneed
    · exact ih k hk

/-! ### Levels of the procedures -/

def Chain.level : Chain → Level
  | sums => .sum
  | products => .product

def Chain.operandLevel : Chain → Level
  | sums => .product
  | products => .power

/-- The level down to which a lexeme may close that is left after a procedure. -/
def Procedure.bound : Procedure → Level
  | expression => .assignment
  | assignment => .assignment
  | chain .sums => .assignment
  | chainRest .sums _ => .assignment
  | chain .products => .sum
  | chainRest .products _ => .sum
  | power => .product
  | _ => .unary

theorem eq_symbol_of_op? {c : Chain} {s : Symbol} {op : BinaryOp} (h : c.op? s = some op) :
    s = op.symbol ∧ op.level = c.level := by
  cases c with
  | sums => exact eq_symbol_of_sumOp? h
  | products => exact eq_symbol_of_productOp? h

theorem rightLevel_of_level {c : Chain} {op : BinaryOp} (h : op.level = c.level) :
    op.rightLevel = c.operandLevel := by
  cases c <;> cases op <;> first | rfl | cases h

theorem level_le_operandLevel (c : Chain) : c.level ≤ c.operandLevel := by cases c <;> decide

theorem eq_of_only {s t : Symbol} {u : Unit} (h : only s t = some u) : t = s := by
  unfold only at h
  split at h
  · assumption
  · cases h

theorem bound_operand_le (c : Chain) : c.operand.bound ≤ c.level := by cases c <;> decide

theorem closingLevel_le_of_op? {c : Chain} {x : Option Lexeme} (left : Expr)
    (hlevel : closingLevel x ≤ c.level) (hnone : operator? c.op? x = none) :
    closingLevel x ≤ (Procedure.chainRest c left).bound := by
  rcases x with _ | name | value | s
  · exact Level.assignment_le _
  · exact Level.assignment_le _
  · exact Level.assignment_le _
  · cases c with
    | sums =>
      revert hlevel hnone
      cases s <;> simp [closingLevel, operator?, binaryOp?, Chain.op?, sumOp?, productOp?,
        BinaryOp.leftLevel, Chain.level, Procedure.bound] <;> decide
    | products =>
      revert hlevel hnone
      cases s <;> simp [closingLevel, operator?, binaryOp?, Chain.op?, sumOp?, productOp?,
        BinaryOp.leftLevel, Chain.level, Procedure.bound] <;> decide

theorem closingLevel_le_product {x : Option Lexeme} (hnone : operator? (only .caret) x = none) :
    closingLevel x ≤ .product := by
  rcases x with _ | name | value | s
  · exact Level.assignment_le _
  · exact Level.assignment_le _
  · exact Level.assignment_le _
  · cases s <;> first | decide | simp [operator?, only] at hnone

/-- A lexeme that closes everything down to an assignment stops a reader after an operand, unless
it closes a bracket or goes on to the next argument. -/
theorem after_eq_concluded {frames : List Frame} {x : Option Lexeme} (e : Expr)
    (hsettled : Settled .assignment frames) (hlevel : closingLevel x ≤ .assignment)
    (hparen : x = some (.symbol .rightParen) → frames = [])
    (hcomma : x = some (.symbol .comma) → ∀ name done rest, frames ≠ .call name done :: rest) :
    after (frames, e) x = concluded frames e := by
  have hsettle := settle_of_settled hsettled e
  cases x with
  | none => rfl
  | some x =>
    rcases afterOperand_cases e x (settled_of_le (Level.assignment_le _) hsettled) with
      ⟨op, rfl, -⟩ | ⟨rest, body, rfl, hs, -⟩ | ⟨name, done, rest, last, rfl, hs, -⟩ |
      ⟨name, done, rest, last, rfl, hs, -⟩ | heq
    · rw [closingLevel_symbol] at hlevel
      cases op <;> exact absurd hlevel (by decide)
    · rw [hsettle, hparen rfl] at hs
      cases hs
    · rw [hsettle, hparen rfl] at hs
      cases hs
    · rw [hsettle] at hs
      exact absurd (Prod.mk.inj hs).1 (hcomma rfl name done rest)
    · exact heq

theorem settled_of_isBracket {f : Frame} (h : f.isBracket = true) (l : Level)
    (frames : List Frame) : Settled l (f :: frames) := by
  simp [Settled, Frame.closesAt, h]

/-- A bracket that does not end is missed at the lexeme after its last operand. -/
theorem next_unclosed {f : Frame} {frames : List Frame} {e : Expr} {x : Option Lexeme}
    (h : r.EndsBefore (f :: frames) e x) (hbracket : f.isBracket = true)
    (hlevel : closingLevel x ≤ .assignment) (hparen : x ≠ some (.symbol .rightParen))
    (hcomma : x = some (.symbol .comma) → f = .paren) :
    r.next x = .refused .closingExpected := by
  have hsettled := settled_of_isBracket hbracket .assignment frames
  have hsettle := settle_of_settled (settled_of_isBracket hbracket (closingLevel x) frames) e
  have hstops := after_eq_concluded e hsettled hlevel (fun hx => absurd hx hparen) (by
    rintro hx name done rest heq
    rw [hcomma hx] at heq
    cases heq)
  rw [h, hsettle, hstops, concluded, settle_of_settled hsettled]

/-- A bracket that ends completes its expression. -/
theorem advance_rightParen {f : Frame} {frames : List Frame} {e whole : Expr}
    (h : r.EndsBefore (f :: frames) e (some (.symbol .rightParen)))
    (hwhole : afterOperand (f :: frames) e (.symbol .rightParen) =
      .taken (endedAt frames whole)) (hbracket : f.isBracket = true) :
    r.advance (.symbol .rightParen) = .taken (endedAt frames whole) := by
  have hstep : r.advance (.symbol .rightParen) = _ := h
  rw [settle_of_settled (settled_of_isBracket hbracket _ frames)] at hstep
  exact hstep.trans hwhole

/-! ### Where a procedure is entered -/

/-- The lexemes from an offset on start no assignment and end no empty call inside some open
constructs, which let an operand of some level stand there. -/
structure Fresh (tokens : List Token) (p : Nat) (frames : List Frame) (l : Level) : Prop where
  unclosed : lexemeAt tokens p = some (.symbol .rightParen) →
    ∀ name rest, frames ≠ .call name [] :: rest
  untargeted : admitsAssignment frames = true →
    target? (lexemeAt tokens p) (lexemeAt tokens (p + 1)) = none
  hole_le : hole frames ≤ l

/-- Where a reader stands when a procedure is entered. -/
def Stands (tokens : List Token) : Activation → List Frame → Reader → Prop
  | ⟨.expression, p, _⟩, frames, r | ⟨.assignment, p, _⟩, frames, r =>
    r = ⟨frames, .operand⟩ ∧ hole frames ≤ .assignment ∧
      (lexemeAt tokens p = some (.symbol .rightParen) →
        ∀ name rest, frames ≠ .call name [] :: rest)
  | ⟨.chain c, p, _⟩, frames, r => r = ⟨frames, .operand⟩ ∧ Fresh tokens p frames c.level
  | ⟨.chainRest c left, p, _⟩, frames, r =>
    hole frames ≤ c.level ∧ r.EndsBefore frames left (lexemeAt tokens p) ∧
      r.focus ≠ .operand ∧ closingLevel (lexemeAt tokens p) ≤ c.level
  | ⟨.power, p, _⟩, frames, r => r = ⟨frames, .operand⟩ ∧ Fresh tokens p frames .power
  | ⟨.signed, p, _⟩, frames, r => r = ⟨frames, .operand⟩ ∧ Fresh tokens p frames .unary
  | ⟨.primary, p, _⟩, frames, r =>
    r = ⟨frames, .operand⟩ ∧ Fresh tokens p frames .unary ∧
      operator? unaryOp? (lexemeAt tokens p) = none
  | ⟨.call, p, _⟩, frames, r =>
    r = ⟨frames, .operand⟩ ∧ (∃ name, lexemeAt tokens p = some (.identifier name)) ∧
      lexemeAt tokens (p + 1) = some (.symbol .leftParen)
  | ⟨.argumentsRest name last earlier, p, _⟩, frames, r =>
    r.EndsBefore (.call name earlier :: frames) last (lexemeAt tokens p) ∧
      r.focus ≠ .operand ∧ closingLevel (lexemeAt tokens p) ≤ .assignment

variable {a : Activation} {inner : List Frame → List Frame} {bound : Level}

theorem Fresh.weaken {frames : List Frame} {l k : Level} (h : Fresh tokens p frames l)
    (hlk : l ≤ k) : Fresh tokens p frames k :=
  ⟨h.unclosed, h.untargeted, Level.le_trans h.hole_le hlk⟩

/-- Inside an operation that no assignment can be an operand of. -/
theorem fresh_inside {f : Frame} {frames : List Frame}
    (hadmits : admitsAssignment (f :: frames) = false) (p : Nat) :
    Fresh tokens p (f :: frames) f.hole := by
  refine ⟨?_, ?_, Level.le_refl _⟩
  · rintro - name rest heq
    obtain ⟨rfl, -⟩ := List.cons.inj heq
    cases hadmits
  · intro htrue
    rw [hadmits] at htrue
    cases htrue

theorem stands_operand {c : Chain} {frames : List Frame} {depth : Nat}
    (h : Fresh tokens p frames c.operandLevel) :
    Stands tokens ⟨c.operand, p, depth⟩ frames ⟨frames, .operand⟩ := by
  cases c with
  | sums => exact ⟨rfl, h⟩
  | products => exact ⟨rfl, h⟩

/-- Whether a procedure stands for a loop, which is not called. -/
def Procedure.isLoop : Procedure → Bool
  | chainRest _ _ => true
  | argumentsRest _ _ _ => true
  | _ => false

theorem Stands.eq_operand {b : Activation} {frames : List Frame} (h : Stands tokens b frames r)
    (hcalled : b.procedure.isLoop = false) : r = ⟨frames, .operand⟩ := by
  obtain ⟨f, start, depth⟩ := b
  cases f with
  | chainRest c left => simp [Procedure.isLoop] at hcalled
  | argumentsRest name last earlier => simp [Procedure.isLoop] at hcalled
  | _ => exact h.1

theorem Stands.unclosed {b : Activation} {frames : List Frame} (h : Stands tokens b frames r)
    (hcalled : b.procedure.isLoop = false) (hcall : b.procedure ≠ .call) :
    lexemeAt tokens b.start = some (.symbol .rightParen) →
      ∀ name rest, frames ≠ .call name [] :: rest := by
  obtain ⟨f, start, depth⟩ := b
  cases f with
  | expression => exact h.2.2
  | assignment => exact h.2.2
  | chain c => exact h.2.unclosed
  | power => exact h.2.unclosed
  | signed => exact h.2.unclosed
  | primary => exact h.2.1.unclosed
  | call => exact absurd rfl hcall
  | chainRest c left => simp [Procedure.isLoop] at hcalled
  | argumentsRest name last earlier => simp [Procedure.isLoop] at hcalled

/-! ### The frames that are held -/

/-- The frames that are held inside the innermost open construct, where a procedure is entered. -/
def Procedure.height : Procedure → Nat
  | expression => 1
  | assignment => 2
  | chain .sums => 3
  | chainRest .sums _ => 3
  | chain .products => 4
  | chainRest .products _ => 4
  | power => 5
  | signed => 6
  | primary => 7
  | call => 8
  | argumentsRest _ _ _ => 8

/-- The frames that a procedure needs for those that it calls in any case. -/
def Procedure.below : Procedure → Nat
  | expression => 6
  | assignment => 5
  | chain .sums => 4
  | chain .products => 3
  | power => 2
  | signed => 1
  | _ => 0

/-- **The charge of the open constructs**: a procedure holds the frames that are held inside the
innermost construct, and for each open construct what it weighs. -/
def Activation.IsCharged (a : Activation) (frames : List Frame) : Prop :=
  a.depth = a.procedure.height + totalWeight frames

/-- The depth that a procedure comes to in any case. -/
def Activation.reach (a : Activation) : Nat := a.depth + a.procedure.below

theorem height_le {f : Procedure} (hcalled : f.isLoop = false) (hcall : f ≠ .call) :
    f.height ≤ 7 := by
  cases f with
  | chain c => cases c <;> decide
  | call => exact absurd rfl hcall
  | chainRest c left => simp [Procedure.isLoop] at hcalled
  | argumentsRest name last earlier => simp [Procedure.isLoop] at hcalled
  | _ => decide

/-- A procedure that a run has come to from an offset: a reader stands where it is entered, an
operand has to start inside the same constructs there or before, and a point of the run needs as
many procedures. -/
structure Reached (tokens : List Token) (origin : Nat) (b : Activation) (frames : List Frame) :
    Prop where
  charged : b.IsCharged frames
  stands : ∃ n r, Passes tokens n (.start, origin) (r, b.start) ∧ Stands tokens b frames r
  opened : ∃ n q, Passes tokens n (.start, origin) (⟨frames, .operand⟩, q)
  needed : ∃ k ∈ needs .start (lexemesFrom tokens origin), b.depth ≤ k

variable {origin : Nat}

/-- The two lexemes that open a call. -/
theorem passes_call (frames : List Frame) {name : String}
    (hname : lexemeAt tokens p = some (.identifier name))
    (hparen : lexemeAt tokens (p + 1) = some (.symbol .leftParen))
    (hneed : 7 + totalWeight frames ≤ n) :
    Passes tokens n (⟨frames, .operand⟩, p) (⟨.call name [] :: frames, .operand⟩, p + 1 + 1) := by
  have hnamed : Passes tokens n (⟨frames, .operand⟩, p) (⟨frames, .named name⟩, p + 1) :=
    passes_taken hname rfl (Nat.le_trans (need_le _ _) hneed)
  exact hnamed.trans (passes_taken hparen rfl (Nat.zero_le n))

/-- Where a procedure is called, a point needs as many procedures as are entered. -/
theorem exists_need_of_stands {b : Activation} (frames : List Frame)
    (hcharged : b.IsCharged frames) (hstands : Stands tokens b frames r)
    (hpasses : Passes tokens n (.start, origin) (r, b.start))
    (hcalled : b.procedure.isLoop = false) :
    ∃ k ∈ needs .start (lexemesFrom tokens origin), b.depth ≤ k := by
  obtain rfl := hstands.eq_operand hcalled
  by_cases hcall : b.procedure = .call
  · -- The next operand would start inside the call.
    obtain ⟨f, start, depth⟩ := b
    obtain rfl : f = .call := hcall
    obtain ⟨-, ⟨name, hname⟩, hparen⟩ := hstands
    have hopened := passes_call frames hname hparen (Nat.le_max_right n _)
    have hinside : Passes tokens _ _ _ := (hpasses.mono (Nat.le_max_left n _)).trans hopened
    refine ⟨_, ⟨_, hinside.mem_points, rfl⟩, ?_⟩
    have hlt := lt_need (r := ⟨.call name [] :: frames, .operand⟩) rfl
      (lexemeAt tokens (start + 1 + 1))
    rw [Activation.IsCharged] at hcharged
    simp only [Procedure.height, totalWeight, Frame.weight] at hcharged hlt ⊢
    omega
  · have hneed := need_operand (hstands.unclosed hcalled hcall)
    have hheight := height_le hcalled hcall
    refine ⟨_, ⟨_, hpasses.mem_points, rfl⟩, ?_⟩
    rw [Activation.IsCharged] at hcharged
    dsimp only
    omega

end Calculator.Expr
