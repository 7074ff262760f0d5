/-
  Calculator/Proofs/Expr/Limit.lean
  =================================
  **Reading within a room.**  A descent without limits ends with what the reader
  gives.  The depths of its procedures and the needs of the reader's points have
  the same upper bounds: where a procedure is entered, some point needs as many
  frames, and every point of the reader lies on the way of the descent, which holds
  as many there.  So a descent in a room gives what the reader gives if no point
  needs more frames than the room has, and is refused as too deep otherwise.

  A point needs more frames than it weighs, and at most seven more.  The room is
  what a thousand frames leave over, so light points are never refused and heavy
  ones always are.
-/
import Calculator.Proofs.Expr.Agreement

namespace Calculator.Expr

variable {tokens : List Token} {p q n : Nat}

/-! ### The start of a descent -/

theorem stands_start (tokens : List Token) (p : Nat) :
    Stands tokens ⟨.expression, p, 1⟩ [] .start :=
  ⟨rfl, Level.le_refl _, fun _ _ _ => by simp⟩

theorem reached_start (tokens : List Token) (p : Nat) :
    Reached tokens p ⟨.expression, p, 1⟩ [] where
  charged := rfl
  stands := ⟨0, .start, .refl, stands_start tokens p⟩
  opened := ⟨0, p, .refl⟩
  needed := exists_need_of_stands (n := 0) [] rfl (stands_start tokens p) .refl rfl

theorem keeps_agreement (tokens : List Token) (p n : Nat) :
    (Descent.start p).Keeps tokens (agreement tokens p n) ⟨.expression, p, 1⟩ :=
  ⟨agrees_expression ⟨[], reached_start tokens p⟩, Nat.le_refl p, Waits.start _⟩

/-! ### The end of a descent -/

/-- The offset of what is left after a reading that started at another offset. -/
theorem offset_drop (hle : p ≤ q) (hbound : q ≤ max p tokens.length) :
    p + ((tokens.drop p).length - (tokens.drop q).length) = q := by
  simp only [List.length_drop]
  omega

theorem readFrom_of_finished {r : Reader} {e : Expr} (hle : p ≤ q)
    (hbound : q ≤ max p tokens.length) (hpasses : Passes tokens n (.start, p) (r, q))
    (hend : r.next (lexemeAt tokens q) = .finished e) : readFrom tokens p = .ok (e, q) := by
  have hread := hpasses.reading_eq.trans (reading_finished hend)
  rw [reading] at hread
  simp only [readFrom, hread, offset_drop hle hbound]

theorem readFrom_of_refused {r : Reader} {why : Refusal} (hle : p ≤ q)
    (hbound : q ≤ max p tokens.length) (hpasses : Passes tokens n (.start, p) (r, q))
    (hstop : r.next (lexemeAt tokens q) = .refused why) :
    readFrom tokens p = .error (why.error tokens q) := by
  have hread := hpasses.reading_eq.trans (reading_refused hstop)
  rw [reading] at hread
  simp only [readFrom, hread, offset_drop hle hbound]

/-- A run that stops has no needs but those on the way to where it stops. -/
theorem Passes.needs_le_of_stops {r : Reader} (h : Passes tokens n (.start, p) (r, q))
    (hstops : ∀ s, r.next (lexemeAt tokens q) ≠ .taken s)
    (hneed : r.need (lexemeAt tokens q) ≤ n) :
    ∀ k ∈ needs .start (lexemesFrom tokens p), k ≤ n := by
  refine h.needs_le ?_
  dsimp only
  rw [needs_stopped (by rwa [head?_lexemesFrom]), head?_lexemesFrom]
  rintro k rfl
  exact hneed

/-- Where a descent ends whose procedures are no deeper than some bound, the reader ends too, and
its points need no more frames. -/
theorem ends_as_readFrom {d : Descent} {x : Except SyntaxError (Expr × Nat)}
    (hleads : (Descent.start p).Leads tokens d) (hresult : d.result? none tokens = some x)
    (hfits : ∀ s, (Descent.start p).Leads tokens s → s.active.depth ≤ n) :
    readFrom tokens p = x ∧ ∀ k ∈ needs .start (lexemesFrom tokens p), k ≤ n := by
  obtain ⟨hle, hbound⟩ := Descent.offset_leads hleads
  have hkeeps := (keeps_agreement tokens p n).leads (isKept_agreement tokens p n) hfits hleads
  have hstart : (Activation.mk .expression p 1).IsCharged [] := rfl
  simp only [Descent.result?, Descent.overflows, Option.any_none, Bool.false_eq_true,
    if_false] at hresult
  split at hresult
  · next e hbody hcallers =>
    obtain rfl := Option.some.inj hresult
    obtain ⟨-, harrives⟩ := hkeeps.returned hbody hcallers
    obtain ⟨r, hpasses, hends, hfocus, hlevel⟩ := harrives [] .start hstart (stands_start tokens p)
    have hend : r.next (lexemeAt tokens d.offset) = .finished e := by
      rw [hends]
      exact after_eq_concluded e (by simp [Settled]) hlevel (fun _ => rfl) (fun _ _ _ _ => by simp)
    exact ⟨readFrom_of_finished hle hbound hpasses hend,
      hpasses.needs_le_of_stops (by simp [hend]) (by simp [need_eq_zero hfocus])⟩
  · next why hbody =>
    obtain rfl := Option.some.inj hresult
    obtain ⟨-, hrefuses⟩ := hkeeps.refused hbody
    obtain ⟨r, hpasses, hstop, hneed⟩ := hrefuses [] .start hstart (stands_start tokens p)
    exact ⟨readFrom_of_refused hle hbound hpasses hstop,
      hpasses.needs_le_of_stops (by simp [hstop]) hneed⟩
  · cases hresult

/-- A descent that comes to an end has a deepest procedure. -/
theorem Descent.exists_depth_le {d e : Descent} (hleads : d.Leads tokens e)
    (hend : e.next? tokens = none) : ∃ n, ∀ s, d.Leads tokens s → s.active.depth ≤ n := by
  induction hleads using Relation.ReflTransGen.head_induction_on with
  | refl =>
    refine ⟨e.active.depth, fun s hs => ?_⟩
    rcases hs.cases_head with rfl | ⟨c, hc, -⟩
    · exact Nat.le_refl _
    · rw [hend] at hc
      cases hc
  | @head b c hstep _ ih =>
    obtain ⟨n, hn⟩ := ih
    refine ⟨max b.active.depth n, fun s hs => ?_⟩
    rcases hs.cases_head with rfl | ⟨c', hc', hrest⟩
    · exact Nat.le_max_left _ _
    · obtain rfl : c = c' := Option.some.inj (hstep.symm.trans hc')
      exact Nat.le_trans (hn s hrest) (Nat.le_max_right _ _)

/-- **A descent without limits gives what the reader gives.** -/
theorem parseFrom_none (tokens : List Token) (p : Nat) :
    parseFrom none tokens p = readFrom tokens p := by
  obtain ⟨d, hleads, hresult⟩ := exists_end none tokens p
  obtain ⟨n, hfits⟩ := Descent.exists_depth_le hleads (Descent.next?_of_result? hresult)
  exact (ends_as_readFrom hleads hresult hfits).1.symm

theorem parseWithin_of_readFrom {room : Option Nat}
    (h : parseFrom room tokens 0 = readFrom tokens 0) :
    parseWithin room tokens = readWhole tokens := by
  rw [parseWithin, h]
  rfl

theorem parseWithin_none (tokens : List Token) : parseWithin none tokens = readWhole tokens :=
  parseWithin_of_readFrom (parseFrom_none tokens 0)

/-- Where some point needs more frames than a bound, some procedure is deeper. -/
theorem exists_deeper_of_need {k : Nat} (hk : k ∈ needs .start (lexemesFrom tokens p))
    (hlt : n < k) : ∃ d, (Descent.start p).Leads tokens d ∧ n < d.active.depth := by
  by_contra hnone
  have hfits : ∀ s, (Descent.start p).Leads tokens s → s.active.depth ≤ n :=
    fun s hs => Nat.not_lt.mp fun hdeep => hnone ⟨s, hs, hdeep⟩
  obtain ⟨d, hleads, hresult⟩ := exists_end none tokens p
  exact Nat.not_le.mpr hlt ((ends_as_readFrom hleads hresult hfits).2 k hk)

/-! ### The charge of the open constructs -/

/-- A run has come to every procedure of a descent. -/
theorem exists_reached {d : Descent} (hleads : (Descent.start p).Leads tokens d) :
    ∃ frames, Reached tokens p d.active frames := by
  obtain ⟨e, hend, hresult⟩ := exists_end none tokens p
  obtain ⟨n, hfits⟩ := Descent.exists_depth_le hend (Descent.next?_of_result? hresult)
  have hkeeps := (keeps_agreement tokens p n).leads (isKept_agreement tokens p n) hfits hleads
  rcases hkeeps.callers.entered with hroot | hentered
  · exact ⟨[], hroot ▸ reached_start tokens p⟩
  · exact hentered

/-- **The procedures that have not ended are charged for the constructs that are open**: there are
as many as the innermost one stands below the start of an expression, and for each construct as
many as it weighs. -/
theorem callers_charged {d : Descent} (hleads : (Descent.start p).Leads tokens d) :
    ∃ frames read, read <+: lexemesFrom tokens p ∧
      Reader.start.feed read = some ⟨frames, .operand⟩ ∧
      d.callers.length + 1 = d.active.procedure.height + totalWeight frames := by
  obtain ⟨frames, hreached⟩ := exists_reached hleads
  obtain ⟨n, q, hpasses⟩ := hreached.opened
  obtain ⟨read, rest, hread, hfeed, -⟩ := hpasses.mem_points
  exact ⟨frames, read, hread ▸ List.prefix_append read rest, hfeed,
    (Descent.depth_eq hleads).symm.trans hreached.charged⟩

/-! ### Reading within a room -/

/-- Within a room, a descent gives what the reader gives if no point needs more frames. -/
theorem parseFrom_of_needs {frames : Nat}
    (h : ∀ k ∈ needs .start (lexemesFrom tokens p), k ≤ frames) :
    parseFrom (some frames) tokens p = readFrom tokens p := by
  refine (parseFrom_of_fits fun d hleads => ?_).trans (parseFrom_none tokens p)
  obtain ⟨held, hreached⟩ := exists_reached hleads
  obtain ⟨k, hk, hdepth⟩ := hreached.needed
  exact Nat.le_trans hdepth (h k hk)

/-- Otherwise it is refused as too deep. -/
theorem parseFrom_of_need {frames k : Nat} (hk : k ∈ needs .start (lexemesFrom tokens p))
    (hlt : frames < k) : ∃ place, parseFrom (some frames) tokens p = .error (.tooDeep place) := by
  obtain ⟨d, hleads, hdeep⟩ := exists_deeper_of_need hk hlt
  exact parseFrom_of_overflow hleads hdeep

theorem parseFrom_cases (frames : Nat) (tokens : List Token) (p : Nat) :
    ((∀ k ∈ needs .start (lexemesFrom tokens p), k ≤ frames) ∧
      parseFrom (some frames) tokens p = readFrom tokens p) ∨
    ∃ place, parseFrom (some frames) tokens p = .error (.tooDeep place) := by
  by_cases hfits : ∀ k ∈ needs .start (lexemesFrom tokens p), k ≤ frames
  · exact Or.inl ⟨hfits, parseFrom_of_needs hfits⟩
  · push Not at hfits
    obtain ⟨k, hk, hlt⟩ := hfits
    exact Or.inr (parseFrom_of_need hk hlt)

/-- Within any room, a descent gives what the reader gives, or is refused as too deep at a place
that it has come to. -/
theorem parseFrom_limit (room : Option Nat) (tokens : List Token) (p : Nat) :
    parseFrom room tokens p = readFrom tokens p ∨
      ∃ q, p ≤ q ∧ q ≤ max p tokens.length ∧
        parseFrom room tokens p = .error (.tooDeep (placeAt tokens q)) := by
  obtain ⟨d, hleads, hresult⟩ := exists_end room tokens p
  obtain ⟨hle, hbound⟩ := Descent.offset_leads hleads
  cases hfits : d.overflows room with
  | true =>
    rw [Descent.result?_of_overflows hfits] at hresult
    exact Or.inr ⟨d.offset, hle, hbound, (Option.some.inj hresult).symm⟩
  | false =>
    rw [Descent.result?_of_fits hfits] at hresult
    obtain ⟨n, hdepth⟩ := Descent.exists_depth_le hleads (Descent.next?_of_result? hresult)
    exact Or.inl (ends_as_readFrom hleads hresult hdepth).1.symm

section Whole

variable [CallStack]

theorem parse_of_needs (h : ∀ k ∈ needs .start (tokens.map Token.lexeme), k ≤ CallStack.room) :
    parse tokens = readWhole tokens :=
  parseWithin_of_readFrom (parseFrom_of_needs (by rwa [lexemesFrom_zero]))

theorem parse_cases (tokens : List Token) :
    ((∀ k ∈ needs .start (tokens.map Token.lexeme), k ≤ CallStack.room) ∧
      parse tokens = readWhole tokens) ∨
    ∃ place, parse tokens = .error (.tooDeep place) := by
  rcases parseFrom_cases CallStack.room tokens 0 with ⟨hfits, hsame⟩ | ⟨place, hdeep⟩
  · exact Or.inl ⟨lexemesFrom_zero tokens ▸ hfits, parseWithin_of_readFrom hsame⟩
  · exact Or.inr ⟨place, by simp only [parse, parseWithin, hdeep]⟩

/-- A list of tokens is refused as too deep, or the limit makes no difference. -/
theorem parse_limit (tokens : List Token) :
    (∃ place, parse tokens = .error (.tooDeep place)) ∨ parse tokens = readWhole tokens := by
  rcases parse_cases tokens with ⟨-, hsame⟩ | hdeep
  · exact Or.inr hsame
  · exact Or.inl hdeep

theorem parse_of_light
    (h : ∀ w ∈ weights .start (tokens.map Token.lexeme), 7 + w ≤ CallStack.room) :
    parse tokens = readWhole tokens := by
  refine parse_of_needs fun k hk => ?_
  obtain ⟨w, hw, hle⟩ := exists_weight_of_need hk
  exact Nat.le_trans hle (h w hw)

theorem parse_of_heavy {w : Nat} (hw : w ∈ weights .start (tokens.map Token.lexeme))
    (hheavy : CallStack.room ≤ w) : ∃ place, parse tokens = .error (.tooDeep place) := by
  obtain ⟨k, hk, hlt⟩ := exists_need_of_weight hw
  rw [← lexemesFrom_zero] at hk
  obtain ⟨place, hdeep⟩ := parseFrom_of_need hk (Nat.lt_of_le_of_lt hheavy hlt)
  exact ⟨place, by simp only [parse, parseWithin, hdeep]⟩

/-- No point of at most 120 lexemes needs more frames than there are. -/
theorem needs_le_of_short {xs : List Lexeme} {k : Nat} (hshort : xs.length ≤ 120)
    (hk : k ∈ needs .start xs) : k ≤ CallStack.room := by
  obtain ⟨w, hw, hle⟩ := exists_weight_of_need hk
  have hweight := weights_le_length hw
  have hroom := CallStack.le_room
  omega

/-- A list of at most 120 tokens is never refused as too deep. -/
theorem parse_of_short (h : tokens.length ≤ 120) : parse tokens = readWhole tokens :=
  parse_of_needs fun _ hk => needs_le_of_short (by rwa [List.length_map]) hk

theorem parseFrom_of_short (h : tokens.length ≤ 120) (p : Nat) :
    parseFrom (some CallStack.room) tokens p = readFrom tokens p := by
  refine parseFrom_of_needs fun _ hk => needs_le_of_short ?_ hk
  rw [lexemesFrom, List.length_map, List.length_drop]
  exact Nat.le_trans (Nat.sub_le _ _) h

end Whole

end Calculator.Expr
