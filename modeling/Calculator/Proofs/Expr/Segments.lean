/-
  Calculator/Proofs/Expr/Segments.lean
  ====================================
  **Reading from the middle of a list of tokens.**  A descent that starts at an
  offset never looks at the tokens before it.  They only count for the offsets
  that it reports: step for step it is the descent through the list without them,
  and the expression, the kind of error and the column are the same.

  The descent goes on as long as some expression goes on, and ends only where none
  does.  So the tokens that it has taken are an expression, and no longer segment
  from the same offset is one.  Conversely an expression is read in whole wherever
  the token after it goes on with none.
-/
import Calculator.Proofs.Expr.Parsing

namespace Calculator

/-! ### Places that are moved -/

/-- The place so many tokens later, in the same column. -/
def Place.shift (count : Nat) (place : Place) : Place := ⟨place.token + count, place.column⟩

/-- The same error so many tokens later, in the same column. -/
def SyntaxError.shift (count : Nat) : SyntaxError → SyntaxError
  | operandExpected place found => operandExpected (place.shift count) found
  | closingExpected place => closingExpected (place.shift count)
  | inputLeft place => inputLeft (place.shift count)
  | tooDeep place => tooDeep (place.shift count)

namespace Expr

/-- The same expression or error so many tokens later. -/
def shifted (count : Nat) : Except SyntaxError (Expr × Nat) → Except SyntaxError (Expr × Nat)
  | .ok (e, stop) => .ok (e, stop + count)
  | .error why => .error (why.shift count)

def Activation.shift (count : Nat) (a : Activation) : Activation :=
  { a with start := a.start + count }

def Caller.shift (count : Nat) (caller : Caller) : Caller :=
  { caller with activation := caller.activation.shift count }

/-- The same state of a descent so many tokens later. -/
def Descent.shift (count : Nat) (d : Descent) : Descent :=
  ⟨d.active.shift count, d.body, d.callers.map (Caller.shift count), d.offset + count⟩

/-! ### Tokens before the offset -/

section Offset

variable {tokens : List Token} {p : Nat}

theorem lexemeAt_drop (tokens : List Token) (p offset : Nat) :
    lexemeAt tokens (offset + p) = lexemeAt (tokens.drop p) offset := by
  rw [lexemeAt, lexemeAt, List.getElem?_drop, Nat.add_comm]

theorem placeAt_drop (h : p < tokens.length) (offset : Nat) :
    placeAt tokens (offset + p) = (placeAt (tokens.drop p) offset).shift p := by
  have hlast : (tokens.drop p).getLast? = tokens.getLast? := by
    rw [List.getLast?_drop, if_neg (Nat.not_le.mpr h)]
  simp only [placeAt, Place.shift, List.getElem?_drop, hlast, Nat.add_comm p offset]

theorem error_drop (h : p < tokens.length) (why : Refusal) (offset : Nat) :
    why.error tokens (offset + p) = (why.error (tokens.drop p) offset).shift p := by
  cases why with
  | operandExpected =>
    simp only [Refusal.error, SyntaxError.shift, placeAt_drop h, lexemeAt_drop]
  | closingExpected => simp only [Refusal.error, SyntaxError.shift, placeAt_drop h]

namespace Descent

variable {d d' : Descent} {room : Option Nat}

/-- A step without the tokens before an offset is a step with them. -/
theorem next?_shift (h : d.next? (tokens.drop p) = some d') :
    (d.shift p).next? tokens = some (d'.shift p) := by
  cases step_of_next? h with
  | returned => rfl
  | looked => simp only [next?, shift, Nat.add_right_comm _ p _, lexemeAt_drop]
  | took hx =>
    simp only [next?, shift, lexemeAt_drop, hx, Option.map_some, Nat.add_right_comm _ p 1]
  | called => rfl
  | looped => rfl

theorem result?_shift (room : Option Nat) (h : p < tokens.length) (d : Descent) :
    (d.shift p).result? room tokens = (d.result? room (tokens.drop p)).map (shifted p) := by
  have hdepth : (d.shift p).overflows room = d.overflows room := rfl
  obtain ⟨active, body, callers, offset⟩ := d
  simp only [result?, hdepth]
  split
  · simp only [shift, placeAt_drop h, Option.map_some, shifted, SyntaxError.shift]
  · cases body with
    | returns e => cases callers <;> rfl
    | refuses why => simp only [shift, error_drop h, Option.map_some, shifted]
    | _ => rfl

/-- A descent without the tokens before an offset gives what the one with them does. -/
theorem run_shift (hp : p < tokens.length) {h : d.Halts (tokens.drop p)}
    (hshifted : (d.shift p).Halts tokens) {x : Except SyntaxError (Expr × Nat)}
    (hrun : d.run room (tokens.drop p) h = some x) :
    (d.shift p).run room tokens hshifted = some (shifted p x) := by
  fun_induction run room (tokens.drop p) d h with
  | case1 d h result hresult =>
    exact run_of_result? hshifted (by rw [result?_shift room hp, hresult, hrun, Option.map_some])
  | case2 d h hnone d' hstep ih =>
    have hnone' : (d.shift p).result? room tokens = none := by
      rw [result?_shift room hp, hnone, Option.map_none]
    rw [run_of_next? hshifted hnone' (next?_shift hstep)]
    exact ih _ hrun
  | case3 d h hnone hstop => cases hrun

end Descent

/-- The tokens before an offset count for the offsets that are reported, and for nothing else. -/
theorem parseFrom_drop (room : Option Nat) (h : p < tokens.length) :
    parseFrom room tokens p = shifted p (parseFrom room (tokens.drop p) 0) := by
  have hshift : (Descent.start 0).shift p = Descent.start p := by
    simp [Descent.start, Descent.shift, Activation.shift]
  have hrun := Descent.run_shift h (hshift ▸ Descent.halts_start tokens p)
    (run_eq_parseFrom room (tokens.drop p) 0)
  simp only [hshift, run_eq_parseFrom] at hrun
  exact Option.some.inj hrun

/-! ### Segments -/

variable {read rest : List Token}

/-- A segment that starts where a run starts is what has been taken, cut off or continued. -/
theorem extract_of_drop (h : tokens.drop p = read ++ rest) (count : Nat) :
    tokens.extract p (p + count) = (read ++ rest).take count := by
  rw [List.extract_eq_take_drop, h, Nat.add_sub_cancel_left]

theorem extract_read (h : tokens.drop p = read ++ rest) :
    tokens.extract p (p + read.length) = read := by
  rw [extract_of_drop h, List.take_left]

theorem extract_next {token : Token} (h : tokens.drop p = read ++ token :: rest) :
    tokens.extract p (p + read.length + 1) = read ++ [token] := by
  rw [Nat.add_assoc, extract_of_drop h, List.append_cons, List.take_left' (by simp)]

theorem length_of_drop (h : tokens.drop p = read ++ rest) (hne : read ≠ []) :
    p < tokens.length ∧ p + read.length + rest.length = tokens.length := by
  have hlength := congrArg List.length h
  have hpos : 0 < read.length := List.length_pos_iff.mpr hne
  rw [List.length_drop, List.length_append] at hlength
  omega

end Offset

/-! ### Where a reader is finished -/

section Finished

variable {xs : List Lexeme} {r : Reader} {e : Expr}

theorem ne_nil_of_atEnd (hread : Reader.start.feed xs = some r)
    (hend : r.atEnd = .finished e) : xs ≠ [] := by
  rintro rfl
  obtain rfl : Reader.start = r := by simpa [Reader.feed] using hread
  simp [Reader.atEnd, Reader.start] at hend

/-- A reader is finished at a lexeme if it would be finished at the end of the input and no
expression goes on with the lexeme. -/
theorem next_finished_iff (hread : Reader.start.feed xs = some r) (x : Option Lexeme) :
    r.next x = .finished e ↔
      r.atEnd = .finished e ∧ ∀ y, x = some y → ¬IsViable (xs ++ [y]) := by
  obtain ⟨hcoherent, -⟩ := coherent_feed coherent_start hread
  constructor
  · intro hend
    refine ⟨(atEnd_of_finished hcoherent hend).2, ?_⟩
    rintro y rfl hviable
    obtain ⟨r', htaken⟩ := (isViable_concat_iff hread y).mp hviable
    have hnext : r.next (some y) = .taken r' := htaken
    simp [hnext] at hend
  · rintro ⟨hend, hstop⟩
    rcases next_cases hcoherent x with ⟨r', htaken⟩ | ⟨hfocus, -⟩ | ⟨-, hsame⟩
    · cases x with
      | none => exact absurd htaken (atEnd_ne_taken r r')
      | some y => exact absurd ((isViable_concat_iff hread y).mpr ⟨r', htaken⟩) (hstop y rfl)
    · simp [Reader.atEnd, hfocus] at hend
    · exact hsame.trans hend

end Finished

/-! ### The longest expression -/

section Longest

variable {tokens : List Token} {p n : Nat} {e : Expr}

/-- An expression is read where no expression goes on at the token after it, and only there. -/
theorem readFrom_eq_ok_iff_longest :
    readFrom tokens p = .ok (e, n) ↔
      n ≤ tokens.length ∧ readWhole (tokens.extract p n) = .ok e ∧
        (n < tokens.length → ¬IsViable ((tokens.extract p (n + 1)).map Token.lexeme)) := by
  constructor
  · intro h
    obtain ⟨read, rest, r, htokens, rfl, hread, hend⟩ := readFrom_eq_ok_iff.mp h
    obtain ⟨hatEnd, hstop⟩ := (next_finished_iff hread _).mp hend
    have hne : read ≠ [] := by simpa using ne_nil_of_atEnd hread hatEnd
    obtain ⟨-, hlength⟩ := length_of_drop htokens hne
    refine ⟨by omega, ?_, ?_⟩
    · rw [extract_read htokens]
      exact readWhole_eq_ok_iff.mpr ⟨r, hread, hatEnd⟩
    · intro hlt
      cases rest with
      | nil =>
        rw [List.length_nil] at hlength
        omega
      | cons token rest =>
        rw [extract_next htokens, List.map_append]
        exact hstop token.lexeme rfl
  · rintro ⟨hle, hparse, hstop⟩
    obtain ⟨r, hread, hatEnd⟩ := readWhole_eq_ok_iff.mp hparse
    have hne : tokens.extract p n ≠ [] := by simpa using ne_nil_of_atEnd hread hatEnd
    have hlength : (tokens.extract p n).length = n - p := by
      rw [List.extract_eq_take_drop, List.length_take, List.length_drop]
      omega
    have hpos : 0 < (tokens.extract p n).length := List.length_pos_iff.mpr hne
    have hn : p + (tokens.extract p n).length = n := by omega
    have htokens : tokens.drop p = tokens.extract p n ++ tokens.drop n := by
      have hsplit := List.take_append_drop (n - p) (tokens.drop p)
      rw [List.drop_drop, show p + (n - p) = n by omega] at hsplit
      exact hsplit.symm
    refine readFrom_eq_ok_iff.mpr ⟨_, _, r, htokens, hn.symm, hread, ?_⟩
    refine (next_finished_iff hread _).mpr ⟨hatEnd, ?_⟩
    intro y hy
    cases hrest : tokens.drop n with
    | nil => simp [hrest] at hy
    | cons token rest =>
      obtain rfl : token.lexeme = y := by simpa [hrest] using hy
      have hlt : n < tokens.length := by
        rw [← Nat.not_le, ← List.drop_eq_nil_iff, hrest]
        simp
      have hnext := extract_next (hrest ▸ htokens)
      rw [hn] at hnext
      rw [← List.map_singleton, ← List.map_append, ← hnext]
      exact hstop hlt

/-- What the points of a run need is what those before the token need at which the reader is
finished. -/
theorem needs_of_readFrom (h : readFrom tokens p = .ok (e, n)) :
    needs .start (lexemesFrom tokens p) =
      needs .start ((tokens.extract p n).map Token.lexeme) := by
  obtain ⟨read, rest, r, htokens, rfl, hread, hend⟩ := readFrom_eq_ok_iff.mp h
  obtain ⟨hcoherent, -⟩ := coherent_feed coherent_start hread
  obtain ⟨hfocus, -⟩ := atEnd_of_finished hcoherent hend
  rw [extract_read htokens, lexemesFrom, htokens, List.map_append]
  refine needs_append hread hfocus fun s => ?_
  rw [List.head?_map, hend]
  intro hnone
  cases hnone

variable [CallStack]

/-- In the room of the call stack too, an expression is read where no expression goes on at the
token after it, and only there. -/
theorem parseFrom_eq_ok_iff_longest :
    parseFrom (some CallStack.room) tokens p = .ok (e, n) ↔
      n ≤ tokens.length ∧ parse (tokens.extract p n) = .ok e ∧
        (n < tokens.length → ¬IsViable ((tokens.extract p (n + 1)).map Token.lexeme)) := by
  constructor
  · intro h
    rcases parseFrom_cases CallStack.room tokens p with ⟨hfits, hsame⟩ | ⟨place, hdeep⟩
    · rw [hsame] at h
      obtain ⟨hle, hwhole, hstop⟩ := readFrom_eq_ok_iff_longest.mp h
      rw [needs_of_readFrom h] at hfits
      exact ⟨hle, (parse_of_needs hfits).trans hwhole, hstop⟩
    · simp [hdeep] at h
  · rintro ⟨hle, hparse, hstop⟩
    rcases parse_cases (tokens.extract p n) with ⟨hfits, hsame⟩ | ⟨place, hdeep⟩
    · rw [hsame] at hparse
      have hread := readFrom_eq_ok_iff_longest.mpr ⟨hle, hparse, hstop⟩
      rw [← needs_of_readFrom hread] at hfits
      exact (parseFrom_of_needs hfits).trans hread
    · simp [hdeep] at hparse

/-- The tokens of an expression come after the offset, and no longer segment is an expression. -/
theorem not_isExpression_of_parseFrom (h : parseFrom (some CallStack.room) tokens p = .ok (e, n)) :
    p < n ∧ ∀ m, n < m → m ≤ tokens.length →
      ¬IsExpression ((tokens.extract p m).map Token.lexeme) := by
  obtain ⟨hle, hparse, hstop⟩ := parseFrom_eq_ok_iff_longest.mp h
  have hpn : p < n := by
    by_contra hge
    have hnil : tokens.extract p n = [] := by
      rw [List.extract_eq_take_drop, Nat.sub_eq_zero_of_le (Nat.not_lt.mp hge), List.take_zero]
    have hempty : parse [] = .error (.operandExpected ⟨0, 0⟩ none) := parse_of_short (by decide)
    rw [hnil, hempty] at hparse
    cases hparse
  refine ⟨hpn, ?_⟩
  intro m hnm hm hexpression
  apply hstop (by omega)
  -- the longer segment starts with the tokens up to the one that no expression goes on with
  have hsplit : tokens.extract p m =
      tokens.extract p (n + 1) ++ (tokens.extract p m).drop (n + 1 - p) := by
    have htake := List.take_append_drop (n + 1 - p) (tokens.extract p m)
    rw [List.extract_eq_take_drop, List.take_take, Nat.min_eq_left (by omega)] at htake
    exact htake.symm
  rw [hsplit, List.map_append] at hexpression
  exact ⟨_, hexpression⟩

end Longest

/-- **From any offset the longest expression is read, whatever stands before it.**  What is read
from an offset is an expression of the tokens up to some later offset such that no expression
goes on with the token there; so no longer segment is an expression, of any depth.  Every
expression that ends so is read.  The tokens before the offset only count: without them the
same tree, or the same error in the same column, is found so many tokens earlier. -/
theorem parseFrom_longest [CallStack] (tokens : List Token) (p : Nat) :
    (∀ e n, parseFrom (some CallStack.room) tokens p = .ok (e, n) ↔
      n ≤ tokens.length ∧ parse (tokens.extract p n) = .ok e ∧
        (n < tokens.length → ¬IsViable ((tokens.extract p (n + 1)).map Token.lexeme))) ∧
    (∀ e n, parseFrom (some CallStack.room) tokens p = .ok (e, n) →
      p < n ∧ ∀ m, n < m → m ≤ tokens.length →
        ¬IsExpression ((tokens.extract p m).map Token.lexeme)) ∧
    (p < tokens.length →
      parseFrom (some CallStack.room) tokens p =
        shifted p (parseFrom (some CallStack.room) (tokens.drop p) 0)) := by
  refine ⟨?_, ?_, ?_⟩
  · intro e n
    exact parseFrom_eq_ok_iff_longest
  · intro e n h
    exact not_isExpression_of_parseFrom h
  · intro h
    exact parseFrom_drop (some CallStack.room) h

/-- The tokens of `) x ^ y = (`. -/
def strayParens : List Token := [
  ⟨.symbol .rightParen, 0, 1⟩, ⟨.identifier "x", 2, 3⟩, ⟨.symbol .caret, 4, 5⟩,
  ⟨.identifier "y", 6, 7⟩, ⟨.symbol .assign, 8, 9⟩, ⟨.symbol .leftParen, 10, 11⟩]

section Unused

attribute [local instance] CallStack.unused

/-- The power is read, although an assignment to its exponent would be an expression alone; and
an operand is missing at the end, in the column where the last token stops. -/
theorem parseFrom_strayParens :
    parseFrom (some CallStack.room) strayParens 1 =
        .ok (.binary .pow (.identifier "x") (.identifier "y"), 4) ∧
      ¬IsExpression ((strayParens.extract 1 6).map Token.lexeme) ∧
      parseFrom (some CallStack.room) strayParens 5 =
        .error (.operandExpected ⟨6, 11⟩ none) ∧
      parseFrom (some CallStack.room) strayParens 5 =
        shifted 5 (parseFrom (some CallStack.room) (strayParens.drop 5) 0) := by
  have hread : ∀ p, parseFrom (some CallStack.room) strayParens p =
      readFrom strayParens p := parseFrom_of_short (by decide)
  have hpower : parseFrom (some CallStack.room) strayParens 1 =
      .ok (.binary .pow (.identifier "x") (.identifier "y"), 4) := (hread 1).trans rfl
  obtain ⟨-, hlongest, -⟩ := parseFrom_longest strayParens 1
  obtain ⟨-, hnone⟩ := hlongest _ _ hpower
  obtain ⟨-, -, hshifted⟩ := parseFrom_longest strayParens 5
  exact ⟨hpower, hnone 6 (by decide) (by decide), (hread 5).trans rfl, hshifted (by decide)⟩

end Unused

end Expr

end Calculator
