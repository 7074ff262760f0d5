/-
  Calculator/Proofs/Expr/Depth.lean
  =================================
  **How deeply constructs may be nested.**  The points of a well-formed tree are
  known without a reader: the heaviest one is found by walking down the tree, where
  a parenthesis, a call, a sign, an assignment and the exponent of a power add
  their weights, and siblings are compared and not added.  A chain of operators
  that associate to the left is as heavy as its heaviest operand, however many
  operands it has.

  Tokens that are no expression have points as well.  An operand may start after
  some lexemes exactly when these spell constructs that nest in one another, and
  then these constructs are the ones that are open.  So the frames that a descent
  holds are those of the constructs in whose places it stands, and the room of the
  call stack limits how deeply these may be nested, and nothing else.
-/
import Calculator.Proofs.Expr.Parsing
import Mathlib.Order.Bounds.Basic

namespace Calculator

/-! ### The heaviest point of a tree -/

/-- What a binary operator weighs while its right operand is pending. -/
def BinaryOp.weight : BinaryOp → Nat
  | pow => 1
  | _ => 0

namespace Expr

mutual

/-- The weight of the heaviest point inside an expression. -/
def peak : Expr → Nat
  | .number _ => 0
  | .identifier _ => 0
  | .group body => 6 + body.peak
  | .unary _ operand => 1 + operand.peak
  | .binary op left right => max left.peak (op.weight + right.peak)
  | .call _ args => 7 + highestPeak args
  | .assign _ _ value => 1 + value.peak

def highestPeak : List Expr → Nat
  | [] => 0
  | e :: rest => max e.peak (highestPeak rest)

end

theorem highestPeak_le_iff {es : List Expr} {w : Nat} :
    highestPeak es ≤ w ↔ ∀ e ∈ es, e.peak ≤ w := by
  induction es with
  | nil => simp [highestPeak]
  | cons e rest ih => simp [highestPeak, ih]

/-- Two parts of a run around a lexeme: their points are compared. -/
theorem isGreatest_around {r s t : Reader} {xs ys : List Lexeme} {x : Lexeme} {a b : Nat}
    (hread : r.feed xs = some s) (hstep : s.advance x = .taken t)
    (hxs : IsGreatest (weights r xs) a) (hys : IsGreatest (weights t ys) b) :
    IsGreatest (weights r (xs ++ x :: ys)) (max a b) := by
  have hlast : totalWeight s.frames ∈ weights r xs :=
    mem_weights_iff.mpr ⟨xs, s, List.prefix_refl xs, hread, rfl⟩
  rw [weights_append hread, weights_taken hstep, Set.union_insert,
    Set.insert_eq_of_mem (Set.mem_union_left _ hlast)]
  exact hxs.union hys

theorem isGreatest_nil (r : Reader) : IsGreatest (weights r []) (totalWeight r.frames) := by
  rw [weights_nil]
  exact isGreatest_singleton

/-- A step to a reader that weighs no more than an earlier point. -/
theorem isGreatest_last {r s t : Reader} {xs : List Lexeme} {x : Lexeme} {a : Nat}
    (hread : r.feed xs = some s) (hstep : s.advance x = .taken t)
    (hxs : IsGreatest (weights r xs) a) (ht : totalWeight t.frames ≤ a) :
    IsGreatest (weights r (xs ++ [x])) a := by
  have hboth := isGreatest_around hread hstep hxs (isGreatest_nil t)
  rwa [max_eq_left ht] at hboth

/-- The first step of a run, to a reader that weighs no less. -/
theorem isGreatest_first {r t : Reader} {ys : List Lexeme} {x : Lexeme} {b : Nat}
    (hstep : r.advance x = .taken t) (hys : IsGreatest (weights t ys) b)
    (hr : totalWeight r.frames ≤ b) : IsGreatest (weights r (x :: ys)) b := by
  have hread : r.feed [] = some r := rfl
  have hboth := isGreatest_around hread hstep (isGreatest_nil r) hys
  rwa [max_eq_right hr] at hboth

/-- A single step, to a reader that weighs no more. -/
theorem isGreatest_step {r t : Reader} {x : Lexeme} (hstep : r.advance x = .taken t)
    (ht : totalWeight t.frames ≤ totalWeight r.frames) :
    IsGreatest (weights r [x]) (totalWeight r.frames) := by
  have hread : r.feed [] = some r := rfl
  exact isGreatest_last hread hstep (isGreatest_nil r) ht

/-- The heaviest point of the spelling of an expression, wherever it is read. -/
def Peaks (e : Expr) : Prop :=
  ∀ frames, hole frames ≤ e.level →
    IsGreatest (weights ⟨frames, .operand⟩ e.spelling) (totalWeight frames + e.peak)

theorem totalWeight_endedAt_le (frames : List Frame) (e : Expr) :
    totalWeight (endedAt frames e).frames ≤ totalWeight frames :=
  totalWeight_settle_le .unary frames e

theorem peaks_number (value : Binary64) : Peaks (.number value) := by
  intro frames _
  have hstep : Reader.advance ⟨frames, .operand⟩ (.number value)
      = .taken (endedAt frames (.number value)) := rfl
  exact isGreatest_step hstep (totalWeight_endedAt_le frames _)

theorem peaks_identifier (name : String) : Peaks (.identifier name) := by
  intro frames _
  have hstep : Reader.advance ⟨frames, .operand⟩ (.identifier name)
      = .taken ⟨frames, .named name⟩ := rfl
  exact isGreatest_step hstep (Nat.le_refl _)

theorem peaks_group {body : Expr} (hreads : Reads body) (hbody : Peaks body) :
    Peaks (.group body) := by
  intro frames _
  obtain ⟨r, hread, hends⟩ := hreads (.paren :: frames) (Level.assignment_le _)
  have hclose : r.advance (.symbol .rightParen) = .taken (endedAt frames (.group body)) :=
    hends (some (.symbol .rightParen)) rfl (Level.assignment_le _)
  have hinside := hbody (.paren :: frames) (Level.assignment_le _)
  have hopened : totalWeight (.paren :: frames) + body.peak
      = totalWeight frames + (Expr.group body).peak := by
    simp only [totalWeight, Frame.weight, peak]
    omega
  rw [hopened] at hinside
  have hended := totalWeight_endedAt_le frames (.group body)
  refine isGreatest_first (t := ⟨.paren :: frames, .operand⟩) rfl ?_ (Nat.le_add_right _ _)
  exact isGreatest_last hread hclose hinside (Nat.le_trans hended (Nat.le_add_right _ _))

theorem peaks_unary (op : UnaryOp) {operand : Expr} (hoperand : Peaks operand)
    (hlevel : .unary ≤ operand.level) : Peaks (.unary op operand) := by
  intro frames _
  have hinside := hoperand (.unary op :: frames) hlevel
  have hopened : totalWeight (.unary op :: frames) + operand.peak
      = totalWeight frames + (Expr.unary op operand).peak := by
    simp only [totalWeight, Frame.weight, peak]
    omega
  rw [hopened] at hinside
  have hstep : Reader.advance ⟨frames, .operand⟩ (.symbol op.symbol)
      = .taken ⟨.unary op :: frames, .operand⟩ := by
    cases op with
    | plus => rfl
    | minus => rfl
  exact isGreatest_first hstep hinside (Nat.le_add_right _ _)

theorem totalWeight_ofBinary (op : BinaryOp) (left : Expr) (frames : List Frame) :
    totalWeight (.ofBinary op left :: frames) = op.weight + totalWeight frames := by
  cases op <;> rfl

theorem peaks_binary (op : BinaryOp) {left right : Expr} (hreads : Reads left)
    (hleft : Peaks left) (hright : Peaks right) (hleftLevel : op.leftLevel ≤ left.level)
    (hrightLevel : op.rightLevel ≤ right.level) : Peaks (.binary op left right) := by
  intro frames hfits
  have hplace : hole frames ≤ op.level := hfits
  have hleftPlace : hole frames ≤ left.level :=
    Level.le_trans hplace (Level.le_trans (level_le_leftLevel op) hleftLevel)
  obtain ⟨r, hread, hends⟩ := hreads frames hleftPlace
  have hopen := advance_binary op hends hleftLevel hplace
  -- The left operand has ended when the right one is read, so only the operator weighs on it.
  have hbefore := hleft frames hleftPlace
  have hafter := hright (.ofBinary op left :: frames) (by simpa [hole])
  have hmax : max (totalWeight frames + left.peak)
      (totalWeight (.ofBinary op left :: frames) + right.peak)
        = totalWeight frames + (Expr.binary op left right).peak := by
    rw [totalWeight_ofBinary, peak]
    omega
  have hboth := isGreatest_around hread hopen hbefore hafter
  rwa [hmax] at hboth

theorem peaks_assign (op : AssignOp) (target : String) {value : Expr} (hvalue : Peaks value) :
    Peaks (.assign op target value) := by
  intro frames hfits
  have hinside := hvalue (.assign op target :: frames) (Level.assignment_le _)
  have hopened : totalWeight (.assign op target :: frames) + value.peak
      = totalWeight frames + (Expr.assign op target value).peak := by
    simp only [totalWeight, Frame.weight, peak]
    omega
  rw [hopened] at hinside
  refine isGreatest_first (t := ⟨frames, .named target⟩) rfl ?_ (Nat.le_add_right _ _)
  exact isGreatest_first (advance_assign op target hfits) hinside (Nat.le_add_right _ _)

/-- The arguments of a call are siblings: the heaviest one counts. -/
theorem isGreatest_arguments (name : String) (frames : List Frame) {args : List Expr}
    (hreads : ∀ e ∈ args, Reads e) (hargs : ∀ e ∈ args, Peaks e) (hne : args ≠ [])
    (done : List Expr) :
    IsGreatest (weights ⟨.call name done :: frames, .operand⟩
        (spellings args ++ [.symbol .rightParen]))
      (7 + totalWeight frames + highestPeak args) := by
  induction args generalizing done with
  | nil => exact absurd rfl hne
  | cons e rest ih =>
    obtain ⟨r, hread, hends⟩ :=
      hreads e List.mem_cons_self (.call name done :: frames) (Level.assignment_le _)
    have hfirst : IsGreatest (weights ⟨.call name done :: frames, .operand⟩ e.spelling)
        (7 + totalWeight frames + e.peak) :=
      hargs e List.mem_cons_self (.call name done :: frames) (Level.assignment_le _)
    cases rest with
    | nil =>
      have hclose : r.advance (.symbol .rightParen) =
          .taken (endedAt frames (.call name (e :: done).reverse)) :=
        hends (some (.symbol .rightParen)) rfl (Level.assignment_le _)
      have hended := totalWeight_endedAt_le frames (.call name (e :: done).reverse)
      have honly : highestPeak [e] = e.peak := by simp [highestPeak]
      rw [honly]
      exact isGreatest_last hread hclose hfirst (by omega)
    | cons d rest =>
      have hcomma : r.advance (.symbol .comma) =
          .taken ⟨.call name (e :: done) :: frames, .operand⟩ :=
        hends (some (.symbol .comma)) rfl (Level.assignment_le _)
      have hothers := ih (fun c hc => hreads c (List.mem_cons_of_mem e hc))
        (fun c hc => hargs c (List.mem_cons_of_mem e hc)) (by simp) (e :: done)
      have hboth := isGreatest_around hread hcomma hfirst hothers
      rw [Nat.add_max_add_left] at hboth
      simpa [spellings, highestPeak] using hboth

theorem peaks_call (name : String) {args : List Expr} (hreads : ∀ e ∈ args, Reads e)
    (hargs : ∀ e ∈ args, Peaks e) : Peaks (.call name args) := by
  intro frames _
  refine isGreatest_first (t := ⟨frames, .named name⟩) rfl ?_ (Nat.le_add_right _ _)
  have hopened : totalWeight frames + (Expr.call name args).peak
      = 7 + totalWeight frames + highestPeak args := by
    rw [peak]
    omega
  rw [hopened]
  have hopen : Reader.advance ⟨frames, .named name⟩ (.symbol .leftParen)
      = .taken ⟨.call name [] :: frames, .operand⟩ := rfl
  refine isGreatest_first hopen ?_ (Nat.le_trans (Nat.le_add_left _ 7) (Nat.le_add_right _ _))
  cases args with
  | nil =>
    have hclose : Reader.advance ⟨.call name [] :: frames, .operand⟩ (.symbol .rightParen)
        = .taken (endedAt frames (.call name [])) := rfl
    have hended := totalWeight_endedAt_le frames (.call name [])
    exact isGreatest_step hclose (Nat.le_trans hended (Nat.le_add_left _ _))
  | cons e rest => exact isGreatest_arguments name frames hreads hargs (by simp) []

theorem peaks_of_wellFormed (e : Expr) (hwf : e.isWellFormed = true) : Peaks e := by
  induction e using of_children with
  | step e ih =>
    cases e with
    | number value => exact peaks_number value
    | identifier name => exact peaks_identifier name
    | group body =>
      exact peaks_group (reads_of_wellFormed body hwf) (ih body (by simp [children]) hwf)
    | unary op operand =>
      simp only [isWellFormed, Bool.and_eq_true, decide_eq_true_eq] at hwf
      exact peaks_unary op (ih operand (by simp [children]) hwf.1) hwf.2
    | binary op left right =>
      simp only [isWellFormed, Bool.and_eq_true, decide_eq_true_eq] at hwf
      obtain ⟨⟨hleft, hleftLevel⟩, hright, hrightLevel⟩ := hwf
      exact peaks_binary op (reads_of_wellFormed left hleft) (ih left (by simp [children]) hleft)
        (ih right (by simp [children]) hright) hleftLevel hrightLevel
    | call name args =>
      have hargs := (areWellFormed_iff args).mp hwf
      exact peaks_call name (fun d hd => reads_of_wellFormed d (hargs d hd))
        fun d hd => ih d (by simpa [children] using hd) (hargs d hd)
    | assign op target value =>
      exact peaks_assign op target (ih value (by simp [children]) hwf)

theorem isGreatest_peak {e : Expr} (hwf : e.isWellFormed = true) :
    IsGreatest (weights .start e.spelling) e.peak := by
  have hpeak := peaks_of_wellFormed e hwf [] (Level.assignment_le _)
  rwa [totalWeight, Nat.zero_add] at hpeak

section Peak

variable [CallStack] {tokens : List Token} {e : Expr} (hwf : e.isWellFormed = true)
  (hspelling : e.spelling = tokens.map Token.lexeme)

include hwf hspelling

/-- A well-formed expression is read from its spelling if the room has frames for its heaviest
point and for the procedures down to a primary expression. -/
theorem parse_of_peak_le (hlight : 7 + e.peak ≤ CallStack.room) : parse tokens = .ok e := by
  obtain ⟨-, hbound⟩ := isGreatest_peak hwf
  rw [hspelling] at hbound
  rw [parse_of_light fun w hw => Nat.le_trans (Nat.add_le_add_left (hbound hw) 7) hlight]
  exact readWhole_of_spelling hwf hspelling

end Peak

/-! ### Open constructs -/

theorem feed_spellingsBefore (name : String) (frames : List Frame) {done : List Expr}
    (hdone : ∀ e ∈ done, e.isWellFormed = true) :
    Reader.feed ⟨.call name [] :: frames, .operand⟩ (spellingsBefore done.reverse)
      = some ⟨.call name done :: frames, .operand⟩ := by
  induction done with
  | nil => rfl
  | cons e done ih =>
    have hfirst := ih fun d hd => hdone d (List.mem_cons_of_mem e hd)
    obtain ⟨r, hread, hends⟩ := reads_of_wellFormed e (hdone e List.mem_cons_self)
      (.call name done :: frames) (Level.assignment_le _)
    have hcomma : r.advance (.symbol .comma) =
        .taken ⟨.call name (e :: done) :: frames, .operand⟩ :=
      hends (some (.symbol .comma)) rfl (Level.assignment_le _)
    rw [List.reverse_cons, spellingsBefore_append, feed_append, hfirst, Option.bind_some,
      spellingsBefore_singleton, feed_append, hread]
    exact feed_cons hcomma []

theorem feed_ofBinary (op : BinaryOp) {left : Expr} {frames : List Frame}
    (hleft : left.isWellFormed = true) (hlevel : op.leftLevel ≤ left.level)
    (hplace : hole frames ≤ op.level) :
    Reader.feed ⟨frames, .operand⟩ (left.spelling ++ [.symbol op.symbol])
      = some ⟨.ofBinary op left :: frames, .operand⟩ := by
  have hfits := Level.le_trans hplace (Level.le_trans (level_le_leftLevel op) hlevel)
  obtain ⟨r, hread, hends⟩ := reads_of_wellFormed left hleft frames hfits
  rw [feed_append, hread]
  exact feed_cons (advance_binary op hends hlevel hplace) []

/-- A reader that waits for an operand takes what opens a construct there. -/
theorem feed_frame {f : Frame} {frames : List Frame} (hwf : f.isWellFormed = true)
    (hplace : hole frames ≤ f.level) :
    Reader.feed ⟨frames, .operand⟩ f.spelling = some ⟨f :: frames, .operand⟩ := by
  cases f with
  | paren => rfl
  | call name done =>
    have hdone := (areWellFormed_iff done).mp hwf
    simp only [Frame.spelling]
    rw [feed_cons (s := ⟨frames, .named name⟩) rfl,
      feed_cons (s := ⟨.call name [] :: frames, .operand⟩) rfl]
    exact feed_spellingsBefore name frames hdone
  | assign op target =>
    simp only [Frame.spelling]
    rw [feed_cons (s := ⟨frames, .named target⟩) rfl]
    exact feed_cons (advance_assign op target hplace) []
  | sum op left =>
    simp only [Frame.isWellFormed, Bool.and_eq_true, decide_eq_true_eq] at hwf
    obtain ⟨hop, hleft, hlevel⟩ := hwf
    cases op with
    | add => exact feed_ofBinary .add hleft hlevel hplace
    | sub => exact feed_ofBinary .sub hleft hlevel hplace
    | _ => simp [BinaryOp.level] at hop
  | product op left =>
    simp only [Frame.isWellFormed, Bool.and_eq_true, decide_eq_true_eq] at hwf
    obtain ⟨hop, hleft, hlevel⟩ := hwf
    cases op with
    | mul => exact feed_ofBinary .mul hleft hlevel hplace
    | div => exact feed_ofBinary .div hleft hlevel hplace
    | rem => exact feed_ofBinary .rem hleft hlevel hplace
    | _ => simp [BinaryOp.level] at hop
  | power base =>
    simp only [Frame.isWellFormed, Bool.and_eq_true, decide_eq_true_eq] at hwf
    exact feed_ofBinary .pow hwf.1 hwf.2 hplace
  | unary op =>
    cases op with
    | plus => rfl
    | minus => rfl

theorem feed_openSpelling {frames : List Frame} (h : Nested frames) :
    Reader.start.feed (openSpelling frames) = some ⟨frames, .operand⟩ := by
  induction frames with
  | nil => rfl
  | cons f frames ih =>
    obtain ⟨hwf, hplace, hframes⟩ := h
    rw [openSpelling_cons, feed_append, ih hframes]
    exact feed_frame hwf hplace

/-- The constructs that are open where an operand has to start are those in whose places it
stands in the grammar. -/
theorem feed_eq_operand_iff {read : List Lexeme} {frames : List Frame} :
    Reader.start.feed read = some ⟨frames, .operand⟩ ↔
      Nested frames ∧ openSpelling frames = read := by
  constructor
  · intro h
    obtain ⟨hcoherent, hspelling⟩ := coherent_feed coherent_start h
    refine ⟨hcoherent.nested, ?_⟩
    simpa [Reader.spelling, Focus.spelling, Reader.start] using hspelling
  · rintro ⟨hnested, rfl⟩
    exact feed_openSpelling hnested

/-! ### Chains and argument lists -/

/-- The operands of a chain of operators that associate to the left. -/
def members : Expr → List Expr
  | .binary op left right =>
    if op = .pow then [.binary op left right] else members left ++ members right
  | e => [e]

theorem isWellFormed_of_mem_members {e d : Expr} (hwf : e.isWellFormed = true)
    (hd : d ∈ e.members) : d.isWellFormed = true := by
  induction e using of_children with
  | step e ih =>
    cases e with
    | binary op left right =>
      have hparts := hwf
      simp only [isWellFormed, Bool.and_eq_true] at hparts
      obtain ⟨⟨hleft, -⟩, hright, -⟩ := hparts
      rw [members] at hd
      split at hd
      · obtain rfl := List.mem_singleton.mp hd
        exact hwf
      · rcases List.mem_append.mp hd with hd | hd
        · exact ih left (by simp [children]) hleft hd
        · exact ih right (by simp [children]) hright hd
    | _ =>
      obtain rfl := List.mem_singleton.mp hd
      exact hwf

/-- A chain is no heavier than its operands. -/
theorem peak_le_of_members {e : Expr} {w : Nat} (h : ∀ d ∈ e.members, d.peak ≤ w) :
    e.peak ≤ w := by
  induction e using of_children with
  | step e ih =>
    cases e with
    | binary op left right =>
      rw [members] at h
      split at h
      · exact h _ (List.mem_singleton_self _)
      · next hop =>
        have hleft := ih left (by simp [children]) fun d hd => h d (List.mem_append_left _ hd)
        have hright := ih right (by simp [children]) fun d hd => h d (List.mem_append_right _ hd)
        have hweight : op.weight = 0 := by
          cases op with
          | pow => exact absurd rfl hop
          | _ => rfl
        rw [peak, hweight, Nat.zero_add]
        exact Nat.max_le.mpr ⟨hleft, hright⟩
    | _ => exact h _ (List.mem_singleton_self _)

/-- **The nesting limit counts open constructs only.**  The procedures that a descent has entered
and not left hold a frame each.  There are as many as the innermost one stands below the start of
an expression, and for every construct of the grammar that is open there six for a parenthesis,
seven for a call, and one for a sign, the exponent of a power or an assignment; and inside every
such list of constructs that the tokens open, more are held than it weighs.  So light points make
no difference to what is read, a heavy one is refused whatever follows it, and there is no third
outcome.  Chains of operators that associate to the left and argument lists may be of any length. -/
theorem parse_counts_open_constructs [CallStack] (tokens : List Token) :
    (∀ d, (Descent.start 0).Leads tokens d →
      ∃ frames, Nested frames ∧ openSpelling frames <+: tokens.map Token.lexeme ∧
        d.callers.length + 1 = d.active.procedure.height + totalWeight frames) ∧
    (∀ frames, Nested frames → openSpelling frames <+: tokens.map Token.lexeme →
      ∃ d, (Descent.start 0).Leads tokens d ∧ totalWeight frames < d.callers.length + 1) ∧
    (∀ frames, (∃ read, read <+: tokens.map Token.lexeme ∧
        Reader.start.feed read = some ⟨frames, .operand⟩) ↔
      Nested frames ∧ openSpelling frames <+: tokens.map Token.lexeme) ∧
    ((∀ w ∈ weights .start (tokens.map Token.lexeme), w ≤ 830) →
      parse tokens = parseWithin none tokens) ∧
    ((∃ w ∈ weights .start (tokens.map Token.lexeme), 1190 ≤ w) →
      ∃ place, parse tokens = .error (.tooDeep place)) ∧
    ((∃ place, parse tokens = .error (.tooDeep place)) ∨ parse tokens = parseWithin none tokens) ∧
    (∀ e, parseWithin none tokens = .ok e →
      (∀ d ∈ e.members, ∀ w ∈ weights .start d.spelling, w ≤ 830) → parse tokens = .ok e) ∧
    (∀ name args, parseWithin none tokens = .ok (.call name args) →
      (∀ d ∈ args, ∀ w ∈ weights .start d.spelling, 7 + w ≤ 830) →
      parse tokens = .ok (.call name args)) := by
  have hmost := CallStack.le_room
  have hlexemes := lexemesFrom_zero tokens
  rw [parseWithin_none]
  refine ⟨?_, ?_, ?_, ?_, ?_, parse_limit tokens, ?_, ?_⟩
  · intro d hleads
    obtain ⟨frames, read, hread, hreached, hcharged⟩ := callers_charged hleads
    obtain ⟨hnested, rfl⟩ := feed_eq_operand_iff.mp hreached
    exact ⟨frames, hnested, hlexemes ▸ hread, hcharged⟩
  · intro frames hnested hread
    have hweight : totalWeight frames ∈ weights .start (lexemesFrom tokens 0) :=
      mem_weights_iff.mpr ⟨_, _, hlexemes ▸ hread, feed_openSpelling hnested, rfl⟩
    obtain ⟨k, hk, hlt⟩ := exists_need_of_weight hweight
    obtain ⟨d, hleads, hdeeper⟩ := exists_deeper_of_need hk hlt
    exact ⟨d, hleads, Descent.depth_eq hleads ▸ hdeeper⟩
  · intro frames
    constructor
    · rintro ⟨read, hread, hreached⟩
      obtain ⟨hnested, rfl⟩ := feed_eq_operand_iff.mp hreached
      exact ⟨hnested, hread⟩
    · rintro ⟨hnested, hread⟩
      exact ⟨openSpelling frames, hread, feed_openSpelling hnested⟩
  · intro hlight
    refine parse_of_light fun w hw => ?_
    have hle := hlight w hw
    omega
  · rintro ⟨w, hw, hheavy⟩
    exact parse_of_heavy hw (Nat.le_trans CallStack.room_le (Nat.le_trans (by decide) hheavy))
  · intro e hread hlight
    obtain ⟨hwf, hspelling⟩ := wellFormed_of_readWhole hread
    have hpeak : e.peak ≤ 830 := peak_le_of_members fun d hd =>
      hlight d hd d.peak (isGreatest_peak (isWellFormed_of_mem_members hwf hd)).1
    exact parse_of_peak_le hwf hspelling (by omega)
  · intro name args hread hlight
    obtain ⟨hwf, hspelling⟩ := wellFormed_of_readWhole hread
    have hargs : highestPeak args ≤ 823 := highestPeak_le_iff.mpr fun d hd => by
      have hd := hlight d hd d.peak (isGreatest_peak ((areWellFormed_iff args).mp hwf d hd)).1
      omega
    refine parse_of_peak_le hwf hspelling ?_
    rw [peak]
    omega

/-- So many open parentheses, and one that closes nothing. -/
def emptyParens (count : Nat) : List Token :=
  List.replicate count ⟨.symbol .leftParen, 0, 1⟩ ++ [⟨.symbol .rightParen, count, count + 1⟩]

theorem feed_emptyParens (count : Nat) :
    Reader.start.feed
      ((List.replicate count (⟨.symbol .leftParen, 0, 1⟩ : Token)).map Token.lexeme) =
        some ⟨List.replicate count .paren, .operand⟩ := by
  have hopens : ∀ n frames, Reader.feed ⟨frames, .operand⟩ (List.replicate n (.symbol .leftParen)) =
      some ⟨List.replicate n .paren ++ frames, .operand⟩ := by
    intro n
    induction n with
    | zero => exact fun _ => rfl
    | succ n ih =>
      intro frames
      have hopen : Reader.advance ⟨frames, .operand⟩ (.symbol .leftParen)
          = .taken ⟨.paren :: frames, .operand⟩ := rfl
      rw [List.replicate_succ, feed_cons hopen, ih, List.replicate_succ', List.append_assoc,
        List.singleton_append]
  rw [List.map_replicate, Reader.start, hopens, List.append_nil]

/-- Without a limit the operand is missed that the last parenthesis should close. -/
theorem readWhole_emptyParens (count : Nat) :
    readWhole (emptyParens count) =
      .error (.operandExpected ⟨count, count⟩ (some (.symbol .rightParen))) := by
  have hstop : Reader.next ⟨List.replicate count .paren, .operand⟩
      (some (.symbol .rightParen)) = .refused .operandExpected := by cases count <;> rfl
  have hlast : (emptyParens count)[count]? =
      some ⟨.symbol .rightParen, count, count + 1⟩ := by simp [emptyParens]
  have hfrom : readFrom (emptyParens count) 0 =
      .error (Refusal.error (emptyParens count) count .operandExpected) :=
    readFrom_eq_error_iff.mpr ⟨_, _, _, _, rfl, feed_emptyParens count, hstop, by simp⟩
  simp only [readWhole, hfrom, Refusal.error, placeAt, lexemeAt, hlast, Option.map_some]

theorem weight_emptyParens (count : Nat) :
    6 * count ∈ weights .start ((emptyParens count).map Token.lexeme) := by
  have hweight : totalWeight (List.replicate count .paren) = 6 * count := by
    induction count with
    | zero => rfl
    | succ n ih =>
      rw [List.replicate_succ, totalWeight, ih, Frame.weight]
      omega
  refine mem_weights_iff.mpr ⟨_, _, ?_, feed_emptyParens count, hweight⟩
  rw [emptyParens, List.map_append]
  exact List.prefix_append _ _

section Unused

attribute [local instance] CallStack.unused

/-- Two hundred parentheses are refused, and it is not seen that an operand is missing in them. -/
theorem parse_emptyParens :
    (∃ w ∈ weights .start ((emptyParens 200).map Token.lexeme), 1190 ≤ w) ∧
      (∃ place, parse (emptyParens 200) = .error (.tooDeep place)) ∧
      parseWithin none (emptyParens 200)
        = .error (.operandExpected ⟨200, 200⟩ (some (.symbol .rightParen))) := by
  have hpoint := weight_emptyParens 200
  obtain ⟨-, -, -, -, hheavy, -⟩ :=
    parse_counts_open_constructs (emptyParens 200)
  exact ⟨⟨_, hpoint, by decide⟩, hheavy ⟨_, hpoint, by decide⟩,
    (parseWithin_none _).trans (readWhole_emptyParens 200)⟩

end Unused

end Expr

end Calculator
