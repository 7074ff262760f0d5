/-
  Calculator/Proofs/Expr/Points.lean
  ==================================
  **Points of a run and what they weigh.**  A point of a run lies before a lexeme
  or at the end of the lexemes.  It weighs what the constructs weigh that are open
  there: six for a parenthesis, seven for a call, one for a pending sign, power or
  assignment, and nothing for the left operand of a chain.  A step that opens
  nothing makes no point heavier, so the heaviest points are those where an operand
  has to start.

  At such a point a descent enters procedures down to the one for a primary
  expression, seven of them if no construct is open.  Only a call that is closed
  at once takes no more than the procedure of the call itself.
-/
import Calculator.Proofs.Expr.Reading
import Mathlib.Data.List.Induction
import Mathlib.Data.Set.Image

namespace Calculator.Expr

/-! ### Weights -/

/-- What an open construct weighs. -/
def Frame.weight : Frame → Nat
  | paren => 6
  | call _ _ => 7
  | assign _ _ => 1
  | sum _ _ => 0
  | product _ _ => 0
  | power _ => 1
  | unary _ => 1

/-- What a list of open constructs weighs. -/
def totalWeight : List Frame → Nat
  | [] => 0
  | frame :: frames => frame.weight + totalWeight frames

theorem totalWeight_append (inner outer : List Frame) :
    totalWeight (inner ++ outer) = totalWeight inner + totalWeight outer := by
  induction inner with
  | nil => rw [List.nil_append, totalWeight, Nat.zero_add]
  | cons f inner ih => rw [List.cons_append, totalWeight, totalWeight, ih, Nat.add_assoc]

/-- Closing makes nothing heavier. -/
theorem totalWeight_settle_le (l : Level) (frames : List Frame) (e : Expr) :
    totalWeight (settle l frames e).1 ≤ totalWeight frames := by
  obtain ⟨closed, hframes⟩ := settle_suffix l frames e
  calc totalWeight (settle l frames e).1
      ≤ totalWeight closed + totalWeight (settle l frames e).1 := Nat.le_add_left _ _
    _ = totalWeight frames := by rw [← totalWeight_append, hframes]

/-- A reader after a step from a point of some weight: an operand has to start, inside at most one
construct more, or the point weighs no more. -/
def Follows (w : Nat) (s : Reader) : Prop :=
  s.focus = .operand ∧ totalWeight s.frames ≤ 7 + w ∨ totalWeight s.frames ≤ w

section Steps

variable {frames : List Frame} {s : Reader} {w : Nat}

theorem weight_le (f : Frame) : f.weight ≤ 7 := by cases f <;> simp [Frame.weight]

theorem Follows.weaken {v : Nat} (h : Follows v s) (hle : v ≤ w) : Follows w s := by
  rcases h with ⟨hfocus, hs⟩ | hs
  · exact Or.inl ⟨hfocus, by omega⟩
  · exact Or.inr (Nat.le_trans hs hle)

theorem follows_opened {f : Frame} (h : opened f frames = .taken s)
    (hle : totalWeight frames ≤ w) : Follows w s := by
  obtain rfl := eq_of_opened_eq_taken h
  exact Or.inl ⟨rfl, Nat.add_le_add (weight_le f) hle⟩

theorem follows_completed {e : Expr} (h : completed frames e = .taken s)
    (hle : totalWeight frames ≤ w) : Follows w s := by
  obtain rfl := Advance.taken.inj h
  exact Or.inr (Nat.le_trans (totalWeight_settle_le .unary frames e) hle)

/-- The token after an operand opens something, or leaves no more open than there was. -/
theorem follows_afterOperand {e : Expr} {x : Lexeme} (hsettled : Settled .unary frames)
    (h : afterOperand frames e x = .taken s) : Follows (totalWeight frames) s := by
  have hclosed := totalWeight_settle_le .assignment frames e
  rcases afterOperand_cases e x hsettled with ⟨op, -, heq⟩ | ⟨rest, body, -, hs, heq⟩ |
    ⟨name, done, rest, last, -, hs, heq⟩ | ⟨name, done, rest, last, -, hs, heq⟩ | heq
  · exact follows_opened (heq ▸ h) (totalWeight_settle_le _ frames e)
  · rw [hs] at hclosed
    exact follows_completed (heq ▸ h) (Nat.le_trans (Nat.le_add_left _ _) hclosed)
  · rw [hs] at hclosed
    exact follows_completed (heq ▸ h) (Nat.le_trans (Nat.le_add_left _ _) hclosed)
  · rw [hs] at hclosed
    obtain rfl := Advance.taken.inj (heq ▸ h)
    exact Or.inr hclosed
  · exact absurd (heq ▸ h) (concluded_ne_taken frames e s)

/-- A step comes to where an operand has to start, or to a point that weighs no more. -/
theorem follows_advance {r : Reader} {x : Lexeme} (hcoherent : r.Coherent)
    (h : r.advance x = .taken s) : Follows (totalWeight r.frames) s := by
  obtain ⟨frames, focus⟩ := r
  cases focus with
  | operand =>
    have hstep : atOperand frames x = .taken s := h
    rcases atOperand_cases frames x with ⟨value, -, heq⟩ | ⟨name, -, heq⟩ | ⟨-, heq⟩ |
      ⟨name, rest, -, rfl, heq⟩ | ⟨op, -, heq⟩ | heq
    · exact follows_completed (heq ▸ hstep) (Nat.le_refl _)
    · obtain rfl := Advance.taken.inj (heq ▸ hstep)
      exact Or.inr (Nat.le_refl _)
    · exact follows_opened (heq ▸ hstep) (Nat.le_refl _)
    · exact follows_completed (heq ▸ hstep) (Nat.le_add_left _ _)
    · exact follows_opened (heq ▸ hstep) (Nat.le_refl _)
    · cases heq ▸ hstep
  | named name =>
    have hstep : afterName frames name x = .taken s := h
    rcases afterName_cases frames name x with ⟨-, heq⟩ | ⟨op, -, -, heq⟩ | heq
    · exact follows_opened (heq ▸ hstep) (Nat.le_refl _)
    · exact follows_opened (heq ▸ hstep) (Nat.le_refl _)
    · have hclosed := totalWeight_settle_le .unary frames (.identifier name)
      exact (follows_afterOperand (settled_settle _ _ _) (heq ▸ hstep)).weaken hclosed
  | ended e => exact follows_afterOperand (hcoherent.ended e rfl).2.2 h

end Steps

/-! ### Points -/

/-- The points of a run: the reader after some of the lexemes, and the next one. -/
def points (r : Reader) (xs : List Lexeme) : Set (Reader × Option Lexeme) :=
  {pt | ∃ read rest, xs = read ++ rest ∧ r.feed read = some pt.1 ∧ rest.head? = pt.2}

theorem first_mem_points (r : Reader) (xs : List Lexeme) : (r, xs.head?) ∈ points r xs :=
  ⟨[], xs, rfl, rfl, rfl⟩

theorem points_taken {r s : Reader} {x : Lexeme} (h : r.advance x = .taken s)
    (xs : List Lexeme) : points r (x :: xs) = insert (r, some x) (points s xs) := by
  ext pt
  rw [Set.mem_insert_iff]
  constructor
  · rintro ⟨read, rest, hxs, hread, hhead⟩
    rcases List.cons_eq_append_iff.mp hxs with ⟨rfl, rfl⟩ | ⟨read, rfl, hrest⟩
    · obtain rfl : r = pt.1 := by simpa [Reader.feed] using hread
      exact Or.inl (Prod.ext rfl hhead.symm)
    · rw [feed_cons h] at hread
      exact Or.inr ⟨read, rest, hrest, hread, hhead⟩
  · rintro (rfl | ⟨read, rest, rfl, hread, hhead⟩)
    · exact first_mem_points r (x :: xs)
    · exact ⟨x :: read, rest, rfl, (feed_cons h _).trans hread, hhead⟩

theorem points_stopped {r : Reader} {xs : List Lexeme} (h : ∀ s, r.next xs.head? ≠ .taken s) :
    points r xs = {(r, xs.head?)} := by
  ext pt
  constructor
  · rintro ⟨read, rest, rfl, hread, hhead⟩
    cases read with
    | nil =>
      obtain rfl : r = pt.1 := by simpa [Reader.feed] using hread
      exact Prod.ext rfl hhead.symm
    | cons x read =>
      have hnone : r.feed (x :: read) = none := by
        rw [Reader.feed]
        split
        · next s hs => exact absurd hs (h s)
        · rfl
      simp [hnone] at hread
  · rintro rfl
    exact first_mem_points r xs

theorem points_nil (r : Reader) : points r [] = {(r, none)} := points_stopped (atEnd_ne_taken r)

/-- The weights of the points that a reader reaches. -/
def weights (r : Reader) (xs : List Lexeme) : Set Nat :=
  (fun pt => totalWeight pt.1.frames) '' points r xs

theorem mem_weights_iff {r : Reader} {xs : List Lexeme} {w : Nat} :
    w ∈ weights r xs ↔
      ∃ read s, read <+: xs ∧ r.feed read = some s ∧ totalWeight s.frames = w := by
  constructor
  · rintro ⟨pt, ⟨read, rest, rfl, hread, -⟩, rfl⟩
    exact ⟨read, pt.1, List.prefix_append read rest, hread, rfl⟩
  · rintro ⟨read, s, ⟨rest, rfl⟩, hread, rfl⟩
    exact ⟨(s, rest.head?), ⟨read, rest, rfl, hread, rfl⟩, rfl⟩

theorem weight_mem_weights (r : Reader) (xs : List Lexeme) :
    totalWeight r.frames ∈ weights r xs :=
  ⟨_, first_mem_points r xs, rfl⟩

theorem weights_nil (r : Reader) : weights r [] = {totalWeight r.frames} := by
  rw [weights, points_nil, Set.image_singleton]

theorem weights_taken {r s : Reader} {x : Lexeme} (h : r.advance x = .taken s)
    (xs : List Lexeme) : weights r (x :: xs) = insert (totalWeight r.frames) (weights s xs) := by
  rw [weights, points_taken h, Set.image_insert_eq, weights]

/-- The points of a run are those up to a reader and those after it. -/
theorem weights_append {r s : Reader} {xs : List Lexeme} (h : r.feed xs = some s)
    (ys : List Lexeme) : weights r (xs ++ ys) = weights r xs ∪ weights s ys := by
  induction xs generalizing r with
  | nil =>
    obtain rfl : r = s := by simpa [Reader.feed] using h
    have hfirst : {totalWeight r.frames} ⊆ weights r ys :=
      Set.singleton_subset_iff.mpr (weight_mem_weights r ys)
    rw [weights_nil, Set.union_eq_right.mpr hfirst, List.nil_append]
  | cons x xs ih =>
    simp only [Reader.feed] at h
    split at h
    · next t ht =>
      rw [List.cons_append, weights_taken ht, weights_taken ht, ih h, Set.insert_union]
    · simp at h

/-- A lexeme adds at most seven to the weight. -/
theorem weight_feed_le {r s : Reader} {xs : List Lexeme} (hcoherent : r.Coherent)
    (h : r.feed xs = some s) : totalWeight s.frames ≤ 7 * xs.length + totalWeight r.frames := by
  induction xs generalizing r with
  | nil =>
    obtain rfl : r = s := by simpa [Reader.feed] using h
    exact Nat.le_add_left _ _
  | cons x xs ih =>
    simp only [Reader.feed] at h
    split at h
    · next t ht =>
      have hrest := ih (coherent_advance hcoherent ht).1 h
      have hstep : totalWeight t.frames ≤ 7 + totalWeight r.frames := by
        rcases follows_advance hcoherent ht with ⟨-, hle⟩ | hle <;> omega
      rw [List.length_cons]
      omega
    · cases h

/-- The points of a list of lexemes weigh at most seven times its length. -/
theorem weights_le_length {xs : List Lexeme} {w : Nat} (h : w ∈ weights .start xs) :
    w ≤ 7 * xs.length := by
  obtain ⟨read, s, hread, hfeed, rfl⟩ := mem_weights_iff.mp h
  exact Nat.le_trans (weight_feed_le coherent_start hfeed) (Nat.mul_le_mul_left 7 hread.length_le)

/-! ### The procedures that a point needs -/

/-- Whether a lexeme closes a call that has just been opened. -/
def Reader.closesCall (r : Reader) (x : Option Lexeme) : Bool :=
  match r.frames, x with
  | .call _ [] :: _, some (.symbol .rightParen) => true
  | _, _ => false

/-- How many procedures a descent has entered at most where a reader is: down to a primary
expression if an operand has to start. -/
def Reader.need (r : Reader) (x : Option Lexeme) : Nat :=
  match r.focus with
  | .operand => (if r.closesCall x then 1 else 7) + totalWeight r.frames
  | _ => 0

theorem need_le (r : Reader) (x : Option Lexeme) : r.need x ≤ 7 + totalWeight r.frames := by
  unfold Reader.need
  split
  · split
    · exact Nat.add_le_add_right (by decide) _
    · exact Nat.le_refl _
  · exact Nat.zero_le _

theorem lt_need {r : Reader} (h : r.focus = .operand) (x : Option Lexeme) :
    totalWeight r.frames < r.need x := by
  unfold Reader.need
  rw [h]
  dsimp only
  split <;> omega

theorem need_eq_zero {r : Reader} (h : r.focus ≠ .operand) (x : Option Lexeme) : r.need x = 0 := by
  unfold Reader.need
  split
  · next hfocus => exact absurd hfocus h
  · rfl

theorem need_operand {frames : List Frame} {x : Option Lexeme}
    (h : x = some (.symbol .rightParen) → ∀ name rest, frames ≠ .call name [] :: rest) :
    Reader.need ⟨frames, .operand⟩ x = 7 + totalWeight frames := by
  have hopen : Reader.closesCall ⟨frames, .operand⟩ x = false := by
    unfold Reader.closesCall
    split
    · next name rest hframes => exact absurd hframes (h rfl name rest)
    · rfl
  simp [Reader.need, hopen]

/-- What the points need that a reader reaches. -/
def needs (r : Reader) (xs : List Lexeme) : Set Nat :=
  (fun pt => pt.1.need pt.2) '' points r xs

theorem needs_taken {r s : Reader} {x : Lexeme} (h : r.advance x = .taken s)
    (xs : List Lexeme) : needs r (x :: xs) = insert (r.need (some x)) (needs s xs) := by
  rw [needs, points_taken h, Set.image_insert_eq, needs]

theorem needs_stopped {r : Reader} {xs : List Lexeme} (h : ∀ s, r.next xs.head? ≠ .taken s) :
    needs r xs = {r.need xs.head?} := by
  rw [needs, points_stopped h, Set.image_singleton]

/-- The lexemes after an expression make no difference to what its points need. -/
theorem needs_append {r s : Reader} {xs ys : List Lexeme} (h : r.feed xs = some s)
    (hfocus : s.focus ≠ .operand) (hstops : ∀ t, s.next ys.head? ≠ .taken t) :
    needs r (xs ++ ys) = needs r xs := by
  induction xs generalizing r with
  | nil =>
    obtain rfl : r = s := by simpa [Reader.feed] using h
    rw [List.nil_append, needs_stopped hstops, needs, points_nil, Set.image_singleton,
      need_eq_zero hfocus, need_eq_zero hfocus]
  | cons x xs ih =>
    simp only [Reader.feed] at h
    split at h
    · next t ht => rw [List.cons_append, needs_taken ht, needs_taken ht, ih h]
    · simp at h

theorem exists_weight_of_need {r : Reader} {xs : List Lexeme} {k : Nat} (h : k ∈ needs r xs) :
    ∃ w ∈ weights r xs, k ≤ 7 + w := by
  obtain ⟨pt, hpt, rfl⟩ := h
  exact ⟨_, ⟨pt, hpt, rfl⟩, need_le pt.1 pt.2⟩

/-- A heavy point comes after one where an operand has to start, which needs even more. -/
theorem exists_need_of_feed {r s : Reader} {read : List Lexeme} (hcoherent : r.Coherent)
    (hr : r.focus = .operand) (h : r.feed read = some s) (rest : List Lexeme) :
    ∃ k ∈ needs r (read ++ rest), totalWeight s.frames < k := by
  induction read using List.reverseRecOn generalizing s rest with
  | nil =>
    obtain rfl : r = s := by simpa [Reader.feed] using h
    exact ⟨_, ⟨_, first_mem_points r rest, rfl⟩, lt_need hr _⟩
  | append_singleton read x ih =>
    obtain ⟨t, hread, hstep⟩ : ∃ t, r.feed read = some t ∧ t.feed [x] = some s := by
      rw [feed_append] at h
      exact Option.bind_eq_some_iff.mp h
    have hadvance : t.advance x = .taken s := by
      simp only [Reader.feed] at hstep
      split at hstep
      · next t' ht => exact ht.trans (congrArg _ (Option.some.inj hstep))
      · cases hstep
    rw [List.append_assoc, List.singleton_append]
    rcases follows_advance (coherent_feed hcoherent hread).1 hadvance with ⟨hfocus, -⟩ | hle
    · refine ⟨s.need rest.head?, ⟨(s, rest.head?), ⟨read ++ [x], rest, ?_, h, rfl⟩, rfl⟩,
        lt_need hfocus _⟩
      rw [List.append_assoc, List.singleton_append]
    · obtain ⟨k, hk, hlt⟩ := ih hread (x :: rest)
      exact ⟨k, hk, Nat.lt_of_le_of_lt hle hlt⟩

theorem exists_need_of_weight {xs : List Lexeme} {w : Nat} (h : w ∈ weights .start xs) :
    ∃ k ∈ needs .start xs, w < k := by
  obtain ⟨read, s, ⟨rest, rfl⟩, hread, rfl⟩ := mem_weights_iff.mp h
  exact exists_need_of_feed coherent_start rfl hread rest

end Calculator.Expr
