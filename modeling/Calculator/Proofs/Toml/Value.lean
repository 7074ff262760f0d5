/-
  Calculator/Proofs/Toml/Value.lean
  =================================
  **Which values have a text.**  The text of a value is built from the texts of
  all values in it, so it is missing exactly when one of them has none: when an
  integer is too long, or when containers stand in each other more deeply than
  there is room.
-/
import Calculator.Toml.Value
import Mathlib.Logic.Basic

namespace Calculator.Toml

namespace Value

mutual

/-- How deeply the values in a value stand in containers. -/
def depth : Value → Nat
  | .array items => itemsDepth items
  | .table entries => entriesDepth entries
  | _ => 0

def itemsDepth : List Value → Nat
  | [] => 0
  | v :: rest => max (v.depth + 1) (itemsDepth rest)

def entriesDepth : List (String × Value) → Nat
  | [] => 0
  | (_, v) :: rest => max (v.depth + 1) (entriesDepth rest)

end

mutual

/-- The integers in a value. -/
def integers : Value → List Int
  | .integer n => [n]
  | .array items => itemsIntegers items
  | .table entries => entriesIntegers entries
  | _ => []

def itemsIntegers : List Value → List Int
  | [] => []
  | v :: rest => v.integers ++ itemsIntegers rest

def entriesIntegers : List (String × Value) → List Int
  | [] => []
  | (_, v) :: rest => v.integers ++ entriesIntegers rest

end

end Value

/-- An integer that can be written in decimal. -/
def IsShort (n : Int) : Prop := n.natAbs < 10 ^ maxDigits

/-- A computation that does not fail. -/
def HasResult {ε α : Type} (x : Except ε α) : Prop := ∃ a, x = .ok a

section Results

variable {ε α β : Type}

@[simp] theorem hasResult_ok (a : α) : HasResult (.ok a : Except ε α) := ⟨a, rfl⟩

@[simp] theorem not_hasResult_error (e : ε) : ¬HasResult (.error e : Except ε α) := nofun

theorem not_hasResult_iff (x : Except ε α) : ¬HasResult x ↔ ∃ e, x = .error e := by
  cases x <;> simp

@[simp] theorem hasResult_map (f : α → β) (x : Except ε α) : HasResult (x.map f) ↔ HasResult x := by
  cases x <;> simp [Except.map]

theorem hasResult_bind_bind {γ : Type} (x : Except ε α) (y : Except ε β) (f : α → β → γ) :
    HasResult (x >>= fun a => y >>= fun b => pure (f a b)) ↔ HasResult x ∧ HasResult y := by
  cases x <;> cases y <;> simp [bind, Except.bind, pure, Except.pure]

end Results

theorem hasResult_integerText (n : Int) : HasResult (integerText n) ↔ IsShort n := by
  unfold integerText IsShort
  split
  · next hlong => simp [hlong]
  · next hshort => simp [Nat.lt_of_not_le hshort]

namespace Value

mutual

/-- A value has a text if the values in it stand no deeper than there is room, and the integers
in it are short. -/
theorem hasResult_debugText (room : Nat) (v : Value) :
    HasResult (v.debugText room) ↔ v.depth ≤ room ∧ ∀ n ∈ v.integers, IsShort n := by
  cases v with
  | integer n => simp [debugText, depth, integers, hasResult_integerText]
  | array items =>
    rw [debugText, hasResult_map, depth, integers]
    exact hasResult_itemTexts room items
  | table entries =>
    rw [debugText, hasResult_map, depth, integers]
    exact hasResult_entryTexts room entries
  | _ => simp [debugText, depth, integers]

theorem hasResult_itemTexts (room : Nat) (items : List Value) :
    HasResult (itemTexts room items) ↔
      itemsDepth items ≤ room ∧ ∀ n ∈ itemsIntegers items, IsShort n := by
  cases items with
  | nil => cases room <;> simp [itemTexts, itemsDepth, itemsIntegers]
  | cons v rest =>
    cases room with
    | zero => simp [itemTexts, itemsDepth]
    | succ room =>
      have hv := hasResult_debugText room v
      have hrest := hasResult_itemTexts (room + 1) rest
      rw [itemTexts, hasResult_bind_bind, hv, hrest]
      simp only [itemsDepth, itemsIntegers, List.forall_mem_append, Nat.max_le,
        Nat.add_le_add_iff_right]
      exact and_and_and_comm

theorem hasResult_entryTexts (room : Nat) (entries : List (String × Value)) :
    HasResult (entryTexts room entries) ↔
      entriesDepth entries ≤ room ∧ ∀ n ∈ entriesIntegers entries, IsShort n := by
  cases entries with
  | nil => cases room <;> simp [entryTexts, entriesDepth, entriesIntegers]
  | cons entry rest =>
    cases room with
    | zero => simp [entryTexts, entriesDepth]
    | succ room =>
      have hv := hasResult_debugText room entry.2
      have hrest := hasResult_entryTexts (room + 1) rest
      rw [entryTexts, hasResult_bind_bind, hv, hrest]
      simp only [entriesDepth, entriesIntegers, List.forall_mem_append, Nat.max_le,
        Nat.add_le_add_iff_right]
      exact and_and_and_comm

end

/-- A value has no text if the values in it stand too deeply, or an integer in it is too long. -/
theorem debugText_fails_iff (room : Nat) (v : Value) :
    (∃ why, v.debugText room = .error why) ↔
      room < v.depth ∨ ∃ n ∈ v.integers, 10 ^ maxDigits ≤ n.natAbs := by
  rw [← not_hasResult_iff, hasResult_debugText, not_and_or, Nat.not_le]
  simp only [IsShort, not_forall, Nat.not_lt, exists_prop]

end Value

end Calculator.Toml
