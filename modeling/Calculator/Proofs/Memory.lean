/-
  Calculator/Proofs/Memory.lean
  =============================
  **What a write changes.**  A write of a variable changes the value of one name
  and keeps the place of every variable; a name that had no value gets the last
  place.  A memory that has been written to is the replay of the writes on the
  memory before.  The variables of an empty memory stand in the order in which
  they were first written, and each has the value that was written last.
-/
import Calculator.Memory

namespace Calculator.Memory

/-- The names of the variables, in their order. -/
def variableNames (m : Memory) : List String := m.bindings.map Prod.fst

/-! ### One write -/

theorem lookup_cons (name n : String) (v : Binary64) (rest : List (String × Binary64)) :
    ((n, v) :: rest).lookup name = if name = n then some v else rest.lookup name := by
  by_cases h : name = n
  · subst h
    simp
  · have hbeq : (name == n) = false := beq_eq_false_iff_ne.mpr h
    rw [List.lookup_cons, hbeq, if_neg h]

theorem lookup_put (name other : String) (value : Binary64) (bindings : List (String × Binary64)) :
    (put name value bindings).lookup other =
      if other = name then some value else bindings.lookup other := by
  induction bindings with
  | nil => rw [put, lookup_cons]
  | cons entry rest ih =>
    obtain ⟨n, v⟩ := entry
    rw [put]
    by_cases hn : n = name
    · subst hn
      rw [if_pos rfl, lookup_cons, lookup_cons]
      by_cases h : other = n
      · simp [h]
      · simp [h]
    · rw [if_neg hn, lookup_cons, ih, lookup_cons]
      by_cases h : other = name
      · subst h
        simp [Ne.symm hn]
      · simp [h]

theorem map_fst_put (name : String) (value : Binary64) (bindings : List (String × Binary64)) :
    (put name value bindings).map Prod.fst =
      if name ∈ bindings.map Prod.fst then bindings.map Prod.fst
      else bindings.map Prod.fst ++ [name] := by
  induction bindings with
  | nil => rfl
  | cons entry rest ih =>
    obtain ⟨n, v⟩ := entry
    rw [put]
    by_cases hn : n = name
    · simp [hn]
    · rw [if_neg hn, List.map_cons, ih]
      by_cases hmem : name ∈ rest.map Prod.fst
      · simp [hmem]
      · simp [hmem, Ne.symm hn]

theorem mem_map_fst_iff (name : String) (bindings : List (String × Binary64)) :
    name ∈ bindings.map Prod.fst ↔ (bindings.lookup name).isSome = true := by
  induction bindings with
  | nil => simp
  | cons entry rest ih =>
    obtain ⟨n, v⟩ := entry
    rw [List.map_cons, List.mem_cons, lookup_cons, ih]
    by_cases h : name = n
    · simp [h]
    · simp [h]

/-- A name has a value if it is a constant's or a variable's. -/
theorem contains_iff (m : Memory) (name : String) :
    m.contains name = true ↔ (constant? name).isSome = true ∨ name ∈ m.variableNames := by
  rw [contains, get?, Option.isSome_or, Bool.or_eq_true, variableNames, mem_map_fst_iff]

theorem assign?_constant {m : Memory} {name : String} (h : (constant? name).isSome = true)
    (value : Binary64) : m.assign? name value = none := by
  rw [assign?, if_pos h]

theorem assign?_variable {m : Memory} {name : String} (h : (constant? name).isSome = false)
    (value : Binary64) : m.assign? name value = some ⟨put name value m.bindings⟩ := by
  rw [assign?, if_neg (by simp [h])]

/-! ### Replays -/

/-- The memory after writes of variables, one after the other. -/
def replay (m : Memory) (writes : List (String × Binary64)) : Memory :=
  ⟨writes.foldl (fun bindings write => put write.1 write.2 bindings) m.bindings⟩

@[simp] theorem replay_nil (m : Memory) : m.replay [] = m := rfl

theorem replay_append (m : Memory) (earlier later : List (String × Binary64)) :
    m.replay (earlier ++ later) = (m.replay earlier).replay later := by
  simp [replay, List.foldl_append]

theorem replay_cons (m : Memory) (name : String) (value : Binary64)
    (later : List (String × Binary64)) :
    m.replay ((name, value) :: later) = (Memory.mk (put name value m.bindings)).replay later := rfl

/-- A variable has the value that was written last. -/
theorem lookup_replay (m : Memory) (writes : List (String × Binary64)) (name : String) :
    (m.replay writes).bindings.lookup name =
      (writes.reverse.lookup name).or (m.bindings.lookup name) := by
  induction writes generalizing m with
  | nil => rfl
  | cons write rest ih =>
    obtain ⟨n, v⟩ := write
    rw [replay_cons, ih, lookup_put, List.reverse_cons, List.lookup_append, lookup_cons,
      Option.or_assoc]
    by_cases h : name = n
    · simp [h]
    · simp [h]

theorem eraseDups_concat (names : List String) (name : String) :
    (names ++ [name]).eraseDups =
      if name ∈ names then names.eraseDups else names.eraseDups ++ [name] := by
  rw [List.eraseDups_append]
  by_cases h : name ∈ names
  · simp [h, List.removeAll]
  · simp [h, List.removeAll, List.eraseDups_cons]

/-- Variables that stand in the order of their first writes go on to do so. -/
theorem variableNames_replay_of_eq {m : Memory} {names : List String}
    (h : m.variableNames = names.eraseDups) (writes : List (String × Binary64)) :
    (m.replay writes).variableNames = (names ++ writes.map Prod.fst).eraseDups := by
  induction writes generalizing m names with
  | nil => simpa using h
  | cons write rest ih =>
    obtain ⟨n, v⟩ := write
    have hput : (Memory.mk (put n v m.bindings)).variableNames = (names ++ [n]).eraseDups := by
      have hnames : m.bindings.map Prod.fst = names.eraseDups := h
      rw [variableNames, map_fst_put, eraseDups_concat, hnames]
      simp only [List.mem_eraseDups]
    rw [replay_cons, ih hput]
    simp

theorem variableNames_replay_empty (writes : List (String × Binary64)) :
    (empty.replay writes).variableNames = (writes.map Prod.fst).eraseDups := by
  have hempty : empty.variableNames = ([] : List String).eraseDups := rfl
  exact variableNames_replay_of_eq hempty writes

/-- A name that has a value keeps having one. -/
theorem contains_replay {m : Memory} {name : String} (h : m.contains name = true)
    (writes : List (String × Binary64)) : (m.replay writes).contains name = true := by
  rw [contains_iff, variableNames, mem_map_fst_iff] at h ⊢
  rcases h with h | h
  · exact Or.inl h
  · right
    rw [lookup_replay, Option.isSome_or, h, Bool.or_true]

theorem get?_replay (m : Memory) (writes : List (String × Binary64)) (name : String) :
    (m.replay writes).get? name =
      (constant? name).or ((writes.reverse.lookup name).or (m.bindings.lookup name)) := by
  rw [get?, lookup_replay]

/-- A name is written last with some value, or it is not written. -/
theorem get?_replay_cases (writes : List (String × Binary64)) (name : String) :
    (∃ value, ∀ m : Memory, (m.replay writes).get? name = some value) ∨
      ∀ m : Memory, (m.replay writes).get? name = m.get? name := by
  cases hconstant : constant? name with
  | some value =>
    left
    refine ⟨value, ?_⟩
    intro m
    rw [get?, hconstant, Option.some_or]
  | none =>
    cases hlast : writes.reverse.lookup name with
    | some value =>
      left
      refine ⟨value, ?_⟩
      intro m
      rw [get?_replay, hconstant, hlast, Option.none_or, Option.some_or]
    | none =>
      right
      intro m
      rw [get?_replay, hlast, Option.none_or, get?]

/-- A name that is not written keeps its value. -/
theorem get?_replay_of_not_mem {writes : List (String × Binary64)} {name : String}
    (h : name ∉ writes.map Prod.fst) (m : Memory) : (m.replay writes).get? name = m.get? name := by
  have hnone : writes.reverse.lookup name = none := by
    have hnot : ¬(writes.reverse.lookup name).isSome = true := by
      rw [← mem_map_fst_iff, List.map_reverse, List.mem_reverse]
      exact h
    exact Option.not_isSome_iff_eq_none.mp hnot
  rw [get?_replay, hnone, Option.none_or, get?]

/-- Variables keep their places when others are written. -/
theorem variableNames_prefix_replay (m : Memory) (writes : List (String × Binary64)) :
    m.variableNames <+: (m.replay writes).variableNames := by
  induction writes generalizing m with
  | nil => exact List.prefix_refl _
  | cons write rest ih =>
    obtain ⟨name, value⟩ := write
    have hput : m.variableNames <+: (Memory.mk (put name value m.bindings)).variableNames := by
      rw [variableNames, variableNames, map_fst_put]
      split
      · exact List.prefix_refl _
      · exact List.prefix_append _ _
    rw [replay_cons]
    exact hput.trans (ih _)

end Calculator.Memory
