/-
  Calculator/Proofs/Expr/Descent.lean
  ===================================
  **Runs of a descent.**  The states of a descent form one path.  A contract that
  every body meets holds in every state of it: where one procedure waits for
  another, the contract is kept from there on once the other one ends.

  The room of a descent changes none of its steps.  A descent in a room gives what
  a descent without limits gives if all the procedures on the path find a frame,
  and is refused as too deep at the first one that does not.
-/
import Calculator.Expr.Parse
import Mathlib.Logic.Relation

namespace Calculator.Expr

variable {tokens : List Token}

namespace Descent

/-- A descent comes to a state on its way from another one. -/
abbrev Leads (tokens : List Token) : Descent → Descent → Prop :=
  Relation.ReflTransGen fun d d' => d.next? tokens = some d'

/-- The procedures that have been entered and have not ended, the innermost first. -/
def activations (d : Descent) : List Activation := d.active :: d.callers.map Caller.activation

/-- What a step can do. -/
inductive Step (tokens : List Token) : Descent → Descent → Prop where
  | returned {a b : Activation} {e : Expr} {resume : Expr → Body} {callers : List Caller}
      {offset : Nat} :
      Step tokens ⟨b, .returns e, ⟨a, resume⟩ :: callers, offset⟩ ⟨a, resume e, callers, offset⟩
  | looked {a : Activation} {ahead : Nat} {next : Option Lexeme → Body} {callers : List Caller}
      {offset : Nat} :
      Step tokens ⟨a, .looks ahead next, callers, offset⟩
        ⟨a, next (lexemeAt tokens (offset + ahead)), callers, offset⟩
  | took {a : Activation} {next : Lexeme → Body} {callers : List Caller} {offset : Nat} {x : Lexeme}
      (hx : lexemeAt tokens offset = some x) :
      Step tokens ⟨a, .takes next, callers, offset⟩ ⟨a, next x, callers, offset + 1⟩
  | called {a : Activation} {callee : Procedure} {next : Expr → Body} {callers : List Caller}
      {offset : Nat} :
      Step tokens ⟨a, .calls callee next, callers, offset⟩
        ⟨⟨callee, offset, a.depth + 1⟩, callee.body, ⟨a, next⟩ :: callers, offset⟩
  | looped {a : Activation} {rest : Procedure} {callers : List Caller} {offset : Nat} :
      Step tokens ⟨a, .loops rest, callers, offset⟩
        ⟨⟨rest, offset, a.depth⟩, rest.body, callers, offset⟩

theorem step_of_next? {d d' : Descent} (h : d.next? tokens = some d') : Step tokens d d' := by
  obtain ⟨active, body, callers, offset⟩ := d
  cases body with
  | returns e =>
    cases callers with
    | nil => simp [next?] at h
    | cons caller callers =>
      obtain rfl : _ = d' := Option.some.inj h
      exact .returned
  | refuses why => simp [next?] at h
  | looks ahead next =>
    obtain rfl : _ = d' := Option.some.inj h
    exact .looked
  | takes next =>
    obtain ⟨x, hx, rfl⟩ := Option.map_eq_some_iff.mp h
    exact .took hx
  | calls callee next =>
    obtain rfl : _ = d' := Option.some.inj h
    exact .called
  | loops rest =>
    obtain rfl : _ = d' := Option.some.inj h
    exact .looped

end Descent

/-! ### Contracts along a run -/

variable {c : Contract} {root : Activation}

/-- The procedures that wait keep the contract once the innermost one ends, and the outermost
one stands for the root of the descent. -/
def Waits (tokens : List Token) (c : Contract) (root : Activation) :
    Activation → List Caller → Prop
  | b, [] =>
    (b = root ∨ c.enters root b) ∧ root.start ≤ b.start ∧
      (∀ why stop, c.refused b why stop → c.refused root why stop) ∧
      ∀ e stop, b.start ≤ stop → c.returned b e stop → c.returned root e stop
  | b, ⟨a, resume⟩ :: callers =>
    c.enters a b ∧ a.start ≤ b.start ∧
      (∀ why stop, c.refused b why stop → c.refused a why stop) ∧
      (∀ e stop, b.start ≤ stop → c.returned b e stop → (resume e).Meets tokens c a stop) ∧
      Waits tokens c root a callers

namespace Waits

variable {b : Activation} {callers : List Caller}

theorem start (root : Activation) : Waits tokens c root root [] :=
  ⟨Or.inl rfl, Nat.le_refl _, fun _ _ h => h, fun _ _ _ h => h⟩

/-- What runs now has been entered from the root. -/
theorem entered (h : Waits tokens c root b callers) : b = root ∨ c.enters root b := by
  induction callers generalizing b with
  | nil => exact h.1
  | cons caller callers ih =>
    obtain ⟨henters, -, -, -, hrest⟩ := h
    rcases ih hrest with heq | hroot
    · exact Or.inr (heq ▸ henters)
    · exact Or.inr (c.trans hroot henters)

/-- The loop of a procedure takes its place before those that wait for it. -/
theorem loops {d : Activation} (h : Waits tokens c root b callers) (henters : c.enters b d)
    (hle : b.start ≤ d.start)
    (hrefused : ∀ why stop, c.refused d why stop → c.refused b why stop)
    (hreturned : ∀ e stop, d.start ≤ stop → c.returned d e stop → c.returned b e stop) :
    Waits tokens c root d callers := by
  cases callers with
  | nil =>
    obtain ⟨hentered, hstart, hrefuses, hreturns⟩ := h
    refine ⟨Or.inr ?_, Nat.le_trans hstart hle, fun why stop hd =>
      hrefuses why stop (hrefused why stop hd), fun e stop hstop hd =>
      hreturns e stop (Nat.le_trans hle hstop) (hreturned e stop hstop hd)⟩
    rcases hentered with rfl | hroot
    · exact henters
    · exact c.trans hroot henters
  | cons caller callers =>
    obtain ⟨hcaller, hstart, hrefuses, hreturns, hrest⟩ := h
    exact ⟨c.trans hcaller henters, Nat.le_trans hstart hle, fun why stop hd =>
      hrefuses why stop (hrefused why stop hd), fun e stop hstop hd =>
      hreturns e stop (Nat.le_trans hle hstop) (hreturned e stop hstop hd), hrest⟩

/-- A refusal goes through all the procedures that wait. -/
theorem refused {why : Refusal} {stop : Nat} (h : Waits tokens c root b callers)
    (hb : c.refused b why stop) : c.refused root why stop := by
  induction callers generalizing b with
  | nil => exact h.2.2.1 why stop hb
  | cons caller callers ih =>
    obtain ⟨-, -, hrefuses, -, hrest⟩ := h
    exact ih hrest (hrefuses why stop hb)

end Waits

/-- A contract is kept in a state of a descent: the innermost procedure meets it from here on,
and those that wait for it meet it once it ends. -/
structure Descent.Keeps (tokens : List Token) (c : Contract) (root : Activation) (d : Descent) :
    Prop where
  body : d.body.Meets tokens c d.active d.offset
  start_le : d.active.start ≤ d.offset
  callers : Waits tokens c root d.active d.callers

namespace Descent

variable {d d' : Descent}

theorem Keeps.step (hkept : c.IsKept tokens) (h : d.Keeps tokens c root)
    (hfits : c.fits d'.active) (hstep : d.next? tokens = some d') : d'.Keeps tokens c root := by
  obtain ⟨hbody, hstart, hcallers⟩ := h
  cases step_of_next? hstep with
  | returned =>
    obtain ⟨-, hle, -, hresume, hrest⟩ := hcallers
    exact ⟨hresume _ _ hstart hbody, Nat.le_trans hle hstart, hrest⟩
  | looked => exact ⟨hbody, hstart, hcallers⟩
  | took hx => exact ⟨hbody.2 _ hx, Nat.le_succ_of_le hstart, hcallers⟩
  | called =>
    obtain ⟨henters, hrefused, hreturned⟩ := hbody
    exact ⟨hkept _ _ henters hfits, Nat.le_refl _, henters, hstart, hrefused, hreturned, hcallers⟩
  | looped =>
    obtain ⟨henters, hrefused, hreturned⟩ := hbody
    exact ⟨hkept _ _ henters hfits, Nat.le_refl _,
      hcallers.loops henters hstart hrefused hreturned⟩

/-- A contract is kept in every state of a descent whose procedures fit. -/
theorem Keeps.leads (hkept : c.IsKept tokens) (h : d.Keeps tokens c root)
    (hfits : ∀ s, d.Leads tokens s → c.fits s.active) (hleads : d.Leads tokens d') :
    d'.Keeps tokens c root := by
  induction hleads with
  | refl => exact h
  | tail hbefore hstep ih => exact ih.step hkept (hfits _ (hbefore.tail hstep)) hstep

theorem Keeps.refused {why : Refusal} (h : d.Keeps tokens c root) (hbody : d.body = .refuses why) :
    c.refused root why d.offset := by
  have hmeets := h.body
  rw [hbody] at hmeets
  exact h.callers.refused hmeets

theorem Keeps.returned {e : Expr} (h : d.Keeps tokens c root) (hbody : d.body = .returns e)
    (hcallers : d.callers = []) : c.returned root e d.offset := by
  have hmeets := h.body
  have hroot := h.callers
  rw [hcallers] at hroot
  rw [hbody] at hmeets
  exact hroot.2.2.2 e d.offset h.start_le hmeets

/-! ### Safety along a run -/

theorem keeps_safety (tokens : List Token) (offset : Nat) :
    (start offset).Keeps tokens (safety tokens) ⟨.expression, offset, 1⟩ :=
  ⟨safe_expression offset 1, Nat.le_refl offset, Waits.start _⟩

/-- Among the procedures that have not ended, each precedes those that it led to. -/
theorem Keeps.pairwise (h : d.Keeps tokens (safety tokens) root) :
    d.activations.Pairwise fun inner outer => outer.Precedes inner := by
  have chained : ∀ callers b, Waits tokens (safety tokens) root b callers →
      (b :: callers.map Caller.activation).Pairwise fun inner outer => outer.Precedes inner := by
    intro callers
    induction callers with
    | nil => exact fun b _ => List.pairwise_singleton _ b
    | cons caller callers ih =>
      rintro b ⟨⟨hprecedes, -⟩, -, -, -, hrest⟩
      have hcallers := ih _ hrest
      refine List.pairwise_cons.mpr ⟨?_, hcallers⟩
      intro outer houter
      rcases List.mem_cons.mp houter with rfl | houter
      · exact hprecedes
      · exact ((List.pairwise_cons.mp hcallers).1 outer houter).trans hprecedes
  exact chained _ _ h.callers

/-- A step leaves the offset where it is or moves it over one token. -/
theorem offset_step (hstep : d.next? tokens = some d') :
    d'.offset = d.offset ∨ d'.offset = d.offset + 1 ∧ d.offset < tokens.length := by
  cases step_of_next? hstep with
  | took hx => exact Or.inr ⟨rfl, lt_of_lexemeAt hx⟩
  | returned => exact Or.inl rfl
  | looked => exact Or.inl rfl
  | called => exact Or.inl rfl
  | looped => exact Or.inl rfl

theorem offset_leads (hleads : d.Leads tokens d') :
    d.offset ≤ d'.offset ∧ d'.offset ≤ max d.offset tokens.length := by
  induction hleads with
  | refl => exact ⟨Nat.le_refl _, Nat.le_max_left _ _⟩
  | tail _ hstep ih =>
    rcases offset_step hstep with hsame | ⟨hmoved, hlt⟩ <;> omega

/-! ### The frames of a descent -/

/-- A procedure holds a frame for itself and one for each procedure that waits for it. -/
def CountsFrames : Activation → List Caller → Prop
  | a, [] => a.depth = 1
  | a, caller :: callers =>
    a.depth = caller.activation.depth + 1 ∧ CountsFrames caller.activation callers

theorem depth_eq_of_countsFrames {a : Activation} {callers : List Caller}
    (h : CountsFrames a callers) : a.depth = callers.length + 1 := by
  induction callers generalizing a with
  | nil => exact h
  | cons caller callers ih =>
    obtain ⟨hdepth, hrest⟩ := h
    rw [hdepth, ih hrest, List.length_cons]

theorem countsFrames_step (h : CountsFrames d.active d.callers)
    (hstep : d.next? tokens = some d') : CountsFrames d'.active d'.callers := by
  cases step_of_next? hstep with
  | returned => exact h.2
  | looked => exact h
  | took hx => exact h
  | called => exact ⟨rfl, h⟩
  | @looped a rest callers offset =>
    cases callers with
    | nil => exact h
    | cons caller callers => exact h

/-- The depth of a descent is the number of its procedures that have not ended. -/
theorem depth_eq {offset : Nat} (hleads : (start offset).Leads tokens d) :
    d.active.depth = d.callers.length + 1 := by
  refine depth_eq_of_countsFrames ?_
  induction hleads with
  | refl => rfl
  | tail _ hstep ih => exact countsFrames_step ih hstep

/-! ### Results -/

variable {room : Option Nat} {x : Except SyntaxError (Expr × Nat)}

/-- A descent that goes on has no result yet. -/
theorem result?_of_next? (hfits : d.overflows room = false) (hstep : d.next? tokens = some d') :
    d.result? room tokens = none := by
  rw [result?_of_fits hfits]
  cases hresult : d.result? none tokens with
  | none => rfl
  | some x => simp [next?_of_result? hresult] at hstep

/-- The result of a descent is what a state that it comes to gives. -/
theorem exists_leads_of_run {h : d.Halts tokens} (hrun : d.run room tokens h = some x) :
    ∃ d', d.Leads tokens d' ∧ d'.result? room tokens = some x := by
  fun_induction run room tokens d h with
  | case1 d h result hresult => exact ⟨d, .refl, hresult.trans hrun⟩
  | case2 d h hnone d' hstep ih =>
    obtain ⟨e, hleads, hresult⟩ := ih hrun
    exact ⟨e, .head hstep hleads, hresult⟩
  | case3 d h hnone hstop => cases hrun

/-- A descent takes one way: every state of it leads to its end. -/
theorem leads_end {e : Descent} (hleads : d.Leads tokens e)
    (hresult : e.result? none tokens = some x) (hleads' : d.Leads tokens d') :
    d'.Leads tokens e := by
  have hunique : Relator.RightUnique fun c c' : Descent => c.next? tokens = some c' := by
    intro b c c' hc hc'
    rw [hc] at hc'
    exact Option.some.inj hc'
  rcases Relation.ReflTransGen.total_of_right_unique hunique hleads hleads' with hfrom | hto
  · cases hfrom.cases_head with
    | inl heq => exact heq ▸ .refl
    | inr hstep =>
      obtain ⟨c, hc, -⟩ := hstep
      rw [next?_of_result? hresult] at hc
      cases hc
  · exact hto

/-- In a room in which every procedure finds a frame, a descent gives what its end gives. -/
theorem run_of_fits (room : Option Nat) {e : Descent} (h : d.Halts tokens)
    (hleads : d.Leads tokens e) (hresult : e.result? none tokens = some x)
    (hfits : ∀ s, d.Leads tokens s → s.overflows room = false) : d.run room tokens h = some x := by
  induction hleads using Relation.ReflTransGen.head_induction_on with
  | refl => exact run_of_result? h ((result?_of_fits (hfits e .refl)).trans hresult)
  | head hstep hrest ih =>
    rw [run_of_next? h (result?_of_next? (hfits _ .refl) hstep) hstep]
    exact ih _ fun s hs => hfits s (.head hstep hs)

/-- Where a procedure on the way finds no frame, a descent is refused as too deep. -/
theorem run_of_overflows (room : Option Nat) (h : d.Halts tokens) (hleads : d.Leads tokens d')
    (hdeep : d'.overflows room = true) :
    ∃ place, d.run room tokens h = some (.error (.tooDeep place)) := by
  induction hleads using Relation.ReflTransGen.head_induction_on with
  | refl => exact ⟨_, run_of_result? h (result?_of_overflows hdeep)⟩
  | @head b c hstep hrest ih =>
    cases hfits : b.overflows room with
    | true => exact ⟨_, run_of_result? h (result?_of_overflows hfits)⟩
    | false =>
      rw [run_of_next? h (result?_of_next? hfits hstep) hstep]
      exact ih _

end Descent

/-! ### Reading within a room -/

variable {p : Nat}

theorem run_eq_parseFrom (room : Option Nat) (tokens : List Token) (p : Nat) :
    (Descent.start p).run room tokens (Descent.halts_start tokens p) =
      some (parseFrom room tokens p) :=
  (Option.some_get _).symm

/-- Every descent comes to where its result is given. -/
theorem exists_end (room : Option Nat) (tokens : List Token) (p : Nat) :
    ∃ d, (Descent.start p).Leads tokens d ∧
      d.result? room tokens = some (parseFrom room tokens p) :=
  Descent.exists_leads_of_run (run_eq_parseFrom room tokens p)

/-- In a room that has a frame for every procedure the limit makes no difference. -/
theorem parseFrom_of_fits {frames : Nat}
    (h : ∀ d, (Descent.start p).Leads tokens d → d.active.depth ≤ frames) :
    parseFrom (some frames) tokens p = parseFrom none tokens p := by
  obtain ⟨e, hleads, hresult⟩ := exists_end none tokens p
  have hrun := Descent.run_of_fits (some frames) (Descent.halts_start tokens p) hleads hresult
    fun s hs => by simpa [Descent.overflows] using h s hs
  exact Option.some.inj ((run_eq_parseFrom _ tokens p).symm.trans hrun)

/-- A procedure that finds no frame is refused. -/
theorem parseFrom_of_overflow {frames : Nat} {d : Descent}
    (hleads : (Descent.start p).Leads tokens d) (hdeep : frames < d.active.depth) :
    ∃ place, parseFrom (some frames) tokens p = .error (.tooDeep place) := by
  obtain ⟨place, hrun⟩ := Descent.run_of_overflows (some frames) (Descent.halts_start tokens p)
    hleads (by simpa [Descent.overflows] using hdeep)
  exact ⟨place, Option.some.inj ((run_eq_parseFrom _ tokens p).symm.trans hrun)⟩

end Calculator.Expr
