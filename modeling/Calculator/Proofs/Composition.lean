/-
  Calculator/Proofs/Composition.lean
  ==================================
  **Sources inside parentheses.**  A source that can be read may be put into
  parentheses, and the parentheses may become an operand of an operator or the
  arguments of a call, without any space.  No token goes on across a parenthesis
  or a comma, so the text says what its parts say, and the parts stand where the
  grammar takes any expression.  Only the depth of the whole can be too much.

  Evaluating a source is an action on the memory that may fail.  What a composed
  text does is the composition of the actions of its parts, in the order of the
  text: what a part writes is there for the next one, and after the first failure
  nothing else is done.
-/
import Calculator.Proofs.Expr.RoundTrip
import Calculator.Proofs.Memory
import Calculator.Proofs.Token.Seams

namespace Calculator

open Calculator.Expr (parenthesized)

/-! ### Evaluating as an action -/

/-- Evaluating a source, as an action on the memory.  When it fails, the memory keeps what has
been written before. -/
def evaluating [CallStack] (source : String) : ExceptT Error (StateM Memory) Binary64 := fun m =>
  ((evaluateSource source m).outcome, (evaluateSource source m).memory)

/-- An evaluation that depends on the memory, as an action. -/
def acting {α : Type} (x : Memory → Evaluation α) : ExceptT Error (StateM Memory) α := fun m =>
  ((x m).outcome.mapError .evaluation, (x m).memory)

/-- An action and then another one, which is not begun if the first one fails. -/
theorem run_bind {α β : Type} (x : ExceptT Error (StateM Memory) α)
    (next : α → ExceptT Error (StateM Memory) β) (m : Memory) :
    (x >>= next) m =
      match x m with
      | (.ok a, n) => next a n
      | (.error why, n) => (.error why, n) := by
  simp only [bind, ExceptT.bind, ExceptT.mk, StateT.bind, ExceptT.bindCont]
  obtain ⟨outcome, n⟩ := x m
  cases outcome <;> rfl

theorem acting_value {α : Type} (a : α) : acting (Evaluation.value a) = pure a := rfl

theorem acting_bind {α β : Type} (x : Memory → Evaluation α)
    (next : α → Memory → Evaluation β) :
    acting (fun m => (x m).bind next) = acting x >>= fun a => acting (next a) := by
  funext m
  rw [run_bind]
  simp only [acting, Evaluation.bind]
  cases (x m).outcome <;> rfl

theorem evaluating_of_readSource [CallStack] {source : String} {tokens : List Token} {e : Expr}
    (h : readSource source = .ok (tokens, e)) : evaluating source = acting e.meaning := by
  funext m
  obtain ⟨htokens, hparse⟩ := readSource_eq_ok_iff.mp h
  simp only [evaluating, acting, evaluateSource, htokens, hparse, Expr.evaluate_eq_meaning]
  cases houtcome : (e.meaning m).outcome <;> rfl

/-! ### Sources and the expressions that they are read as -/

/-- What a text says on its own it says before every text that may stand after an operand. -/
theorem says_of_lexemes? {text : List Char} {xs : List Lexeme} (h : lexemes? text = some xs) :
    Says text xs := by
  intro rest hrest
  cases rest with
  | nil => simp [h]
  | cons c rest =>
    have hclosing : isClosing c = true := hrest c (by simp)
    have hc : isBoundary c = true := by
      simp only [isClosing, Bool.or_eq_true, decide_eq_true_eq] at hclosing
      rcases hclosing with (rfl | rfl) | rfl <;> rfl
    rw [lexemes?_before hc, h, Option.bind_some]

section Sources

variable [CallStack]

/-- A source that is read as an expression. -/
def IsSource (source : String) (e : Expr) : Prop := ∃ tokens, readSource source = .ok (tokens, e)

/-- Sources that are read as the expressions of a list, one by one. -/
inductive AreSources : List String → List Expr → Prop where
  | nil : AreSources [] []
  | cons {source : String} {e : Expr} {sources : List String} {es : List Expr}
      (h : IsSource source e) (hrest : AreSources sources es) :
      AreSources (source :: sources) (e :: es)

theorem exists_areSources {sources : List String}
    (h : ∀ source ∈ sources, ∃ e, IsSource source e) : ∃ es, AreSources sources es := by
  induction sources with
  | nil => exact ⟨[], .nil⟩
  | cons source rest ih =>
    obtain ⟨e, he⟩ := h source List.mem_cons_self
    obtain ⟨es, hes⟩ := ih fun s hs => h s (List.mem_cons_of_mem source hs)
    exact ⟨e :: es, .cons he hes⟩

variable {source : String} {e : Expr} {sources : List String} {es : List Expr}

theorem IsSource.grammatical (h : IsSource source e) :
    e.isWellFormed = true ∧ Says source.toList e.spelling := by
  obtain ⟨tokens, hread⟩ := h
  obtain ⟨htokens, hparse⟩ := readSource_eq_ok_iff.mp hread
  obtain ⟨hwf, hspelling⟩ := Expr.wellFormed_of_parse hparse
  refine ⟨hwf, says_of_lexemes? ?_⟩
  rw [hspelling, lexemes?]
  exact congrArg scanned htokens

theorem IsSource.evaluating_eq (h : IsSource source e) : evaluating source = acting e.meaning := by
  obtain ⟨tokens, hread⟩ := h
  exact evaluating_of_readSource hread

theorem AreSources.length_eq (h : AreSources sources es) : es.length = sources.length := by
  induction h with
  | nil => rfl
  | cons _ _ ih => simp [ih]

theorem AreSources.areWellFormed (h : AreSources sources es) :
    Expr.areWellFormed es = true := by
  induction h with
  | nil => rfl
  | cons h _ ih =>
    rw [Expr.areWellFormed, Bool.and_eq_true]
    exact ⟨h.grammatical.1, ih⟩

theorem AreSources.evaluating_eq (h : AreSources sources es) :
    sources.mapM evaluating = acting (Expr.meanings es) := by
  induction h with
  | nil => rfl
  | @cons source e sources es h _ ih =>
    have hmeanings : Expr.meanings (e :: es) = fun m => (e.meaning m).bind fun a m =>
      (Expr.meanings es m).bind fun values => .value (a :: values) := rfl
    rw [List.mapM_cons, h.evaluating_eq, ih, hmeanings, acting_bind]
    simp only [acting_bind, acting_value]

end Sources

/-! ### What a composed text says -/

section Texts

variable {left right : List Char} {ls rs : List Lexeme}

theorem lexemes?_operator (op : BinaryOp) (rest : List Char) :
    lexemes? (op.symbol.chars ++ '(' :: rest) =
      (lexemes? ('(' :: rest)).map (.symbol op.symbol :: ·) := by
  cases op <;> exact lexemes?_symbol _ _ [] rfl rfl rfl rfl rfl

/-- An operator between two texts in parentheses. -/
theorem says_operands (op : BinaryOp) (hleft : Says left ls) (hright : Says right rs) :
    Says ('(' :: (left ++ [')']) ++ (op.symbol.chars ++ '(' :: (right ++ [')'])))
      (.symbol .leftParen :: (ls ++ [.symbol .rightParen]) ++
        .symbol op.symbol :: (.symbol .leftParen :: (rs ++ [.symbol .rightParen]))) := by
  intro rest hrest
  have hoperand := says_parenthesized hright rest hrest
  simp only [List.cons_append, List.append_assoc, List.nil_append] at hoperand ⊢
  rw [lexemes?_leftParen, hleft _ (closes_cons rfl _), lexemes?_rightParen, lexemes?_operator,
    hoperand]
  cases lexemes? rest <;> simp

theorem says_commaOnly (hleft : Says left ls) (hright : Says right rs) :
    Says (left ++ ',' :: right) (ls ++ .symbol .comma :: rs) := by
  intro rest hrest
  simp only [List.append_assoc, List.cons_append]
  rw [hleft _ (closes_cons rfl _), lexemes?_comma, hright rest hrest]
  cases lexemes? rest <;> simp

end Texts

/-- Sources with commas between them say the arguments of a call. -/
theorem AreSources.says_arguments [CallStack] {sources : List String} {es : List Expr}
    (h : AreSources sources es) :
    Says (",".intercalate sources).toList (Expr.spellings es) := by
  induction h with
  | nil => exact says_nil
  | @cons source e sources es h hrest ih =>
    obtain ⟨-, hspelled⟩ := h.grammatical
    cases hrest with
    | nil => simpa [Expr.spellings] using hspelled
    | @cons next d others ds _ _ =>
      have htext : (",".intercalate (source :: next :: others)).toList
          = source.toList ++ ',' :: (",".intercalate (next :: others)).toList := by
        simp [String.intercalate_cons_cons]
      rw [htext]
      exact says_commaOnly hspelled ih

theorem isName_of_find? {name : String} {arity : Nat} {f : Function}
    (h : Function.find? name arity = some f) : isName name = true := by
  have hall : ∀ known ∈ Function.table.map Prod.fst, isName known = true := by decide
  obtain ⟨entry, hentry, -⟩ := Option.map_eq_some_iff.mp h
  have hname := List.find?_some hentry
  simp only [Bool.and_eq_true, decide_eq_true_eq] at hname
  exact hname.1 ▸ hall _ (List.mem_map_of_mem (List.mem_of_find?_eq_some hentry))

/-- A source that is not refused for its depth. -/
def IsShallow [CallStack] (source : String) : Prop :=
  ∀ place, readSource source ≠ .error (.syntactic (.tooDeep place))

theorem isShallow_of_short [CallStack] {source : String} {tokens : List Token} {e : Expr}
    (htokens : tokenize source = .ok tokens) (hshort : tokens.length ≤ 120)
    (hwhole : Expr.readWhole tokens = .ok e) : IsShallow source := by
  intro place
  rw [Expr.readSource_of_short htokens hshort hwhole]
  nofun

/-- A text that says a well-formed expression is read as the expression, if it is not too
deep. -/
theorem isSource_of_says [CallStack] {source : String} {e : Expr} (hwf : e.isWellFormed = true)
    (hspelled : Says source.toList e.spelling) (hdepth : IsShallow source) :
    IsSource source e := by
  have hlexemes : lexemes? source.toList = some e.spelling := by
    simpa using hspelled [] closes_nil
  obtain ⟨tokens, htokens, hspelling⟩ := tokenize_of_lexemes? hlexemes
  rcases Expr.parse_of_spelling hwf hspelling.symm with ⟨place, hdeep⟩ | hparse
  · exact absurd (by simp only [readSource, htokens, hdeep]) (hdepth place)
  · exact ⟨tokens, readSource_eq_ok_iff.mpr ⟨htokens, hparse⟩⟩

/-! ### Composed sources -/

section Composed

variable [CallStack] {a b : String} {d e : Expr}

theorem isSource_operands (op : BinaryOp) (ha : IsSource a d) (hb : IsSource b e)
    (hdepth : IsShallow (parenthesized a ++ op.text ++ parenthesized b)) :
    IsSource (parenthesized a ++ op.text ++ parenthesized b)
      (.binary op (.group d) (.group e)) := by
  obtain ⟨hd, hspelledLeft⟩ := ha.grammatical
  obtain ⟨he, hspelledRight⟩ := hb.grammatical
  refine isSource_of_says ?_ ?_ hdepth
  · -- parentheses stand wherever an operand may stand
    have hleft : op.leftLevel ≤ (Expr.group d).level := Expr.Level.le_unary _
    have hright : op.rightLevel ≤ (Expr.group e).level := Expr.Level.le_unary _
    simp [Expr.isWellFormed, hd, he, hleft, hright]
  · have hspelled := says_operands op hspelledLeft hspelledRight
    have htext : op.text.toList = op.symbol.chars := (Expr.isOperator_binary op).1
    simpa [Expr.toList_parenthesized, htext, Expr.spelling] using hspelled

theorem isSource_call {name : String} (hname : isName name = true) {sources : List String}
    {es : List Expr} (h : AreSources sources es)
    (hdepth : IsShallow (name ++ parenthesized (",".intercalate sources))) :
    IsSource (name ++ parenthesized (",".intercalate sources)) (.call name es) := by
  refine isSource_of_says ?_ ?_ hdepth
  · rw [Expr.isWellFormed]
    exact h.areWellFormed
  · have hspelled := says_call hname h.says_arguments
    rwa [← Expr.toList_parenthesized, ← String.toList_append] at hspelled

theorem isSource_group (ha : IsSource a d) (hdepth : IsShallow (parenthesized a)) :
    IsSource (parenthesized a) (.group d) := by
  obtain ⟨hd, hspelled⟩ := ha.grammatical
  refine isSource_of_says hd ?_ hdepth
  rw [Expr.toList_parenthesized]
  exact says_parenthesized hspelled

end Composed

/-- **Composed sources do what their parts do, one after the other.**  Two sources in parentheses
with an operator between them, and sources with commas between them in the parentheses of a
call, are evaluated from left to right in one memory, and the operator or function is applied to
their values.  A source in parentheses does what it does alone.  Nothing is assumed of the parts
but that they can be read, and of the whole but that it is not too deep. -/
theorem evaluating_composed [CallStack] :
    (∀ (op : BinaryOp) (a b : String) (d e : Expr), IsSource a d → IsSource b e →
      IsShallow (parenthesized a ++ op.text ++ parenthesized b) →
      evaluating (parenthesized a ++ op.text ++ parenthesized b) = do
        let x ← evaluating a
        let y ← evaluating b
        return op.apply x y) ∧
    (∀ (name : String) (f : Function) (sources : List String),
      Function.find? name sources.length = some f →
      (∀ source ∈ sources, ∃ e, IsSource source e) →
      IsShallow (name ++ parenthesized (",".intercalate sources)) →
      evaluating (name ++ parenthesized (",".intercalate sources)) = do
        let values ← sources.mapM evaluating
        return f.apply values) ∧
    ∀ (a : String) (d : Expr), IsSource a d → IsShallow (parenthesized a) →
      evaluating (parenthesized a) = evaluating a := by
  refine ⟨?_, ?_, ?_⟩
  · intro op a b d e ha hb hdepth
    have hmeaning : (Expr.binary op (.group d) (.group e)).meaning = fun m =>
      (d.meaning m).bind fun x m => (e.meaning m).bind fun y => .value (op.apply x y) := rfl
    rw [(isSource_operands op ha hb hdepth).evaluating_eq, ha.evaluating_eq, hb.evaluating_eq,
      hmeaning, acting_bind]
    simp only [acting_bind, acting_value]
  · intro name f sources hfind hsources hdepth
    obtain ⟨es, hes⟩ := exists_areSources hsources
    rw [← hes.length_eq] at hfind
    have hmeaning : (Expr.call name es).meaning = fun m =>
        (Expr.meanings es m).bind fun values => .value (f.apply values) := by
      funext m
      simp only [Expr.meaning, hfind]
    rw [(isSource_call (isName_of_find? hfind) hes hdepth).evaluating_eq, hes.evaluating_eq,
      hmeaning, acting_bind]
    simp only [acting_value]
  · intro a d ha hdepth
    rw [(isSource_group ha hdepth).evaluating_eq, ha.evaluating_eq]
    rfl

def yBound : Memory := ⟨[("y", .one false)]⟩

def bothBound : Memory := ⟨[("y", .one false), ("x", .one false)]⟩

section Unused

attribute [local instance] CallStack.unused

/-- The first part has written before the second one fails, with an operator and in a call, and
the parentheses alone change nothing. -/
theorem evaluating_partly :
    IsSource "x = y" (.assign .assign "x" (.identifier "y")) ∧ IsSource "z" (.identifier "z") ∧
      Function.find? "log" 2 = some (.binary .log) ∧
      evaluating "(x = y)*(z)" yBound = (.error (.evaluation (.unbound "z")), bothBound) ∧
      evaluating "log(x = y,z)" yBound = (.error (.evaluation (.unbound "z")), bothBound) ∧
      evaluating "(x = y)" yBound = (.ok (.one false), bothBound) := by
  have hx : IsSource "x = y" (.assign .assign "x" (.identifier "y")) :=
    ⟨_, Expr.readSource_of_short rfl (by decide) rfl⟩
  have hz : IsSource "z" (.identifier "z") :=
    ⟨_, Expr.readSource_of_short rfl (by decide) rfl⟩
  have hlog : Function.find? "log" 2 = some (.binary .log) := by rfl
  have hassigns : evaluating "x = y" yBound = (.ok (.one false), bothBound) := by
    have hy : yBound.get? "y" = some (.one false) := by
      simp [yBound, Memory.get?, constant?, constants, Memory.lookup_cons]
    have hwrite : Evaluation.write "x" (.one false) yBound
        = ⟨.ok (.one false), bothBound, [("x", .one false)]⟩ := by
      rw [Evaluation.write, Memory.assign?_variable (by decide)]
      rfl
    rw [hx.evaluating_eq]
    simp [acting, Expr.meaning, AssignOp.combines?, hy, hwrite, Evaluation.bind,
      Evaluation.value, Except.mapError]
  have hfails : evaluating "z" bothBound = (.error (.evaluation (.unbound "z")), bothBound) := by
    have hnone : bothBound.get? "z" = none := by
      simp [bothBound, Memory.get?, constant?, constants, Memory.lookup_cons]
    rw [hz.evaluating_eq]
    simp [acting, Expr.meaning, hnone, Evaluation.failure, Except.mapError]
  have hparts : ∀ source ∈ ["x = y", "z"], ∃ e, IsSource source e := by
    intro source hsource
    rcases List.mem_cons.mp hsource with rfl | hsource
    · exact ⟨_, hx⟩
    · exact ⟨_, List.mem_singleton.mp hsource ▸ hz⟩
  obtain ⟨hoperator, hcall, hgroup⟩ := evaluating_composed
  have hproduct := hoperator .mul "x = y" "z" _ _ hx hz (isShallow_of_short rfl (by decide) rfl)
  have hlogs := hcall "log" _ ["x = y", "z"] hlog hparts (isShallow_of_short rfl (by decide) rfl)
  have hparens := hgroup "x = y" _ hx (isShallow_of_short rfl (by decide) rfl)
  refine ⟨hx, hz, hlog, ?_, ?_, ?_⟩
  · refine (congrFun hproduct yBound).trans ?_
    simp only [run_bind, hassigns, hfails]
  · refine (congrFun hlogs yBound).trans ?_
    simp only [List.mapM_cons, run_bind, hassigns, hfails]
  · exact (congrFun hparens yBound).trans hassigns

end Unused

end Calculator
