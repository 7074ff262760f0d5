/-
  Calculator/Proofs/Expr/RoundTrip.lean
  =====================================
  **Canonical texts read back.**  The canonical text of a tree is read as the
  normal form of the tree, unless it is refused as too deep.  The scanner and
  the grammar are used apart from each other: the text says the lexemes that
  spell the normal form, and the reader takes the spelling of every well-formed
  tree.

  What a text says is stated for every text that may come after it.  After an
  operand there is always a space, a comma, a closing parenthesis or nothing,
  and none of these goes on with a name or a number.  The only symbol that could
  be taken for a longer one is a minus, because an operand may start with a
  minus as well.  This is where the space of a double minus is needed.
-/
import Calculator.Proofs.Expr.NormalForm
import Calculator.Proofs.Expr.Parsing
import Calculator.Proofs.Token.Lexemes

namespace Calculator

/-! ### What a text says before any other text -/

/-- A character that may stand after an operand. -/
def isClosing (c : Char) : Bool := c = ' ' || c = ',' || c = ')'

/-- A text that may stand after an operand. -/
def Closes (rest : List Char) : Prop := ∀ c ∈ rest.head?, isClosing c = true

/-- A text says lexemes if it says them before every text that may stand after an operand. -/
def Says (text : List Char) (lexemes : List Lexeme) : Prop :=
  ∀ rest, Closes rest → lexemes? (text ++ rest) = (lexemes? rest).map (lexemes ++ ·)

theorem closes_nil : Closes [] := by
  intro c hc
  simp at hc

theorem closes_cons {c : Char} (h : isClosing c = true) (rest : List Char) :
    Closes (c :: rest) := by
  intro d hd
  simp only [List.head?_cons, Option.mem_some_iff] at hd
  exact hd ▸ h

/-- What may stand after an operand does not go on with a word of another kind. -/
theorem startsWithout_of_closes {p : Char → Bool} (hspace : p ' ' = false)
    (hcomma : p ',' = false) (hparen : p ')' = false) {rest : List Char} (h : Closes rest) :
    startsWithout p rest := by
  intro c hc
  have hclosing : isClosing c = true := h c hc
  simp only [isClosing, Bool.or_eq_true, decide_eq_true_eq] at hclosing
  rcases hclosing with (rfl | rfl) | rfl
  · exact hspace
  · exact hcomma
  · exact hparen

/-! ### Words and texts of operations -/

theorem says_name {name : String} (h : isName name = true) :
    Says name.toList [.identifier name] := by
  intro rest hrest
  exact lexemes?_name h (startsWithout_of_closes rfl rfl rfl hrest)

theorem says_number (m : Magnitude) : Says m.numberText [.number (.finite false m)] := by
  intro rest hrest
  exact lexemes?_number m.writes_numberText (startsWithout_of_closes rfl rfl rfl hrest)

theorem says_nil : Says [] [] := by
  intro rest _
  simp

/-- A symbol between two texts, set apart from them by spaces. -/
theorem says_spaced {s : Symbol} (hdot : s ≠ .dot) (hellipsis : s ≠ .ellipsis)
    {left right : List Char} {ls rs : List Lexeme} (hleft : Says left ls)
    (hright : Says right rs) :
    Says (left ++ ' ' :: (s.chars ++ ' ' :: right)) (ls ++ .symbol s :: rs) := by
  intro rest hrest
  have hsymbol := lexemes?_spaced hdot hellipsis (right ++ rest)
  simp only [List.append_assoc, List.cons_append]
  rw [hleft _ (closes_cons rfl _), lexemes?_separator rfl, hsymbol, hright rest hrest]
  cases lexemes? rest <;> simp

theorem says_comma {left right : List Char} {ls rs : List Lexeme} (hleft : Says left ls)
    (hright : Says right rs) :
    Says (left ++ ',' :: ' ' :: right) (ls ++ .symbol .comma :: rs) := by
  intro rest hrest
  simp only [List.append_assoc, List.cons_append]
  rw [hleft _ (closes_cons rfl _), lexemes?_comma, lexemes?_separator rfl, hright rest hrest]
  cases lexemes? rest <;> simp

theorem says_parenthesized {text : List Char} {xs : List Lexeme} (h : Says text xs) :
    Says ('(' :: (text ++ [')'])) (.symbol .leftParen :: (xs ++ [.symbol .rightParen])) := by
  intro rest _
  simp only [List.cons_append, List.append_assoc, List.nil_append]
  rw [lexemes?_leftParen, h _ (closes_cons rfl _), lexemes?_rightParen]
  cases lexemes? rest <;> simp

theorem says_call {name : String} (hname : isName name = true) {text : List Char}
    {xs : List Lexeme} (h : Says text xs) :
    Says (name.toList ++ '(' :: (text ++ [')']))
      (.identifier name :: .symbol .leftParen :: (xs ++ [.symbol .rightParen])) := by
  intro rest hrest
  have hparen : startsWithout isNamePart ('(' :: (text ++ [')']) ++ rest) :=
    startsWithout_cons rfl _
  rw [List.append_assoc, lexemes?_name hname hparen, says_parenthesized h rest hrest]
  cases lexemes? rest <;> simp

/-! ### Signs -/

/-- A text starts as an operand may start: with a part of a name, a parenthesis or a minus. -/
def startsOperand (text : List Char) : Bool :=
  text.head?.any fun c => isNamePart c || c = '(' || c = '-'

theorem eq_cons_of_startsOperand {text : List Char} (h : startsOperand text = true) :
    ∃ c rest, text = c :: rest ∧ (isNamePart c || c = '(' || c = '-') = true := by
  cases text with
  | nil => simp [startsOperand] at h
  | cons c rest => exact ⟨c, rest, rfl, h⟩

theorem startsOperand_append {text : List Char} (h : startsOperand text = true)
    (rest : List Char) : startsOperand (text ++ rest) = true := by
  obtain ⟨c, tail, rfl, hc⟩ := eq_cons_of_startsOperand h
  exact hc

/-- A minus is no part of a longer symbol before an operand, unless the operand starts with a
minus. -/
theorem lexemes?_minus_operand {text : List Char} (hstart : startsOperand text = true)
    (hminus : text.head? ≠ some '-') :
    lexemes? ('-' :: text) = (lexemes? text).map (.symbol .minus :: ·) := by
  obtain ⟨c, rest, rfl, hc⟩ := eq_cons_of_startsOperand hstart
  refine lexemes?_minus (startsWithout_cons ?_ rest)
  simp only [Bool.or_eq_false_iff, decide_eq_false_iff_not]
  refine ⟨⟨fun hsame => hminus (by rw [hsame]; rfl), ?_⟩, ?_⟩
  · rintro rfl
    simp [isNamePart] at hc
  · rintro rfl
    simp [isNamePart] at hc

namespace Expr

theorem says_negated {text : String} {xs : List Lexeme} (hstart : startsOperand text.toList = true)
    (h : Says text.toList xs) : Says (negated text).toList (.symbol .minus :: xs) := by
  intro rest hrest
  rw [negated]
  split
  · -- the space ends the symbol
    have hminus := lexemes?_minus (startsWithout_cons (c := ' ') rfl (text.toList ++ rest))
    rw [lexemes?_separator (c := ' ') rfl, h rest hrest] at hminus
    simp only [String.toList_append]
    refine hminus.trans ?_
    cases lexemes? rest <;> simp
  · next hfront =>
    have hhead : (text.toList ++ rest).head? ≠ some '-' := by
      obtain ⟨c, tail, htext, -⟩ := eq_cons_of_startsOperand hstart
      simpa [String.front?_eq, htext] using hfront
    have hminus := lexemes?_minus_operand (startsOperand_append hstart rest) hhead
    rw [h rest hrest] at hminus
    simp only [String.toList_append]
    refine hminus.trans ?_
    cases lexemes? rest <;> simp

/-! ### Texts of expressions -/

theorem toList_parenthesized (text : String) :
    (parenthesized text).toList = '(' :: (text.toList ++ [')']) := by
  simp [parenthesized]

/-- The text of an operator, with spaces around it, is read as a symbol. -/
def IsOperator (text : String) (s : Symbol) : Prop :=
  text.toList = s.chars ∧ s ≠ .dot ∧ s ≠ .ellipsis

theorem isOperator_binary (op : BinaryOp) : IsOperator op.text op.symbol := by
  cases op <;> exact ⟨rfl, by decide, by decide⟩

theorem isOperator_assign (op : AssignOp) : IsOperator op.text op.symbol := by
  cases op <;> exact ⟨rfl, by decide, by decide⟩

/-- An operator between two texts, in parentheses. -/
theorem says_operation {operator left right : String} {s : Symbol} {ls rs : List Lexeme}
    (hoperator : IsOperator operator s) (hleft : Says left.toList ls)
    (hright : Says right.toList rs) :
    Says (parenthesized (left ++ " " ++ operator ++ " " ++ right)).toList
      (.symbol .leftParen :: (ls ++ .symbol s :: rs ++ [.symbol .rightParen])) := by
  obtain ⟨htext, hdot, hellipsis⟩ := hoperator
  have hwhole := says_parenthesized (says_spaced hdot hellipsis hleft hright)
  rw [toList_parenthesized]
  simpa [htext] using hwhole

theorem startsOperand_name {name : String} (h : isName name = true) :
    startsOperand name.toList = true := by
  rw [isName] at h
  cases htext : name.toList with
  | nil => simp [htext] at h
  | cons c rest =>
    simp only [htext, Bool.and_eq_true, isNameStart] at h
    obtain ⟨hstart, -⟩ := h
    simp only [startsOperand, List.head?_cons, Option.any_some, isNamePart, Char.isAlphanum,
      Bool.or_eq_true, decide_eq_true_eq] at hstart ⊢
    rcases hstart with halpha | hunderscore
    · exact Or.inl (Or.inl (Or.inl (Or.inl halpha)))
    · exact Or.inl (Or.inl (Or.inr hunderscore))

theorem startsOperand_number (value : Binary64) : startsOperand value.numberText.toList = true := by
  rcases value with _ | s | ⟨s, m⟩
  · rfl
  · cases s <;> rfl
  · cases s with
    | true => simp [Binary64.numberText, signed, startsOperand]
    | false =>
      obtain ⟨c, rest, htext, hdigit⟩ := m.writes_numberText.starts
      simp [Binary64.numberText, signed, startsOperand, htext, isNamePart, Char.isAlphanum, hdigit]

theorem startsOperand_negated (text : String) : startsOperand (negated text).toList = true := by
  rw [negated]
  split <;> simp [startsOperand]

theorem startsOperand_text (e : Expr) (hnames : ∀ name ∈ e.names, isName name = true) :
    startsOperand e.text.toList = true := by
  induction e using of_children with
  | step e ih =>
    have hchildren : ∀ c ∈ e.children, startsOperand c.text.toList = true := by
      intro c hc
      refine ih c hc ?_
      intro name hname
      exact hnames name (names_of_mem_children hc hname)
    cases e with
    | number value => exact startsOperand_number value
    | identifier name => exact startsOperand_name (hnames name (by simp [names]))
    | group body =>
      have hbody := hchildren body (by simp [children])
      simp only [text, nodeText, List.headD_cons]
      split
      · exact hbody
      · rw [toList_parenthesized]
        rfl
    | unary op operand =>
      cases op with
      | plus => exact hchildren operand (by simp [children])
      | minus => exact startsOperand_negated operand.text
    | binary op left right =>
      simp only [text, nodeText, toList_parenthesized]
      rfl
    | call name args =>
      simp only [text, nodeText, String.toList_append]
      exact startsOperand_append (startsOperand_name (hnames name (by simp [names]))) _
    | assign op target value =>
      simp only [text, nodeText, toList_parenthesized]
      rfl

theorem says_numberText (value : Binary64) :
    Says value.numberText.toList (numberNormalForm value).spelling := by
  have hinf : Says "inf".toList [.identifier "inf"] := says_name (by decide)
  cases value with
  | nan => exact says_name (by decide)
  | inf s =>
    cases s with
    | false => exact hinf
    | true =>
      have hminus : Says (negated "inf").toList [.symbol .minus, .identifier "inf"] :=
        says_negated rfl hinf
      exact hminus
  | finite s m =>
    have hm : Says (Binary64.finite false m).numberText.toList [.number (.finite false m)] := by
      rw [Binary64.numberText, signed, if_neg Bool.false_ne_true, String.toList_ofList]
      exact says_number m
    cases s with
    | false => exact hm
    | true =>
      rw [numberText_negative]
      exact says_negated (startsOperand_number _) hm

/-- The texts of arguments say their normal forms with commas between them. -/
theorem says_separated {es : List Expr} (h : ∀ e ∈ es, Says e.text.toList e.normalForm.spelling) :
    Says (separated (texts es)).toList (spellings (normalForms es)) := by
  induction es with
  | nil => exact says_nil
  | cons e rest ih =>
    have hfirst := h e List.mem_cons_self
    have hrest := ih fun d hd => h d (List.mem_cons_of_mem e hd)
    cases rest with
    | nil => simpa [separated, normalForms, spellings] using hfirst
    | cons d rest =>
      have htext : (separated (texts (e :: d :: rest))).toList
          = e.text.toList ++ ',' :: ' ' :: (separated (texts (d :: rest))).toList := by
        simp [separated, String.intercalate_cons_cons]
      rw [htext]
      exact says_comma hfirst hrest

/-- The text of an expression says its normal form. -/
theorem says_text (e : Expr) (hnames : ∀ name ∈ e.names, isName name = true) :
    Says e.text.toList e.normalForm.spelling := by
  induction e using of_children with
  | step e ih =>
    have hchildren : ∀ c ∈ e.children, Says c.text.toList c.normalForm.spelling := by
      intro c hc
      refine ih c hc ?_
      intro name hname
      exact hnames name (names_of_mem_children hc hname)
    cases e with
    | number value => exact says_numberText value
    | identifier name => exact says_name (hnames name (by simp [names]))
    | group body =>
      have hbody := hchildren body (by simp [children])
      simp only [text, nodeText, List.headD_cons, normalForm]
      split
      · exact hbody
      · rw [toList_parenthesized]
        exact says_parenthesized hbody
    | unary op operand =>
      have hoperand := hchildren operand (by simp [children])
      cases op with
      | plus => exact hoperand
      | minus =>
        have hstart : startsOperand operand.text.toList = true := startsOperand_text operand hnames
        exact says_negated hstart hoperand
    | binary op left right =>
      have hleft := hchildren left (by simp [children])
      have hright := hchildren right (by simp [children])
      exact says_operation (isOperator_binary op) hleft hright
    | call name args =>
      have hcall := says_call (hnames name (by simp [names])) (says_separated hchildren)
      rwa [← toList_parenthesized, ← String.toList_append] at hcall
    | assign op target value =>
      have htarget := says_name (hnames target (by simp [names]))
      have hvalue := hchildren value (by simp [children])
      exact says_operation (isOperator_assign op) htarget hvalue

/-! ### Names of expressions that have been read -/

theorem spelling_subset_spellings {e : Expr} {es : List Expr} (h : e ∈ es) :
    e.spelling ⊆ spellings es := by
  induction es with
  | nil => exact absurd h List.not_mem_nil
  | cons d rest ih =>
    cases rest with
    | nil =>
      rw [List.mem_singleton.mp h, spellings]
      exact List.Subset.refl _
    | cons c rest =>
      intro x hx
      rw [spellings]
      rcases List.mem_cons.mp h with rfl | h
      · exact List.mem_append_left _ hx
      · exact List.mem_append_right _ (List.mem_cons_of_mem _ (ih h hx))

/-- The names of an expression are the names of its spelling. -/
theorem identifier_mem_spelling {e : Expr} {name : String} (h : name ∈ e.names) :
    .identifier name ∈ e.spelling := by
  induction e using of_children with
  | step e ih =>
    cases e with
    | number value => simp [names] at h
    | identifier n => simpa [names, spelling] using h
    | group body =>
      have hbody := ih body (by simp [children]) h
      simp [spelling, hbody]
    | unary op operand =>
      have hoperand := ih operand (by simp [children]) h
      simp [spelling, hoperand]
    | binary op left right =>
      rcases List.mem_append.mp h with h | h
      · have hleft := ih left (by simp [children]) h
        simp [spelling, hleft]
      · have hright := ih right (by simp [children]) h
        simp [spelling, hright]
    | call f args =>
      rcases List.mem_cons.mp h with rfl | h
      · simp [spelling]
      · obtain ⟨d, hd, hname⟩ := mem_allNames.mp h
        have harg := spelling_subset_spellings hd (ih d hd hname)
        simp [spelling, harg]
    | assign op target value =>
      rcases List.mem_cons.mp h with rfl | h
      · simp [spelling]
      · have hvalue := ih value (by simp [children]) h
        simp [spelling, hvalue]

/-- The names of an expression that has been read are names. -/
theorem isName_of_readSource [CallStack] {source : String} {tokens : List Token} {e : Expr}
    (h : readSource source = .ok (tokens, e)) : ∀ name ∈ e.names, isName name = true := by
  intro name hname
  unfold readSource at h
  split at h
  · simp at h
  · next found htokens =>
    split at h
    · simp at h
    · next whole hparse =>
      obtain ⟨rfl, rfl⟩ := Prod.mk.inj (Except.ok.inj h)
      obtain ⟨-, hspelling⟩ := wellFormed_of_parse hparse
      exact isName_of_mem_tokensFrom htokens (hspelling ▸ identifier_mem_spelling hname)

/-! ### The round trip -/

/-- The rendering of an expression is scanned as the spelling of its normal form. -/
theorem tokenize_render (e : Expr) (hnames : ∀ name ∈ e.names, isName name = true) :
    ∃ tokens, tokenize e.render = .ok tokens ∧
      e.normalForm.spelling = tokens.map Token.lexeme := by
  have hsays : lexemes? e.render.toList = some e.normalForm.spelling := by
    have htext := says_text e hnames [] closes_nil
    simpa [render_eq_text] using htext
  obtain ⟨tokens, htokens, hspelling⟩ := tokenize_of_lexemes? hsays
  exact ⟨tokens, htokens, hspelling.symm⟩

/-- The rendering of an expression is read as its normal form unless it is too deep. -/
theorem readSource_cases [CallStack] (e : Expr) (hnames : ∀ name ∈ e.names, isName name = true) :
    (∃ place, readSource e.render = .error (.syntactic (.tooDeep place))) ∨
      ∃ tokens, readSource e.render = .ok (tokens, e.normalForm) := by
  obtain ⟨tokens, htokens, hspelling⟩ := tokenize_render e hnames
  rcases parse_of_spelling (isWellFormed_normalForm e) hspelling with ⟨place, hdeep⟩ | hparse
  · exact Or.inl ⟨place, by simp only [readSource, htokens, hdeep]⟩
  · exact Or.inr ⟨tokens, by simp only [readSource, htokens, hparse]⟩

/-- **Renderings are read as normal forms.**  The rendering of any expression whose names are
names is read as the normal form of the expression, unless it is refused as too deep, and the
normal form has the same rendering.  So reading and rendering again never changes the rendering
of an expression that has been read from a source. -/
theorem readSource_render [CallStack] :
    (∀ e : Expr, (∀ name ∈ e.names, isName name = true) →
      ((∃ place, readSource e.render = .error (.syntactic (.tooDeep place))) ∨
        ∃ tokens, readSource e.render = .ok (tokens, e.normalForm)) ∧
      e.normalForm.render = e.render) ∧
    ∀ source tokens e, readSource source = .ok (tokens, e) →
      (∃ place, readSource e.render = .error (.syntactic (.tooDeep place))) ∨
        ∃ retokens reread, readSource e.render = .ok (retokens, reread) ∧
          reread.render = e.render := by
  constructor
  · intro e hnames
    exact ⟨readSource_cases e hnames, render_normalForm e⟩
  · intro source tokens e hread
    rcases readSource_cases e (isName_of_readSource hread) with hdeep | ⟨retokens, hreread⟩
    · exact Or.inl hdeep
    · exact Or.inr ⟨retokens, e.normalForm, hreread, render_normalForm e⟩

/-- `f(-(+ -0), (+(x += NaN)))`, with a zero that has a sign of its own. -/
def collapsing : Expr :=
  .call "f" [.unary .minus (.unary .plus (.number (.zero true))),
    .group (.unary .plus (.group (.assign .add "x" (.number .nan))))]

section Unused

attribute [local instance] CallStack.unused

/-- A double minus keeps its space, a unary plus disappears, and two pairs of parentheses
collapse into one. -/
theorem readSource_collapsing :
    (∀ name ∈ collapsing.names, isName name = true) ∧
    readSource "+x" = .ok ([⟨.symbol .plus, 0, 1⟩, ⟨.identifier "x", 1, 2⟩],
      .unary .plus (.identifier "x")) ∧
    collapsing.render = "f(- -0, (x += NaN))" ∧
    (∃ tokens, readSource collapsing.render = .ok (tokens, collapsing.normalForm)) ∧
    collapsing.normalForm.render = collapsing.render ∧
    ∃ retokens reread,
      readSource (unary .plus (.identifier "x")).render = .ok (retokens, reread) ∧
        reread.render = (unary .plus (.identifier "x")).render := by
  have hnames : ∀ name ∈ collapsing.names, isName name = true := by decide
  have hsource : readSource "+x" =
      .ok ([⟨.symbol .plus, 0, 1⟩, ⟨.identifier "x", 1, 2⟩], .unary .plus (.identifier "x")) :=
    readSource_of_short rfl (by decide) rfl
  have hrender : collapsing.render = "f(- -0, (x += NaN))" := by
    rw [render_eq_text]
    decide +kernel
  have hplus : (unary .plus (.identifier "x")).render = "x" := render_eq_text _
  obtain ⟨htrees, hsources⟩ := readSource_render
  obtain ⟨hcollapsing, hnormal⟩ := htrees collapsing hnames
  refine ⟨hnames, hsource, hrender, ?_, hnormal, ?_⟩
  · rcases hcollapsing with ⟨place, hdeep⟩ | hread
    · rw [hrender, readSource_of_short rfl (by decide) rfl] at hdeep
      exact absurd hdeep (by nofun)
    · exact hread
  · rcases hsources "+x" _ _ hsource with ⟨place, hdeep⟩ | hread
    · rw [hplus, readSource_of_short rfl (by decide) rfl] at hdeep
      exact absurd hdeep (by nofun)
    · exact hread

end Unused

/-- **Rendering preserves meaning.**  An expression of finite numbers and its rendering, read
again, come to the same value or error, the same variables and the same writes, in every
memory. -/
theorem evaluate_reread [CallStack] (e : Expr) (hnames : ∀ name ∈ e.names, isName name = true)
    (hnumbers : ∀ x ∈ e.numbers, x.isFinite = true) {tokens : List Token} {reread : Expr}
    (hread : readSource e.render = .ok (tokens, reread)) (m : Memory) :
    reread.evaluate m = e.evaluate m := by
  have hsame : reread = e.normalForm := by
    rcases readSource_cases e hnames with ⟨place, hdeep⟩ | ⟨retokens, hreread⟩
    · simp [hdeep] at hread
    · rw [hreread] at hread
      exact (Prod.mk.inj (Except.ok.inj hread)).2.symm
  rw [hsame, evaluate_eq_meaning, evaluate_eq_meaning, meaning_normalForm e hnumbers]

/-- A negative literal as the base of a power, and an exponent with a plus. -/
def negativeBase : Expr :=
  .binary .pow (.number (.one true)) (.unary .plus (.identifier "x"))

section Unused

attribute [local instance] CallStack.unused

/-- The base comes back as the opposite of one, and the power keeps its value. -/
theorem evaluate_negativeBase :
    ∃ tokens reread,
      (∀ name ∈ negativeBase.names, isName name = true) ∧
      (∀ x ∈ negativeBase.numbers, x.isFinite = true) ∧
      readSource negativeBase.render = .ok (tokens, reread) ∧
      reread = .group (.binary .pow (.unary .minus (.number (.one false))) (.identifier "x")) ∧
      reread.evaluate ⟨[("x", .one false)]⟩ = negativeBase.evaluate ⟨[("x", .one false)]⟩ := by
  have hnames : ∀ name ∈ negativeBase.names, isName name = true := by decide
  have hnumbers : ∀ x ∈ negativeBase.numbers, x.isFinite = true := by decide
  have hrender : negativeBase.render = "(-1 ^ x)" := by
    rw [render_eq_text]
    decide +kernel
  have hone : (Decimal.ofDigits ['1'] []).toBinary64 = .one false := by decide +kernel
  obtain ⟨tokens, hread⟩ : ∃ tokens, readSource negativeBase.render = .ok (tokens,
      .group (.binary .pow (.unary .minus (.number (Decimal.ofDigits ['1'] []).toBinary64))
        (.identifier "x"))) := by
    rw [hrender]
    exact ⟨_, readSource_of_short rfl (by decide) rfl⟩
  rw [hone] at hread
  exact ⟨tokens, _, hnames, hnumbers, hread, rfl,
    evaluate_reread negativeBase hnames hnumbers hread _⟩

end Unused

end Expr

end Calculator
