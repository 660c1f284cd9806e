/-
When the parser of scripts comes to an end. An iteration of a loop takes a token, or leaves the loop, unless it
stands before a token that the loop does not take: a name that begins with an underscore, which the lexer reads
as an empty name again and again; in a list, a punctuator other than a comma and the closing one; and in a
function's body, the end of the script.
-/
import Liumos.Saji.RoundTrip

namespace Liumos.Saji

open Procedure

namespace JsParser

open JsLexer

/-! ## What the functions take -/

/-- From the input `t` all iterations begin with less than `n` of it left, and `Q` holds of the result and the rest. -/
def Goes {α : Type} (n : Nat) (p : JsParser α) (t : List Char) (Q : α → List Char → Prop) : Prop :=
  Within .diverges (fun k => k.2.length < n) (fun k r => r.2.length ≤ k.2.length) (fun x => Q x.1 x.2) (p t)

section

variable {α β : Type} {n : Nat} {t : List Char} {p : JsParser α} {Q : α → List Char → Prop}

theorem Goes.bind {f : α → JsParser β} {Q' : β → List Char → Prop} (h : Goes n p t Q)
    (hf : ∀ a t', Q a t' → Goes n (f a) t' Q') : Goes n (p >>= f) t Q' := by
  have hnext : ∀ x : α × List Char, Q x.1 x.2 → Goes n (f x.1) x.2 Q' := fun x => hf x.1 x.2
  unfold Goes at h hnext
  exact Within.bind (t := p t) hnext h

theorem Goes.mono {Q' : α → List Char → Prop} (h : Goes n p t Q) (hQ : ∀ a t', Q a t' → Q' a t') : Goes n p t Q' :=
  Within.mono (fun x hx => hQ x.1 x.2 hx) h

theorem goes_pure {a : α} (h : Q a t) : Goes n (pure a) t Q := h

theorem goes_fail {e : Panic} (he : e ≠ .diverges) : Goes n (fail e) t Q := he

theorem goes_unimplemented {message : String} : Goes n (unimplemented message) t Q := nofun

theorem goes_next : Goes n next t fun r t' => getNextToken t = .ok (r, t') := by
  show Within _ _ _ _ (.done (getNextToken t))
  cases ht : getNextToken t with
  | error e =>
    rintro rfl
    exact getNextToken_ne_diverges t ht
  | ok x => exact rfl

theorem goes_peek : Goes n peek t fun r t1 => t1 = t ∧ ∃ t', getNextToken t = .ok (r, t') := by
  show Within _ _ _ _ (.done ((getNextToken t).map fun x => (x.1, t)))
  cases ht : getNextToken t with
  | error e =>
    rintro rfl
    exact getNextToken_ne_diverges t ht
  | ok x => exact ⟨rfl, x.2, rfl⟩

theorem goes_consume : Goes n consume t fun _ t' => ∃ r, getNextToken t = .ok (r, t') := by
  refine goes_next.bind fun r t' h => ?_
  split
  · exact goes_pure ⟨r, h⟩
  · exact goes_fail nofun

variable {t' : List Char}

theorem length_le_of_consume (h : ∃ r, getNextToken t = .ok (r, t')) : t'.length ≤ t.length := by
  obtain ⟨_, h⟩ := h
  exact length_getNextToken_le h

theorem eq_of_consume {r : Option Token} {t'' : List Char} (h : getNextToken t = .ok (r, t'))
    (h' : ∃ r, getNextToken t = .ok (r, t'')) : t' = t'' := by
  obtain ⟨_, h'⟩ := h'
  cases h.symm.trans h'
  rfl

theorem goes_iterate {loop : JsLoop} (h : t.length < n) :
    Goes n (iterate loop) t fun _ t' => t'.length ≤ t.length := ⟨h, fun _ hr => hr⟩

end

/-- Before the end of the script, or before an empty name. -/
def Blocked (t : List Char) : Prop := ∃ r t', getNextToken t = .ok (r, t') ∧ (r = none ∨ r = some (.identifier []))

/-- What is left of `t` is less of it if there is a token to take. -/
def Takes (t t' : List Char) : Prop := t'.length ≤ t.length ∧ (¬ Blocked t → t'.length < t.length)

section

variable {n : Nat} {t t' t'' : List Char} {token : Token}

theorem takes_of_next {r : Option Token} (h : getNextToken t = .ok (r, t')) : Takes t t' := by
  refine ⟨length_getNextToken_le h, fun hblocked => ?_⟩
  cases r with
  | none => exact absurd ⟨_, _, h, .inl rfl⟩ hblocked
  | some token =>
    obtain ⟨rfl, -⟩ | ⟨-, hlt⟩ := getNextToken_some h
    · exact absurd ⟨_, _, h, .inr rfl⟩ hblocked
    · exact hlt

theorem Takes.trans_le (h : Takes t t') (hle : t''.length ≤ t'.length) : Takes t t'' :=
  ⟨hle.trans h.1, fun hblocked => hle.trans_lt (h.2 hblocked)⟩

theorem Takes.of_lt (h : t'.length < t.length) : Takes t t' := ⟨h.le, fun _ => h⟩

theorem lt_of_next (h : getNextToken t = .ok (some token, t')) (htoken : token ≠ .identifier []) :
    t'.length < t.length := by
  obtain ⟨hempty, -⟩ | ⟨-, hlt⟩ := getNextToken_some h
  · exact absurd hempty htoken
  · exact hlt

variable {c : Char} {expected expr : String} {loop : JsLoop} {element : JsParser (Option Node)}
  {iterateLoop : JsParser (List (Option Node))}

theorem goes_openBracket : Goes n (openBracket c expected expr) t fun _ t' => t'.length < t.length := by
  refine goes_next.bind fun r t' h => ?_
  split
  · split_ifs
    · exact goes_pure (lt_of_next h nofun)
    · exact goes_fail nofun
  · exact goes_unimplemented
  · exact goes_unimplemented

/-- A list or a body from its bracket on. -/
theorem goes_openBracket_iterate (ht : t.length ≤ n) :
    Goes n (openBracket c expected expr >>= fun _ => iterate loop) t fun _ t' => t'.length < t.length :=
  goes_openBracket.bind fun _ _ h => (goes_iterate (h.trans_le ht)).mono fun _ _ hle => hle.trans_lt h

theorem goes_leftHandSideExpression (ht : t.length ≤ n) : Goes n leftHandSideExpression t fun _ t' => Takes t t' := by
  refine goes_next.bind fun r t1 h => ?_
  have htakes := takes_of_next h
  split
  · exact goes_pure htakes
  · exact goes_pure htakes
  · exact goes_pure htakes
  · refine goes_peek.bind ?_
    rintro r _ ⟨rfl, -⟩
    split
    · exact goes_pure htakes
    · split_ifs
      · exact (goes_openBracket_iterate (htakes.1.trans ht)).bind fun _ t3 h3 => goes_pure (htakes.trans_le h3.le)
      · exact goes_pure htakes
  · exact goes_unimplemented

theorem goes_expression (ht : t.length ≤ n) : Goes n expression t fun _ t' => Takes t t' := by
  refine (goes_leftHandSideExpression ht).bind fun left t1 h1 => ?_
  refine goes_peek.bind ?_
  rintro r _ ⟨rfl, -⟩
  split
  · split_ifs
    · refine goes_consume.bind fun _ t3 h3 => ?_
      have htakes := h1.trans_le (length_le_of_consume h3)
      exact (goes_leftHandSideExpression (htakes.1.trans ht)).bind fun _ _ h4 => goes_pure (htakes.trans_le h4.1)
    · exact goes_consume.bind fun _ t3 h3 => goes_pure (h1.trans_le (length_le_of_consume h3))
    · exact goes_pure h1
    · exact goes_unimplemented
  · exact goes_pure h1

theorem goes_identifier : Goes n identifier t fun _ t' => Takes t t' := by
  refine (goes_next.mono fun _ _ h => takes_of_next h).bind fun r t1 h1 => ?_
  split
  · exact goes_pure h1
  · exact goes_pure h1

theorem goes_initialiser (ht : t.length ≤ n) : Goes n initialiser t fun _ t' => t'.length ≤ t.length := by
  refine (goes_next.mono fun _ _ h => length_getNextToken_le h).bind fun r t1 h1 => ?_
  split
  · split_ifs
    · exact (goes_expression (h1.trans ht)).mono fun _ _ h2 => h2.1.trans h1
    · exact goes_pure h1
  · exact goes_pure h1

theorem goes_variableDeclaration (ht : t.length ≤ n) :
    Goes n variableDeclaration t fun _ t' => t'.length ≤ t.length := by
  refine goes_identifier.bind fun _ t1 h1 => ?_
  exact (goes_initialiser (h1.1.trans ht)).bind fun _ _ h2 => goes_pure (h2.trans h1.1)

/-- The keywords a statement may begin with. -/
theorem goes_statementNode (ht : t.length ≤ n) (h : getNextToken t = .ok (some token, t'))
    (hfunction : token ≠ .keyword Reserved.function) : Goes n (statementNode token) t fun _ t'' => Takes t t'' := by
  have hexpression := goes_expression ht
  cases token with
  | keyword word =>
    have hlt : t'.length < t.length := lt_of_next h nofun
    have hmem := getNextToken_keyword h
    simp only [reservedWords, List.mem_cons, List.not_mem_nil, or_false] at hmem
    rcases hmem with rfl | rfl | rfl
    · refine goes_consume.bind fun _ t1 h1 => ?_
      obtain rfl := eq_of_consume h h1
      exact (goes_variableDeclaration (hlt.le.trans ht)).mono fun _ _ hle => .of_lt (hle.trans_lt hlt)
    · exact absurd rfl hfunction
    · refine goes_consume.bind fun _ t1 h1 => ?_
      obtain rfl := eq_of_consume h h1
      exact (goes_expression (hlt.le.trans ht)).bind fun _ _ h2 => goes_pure (.of_lt (h2.1.trans_lt hlt))
  | identifier name => exact hexpression.bind fun _ _ h1 => goes_pure h1
  | punctuator c => exact hexpression.bind fun _ _ h1 => goes_pure h1
  | stringLiteral value => exact hexpression.bind fun _ _ h1 => goes_pure h1
  | number value => exact hexpression.bind fun _ _ h1 => goes_pure h1

theorem goes_semicolon : Goes n semicolon t fun _ t' => t'.length ≤ t.length := by
  refine goes_peek.bind ?_
  rintro r _ ⟨rfl, -⟩
  split_ifs
  · exact goes_consume.mono fun _ _ h => length_le_of_consume h
  · exact goes_pure (le_refl _)

theorem goes_statement (ht : t.length ≤ n) (h : ∀ t', getNextToken t ≠ .ok (some (.keyword Reserved.function), t')) :
    Goes n statement t fun _ t' => Takes t t' := by
  refine goes_peek.bind ?_
  rintro r t1 ⟨rfl, t', hr⟩
  cases r with
  | none => exact goes_pure (⟨le_refl _, fun hblocked => absurd ⟨_, _, hr, .inl rfl⟩ hblocked⟩)
  | some token =>
    refine (goes_statementNode ht hr fun he => h t' (he ▸ hr)).bind fun node t2 h2 => ?_
    exact goes_semicolon.bind fun _ t3 h3 => goes_pure (h2.trans_le h3)

theorem goes_functionBody (ht : t.length ≤ n) : Goes n functionBody t fun _ t' => t'.length < t.length := by
  refine goes_openBracket.bind fun _ t1 h1 => ?_
  exact (goes_iterate (h1.trans_le ht)).bind fun _ _ h2 => goes_pure (h2.trans_lt h1)

theorem goes_functionDeclaration (ht : t.length ≤ n) :
    Goes n functionDeclaration t fun _ t' => t'.length ≤ t.length := by
  refine goes_identifier.bind fun _ t1 h1 => ?_
  refine (goes_openBracket_iterate (h1.1.trans ht)).bind fun _ t2 h2 => ?_
  have hle : t2.length ≤ t.length := h2.le.trans h1.1
  exact (goes_functionBody (hle.trans ht)).bind fun _ t3 h3 => goes_pure (h3.le.trans hle)

theorem goes_sourceElement (ht : t.length ≤ n) : Goes n sourceElement t fun _ t' => Takes t t' := by
  refine goes_peek.bind ?_
  rintro r t1 ⟨rfl, t', hr⟩
  cases r with
  | none => exact goes_pure (⟨le_refl _, fun hblocked => absurd ⟨_, _, hr, .inl rfl⟩ hblocked⟩)
  | some token =>
    dsimp only
    split_ifs with htoken
    · subst htoken
      have hlt : t'.length < t1.length := lt_of_next hr nofun
      refine goes_consume.bind fun _ t2 h2 => ?_
      obtain rfl := eq_of_consume hr h2
      exact (goes_functionDeclaration (hlt.le.trans ht)).mono fun _ _ hle => .of_lt (hle.trans_lt hlt)
    · refine goes_statement ht fun t'' h'' => htoken ?_
      cases hr.symm.trans h''
      rfl

/-! ## Iterations that take nothing -/

/-- In a list, before an empty name or a punctuator that has no place there. -/
def BlockedInList (t : List Char) : Prop :=
  ∃ token t', getNextToken t = .ok (some token, t') ∧
    (token = .identifier [] ∨ ∃ c, token = .punctuator c ∧ c ≠ ')' ∧ c ≠ ',')

/-- An iteration before something that its loop does not take. -/
def Stuck : JsLoop × List Char → Prop
  | (.functionBody, t) => Blocked t
  | (.arguments, t) => BlockedInList t
  | (.parameterList, t) => BlockedInList t
  | (.parseAst, t) => ∃ t', getNextToken t = .ok (some (.identifier []), t')

/-- An iteration that is not stuck has less input left for all it calls. -/
theorem goes_functionBodyLoop (h : ¬ Stuck (.functionBody, t)) :
    Goes t.length functionBodyLoop t fun _ t' => t'.length ≤ t.length := by
  refine goes_peek.bind ?_
  rintro r _ ⟨rfl, -⟩
  split_ifs
  · exact goes_consume.bind fun _ _ h2 => goes_pure (length_le_of_consume h2)
  · refine (goes_sourceElement (le_refl _)).bind fun _ t2 h2 => ?_
    exact (goes_iterate (h2.2 h)).bind fun _ _ h3 => goes_pure (h3.trans h2.1)

theorem goes_listLoop
    (hiterate : ∀ {t'}, t'.length < t.length → Goes t.length iterateLoop t' fun _ t'' => t''.length ≤ t'.length)
    (helement : Goes t.length element t fun _ t' => Takes t t') (h : ¬ BlockedInList t) :
    Goes t.length (listLoop iterateLoop element) t fun _ t' => t'.length ≤ t.length := by
  refine goes_peek.bind ?_
  rintro r t1 ⟨rfl, t', hr⟩
  split
  · rename_i c
    have hlt : t'.length < t1.length := lt_of_next hr nofun
    split_ifs with hclose hcomma
    · exact goes_consume.bind fun _ _ h2 => goes_pure (length_le_of_consume h2)
    · refine goes_consume.bind fun _ t2 h2 => ?_
      obtain rfl := eq_of_consume hr h2
      exact (hiterate hlt).mono fun _ _ hle => hle.trans hlt.le
    · exact absurd ⟨_, _, hr, .inr ⟨c, rfl, hclose, hcomma⟩⟩ h
  · rename_i token _
    have hblocked : ¬ Blocked t1 := by
      rintro ⟨_, _, hr', hempty⟩
      cases hr.symm.trans hr'
      rcases hempty with hempty | hempty
      · cases hempty
      · exact h ⟨_, _, hr, .inl (Option.some.inj hempty)⟩
    refine helement.bind fun _ t2 h2 => ?_
    exact (hiterate (h2.2 hblocked)).bind fun _ _ h3 => goes_pure (h3.trans h2.1)
  · exact goes_pure (le_refl _)

theorem goes_parseAstLoop (h : ¬ Stuck (.parseAst, t)) :
    Goes t.length parseAstLoop t fun _ t' => t'.length ≤ t.length := by
  by_cases hblocked : Blocked t
  · obtain ⟨r, t', hr, rfl | rfl⟩ := hblocked
    · -- at the end of the script there is no element
      have hnone : Goes t.length sourceElement t fun r t' => r = none ∧ t' = t := by
        refine goes_peek.bind ?_
        rintro r t1 ⟨rfl, t'', hr'⟩
        cases hr.symm.trans hr'
        exact goes_pure ⟨rfl, rfl⟩
      refine hnone.bind ?_
      rintro _ _ ⟨rfl, rfl⟩
      exact goes_pure (le_refl _)
    · exact absurd ⟨t', hr⟩ h
  · refine (goes_sourceElement (le_refl _)).bind fun r t1 h1 => ?_
    split
    · exact (goes_iterate (h1.2 hblocked)).bind fun _ _ h2 => goes_pure (h2.trans h1.1)
    · exact goes_pure h1.1

theorem goes_iteration (k : JsLoop × List Char) (h : ¬ Stuck k) :
    Within .diverges (fun k' => k'.2.length < k.2.length) (fun k r => r.2.length ≤ k.2.length)
      (fun r => r.2.length ≤ k.2.length) (iteration k) := by
  obtain ⟨loop, t⟩ := k
  cases loop with
  | functionBody => exact goes_functionBodyLoop h
  | arguments => exact goes_listLoop goes_iterate (goes_expression (le_refl _)) h
  | parameterList => exact goes_listLoop goes_iterate goes_identifier h
  | parseAst => exact goes_parseAstLoop h

section

variable (h : getNextToken t = .ok (some (.identifier []), t'))

include h

theorem expression_empty : expression t = pure (none, t') := by
  have h' := getNextToken_empty h
  have hleft : leftHandSideExpression t = pure (some (.identifier []), t') := by
    rw [leftHandSideExpression, bind_eq (next_eq h)]
    exact (bind_eq (peek_eq h')).trans rfl
  rw [expression, bind_eq hleft]
  exact (bind_eq (peek_eq h')).trans rfl

theorem identifier_empty : identifier t = pure (some (.identifier []), t') := by
  rw [identifier, bind_eq (next_eq h)]
  rfl

theorem sourceElement_empty : sourceElement t = pure (some (.expressionStatement none), t') := by
  have hnode : statementNode (.identifier []) t = pure (some (.expressionStatement none), t') := by
    show (expression >>= _) t = _
    rw [bind_eq (expression_empty h)]
    rfl
  have hsemicolon : semicolon t' = pure ((), t') := by
    rw [semicolon]
    exact (bind_eq (peek_eq (getNextToken_empty h))).trans rfl
  rw [sourceElement]
  refine (bind_eq (peek_eq h)).trans ?_
  rw [statement]
  refine (bind_eq (peek_eq h)).trans ?_
  dsimp only
  rw [bind_eq hnode, bind_eq hsemicolon]
  rfl

end

theorem sourceElement_end (h : getNextToken t = .ok (none, t')) : sourceElement t = pure (none, t) := by
  rw [sourceElement]
  exact (bind_eq (peek_eq h)).trans rfl

theorem listLoop_enters (hiterate : ∀ t, Enters iteration .diverges (iterateLoop t) (loop, t))
    (hthen : ∀ (f : List (Option Node) → JsParser (List (Option Node))) t,
      Enters iteration .diverges ((iterateLoop >>= f) t) (loop, t))
    (helement : ∀ t t', getNextToken t = .ok (some (.identifier []), t') → ∃ node, element t = pure (node, t'))
    (h : BlockedInList t) :
    ∃ t', Enters iteration .diverges (listLoop iterateLoop element t) (loop, t') ∧ BlockedInList t' := by
  obtain ⟨_, t', ht, rfl | ⟨c, rfl, hclose, hcomma⟩⟩ := h
  · obtain ⟨_, hnode⟩ := helement t t' ht
    refine ⟨t', ?_, _, _, getNextToken_empty ht, .inl rfl⟩
    unfold listLoop
    rw [bind_eq (peek_eq ht)]
    dsimp only
    rw [bind_eq hnode]
    exact hthen _ t'
  · refine ⟨t, ?_, _, _, ht, .inr ⟨c, rfl, hclose, hcomma⟩⟩
    unfold listLoop
    rw [bind_eq (peek_eq ht)]
    dsimp only
    rw [if_neg hclose, if_neg hcomma]
    exact hiterate t

/-- An iteration that is stuck goes on with one that is. -/
theorem stuck_calls (k : JsLoop × List Char) (h : Stuck k) : ∃ k', Calls iteration .diverges k k' ∧ Stuck k' := by
  obtain ⟨loop, t⟩ := k
  cases loop with
  | functionBody =>
    obtain ⟨r, t', hr, hblocked⟩ := h
    obtain ⟨node, t1, hnode, ht1⟩ : ∃ node t1, sourceElement t = pure (node, t1) ∧ Blocked t1 := by
      rcases hblocked with rfl | rfl
      · exact ⟨_, t, sourceElement_end hr, _, _, hr, .inl rfl⟩
      · exact ⟨_, t', sourceElement_empty hr, _, _, getNextToken_empty hr, .inr rfl⟩
    have hne : r ≠ some (.punctuator '\x7d') := by
      rcases hblocked with rfl | rfl
      · exact nofun
      · exact nofun
    refine ⟨(.functionBody, t1), ?_, ht1⟩
    show Enters _ _ (functionBodyLoop t) _
    rw [functionBodyLoop, bind_eq (peek_eq hr), if_neg hne, bind_eq hnode]
    exact .here
  | arguments =>
    obtain ⟨t', henters, ht'⟩ := listLoop_enters (fun _ => .here) (fun _ _ => .here)
      (fun _ _ h => ⟨_, expression_empty h⟩) h
    exact ⟨(.arguments, t'), henters, ht'⟩
  | parameterList =>
    obtain ⟨t', henters, ht'⟩ := listLoop_enters (fun _ => .here) (fun _ _ => .here)
      (fun _ _ h => ⟨_, identifier_empty h⟩) h
    exact ⟨(.parameterList, t'), henters, ht'⟩
  | parseAst =>
    obtain ⟨t', ht⟩ := h
    refine ⟨(.parseAst, t'), ?_, t', getNextToken_empty ht⟩
    show Enters _ _ (parseAstLoop t) _
    rw [parseAstLoop, bind_eq (sourceElement_empty ht)]
    exact .here

end

/-! ## The whole script -/

/-- The iterations that are made when a script is parsed. -/
def Reached (js : List Char) (k : JsLoop × List Char) : Prop :=
  Relation.ReflTransGen (Calls iteration .diverges) (.parseAst, js) k

theorem parseAst_eq_diverges (depth : Nat) (js : List Char) :
    parseAst depth js = .error .diverges ↔ run iteration .diverges depth (.parseAst, js) = .error .diverges := by
  rw [parseAst]
  cases run iteration .diverges depth (.parseAst, js) with
  | error e => exact ⟨fun h => congrArg _ (Except.error.inj h), fun h => congrArg _ (Except.error.inj h)⟩
  | ok x => constructor <;> rintro ⟨⟩

/-- In a script that is written from statements no iteration is stuck. -/
theorem not_stuck_of_prints {js : List Char} {nodes : List Node} (hnodes : ∀ node ∈ nodes, node.IsStatement)
    (hjs : Prints (nodes.flatMap Node.tokens) js) {k : JsLoop × List Char} (hk : Reached js k) : ¬ Stuck k := by
  obtain ⟨n, t, hn⟩ := run_prints hnodes hjs
  refine (ends_iff stuck_calls goes_iteration (.parseAst, js)).1 ⟨n, ?_⟩ k hk
  rw [hn n (le_refl n)]
  rintro ⟨⟩

/-- Parsing comes to an end exactly if no iteration stands before something that its loop does not take, and it is then
that every iteration leaves less input for those that come within it and after it. It is so for every script that is
written from statements. -/
theorem parseAst_ends_iff (js : List Char) :
    ((∃ depth, parseAst depth js ≠ .error .diverges) ↔ ∀ k, Reached js k → ¬ Stuck k) ∧
    ((∀ k k', Reached js k → Calls iteration .diverges k k' → k'.2.length < k.2.length) ↔
      ∀ k, Reached js k → ¬ Stuck k) ∧
    ∀ nodes : List Node, (∀ node ∈ nodes, node.IsStatement) → Prints (nodes.flatMap Node.tokens) js →
      ∀ k, Reached js k → ¬ Stuck k := by
  refine ⟨?_, decreases_iff stuck_calls goes_iteration (.parseAst, js),
    fun nodes hnodes hjs k => not_stuck_of_prints hnodes hjs⟩
  simp only [ne_eq, parseAst_eq_diverges]
  exact ends_iff stuck_calls goes_iteration (.parseAst, js)

/-- A semicolon among the arguments of a call is neither taken nor refused. -/
theorem parseAst_arguments_diverges : ¬ ∃ depth, parseAst depth "f(;".toList ≠ .error .diverges := by
  rintro ⟨depth, hends⟩
  have hcalls : Calls iteration .diverges (.parseAst, "f(;".toList) (.arguments, [';']) := by
    exact .here
  have hstuck : Stuck (.arguments, [';']) := ⟨.punctuator ';', [], rfl, .inr ⟨';', rfl, by decide, by decide⟩⟩
  rw [ne_eq, parseAst_eq_diverges] at hends
  obtain ⟨n, hn⟩ := ends_of_reaches ⟨depth, hends⟩ (.single hcalls)
  exact hn (run_of_stuck stuck_calls n _ hstuck)

end JsParser

end Liumos.Saji
