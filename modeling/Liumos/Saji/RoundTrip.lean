/-
Scripts that are written as text and parsed again. No space is needed between tokens, since a reserved word is
found wherever one begins, and a name or a number always has a punctuator after it.
-/
import Liumos.Saji.Ast
import Liumos.Saji.Lexer

namespace Liumos.Saji

open Procedure JsLexer List

/-! ## Tokens as text -/

/-- How a token is written. -/
def Token.text : Token → List Char
  | identifier name => name
  | keyword word => word
  | punctuator c => [c]
  | stringLiteral value => '"' :: (value ++ ['"'])
  | number value => Nat.toDigits 10 value.toNat

/-- A name that does not begin with a reserved word. -/
structure IsIdentifier (name : List Char) : Prop where
  start : ∃ c rest, name = c :: rest ∧ (c.isAlpha = true ∨ c = '$')
  part : ∀ c ∈ name, c.isAlphanum = true ∨ c = '$'
  reserved : ∀ word ∈ reservedWords, ¬ word <+: name

/-- A text of tokens with any spaces. -/
abbrev Prints (tokens : List Token) (t : List Char) : Prop := Scan.Prints isSpace Token.text tokens t

/-- A punctuator comes next. -/
def Punctuated (tokens : List Token) : Prop := ∃ c rest, tokens = .punctuator c :: rest ∧ isPunctuator c = true

/-- The token is read back if `tokens` come after it. -/
def Token.Readable (tokens : List Token) : Token → Prop
  | identifier name => IsIdentifier name ∧ Punctuated tokens
  | keyword word => word ∈ reservedWords
  | punctuator c => isPunctuator c = true
  | stringLiteral value => ∀ c ∈ value, c ≠ '"'
  | number _ => Punctuated tokens

namespace JsLexer

variable {P : Char → Bool} {token : Token} {tokens : List Token} {t : List Char}

/-- A run of characters that are neither spaces nor punctuators ends before a punctuator. -/
theorem stops_of_punctuated (h : Prints tokens t) (htokens : Punctuated tokens)
    (hspace : ∀ d ∈ [' ', '\n'], P d = false)
    (hpunctuator : ∀ d ∈ ['+', '-', ';', '=', '(', ')', '\x7b', '\x7d', ','], P d = false) : Scan.Stops P t := by
  obtain ⟨_, _, rfl, hc⟩ := htokens
  refine h.stops (fun d hd => of_isSpace hd hspace) ?_
  rintro _ ⟨⟩ rest'
  exact Scan.stops_cons.2 (of_isPunctuator hc hpunctuator)

theorem exists_cons_of_punctuated (h : Prints tokens t) (htokens : Punctuated tokens) : ∃ c rest, t = c :: rest := by
  obtain ⟨c, _, rfl, -⟩ := htokens
  exact exists_cons_of_ne_nil (h.ne_nil (cons_ne_nil c []))

/-! ## Tokens are read back -/

theorem toDigits_cons (n : Nat) : ∃ c digits, Nat.toDigits 10 n = c :: digits ∧ c.isDigit = true := by
  obtain ⟨c, digits, h⟩ := exists_cons_of_ne_nil (Nat.toDigits_ne_nil (n := n) (b := 10))
  have hmem : c ∈ Nat.toDigits 10 n := by
    rw [h]
    exact mem_cons_self
  exact ⟨c, digits, h, Nat.isDigit_of_mem_toDigits (by decide) (by decide) hmem⟩

/-- The first character of a token is no space. -/
theorem stops_text (h : token.Readable tokens) (rest : List Char) : Scan.Stops isSpace (token.text ++ rest) := by
  cases token with
  | identifier name =>
    obtain ⟨c, _, rfl, hc⟩ := h.1.start
    exact Scan.stops_cons.2 (isSpace_eq_false (fun c => c.isAlpha || c == '$') (by simpa using hc) (by simp))
  | keyword word =>
    have hwords : ∀ w ∈ reservedWords, ∃ c s, w = c :: s ∧ isSpace c = false := by
      simp [reservedWords, Reserved.var, Reserved.function, Reserved.return, isSpace]
    obtain ⟨c, _, rfl, hc⟩ := hwords word h
    exact Scan.stops_cons.2 hc
  | punctuator c => exact Scan.stops_cons.2 (of_isPunctuator h (by simp [isSpace]))
  | stringLiteral value => exact Scan.stops_cons.2 rfl
  | number value =>
    obtain ⟨_, _, hdigits, hc⟩ := toDigits_cons value.toNat
    rw [Token.text, hdigits]
    exact Scan.stops_cons.2 (isSpace_eq_false Char.isDigit hc (by simp))

theorem getNextToken_text (h : Prints (token :: tokens) t) (hreadable : token.Readable tokens) :
    ∃ t', getNextToken t = .ok (some token, t') ∧ Prints tokens t' := by
  obtain ⟨rest, hdrop, hrest⟩ := h.dropWhile_cons (stops_text hreadable)
  refine ⟨rest, ?_, hrest⟩
  cases token with
  | identifier name =>
    obtain ⟨⟨⟨c, name', rfl, hc⟩, hpart, hreserved⟩, hpunctuated⟩ := hreadable
    obtain ⟨d, rest', rfl⟩ := exists_cons_of_punctuated hrest hpunctuated
    have hstops : Scan.Stops isIdentifierPart (d :: rest') :=
      stops_of_punctuated hrest hpunctuated (by simp [isIdentifierPart])
      (by simp [isIdentifierPart])
    have hname : ∀ e ∈ c :: name', isIdentifierPart e = true := by simpa [isIdentifierPart] using hpart
    exact getNextToken_name hdrop hc hname (Scan.stops_cons.1 hstops) hreserved
  | keyword word => exact getNextToken_reserved hdrop hreadable
  | punctuator c =>
    have hletter : c.isAlpha = false := of_isPunctuator hreadable (by simp)
    refine getNextToken_of_tokenAt hdrop (fun word hword => contains_other hword hletter) ?_
    rw [tokenAt, if_pos (show isPunctuator c = true from hreadable)]
    rfl
  | stringLiteral value =>
    refine getNextToken_of_tokenAt hdrop (fun word hword => contains_other hword rfl) ?_
    have hvalue : ∀ c ∈ value, (c != '"') = true := by simpa [Token.Readable] using hreadable
    have hstops : Scan.Stops (· != '"') ('"' :: rest) := Scan.stops_cons.2 rfl
    have hconsume : consumeString (value ++ ['"'] ++ rest) = (value, rest) := by
      rw [append_assoc]
      show ((value ++ '"' :: rest).takeWhile _, ((value ++ '"' :: rest).dropWhile _).tail) = _
      rw [Scan.takeWhile_append hvalue hstops, Scan.dropWhile_append hvalue hstops]
      rfl
    show Except.ok (Token.stringLiteral (consumeString (value ++ ['"'] ++ rest)).1,
      (consumeString (value ++ ['"'] ++ rest)).2) = _
    rw [hconsume]
  | number value =>
    obtain ⟨c, digits, hdigits, hc⟩ := toDigits_cons value.toNat
    have hstops : Scan.Stops Char.isDigit rest := stops_of_punctuated hrest hreadable (by simp) (by simp)
    have hconsume : consumeNumber (c :: (digits ++ rest)) = (value, rest) := by
      have hnumber := Scan.number_toDigits value hstops
      rwa [hdigits] at hnumber
    have hletter : c.isAlpha = false := by
      cases h : c.isAlpha with
      | false => rfl
      | true => cases hc.symm.trans (Scan.isDigit_of_isAlpha h)
    rw [Token.text, hdigits] at hdrop
    refine getNextToken_of_tokenAt hdrop (fun word hword => contains_other hword hletter) ?_
    have hquote : c ≠ '"' := by
      rintro rfl
      cases hc
    show tokenAt c (digits ++ rest) = _
    rw [tokenAt, isPunctuator_eq_false Char.isDigit hc (by simp), if_neg Bool.false_ne_true, if_neg hquote,
      if_pos hc, hconsume]

theorem getNextToken_end (h : Prints [] t) : getNextToken t = .ok (none, []) := by
  unfold getNextToken
  rw [h.dropWhile_nil]

end JsLexer

/-! ## Scripts as tokens -/

namespace Node

mutual

/-- How a node is written, with a semicolon after every simple statement. -/
def tokens : Node → List Token
  | expressionStatement expression => optionTokens expression ++ [.punctuator ';']
  | blockStatement body => .punctuator '\x7b' :: (allTokens body ++ [.punctuator '\x7d'])
  | returnStatement argument => .keyword Reserved.return :: (optionTokens argument ++ [.punctuator ';'])
  | functionDeclaration id params body =>
    .keyword Reserved.function :: (optionTokens id ++ .punctuator '(' ::
      (listTokens params ++ .punctuator ')' :: optionTokens body))
  | variableDeclaration declarations => .keyword Reserved.var :: (allTokens declarations ++ [.punctuator ';'])
  | variableDeclarator id init => optionTokens id ++ .punctuator '=' :: optionTokens init
  | binaryExpression operator left right => optionTokens left ++ .punctuator operator :: optionTokens right
  | callExpression callee arguments => optionTokens callee ++ .punctuator '(' ::
      (listTokens arguments ++ [.punctuator ')'])
  | identifier name => [.identifier name]
  | numericLiteral value => [.number value]
  | stringLiteral value => [.stringLiteral value]

def optionTokens : Option Node → List Token
  | none => []
  | some node => tokens node

/-- Nodes one after the other. -/
def allTokens : List (Option Node) → List Token
  | [] => []
  | node :: nodes => optionTokens node ++ allTokens nodes

/-- Nodes with commas between them. -/
def listTokens : List (Option Node) → List Token
  | [] => []
  | node :: nodes => optionTokens node ++ moreTokens nodes

def moreTokens : List (Option Node) → List Token
  | [] => []
  | node :: nodes => .punctuator ',' :: (optionTokens node ++ moreTokens nodes)

end

mutual

/-- A number, a string, a name, or a call of a name. -/
inductive IsAtom : Node → Prop
  | number (value : Word) : IsAtom (.numericLiteral value)
  | string {value : List Char} : (∀ c ∈ value, c ≠ '"') → IsAtom (.stringLiteral value)
  | name {name : List Char} : IsIdentifier name → IsAtom (.identifier name)
  | call {callee : List Char} {arguments : List (Option Node)} : IsIdentifier callee → AllExpressions arguments →
      IsAtom (.callExpression (some (.identifier callee)) arguments)

/-- An atom, or two of them with `+` or `-` between them: the parser does not go on after the second one. -/
inductive IsExpression : Node → Prop
  | atom {node : Node} : IsAtom node → IsExpression node
  | binary {operator : Char} {left right : Node} : operator = '+' ∨ operator = '-' → IsAtom left → IsAtom right →
      IsExpression (.binaryExpression operator (some left) (some right))

/-- The arguments of a call. -/
inductive AllExpressions : List (Option Node) → Prop
  | nil : AllExpressions []
  | cons {node : Node} {nodes : List (Option Node)} : IsExpression node → AllExpressions nodes →
      AllExpressions (some node :: nodes)

end

mutual

/-- A declaration with its initialiser, a return with its argument, an expression, or a function of such statements. -/
inductive IsStatement : Node → Prop
  | var {name : List Char} {init : Node} : IsIdentifier name → IsExpression init →
      IsStatement (.variableDeclaration [some (.variableDeclarator (some (.identifier name)) (some init))])
  | return {argument : Node} : IsExpression argument → IsStatement (.returnStatement (some argument))
  | expression {node : Node} : IsExpression node → IsStatement (.expressionStatement (some node))
  | function {name : List Char} {params : List (List Char)} {body : List (Option Node)} : IsIdentifier name →
      (∀ param ∈ params, IsIdentifier param) → AllStatements body →
      IsStatement (.functionDeclaration (some (.identifier name)) (params.map fun param => some (.identifier param))
        (some (.blockStatement body)))

/-- A script, or the body of a function. -/
inductive AllStatements : List (Option Node) → Prop
  | nil : AllStatements []
  | cons {node : Node} {nodes : List (Option Node)} : IsStatement node → AllStatements nodes →
      AllStatements (some node :: nodes)

end

end Node

namespace JsParser

/-! ## Expressions are parsed -/

/-- The function returns `a` and leaves `t'`. -/
def Gives {α : Type} (p : JsParser α) (t : List Char) (a : α) (t' : List Char) : Prop :=
  Returns iteration .diverges (p t) (a, t')

/-- From any text with `P` the function returns `a`, and what it leaves has `Q`. -/
def Parses {α : Type} (p : JsParser α) (P : List Char → Prop) (a : α) (Q : List Char → Prop) : Prop :=
  ∀ t, P t → ∃ t', Gives p t a t' ∧ Q t'

section

variable {α β : Type} {p : JsParser α} {P Q R : List Char → Prop} {t t' t'' : List Char} {a : α} {token : Token}
  {tokens : List Token}

theorem gives_of_eq (h : p t = pure (a, t')) : Gives p t a t' := by
  rw [Gives, h]
  exact returns_pure _

theorem Gives.bind {f : α → JsParser β} {b : β} (h : Gives p t a t') (hf : Gives (f a) t' b t'') :
    Gives (p >>= f) t b t'' := by
  exact Returns.bind (f := fun x : α × List Char => f x.1 x.2) (a := (a, t')) h hf

theorem Parses.bind {f : α → JsParser β} {b : β} (h : Parses p P a Q) (hf : Parses (f a) Q b R) :
    Parses (p >>= f) P b R := by
  intro t ht
  obtain ⟨t', hp, ht'⟩ := h t ht
  obtain ⟨t'', hf', ht''⟩ := hf t' ht'
  exact ⟨t'', hp.bind hf', ht''⟩

theorem parses_pure : Parses (pure a) P a P := fun t ht => ⟨t, gives_of_eq rfl, ht⟩

theorem parses_iterate (loop : JsLoop) {nodes : loop.Nodes} (h : Parses (fun t => iteration (loop, t)) P nodes Q) :
    Parses (iterate loop) P nodes Q := by
  intro t ht
  obtain ⟨t', hreturns, ht'⟩ := h t ht
  exact ⟨t', .call hreturns, ht'⟩

theorem parses_next (h : token.Readable tokens) :
    Parses next (Prints (token :: tokens)) (some token) (Prints tokens) := by
  intro t ht
  obtain ⟨t', hnext, ht'⟩ := getNextToken_text ht h
  exact ⟨t', gives_of_eq (next_eq hnext), ht'⟩

theorem parses_peek (h : token.Readable tokens) :
    Parses peek (Prints (token :: tokens)) (some token) (Prints (token :: tokens)) := by
  intro t ht
  obtain ⟨_, hnext, -⟩ := getNextToken_text ht h
  exact ⟨t, gives_of_eq (peek_eq hnext), ht⟩

theorem parses_consume (h : token.Readable tokens) : Parses consume (Prints (token :: tokens)) () (Prints tokens) :=
  (parses_next h).bind parses_pure

theorem readable_char (c : Char) (h : isPunctuator c = true) : (Token.punctuator c).Readable tokens := h

variable {c : Char}

theorem readable_name {name : List Char} (hname : IsIdentifier name) (hc : isPunctuator c = true) :
    (Token.identifier name).Readable (.punctuator c :: tokens) := ⟨hname, c, tokens, rfl, hc⟩

theorem readable_word {word : List Char} (h : word ∈ reservedWords) : (Token.keyword word).Readable tokens := h

theorem parses_openBracket {expected expr : String} (hc : isPunctuator c = true) :
    Parses (openBracket c expected expr) (Prints (.punctuator c :: tokens)) () (Prints tokens) := by
  refine (parses_next (readable_char c hc)).bind ?_
  dsimp only
  rw [if_pos rfl]
  exact parses_pure

end

/-- A token that begins an expression. -/
def Begins (token : Token) : Prop := (∀ c, token ≠ .punctuator c) ∧ ∀ word, token ≠ .keyword word

variable {node : Node} {rest tokens : List Token} {name : List Char} {nodes : List (Option Node)} {token : Token}

/-- The first token of an expression can be read. -/
theorem first_atom (h : node.IsAtom) (hrest : Punctuated rest) :
    ∃ token tokens, node.tokens ++ rest = token :: tokens ∧ token.Readable tokens ∧ Begins token := by
  cases h with
  | number value => exact ⟨.number value, rest, rfl, hrest, nofun, nofun⟩
  | @string value hvalue => exact ⟨.stringLiteral value, rest, rfl, hvalue, nofun, nofun⟩
  | @name name hname => exact ⟨.identifier name, rest, rfl, ⟨hname, hrest⟩, nofun, nofun⟩
  | @call callee arguments hcallee _ => exact ⟨.identifier callee, _, rfl, ⟨hcallee, '(', _, rfl, rfl⟩, nofun, nofun⟩

theorem first_expression (h : node.IsExpression) (hrest : Punctuated rest) :
    ∃ token tokens, node.tokens ++ rest = token :: tokens ∧ token.Readable tokens ∧ Begins token := by
  cases h with
  | atom h => exact first_atom h hrest
  | @binary operator left right hoperator hleft _ =>
    have hpunctuator : isPunctuator operator = true := by rcases hoperator with rfl | rfl <;> rfl
    have hnext : Punctuated (.punctuator operator :: (right.tokens ++ rest)) := ⟨operator, _, rfl, hpunctuator⟩
    obtain ⟨token, tokens, htokens, hfirst⟩ := first_atom hleft hnext
    refine ⟨token, tokens, ?_, hfirst⟩
    rw [← htokens, Node.tokens, Node.optionTokens, Node.optionTokens, append_assoc, cons_append]

/-- Up to the punctuator after it an atom is returned, and that is left. -/
def AtomGives (node : Node) : Prop := ∀ c tokens t, isPunctuator c = true → c ≠ '(' →
  Prints (node.tokens ++ .punctuator c :: tokens) t →
    ∃ t', Gives leftHandSideExpression t (some node) t' ∧ Prints (.punctuator c :: tokens) t'

/-- Up to the comma or the parenthesis after it an expression is returned, and that is left. -/
def ExpressionGives (node : Node) : Prop :=
  ∀ c tokens t, c = ',' ∨ c = ')' → Prints (node.tokens ++ .punctuator c :: tokens) t →
  ∃ t', Gives expression t (some node) t' ∧ Prints (.punctuator c :: tokens) t'

/-- A semicolon after an expression is taken with it or not. -/
def ExpressionEnds (node : Node) : Prop := ∀ tokens t, Prints (node.tokens ++ .punctuator ';' :: tokens) t →
  ∃ t', Gives expression t (some node) t' ∧ (Prints (.punctuator ';' :: tokens) t' ∨ Prints tokens t')

section

variable {node : Node} {c : Char} {tokens : List Token}

theorem AtomGives.parses (h : AtomGives node) (hc : isPunctuator c = true) (hne : c ≠ '(') :
    Parses leftHandSideExpression (Prints (node.tokens ++ .punctuator c :: tokens)) (some node)
      (Prints (.punctuator c :: tokens)) :=
  fun t => h c tokens t hc hne

theorem atomGives_number (value : Word) : AtomGives (.numericLiteral value) := by
  intro c tokens t hc _
  have hreadable : (Token.number value).Readable (.punctuator c :: tokens) := ⟨c, tokens, rfl, hc⟩
  have hnode : Parses leftHandSideExpression _ _ _ := (parses_next hreadable).bind parses_pure
  exact hnode t

theorem atomGives_string {value : List Char} (hvalue : ∀ c ∈ value, c ≠ '"') : AtomGives (.stringLiteral value) := by
  intro c tokens t _ _
  have hreadable : (Token.stringLiteral value).Readable (.punctuator c :: tokens) := hvalue
  have hnode : Parses leftHandSideExpression _ _ _ := (parses_next hreadable).bind parses_pure
  exact hnode t

theorem atomGives_name {name : List Char} (hname : IsIdentifier name) : AtomGives (.identifier name) := by
  intro c tokens t hc hne
  refine (parses_next (readable_name hname hc)).bind ((parses_peek (readable_char c hc)).bind ?_) t
  show Parses (if _ then _ else _) _ _ _
  rw [if_neg fun he => hne (Token.punctuator.inj he)]
  exact parses_pure

/-- Both operands, whatever punctuator comes after them. -/
theorem binary_gives {operator : Char} {left right : Node} (hoperator : operator = '+' ∨ operator = '-')
    (hleft : AtomGives left) (hright : AtomGives right) (hc : isPunctuator c = true) (hne : c ≠ '(') :
    Parses expression (Prints ((Node.binaryExpression operator (some left) (some right)).tokens ++ .punctuator c ::
      tokens)) (some (.binaryExpression operator (some left) (some right))) (Prints (.punctuator c :: tokens)) := by
  obtain ⟨hpunctuator, hne'⟩ : isPunctuator operator = true ∧ operator ≠ '(' := by
    rcases hoperator with rfl | rfl
    · exact ⟨rfl, by decide⟩
    · exact ⟨rfl, by decide⟩
  rw [Node.tokens, Node.optionTokens, Node.optionTokens, append_assoc, cons_append]
  refine (hleft.parses hpunctuator hne').bind ((parses_peek (readable_char operator hpunctuator)).bind ?_)
  show Parses (if _ then _ else _) _ _ _
  rw [if_pos hoperator]
  exact (parses_consume (readable_char operator hpunctuator)).bind ((hright.parses hc hne).bind parses_pure)

theorem AtomGives.expressionGives (h : AtomGives node) : ExpressionGives node := by
  intro c tokens t hc
  have hpunctuator : isPunctuator c = true ∧ c ≠ '(' := by
    rcases hc with rfl | rfl
    · exact ⟨rfl, by decide⟩
    · exact ⟨rfl, by decide⟩
  refine (h.parses hpunctuator.1 hpunctuator.2).bind ((parses_peek (readable_char c hpunctuator.1)).bind ?_) t
  rcases hc with rfl | rfl
  · exact parses_pure
  · exact parses_pure

theorem AtomGives.expressionEnds (h : AtomGives node) : ExpressionEnds node := by
  intro tokens t ht
  have hexpression : Parses expression (Prints (node.tokens ++ .punctuator ';' :: tokens)) (some node)
      (Prints tokens) :=
    (h.parses rfl (by decide)).bind
      ((parses_peek (readable_char ';' rfl)).bind ((parses_consume (readable_char ';' rfl)).bind parses_pure))
  obtain ⟨t', hgives, ht'⟩ := hexpression t ht
  exact ⟨t', hgives, .inr ht'⟩

end

/-! ## Lists are parsed -/

/-- An element begins with a token that is no punctuator, and is returned up to a comma or the closing parenthesis. -/
def ElementGives (element : JsParser (Option Node)) (node : Option Node) : Prop :=
  ∀ c tokens t, c = ',' ∨ c = ')' → Prints (Node.optionTokens node ++ .punctuator c :: tokens) t →
    (∃ token t', getNextToken t = .ok (some token, t') ∧ ∀ d, token ≠ .punctuator d) ∧
      ∃ t', Gives element t node t' ∧ Prints (.punctuator c :: tokens) t'

section

variable {iterateLoop : JsParser (List (Option Node))} {element : JsParser (Option Node)} {tokens : List Token}
  {t : List Char}

theorem listLoop_close :
    Parses (listLoop iterateLoop element) (Prints (.punctuator ')' :: tokens)) [] (Prints tokens) :=
  (parses_peek (readable_char ')' rfl)).bind ((parses_consume (readable_char ')' rfl)).bind parses_pure)

theorem listLoop_element_eq {token : Token} {t' : List Char} (h : getNextToken t = .ok (some token, t'))
    (hne : ∀ c, token ≠ .punctuator c) :
    listLoop iterateLoop element t = (element >>= fun node => iterateLoop >>= fun nodes => pure (node :: nodes)) t := by
  unfold listLoop
  rw [bind_eq (peek_eq h)]
  cases token with
  | punctuator c => exact absurd rfl (hne c)
  | identifier name => rfl
  | keyword word => rfl
  | stringLiteral value => rfl
  | number value => rfl

theorem listLoop_element {node : Option Node} {nodes : List (Option Node)} {c : Char} {Q : List Char → Prop}
    (h : ElementGives element node) (hc : c = ',' ∨ c = ')')
    (hrest : Parses iterateLoop (Prints (.punctuator c :: tokens)) nodes Q) :
    Parses (listLoop iterateLoop element) (Prints (Node.optionTokens node ++ .punctuator c :: tokens))
      (node :: nodes) Q := by
  intro t ht
  obtain ⟨⟨_, _, htoken, hne⟩, t1, hnode, ht1⟩ := h c tokens t hc ht
  obtain ⟨t2, hnodes, ht2⟩ := hrest t1 ht1
  refine ⟨t2, ?_, ht2⟩
  rw [Gives, listLoop_element_eq htoken hne]
  exact hnode.bind (hnodes.bind (gives_of_eq rfl))

variable (hiterate : ∀ {P nodes Q}, Parses (listLoop iterateLoop element) P nodes Q → Parses iterateLoop P nodes Q)

include hiterate

/-- The elements of a list, and the closing parenthesis. -/
theorem listLoop_gives : ∀ {nodes : List (Option Node)}, (∀ node ∈ nodes, ElementGives element node) →
    Parses (listLoop iterateLoop element) (Prints (Node.listTokens nodes ++ .punctuator ')' :: tokens))
      nodes (Prints tokens)
  | [], _ => listLoop_close
  | node :: [], hnodes => by
    rw [Node.listTokens, Node.moreTokens, append_nil]
    exact listLoop_element (hnodes node mem_cons_self) (.inr rfl) (hiterate listLoop_close)
  | node :: node' :: nodes, hnodes => by
    have hmore : Node.listTokens (node :: node' :: nodes) ++ .punctuator ')' :: tokens =
        Node.optionTokens node ++ .punctuator ',' ::
        (Node.listTokens (node' :: nodes) ++ .punctuator ')' :: tokens) := by
      simp only [Node.listTokens, Node.moreTokens, append_assoc, cons_append]
    rw [hmore]
    refine listLoop_element (hnodes node mem_cons_self) (.inl rfl) (hiterate ?_)
    have hrest := listLoop_gives fun n hn => hnodes n (mem_cons_of_mem node hn)
    exact (parses_peek (readable_char ',' rfl)).bind ((parses_consume (readable_char ',' rfl)).bind (hiterate hrest))

end

theorem elementGives_expression (hnode : node.IsExpression) (h : ExpressionGives node) :
    ElementGives expression (some node) := by
  intro c tokens t hc ht
  have hpunctuator : isPunctuator c = true := by rcases hc with rfl | rfl <;> rfl
  obtain ⟨token, tokens', htokens, hreadable, hbegins, -⟩ := first_expression hnode ⟨c, tokens, rfl, hpunctuator⟩
  have hprints : Prints (token :: tokens') t := by rwa [← htokens]
  obtain ⟨t', hnext, -⟩ := getNextToken_text hprints hreadable
  exact ⟨⟨token, t', hnext, hbegins⟩, h c tokens t hc ht⟩

theorem parses_identifier {c : Char} (hname : IsIdentifier name) (hc : isPunctuator c = true) :
    Parses identifier (Prints (.identifier name :: .punctuator c :: tokens)) (some (.identifier name))
      (Prints (.punctuator c :: tokens)) :=
  (parses_next (readable_name hname hc)).bind parses_pure

theorem elementGives_identifier (hname : IsIdentifier name) : ElementGives identifier (some (.identifier name)) := by
  intro c tokens t hc ht
  have hpunctuator : isPunctuator c = true := by rcases hc with rfl | rfl <;> rfl
  obtain ⟨t', hnext, -⟩ := getNextToken_text ht ⟨hname, c, tokens, rfl, hpunctuator⟩
  exact ⟨⟨_, t', hnext, nofun⟩, parses_identifier hname hpunctuator t ht⟩

theorem atomGives_call {callee : List Char} (hcallee : IsIdentifier callee)
    (hnodes : ∀ node ∈ nodes, ElementGives expression node) :
    AtomGives (.callExpression (some (.identifier callee)) nodes) := by
  intro c tokens t _ _
  have htokens : (Node.callExpression (some (.identifier callee)) nodes).tokens ++ .punctuator c :: tokens =
      .identifier callee :: .punctuator '(' ::
      (Node.listTokens nodes ++ .punctuator ')' :: .punctuator c :: tokens) := by
    simp [Node.tokens, Node.optionTokens]
  rw [htokens]
  refine (parses_next (readable_name hcallee rfl)).bind ((parses_peek (readable_char '(' rfl)).bind ?_) t
  show Parses (if _ then _ else _) _ _ _
  rw [if_pos rfl]
  refine .bind ((parses_openBracket rfl).bind (parses_iterate .arguments ?_)) parses_pure
  exact listLoop_gives (parses_iterate .arguments) hnodes

mutual

theorem atomGives : ∀ {node : Node}, node.IsAtom → AtomGives node
  | _, .number value => atomGives_number value
  | _, .string hvalue => atomGives_string hvalue
  | _, .name hname => atomGives_name hname
  | _, .call hcallee hnodes => atomGives_call hcallee (elementGives hnodes)

theorem expressionGives : ∀ {node : Node}, node.IsExpression → ExpressionGives node
  | _, .atom h => (atomGives h).expressionGives
  | _, .binary hoperator hleft hright => by
    intro c tokens t hc
    refine binary_gives hoperator (atomGives hleft) (atomGives hright) ?_ ?_ t
    · rcases hc with rfl | rfl <;> rfl
    · rcases hc with rfl | rfl <;> decide

theorem elementGives :
    ∀ {nodes : List (Option Node)}, Node.AllExpressions nodes → ∀ node ∈ nodes, ElementGives expression node
  | _, .nil => nofun
  | _, .cons hnode hnodes => by
    intro node hmem
    rcases mem_cons.1 hmem with rfl | hmem
    · exact elementGives_expression hnode (expressionGives hnode)
    · exact elementGives hnodes node hmem

end

theorem expressionEnds {node : Node} (h : node.IsExpression) : ExpressionEnds node := by
  cases h with
  | atom h => exact (atomGives h).expressionEnds
  | binary hoperator hleft hright =>
    intro tokens t h
    obtain ⟨t', hgives, ht'⟩ := binary_gives hoperator (atomGives hleft) (atomGives hright) rfl (by decide) t h
    exact ⟨t', hgives, .inl ht'⟩

/-! ## Statements are parsed -/

/-- What may come after a statement: something that can be looked at, and is no semicolon. -/
def Follows (tokens : List Token) : Prop :=
  ∀ t, Prints tokens t → ∃ r t', getNextToken t = .ok (r, t') ∧ r ≠ some (.punctuator ';')

theorem follows_nil : Follows [] := fun _ h => ⟨none, [], getNextToken_end h, nofun⟩

theorem follows_cons (hreadable : token.Readable tokens) (hne : token ≠ .punctuator ';') :
    Follows (token :: tokens) := by
  intro t h
  obtain ⟨t', hnext, -⟩ := getNextToken_text h hreadable
  exact ⟨_, t', hnext, fun he => hne (Option.some.inj he)⟩

/-- A statement begins with no punctuator. -/
theorem first_statement (tokens : List Token) (h : node.IsStatement) :
    ∃ token tokens', node.tokens ++ tokens = token :: tokens' ∧ token.Readable tokens' ∧ ∀ c,
      token ≠ .punctuator c := by
  cases h with
  | var => exact ⟨_, _, rfl, show Reserved.var ∈ reservedWords by decide, nofun⟩
  | «return» => exact ⟨_, _, rfl, show Reserved.return ∈ reservedWords by decide, nofun⟩
  | function => exact ⟨_, _, rfl, show Reserved.function ∈ reservedWords by decide, nofun⟩
  | @expression node hnode =>
    have hnext : Punctuated (.punctuator ';' :: tokens) := ⟨';', tokens, rfl, rfl⟩
    obtain ⟨token, tokens', htokens, hreadable, hbegins⟩ := first_expression hnode hnext
    refine ⟨token, tokens', ?_, hreadable, hbegins.1⟩
    rw [← htokens, Node.tokens, Node.optionTokens, append_assoc]
    rfl

theorem follows_statement (h : node.IsStatement) : Follows (node.tokens ++ tokens) := by
  obtain ⟨_, _, htokens, hreadable, hne⟩ := first_statement tokens h
  rw [htokens]
  exact follows_cons hreadable (hne ';')

theorem follows_all (h : Node.AllStatements nodes) (htokens : Follows tokens) :
    Follows (Node.allTokens nodes ++ tokens) := by
  cases h with
  | nil => exact htokens
  | cons hnode _ =>
    rw [Node.allTokens, append_assoc]
    exact follows_statement hnode

/-- Behind the expression at the end of a statement. -/
def Ends (tokens : List Token) (t : List Char) : Prop := Prints (.punctuator ';' :: tokens) t ∨ Prints tokens t

theorem semicolon_gives (hfollows : Follows tokens) : Parses semicolon (Ends tokens) () (Prints tokens) := by
  rintro t (h | h)
  · refine (parses_peek (readable_char ';' rfl)).bind ?_ t h
    rw [if_pos rfl]
    exact parses_consume (readable_char ';' rfl)
  · obtain ⟨_, _, hnext, hne⟩ := hfollows t h
    refine ⟨t, (gives_of_eq (peek_eq hnext)).bind ?_, h⟩
    rw [if_neg hne]
    exact gives_of_eq rfl

/-- A statement that ends with an expression is taken with its semicolon. -/
theorem sourceElement_gives {node : Option Node} {tokens' : List Token} (hfollows : Follows tokens)
    (htoken : token.Readable tokens') (hne : token ≠ .keyword Reserved.function)
    (hnode : Parses (statementNode token) (Prints (token :: tokens')) node (Ends tokens)) :
    Parses sourceElement (Prints (token :: tokens')) node (Prints tokens) := by
  refine (parses_peek htoken).bind ?_
  show Parses (if _ then _ else _) _ _ _
  rw [if_neg hne]
  exact (parses_peek htoken).bind (hnode.bind ((semicolon_gives hfollows).bind parses_pure))

/-- A statement is returned, and what follows it is left. -/
def StatementGives (node : Option Node) : Prop :=
  ∀ tokens t, Follows tokens → Prints (Node.optionTokens node ++ tokens) t →
  ∃ t', Gives sourceElement t node t' ∧ Prints tokens t'

theorem statementGives_var {init : Node} (hname : IsIdentifier name) (hinit : init.IsExpression) :
    StatementGives
      (some (.variableDeclaration [some (.variableDeclarator (some (.identifier name)) (some init))])) := by
  intro tokens t hfollows
  have htokens : Node.optionTokens
    (some (.variableDeclaration [some (.variableDeclarator (some (.identifier name)) (some init))])) ++ tokens =
      .keyword Reserved.var :: .identifier name :: .punctuator '=' :: (init.tokens ++ .punctuator ';' :: tokens) := by
    simp [Node.tokens, Node.optionTokens, Node.allTokens]
  have hvar (l : List Token) : (Token.keyword Reserved.var).Readable l := readable_word (by decide)
  have hinitialiser : Parses initialiser _ (some init) (Ends tokens) :=
    (parses_next (readable_char '=' rfl)).bind (expressionEnds hinit tokens)
  rw [htokens]
  refine sourceElement_gives hfollows (hvar _) (by decide) ?_ t
  exact (parses_consume (hvar _)).bind ((parses_identifier hname rfl).bind (hinitialiser.bind parses_pure))

theorem statementGives_return {argument : Node} (hargument : argument.IsExpression) :
    StatementGives (some (.returnStatement (some argument))) := by
  intro tokens t hfollows
  have htokens : Node.optionTokens (some (.returnStatement (some argument))) ++ tokens =
      .keyword Reserved.return :: (argument.tokens ++ .punctuator ';' :: tokens) := by
    simp [Node.tokens, Node.optionTokens]
  have hreturn (l : List Token) : (Token.keyword Reserved.return).Readable l := readable_word (by decide)
  have hexpression : Parses expression _ (some argument) (Ends tokens) := expressionEnds hargument tokens
  rw [htokens]
  refine sourceElement_gives hfollows (hreturn _) (by decide) ?_ t
  exact (parses_consume (hreturn _)).bind (hexpression.bind parses_pure)

theorem statementNode_eq (h : Begins token) : statementNode token = do
    let expression ← expression
    return some (.expressionStatement expression) := by
  cases token with
  | keyword word => exact absurd rfl (h.2 word)
  | punctuator c => exact absurd rfl (h.1 c)
  | identifier name => rfl
  | stringLiteral value => rfl
  | number value => rfl

theorem statementGives_expression (hnode : node.IsExpression) :
    StatementGives (some (.expressionStatement (some node))) := by
  intro tokens t hfollows
  have htokens : Node.optionTokens (some (.expressionStatement (some node))) ++ tokens = node.tokens ++
      .punctuator ';' :: tokens := by
    simp [Node.tokens, Node.optionTokens]
  have hexpression : Parses expression (Prints (node.tokens ++ .punctuator ';' :: tokens)) (some node) (Ends tokens) :=
    expressionEnds hnode tokens
  obtain ⟨_, _, hfirst, hreadable, hbegins⟩ := first_expression hnode ⟨';', tokens, rfl, rfl⟩
  rw [hfirst] at htokens hexpression
  rw [htokens]
  refine sourceElement_gives hfollows hreadable (hbegins.2 _) ?_ t
  rw [statementNode_eq hbegins]
  exact hexpression.bind parses_pure

/-! ## Functions and scripts are parsed -/

/-- The statements of a body, and the closing bracket. -/
theorem functionBodyLoop_gives {tokens : List Token} : ∀ {nodes : List (Option Node)}, Node.AllStatements nodes →
    (∀ node ∈ nodes, StatementGives node) →
      Parses functionBodyLoop (Prints (Node.allTokens nodes ++ .punctuator '\x7d' :: tokens)) nodes (Prints tokens)
  | [], _, _ => by
    refine (parses_peek (readable_char '\x7d' rfl)).bind ?_
    rw [if_pos rfl]
    exact (parses_consume (readable_char '\x7d' rfl)).bind parses_pure
  | some node :: nodes, .cons hnode hnodes, hgives => by
    have hfollows : Follows (Node.allTokens nodes ++ .punctuator '\x7d' :: tokens) :=
      follows_all hnodes (follows_cons (readable_char '\x7d' rfl) (by decide))
    have helement : Parses sourceElement
        (Prints (node.tokens ++ (Node.allTokens nodes ++ .punctuator '\x7d' :: tokens))) (some node) _ :=
      fun t => hgives _ mem_cons_self _ t hfollows
    obtain ⟨_, _, htokens, hreadable, hne⟩ :=
      first_statement (Node.allTokens nodes ++ .punctuator '\x7d' :: tokens) hnode
    rw [Node.allTokens, Node.optionTokens, append_assoc]
    rw [htokens] at helement ⊢
    refine (parses_peek hreadable).bind ?_
    rw [if_neg fun he => hne '\x7d' (Option.some.inj he)]
    refine helement.bind ((parses_iterate .functionBody ?_).bind parses_pure)
    exact functionBodyLoop_gives hnodes fun n hn => hgives n (mem_cons_of_mem _ hn)

theorem statementGives_function {params : List (List Char)} {body : List (Option Node)} (hname : IsIdentifier name)
    (hparams : ∀ param ∈ params, IsIdentifier param) (hbody : Node.AllStatements body)
    (hgives : ∀ node ∈ body, StatementGives node) :
    StatementGives (some (.functionDeclaration (some (.identifier name))
      (params.map fun param => some (.identifier param)) (some (.blockStatement body)))) := by
  intro tokens t _
  have htokens : Node.optionTokens
    (some (.functionDeclaration (some (.identifier name)) (params.map fun param => some (.identifier param))
      (some (.blockStatement body)))) ++ tokens =
      .keyword Reserved.function :: .identifier name :: .punctuator '(' ::
      (Node.listTokens (params.map fun param => some (.identifier param)) ++
        .punctuator ')' :: .punctuator '\x7b' :: (Node.allTokens body ++ .punctuator '\x7d' :: tokens)) := by
    simp [Node.tokens, Node.optionTokens]
  have hfunction (l : List Token) : (Token.keyword Reserved.function).Readable l := readable_word (by decide)
  have helements : ∀ node ∈ params.map (fun param => some (.identifier param)), ElementGives identifier node := by
    intro node hmem
    obtain ⟨param, hparam, rfl⟩ := mem_map.1 hmem
    exact elementGives_identifier (hparams param hparam)
  have hparameters : Parses parameterList _ _
      (Prints (.punctuator '\x7b' :: (Node.allTokens body ++ .punctuator '\x7d' :: tokens))) :=
    (parses_openBracket rfl).bind
      (parses_iterate .parameterList (listLoop_gives (parses_iterate .parameterList) helements))
  have hfunctionBody : Parses functionBody _ (some (.blockStatement body)) (Prints tokens) :=
    (parses_openBracket rfl).bind
      ((parses_iterate .functionBody (functionBodyLoop_gives hbody hgives)).bind parses_pure)
  rw [htokens]
  refine (parses_peek (hfunction _)).bind ?_ t
  show Parses (if _ then _ else _) _ _ _
  rw [if_pos rfl]
  exact (parses_consume (hfunction _)).bind
    ((parses_identifier hname rfl).bind (hparameters.bind (hfunctionBody.bind parses_pure)))

mutual

theorem statementGives : ∀ {node : Node}, node.IsStatement → StatementGives (some node)
  | _, .var hname hinit => statementGives_var hname hinit
  | _, .return hargument => statementGives_return hargument
  | _, .expression hnode => statementGives_expression hnode
  | _, .function hname hparams hbody => statementGives_function hname hparams hbody (allGive hbody)

theorem allGive : ∀ {nodes : List (Option Node)}, Node.AllStatements nodes → ∀ node ∈ nodes, StatementGives node
  | _, .nil => nofun
  | _, .cons hnode hnodes => by
    intro node hmem
    rcases mem_cons.1 hmem with rfl | hmem
    · exact statementGives hnode
    · exact allGive hnodes node hmem

end

/-- The statements of a script, up to its end. -/
theorem parseAstLoop_gives : ∀ {nodes : List Node}, (∀ node ∈ nodes, node.IsStatement) →
    Parses parseAstLoop (Prints (nodes.flatMap Node.tokens)) nodes fun _ => True
  | [], _ => fun t h => by
    have hend : Gives sourceElement t none t := (gives_of_eq (peek_eq (getNextToken_end h))).bind (gives_of_eq rfl)
    exact ⟨t, hend.bind (gives_of_eq rfl), trivial⟩
  | node :: nodes, hnodes => by
    have hrest := parseAstLoop_gives fun n hn => hnodes n (mem_cons_of_mem node hn)
    have hfollows : Follows (nodes.flatMap Node.tokens) := by
      cases nodes with
      | nil => exact follows_nil
      | cons node' nodes =>
        rw [flatMap_cons]
        exact follows_statement (hnodes node' (mem_cons_of_mem node mem_cons_self))
    have helement : Parses sourceElement (Prints (node.tokens ++ nodes.flatMap Node.tokens)) (some node) _ :=
      fun t => statementGives (hnodes node mem_cons_self) _ t hfollows
    rw [flatMap_cons]
    exact helement.bind ((parses_iterate .parseAst hrest).bind parses_pure)

theorem run_prints {nodes : List Node} (hnodes : ∀ node ∈ nodes, node.IsStatement) {js : List Char}
    (hjs : Prints (nodes.flatMap Node.tokens) js) :
    ∃ n t, ∀ depth ≥ n, run iteration .diverges depth (.parseAst, js) = .ok (nodes, t) := by
  obtain ⟨t, hgives, -⟩ := parseAstLoop_gives hnodes js hjs
  have hreturns : Returns iteration .diverges (iteration (.parseAst, js)) (nodes, t) := hgives
  obtain ⟨n, hn⟩ := hreturns.run_eq
  exact ⟨n, t, hn⟩

/-- What is written is parsed: a script comes back from its tokens with any spaces between them. -/
theorem parseAst_prints (program : Program) (hprogram : ∀ node ∈ program.body, node.IsStatement) (js : List Char)
    (hjs : Prints (program.body.flatMap Node.tokens) js) : ∃ n, ∀ depth ≥ n, parseAst depth js = .ok program := by
  obtain ⟨n, t, hn⟩ := run_prints hprogram hjs
  refine ⟨n, fun depth hdepth => ?_⟩
  rw [parseAst, hn depth hdepth]
  rfl

theorem isIdentifier_a : IsIdentifier ['a'] := ⟨⟨'a', [], rfl, .inl rfl⟩, by simp, by decide⟩

theorem isIdentifier_f : IsIdentifier ['f'] := ⟨⟨'f', [], rfl, .inl rfl⟩, by simp, by decide⟩

/-- A variable, a function of it, and a call. -/
def callScript : List Char := " var a = 12 ; function f ( a ) \x7b return a + 1 ; \x7d f ( a , \"s\" ) ;".toList

def callNodes : List Node :=
  [.variableDeclaration [some (.variableDeclarator (some (.identifier ['a'])) (some (.numericLiteral 12)))],
    .functionDeclaration (some (.identifier ['f'])) ([['a']].map fun param => some (.identifier param))
    (some (.blockStatement
      [some (.returnStatement (some (.binaryExpression '+' (some (.identifier ['a'])) (some (.numericLiteral 1)))))])),
    .expressionStatement (some (.callExpression (some (.identifier ['f']))
      [some (.identifier ['a']), some (.stringLiteral ['s'])]))]

theorem parseAst_prints_call : ∃ n, ∀ depth ≥ n, parseAst depth callScript = .ok ⟨callNodes⟩ := by
  refine parseAst_prints ⟨_⟩ (List.forall_mem_cons.2 ⟨?_, List.forall_mem_cons.2 ⟨?_, List.forall_mem_singleton.2 ?_⟩⟩)
    _ ?_
  · exact .var isIdentifier_a (.atom (.number 12))
  · refine .function isIdentifier_f (by simpa using isIdentifier_a) (.cons (.return ?_) .nil)
    exact .binary (.inl rfl) (.name isIdentifier_a) (.number 1)
  · exact .expression (.atom
      (.call isIdentifier_f (.cons (.atom (.name isIdentifier_a)) (.cons (.atom (.string (by simp))) .nil))))
  · have htext : callScript = (callNodes.flatMap Node.tokens).flatMap fun token => [' '] ++ token.text := by
      decide +kernel
    rw [htext]
    exact .flatMap [' '] (by simp [isSpace]) _

end JsParser

end Liumos.Saji
