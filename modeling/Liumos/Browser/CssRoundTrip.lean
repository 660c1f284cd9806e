/-
Style sheets that are printed and parsed again: with any spaces between its tokens, the text of a style sheet
is parsed to that style sheet.
-/
import Liumos.Browser.Css

namespace Liumos.Browser

open Scan List

/-! ## Printing -/

/-- `[A-Za-z_][A-Za-z0-9_-]*`. -/
def IsIdent (w : List Char) : Prop :=
  ∃ c rest, w = c :: rest ∧ CssTokenizer.isIdentStart c = true ∧ ∀ d ∈ rest, CssTokenizer.isIdentPart d = true

namespace CssToken

/-- How a token is written. -/
def text : CssToken → List Char
  | hashToken value => value
  | delim c => [c]
  | number num => Nat.toDigits 10 num.toNat
  | colon => [':']
  | semiColon => [';']
  | openCurly => ['\x7b']
  | closeCurly => ['\x7d']
  | ident value => value

/-- The tokens of style sheets. -/
def Printable : CssToken → Prop
  | hashToken value => ∃ name, value = '#' :: name ∧ IsIdent name
  | delim c => c = '.'
  | number num => num ≠ 0#64
  | ident value => IsIdent value
  | _ => True

/-- Tokens that have to be told apart from what comes after them. -/
def isWord : CssToken → Bool
  | hashToken _ | number _ | ident _ => true
  | _ => false

theorem Printable.text_ne_nil {tok : CssToken} (h : tok.Printable) : tok.text ≠ [] := by
  cases tok with
  | hashToken value =>
    obtain ⟨_, rfl, -⟩ := h
    exact cons_ne_nil _ _
  | number num => exact Nat.toDigits_ne_nil
  | ident value =>
    obtain ⟨_, _, rfl, -⟩ := h
    exact cons_ne_nil _ _
  | delim | colon | semiColon | openCurly | closeCurly => exact cons_ne_nil _ _

end CssToken

def Selector.tokens : Selector → List CssToken
  | typeSelector name => [.ident name]
  | classSelector name => [.delim '.', .ident name]
  | idSelector name => [.hashToken ('#' :: name)]

/-- The names in it can be read back. -/
def Selector.Printable : Selector → Prop
  | typeSelector name | classSelector name | idSelector name => IsIdent name

def ComponentValue.token : ComponentValue → CssToken
  | keyword name => .ident name
  | number num => .number num

def Declaration.tokens (d : Declaration) : List CssToken := [.ident d.property, .colon, d.value.token, .semiColon]

/-- The property can be read back as a name, and the value as the token it is. -/
def Declaration.Printable (d : Declaration) : Prop := IsIdent d.property ∧ d.value.token.Printable

theorem Declaration.printable_tokens {ds : List Declaration} (hds : ∀ d ∈ ds, d.Printable) :
    ∀ t ∈ ds.flatMap Declaration.tokens, t.Printable := by
  intro t ht
  obtain ⟨d, hd, ht⟩ := mem_flatMap.1 ht
  obtain ⟨hident, hvalue⟩ := hds d hd
  simp only [Declaration.tokens, mem_cons, not_mem_nil, or_false] at ht
  rcases ht with rfl | rfl | rfl | rfl
  · exact hident
  · trivial
  · exact hvalue
  · trivial

def QualifiedRule.tokens (r : QualifiedRule) : List CssToken :=
  r.selector.tokens ++ .openCurly :: (r.declarations.flatMap Declaration.tokens ++ [.closeCurly])

/-- A rule of printable parts. -/
def QualifiedRule.Printable (r : QualifiedRule) : Prop := r.selector.Printable ∧ ∀ d ∈ r.declarations, d.Printable

theorem QualifiedRule.printable_tokens {r : QualifiedRule} (hr : r.Printable) : ∀ t ∈ r.tokens, t.Printable := by
  obtain ⟨selector, _⟩ := r
  obtain ⟨hselector, hds⟩ := hr
  have htokens : ∀ t ∈ selector.tokens, t.Printable := by
    cases selector with
    | typeSelector name => simpa [Selector.tokens, CssToken.Printable, Selector.Printable] using hselector
    | classSelector name => simpa [Selector.tokens, CssToken.Printable, Selector.Printable] using hselector
    | idSelector name => simpa [Selector.tokens] using ⟨name, rfl, hselector⟩
  intro t ht
  simp only [QualifiedRule.tokens, mem_append, mem_cons, not_mem_nil, or_false] at ht
  rcases ht with ht | rfl | ht | rfl
  · exact htokens t ht
  · trivial
  · exact Declaration.printable_tokens hds t ht
  · trivial

/-- A token that a rule can begin with, before the tokens `rest`. -/
structure FirstToken (tok : CssToken) (rest : List CssToken) : Prop where
  ne : tok ≠ .openCurly
  printable : tok.Printable
  after : tok.isWord = true → ∃ t ts, rest = t :: ts ∧ t.isWord = false ∧ t.Printable

theorem QualifiedRule.exists_firstToken (r : QualifiedRule) (hr : r.Printable) (toks : List CssToken) :
    ∃ tok rest, r.tokens ++ toks = tok :: rest ∧ FirstToken tok rest := by
  obtain ⟨selector, _⟩ := r
  cases selector with
  | typeSelector name => exact ⟨_, _, rfl, nofun, hr.1, fun _ => ⟨.openCurly, _, rfl, rfl, trivial⟩⟩
  | classSelector name => exact ⟨_, _, rfl, nofun, rfl, nofun⟩
  | idSelector name => exact ⟨_, _, rfl, nofun, ⟨name, rfl, hr.1⟩, fun _ => ⟨.openCurly, _, rfl, rfl, trivial⟩⟩

def StyleSheet.tokens (sheet : StyleSheet) : List CssToken := sheet.rules.flatMap QualifiedRule.tokens

/-- The style sheets that the round trip is about. -/
def StyleSheet.Printable (sheet : StyleSheet) : Prop := ∀ r ∈ sheet.rules, r.Printable

theorem StyleSheet.printable_tokens {sheet : StyleSheet} (h : sheet.Printable) : ∀ t ∈ sheet.tokens, t.Printable := by
  intro t ht
  obtain ⟨r, hr, ht⟩ := mem_flatMap.1 ht
  exact QualifiedRule.printable_tokens (h r hr) t ht

theorem length_le_flatMap_tokens :
    ∀ rules : List QualifiedRule, rules.length ≤ (rules.flatMap QualifiedRule.tokens).length
  | [] => Nat.zero_le _
  | r :: rules => by
    have := length_le_flatMap_tokens rules
    simp only [length_cons, flatMap_cons, length_append, QualifiedRule.tokens]
    omega

/-- A text of tokens with any number of spaces and newlines between them. -/
abbrev PrintsTokens : List CssToken → List Char → Prop := Prints CssTokenizer.isSpace CssToken.text

/-! ## Tokens are read back -/

namespace CssTokenizer

variable {tok punctuation : CssToken} {toks : List CssToken} {s : List Char} {c : Char}

theorem isIdentPart_of_start (h : isIdentStart c = true) : isIdentPart c = true := by
  simp only [isIdentStart, isIdentPart, Bool.or_eq_true] at h ⊢
  tauto

theorem isSpace_iff : isSpace c = true ↔ c = ' ' ∨ c = '\n' := by simp [isSpace]

theorem isIdentPart_of_isSpace (h : isSpace c = true) : isIdentPart c = false := by
  rcases isSpace_iff.1 h with rfl | rfl <;> decide

theorem isSpace_of_isIdentPart (h : isIdentPart c = true) : isSpace c = false := by
  by_contra hs
  rw [isIdentPart_of_isSpace (Bool.not_eq_false _ ▸ hs)] at h
  cases h

/-- Identifiers and digits are none of the characters with a token of their own. -/
theorem not_single_of_isIdentPart (h : isIdentPart c = true) :
    c ≠ '#' ∧ c ≠ '.' ∧ c ≠ ':' ∧ c ≠ ';' ∧ c ≠ '\x7b' ∧ c ≠ '\x7d' := by
  refine ⟨?_, ?_, ?_, ?_, ?_, ?_⟩ <;> rintro rfl <;> revert h <;> decide

theorem isDigit_of_isIdentStart (h : isIdentStart c = true) : c.isDigit = false := by
  simp only [isIdentStart, Bool.or_eq_true, beq_iff_eq] at h
  rcases h with h | rfl
  · exact isDigit_of_isAlpha (Bool.or_eq_true_iff.2 h.symm)
  · decide

theorem isIdentPart_of_isDigit (h : c.isDigit = true) : isIdentPart c = true := by simp [isIdentPart, h]

theorem stops_isSpace (hp : tok.Printable) (rest : List Char) : Stops isSpace (tok.text ++ rest) := by
  cases tok with
  | hashToken value =>
    obtain ⟨_, rfl, -⟩ := hp
    exact stops_cons.2 (by decide)
  | number num =>
    obtain ⟨c, _, hdigits, hc, -⟩ := head_toDigits (fun h => hp (BitVec.eq_of_toNat_eq h) : num.toNat ≠ 0)
    rw [CssToken.text, hdigits]
    exact stops_cons.2 (isSpace_of_isIdentPart (isIdentPart_of_isDigit hc))
  | ident value =>
    obtain ⟨c, _, rfl, hc, -⟩ := hp
    exact stops_cons.2 (isSpace_of_isIdentPart (isIdentPart_of_start hc))
  | delim c =>
    cases hp
    exact stops_cons.2 (by decide)
  | colon | semiColon | openCurly | closeCurly => exact stops_cons.2 (by decide)

theorem stops_isIdentPart_of_single (hsingle : punctuation.isWord = false) (hp : punctuation.Printable)
    (rest : List Char) : Stops isIdentPart (punctuation.text ++ rest) := by
  cases punctuation with
  | hashToken | number | ident => cases hsingle
  | delim c =>
    cases hp
    exact stops_cons.2 (by decide)
  | colon | semiColon | openCurly | closeCurly => exact stops_cons.2 (by decide)

/-- What comes after a word does not go on with it. -/
theorem after_word (h : PrintsTokens (punctuation :: toks) s) (hsingle : punctuation.isWord = false)
    (hp : punctuation.Printable) : Stops isIdentPart s ∧ s ≠ [] := by
  constructor
  · refine Prints.stops h (fun c => isIdentPart_of_isSpace) ?_
    rintro t ⟨⟩ rest
    exact stops_isIdentPart_of_single hsingle hp rest
  · exact Prints.ne_nil h hp.text_ne_nil

variable {w rest : List Char}

theorem consumeIdentToken_append (c : Char) (hw : ∀ d ∈ w, isIdentPart d = true) (hrest : Stops isIdentPart rest)
    (hne : rest ≠ []) : consumeIdentToken c (w ++ rest) = .ok (c :: w, rest) := by
  unfold consumeIdentToken
  rw [dropWhile_append hw hrest, takeWhile_append hw hrest]
  cases rest with
  | nil => exact absurd rfl hne
  | cons d rest => rfl

theorem next_ident (hs : s.dropWhile isSpace = c :: (w ++ rest)) (hc : isIdentStart c = true)
    (hw : ∀ d ∈ w, isIdentPart d = true) (hrest : Stops isIdentPart rest) (hne : rest ≠ []) :
    next s = .ok (some (.ident (c :: w)), rest) := by
  obtain ⟨h1, h2, h3, h4, h5, h6⟩ := not_single_of_isIdentPart (isIdentPart_of_start hc)
  have hdigit : (c.isDigit && c != '0') = false := by
    rw [isDigit_of_isIdentStart hc, Bool.false_and]
  unfold next
  rw [hs]
  simp only [h1, h2, h3, h4, h5, h6, hdigit, hc, if_false, if_true, Bool.false_eq_true]
  rw [consumeIdentToken_append c hw hrest hne]
  rfl

theorem next_number {num : Word} (hs : s.dropWhile isSpace = Nat.toDigits 10 num.toNat ++ rest) (hnum : num ≠ 0#64)
    (hrest : Stops isIdentPart rest) : next s = .ok (some (.number num), rest) := by
  have hstops : Stops Char.isDigit rest := fun c hc => by
    by_contra hdigit
    have := hrest c hc
    rw [isIdentPart_of_isDigit (Bool.not_eq_false _ ▸ hdigit)] at this
    cases this
  obtain ⟨_, _, hdigits, hc, hzero⟩ := head_toDigits (fun h => hnum (BitVec.eq_of_toNat_eq h) : num.toNat ≠ 0)
  obtain ⟨h1, h2, h3, h4, h5, h6⟩ := not_single_of_isIdentPart (isIdentPart_of_isDigit hc)
  have hnumber := number_toDigits num hstops
  rw [hdigits] at hs hnumber
  unfold next
  rw [hs]
  simp only [cons_append, h1, h2, h3, h4, h5, h6, hc, bne_iff_ne, ne_eq, hzero, not_false_eq_true, Bool.true_and,
    if_false, if_true]
  rw [consumeNumericToken, ← cons_append, hnumber]

/-- The tokenizer reads the first token and leaves the others. -/
theorem next_prints (h : PrintsTokens (tok :: toks) s) (hp : tok.Printable)
    (hafter : tok.isWord = true → ∃ t ts, toks = t :: ts ∧ t.isWord = false ∧ t.Printable) :
    ∃ rest, next s = .ok (some tok, rest) ∧ PrintsTokens toks rest := by
  obtain ⟨rest, hs, hrest⟩ := Prints.dropWhile_cons h (stops_isSpace hp)
  have hword : tok.isWord = true → Stops isIdentPart rest ∧ rest ≠ [] := by
    intro hw
    obtain ⟨t, ts, rfl, hsingle, ht⟩ := hafter hw
    exact after_word hrest hsingle ht
  refine ⟨rest, ?_, hrest⟩
  cases tok with
  | hashToken value =>
    obtain ⟨_, rfl, c, w, rfl, hc, hw⟩ := hp
    obtain ⟨hstops, hne⟩ := hword rfl
    unfold next
    rw [hs]
    have hname : ∀ d ∈ c :: w, isIdentPart d = true := by
      rintro d (_ | ⟨_, hd⟩)
      · exact isIdentPart_of_start hc
      · exact hw d hd
    show (consumeIdentToken '#' ((c :: w) ++ rest)).map _ = _
    rw [consumeIdentToken_append '#' hname hstops hne]
    rfl
  | number num => exact next_number hs hp (hword rfl).1
  | ident value =>
    obtain ⟨c, _, rfl, hc, hw⟩ := hp
    exact next_ident hs hc hw (hword rfl).1 (hword rfl).2
  | delim c =>
    cases hp
    unfold next
    rw [hs]
    rfl
  | colon | semiColon | openCurly | closeCurly =>
    unfold next
    rw [hs]
    rfl

end CssTokenizer

/-! ## The parser -/

namespace CssParser

variable {tok t : CssToken} {toks ts : List CssToken} {p : CssParser}

/-- No panic and the result `a`, with the tokens `toks` left. -/
def Parses {α : Type} (x : KM CssParser α) (p : CssParser) (a : α) (toks : List CssToken) : Prop :=
  Yields (fun _ => False) x p fun a' p' => a' = a ∧ p'.reconsumedToken = none ∧ PrintsTokens toks p'.t

/-- The first token, which may have to be reconsumed, and the others. -/
def At (p : CssParser) (tok : CssToken) (toks : List CssToken) : Prop :=
  p.reconsumedToken = some tok ∧ PrintsTokens toks p.t ∨ p.reconsumedToken = none ∧ PrintsTokens (tok :: toks) p.t

theorem At.remaining_pos (h : At p tok toks) (hp : tok.Printable) : 0 < p.remaining := by
  rcases h with ⟨h, -⟩ | ⟨-, h⟩
  · simp [remaining, h]
  · have := length_pos_iff.2 (Prints.ne_nil h hp.text_ne_nil)
    unfold remaining
    omega

variable {α : Type} {a : α} {selector : Selector} {rest : List CssToken}

theorem parses_pure (h : p.reconsumedToken = none) (ht : PrintsTokens toks p.t) : Parses (pure a) p a toks :=
  ⟨rfl, h, ht⟩

theorem Parses.bind {α β : Type} {x : KM CssParser α} {f : α → KM CssParser β} {a : α} {b : β} (hx : Parses x p a toks)
    (hf : ∀ p', p'.reconsumedToken = none → PrintsTokens toks p'.t → Parses (f a) p' b ts) :
    Parses (x >>= f) p b ts := by
  refine Yields.bind (Yields.mono hx ?_)
  rintro _ p' ⟨rfl, hnone, hp'⟩
  exact hf p' hnone hp'

theorem parses_tNext (hnone : p.reconsumedToken = none) (h : PrintsTokens (tok :: toks) p.t) (hp : tok.Printable)
    (hafter : tok.isWord = true → ∃ t ts, toks = t :: ts ∧ t.isWord = false ∧ t.Printable) :
    Parses tNext p (some tok) toks := by
  obtain ⟨rest, hnext, hrest⟩ := CssTokenizer.next_prints h hp hafter
  have hrun : tNext.run p = .ok (some tok) { p with t := rest } := by
    show tNext p = _
    rw [tNext, hnext]
  unfold Parses Yields
  rw [hrun]
  exact ⟨rfl, hnone, hrest⟩

theorem parses_nextToken (h : At p tok toks) (hp : tok.Printable)
    (hafter : tok.isWord = true → ∃ t ts, toks = t :: ts ∧ t.isWord = false ∧ t.Printable) :
    Parses nextToken p (some tok) toks := by
  obtain ⟨_, _⟩ := p
  rcases h with ⟨rfl, h⟩ | ⟨rfl, h⟩
  · exact ⟨rfl, rfl, h⟩
  · exact parses_tNext rfl h hp hafter

/-- A token to reconsume. -/
theorem yields_reconsume {f : Unit → KM CssParser α} (h : PrintsTokens toks p.t)
    (hf : ∀ p', At p' tok toks → Parses (f ()) p' a ts) : Parses (reconsume tok >>= f) p a ts :=
  hf { p with reconsumedToken := some tok } (.inl ⟨rfl, h⟩)

theorem parses_consumeIdent {value : List Char} (h : At p (.ident value) (t :: toks)) (hp : IsIdent value)
    (ht : t.isWord = false) (htp : t.Printable) : Parses consumeIdent p value (t :: toks) :=
  .bind (parses_nextToken h hp fun _ => ⟨t, toks, rfl, ht, htp⟩) fun _ => parses_pure

theorem parses_consumeComponentValue {value : ComponentValue} (h : At p value.token (t :: toks))
    (hp : value.token.Printable) (ht : t.isWord = false) (htp : t.Printable) :
    Parses consumeComponentValue p value (t :: toks) := by
  cases value with
  | keyword name => exact .bind (parses_nextToken h hp fun _ => ⟨t, toks, rfl, ht, htp⟩) fun _ => parses_pure
  | number num => exact .bind (parses_nextToken h hp fun _ => ⟨t, toks, rfl, ht, htp⟩) fun _ => parses_pure

theorem parses_consumeDeclaration {d : Declaration}
    (h : At p (.ident d.property) (.colon :: d.value.token :: .semiColon :: toks)) (hd : d.Printable) :
    Parses consumeDeclaration p (some d) (.semiColon :: toks) := by
  obtain ⟨hident, hvalue⟩ := hd
  refine .bind (parses_nextToken h hident fun _ => ⟨.colon, _, rfl, rfl, trivial⟩) fun p1 _ h₁ => ?_
  refine yields_reconsume h₁ fun p2 h₂ => ?_
  refine .bind (parses_consumeIdent h₂ hident rfl trivial) fun p3 hnone h₃ => ?_
  refine .bind (parses_tNext hnone h₃ trivial (by rintro ⟨⟩)) fun p4 hnone h₄ => ?_
  exact .bind (parses_consumeComponentValue (.inr ⟨hnone, h₄⟩) hvalue rfl trivial) fun _ => parses_pure

/-- Two rounds for every declaration. -/
theorem parses_consumeListOfDeclarationsLoop :
    ∀ (ds : List Declaration) (acc : List Declaration) (n : Nat) {p : CssParser},
    (∀ d ∈ ds, d.Printable) → p.reconsumedToken = none →
    PrintsTokens (ds.flatMap Declaration.tokens ++ .closeCurly :: toks) p.t → 2 * ds.length < n →
      Parses (consumeListOfDeclarationsLoop n acc) p (acc ++ ds) toks
  | [], acc, n + 1, p, _, hnone, h, _ => by
    rw [consumeListOfDeclarationsLoop, append_nil]
    exact .bind (parses_nextToken (.inr ⟨hnone, h⟩) trivial (by rintro ⟨⟩)) fun _ => parses_pure
  | d :: ds, acc, n + 2, p, hds, hnone, h, hn => by
    have hd : d.Printable := hds d mem_cons_self
    have hlen : (d :: ds).length = ds.length + 1 := rfl
    rw [consumeListOfDeclarationsLoop]
    refine .bind (parses_nextToken (.inr ⟨hnone, h⟩) hd.1 fun _ => ⟨.colon, _, rfl, rfl, trivial⟩) fun p1 _ h₁ => ?_
    refine yields_reconsume h₁ fun p2 h₂ => ?_
    refine .bind (parses_consumeDeclaration h₂ hd) fun p3 hnone h₃ => ?_
    -- the semicolon
    rw [consumeListOfDeclarationsLoop]
    refine .bind (parses_nextToken (.inr ⟨hnone, h₃⟩) trivial (by rintro ⟨⟩)) fun p4 hnone h₄ => ?_
    have hrest := parses_consumeListOfDeclarationsLoop ds (acc ++ [d]) n (fun e he => hds e (mem_cons_of_mem d he))
      hnone h₄ (by omega)
    rwa [append_assoc] at hrest

theorem parses_consumeListOfDeclarations {ds : List Declaration} (hds : ∀ d ∈ ds, d.Printable)
    (hnone : p.reconsumedToken = none) (h : PrintsTokens (ds.flatMap Declaration.tokens ++ .closeCurly :: toks) p.t) :
    Parses consumeListOfDeclarations p ds toks := by
  have hlen := Prints.length_le _ h fun t ht => (Declaration.printable_tokens hds t ht).text_ne_nil
  have hfuel : 2 * ds.length < p.remaining + 1 := by
    have hfour : ∀ ds : List Declaration, (ds.flatMap Declaration.tokens).length = 4 * ds.length := fun ds => by
      simp [length_flatMap, Declaration.tokens, Nat.mul_comm]
    rw [hfour] at hlen
    unfold remaining
    omega
  exact parses_consumeListOfDeclarationsLoop ds [] _ hds hnone h hfuel

/-- The tokens of a selector, up to the open brace. -/
theorem parses_consumeSelector (hs : selector.Printable) (hfirst : selector.tokens ++ .openCurly :: toks = tok :: rest)
    (h : At p tok rest) : Parses consumeSelector p selector (.openCurly :: toks) := by
  cases selector with
  | typeSelector name =>
    cases hfirst
    exact .bind (parses_nextToken h hs fun _ => ⟨.openCurly, _, rfl, rfl, trivial⟩) fun _ => parses_pure
  | classSelector name =>
    cases hfirst
    refine .bind (parses_nextToken h rfl (by rintro ⟨⟩)) fun p1 hnone h₁ => ?_
    exact .bind (parses_consumeIdent (.inr ⟨hnone, h₁⟩) hs rfl trivial) fun _ => parses_pure
  | idSelector name =>
    cases hfirst
    exact .bind (parses_nextToken h ⟨name, rfl, hs⟩ fun _ => ⟨.openCurly, _, rfl, rfl, trivial⟩) fun _ => parses_pure

/-- A round of `consume_qualified_rule` that reads a selector. -/
theorem parses_consumeQualifiedRuleLoop_selector {n : Nat} {rule : QualifiedRule} {result : Option QualifiedRule}
    {us : List CssToken} (h : At p tok rest) (hfirst : FirstToken tok rest)
    (hselector : ∀ p', At p' tok rest → Parses consumeSelector p' selector us)
    (hloop : ∀ p', p'.reconsumedToken = none → PrintsTokens us p'.t →
      Parses (consumeQualifiedRuleLoop n { rule with selector }) p' result ts) :
    Parses (consumeQualifiedRuleLoop (n + 1) rule) p result ts := by
  rw [consumeQualifiedRuleLoop]
  refine .bind (parses_nextToken h hfirst.printable hfirst.after) fun p1 _ h₁ => ?_
  cases tok with
  | openCurly => exact absurd rfl hfirst.ne
  | hashToken | delim | number | colon | semiColon | closeCurly | ident =>
    exact yields_reconsume h₁ fun p2 h₂ => .bind (hselector p2 h₂) hloop

theorem parses_consumeQualifiedRule {r : QualifiedRule} (hr : r.Printable) (hfirst : FirstToken tok rest)
    (htokens : r.tokens ++ toks = tok :: rest) (h : At p tok rest) : Parses consumeQualifiedRule p (some r) toks := by
  obtain ⟨n, hn⟩ : ∃ n, p.remaining = n + 1 := ⟨p.remaining - 1, by have := h.remaining_pos hfirst.printable; omega⟩
  show Parses (consumeQualifiedRuleLoop (p.remaining + 1) ⟨.typeSelector [], []⟩) p (some r) toks
  rw [QualifiedRule.tokens, append_assoc, cons_append, append_assoc] at htokens
  rw [hn]
  refine parses_consumeQualifiedRuleLoop_selector h hfirst (fun p' => parses_consumeSelector hr.1 htokens)
    fun p1 hnone h₁ => ?_
  -- the block
  rw [consumeQualifiedRuleLoop]
  refine .bind (parses_nextToken (.inr ⟨hnone, h₁⟩) trivial (by rintro ⟨⟩)) fun p2 hnone h₂ => ?_
  exact .bind (parses_consumeListOfDeclarations hr.2 hnone h₂) fun _ => parses_pure

theorem parses_consumeListOfRulesLoop : ∀ (rules acc : List QualifiedRule) (n : Nat) {p : CssParser},
    (∀ r ∈ rules, r.Printable) → p.reconsumedToken = none → PrintsTokens (rules.flatMap QualifiedRule.tokens) p.t →
    rules.length < n → Parses (consumeListOfRulesLoop n acc) p (acc ++ rules) []
  | [], acc, n + 1, p, _, hnone, h, _ => by
    have hend : Parses tNext p none [] := by
      have hrun : tNext.run p = .ok none { p with t := [] } := by
        show tNext p = _
        rw [tNext, CssTokenizer.next, Prints.dropWhile_nil h]
      unfold Parses Yields
      rw [hrun]
      exact ⟨rfl, hnone, .nil (by simp)⟩
    rw [consumeListOfRulesLoop, append_nil]
    exact .bind hend fun _ => parses_pure
  | r :: rules, acc, n + 1, p, hrules, hnone, h, hn => by
    have hr : r.Printable := hrules r mem_cons_self
    obtain ⟨_, _, htokens, hfirst⟩ := r.exists_firstToken hr (rules.flatMap QualifiedRule.tokens)
    rw [flatMap_cons, htokens] at h
    rw [consumeListOfRulesLoop]
    refine .bind (parses_tNext hnone h hfirst.printable hfirst.after) fun p1 _ h₁ => ?_
    refine yields_reconsume h₁ fun p2 h₂ => ?_
    refine .bind (parses_consumeQualifiedRule hr hfirst htokens h₂) fun p3 hnone h₃ => ?_
    have hrest := parses_consumeListOfRulesLoop rules (acc ++ [r]) n
      (fun e he => hrules e (mem_cons_of_mem r he)) hnone h₃
      (Nat.lt_of_succ_lt_succ hn)
    rwa [append_assoc] at hrest

end CssParser

/-- However a style sheet is printed, its text is parsed to it. -/
theorem parseStylesheet_prints {sheet : StyleSheet} (hsheet : sheet.Printable) {text : List Char}
    (h : PrintsTokens sheet.tokens text) : ∃ p, CssParser.parseStylesheet.run (.new text) = .ok sheet p := by
  have hlen := Prints.length_le [] (by rwa [append_nil]) fun t ht =>
    (StyleSheet.printable_tokens hsheet t ht).text_ne_nil
  have hrules : sheet.rules.length < (CssParser.new text).remaining + 1 := by
    have := length_le_flatMap_tokens sheet.rules
    exact Nat.lt_succ_of_le (this.trans hlen)
  have hlist : CssParser.Parses CssParser.consumeListOfRules (.new text) sheet.rules [] :=
    CssParser.parses_consumeListOfRulesLoop sheet.rules [] _ hsheet rfl h hrules
  have hsheet' : CssParser.Parses CssParser.parseStylesheet (.new text) sheet [] :=
    .bind hlist fun _ => CssParser.parses_pure
  obtain ⟨_, p, hrun, rfl, -⟩ := Yields.returns hsheet'
  exact ⟨p, hrun⟩

/-- `.a { w: 1; }` and `#b{}`. -/
def smallSheet : StyleSheet := ⟨[⟨.classSelector ['a'], [⟨['w'], .number 1#64⟩]⟩, ⟨.idSelector ['b'], []⟩]⟩

theorem parseStylesheet_prints_small :
    ∃ p, CssParser.parseStylesheet.run (.new " . a \x7b w : 1 ; \x7d #b \x7b \x7d".toList) = .ok smallSheet p := by
  have hident : ∀ c, CssTokenizer.isIdentStart c = true → IsIdent [c] := fun c hc => ⟨c, [], rfl, hc, by simp⟩
  have hprints : PrintsTokens smallSheet.tokens " . a \x7b w : 1 ; \x7d #b \x7b \x7d".toList :=
    .flatMap [' '] (by simp [CssTokenizer.isSpace]) smallSheet.tokens
  refine parseStylesheet_prints ?_ hprints
  simp only [smallSheet, StyleSheet.Printable, QualifiedRule.Printable, Declaration.Printable, Selector.Printable,
    ComponentValue.token, CssToken.Printable, mem_cons, not_mem_nil, or_false, forall_eq_or_imp, forall_eq, and_true,
    false_imp_iff, implies_true]
  exact ⟨⟨hident _ rfl, hident _ rfl, by decide⟩, hident _ rfl⟩

end Liumos.Browser
