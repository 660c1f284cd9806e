/-
The style sheets of the browser: from a text to tokens and from tokens to rules. A tokenizer is the input
from its position on. Sources: renderer/css/token.rs, renderer/css/cssom.rs.
-/
import Liumos.Lib.Scan
import Liumos.Machine.Outcome

namespace Liumos.Browser

/-! ## Tokens -/

inductive CssToken where
  | hashToken (value : List Char)
  | delim (c : Char)
  | number (num : Word)
  | colon
  | semiColon
  | openCurly
  | closeCurly
  | ident (value : List Char)
  deriving Repr, DecidableEq

/-- The text that `{:?}` makes of a token. -/
def CssToken.debug : CssToken → String
  | hashToken value => "HashToken(" ++ (String.ofList value).quote ++ ")"
  | delim c => "Delim(" ++ c.quote ++ ")"
  | number num => "Number(" ++ toString num.toNat ++ ")"
  | colon => "Colon"
  | semiColon => "SemiColon"
  | openCurly => "OpenCurly"
  | closeCurly => "CloseCurly"
  | ident value => "Ident(" ++ (String.ofList value).quote ++ ")"

namespace CssTokenizer

def isSpace (c : Char) : Bool := c == ' ' || c == '\n'

def isIdentStart (c : Char) : Bool := c.isLower || c.isUpper || c == '_'

/-- The characters that `consume_ident_token` goes on with. -/
def isIdentPart (c : Char) : Bool := c.isLower || c.isUpper || c.isDigit || c == '-' || c == '_'

/-- `consume_ident_token` at the character `c`, which is part of the token whatever it is. The input does not end with
the token: the loop looks at the character after it. -/
def consumeIdentToken (c : Char) (rest : List Char) : Except Panic (List Char × List Char) :=
  match rest.dropWhile isIdentPart with
  | [] => .error (.message "index out of bounds")
  | d :: after => .ok (c :: rest.takeWhile isIdentPart, d :: after)

def consumeNumericToken (input : List Char) : Word × List Char := Scan.number 0#64 input

/-- The next token, and the input after it. -/
def next (input : List Char) : Except Panic (Option CssToken × List Char) :=
  match input.dropWhile isSpace with
  | [] => .ok (none, [])
  | c :: rest =>
    if c = '#' then (consumeIdentToken c rest).map fun x => (some (.hashToken x.1), x.2)
    else if c = '.' then .ok (some (.delim '.'), rest)
    else if c = ':' then .ok (some .colon, rest)
    else if c = ';' then .ok (some .semiColon, rest)
    else if c = '\x7b' then .ok (some .openCurly, rest)
    else if c = '\x7d' then .ok (some .closeCurly, rest)
    else if c.isDigit && c != '0' then .ok (some (.number (consumeNumericToken (c :: rest)).1),
      (consumeNumericToken (c :: rest)).2)
    else if isIdentStart c then (consumeIdentToken c rest).map fun x => (some (.ident x.1), x.2)
    else .error (.message ("not implemented: char " ++ c.toString ++ " is not supported yet"))

end CssTokenizer

/-! ## Style sheets -/

inductive Selector where
  | typeSelector (name : List Char)
  | classSelector (name : List Char)
  | idSelector (name : List Char)
  deriving Repr, DecidableEq

inductive ComponentValue where
  | keyword (name : List Char)
  | number (num : Word)
  deriving Repr, DecidableEq

structure Declaration where
  property : List Char
  value : ComponentValue
  deriving Repr, DecidableEq

structure QualifiedRule where
  selector : Selector
  declarations : List Declaration
  deriving Repr, DecidableEq

structure StyleSheet where
  rules : List QualifiedRule
  deriving Repr, DecidableEq

/-! ## The parser -/

structure CssParser where
  t : List Char
  reconsumedToken : Option CssToken

namespace CssParser

def new (t : List Char) : CssParser := ⟨t, none⟩

/-- A bound for the tokens that are left. -/
def remaining (p : CssParser) : Nat := p.t.length + p.reconsumedToken.toList.length

/-- `self.t.next()`. -/
def tNext : KM CssParser (Option CssToken) := fun p =>
  match CssTokenizer.next p.t with
  | .ok (token, rest) => .ok token { p with t := rest }
  | .error e => .error e p

/-- Every function begins with this: the token to reconsume if there is one, and the next token otherwise. -/
def nextToken : KM CssParser (Option CssToken) := do
  match (← get).reconsumedToken with
  | some token => modify fun p => { p with reconsumedToken := none }; return some token
  | none => tNext

def reconsume (token : CssToken) : KM CssParser Unit := modify fun p => { p with reconsumedToken := some token }

def unexpected {α : Type} (token : CssToken) : KM CssParser α :=
  throw (.message ("Parse error: " ++ token.debug ++ " is an unexpected token."))

def consumeIdent : KM CssParser (List Char) := do
  match ← nextToken with
  | none => throw (.message "not implemented: Parse error: should have next token but got None")
  | some (.ident value) => return value
  | some token => unexpected token

def consumeComponentValue : KM CssParser ComponentValue := do
  match ← nextToken with
  | none => return .keyword []
  | some (.ident value) => return .keyword value
  | some (.number num) => return .number num
  | some token => unexpected token

def consumeSelector : KM CssParser Selector := do
  match ← nextToken with
  | none => return .typeSelector []
  | some (.hashToken value) => return .idSelector (value.drop 1)
  | some (.delim _) => return .classSelector (← consumeIdent)
  | some (.ident value) => return .typeSelector value
  | some token => unexpected token

def consumeDeclaration : KM CssParser (Option Declaration) := do
  match ← nextToken with
  | none => return none
  | some token =>
    reconsume token
    let property ← consumeIdent
    match ← tNext with
    | some .colon =>
      let value ← consumeComponentValue
      return some ⟨property, value⟩
    | _ => return none

def consumeListOfDeclarationsLoop : Nat → List Declaration → KM CssParser (List Declaration)
  | 0, _ => throw .diverges
  | n + 1, declarations => do
    match ← nextToken with
    | none => return declarations
    | some .closeCurly => return declarations
    | some .semiColon => consumeListOfDeclarationsLoop n declarations
    | some (.ident value) =>
      reconsume (.ident value)
      match ← consumeDeclaration with
      | some declaration => consumeListOfDeclarationsLoop n (declarations ++ [declaration])
      | none => consumeListOfDeclarationsLoop n declarations
    | some token => unexpected token

/-- Every round of the loop takes a token. -/
def consumeListOfDeclarations : KM CssParser (List Declaration) := do
  consumeListOfDeclarationsLoop ((← get).remaining + 1) []

def consumeQualifiedRuleLoop : Nat → QualifiedRule → KM CssParser (Option QualifiedRule)
  | 0, _ => throw .diverges
  | n + 1, rule => do
    match ← nextToken with
    | none => return none
    | some .openCurly =>
      let declarations ← consumeListOfDeclarations
      return some { rule with declarations }
    | some token =>
      reconsume token
      let selector ← consumeSelector
      consumeQualifiedRuleLoop n { rule with selector }

def consumeQualifiedRule : KM CssParser (Option QualifiedRule) := do
  consumeQualifiedRuleLoop ((← get).remaining + 1) ⟨.typeSelector [], []⟩

def consumeListOfRulesLoop : Nat → List QualifiedRule → KM CssParser (List QualifiedRule)
  | 0, _ => throw .diverges
  | n + 1, rules => do
    match ← tNext with
    | none => return rules
    | some token =>
      reconsume token
      match ← consumeQualifiedRule with
      | some rule => consumeListOfRulesLoop n (rules ++ [rule])
      | none => consumeListOfRulesLoop n rules

def consumeListOfRules : KM CssParser (List QualifiedRule) := do
  consumeListOfRulesLoop ((← get).remaining + 1) []

def parseStylesheet : KM CssParser StyleSheet := do
  let rules ← consumeListOfRules
  return ⟨rules⟩

end CssParser

/-! ## Every text is parsed to an end -/

namespace CssTokenizer

theorem consumeIdentToken_bounds (c : Char) (rest : List Char) :
    (∃ value after, consumeIdentToken c rest = .ok (value, after) ∧ after.length ≤ rest.length) ∨
      consumeIdentToken c rest = .error (.message "index out of bounds") := by
  have hlen := List.length_dropWhile_le isIdentPart rest
  unfold consumeIdentToken
  split
  · exact .inr rfl
  · rename_i d tail htail
    rw [htail] at hlen
    exact .inl ⟨_, _, rfl, hlen⟩

/-- How `next` can end: at the end of the input, with a token, which takes a character at least, or with a message. -/
inductive Ends (n : Nat) : Except Panic (Option CssToken × List Char) → Prop
  | none : Ends n (.ok (none, []))
  | token {tok : CssToken} {rest : List Char} : rest.length < n → Ends n (.ok (some tok, rest))
  | message {text : String} : Ends n (.error (.message text))

theorem ends_consumeIdentToken {n : Nat} {c : Char} {rest : List Char} (f : List Char → CssToken)
    (h : rest.length < n) : Ends n ((consumeIdentToken c rest).map fun x => (some (f x.1), x.2)) := by
  rcases consumeIdentToken_bounds c rest with ⟨_, _, heq, hlen⟩ | heq
  · rw [heq]
    exact .token (hlen.trans_lt h)
  · rw [heq]
    exact .message

theorem ends_next (s : List Char) : Ends s.length (next s) := by
  have hlen := List.length_dropWhile_le isSpace s
  unfold next
  split
  · exact .none
  · rename_i c rest hs
    rw [hs, List.length_cons] at hlen
    split_ifs with _ _ _ _ _ _ hdigit
    · exact ends_consumeIdentToken _ hlen
    · exact .token hlen
    · exact .token hlen
    · exact .token hlen
    · exact .token hlen
    · exact .token hlen
    · refine .token (lt_of_le_of_lt ?_ hlen)
      rw [consumeNumericToken, Scan.number, if_pos (Bool.and_eq_true_iff.1 hdigit).1]
      exact Scan.length_number_le _ rest
    · exact ends_consumeIdentToken _ hlen
    · exact .message

end CssTokenizer

namespace CssParser

variable {p : CssParser}

/-- Not for want of rounds. -/
abbrev Ends {α : Type} (x : KM CssParser α) (p : CssParser) (Q : α → CssParser → Prop) : Prop :=
  Yields (· ≠ .diverges) x p Q

/-- What is left when a function is done that was called with a token to reconsume, or not. -/
structure Left (p p' : CssParser) : Prop where
  none : p'.reconsumedToken = none
  le : p'.remaining ≤ p.remaining
  lt : p.reconsumedToken.isSome = true → p'.remaining < p.remaining

theorem ends_tNext : Ends tNext p fun tok p' => p'.reconsumedToken = p.reconsumedToken ∧ p'.remaining ≤ p.remaining ∧
    (tok.isSome = true → p'.remaining < p.remaining) := by
  have hends := CssTokenizer.ends_next p.t
  have hrun : tNext.run p = tNext p := rfl
  unfold Ends Yields
  rw [hrun, tNext]
  cases hnext : CssTokenizer.next p.t with
  | error e =>
    rw [hnext] at hends
    cases hends with
    | message => exact nofun
  | ok result =>
    rw [hnext] at hends
    cases hends with
    | none => exact ⟨rfl, Nat.add_le_add_right (Nat.zero_le _) _, nofun⟩
    | token hlt => exact ⟨rfl, Nat.add_le_add_right hlt.le _, fun _ => Nat.add_lt_add_right hlt _⟩

theorem ends_nextToken :
    Ends nextToken p fun tok p' => Left p p' ∧ (tok.isSome = true → p'.remaining < p.remaining) := by
  obtain ⟨input, reconsumed⟩ := p
  cases reconsumed with
  | none =>
    refine .mono (x := tNext) (s := ⟨input, none⟩) ends_tNext ?_
    rintro tok p' ⟨hnone, hle, hlt⟩
    exact ⟨⟨hnone, hle, nofun⟩, hlt⟩
  | some tok => exact ⟨⟨rfl, Nat.le_succ _, fun _ => Nat.lt_succ_self _⟩, fun _ => Nat.lt_succ_self _⟩

variable {α : Type} {tok : CssToken}

/-- A function that begins with `nextToken` leaves less than there was, if the rest of it leaves no more. -/
theorem ends_bind_nextToken {f : Option CssToken → KM CssParser α}
    (hf : ∀ tok p', p'.reconsumedToken = none → (tok.isSome = true → p'.remaining < p.remaining) →
      Ends (f tok) p' fun _ p'' => p''.reconsumedToken = none ∧ p''.remaining ≤ p'.remaining) :
    Ends (nextToken >>= f) p fun _ p' => Left p p' := by
  refine .bind (.mono ends_nextToken ?_)
  rintro tok p1 ⟨h1, hlt⟩
  refine .mono (hf tok p1 h1.none hlt) ?_
  rintro a p2 ⟨hnone, hle⟩
  exact ⟨hnone, hle.trans h1.le, fun h => lt_of_le_of_lt hle (h1.lt h)⟩

theorem ends_pure {a : α} (h : p.reconsumedToken = none) :
    Ends (pure a) p fun _ p' => p'.reconsumedToken = none ∧ p'.remaining ≤ p.remaining := ⟨h, le_refl _⟩

theorem ends_unexpected {Q : α → CssParser → Prop} : Ends (unexpected tok) p Q := nofun

theorem ends_consumeIdent : Ends consumeIdent p fun _ p' => Left p p' := by
  refine ends_bind_nextToken fun tok p' hnone _ => ?_
  split
  · exact nofun
  · exact ends_pure hnone
  · exact ends_unexpected

theorem ends_consumeComponentValue : Ends consumeComponentValue p fun _ p' => Left p p' := by
  refine ends_bind_nextToken fun tok p' hnone _ => ?_
  split
  · exact ends_pure hnone
  · exact ends_pure hnone
  · exact ends_pure hnone
  · exact ends_unexpected

theorem ends_consumeSelector : Ends consumeSelector p fun _ p' => Left p p' := by
  refine ends_bind_nextToken fun tok p' hnone _ => ?_
  split
  · exact ends_pure hnone
  · exact ends_pure hnone
  · refine .bind (.mono ends_consumeIdent ?_)
    rintro _ p'' h
    exact ⟨h.none, h.le⟩
  · exact ends_pure hnone
  · exact ends_unexpected

/-- With a token put back there is one more to come, and then less than that. -/
theorem ends_reconsume {x : KM CssParser α} (hnone : p.reconsumedToken = none)
    (hx : ∀ p', Ends x p' fun _ p'' => Left p' p'') :
    Ends (reconsume tok >>= fun _ => x) p fun _ p' => p'.reconsumedToken = none ∧ p'.remaining ≤ p.remaining := by
  refine .mono (hx { p with reconsumedToken := some tok }) ?_
  rintro a p' h
  have hlt := h.lt rfl
  have hp : p.remaining = p.t.length := by simp [remaining, hnone]
  refine ⟨h.none, ?_⟩
  rw [hp]
  exact Nat.lt_succ_iff.1 hlt

theorem ends_consumeDeclaration : Ends consumeDeclaration p fun _ p' => Left p p' := by
  refine ends_bind_nextToken fun tok p' hnone _ => ?_
  split
  · exact ends_pure hnone
  · refine ends_reconsume hnone fun p1 => .bind (.mono ends_consumeIdent ?_)
    rintro property p2 h2
    refine .bind (.mono ends_tNext ?_)
    rintro colon p3 ⟨hnone3, hle3, -⟩
    have h3 : Left p1 p3 := ⟨hnone3.trans h2.none, hle3.trans h2.le, fun h => lt_of_le_of_lt hle3 (h2.lt h)⟩
    split
    · refine .bind (.mono ends_consumeComponentValue ?_)
      rintro value p4 h4
      exact ⟨h4.none, h4.le.trans h3.le, fun h => lt_of_le_of_lt h4.le (h3.lt h)⟩
    · exact h3

theorem ends_consumeListOfDeclarationsLoop : ∀ (n : Nat) (acc : List Declaration) {p : CssParser}, p.remaining < n →
    Ends (consumeListOfDeclarationsLoop n acc) p fun _ p' => Left p p'
  | n + 1, acc, p, hn => by
    rw [consumeListOfDeclarationsLoop]
    refine ends_bind_nextToken fun tok p1 hnone hlt => ?_
    have hloop : ∀ acc p', tok.isSome = true → p'.remaining ≤ p1.remaining →
        Ends (consumeListOfDeclarationsLoop n acc) p' fun _ p'' => p''.reconsumedToken = none ∧ p''.remaining ≤
        p1.remaining := by
      intro acc p' hsome hle
      have := hlt hsome
      exact (ends_consumeListOfDeclarationsLoop n acc (by omega)).mono fun _ p'' h => ⟨h.none, h.le.trans hle⟩
    split
    · exact ends_pure hnone
    · exact ends_pure hnone
    · exact hloop acc p1 rfl (le_refl _)
    · rw [← bind_assoc]
      refine .bind (.mono (ends_reconsume hnone fun p' => ends_consumeDeclaration) ?_)
      rintro declaration p2 ⟨-, hle⟩
      split
      · exact hloop _ p2 rfl hle
      · exact hloop _ p2 rfl hle
    · exact ends_unexpected

theorem ends_consumeQualifiedRuleLoop : ∀ (n : Nat) (rule : QualifiedRule) {p : CssParser}, p.remaining < n →
    Ends (consumeQualifiedRuleLoop n rule) p fun _ p' => Left p p'
  | n + 1, rule, p, hn => by
    rw [consumeQualifiedRuleLoop]
    refine ends_bind_nextToken fun tok p1 hnone hlt => ?_
    split
    · exact ends_pure hnone
    · refine .bind (.mono (ends_consumeListOfDeclarationsLoop _ [] (Nat.lt_succ_self p1.remaining)) ?_)
      rintro declarations p2 h2
      exact ⟨h2.none, h2.le⟩
    · rw [← bind_assoc]
      refine .bind (.mono (ends_reconsume hnone fun p' => ends_consumeSelector) ?_)
      rintro selector p2 ⟨-, hle⟩
      have := hlt rfl
      exact (ends_consumeQualifiedRuleLoop n _ (by omega)).mono fun _ p' h => ⟨h.none, h.le.trans hle⟩

theorem ends_consumeListOfRulesLoop :
    ∀ (n : Nat) (acc : List QualifiedRule) {p : CssParser}, p.reconsumedToken = none → p.remaining < n →
    Ends (consumeListOfRulesLoop n acc) p fun _ _ => True
  | n + 1, acc, p, hnone, hn => by
    rw [consumeListOfRulesLoop]
    refine .bind (.mono ends_tNext ?_)
    rintro tok p1 ⟨hnone1, -, hlt⟩
    split
    · trivial
    · rw [← bind_assoc]
      refine .bind (.mono (ends_reconsume (hnone1.trans hnone) fun p' =>
        ends_consumeQualifiedRuleLoop _ _ (Nat.lt_succ_self p'.remaining)) ?_)
      rintro rule p2 ⟨hnone2, hle⟩
      have := hlt rfl
      split
      · exact ends_consumeListOfRulesLoop n _ hnone2 (by omega)
      · exact ends_consumeListOfRulesLoop n _ hnone2 (by omega)

/-- The loops have rounds enough for every text: the parser returns, or stops with a message. -/
theorem parseStylesheet_ends (text : List Char) (p' : CssParser) :
    parseStylesheet.run (new text) ≠ .error .diverges p' := by
  intro h
  have hends : Ends parseStylesheet (new text) fun _ _ => True :=
    .bind (.mono (ends_consumeListOfRulesLoop _ [] rfl (Nat.lt_succ_self _)) fun _ _ _ => trivial)
  exact hends.of_error h rfl

end CssParser

end Liumos.Browser
