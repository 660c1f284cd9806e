/-
The tokens of HTML: a machine of 13 states that reads a text, can read its last character again, and keeps
the tag it is at work on. Sources: renderer/html/token.rs, renderer/html/mod.rs.
-/
import Liumos.Lib.Loop
import Liumos.Machine.Basic

namespace Liumos.Browser

open Nat

open Loop (Round)

structure Attribute where
  name : List Char
  value : List Char
  deriving Repr, DecidableEq

def Attribute.addChar (a : Attribute) (c : Char) (isName : Bool) : Attribute :=
  if isName then { a with name := a.name ++ [c] } else { a with value := a.value ++ [c] }

inductive HtmlToken where
  | startTag (tag : List Char) (selfClosing : Bool) (attributes : List Attribute)
  | endTag (tag : List Char) (selfClosing : Bool)
  | char (c : Char)
  | eof
  deriving Repr, DecidableEq

namespace HtmlTokenizer

inductive State where
  | data
  | tagOpen
  | endTagOpen
  | tagName
  | beforeAttributeName
  | attributeName
  | afterAttributeName
  | beforeAttributeValue
  | attributeValueDoubleQuoted
  | attributeValueSingleQuoted
  | attributeValueUnquoted
  | afterAttributeValueQuoted
  | selfClosingStartTag
  deriving Repr, DecidableEq

end HtmlTokenizer

structure HtmlTokenizer where
  state : HtmlTokenizer.State
  pos : Nat
  reconsume : Bool
  latestToken : Option HtmlToken
  input : List Char
  deriving Repr, DecidableEq

namespace HtmlTokenizer

def new (html : List Char) : HtmlTokenizer := ⟨.data, 0, false, none, html⟩

def consumeNextInput (t : HtmlTokenizer) : Except Panic (Char × HtmlTokenizer) :=
  match t.input[t.pos]? with
  | some c => .ok (c, { t with pos := t.pos + 1 })
  | none => .error (.message "index out of bounds")

def reconsumeInput (t : HtmlTokenizer) : Except Panic (Char × HtmlTokenizer) :=
  match t.pos with
  | 0 => .error (.message "index out of bounds")
  | pos + 1 =>
    match t.input[pos]? with
    | some c => .ok (c, { t with reconsume := false })
    | none => .error (.message "index out of bounds")

/-- Most functions begin by asserting that there is a latest token. -/
def latest (t : HtmlTokenizer) : Except Panic HtmlToken :=
  match t.latestToken with
  | some token => .ok token
  | none => .error (.assertFailed "self.latest_token.is_some()")

def createTagOpen (startTagToken : Bool) (t : HtmlTokenizer) : Except Panic HtmlTokenizer :=
  match t.latestToken with
  | none => .ok { t with latestToken := some (if startTagToken then .startTag [] false [] else .endTag [] false) }
  | some _ => .error (.assertFailed "self.latest_token.is_none()")

def appendTagName (c : Char) (t : HtmlTokenizer) : Except Panic HtmlTokenizer := do
  match ← t.latest with
  | .startTag tag selfClosing attributes =>
    return { t with latestToken := some (.startTag (tag ++ [c]) selfClosing attributes) }
  | .endTag tag selfClosing => return { t with latestToken := some (.endTag (tag ++ [c]) selfClosing) }
  | _ => throw (.message "`latest_token` should be either StartTag or EndTag")

def startNewAttribute (t : HtmlTokenizer) : Except Panic HtmlTokenizer := do
  match ← t.latest with
  | .startTag tag selfClosing attributes =>
    return { t with latestToken := some (.startTag tag selfClosing (attributes ++ [⟨[], []⟩])) }
  | _ => throw (.message "`latest_token` should be either StartTag")

def appendAttribute (c : Char) (isName : Bool) (t : HtmlTokenizer) : Except Panic HtmlTokenizer := do
  match ← t.latest with
  | .startTag tag selfClosing attributes =>
    match attributes.getLast? with
    | some last =>
      return { t with latestToken := some (.startTag tag selfClosing (attributes.dropLast ++ [last.addChar c isName])) }
    | none => throw (.assertFailed "len > 0")
  | _ => throw (.message "`latest_token` should be either StartTag")

def setSelfClosingFlag (t : HtmlTokenizer) : Except Panic HtmlTokenizer := do
  match ← t.latest with
  | .startTag tag _ attributes => return { t with latestToken := some (.startTag tag true attributes) }
  | .endTag tag _ => return { t with latestToken := some (.endTag tag true) }
  | _ => throw (.message "`latest_token` should be either StartTag or EndTag")

def isEof (t : HtmlTokenizer) : Bool := t.pos > t.input.length

/-- How a round of the loop in `next` ends: with another round, with a token, or with a panic. -/
abbrev Reaction := Except Panic (Round HtmlTokenizer (HtmlToken × HtmlTokenizer))

def takeLatestToken (t : HtmlTokenizer) : Reaction := do
  let token ← t.latest
  return .done (token, { t with latestToken := none })

/-! ## The states -/

def dataState (c : Char) (t : HtmlTokenizer) : Reaction :=
  if c = '<' then .ok (.again { t with state := .tagOpen })
  else if t.isEof then .ok (.done (.eof, t))
  else .ok (.done (.char c, t))

def tagOpenState (c : Char) (t : HtmlTokenizer) : Reaction :=
  if c = '/' then .ok (.again { t with state := .endTagOpen })
  else if c.isAlpha then Round.again <$> createTagOpen true { t with reconsume := true, state := .tagName }
  else if t.isEof then .ok (.done (.eof, t))
  else .ok (.again { t with reconsume := true, state := .data })

def endTagOpenState (c : Char) (t : HtmlTokenizer) : Reaction :=
  if t.isEof then .ok (.done (.eof, t))
  else if c.isAlpha then Round.again <$> createTagOpen false { t with reconsume := true, state := .tagName }
  else .ok (.again t)

def tagNameState (c : Char) (t : HtmlTokenizer) : Reaction :=
  if c = ' ' then .ok (.again { t with state := .beforeAttributeName })
  else if c = '/' then .ok (.again { t with state := .selfClosingStartTag })
  else if c = '>' then takeLatestToken { t with state := .data }
  else if c.isUpper then Round.again <$> appendTagName c.toLower t
  else if t.isEof then .ok (.done (.eof, t))
  else Round.again <$> appendTagName c t

def beforeAttributeNameState (c : Char) (t : HtmlTokenizer) : Reaction :=
  if c = '/' || c = '>' || t.isEof then .ok (.again { t with reconsume := true, state := .afterAttributeName })
  else Round.again <$> startNewAttribute { t with reconsume := true, state := .attributeName }

def attributeNameState (c : Char) (t : HtmlTokenizer) : Reaction :=
  if c = ' ' || c = '/' || c = '>' || t.isEof then .ok
    (.again { t with reconsume := true, state := .afterAttributeName })
  else if c = '=' then .ok (.again { t with state := .beforeAttributeValue })
  else if c.isUpper then Round.again <$> appendAttribute c.toLower true t
  else Round.again <$> appendAttribute c true t

def afterAttributeNameState (c : Char) (t : HtmlTokenizer) : Reaction :=
  if c = ' ' then .ok (.again t)
  else if c = '/' then .ok (.again { t with state := .selfClosingStartTag })
  else if c = '=' then .ok (.again { t with state := .beforeAttributeValue })
  else if c = '>' then takeLatestToken { t with state := .data }
  else if t.isEof then .ok (.done (.eof, t))
  else Round.again <$> startNewAttribute { t with reconsume := true, state := .attributeName }

def beforeAttributeValueState (c : Char) (t : HtmlTokenizer) : Reaction :=
  if c = ' ' then .ok (.again t)
  else if c = '"' then .ok (.again { t with state := .attributeValueDoubleQuoted })
  else if c = '\'' then .ok (.again { t with state := .attributeValueSingleQuoted })
  else .ok (.again { t with reconsume := true, state := .attributeValueUnquoted })

/-- The two states for a quoted value differ in the quote. -/
def attributeValueQuotedState (quote c : Char) (t : HtmlTokenizer) : Reaction :=
  if c = quote then .ok (.again { t with state := .afterAttributeValueQuoted })
  else if t.isEof then .ok (.done (.eof, t))
  else Round.again <$> appendAttribute c false t

def attributeValueDoubleQuotedState : Char → HtmlTokenizer → Reaction := attributeValueQuotedState '"'

def attributeValueSingleQuotedState : Char → HtmlTokenizer → Reaction := attributeValueQuotedState '\''

def attributeValueUnquotedState (c : Char) (t : HtmlTokenizer) : Reaction :=
  if c = ' ' then .ok (.again { t with state := .beforeAttributeName })
  else if c = '>' then takeLatestToken { t with state := .data }
  else if t.isEof then .ok (.done (.eof, t))
  else Round.again <$> appendAttribute c false t

def afterAttributeValueQuotedState (c : Char) (t : HtmlTokenizer) : Reaction :=
  if c = ' ' then .ok (.again { t with state := .beforeAttributeName })
  else if c = '/' then .ok (.again { t with state := .selfClosingStartTag })
  else if c = '>' then takeLatestToken { t with state := .data }
  else if t.isEof then .ok (.done (.eof, t))
  else .ok (.again { t with reconsume := true, state := .beforeAttributeValue })

def selfClosingStartTagState (c : Char) (t : HtmlTokenizer) : Reaction :=
  if c = '>' then setSelfClosingFlag t >>= fun t => takeLatestToken { t with state := .data }
  else if t.isEof then .ok (.done (.eof, t))
  else .ok (.again t)

/-- What the loop does with a character. -/
def react (c : Char) (t : HtmlTokenizer) : Reaction :=
  match t.state with
  | .data => dataState c t
  | .tagOpen => tagOpenState c t
  | .endTagOpen => endTagOpenState c t
  | .tagName => tagNameState c t
  | .beforeAttributeName => beforeAttributeNameState c t
  | .attributeName => attributeNameState c t
  | .afterAttributeName => afterAttributeNameState c t
  | .beforeAttributeValue => beforeAttributeValueState c t
  | .attributeValueDoubleQuoted => attributeValueDoubleQuotedState c t
  | .attributeValueSingleQuoted => attributeValueSingleQuotedState c t
  | .attributeValueUnquoted => attributeValueUnquotedState c t
  | .afterAttributeValueQuoted => afterAttributeValueQuotedState c t
  | .selfClosingStartTag => selfClosingStartTagState c t

def step (t : HtmlTokenizer) : Reaction := do
  let (c, t) ← if t.reconsume then t.reconsumeInput else t.consumeNextInput
  react c t

/-- No character is read more than four times. -/
def next (t : HtmlTokenizer) : Except Panic (Option HtmlToken × HtmlTokenizer) :=
  if t.pos ≥ t.input.length then .ok (none, t)
  else (Loop.run step .diverges (4 * (t.input.length - t.pos) + 4) t).map fun x => (some x.1, x.2)

/-! ## Every call of `next` comes to an end -/

variable {t t' : HtmlTokenizer} {c : Char}

/-- A function that changes the latest token only, or stops with a panic of its own. -/
def Edits (t : HtmlTokenizer) (x : Except Panic HtmlTokenizer) : Prop :=
  (∃ token, x = .ok { t with latestToken := token }) ∨ ∃ e, x = .error e ∧ e ≠ .diverges

theorem edits_latest {f : HtmlToken → Except Panic HtmlTokenizer} (hf : ∀ token, Edits t (f token)) :
    Edits t (t.latest >>= f) := by
  unfold latest
  split
  · exact hf _
  · exact .inr ⟨_, rfl, nofun⟩

theorem edits_createTagOpen (startTagToken : Bool) : Edits t (createTagOpen startTagToken t) := by
  unfold createTagOpen
  split
  · exact .inl ⟨_, rfl⟩
  · exact .inr ⟨_, rfl, nofun⟩

theorem edits_appendTagName : Edits t (appendTagName c t) := by
  refine edits_latest fun token => ?_
  split
  · exact .inl ⟨_, rfl⟩
  · exact .inl ⟨_, rfl⟩
  · exact .inr ⟨_, rfl, nofun⟩

theorem edits_startNewAttribute : Edits t (startNewAttribute t) := by
  refine edits_latest fun token => ?_
  split
  · exact .inl ⟨_, rfl⟩
  · exact .inr ⟨_, rfl, nofun⟩

theorem edits_appendAttribute (isName : Bool) : Edits t (appendAttribute c isName t) := by
  refine edits_latest fun token => ?_
  split
  · split
    · exact .inl ⟨_, rfl⟩
    · exact .inr ⟨_, rfl, nofun⟩
  · exact .inr ⟨_, rfl, nofun⟩

theorem edits_setSelfClosingFlag : Edits t (setSelfClosingFlag t) := by
  refine edits_latest fun token => ?_
  split
  · exact .inl ⟨_, rfl⟩
  · exact .inl ⟨_, rfl⟩
  · exact .inr ⟨_, rfl, nofun⟩

/-- How often a character is still read if it is read again in this state. A character that ends the name of an
attribute is read once more after it, and one that begins a name once more in it. -/
def rank : State → Char → Nat
  | .attributeName, c => if c = ' ' || c = '/' || c = '>' then 2 else 1
  | .afterAttributeName, c => if c = ' ' || c = '/' || c = '=' || c = '>' then 1 else 2
  | .beforeAttributeName, _ | .afterAttributeValueQuoted, _ => 3
  | .tagOpen, _ | .endTagOpen, _ | .beforeAttributeValue, _ => 2
  | _, _ => 1

theorem rank_bounds (state : State) (c : Char) : 0 < rank state c ∧ rank state c ≤ 3 := by
  unfold rank
  split
  · split_ifs <;> decide
  · split_ifs <;> decide
  all_goals decide

/-- What a character that was just read can lead to. If it is to be read again, its rank has become less. -/
inductive Reacts (c : Char) (t : HtmlTokenizer) : Reaction → Prop
  | again {t' : HtmlTokenizer} : t'.pos = t.pos → t'.input = t.input →
      (t'.reconsume = true → rank t'.state c < rank t.state c) → Reacts c t (.ok (.again t'))
  | done {token : HtmlToken} {t' : HtmlTokenizer} : t'.pos = t.pos → t'.input = t.input → t'.reconsume = false →
      Reacts c t (.ok (.done (token, t')))
  | error {e : Panic} : e ≠ .diverges → Reacts c t (.error e)

theorem reacts_edits {x : Except Panic HtmlTokenizer} (hx : Edits t' x) (hpos : t'.pos = t.pos)
    (hinput : t'.input = t.input) (hrank : t'.reconsume = true → rank t'.state c < rank t.state c) :
    Reacts c t (Round.again <$> x) := by
  rcases hx with ⟨_, rfl⟩ | ⟨_, rfl, he⟩
  · exact .again hpos hinput hrank
  · exact .error he

theorem reacts_takeLatestToken (hpos : t'.pos = t.pos) (hinput : t'.input = t.input) (hr : t'.reconsume = false) :
    Reacts c t (takeLatestToken t') := by
  unfold takeLatestToken latest
  split
  · exact .done hpos hinput hr
  · exact .error nofun

section

variable (hr : t.reconsume = false)

include hr

theorem reacts_same (hpos : t'.pos = t.pos) (hinput : t'.input = t.input) (hr' : t'.reconsume = t.reconsume) :
    Reacts c t (.ok (.again t')) := .again hpos hinput fun h => by rw [hr', hr] at h; cases h

theorem reacts_edits_same {x : Except Panic HtmlTokenizer} (hx : Edits t x) : Reacts c t (Round.again <$> x) :=
  reacts_edits hx rfl rfl fun h => by rw [hr] at h; cases h

theorem reacts_dataState : Reacts c t (dataState c t) := by
  unfold dataState
  split_ifs
  · exact reacts_same hr rfl rfl rfl
  · exact .done rfl rfl hr
  · exact .done rfl rfl hr

theorem reacts_tagOpenState (hs : t.state = .tagOpen) : Reacts c t (tagOpenState c t) := by
  unfold tagOpenState
  split_ifs
  · exact reacts_same hr rfl rfl rfl
  · exact reacts_edits (edits_createTagOpen true) rfl rfl fun _ => by rw [hs]; exact one_lt_two
  · exact .done rfl rfl hr
  · exact .again rfl rfl fun _ => by rw [hs]; exact one_lt_two

theorem reacts_endTagOpenState (hs : t.state = .endTagOpen) : Reacts c t (endTagOpenState c t) := by
  unfold endTagOpenState
  split_ifs
  · exact .done rfl rfl hr
  · exact reacts_edits (edits_createTagOpen false) rfl rfl fun _ => by rw [hs]; exact one_lt_two
  · exact reacts_same hr rfl rfl rfl

theorem reacts_tagNameState : Reacts c t (tagNameState c t) := by
  unfold tagNameState
  split_ifs
  · exact reacts_same hr rfl rfl rfl
  · exact reacts_same hr rfl rfl rfl
  · exact reacts_takeLatestToken rfl rfl hr
  · exact reacts_edits_same hr edits_appendTagName
  · exact .done rfl rfl hr
  · exact reacts_edits_same hr edits_appendTagName

omit hr in
theorem reacts_beforeAttributeNameState (hs : t.state = .beforeAttributeName) :
    Reacts c t (beforeAttributeNameState c t) := by
  have hrank : ∀ state, state = .afterAttributeName ∨ state = .attributeName → rank state c < rank t.state c := by
    rintro state (rfl | rfl) <;> rw [hs] <;> simp only [rank] <;> split_ifs <;> decide
  unfold beforeAttributeNameState
  split_ifs
  · exact .again rfl rfl fun _ => hrank _ (.inl rfl)
  · exact reacts_edits edits_startNewAttribute rfl rfl fun _ => hrank _ (.inr rfl)

/-- The end of a name that is read again. At the end of the input there is none: the character before it was read. -/
theorem reacts_attributeNameState (hs : t.state = .attributeName) (heof : t.isEof = false) :
    Reacts c t (attributeNameState c t) := by
  unfold attributeNameState
  rw [heof, Bool.or_false]
  split_ifs with hend
  · refine .again rfl rfl fun _ => ?_
    rw [hs]
    show rank .afterAttributeName c < rank .attributeName c
    simp only [Bool.or_eq_true, decide_eq_true_eq] at hend
    rcases hend with (rfl | rfl) | rfl <;> decide
  · exact reacts_same hr rfl rfl rfl
  · exact reacts_edits_same hr (edits_appendAttribute true)
  · exact reacts_edits_same hr (edits_appendAttribute true)

theorem reacts_afterAttributeNameState (hs : t.state = .afterAttributeName) :
    Reacts c t (afterAttributeNameState c t) := by
  unfold afterAttributeNameState
  split_ifs with h1 h2 h3 h4
  · exact reacts_same hr rfl rfl rfl
  · exact reacts_same hr rfl rfl rfl
  · exact reacts_same hr rfl rfl rfl
  · exact reacts_takeLatestToken rfl rfl hr
  · exact .done rfl rfl hr
  · refine reacts_edits edits_startNewAttribute rfl rfl fun _ => ?_
    rw [hs]
    simp [rank, h1, h2, h3, h4]

theorem reacts_beforeAttributeValueState (hs : t.state = .beforeAttributeValue) :
    Reacts c t (beforeAttributeValueState c t) := by
  unfold beforeAttributeValueState
  split_ifs
  · exact reacts_same hr rfl rfl rfl
  · exact reacts_same hr rfl rfl rfl
  · exact reacts_same hr rfl rfl rfl
  · exact .again rfl rfl fun _ => by rw [hs]; exact one_lt_two

theorem reacts_attributeValueQuotedState (quote : Char) : Reacts c t (attributeValueQuotedState quote c t) := by
  unfold attributeValueQuotedState
  split_ifs
  · exact reacts_same hr rfl rfl rfl
  · exact .done rfl rfl hr
  · exact reacts_edits_same hr (edits_appendAttribute false)

theorem reacts_attributeValueUnquotedState : Reacts c t (attributeValueUnquotedState c t) := by
  unfold attributeValueUnquotedState
  split_ifs
  · exact reacts_same hr rfl rfl rfl
  · exact reacts_takeLatestToken rfl rfl hr
  · exact .done rfl rfl hr
  · exact reacts_edits_same hr (edits_appendAttribute false)

theorem reacts_afterAttributeValueQuotedState (hs : t.state = .afterAttributeValueQuoted) :
    Reacts c t (afterAttributeValueQuotedState c t) := by
  unfold afterAttributeValueQuotedState
  split_ifs
  · exact reacts_same hr rfl rfl rfl
  · exact reacts_same hr rfl rfl rfl
  · exact reacts_takeLatestToken rfl rfl hr
  · exact .done rfl rfl hr
  · exact .again rfl rfl fun _ => by rw [hs]; exact lt_succ_self 2

theorem reacts_selfClosingStartTagState : Reacts c t (selfClosingStartTagState c t) := by
  unfold selfClosingStartTagState
  split_ifs
  · rcases edits_setSelfClosingFlag (t := t) with ⟨_, h⟩ | ⟨_, h, he⟩
    · rw [h]
      exact reacts_takeLatestToken rfl rfl hr
    · rw [h]
      exact .error he
  · exact .done rfl rfl hr
  · exact reacts_same hr rfl rfl rfl

theorem reacts_react (heof : t.isEof = false) : Reacts c t (react c t) := by
  unfold react
  split
  · exact reacts_dataState hr
  · exact reacts_tagOpenState hr ‹_›
  · exact reacts_endTagOpenState hr ‹_›
  · exact reacts_tagNameState hr
  · exact reacts_beforeAttributeNameState ‹_›
  · exact reacts_attributeNameState hr ‹_› heof
  · exact reacts_afterAttributeNameState hr ‹_›
  · exact reacts_beforeAttributeValueState hr ‹_›
  · exact reacts_attributeValueQuotedState hr _
  · exact reacts_attributeValueQuotedState hr _
  · exact reacts_attributeValueUnquotedState hr
  · exact reacts_afterAttributeValueQuotedState hr ‹_›
  · exact reacts_selfClosingStartTagState hr

end

/-- The place of the character that the next round reads. -/
def place (t : HtmlTokenizer) : Nat := if t.reconsume then t.pos - 1 else t.pos

/-- A round reads the character at the place, if the place is in the input. -/
theorem step_eq (hpos : t.reconsume = true → 0 < t.pos) : step t = match t.input[t.place]? with
    | some c => react c { t with pos := t.place + 1, reconsume := false }
    | none => .error (.message "index out of bounds") := by
  obtain ⟨state, pos, reconsume, token, input⟩ := t
  cases reconsume with
  | false =>
    show (consumeNextInput ⟨state, pos, false, token, input⟩ >>= fun x => react x.1 x.2) =
      match input[pos]? with | some c => _ | none => _
    unfold consumeNextInput
    cases input[pos]? with
    | none => rfl
    | some c => rfl
  | true =>
    obtain ⟨pos, rfl⟩ := exists_eq_succ_of_ne_zero (hpos rfl).ne'
    show (reconsumeInput ⟨state, pos + 1, true, token, input⟩ >>= fun x => react x.1 x.2) =
      match input[pos]? with | some c => _ | none => _
    unfold reconsumeInput
    dsimp only
    cases input[pos]? with
    | none => rfl
    | some c => rfl

/-- How many rounds there can be. -/
def weight (t : HtmlTokenizer) : Nat :=
  4 * (t.input.length - t.pos) + if t.reconsume then rank t.state (t.input[t.place]?.getD ' ') else 0

/-- How the loop ends: it has come further, with no character to be read again, or it stops with a panic of its own. -/
inductive Ends (t : HtmlTokenizer) : Except Panic (HtmlToken × HtmlTokenizer) → Prop
  | token {token : HtmlToken} {t' : HtmlTokenizer} : t'.input = t.input → t'.reconsume = false → t.place < t'.pos →
      Ends t (.ok (token, t'))
  | error {e : Panic} : e ≠ .diverges → Ends t (.error e)

theorem weight_lt (hpos : t.reconsume = true → 0 < t.pos) (hc : t.input[t.place]? = some c)
    (hpos' : t'.pos = t.place + 1) (hinput : t'.input = t.input)
    (hrank : t'.reconsume = true → rank t'.state c < rank t.state c) : t'.weight < t.weight := by
  have hlt : t.place < t.input.length := (List.getElem?_eq_some_iff.1 hc).1
  obtain ⟨hone, hle⟩ := rank_bounds t.state c
  -- what is left to read after this character, and a rank that is less than the rank before
  have hafter : t'.weight < 4 * (t.input.length - (t.place + 1)) + rank t.state c := by
    unfold weight
    rw [hinput, hpos']
    cases hr' : t'.reconsume with
    | false => simpa using hone
    | true =>
      have hplace' : t'.place = t.place := by simp [place, hr', hpos']
      rw [hplace', hc, if_pos rfl, Option.getD_some]
      exact Nat.add_lt_add_left (hrank hr') _
  refine lt_of_lt_of_le hafter ?_
  unfold weight
  cases hr : t.reconsume with
  | false =>
    have hplace : t.place = t.pos := by simp [place, hr]
    rw [if_neg Bool.false_ne_true]
    omega
  | true =>
    have hplace : t.place + 1 = t.pos := by
      have := hpos hr
      simp only [place, hr, if_true]
      omega
    rw [hplace, hc, if_pos rfl, Option.getD_some]

/-- What a round can lead to. -/
theorem reacts_step (hpos : t.reconsume = true → 0 < t.pos) : step t = .error (.message "index out of bounds") ∨
    ∃ c, t.input[t.place]? = some c ∧ Reacts c { t with pos := t.place + 1, reconsume := false } (step t) := by
  rw [step_eq hpos]
  cases hc : t.input[t.place]? with
  | none => exact .inl rfl
  | some c =>
    have hlt : t.place < t.input.length := (List.getElem?_eq_some_iff.1 hc).1
    exact .inr ⟨c, rfl, reacts_react rfl (decide_eq_false (not_lt.2 hlt))⟩

theorem ends_loop (n : Nat) (hpos : t.reconsume = true → 0 < t.pos) (hn : t.weight < n) :
    Ends t (Loop.run step .diverges n t) := by
  refine Loop.run_rule (I := fun t => t.reconsume = true → 0 < t.pos) (P := Ends) ?_ ?_ ?_ n hpos hn
  · intro t t' hpos hagain
    obtain herror | ⟨c, hc, hreacts⟩ := reacts_step hpos
    · cases hagain.symm.trans herror
    · rw [show step t = _ from hagain] at hreacts
      cases hreacts with
      | again hpos' hinput hrank =>
        refine ⟨fun _ => by rw [hpos']; exact succ_pos _, weight_lt hpos hc hpos' hinput hrank, fun x hx => ?_⟩
        cases hx with
        | token hinput' hr' hlt' =>
          refine .token (hinput'.trans hinput) hr' (lt_of_le_of_lt ?_ hlt')
          have : t'.pos - 1 = t.place := by rw [hpos']; rfl
          unfold place at this ⊢
          split_ifs at * <;> omega
        | error he => exact .error he
  · intro t r hpos hdone
    obtain herror | ⟨c, hc, hreacts⟩ := reacts_step hpos
    · cases hdone.symm.trans herror
    · rw [hdone] at hreacts
      cases hreacts with
      | done hpos' hinput hr' => exact .token hinput hr' (hpos'.symm ▸ lt_succ_self t.place)
  · intro t e hpos he
    obtain herror | ⟨c, hc, hreacts⟩ := reacts_step hpos
    · cases he.symm.trans herror
      exact .error nofun
    · rw [he] at hreacts
      cases hreacts with
      | error hne => exact .error hne

/-- The rounds are enough. -/
theorem ends_next (t : HtmlTokenizer) : Ends t (Loop.run step .diverges (4 * (t.input.length - t.pos) + 4) t) := by
  by_cases hpos : t.reconsume = true → 0 < t.pos
  · refine ends_loop _ hpos ?_
    unfold weight
    have := rank_bounds t.state (t.input[t.place]?.getD ' ')
    split_ifs <;> omega
  · push Not at hpos
    obtain ⟨hr, h0⟩ := hpos
    have herror : step t = .error (.message "index out of bounds") := by
      obtain ⟨_, pos, _, _, _⟩ := t
      cases hr
      obtain rfl : pos = 0 := le_zero.1 h0
      rfl
    rw [Loop.run, herror]
    refine .error fun h => ?_
    cases h

end HtmlTokenizer

end Liumos.Browser
