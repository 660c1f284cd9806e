/-
Tokens that are written as HTML and read again. A run of the tokenizer is followed by what it looks at: its
state, the token it is at work on, and the text that is still to be read.
-/
import Liumos.Browser.HtmlToken

namespace Liumos.Browser

open List

/-! ## Writing tokens -/

/-- A tag name begins with a letter and has no upper case. -/
def IsTagName (w : List Char) : Prop :=
  (∃ c rest, w = c :: rest ∧ c.isAlpha = true) ∧ ∀ d ∈ w, d.isUpper = false ∧ d ≠ ' ' ∧ d ≠ '/' ∧ d ≠ '>'

structure Attribute.Printable (a : Attribute) : Prop where
  ne_nil : a.name ≠ []
  name : ∀ d ∈ a.name, d.isUpper = false ∧ d ≠ ' ' ∧ d ≠ '/' ∧ d ≠ '>' ∧ d ≠ '='
  value : ∀ d ∈ a.value, d ≠ '"'

/-- ` name="value"`. -/
def Attribute.text (a : Attribute) : List Char := ' ' :: (a.name ++ '=' :: '"' :: (a.value ++ ['"']))

def closing (selfClosing : Bool) : List Char := if selfClosing then ['/', '>'] else ['>']

namespace HtmlToken

def text : HtmlToken → List Char
  | startTag tag selfClosing attributes => '<' :: (tag ++ (attributes.flatMap Attribute.text ++ closing selfClosing))
  | endTag tag selfClosing => '<' :: '/' :: (tag ++ closing selfClosing)
  | char c => [c]
  | eof => []

def Printable : HtmlToken → Prop
  | startTag tag _ attributes => IsTagName tag ∧ ∀ a ∈ attributes, a.Printable
  | endTag tag _ => IsTagName tag
  | char c => c ≠ '<'
  | eof => False

end HtmlToken

namespace HtmlTokenizer

/-- The tokens that calls of `next` return one after the other, up to the call that returns `None`. -/
def Emits : List HtmlToken → HtmlTokenizer → Prop
  | [], t => ∃ t', next t = .ok (none, t')
  | token :: tokens, t => ∃ t', next t = .ok (some token, t') ∧ Emits tokens t'

/-! ## Following a run -/

/-- The state, the latest token, and the text from the next character on. -/
structure Looks (t : HtmlTokenizer) (state : State) (latest : Option HtmlToken) (s : List Char) : Prop where
  state : t.state = state
  latest : t.latestToken = latest
  pos : t.reconsume = true → 0 < t.pos
  ahead : t.input.drop t.place = s

/-- A run within one call of `next`. -/
def Reaches (t : HtmlTokenizer) (state : State) (latest : Option HtmlToken) (s : List Char) : Prop :=
  ∃ t', Loop.Reaches step t t' ∧ Looks t' state latest s

variable {t t' : HtmlTokenizer} {state state' : State} {latest latest' : Option HtmlToken} {c : Char} {rest : List Char}

/-- What a round does once it has read `c`. -/
theorem Looks.step (h : Looks t state latest (c :: rest)) : ∃ pos input, ¬ input.length < pos ∧
    HtmlTokenizer.step t = react c ⟨state, pos, false, latest, input⟩ ∧
      (∀ state' latest', Looks ⟨state', pos, false, latest', input⟩ state' latest' rest) ∧
      ∀ state' latest', Looks ⟨state', pos, true, latest', input⟩ state' latest' (c :: rest) := by
  have hc : t.input[t.place]? = some c := by rw [← head?_drop, h.ahead, head?_cons]
  have hlt : t.place < t.input.length := (List.getElem?_eq_some_iff.1 hc).1
  have hrest : t.input.drop (t.place + 1) = rest := by rw [← drop_drop, h.ahead, drop_one, tail_cons]
  refine ⟨t.place + 1, t.input, Nat.not_lt.2 hlt, ?_, fun state' latest' => ⟨rfl, rfl, nofun, hrest⟩,
    fun state' latest' => ⟨rfl, rfl, fun _ => Nat.succ_pos _, h.ahead⟩⟩
  rw [step_eq h.pos, hc, ← h.state, ← h.latest]

theorem Reaches.go (h : Reaches t state latest (c :: rest)) (hreact : ∀ pos input, ¬ input.length < pos →
      react c ⟨state, pos, false, latest, input⟩ = .ok (.again ⟨state', pos, false, latest', input⟩)) :
    Reaches t state' latest' rest := by
  obtain ⟨_, hsteps, h₁⟩ := h
  obtain ⟨pos, input, hpos, hstep, hgo, -⟩ := h₁.step
  exact ⟨_, hsteps.tail (hstep.trans (hreact pos input hpos)), hgo state' latest'⟩

/-- The character is read again. -/
theorem Reaches.back (h : Reaches t state latest (c :: rest)) (hreact : ∀ pos input, ¬ input.length < pos →
      react c ⟨state, pos, false, latest, input⟩ = .ok (.again ⟨state', pos, true, latest', input⟩)) :
    Reaches t state' latest' (c :: rest) := by
  obtain ⟨_, hsteps, h₁⟩ := h
  obtain ⟨pos, input, hpos, hstep, -, hback⟩ := h₁.step
  exact ⟨_, hsteps.tail (hstep.trans (hreact pos input hpos)), hback state' latest'⟩

/-- Between two calls of `next`. -/
structure Ready (t : HtmlTokenizer) (s : List Char) : Prop extends Looks t .data none s where
  reconsume : t.reconsume = false

theorem Ready.reaches {s : List Char} (h : Ready t s) : Reaches t .data none s := ⟨t, .refl, h.toLooks⟩

theorem Ready.next_nil (h : Ready t []) : next t = .ok (none, t) := by
  have hplace : t.place = t.pos := by simp [place, h.reconsume]
  have hend : t.input.length ≤ t.pos := by rw [← hplace]; exact drop_eq_nil_iff.1 h.ahead
  rw [next, if_pos hend]

theorem Reaches.emit {token : HtmlToken} {d : Char} {s : List Char} (h : Reaches t state latest (c :: rest))
    (ht : Ready t (d :: s)) (hreact : ∀ pos input, ¬ input.length < pos →
      react c ⟨state, pos, false, latest, input⟩ = .ok (.done (token, ⟨.data, pos, false, none, input⟩))) :
    ∃ t', next t = .ok (some token, t') ∧ Ready t' rest := by
  obtain ⟨_, hsteps, h₁⟩ := h
  obtain ⟨pos, input, hpos, hstep, hgo, -⟩ := h₁.step
  have hplace : t.place = t.pos := by simp [place, ht.reconsume]
  have hlt : t.pos < t.input.length := by
    by_contra hge
    have hnil := ht.ahead
    rw [hplace, drop_eq_nil_iff.2 (Nat.not_lt.1 hge)] at hnil
    cases hnil
  have hends := ends_next t
  refine ⟨⟨.data, pos, false, none, input⟩, ?_, hgo .data none, rfl⟩
  rcases Loop.run_error_or_done hsteps (hstep.trans (hreact pos input hpos))
    (4 * (t.input.length - t.pos) + 4) with hloop | hloop
  · rw [hloop] at hends
    cases hends with
    | error he => exact absurd rfl he
  · rw [next, if_neg (Nat.not_le.2 hlt), hloop]
    rfl

/-! ## Names and values -/

/-- A state that takes the characters of a word into its token, one by one. -/
theorem Reaches.word {f : List Char → HtmlToken} {P : Char → Prop}
    (hreact : ∀ tag c, P c → ∀ pos input, ¬ input.length < pos →
      react c ⟨state, pos, false, some (f tag), input⟩ =
        .ok (.again ⟨state, pos, false, some (f (tag ++ [c])), input⟩)) :
    ∀ (w : List Char) {tag : List Char},
      (∀ d ∈ w, P d) → Reaches t state (some (f tag)) (w ++ rest) → Reaches t state (some (f (tag ++ w))) rest
  | [], tag, _, h => by rwa [append_nil]
  | c :: w, tag, hw, h => by
    have hrest := Reaches.word hreact w (fun d hd => hw d (mem_cons_of_mem c hd))
      (h.go (hreact tag c (hw c mem_cons_self)))
    rwa [append_assoc] at hrest

theorem Reaches.tagName (mk : List Char → HtmlToken)
    (hmk : ∀ tag c state pos input, appendTagName c ⟨state, pos, false, some (mk tag), input⟩ =
      .ok ⟨state, pos, false, some (mk (tag ++ [c])), input⟩) (w tag : List Char)
    (hw : ∀ d ∈ w, d.isUpper = false ∧ d ≠ ' ' ∧ d ≠ '/' ∧ d ≠ '>')
    (h : Reaches t .tagName (some (mk tag)) (w ++ rest)) : Reaches t .tagName (some (mk (tag ++ w))) rest := by
  refine .word (fun tag c hc pos input hpos => ?_) w hw h
  obtain ⟨h1, h2, h3, h4⟩ := hc
  simp [react, tagNameState, h1, h2, h3, h4, isEof, hpos, hmk]

variable {tag : List Char} {attributes : List Attribute}

/-- What `append_attribute` does to the last attribute. -/
theorem appendAttribute_eq (c : Char) (isName : Bool) (a : Attribute) (state : State) (pos : Nat) (input : List Char) :
    appendAttribute c isName ⟨state, pos, false, some (.startTag tag false (attributes ++ [a])), input⟩ =
      .ok ⟨state, pos, false, some (.startTag tag false (attributes ++ [a.addChar c isName])), input⟩ := by
  simp [appendAttribute, HtmlTokenizer.latest, bind, Except.bind]
  rfl

theorem Reaches.attributeName (w : List Char) {a : Attribute}
    (hw : ∀ d ∈ w, d.isUpper = false ∧ d ≠ ' ' ∧ d ≠ '/' ∧ d ≠ '>' ∧ d ≠ '=')
    (h : Reaches t .attributeName (some (.startTag tag false (attributes ++ [a]))) (w ++ rest)) :
    Reaches t .attributeName (some (.startTag tag false (attributes ++ [{ a with name := a.name ++ w }]))) rest := by
  refine .word (f := fun name => .startTag tag false (attributes ++ [{ a with name }]))
    (fun _ c hc pos input hpos => ?_) w hw h
  obtain ⟨h1, h2, h3, h4, h5⟩ := hc
  simp [react, attributeNameState, h1, h2, h3, h4, h5, isEof, hpos, appendAttribute_eq, Attribute.addChar]

theorem Reaches.attributeValue (w : List Char) {a : Attribute} (hw : ∀ d ∈ w, d ≠ '"')
    (h : Reaches t .attributeValueDoubleQuoted (some (.startTag tag false (attributes ++ [a]))) (w ++ rest)) :
    Reaches t .attributeValueDoubleQuoted
      (some (.startTag tag false (attributes ++ [{ a with value := a.value ++ w }]))) rest := by
  refine .word (f := fun value => .startTag tag false (attributes ++ [{ a with value }]))
    (fun _ c hc pos input hpos => ?_) w hw h
  simp [react, attributeValueDoubleQuotedState, attributeValueQuotedState, hc, isEof, hpos, appendAttribute_eq,
    Attribute.addChar]

/-! ## Attributes -/

/-- The states in which a tag can go on with an attribute, or end. -/
def AfterPart (state : State) : Prop := state = .tagName ∨ state = .afterAttributeValueQuoted

theorem Reaches.attribute {a : Attribute} (ha : a.Printable) (hstate : AfterPart state)
    (h : Reaches t state (some (.startTag tag false attributes)) (a.text ++ rest)) :
    Reaches t .afterAttributeValueQuoted (some (.startTag tag false (attributes ++ [a]))) rest := by
  obtain ⟨_, value⟩ := a
  obtain ⟨c, w, rfl⟩ := exists_cons_of_ne_nil ha.ne_nil
  obtain ⟨-, -, h3, h4, -⟩ := ha.name c mem_cons_self
  -- the space
  have hspace : Reaches t .beforeAttributeName (some (.startTag tag false attributes))
      (c :: (w ++ '=' :: '"' :: (value ++ '"' :: rest))) := by
    have h' : Reaches t state (some (.startTag tag false attributes))
        (' ' :: c :: (w ++ '=' :: '"' :: (value ++ '"' :: rest))) := by
      simpa [Attribute.text] using h
    refine h'.go fun pos input hpos => ?_
    rcases hstate with rfl | rfl <;> rfl
  -- the first character of the name is read again
  have hfirst : Reaches t .attributeName (some (.startTag tag false (attributes ++ [⟨[], []⟩])))
      (c :: w ++ '=' :: '"' :: (value ++ '"' :: rest)) :=
    hspace.back fun pos input hpos => by simp [react, beforeAttributeNameState, h3, h4, isEof, hpos]; rfl
  have hequals : Reaches t .beforeAttributeValue (some (.startTag tag false (attributes ++ [⟨c :: w, []⟩])))
      ('"' :: (value ++ '"' :: rest)) :=
    (Reaches.attributeName (c :: w) ha.name hfirst).go fun pos input hpos => by
      simp [react, attributeNameState, isEof, hpos]
  have hquote : Reaches t .attributeValueDoubleQuoted (some (.startTag tag false (attributes ++ [⟨c :: w, []⟩])))
      (value ++ '"' :: rest) := hequals.go fun pos input hpos => rfl
  exact (Reaches.attributeValue value ha.value hquote).go fun pos input hpos => rfl

theorem Reaches.attributeList :
    ∀ (new old : List Attribute) {state : State}, (∀ a ∈ new, a.Printable) → AfterPart state →
    Reaches t state (some (.startTag tag false old)) (new.flatMap Attribute.text ++ rest) →
      ∃ state', AfterPart state' ∧ Reaches t state' (some (.startTag tag false (old ++ new))) rest
  | [], old, state, _, hstate, h => ⟨state, hstate, by rwa [append_nil]⟩
  | a :: new, old, state, hnew, hstate, h => by
    rw [flatMap_cons, append_assoc] at h
    have ha := h.attribute (hnew a mem_cons_self) hstate
    have hrest := Reaches.attributeList new (old ++ [a]) (fun b hb => hnew b (mem_cons_of_mem a hb)) (.inr rfl) ha
    rwa [append_assoc] at hrest

/-! ## Tags -/

/-- A tag with its flag. -/
def withFlag : HtmlToken → Bool → HtmlToken
  | .startTag tag _ attributes, flag => .startTag tag flag attributes
  | .endTag tag _, flag => .endTag tag flag
  | token, _ => token

theorem Reaches.close {token : HtmlToken}
    (htoken : (∃ tag attributes, token = .startTag tag false attributes) ∨ ∃ tag, token = .endTag tag false)
    (hstate : AfterPart state) (selfClosing : Bool) {d : Char} {s : List Char} (ht : Ready t (d :: s))
    (h : Reaches t state (some token) (closing selfClosing ++ rest)) :
    ∃ t', next t = .ok (some (withFlag token selfClosing), t') ∧ Ready t' rest := by
  cases selfClosing with
  | false =>
    have h' : Reaches t state (some token) ('>' :: rest) := h
    refine h'.emit ht fun pos input hpos => ?_
    rcases hstate with rfl | rfl <;> rcases htoken with ⟨tag, attributes, rfl⟩ | ⟨tag, rfl⟩ <;> rfl
  | true =>
    have h' : Reaches t state (some token) ('/' :: '>' :: rest) := h
    have hslash : Reaches t .selfClosingStartTag (some token) ('>' :: rest) :=
      h'.go fun pos input hpos => by rcases hstate with rfl | rfl <;> rfl
    refine hslash.emit ht fun pos input hpos => ?_
    rcases htoken with ⟨tag, _, rfl⟩ | ⟨_, rfl⟩ <;> rfl

theorem Ready.startTag {selfClosing : Bool} (htag : IsTagName tag) (hattributes : ∀ a ∈ attributes, a.Printable)
    (h : Ready t ((HtmlToken.startTag tag selfClosing attributes).text ++ rest)) :
    ∃ t', next t = .ok (some (.startTag tag selfClosing attributes), t') ∧ Ready t' rest := by
  obtain ⟨⟨c, w, rfl, hc⟩, hw⟩ := htag
  have hslash : c ≠ '/' := (hw c mem_cons_self).2.2.1
  have htext : (HtmlToken.startTag (c :: w) selfClosing attributes).text ++ rest =
      '<' :: (c :: w ++ (attributes.flatMap Attribute.text ++ (closing selfClosing ++ rest))) := by
      simp [HtmlToken.text]
  rw [htext] at h
  have hopen : Reaches t .tagOpen none
      (c :: w ++ (attributes.flatMap Attribute.text ++ (closing selfClosing ++ rest))) :=
    h.reaches.go fun pos input hpos => rfl
  have hname : Reaches t .tagName (some (.startTag [] false []))
      (c :: w ++ (attributes.flatMap Attribute.text ++ (closing selfClosing ++ rest))) :=
    hopen.back fun pos input hpos => by simp [react, tagOpenState, hslash, hc]; rfl
  have hattr := Reaches.tagName (fun tag => .startTag tag false []) (fun tag c state pos input => rfl)
    (c :: w) [] hw hname
  obtain ⟨_, hstate, hclose⟩ := Reaches.attributeList attributes [] hattributes (.inl rfl) hattr
  exact hclose.close (.inl ⟨_, _, rfl⟩) hstate selfClosing h

theorem Ready.endTag {selfClosing : Bool} (htag : IsTagName tag)
    (h : Ready t ((HtmlToken.endTag tag selfClosing).text ++ rest)) :
    ∃ t', next t = .ok (some (.endTag tag selfClosing), t') ∧ Ready t' rest := by
  obtain ⟨⟨c, w, rfl, hc⟩, hw⟩ := htag
  have htext : (HtmlToken.endTag (c :: w) selfClosing).text ++ rest = '<' :: '/' ::
      (c :: w ++ (closing selfClosing ++ rest)) := by
    simp [HtmlToken.text]
  rw [htext] at h
  have hopen : Reaches t .tagOpen none ('/' :: (c :: w ++ (closing selfClosing ++ rest))) :=
    h.reaches.go fun pos input hpos => rfl
  have hslash : Reaches t .endTagOpen none (c :: w ++ (closing selfClosing ++ rest)) :=
    hopen.go fun pos input hpos => rfl
  have hname : Reaches t .tagName (some (.endTag [] false)) (c :: w ++ (closing selfClosing ++ rest)) :=
    hslash.back fun pos input hpos => by simp [react, endTagOpenState, isEof, hpos, hc]; rfl
  have hclose := Reaches.tagName (fun tag => .endTag tag false) (fun tag c state pos input => rfl) (c :: w) [] hw hname
  exact hclose.close (.inr ⟨_, rfl⟩) (.inl rfl) selfClosing h

theorem Ready.char (hc : c ≠ '<') (h : Ready t (c :: rest)) : ∃ t', next t = .ok (some (.char c), t') ∧ Ready t' rest :=
  h.reaches.emit h fun pos input hpos => by simp [react, dataState, hc, isEof, hpos]

theorem Ready.token {token : HtmlToken} (htoken : token.Printable) (h : Ready t (token.text ++ rest)) :
    ∃ t', next t = .ok (some token, t') ∧ Ready t' rest := by
  cases token with
  | startTag tag selfClosing attributes => exact h.startTag htoken.1 htoken.2
  | endTag tag selfClosing => exact h.endTag htoken
  | char c => exact h.char htoken
  | eof => exact htoken.elim

theorem Ready.emits : ∀ (tokens : List HtmlToken) {t : HtmlTokenizer}, (∀ token ∈ tokens, token.Printable) →
    Ready t (tokens.flatMap HtmlToken.text) → Emits tokens t
  | [], t, _, h => ⟨t, h.next_nil⟩
  | token :: tokens, t, htokens, h => by
    obtain ⟨t', hnext, ht'⟩ := h.token (htokens token mem_cons_self)
    exact ⟨t', hnext, Ready.emits tokens (fun u hu => htokens u (mem_cons_of_mem token hu)) ht'⟩

theorem ready_new (html : List Char) : Ready (new html) html := ⟨⟨rfl, rfl, nofun, rfl⟩, rfl⟩

/-- What is written is read: the tokens come back one after the other, and nothing after them. -/
theorem emits_text (tokens : List HtmlToken) (htokens : ∀ token ∈ tokens, token.Printable) :
    Emits tokens (new (tokens.flatMap HtmlToken.text)) := Ready.emits tokens htokens (ready_new _)

theorem emits_text_small : Emits [.startTag ['a'] true [⟨['b'], ['C', ' ']⟩], .char 'x', .endTag ['a'] false]
    (new "<a b=\"C \"/>x</a>".toList) := by
  have htag : IsTagName ['a'] := ⟨⟨'a', [], rfl, rfl⟩, by simp⟩
  have hattribute : Attribute.Printable ⟨['b'], ['C', ' ']⟩ := ⟨by simp, by simp, by simp⟩
  exact emits_text [.startTag ['a'] true [⟨['b'], ['C', ' ']⟩], .char 'x', .endTag ['a'] false]
    (by simp [HtmlToken.Printable, htag, hattribute])

end HtmlTokenizer

end Liumos.Browser
