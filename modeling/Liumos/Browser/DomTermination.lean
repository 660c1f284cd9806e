/-
When the construction of a tree comes to an end. Every round of the loop takes a token or changes to a mode
that is nearer to one that does, except for the tags that no branch for the body takes.
-/
import Liumos.Browser.Dom
import Liumos.Browser.HtmlRoundTrip

namespace Liumos.Browser

open Function Nat

open Loop (Round)
open HtmlToken (startTag)

/-! ## Siblings -/

/-- Siblings come later, and there is nothing beyond the nodes that were made. -/
structure Ordered (node : Nat → Node) (n : Nat) : Prop where
  sibling : ∀ i j, (node i).nextSibling = some j → i < j ∧ j < n
  child : ∀ i j, (node i).firstChild = some j → j < n

theorem Ordered.mono {node : Nat → Node} {n : Nat} (h : Ordered node n) : Ordered node (n + 1) :=
  ⟨fun i j hj => ⟨(h.sibling i j hj).1, lt_succ_of_lt (h.sibling i j hj).2⟩,
    fun i j hj => lt_succ_of_lt (h.child i j hj)⟩

theorem Ordered.update {node : Nat → Node} {n i : Nat} {x : Node} (h : Ordered node n)
    (hsibling : ∀ j, x.nextSibling = some j → i < j ∧ j < n) (hchild : ∀ j, x.firstChild = some j → j < n) :
    Ordered (update node i x) n where
  sibling := (forall_update_iff node fun k x => ∀ j, x.nextSibling = some j → k < j ∧ j < n).2
    ⟨hsibling, fun k _ => h.sibling k⟩
  child := (forall_update_iff node fun _ x => ∀ j, x.firstChild = some j → j < n).2 ⟨hchild, fun k _ => h.child k⟩

namespace HtmlParser

variable {τ : Type} {p p' : HtmlParser τ}

/-- The walk along siblings comes to an end. -/
theorem lastSibling_returns (h : Ordered p.node p.size) : ∀ (n : Nat) {i : Nat}, i < p.size → p.size - i ≤ n →
    ∃ j, p.lastSibling n i = .ok j ∧ j < p.size
  | 0, i, hi, hn => by omega
  | n + 1, i, hi, hn => by
    rw [lastSibling]
    cases hj : (p.node i).nextSibling with
    | none => exact ⟨i, rfl, hi⟩
    | some j =>
      obtain ⟨hlt, hj'⟩ := h.sibling i j hj
      exact lastSibling_returns h n hj' (by omega)

/-- The nodes are still in order, and the rest of the parser is as it was. -/
structure Builds (p p' : HtmlParser τ) : Prop where
  ordered : Ordered p'.node p'.size
  t : p'.t = p.t
  mode : p'.mode = p.mode
  original : p'.originalInsertionMode = p.originalInsertionMode

theorem Builds.refl (h : Ordered p.node p.size) : Builds p p := ⟨h, rfl, rfl, rfl⟩

section

variable {node : Node} {i : Nat} (hsibling : node.nextSibling = none) (hchild : node.firstChild = none)

include hsibling hchild

theorem builds_pushNode (h : Ordered p.node (p.size + 1)) : Builds p (p.pushNode node) := by
  refine ⟨.update (.update h ?_ ?_) ?_ ?_, rfl, rfl, rfl⟩
  · exact h.sibling p.current
  · exact h.child p.current
  · intro j hj
    cases hsibling.symm.trans hj
  · intro j hj
    cases hchild.symm.trans hj

theorem builds_pushNode_modifyNode {f : Node → Node} (h : Ordered (p.modifyNode i f).node (p.size + 1)) :
    Builds p ((p.modifyNode i f).pushNode node) := by
  have hbuilds := builds_pushNode (p := p.modifyNode i f) hsibling hchild h
  exact ⟨hbuilds.ordered, hbuilds.t, hbuilds.mode, hbuilds.original⟩

/-- A node after a sibling. -/
theorem builds_after (h : Ordered p.node p.size) (hi : i < p.size) :
    Builds p ((p.modifyNode i fun c => { c with nextSibling := some p.size }).pushNode node) := by
  refine builds_pushNode_modifyNode hsibling hchild (.update h.mono ?_ (h.mono.child i))
  rintro j ⟨⟩
  exact ⟨hi, lt_succ_self _⟩

/-- A first child. -/
theorem builds_below (h : Ordered p.node p.size) :
    Builds p ((p.modifyNode i fun c => { c with firstChild := some p.size }).pushNode node) := by
  refine builds_pushNode_modifyNode hsibling hchild (.update h.mono (h.mono.sibling i) ?_)
  rintro j ⟨⟩
  exact lt_succ_self _

end

/-- The parser that is returned, if one is, is as it should be. -/
def Gives (Q : HtmlParser τ → Prop) : Except Panic (HtmlParser τ) → Prop
  | .ok p => Q p
  | .error e => e ≠ .diverges

theorem strToElementKind_ne_diverges (name : List Char) : Element.strToElementKind name ≠ .error .diverges := by
  unfold Element.strToElementKind
  repeat
    split
    · exact nofun
  exact nofun

section

variable (h : Ordered p.node p.size)

include h

theorem builds_insertElement (tag : List Char) (attributes : List Attribute) :
    Gives (Builds p) (insertElement tag attributes p) := by
  cases hkind : Element.strToElementKind tag with
  | error e =>
    rw [insertElement, hkind]
    exact fun he => strToElementKind_ne_diverges tag (he ▸ hkind)
  | ok kind =>
    cases hfirst : (p.node p.current).firstChild with
    | none =>
      have hrun : insertElement tag attributes p = .ok
        ((p.modifyNode p.current fun c => { c with firstChild := some p.size }).pushNode
          (.new (.element ⟨kind, attributes⟩))) := by
        simp only [insertElement, hkind, hfirst, bind, Except.bind]
        rfl
      rw [hrun]
      exact builds_below rfl rfl h
    | some first =>
      obtain ⟨last, hlast, hlt⟩ := lastSibling_returns h p.size (h.child _ first hfirst) (sub_le _ _)
      have hrun : insertElement tag attributes p = .ok
        ((p.modifyNode last fun c => { c with nextSibling := some p.size }).pushNode
          { Node.new (.element ⟨kind, attributes⟩) with previousSibling := some first }) := by
        simp only [insertElement, hkind, hfirst, hlast, bind, Except.bind]
        rfl
      rw [hrun]
      exact builds_after rfl rfl h hlt

theorem builds_insertChar (c : Char) : Builds p (insertChar c p) := by
  unfold insertChar
  split
  · exact ⟨.update h (h.sibling p.current) (h.child p.current), rfl, rfl, rfl⟩
  · split_ifs
    · exact .refl h
    · split
      · exact builds_after rfl rfl h (h.child _ _ ‹_›)
      · exact builds_below rfl rfl h

theorem builds_popCurrentNode (elementKind : ElementKind) : Builds p (popCurrentNode elementKind p).2 := by
  unfold popCurrentNode
  split
  · exact .refl h
  · split_ifs
    · exact ⟨h, rfl, rfl, rfl⟩
    · exact .refl h

theorem builds_popUntil (elementKind : ElementKind) : Gives (Builds p) (popUntil elementKind p) := by
  unfold popUntil
  split_ifs
  · exact ⟨h, rfl, rfl, rfl⟩
  · exact nofun

end

/-! ## Rounds -/

/-- The tags that are processed again and again in the body. -/
def Ignored : HtmlToken → Prop
  | .startTag tag _ _ => tag ≠ Tag.ul ∧ tag ≠ Tag.li ∧ tag ≠ Tag.div
  | .endTag tag _ => tag ≠ Tag.body ∧ tag ≠ Tag.html ∧ tag ≠ Tag.ul ∧ tag ≠ Tag.li ∧ tag ≠ Tag.div
  | _ => False

def Stuck (c : HtmlParser τ × Option HtmlToken) : Prop := c.1.mode = .inBody ∧ ∃ token, c.2 = some token ∧ Ignored token

def isHtmlEnd : HtmlToken → Bool
  | .endTag tag _ => tag = Tag.html
  | _ => false

/-- How many rounds a token can take. -/
def rank : InsertionMode → HtmlToken → Nat
  | .inBody, token => if isHtmlEnd token then 2 else 1
  | .afterBody, token | .afterAfterBody, token => if isHtmlEnd token then 1 else 2
  | .afterHead, _ => 3
  | .inHead, _ => 4
  | .text, _ | .beforeHead, _ => 5
  | .beforeHtml, _ => 6
  | .initial, _ => 7

theorem rank_bounds (mode : InsertionMode) (token : HtmlToken) : 0 < rank mode token ∧ rank mode token < 8 := by
  cases mode with
  | inBody | afterBody | afterAfterBody =>
    simp only [rank]
    split_ifs <;> decide
  | initial | beforeHtml | beforeHead | inHead | afterHead | text => simp [rank]

variable (source : TokenSource τ)

def measure : HtmlParser τ × Option HtmlToken → Nat
  | (_, none) => 0
  | (p, some token) => 8 * source.size p.t + 8 + rank p.mode token

/-- Text is the mode within an element of the head. -/
structure Inv (p : HtmlParser τ) : Prop where
  ordered : Ordered p.node p.size
  original : p.mode = .text → p.originalInsertionMode = .inHead

/-- The token is kept, or the next one is taken. -/
def Follows (c c' : HtmlParser τ × Option HtmlToken) : Prop :=
  (c'.1.t = c.1.t ∧ c'.2 = c.2) ∨ source.next c.1.t = .ok (c'.2, c'.1.t)

/-- How a round can end. -/
inductive Goes (c : HtmlParser τ × Option HtmlToken) : Except Panic (Next τ) → Prop
  | again {c' : HtmlParser τ × Option HtmlToken} : Inv c'.1 → Follows source c c' → measure source c' < measure source
      c → Goes c (.ok (.again c'))
  | done {p : HtmlParser τ} : Goes c (.ok (.done p))
  | error {e : Panic} : e ≠ .diverges → Goes c (.error e)

variable {source} {token : HtmlToken}

theorem goes_advanceThen {f : HtmlParser τ → Except Panic (HtmlParser τ)} (ht : p'.t = p.t)
    (hf : ∀ t, Gives (fun p'' => Inv p'' ∧ p''.t = t) (f { p' with t })) :
    Goes source (p, some token) (advanceThen source f p') := by
  unfold advanceThen
  cases hnext : source.next p'.t with
  | error e => exact .error fun he => source.ends p'.t (he ▸ hnext)
  | ok r =>
    obtain ⟨token', t⟩ := r
    have hft := hf t
    show Goes source (p, some token) (do let p ← f { p' with t }; return .again (p, token'))
    cases hrun : f { p' with t } with
    | error e =>
      rw [hrun] at hft
      exact .error hft
    | ok p'' =>
      rw [hrun] at hft
      obtain ⟨hinv, ht''⟩ := hft
      refine .again hinv (.inr ?_) ?_
      · rw [← ht, ht'']
        exact hnext
      cases token' with
      | none => exact lt_of_lt_of_le (succ_pos 7) (le_add_right_of_le (le_add_left _ _))
      | some token' =>
        have hlt := source.size_lt hnext
        have hrank := rank_bounds p''.mode token'
        simp only [measure, ht'']
        rw [ht] at hlt
        omega

theorem goes_advance (ht : p'.t = p.t) (hinv : Inv p') : Goes source (p, some token) (advance source p') :=
  goes_advanceThen (f := .ok) ht fun _ => ⟨⟨hinv.ordered, hinv.original⟩, rfl⟩

theorem goes_same (ht : p'.t = p.t) (hinv : Inv p') (hrank : rank p'.mode token < rank p.mode token) :
    Goes source (p, some token) (.ok (.again (p', some token))) := by
  refine .again hinv (.inl ⟨ht, rfl⟩) ?_
  simp only [measure, ht]
  omega

theorem goes_again {mode : InsertionMode} (ht : p'.t = p.t) (hordered : Ordered p'.node p'.size)
    (horiginal : mode = .text → p'.originalInsertionMode = .inHead) (hrank : rank mode token < rank p.mode token) :
    Goes source (p, some token) (again token mode p') := by
  exact goes_same ht ⟨hordered, horiginal⟩ hrank

theorem goes_bind {x : Except Panic (HtmlParser τ)} {f : HtmlParser τ → Except Panic (Next τ)}
    {c : HtmlParser τ × Option HtmlToken} (hx : Gives (Builds p) x) (hf : ∀ p', Builds p p' → Goes source c (f p')) :
    Goes source c (x >>= f) := by
  cases x with
  | ok p' => exact hf p' hx
  | error e => exact .error hx

theorem goes_ite {b : Prop} [Decidable b] {x y : Except Panic (Next τ)} {c : HtmlParser τ × Option HtmlToken}
    (hx : Goes source c x) (hy : Goes source c y) : Goes source c (if b then x else y) := by
  split_ifs
  · exact hx
  · exact hy

/-- An end tag outside the head. -/
theorem gives_popUntil (h : Ordered p.node p.size) (elementKind : ElementKind) (hmode : p.mode ≠ .text) :
    Gives (fun p' => Inv p' ∧ p'.t = p.t) (popUntil elementKind p) := by
  have hpop := builds_popUntil h elementKind
  cases hrun : popUntil elementKind p with
  | error e => rwa [hrun] at hpop
  | ok p' =>
    rw [hrun] at hpop
    exact ⟨⟨hpop.ordered, fun he => absurd (hpop.mode.symm.trans he) hmode⟩, hpop.t⟩

section

variable (h : Inv p)

include h

theorem Inv.of_builds (hp : Builds p p') : Inv p' :=
  ⟨hp.ordered, fun he => hp.original.trans (h.original (hp.mode.symm.trans he))⟩

theorem goes_insertChar (c : Char) : Goes source (p, some token) (advance source (insertChar c p)) :=
  goes_advance (builds_insertChar h.ordered c).t (h.of_builds (builds_insertChar h.ordered c))

/-- An element is inserted before the token is looked at again. -/
theorem goes_insertAgain {tag : List Char} {mode : InsertionMode} (htext : mode ≠ .text)
    (hrank : rank mode token < rank p.mode token) :
    Goes source (p, some token) (insertElement tag [] p >>= again token mode) :=
  goes_bind (builds_insertElement h.ordered _ _) fun _ hp' =>
    goes_again hp'.t hp'.ordered (fun he => absurd he htext) hrank

theorem goes_beforeHtml (hmode : p.mode = .beforeHtml) : Goes source (p, some token) (beforeHtml source token p) := by
  have hother : Goes source (p, some token) (insertElement Tag.html [] p >>= again token .beforeHead) :=
    goes_insertAgain h nofun (by rw [hmode]; exact lt_succ_self 5)
  unfold beforeHtml
  cases token with
  | char c => exact goes_ite (goes_advance rfl h) hother
  | startTag tag selfClosing attributes =>
    refine goes_ite (goes_bind (builds_insertElement h.ordered _ _) fun p' hp' => ?_) hother
    exact goes_advance hp'.t ⟨hp'.ordered, nofun⟩
  | endTag tag selfClosing => exact goes_ite (goes_advance rfl h) hother
  | eof => exact .done

theorem goes_beforeHead (hmode : p.mode = .beforeHead) : Goes source (p, some token) (beforeHead source token p) := by
  have hother : Goes source (p, some token) (insertElement Tag.head [] p >>= again token .inHead) :=
    goes_insertAgain h nofun (by rw [hmode]; exact lt_succ_self 4)
  unfold beforeHead
  cases token with
  | char c => exact goes_ite (goes_advance rfl h) hother
  | startTag tag selfClosing attributes =>
    refine goes_ite (goes_bind (builds_insertElement h.ordered _ _) fun p' hp' => ?_) hother
    exact goes_advance hp'.t ⟨hp'.ordered, nofun⟩
  | endTag tag selfClosing => exact hother
  | eof => exact .done

theorem goes_inHead (hmode : p.mode = .inHead) : Goes source (p, some token) (inHead source token p) := by
  have hother : Goes source (p, some token) (popUntil .head { p with mode := .afterHead } >>= again token .afterHead) :=
    goes_bind (p := { p with mode := .afterHead })
      (builds_popUntil (p := { p with mode := .afterHead }) h.ordered _) fun p' hp' =>
      goes_again hp'.t hp'.ordered nofun (by rw [hmode]; exact lt_succ_self 3)
  unfold inHead
  cases token with
  | char c => exact goes_ite (goes_insertChar h c) hother
  | startTag tag selfClosing attributes =>
    dsimp only
    split_ifs
    · -- a void element is closed at once
      refine goes_bind (builds_insertElement h.ordered _ _) fun p' hp' => ?_
      have hpop := builds_popCurrentNode hp'.ordered .link
      split_ifs
      · exact goes_advance (hpop.t.trans hp'.t) ((h.of_builds hp').of_builds hpop)
      · exact .error nofun
    · exact goes_bind (builds_insertElement h.ordered _ _) fun p' hp' =>
        goes_advance hp'.t ⟨hp'.ordered, fun _ => hp'.mode.trans hmode⟩
    · exact goes_bind (builds_insertElement h.ordered _ _) fun p' hp' =>
        goes_advance hp'.t ⟨hp'.ordered, fun _ => hp'.mode.trans hmode⟩
    · exact hother
  | endTag tag selfClosing =>
    dsimp only
    split_ifs
    · exact goes_advanceThen rfl fun t => gives_popUntil (p := { p with mode := .afterHead, t }) h.ordered .head nofun
    · exact hother
  | eof => exact .done

theorem goes_afterHead (hmode : p.mode = .afterHead) : Goes source (p, some token) (afterHead source token p) := by
  have hother : Goes source (p, some token) (insertElement Tag.body [] p >>= again token .inBody) := by
    refine goes_insertAgain h nofun ?_
    rw [hmode]
    simp only [rank]
    split_ifs <;> decide
  unfold afterHead
  cases token with
  | char c => exact goes_ite (goes_insertChar h c) hother
  | startTag tag selfClosing attributes =>
    dsimp only
    split_ifs
    · refine goes_bind (builds_insertElement h.ordered _ _) fun p' hp' => goes_advanceThen hp'.t fun t => ?_
      exact ⟨⟨hp'.ordered, nofun⟩, rfl⟩
    · exact hother
  | endTag tag selfClosing => exact hother
  | eof => exact .done

theorem goes_inBody (hmode : p.mode = .inBody) (htoken : ¬ Ignored token) :
    Goes source (p, some token) (inBody source token p) := by
  have htext : p.mode ≠ .text := by rw [hmode]; exact nofun
  have hinsert : ∀ tag attributes, Goes source (p, some token) (insertElement tag attributes p >>= advance source) :=
    fun tag attributes =>
    goes_bind (builds_insertElement h.ordered _ _) fun p' hp' => goes_advance hp'.t (h.of_builds hp')
  have hpop : ∀ elementKind, Goes source (p, some token) (advanceThen source (popUntil elementKind) p) :=
    fun elementKind =>
    goes_advanceThen rfl fun t => gives_popUntil (p := { p with t }) h.ordered elementKind htext
  unfold inBody
  cases token with
  | char c => exact goes_insertChar h c
  | startTag tag selfClosing attributes =>
    dsimp only
    split_ifs with h1 h2 h3
    · exact hinsert tag attributes
    · exact hinsert tag attributes
    · exact hinsert tag attributes
    · exact absurd ⟨h1, h2, h3⟩ htoken
  | endTag tag selfClosing =>
    dsimp only
    split_ifs with h1 h2 hbody hhtml h3 h4 h5
    · refine goes_advanceThen rfl fun t => ?_
      split_ifs
      · exact gives_popUntil (p := { p with mode := .afterBody, t }) h.ordered .body nofun
      · exact ⟨⟨h.ordered, nofun⟩, rfl⟩
    · -- `</html>` in a body that is not open within another element
      have hpop := builds_popCurrentNode h.ordered .body
      have hpop' := builds_popCurrentNode (p := { (popCurrentNode .body p).2 with mode := .afterBody })
        hpop.ordered .html
      refine goes_same (hpop'.t.trans hpop.t) ⟨hpop'.ordered, by rw [hpop'.mode]; exact nofun⟩ ?_
      rw [hpop'.mode, hmode]
      simp [rank, isHtmlEnd, h2]
    · exact .error nofun
    · exact goes_advance rfl h
    · exact hpop .ul
    · exact hpop .li
    · exact hpop .div
    · exact absurd ⟨h1, h2, h3, h4, h5⟩ htoken
  | eof => exact .done

theorem goes_text (hmode : p.mode = .text) : Goes source (p, some token) (text source token p) := by
  have horiginal := h.original hmode
  have hother : Goes source (p, some token) (again token p.originalInsertionMode p) := by
    rw [horiginal]
    exact goes_again rfl h.ordered nofun (by rw [hmode]; exact lt_succ_self 4)
  have hpop : ∀ elementKind, Goes source (p, some token)
      (popUntil elementKind p >>= fun p => advance source { p with mode := p.originalInsertionMode }) := by
    refine fun elementKind => goes_bind (builds_popUntil h.ordered elementKind) fun p' hp' =>
      goes_advance hp'.t ⟨hp'.ordered, ?_⟩
    exact fun _ => hp'.original.trans horiginal
  unfold text
  cases token with
  | char c => exact goes_insertChar h c
  | startTag tag selfClosing attributes => exact hother
  | endTag tag selfClosing => exact goes_ite (hpop .style) (goes_ite (hpop .script) hother)
  | eof => exact .done

theorem goes_afterBody (hmode : p.mode = .afterBody ∨ p.mode = .afterAfterBody) :
    Goes source (p, some token) (afterBody source token p) := by
  have hother : isHtmlEnd token = false → Goes source (p, some token) (again token .inBody p) := by
    intro htoken
    refine goes_again rfl h.ordered nofun ?_
    rcases hmode with hmode | hmode <;> simp [hmode, rank, htoken]
  unfold afterBody
  cases token with
  | char c => exact goes_advance rfl h
  | startTag tag selfClosing attributes => exact hother rfl
  | endTag tag selfClosing =>
    dsimp only
    split_ifs with htag
    · exact goes_advance rfl ⟨h.ordered, nofun⟩
    · exact hother (decide_eq_false htag)
  | eof => exact .done

theorem goes_step {token : Option HtmlToken} (hstuck : ¬ Stuck (p, token)) :
    Goes source (p, token) (step source (p, token)) := by
  cases token with
  | none => exact .done
  | some token =>
    unfold step
    dsimp only
    cases hmode : p.mode with
    | initial => exact goes_again rfl h.ordered nofun (by rw [hmode]; exact lt_succ_self 6)
    | beforeHtml => exact goes_beforeHtml h hmode
    | beforeHead => exact goes_beforeHead h hmode
    | inHead => exact goes_inHead h hmode
    | afterHead => exact goes_afterHead h hmode
    | inBody => exact goes_inBody h hmode fun hi => hstuck ⟨hmode, token, rfl, hi⟩
    | text => exact goes_text h hmode
    | afterBody => exact goes_afterBody h (.inl hmode)
    | afterAfterBody => exact goes_afterBody h (.inr hmode)

end

/-! ## The whole construction -/

variable (source) {c c' : HtmlParser τ × Option HtmlToken}

theorem stuck_again (h : Stuck c) : Loop.Again (step source) c c := by
  obtain ⟨p, token⟩ := c
  obtain ⟨hmode, token, rfl, htoken⟩ := h
  show step source (p, some token) = _
  unfold step
  dsimp only at hmode ⊢
  rw [hmode]
  cases token with
  | startTag tag selfClosing attributes => simp [inBody, htoken.1, htoken.2.1, htoken.2.2]
  | endTag tag selfClosing => simp [inBody, htoken.1, htoken.2.1, htoken.2.2.1, htoken.2.2.2.1, htoken.2.2.2.2]
  | char c => exact htoken.elim
  | eof => exact htoken.elim

theorem again_lt (hinv : Inv c.1) (hc : ¬ Stuck c) (hagain : Loop.Again (step source) c c') :
    Inv c'.1 ∧ Follows source c c' ∧ measure source c' < measure source c := by
  have hgoes : Goes source c (step source c) := goes_step hinv hc
  rw [show step source c = _ from hagain] at hgoes
  cases hgoes with
  | again hinv' hfollows hlt => exact ⟨hinv', hfollows, hlt⟩

theorem step_ne_diverges (hinv : Inv c.1) : step source c ≠ .error .diverges := by
  intro herror
  by_cases hc : Stuck c
  · cases (stuck_again source hc).symm.trans herror
  · have hgoes : Goes source c (step source c) := goes_step hinv hc
    rw [herror] at hgoes
    cases hgoes with
    | error he => exact he rfl

theorem inv_new (t : τ) : Inv (HtmlParser.new t) := ⟨⟨nofun, nofun⟩, nofun⟩

theorem loop_ends_iff (t : τ) (token : Option HtmlToken) :
    (∃ rounds, Loop.run (step source) .diverges rounds (.new t, token) ≠ .error .diverges) ↔
      ∀ c, Loop.Reaches (step source) (.new t, token) c → ¬ Stuck c :=
  Loop.ends_iff (I := fun c => Inv c.1) (fun _ => stuck_again source)
    (fun _ _ hinv hc hagain => ⟨(again_lt source hinv hc hagain).1, (again_lt source hinv hc hagain).2.2⟩)
    (fun _ => step_ne_diverges source) (inv_new t)

/-- The rounds of the construction of a tree from `t`. -/
def Reached (t : τ) (c : HtmlParser τ × Option HtmlToken) : Prop :=
  ∃ token t', source.next t = .ok (token, t') ∧ Loop.Reaches (step source) (.new t', token) c

theorem constructTree_eq {t t' : τ} {token : Option HtmlToken} (h : source.next t = .ok (token, t')) (rounds : Nat) :
    constructTree source rounds (.new t) = Loop.run (step source) .diverges rounds (.new t', token) := by
  show (source.next t >>= fun x => _) = _
  rw [h]
  rfl

theorem ends_iff_reached (t : τ) :
    (∃ rounds, constructTree source rounds (.new t) ≠ .error .diverges) ↔ ∀ c, Reached source t c → ¬ Stuck c := by
  cases hnext : source.next t with
  | error e =>
    have hrun : constructTree source 0 (.new t) = .error e := by
      show (source.next t >>= fun x => _) = _
      rw [hnext]
      rfl
    refine iff_of_true ⟨0, ?_⟩ ?_
    · rw [hrun]
      rintro ⟨⟩
      exact source.ends t hnext
    · rintro c ⟨token, t', h, -⟩
      cases h.symm.trans hnext
  | ok r =>
    obtain ⟨token, t'⟩ := r
    simp only [constructTree_eq source hnext]
    refine (loop_ends_iff source t' token).trans ⟨?_, ?_⟩
    · rintro h c ⟨token1, t1, hnext1, hreaches⟩
      cases hnext1.symm.trans hnext
      exact h c hreaches
    · exact fun h c hreaches => h c ⟨token, t', hnext, hreaches⟩

/-- The tokens that come from `t`. -/
inductive Emitted : τ → HtmlToken → Prop
  | here {t t' : τ} {token : HtmlToken} : source.next t = .ok (some token, t') → Emitted t token
  | later {t t' : τ} {token token' : HtmlToken} : source.next t = .ok (some token', t') →
      Emitted t' token → Emitted t token

/-- Neither the token nor those to come are ignored in the body. -/
def NoneIgnored (c : HtmlParser τ × Option HtmlToken) : Prop :=
  ∀ token, c.2 = some token → ¬ Ignored token ∧ ∀ token', Emitted source c.1.t token' → ¬ Ignored token'

theorem noneIgnored_next {t t' : τ} {token : Option HtmlToken} (p : HtmlParser τ)
    (hnext : source.next t = .ok (token, t')) (h : ∀ token, Emitted source t token → ¬ Ignored token) :
    NoneIgnored source ({ p with t := t' }, token) := by
  rintro token rfl
  exact ⟨h token (.here hnext), fun token' htoken' => h token' (.later hnext htoken')⟩

theorem noneIgnored_reaches (h : Loop.Reaches (step source) c c') (hinv : Inv c.1)
    (hc : NoneIgnored source c) : Inv c'.1 ∧ NoneIgnored source c' := by
  induction h with
  | refl => exact ⟨hinv, hc⟩
  | tail _ hagain ih =>
    rename_i c1 c2 _
    have hstuck : ¬ Stuck c1 := fun ⟨_, token, htoken, hignored⟩ => (ih.2 token htoken).1 hignored
    obtain ⟨hinv2, hfollows, -⟩ := again_lt source ih.1 hstuck hagain
    refine ⟨hinv2, ?_⟩
    rcases hfollows with ⟨ht, htoken⟩ | hnext
    · intro token h2
      rw [ht]
      exact ih.2 token (htoken ▸ h2)
    · obtain ⟨p1, _ | token⟩ := c1
      · cases hagain
      · exact noneIgnored_next source c2.1 hnext (ih.2 token rfl).2

/-- The construction comes to an end exactly if no round is at a tag in the body that is none of those of a list, a
list item or a division and, for end tags, not the body's or the document's. So it does if there is no such tag among
the tokens, as in a document that leaves out the tags of its html, head and body. -/
theorem constructTree_ends_iff (t : τ) :
    ((∃ rounds, constructTree source rounds (.new t) ≠ .error .diverges) ↔ ∀ c, Reached source t c → ¬ Stuck c) ∧
      ((∀ token, Emitted source t token → ¬ Ignored token) →
        ∃ rounds, constructTree source rounds (.new t) ≠ .error .diverges) := by
  refine ⟨ends_iff_reached source t, fun h => (ends_iff_reached source t).2 ?_⟩
  rintro c ⟨token, t', hnext, hreaches⟩ ⟨-, token', htoken', hignored⟩
  exact ((noneIgnored_reaches source hreaches (inv_new t') (noneIgnored_next source (.new t') hnext h)).2 token'
    htoken').1 hignored

/-! ## Responses with their headers -/

/-- The first character of a text that is not blank opens the document, the head and the body. -/
theorem reaches_inBody {d : Char} (t : τ) (hblank : isBlank d = false) :
    ∃ p : HtmlParser τ, Loop.Reaches (step source) (.new t, some (.char d)) (p, some (.char d)) ∧
      p.mode = .inBody ∧ p.t = t := by
  have hround : ∀ {p p' : HtmlParser τ} {x : Except Panic (Next τ)},
      step source (p, some (.char d)) = (if isBlank d then x else .ok (.again (p', some (.char d)))) →
        Loop.Again (step source) (p, some (.char d)) (p', some (.char d)) :=
    fun h => h.trans (if_neg (by rw [hblank]; exact Bool.false_ne_true))
  have hinitial : Loop.Again (step source) (.new t, some (.char d))
    ({ HtmlParser.new t with mode := .beforeHtml }, some (.char d)) := rfl
  exact ⟨_, .tail (.tail (.tail (.tail (.single hinitial) (hround rfl)) (hround rfl)) (hround rfl))
    (hround rfl), rfl, rfl⟩

theorem insertChar_same (d : Char) (p : HtmlParser τ) : (insertChar d p).mode = p.mode ∧ (insertChar d p).t = p.t := by
  unfold insertChar
  split
  · exact ⟨rfl, rfl⟩
  · split_ifs
    · exact ⟨rfl, rfl⟩
    · split <;> exact ⟨rfl, rfl⟩

open HtmlTokenizer in
/-- In the body a text is taken up to the next tag. -/
theorem reaches_tag {token : HtmlToken} {rest : List Char} (htoken : token.Printable) :
    ∀ (ds : List Char) (d : Char) {p : HtmlParser HtmlTokenizer},
    (∀ e ∈ ds, e ≠ '<') → p.mode = .inBody → Ready p.t (ds ++ (token.text ++ rest)) →
      ∃ p', Loop.Reaches (step .ofTokenizer) (p, some (.char d)) (p', some token) ∧ p'.mode = .inBody
  | ds, d, p, hds, hmode, hready => by
    obtain ⟨hmode', ht'⟩ := insertChar_same d p
    have hround : ∀ {next t'}, HtmlTokenizer.next p.t = .ok (next, t') →
        Loop.Again (step .ofTokenizer) (p, some (.char d)) ({ insertChar d p with t := t' }, next) := by
      intro next t' hnext
      show step .ofTokenizer (p, some (.char d)) = _
      unfold step
      dsimp only
      rw [hmode]
      show (HtmlTokenizer.next (insertChar d p).t >>= fun x => _) = _
      rw [ht', hnext]
      rfl
    cases ds with
    | nil =>
      obtain ⟨t', hnext, -⟩ := hready.token htoken
      exact ⟨_, .single (hround hnext), hmode'.trans hmode⟩
    | cons e ds =>
      obtain ⟨t', hnext, hready'⟩ := Ready.char (hds e List.mem_cons_self) hready
      obtain ⟨p', hreaches, hp'⟩ := reaches_tag htoken ds e (p := { insertChar d p with t := t' })
        (fun x hx => hds x (List.mem_cons_of_mem e hx)) (hmode'.trans hmode) hready'
      exact ⟨p', .head (hround hnext) hreaches, hp'⟩

/-- A text before the document keeps the construction from ever coming to an end. -/
theorem response_diverges (d : Char) (headers rest : List Char) (hblank : isBlank d = false) (hd : d ≠ '<')
    (hheaders : ∀ e ∈ headers, e ≠ '<') (rounds : Nat) : constructTree .ofTokenizer rounds
      (.new (.new (d :: (headers ++ ((startTag Tag.html false []).text ++ rest))))) = .error .diverges := by
  have htoken : (startTag Tag.html false []).Printable := ⟨⟨⟨'h', _, rfl, rfl⟩, by simp [Tag.html]⟩, nofun⟩
  obtain ⟨t, hnext, hready⟩ : ∃ t, TokenSource.ofTokenizer.next
    (.new (d :: (headers ++ ((startTag Tag.html false []).text ++ rest)))) =
      .ok (some (.char d), t) ∧ t.Ready (headers ++ ((startTag Tag.html false []).text ++ rest)) :=
    HtmlTokenizer.Ready.char hd (HtmlTokenizer.ready_new _)
  obtain ⟨p, hbody, hmode, ht⟩ := reaches_inBody .ofTokenizer t hblank
  obtain ⟨p', htag, hmode'⟩ := reaches_tag (p := p) htoken headers d hheaders hmode (by rw [ht]; exact hready)
  have hstuck : Stuck (p', some (.startTag Tag.html false [])) := ⟨hmode', _, rfl, by decide, by decide, by decide⟩
  refine (constructTree_eq .ofTokenizer hnext rounds).trans ?_
  exact Loop.run_of_reaches_stuck (hbody.trans htag) (stuck_again .ofTokenizer hstuck) rounds

/-- What the server answers to a request for a page. -/
theorem response_ok_diverges : ¬ ∃ rounds, constructTree .ofTokenizer rounds (.new (.new
    "HTTP/1.1 200 OK\nContent-Type: text/html; charset=UTF-8\n\n<html>\n</html>\n".toList)) ≠ .error .diverges := by
  have htext : "HTTP/1.1 200 OK\nContent-Type: text/html; charset=UTF-8\n\n<html>\n</html>\n".toList =
      'H' :: ("TTP/1.1 200 OK\nContent-Type: text/html; charset=UTF-8\n\n".toList ++
        ((startTag Tag.html false []).text ++ "\n</html>\n".toList)) := by decide +kernel
  rintro ⟨rounds, hends⟩
  rw [htext] at hends
  exact hends (response_diverges 'H' _ _ rfl (by decide) (List.forall_mem_ne'.2 (by decide +kernel)) rounds)

end HtmlParser

end Liumos.Browser
