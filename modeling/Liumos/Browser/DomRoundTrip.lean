/-
Documents that are written as HTML and built again. Nodes are made in the order of their start tags, so the
tree that begins at node `n` has the nodes from `n` on, and each insertion changes one reference to an older
node: the first child of the open element, or the next sibling of its last child.
-/
import Liumos.Browser.DomTermination

namespace Liumos.Browser

open List Function

/-! ## Trees -/

/-- A document as it is meant: what a node is, and the nodes below it in order. -/
inductive DomTree where
  | node (kind : NodeKind) (children : List DomTree)

/-- What is found along `first_child` and `next_sibling`. -/
inductive Reads (node : Nat → Node) : Option Nat → List DomTree → Prop
  | nil : Reads node none []
  | cons {i : Nat} {children siblings : List DomTree} :
      Reads node (node i).firstChild children → Reads node (node i).nextSibling siblings →
      Reads node (some i) (.node (node i).kind children :: siblings)

def ElementKind.tag : ElementKind → List Char
  | html => Tag.html
  | head => Tag.head
  | link => Tag.link
  | style => Tag.style
  | script => Tag.script
  | text => []
  | body => Tag.body
  | ul => Tag.ul
  | li => Tag.li
  | div => Tag.div

namespace DomTree

mutual

def size : DomTree → Nat
  | node _ children => sizes children + 1

def sizes : List DomTree → Nat
  | [] => 0
  | t :: ts => size t + sizes ts

end

mutual

/-- How a tree is written. -/
def tokens : DomTree → List HtmlToken
  | node (.element e) children => .startTag e.kind.tag false e.attributes ::
      (allTokens children ++ [.endTag e.kind.tag false])
  | node (.text s) _ => s.map .char
  | node .document children => allTokens children

def allTokens : List DomTree → List HtmlToken
  | [] => []
  | t :: ts => tokens t ++ allTokens ts

end

/-- A text that makes a node of its own. -/
structure IsText (s : List Char) : Prop where
  ne_nil : s ≠ []
  lt : ∀ c ∈ s, c ≠ '<'
  blank : ∀ c ∈ s.head?, HtmlParser.isBlank c = false

def isBlock (kind : ElementKind) : Prop := kind = .div ∨ kind = .ul ∨ kind = .li

mutual

/-- An element that can be in the body. -/
def IsElement : DomTree → Prop
  | node (.element e) children => isBlock e.kind ∧ (∀ a ∈ e.attributes, a.Printable) ∧
      (AllElements children ∨ ∃ s, IsText s ∧ children = [node (.text s) []])
  | _ => False

def AllElements : List DomTree → Prop
  | [] => True
  | t :: ts => IsElement t ∧ AllElements ts

end

/-- The content of an element: only elements, or one text. -/
def IsContent (children : List DomTree) : Prop := AllElements children ∨ ∃ s, IsText s ∧ children = [node (.text s) []]

/-- `<html><head></head><body>...</body></html>`. -/
def document (children : List DomTree) : DomTree :=
  node .document [node (.element ⟨.html, []⟩) [node (.element ⟨.head, []⟩) [], node (.element ⟨.body, []⟩) children]]

/-! ## Trees by number -/

/-- The number of the first of several trees, if there is one. -/
def first (i : Nat) : List DomTree → Option Nat
  | [] => none
  | _ :: _ => some i

mutual

/-- The tree at node `i`, whose other nodes have the numbers after `i`. -/
def At (node : Nat → Node) (i : Nat) : DomTree → Prop
  | .node kind children => (node i).kind = kind ∧ (node i).firstChild = first (i + 1) children ∧
      AllAt node (i + 1) children

def AllAt (node : Nat → Node) (i : Nat) : List DomTree → Prop
  | [] => True
  | t :: ts => At node i t ∧ (node i).nextSibling = first (i + size t) ts ∧ AllAt node (i + size t) ts

end

theorem size_pos : ∀ t : DomTree, 0 < size t
  | node _ _ => Nat.succ_pos _

mutual

theorem reads_at {node : Nat → Node} :
    ∀ {i : Nat} {t : DomTree}, At node i t → ∀ {ts : List DomTree}, Reads node (node i).nextSibling ts →
    Reads node (some i) (t :: ts)
  | i, .node kind children, ⟨hkind, hchild, hchildren⟩, ts, hts => by
    subst hkind
    refine .cons ?_ hts
    rw [hchild]
    exact reads_allAt hchildren

theorem reads_allAt {node : Nat → Node} : ∀ {i : Nat} {ts : List DomTree}, AllAt node i ts → Reads node (first i ts) ts
  | _, [], _ => .nil
  | i, t :: ts, ⟨ht, hsibling, hts⟩ => by
    refine reads_at ht ?_
    rw [hsibling]
    exact reads_allAt hts

end

mutual

/-- A tree is where it was if its nodes have the same kinds and children, and the same siblings below the first. -/
theorem At.congr {node node' : Nat → Node} : ∀ {i : Nat} {t : DomTree}, At node i t →
    (∀ j, i ≤ j → j < i + size t → (node' j).kind = (node j).kind ∧ (node' j).firstChild = (node j).firstChild) →
    (∀ j, i < j → j < i + size t → (node' j).nextSibling = (node j).nextSibling) → At node' i t
  | i, .node kind children, ⟨hkind, hchild, hchildren⟩, hsame, hsibling => by
    have hsize : size (.node kind children) = sizes children + 1 := by rw [size]
    obtain ⟨hkind', hchild'⟩ := hsame i (le_refl i) (by omega)
    refine ⟨hkind'.trans hkind, hchild'.trans hchild, AllAt.congr hchildren ?_⟩
    exact fun j hle hlt => ⟨(hsame j (by omega) (by omega)).1, (hsame j (by omega) (by omega)).2,
      hsibling j (by omega) (by omega)⟩

theorem AllAt.congr {node node' : Nat → Node} : ∀ {i : Nat} {ts : List DomTree}, AllAt node i ts →
    (∀ j, i ≤ j → j < i + sizes ts → (node' j).kind = (node j).kind ∧ (node' j).firstChild = (node j).firstChild ∧
      (node' j).nextSibling = (node j).nextSibling) → AllAt node' i ts
  | _, [], _, _ => trivial
  | i, t :: ts, ⟨ht, hsibling, hts⟩, hsame => by
    have hsize : sizes (t :: ts) = size t + sizes ts := by rw [sizes]
    have hpos := size_pos t
    refine ⟨At.congr ht ?_ ?_, (hsame i (le_refl i) (by omega)).2.2.trans hsibling, AllAt.congr hts ?_⟩
    · exact fun j hle hlt => ⟨(hsame j hle (by omega)).1, (hsame j hle (by omega)).2.1⟩
    · exact fun j hle hlt => (hsame j (by omega) (by omega)).2.2
    · exact fun j hle hlt => hsame j (by omega) (by omega)

end

end DomTree

/-! ## Insertions -/

/-- What becomes of the nodes before `n` when `new` is put after the last child of `cur`. -/
structure Grown (node node' : Nat → Node) (n cur : Nat) (last new : Option Nat) : Prop where
  kind : ∀ i < n, (node' i).kind = (node i).kind
  child : ∀ i < n, (node' i).firstChild = if i = cur ∧ last = none then new else (node i).firstChild
  sibling : ∀ i < n, (node' i).nextSibling = if last = some i then new else (node i).nextSibling

/-- The way along `next_sibling` to the last of them. -/
inductive Walk (node : Nat → Node) : Nat → Nat → Prop
  | stop {i : Nat} : (node i).nextSibling = none → Walk node i i
  | next {i j k : Nat} : (node i).nextSibling = some j → Walk node j k → Walk node i k

/-- The last child of the node `cur`, if it has one. -/
def LastChild (node : Nat → Node) (cur : Nat) : Option Nat → Prop
  | none => (node cur).firstChild = none
  | some j => ∃ i, (node cur).firstChild = some i ∧ Walk node i j

section

variable {node node' : Nat → Node} {n cur i j : Nat} {last : Option Nat}

theorem Walk.end_eq (h : Walk node i j) : (node j).nextSibling = none := by
  induction h with
  | stop h => exact h
  | next _ _ ih => exact ih

theorem Walk.grow (ho : Ordered node n) (hg : Grown node node' n cur (some j) (some n))
    (hnew : (node' n).nextSibling = none) (h : Walk node i j) (hi : i < n) : Walk node' i n := by
  induction h with
  | @stop i h =>
    refine .next ?_ (.stop hnew)
    rw [hg.sibling i hi, if_pos rfl]
  | @next i k j hk hwalk ih =>
    have hne : j ≠ i := by
      rintro rfl
      cases hk.symm.trans hwalk.end_eq
    refine .next ?_ (ih hg (ho.sibling i k hk).2)
    rw [hg.sibling i hi, if_neg fun h => hne (Option.some.inj h), hk]

/-- The new node is the last child. -/
theorem LastChild.grow (ho : Ordered node n) (hcur : cur < n) (h : LastChild node cur last)
    (hg : Grown node node' n cur last (some n)) (hnew : (node' n).nextSibling = none) :
    LastChild node' cur (some n) := by
  cases last with
  | none =>
    refine ⟨n, ?_, .stop hnew⟩
    rw [hg.child cur hcur, if_pos ⟨rfl, rfl⟩]
  | some j =>
    obtain ⟨i, hi, hwalk⟩ := h
    refine ⟨i, ?_, hwalk.grow ho hg hnew (ho.child cur i hi)⟩
    rw [hg.child cur hcur, if_neg (by simp), hi]

/-- The older nodes after nothing was put anywhere. -/
theorem Grown.refl (h : LastChild node cur last) : Grown node node n cur last none := by
  refine ⟨fun _ _ => rfl, fun i _ => ?_, fun i _ => ?_⟩
  · split_ifs with hi
    · obtain ⟨rfl, rfl⟩ := hi
      exact h
    · rfl
  · split_ifs with hi
    · subst hi
      obtain ⟨_, _, hwalk⟩ := h
      exact hwalk.end_eq
    · rfl

end

namespace HtmlParser

variable {τ : Type} {p p' : HtmlParser τ}

variable {i j n cur : Nat} {kind : ElementKind} {token : HtmlToken} {stack extra st : List Nat}
  {attributes : List Attribute} {d : Char} {e : Element} {ts : List DomTree}

theorem Walk.lastSibling_eq {k : Nat} (h : Walk p.node i j) : ∀ n, p.lastSibling n i = .ok k → k = j := by
  induction h with
  | stop h =>
    rintro (_ | n) hrun
    · cases hrun
    · rw [lastSibling, h] at hrun
      cases hrun
      rfl
  | next h _ ih =>
    rintro (_ | n) hrun
    · cases hrun
    · rw [lastSibling, h] at hrun
      exact ih n hrun

theorem pushNode_old (node : Node) (hj : j < p.size) : ((p.pushNode node).node j).kind = (p.node j).kind ∧
    ((p.pushNode node).node j).firstChild = (p.node j).firstChild ∧ ((p.pushNode node).node j).nextSibling =
    (p.node j).nextSibling := by
  have hnode : (p.pushNode node).node j =
      (p.modifyNode p.current fun c => { c with lastChild := some p.size }).node j :=
    update_of_ne hj.ne _ _
  rw [hnode]
  exact ⟨field_update Node.kind (by rfl) j, field_update Node.firstChild (by rfl) j,
    field_update Node.nextSibling (by rfl) j⟩

theorem pushNode_new (node : Node) :
    (p.pushNode node).node p.size = { node with parent := some p.current } := update_self _ _ _

/-- A node without children and siblings. -/
def Fresh (node : Nat → Node) (i : Nat) (kind : NodeKind) : Prop :=
  (node i).kind = kind ∧ (node i).firstChild = none ∧ (node i).nextSibling = none

/-- A node that was just put into the tree, and is open. -/
structure Inserted (p p' : HtmlParser τ) (last : Option Nat) (kind : NodeKind) : Prop extends Builds p p' where
  size : p'.size = p.size + 1
  stack : p'.stackOfOpenElements = p.size :: p.stackOfOpenElements
  grown : Grown p.node p'.node p.size p.current last (some p.size)
  new : Fresh p'.node p.size kind

/-- A new node, with the link to it in the node `i`. -/
theorem inserted_pushNode {f : Node → Node} {node : Node} {last : Option Nat}
    (hb : Builds p ((p.modifyNode i f).pushNode node)) (hfirst : node.firstChild = none)
    (hnext : node.nextSibling = none) (hg : Grown p.node (p.modifyNode i f).node p.size p.current last (some p.size)) :
    Inserted p ((p.modifyNode i f).pushNode node) last node.kind := by
  have hold : ∀ j, j < p.size → _ := fun j hj => pushNode_old (p := p.modifyNode i f) node hj
  have hnew := pushNode_new (p := p.modifyNode i f) node
  refine ⟨hb, rfl, rfl, ?_, (congrArg Node.kind hnew).trans rfl, (congrArg Node.firstChild hnew).trans hfirst,
    (congrArg Node.nextSibling hnew).trans hnext⟩
  exact ⟨fun j hj => (hold j hj).1.trans (hg.kind j hj), fun j hj => (hold j hj).2.1.trans (hg.child j hj),
    fun j hj => (hold j hj).2.2.trans (hg.sibling j hj)⟩

theorem inserted_below {kind : NodeKind} (h : Ordered p.node p.size) :
    Inserted p ((p.modifyNode p.current fun c => { c with firstChild := some p.size }).pushNode (.new kind)) none
      kind := by
  refine inserted_pushNode (builds_below rfl rfl h) rfl rfl ⟨fun i _ => ?_, fun i _ => ?_, fun i _ => ?_⟩
  all_goals
    rw [modifyNode]
    by_cases hc : i = p.current
    · subst hc
      simp
    · simp [hc]

theorem inserted_after {kind : NodeKind} (first : Nat) {last : Nat} (h : Ordered p.node p.size)
    (hlast : last < p.size) :
    Inserted p ((p.modifyNode last fun c => { c with nextSibling := some p.size }).pushNode
      { Node.new kind with previousSibling := some first })
      (some last) kind := by
  refine inserted_pushNode (builds_after rfl rfl h hlast) rfl rfl ⟨fun i _ => ?_, fun i _ => ?_, fun i _ => ?_⟩
  all_goals
    rw [modifyNode]
    by_cases hc : i = last
    · subst hc
      simp
    · simp [update_of_ne hc, Ne.symm hc]

theorem insertElement_inserted {tag : List Char} (attributes : List Attribute) {last : Option Nat}
    (h : Ordered p.node p.size) (hkind : Element.strToElementKind tag = .ok kind)
    (hlast : LastChild p.node p.current last) :
    ∃ p', insertElement tag attributes p = .ok p' ∧ Inserted p p' last (.element ⟨kind, attributes⟩) := by
  cases last with
  | none =>
    refine ⟨_, ?_, inserted_below h⟩
    have hfirst : (p.node p.current).firstChild = none := hlast
    simp only [insertElement, hkind, hfirst, bind, Except.bind]
    rfl
  | some last =>
    obtain ⟨first, hfirst, hwalk⟩ := hlast
    obtain ⟨_, hj, hlt⟩ := lastSibling_returns h p.size (h.child _ first hfirst) (Nat.sub_le _ _)
    obtain rfl := Walk.lastSibling_eq hwalk _ hj
    refine ⟨_, ?_, inserted_after first h hlt⟩
    simp only [insertElement, hkind, hfirst, hj, bind, Except.bind]
    rfl

/-! ## Runs -/

/-- The tokens that are read from `t`, and nothing after them. -/
def Feeds (source : TokenSource τ) : List HtmlToken → τ → Prop
  | [], t => ∃ t', source.next t = .ok (none, t')
  | token :: tokens, t => ∃ t', source.next t = .ok (some token, t') ∧ Feeds source tokens t'

/-- The tokens from the one at hand on. -/
def Coming (source : TokenSource τ) (c : HtmlParser τ × Option HtmlToken) : List HtmlToken → Prop
  | [] => c.2 = none
  | token :: tokens => c.2 = some token ∧ Feeds source tokens c.1.t

variable {source : TokenSource τ} {c : HtmlParser τ × Option HtmlToken} {tokens : List HtmlToken}

theorem advanceThen_coming {f : HtmlParser τ → Except Panic (HtmlParser τ)} {g : HtmlParser τ → HtmlParser τ}
    (h : Feeds source tokens p.t) (hf : ∀ t, f { p with t } = .ok { g p with t }) :
    ∃ t token, advanceThen source f p = .ok (.again ({ g p with t }, token)) ∧
      Coming source ({ g p with t }, token) tokens := by
  cases tokens with
  | nil =>
    obtain ⟨t', hnext⟩ := h
    refine ⟨t', none, ?_, rfl⟩
    simp only [advanceThen, hnext, hf, bind, Except.bind]
    rfl
  | cons token tokens =>
    obtain ⟨t', hnext, hrest⟩ := h
    refine ⟨t', some token, ?_, rfl, hrest⟩
    simp only [advanceThen, hnext, hf, bind, Except.bind]
    rfl

theorem advance_coming (h : Feeds source tokens p.t) :
    ∃ t token, advance source p = .ok (.again ({ p with t }, token)) ∧ Coming source ({ p with t }, token) tokens :=
  advanceThen_coming (f := .ok) (g := id) h fun _ => rfl

/-- Within the body. -/
structure Body (source : TokenSource τ) (c : HtmlParser τ × Option HtmlToken) (n : Nat) (stack : List Nat)
    (tokens : List HtmlToken) : Prop where
  mode : c.1.mode = .inBody
  size : c.1.size = n
  stack : c.1.stackOfOpenElements = stack
  ordered : Ordered c.1.node n
  coming : Coming source c tokens

theorem step_inBody (hmode : p.mode = .inBody) : step source (p, some token) = inBody source token p := by
  unfold step
  dsimp only
  rw [hmode]

/-- What is in a round about to process `token`. -/
theorem Body.exists_eq (h : Body source c n stack (token :: tokens)) :
    c = (c.1, some token) ∧ step source c = inBody source token c.1 ∧ Feeds source tokens c.1.t := by
  obtain ⟨_, _⟩ := c
  obtain ⟨rfl, hfeeds⟩ := h.coming
  exact ⟨rfl, step_inBody h.mode, hfeeds⟩

/-- An element begins. -/
theorem Body.startTag {n cur : Nat} {st : List Nat} {kind : ElementKind} {attributes : List Attribute}
    {selfClosing : Bool} {last : Option Nat}
    (h : Body source c n (cur :: st) (.startTag kind.tag selfClosing attributes :: tokens))
    (hkind : DomTree.isBlock kind) (hlast : LastChild c.1.node cur last) :
    ∃ c', Loop.Again (step source) c c' ∧ Body source c' (n + 1) (n :: cur :: st) tokens ∧
      Grown c.1.node c'.1.node n cur last (some n) ∧ Fresh c'.1.node n (.element ⟨kind, attributes⟩) := by
  obtain ⟨-, hstep, hfeeds⟩ := h.exists_eq
  obtain ⟨hmode, rfl, hstack, hordered, -⟩ := h
  have hcur : c.1.current = cur := by rw [current, hstack]; rfl
  have hstr : Element.strToElementKind kind.tag = .ok kind := by rcases hkind with rfl | rfl | rfl <;> rfl
  obtain ⟨p', hrun, hp'⟩ := insertElement_inserted attributes hordered hstr (by rwa [hcur])
  have hfeeds' : Feeds source tokens p'.t := by rwa [hp'.t]
  obtain ⟨t, token, hadvance, hcoming⟩ := advance_coming hfeeds'
  have hagain : step source c = .ok (.again ({ p' with t }, token)) := by
    rw [hstep, ← hadvance]
    have hbranch : inBody source (.startTag kind.tag selfClosing attributes) c.1 = insertElement kind.tag attributes
        c.1 >>= advance source := by
      rcases hkind with rfl | rfl | rfl <;> rfl
    rw [hbranch, hrun]
    rfl
  have hgrown := hp'.grown
  rw [hcur] at hgrown
  exact ⟨_, hagain, ⟨hp'.mode.trans hmode,
    hp'.size, by rw [← hstack]; exact hp'.stack, hp'.size ▸ hp'.ordered, hcoming⟩, hgrown, hp'.new⟩

def IsTextNode (p : HtmlParser τ) (i : Nat) : Prop := ∃ s, (p.node i).kind = .text s

theorem isKind_of_text (h : IsTextNode p i) (elementKind : ElementKind) : p.isKind elementKind i = false := by
  obtain ⟨_, hs⟩ := h
  rw [isKind, kindOf, hs]
  rfl

theorem isKind_self (h : (p.node i).kind = .element ⟨kind, attributes⟩) : p.isKind kind i = true := by
  rw [isKind, kindOf, h]
  simp [NodeKind.eq]

theorem containInStack_eq (hstack : p.stackOfOpenElements = extra ++ cur :: st)
    (hcur : (p.node cur).kind = .element ⟨kind, attributes⟩) : p.containInStack kind = true := by
  rw [containInStack, hstack, any_eq_true]
  exact ⟨cur, by simp, isKind_self hcur⟩

/-- An end tag closes the texts within its element, and the element. -/
theorem popUntil_eq (hstack : p.stackOfOpenElements = extra ++ cur :: st) (hextra : ∀ i ∈ extra, IsTextNode p i)
    (hcur : (p.node cur).kind = .element ⟨kind, attributes⟩) :
    popUntil kind p = .ok { p with stackOfOpenElements := st } := by
  have hloop : ∀ extra : List Nat, (∀ i ∈ extra, IsTextNode p i) → p.popUntilLoop kind (extra ++ cur :: st) = st := by
    intro extra hextra
    induction extra with
    | nil => rw [nil_append, popUntilLoop, if_pos (isKind_self hcur)]
    | cons i extra ih =>
      rw [cons_append, popUntilLoop, isKind_of_text (hextra i mem_cons_self), if_neg Bool.false_ne_true]
      exact ih fun j hj => hextra j (mem_cons_of_mem i hj)
  rw [popUntil, if_pos (containInStack_eq hstack hcur), hstack, hloop extra hextra]

theorem Body.endTag {selfClosing : Bool}
    (h : Body source c n (extra ++ cur :: st) (.endTag kind.tag selfClosing :: tokens)) (hkind : DomTree.isBlock kind)
    (hextra : ∀ i ∈ extra, IsTextNode c.1 i) (hcur : (c.1.node cur).kind = .element ⟨kind, attributes⟩) :
    ∃ c', Loop.Again (step source) c c' ∧ Body source c' n st tokens ∧ c'.1.node = c.1.node := by
  obtain ⟨-, hstep, hfeeds⟩ := h.exists_eq
  obtain ⟨hmode, hsize, hstack, hordered, -⟩ := h
  obtain ⟨t, token, hadvance, hcoming⟩ := advanceThen_coming (f := popUntil kind)
    (g := fun p => { p with stackOfOpenElements := st }) hfeeds
    fun t => popUntil_eq (p := { c.1 with t }) hstack hextra hcur
  have hagain : step source c = .ok (.again ({ { c.1 with stackOfOpenElements := st } with t }, token)) := by
    rw [hstep, ← hadvance]
    rcases hkind with rfl | rfl | rfl <;> rfl
  exact ⟨_, hagain, ⟨hmode, hsize, rfl, hordered, hcoming⟩, rfl⟩

theorem Body.char (h : Body source c n stack (.char d :: tokens)) :
    ∃ t token, Loop.Again (step source) c ({ insertChar d c.1 with t }, token) ∧
      Coming source ({ insertChar d c.1 with t }, token) tokens := by
  obtain ⟨-, hstep, hfeeds⟩ := h.exists_eq
  have hfeeds' : Feeds source tokens (insertChar d c.1).t := by rwa [(insertChar_same d c.1).2]
  obtain ⟨t, token, hadvance, hcoming⟩ := advance_coming hfeeds'
  exact ⟨t, token, hstep.trans hadvance, hcoming⟩

/-- The first character of a text makes a node. -/
theorem Body.firstChar (h : Body source c n (cur :: st) (.char d :: tokens)) (hblank : isBlank d = false)
    (hcur : (c.1.node cur).kind = .element e) (hlast : LastChild c.1.node cur none) :
    ∃ c', Loop.Again (step source) c c' ∧ Body source c' (n + 1) (n :: cur :: st) tokens ∧ Grown c.1.node c'.1.node n
      cur none (some n) ∧ Fresh c'.1.node n (.text [d]) := by
  obtain ⟨_, _, hagain, hcoming⟩ := h.char
  obtain ⟨hmode, rfl, hstack, hordered, -⟩ := h
  have hcurrent : c.1.current = cur := by rw [current, hstack]; rfl
  have hinsert : insertChar d c.1 = (c.1.modifyNode c.1.current fun n =>
      { n with firstChild := some c.1.size }).pushNode (.new (.text [d])) := by
    have hnot : (d = '\n' || d = ' ') = false := by
      simp only [isBlank, Bool.or_eq_false_iff, beq_eq_false_iff_ne] at hblank
      simp [hblank.1, hblank.2]
    have hchild : (c.1.node c.1.current).firstChild = none := by rw [hcurrent]; exact hlast
    rw [insertChar, kindOf, hcurrent, hcur]
    rw [hnot, if_neg Bool.false_ne_true, ← hcurrent, hchild]
  have hp' : Inserted c.1 (insertChar d c.1) none (.text [d]) := by
    rw [hinsert]
    exact inserted_below hordered
  have hgrown := hp'.grown
  rw [hcurrent] at hgrown
  exact ⟨_, hagain, ⟨hp'.mode.trans hmode,
    hp'.size, by rw [← hstack]; exact hp'.stack, hp'.size ▸ hp'.ordered, hcoming⟩, hgrown, hp'.new⟩

/-- The other characters are added to it. -/
theorem Body.moreText :
    ∀ (ds : List Char) {c : HtmlParser τ × Option HtmlToken} {n cur : Nat} {st : List Nat} {s : List Char},
    Body source c n (cur :: st) (ds.map .char ++ tokens) → (c.1.node cur).kind = .text s →
      ∃ c', Loop.Reaches (step source) c c' ∧ Body source c' n (cur :: st) tokens ∧
      (∀ i, i ≠ cur → c'.1.node i = c.1.node i) ∧
        (c'.1.node cur).kind = .text (s ++ ds) ∧ (c'.1.node cur).firstChild = (c.1.node cur).firstChild ∧
        (c'.1.node cur).nextSibling = (c.1.node cur).nextSibling
  | [], c, n, cur, st, s, h, hs => ⟨c, .refl, h, fun _ _ => rfl, by rwa [append_nil], rfl, rfl⟩
  | d :: ds, c, n, cur, st, s, h, hs => by
    obtain ⟨t, token, hagain, hcoming⟩ := h.char
    obtain ⟨hmode, hsize, hstack, hordered, -⟩ := h
    have hcurrent : c.1.current = cur := by rw [current, hstack]; rfl
    have hinsert : insertChar d c.1 = c.1.modifyNode cur fun n => { n with kind := .text (s ++ [d]) } := by
      rw [insertChar, kindOf, hcurrent, hs]
    have hnode : (insertChar d c.1).node = update c.1.node cur { c.1.node cur with kind := .text (s ++ [d]) } := by
      rw [hinsert]
      rfl
    have hbody : Body source ({ insertChar d c.1 with t }, token) n (cur :: st) (ds.map .char ++ tokens) := by
      refine ⟨by rw [hinsert]; exact hmode, by rw [hinsert]; exact hsize, by rw [hinsert]; exact hstack, ?_, hcoming⟩
      rw [hnode]
      exact Ordered.update hordered (hordered.sibling cur) (hordered.child cur)
    obtain ⟨c', hreaches, hbody', hsame, hkind, hchild, hsibling⟩ :=
      Body.moreText ds (s := s ++ [d]) hbody (by dsimp only; rw [hnode, update_self])
    refine ⟨c', .head hagain hreaches, hbody', fun i hi => (hsame i hi).trans ?_, ?_, hchild.trans ?_,
      hsibling.trans ?_⟩
    · rw [hnode, update_of_ne hi]
    · rw [hkind, append_assoc]
      rfl
    · rw [hnode, update_self]
    · rw [hnode, update_self]

/-! ## Trees that are built -/

/-- The trees are put after the last child of the open element. -/
def BuildsAll (source : TokenSource τ) (ts : List DomTree) : Prop :=
  ∀ (c : HtmlParser τ × Option HtmlToken) (n cur : Nat) (st : List Nat) (last : Option Nat) (tokens : List HtmlToken),
    Body source c n (cur :: st) (DomTree.allTokens ts ++ tokens) → cur < n → LastChild c.1.node cur last →
      ∃ c', Loop.Reaches (step source) c c' ∧ Body source c' (n + DomTree.sizes ts) (cur :: st) tokens ∧
        Grown c.1.node c'.1.node n cur last (DomTree.first n ts) ∧ DomTree.AllAt c'.1.node n ts

/-- One tree, which the next ones are put after. -/
def BuildsOne (source : TokenSource τ) (t : DomTree) : Prop :=
  ∀ (c : HtmlParser τ × Option HtmlToken) (n cur : Nat) (st : List Nat) (last : Option Nat) (tokens : List HtmlToken),
    Body source c n (cur :: st) (DomTree.tokens t ++ tokens) → LastChild c.1.node cur last →
      ∃ c', Loop.Reaches (step source) c c' ∧ Body source c' (n + DomTree.size t) (cur :: st) tokens ∧
        Grown c.1.node c'.1.node n cur last (some n) ∧ DomTree.At c'.1.node n t ∧ (c'.1.node n).nextSibling = none

/-- The content of an open element. A text in it stays open. -/
def BuildsContent (source : TokenSource τ) (ts : List DomTree) : Prop :=
  ∀ (c : HtmlParser τ × Option HtmlToken) (n cur : Nat) (st : List Nat) (e : Element) (tokens : List HtmlToken),
    Body source c n (cur :: st) (DomTree.allTokens ts ++ tokens) → cur < n → (c.1.node cur).kind = .element e →
      LastChild c.1.node cur none →
      ∃ c' extra, Loop.Reaches (step source) c c' ∧ Body source c' (n + DomTree.sizes ts) (extra ++ cur :: st) tokens ∧
        (∀ i ∈ extra, IsTextNode c'.1 i) ∧ Grown c.1.node c'.1.node n cur none (DomTree.first n ts) ∧
        DomTree.AllAt c'.1.node n ts

theorem buildsAll_nil : BuildsAll source [] := fun c _ _ _ _ _ hbody _ hlast => ⟨c, .refl, hbody, .refl hlast, trivial⟩

theorem buildsAll_cons {t : DomTree} (ht : BuildsOne source t) (hts : BuildsAll source ts) :
    BuildsAll source (t :: ts) := by
  intro c n cur st last tokens hbody hcur hlast
  have hpos := DomTree.size_pos t
  rw [DomTree.allTokens, append_assoc] at hbody
  obtain ⟨c1, hreaches1, hbody1, hgrown1, hat1, hsibling1⟩ := ht c n cur st last _ hbody hlast
  have hlast1 := hlast.grow hbody.ordered hcur hgrown1 hsibling1
  obtain ⟨c2, hreaches2, hbody2, hgrown2, hall⟩ := hts c1 _ cur st _ tokens hbody1 (by omega) hlast1
  -- the trees after the first change nothing before them but the sibling of its root
  have hchild : ∀ i < n + t.size, (c2.1.node i).firstChild = (c1.1.node i).firstChild := by
    intro i hi
    rw [hgrown2.child i hi, if_neg (by simp)]
  have hsibling : ∀ i < n + t.size, i ≠ n → (c2.1.node i).nextSibling = (c1.1.node i).nextSibling := by
    intro i hi hne
    rw [hgrown2.sibling i hi, if_neg fun h => hne (Option.some.inj h).symm]
  refine ⟨c2, hreaches1.trans hreaches2, by rw [DomTree.sizes, ← Nat.add_assoc]; exact hbody2,
    ⟨?_, ?_, ?_⟩, ?_, ?_, hall⟩
  · exact fun i hi => (hgrown2.kind i (by omega)).trans (hgrown1.kind i hi)
  · exact fun i hi => (hchild i (by omega)).trans (hgrown1.child i hi)
  · exact fun i hi => (hsibling i (by omega) hi.ne).trans (hgrown1.sibling i hi)
  · exact hat1.congr (fun j _ hj => ⟨hgrown2.kind j hj, hchild j hj⟩) fun j hlt hj => hsibling j hj hlt.ne'
  · rw [hgrown2.sibling n (by omega), if_pos rfl]

theorem buildsOne_element {children : List DomTree} (hkind : DomTree.isBlock e.kind)
    (hcontent : BuildsContent source children) : BuildsOne source (.node (.element e) children) := by
  intro c n cur st last tokens hbody hlast
  rw [DomTree.tokens, cons_append, append_assoc] at hbody
  obtain ⟨c1, hagain1, hbody1, hgrown1, hkind1, hchild1, hsibling1⟩ := hbody.startTag hkind hlast
  obtain ⟨c2, _, hreaches2, hbody2, hextra, hgrown2, hall⟩ :=
    hcontent c1 (n + 1) n (cur :: st) e _ hbody1 (Nat.lt_succ_self n) hkind1 hchild1
  have hkind2 : (c2.1.node n).kind = .element e := (hgrown2.kind n (Nat.lt_succ_self n)).trans hkind1
  obtain ⟨c3, hagain3, hbody3, hnode⟩ := hbody2.endTag hkind hextra hkind2
  have hsibling : ∀ i < n + 1, (c2.1.node i).nextSibling = (c1.1.node i).nextSibling := by
    intro i hi
    rw [hgrown2.sibling i hi, if_neg (by simp)]
  have hsize : n + 1 + DomTree.sizes children = n + DomTree.size (.node (.element e) children) := by
    rw [DomTree.size]
    omega
  rw [hsize] at hbody3
  refine ⟨c3, .head hagain1 (hreaches2.tail hagain3), hbody3, ?_⟩
  rw [hnode]
  refine ⟨⟨?_, ?_, ?_⟩, ⟨hkind2, ?_, hall⟩, (hsibling n (Nat.lt_succ_self n)).trans hsibling1⟩
  · exact fun i hi => (hgrown2.kind i (by omega)).trans (hgrown1.kind i hi)
  · intro i hi
    rw [hgrown2.child i (by omega), if_neg fun h => hi.ne h.1, hgrown1.child i hi]
  · exact fun i hi => (hsibling i (by omega)).trans (hgrown1.sibling i hi)
  · rw [hgrown2.child n (Nat.lt_succ_self n), if_pos ⟨rfl, rfl⟩]

theorem buildsContent_elements (h : BuildsAll source ts) : BuildsContent source ts := by
  intro c n cur st e tokens hbody hcur _ hlast
  obtain ⟨c', hreaches, hbody', hgrown, hall⟩ := h c n cur st none tokens hbody hcur hlast
  exact ⟨c', [], hreaches, hbody', nofun, hgrown, hall⟩

theorem buildsContent_text {s : List Char} (h : DomTree.IsText s) : BuildsContent source [.node (.text s) []] := by
  intro c n cur st e tokens hbody hcur hkind hlast
  obtain ⟨hne, -, hblank⟩ := h
  obtain ⟨d, ds, rfl⟩ := exists_cons_of_ne_nil hne
  have htokens : DomTree.allTokens [.node (.text (d :: ds)) []] = .char d :: ds.map .char := by
    simp [DomTree.allTokens, DomTree.tokens]
  have hsizes : DomTree.sizes [.node (.text (d :: ds)) []] = 1 := by simp [DomTree.sizes, DomTree.size]
  rw [htokens, cons_append] at hbody
  obtain ⟨_, hagain1, hbody1, hgrown1, hkind1, hchild1, hsibling1⟩ := hbody.firstChar (hblank d rfl) hkind hlast
  obtain ⟨c2, hreaches2, hbody2, hsame, hkind2, hchild2, hsibling2⟩ := Body.moreText ds hbody1 hkind1
  refine ⟨c2, [n], .head hagain1 hreaches2, by rw [hsizes]; exact hbody2, ?_, ⟨?_, ?_, ?_⟩,
    ⟨hkind2, hchild2.trans hchild1, trivial⟩, hsibling2.trans hsibling1, trivial⟩
  · rintro i hi
    obtain rfl := mem_singleton.1 hi
    exact ⟨_, hkind2⟩
  · intro i hi
    rw [hsame i hi.ne, hgrown1.kind i hi]
  · intro i hi
    rw [hsame i hi.ne, hgrown1.child i hi]
    rfl
  · intro i hi
    rw [hsame i hi.ne, hgrown1.sibling i hi]
    rfl

mutual

theorem buildsOne : ∀ t : DomTree, DomTree.IsElement t → BuildsOne source t
  | .node (.element _) children, ⟨hkind, _, .inl h⟩ => buildsOne_element hkind
      (buildsContent_elements (buildsAll children h))
  | .node (.element _) _, ⟨hkind, _, .inr ⟨_, htext, heq⟩⟩ => by
    subst heq
    exact buildsOne_element hkind (buildsContent_text htext)

theorem buildsAll : ∀ ts : List DomTree, DomTree.AllElements ts → BuildsAll source ts
  | [], _ => buildsAll_nil
  | t :: ts, ⟨ht, hts⟩ => buildsAll_cons (buildsOne t ht) (buildsAll ts hts)

end

theorem buildsContent (h : DomTree.IsContent ts) : BuildsContent source ts := by
  obtain h | ⟨s, hs, rfl⟩ := h
  · exact buildsContent_elements (buildsAll ts h)
  · exact buildsContent_text hs

/-! ## Documents -/

/-- The document's nodes are made one after the other. -/
theorem at_document {node0 node1 node2 node3 : Nat → Node} (hkind0 : (node0 0).kind = .document)
    (hsibling0 : (node0 0).nextSibling = none) (hgrown1 : Grown node0 node1 1 0 none (some 1))
    (hnew1 : Fresh node1 1 (.element ⟨.html, []⟩)) (hgrown2 : Grown node1 node2 2 1 none (some 2))
    (hnew2 : Fresh node2 2 (.element ⟨.head, []⟩)) (hgrown3 : Grown node2 node3 3 1 (some 2) (some 3))
    (hnew3 : Fresh node3 3 (.element ⟨.body, []⟩)) :
    DomTree.At node3 0 (DomTree.document []) ∧ (node3 0).nextSibling = none := by
  have hkind : (node3 0).kind = .document ∧ (node3 1).kind = .element ⟨.html, []⟩ ∧ (node3 2).kind =
      .element ⟨.head, []⟩ := by
    simp [hgrown3.kind, hgrown2.kind, hgrown1.kind, hkind0, hnew1.1, hnew2.1]
  have hchild : (node3 0).firstChild = some 1 ∧ (node3 1).firstChild = some 2 ∧ (node3 2).firstChild = none := by
    simp [hgrown3.child, hgrown2.child, hgrown1.child, hnew2.2.1]
  have hsibling : (node3 0).nextSibling = none ∧ (node3 1).nextSibling = none ∧ (node3 2).nextSibling = some 3 := by
    simp [hgrown3.sibling, hgrown2.sibling, hgrown1.sibling, hsibling0, hnew1.2.2]
  exact ⟨⟨hkind.1, hchild.1, ⟨hkind.2.1, hchild.2.1, ⟨hkind.2.2, hchild.2.2, trivial⟩, hsibling.2.2,
    ⟨hnew3.1, hnew3.2.1, trivial⟩, hnew3.2.2, trivial⟩, hsibling.2.1, trivial⟩, hsibling.1⟩

/-- The tags up to the body's, which has node 3. -/
theorem reaches_body {t : τ}
    (h : Feeds source (.startTag Tag.html false [] :: .startTag Tag.head false [] :: .endTag Tag.head false ::
      .startTag Tag.body false [] :: tokens) t) : ∃ t' c, source.next t = .ok (some (.startTag Tag.html false []), t') ∧
      Loop.Reaches (step source) (.new t', some (.startTag Tag.html false [])) c ∧ Body source c 4 [3, 1] tokens ∧
      DomTree.At c.1.node 0 (DomTree.document []) ∧ (c.1.node 0).nextSibling = none := by
  obtain ⟨t1, hnext1, t2, hnext2, t3, hnext3, t4, hnext4, hfeeds⟩ := h
  -- the document's element
  obtain ⟨p1, hrun1, hp1⟩ := insertElement_inserted (p := { HtmlParser.new t1 with mode := .beforeHtml }) []
    (inv_new t1).ordered
    (show Element.strToElementKind Tag.html = .ok .html from rfl) (show LastChild _ _ none from rfl)
  have hgrown1 : Grown (HtmlParser.new t1).node p1.node 1 0 none (some 1) := hp1.grown
  have hnew1 : Fresh p1.node 1 (.element ⟨.html, []⟩) := hp1.new
  have hsize1 : p1.size = 2 := hp1.size
  have hstack1 : p1.stackOfOpenElements = [1] := hp1.stack
  have hcurrent1 : p1.current = 1 := by rw [current, hstack1]; rfl
  -- the head, which is closed at once
  have hlast1 : LastChild p1.node p1.current none := by
    rw [hcurrent1]
    exact hnew1.2.1
  obtain ⟨p2, hrun2, hp2⟩ := insertElement_inserted (p := { p1 with mode := .beforeHead, t := t2 }) [] hp1.ordered
    (show Element.strToElementKind Tag.head = .ok .head from rfl) hlast1
  have hgrown2 : Grown p1.node p2.node 2 1 none (some 2) := by
    rw [← hsize1, ← hcurrent1]
    exact hp2.grown
  have hnew2 : Fresh p2.node 2 (.element ⟨.head, []⟩) := by
    rw [← hsize1]
    exact hp2.new
  have hsize2 : p2.size = 3 := hp2.size.trans (congrArg (· + 1) hsize1)
  have hstack2 : p2.stackOfOpenElements = [2, 1] := by rw [hp2.stack, hstack1, hsize1]
  have hpop : popUntil .head { p2 with mode := .afterHead, t := t4 } =
      .ok { p2 with mode := .afterHead, stackOfOpenElements := [1], t := t4 } :=
    popUntil_eq (p := { p2 with mode := .afterHead, t := t4 }) (show _ = [] ++ 2 :: [1] from hstack2) nofun hnew2.1
  -- the body
  have hlast2 : LastChild p2.node 1 (some 2) :=
    LastChild.grow (hsize1 ▸ hp1.ordered) (by decide) (show LastChild _ _ none from hnew1.2.1) hgrown2 hnew2.2.2
  obtain ⟨p3, hrun3, hp3⟩ := insertElement_inserted
    (p := { p2 with mode := .afterHead, stackOfOpenElements := [1], t := t4 }) [] hp2.ordered
    (show Element.strToElementKind Tag.body = .ok .body from rfl) hlast2
  have hgrown3 : Grown p2.node p3.node 3 1 (some 2) (some 3) := by
    rw [← hsize2]
    exact hp3.grown
  have hnew3 : Fresh p3.node 3 (.element ⟨.body, []⟩) := by
    rw [← hsize2]
    exact hp3.new
  have hsize3 : p3.size = 4 := hp3.size.trans (congrArg (· + 1) hsize2)
  have hstack3 : p3.stackOfOpenElements = [3, 1] := by rw [hp3.stack, hsize2]
  have hfeeds3 : Feeds source tokens p3.t := by rwa [hp3.t]
  obtain ⟨t5, token, hadvance, hcoming⟩ := advanceThen_coming (f := fun p => .ok { p with mode := .inBody })
    (g := fun p => { p with mode := .inBody }) hfeeds3 fun _ => rfl
  -- the rounds
  have hinitial : Loop.Again (step source) (.new t1, some (.startTag Tag.html false []))
      ({ HtmlParser.new t1 with mode := .beforeHtml }, some (.startTag Tag.html false [])) := rfl
  have hhtml : Loop.Again (step source) ({ HtmlParser.new t1 with mode := .beforeHtml },
    some (.startTag Tag.html false []))
      ({ p1 with mode := .beforeHead, t := t2 }, some (.startTag Tag.head false [])) := by
    show (insertElement Tag.html [] _ >>= fun p => _) = _
    rw [hrun1]
    show (source.next p1.t >>= fun x => _) = _
    rw [hp1.t]
    show (source.next t1 >>= fun x => _) = _
    rw [hnext2]
    rfl
  have hhead : Loop.Again (step source) ({ p1 with mode := .beforeHead, t := t2 }, some (.startTag Tag.head false []))
      ({ p2 with mode := .inHead, t := t3 }, some (.endTag Tag.head false)) := by
    show (insertElement Tag.head [] _ >>= fun p => _) = _
    rw [hrun2]
    show (source.next p2.t >>= fun x => _) = _
    rw [hp2.t, hnext3]
    rfl
  have hclosed : Loop.Again (step source) ({ p2 with mode := .inHead, t := t3 }, some (.endTag Tag.head false))
      ({ p2 with mode := .afterHead, stackOfOpenElements := [1], t := t4 }, some (.startTag Tag.body false [])) := by
    show (source.next t3 >>= fun x => _) = _
    rw [hnext4]
    show (popUntil .head { p2 with mode := .afterHead, t := t4 } >>= fun p => _) = _
    rw [hpop]
    rfl
  have hbody : Loop.Again (step source)
      ({ p2 with mode := .afterHead, stackOfOpenElements := [1], t := t4 }, some (.startTag Tag.body false []))
      ({ p3 with mode := .inBody, t := t5 }, token) := by
    show (insertElement Tag.body [] _ >>= _) = _
    rw [hrun3]
    exact hadvance
  refine ⟨t1, _, hnext1, .tail (.tail (.tail (.tail (.single hinitial) hhtml) hhead) hclosed) hbody,
    ⟨rfl, hsize3, hstack3, hsize3 ▸ hp3.ordered, hcoming⟩,
    at_document rfl rfl hgrown1 hnew1 hgrown2 hnew2 hgrown3 hnew3⟩

/-- The end tags of the body and the document. -/
theorem Body.close (h : Body source c n (extra ++ cur :: st) [.endTag Tag.body false, .endTag Tag.html false])
    (hextra : ∀ i ∈ extra, IsTextNode c.1 i) (hcur : (c.1.node cur).kind = .element ⟨.body, attributes⟩) :
    ∃ c' p, Loop.Reaches (step source) c c' ∧ step source c' = .ok (.done p) ∧ p.node = c.1.node := by
  obtain ⟨-, hstep, hfeeds⟩ := h.exists_eq
  obtain ⟨-, -, hstack, -, -⟩ := h
  have hpop : ∀ t : τ, (if containInStack .body { c.1 with mode := .afterBody, t } then
      popUntil .body { c.1 with mode := .afterBody, t } else .ok { c.1 with mode := .afterBody, t }) =
        .ok { c.1 with mode := .afterBody, stackOfOpenElements := st, t } := by
    intro t
    rw [if_pos (containInStack_eq (p := { c.1 with mode := .afterBody, t }) hstack hcur)]
    exact popUntil_eq (p := { c.1 with mode := .afterBody, t }) hstack hextra hcur
  obtain ⟨t1, _, hadvance1, rfl, hfeeds1⟩ := advanceThen_coming (p := { c.1 with mode := .afterBody })
    (f := fun p => if p.containInStack .body then popUntil .body p else .ok p)
    (g := fun p => { p with stackOfOpenElements := st }) hfeeds hpop
  obtain ⟨_, _, hadvance2, rfl⟩ := advance_coming
    (p := { c.1 with mode := .afterAfterBody, stackOfOpenElements := st, t := t1 }) hfeeds1
  exact ⟨_, _, .tail (.single (hstep.trans hadvance1)) hadvance2, rfl, rfl⟩

end HtmlParser

namespace DomTree

theorem isTagName_tag {kind : ElementKind} (h : isBlock kind) : IsTagName kind.tag := by
  rcases h with rfl | rfl | rfl
  · exact ⟨⟨'d', _, rfl, rfl⟩, by simp [ElementKind.tag, Tag.div]⟩
  · exact ⟨⟨'u', _, rfl, rfl⟩, by simp [ElementKind.tag, Tag.ul]⟩
  · exact ⟨⟨'l', _, rfl, rfl⟩, by simp [ElementKind.tag, Tag.li]⟩

theorem printable_text {s : List Char} (h : IsText s) : ∀ token ∈ allTokens [node (.text s) []], token.Printable := by
  simp only [allTokens, tokens, append_nil, mem_map]
  rintro _ ⟨c, hc, rfl⟩
  exact h.lt c hc

mutual

theorem printable_tokens : ∀ t : DomTree, IsElement t → ∀ token ∈ tokens t, token.Printable
  | node (.element e) children, ⟨hkind, hattributes, hchildren⟩ => by
    have hcontent : ∀ token ∈ allTokens children, token.Printable := by
      rcases hchildren with h | ⟨s, hs, heq⟩
      · exact printable_allTokens children h
      · rw [heq]
        exact printable_text hs
    intro token htoken
    simp only [tokens, mem_cons, mem_append, not_mem_nil, or_false] at htoken
    rcases htoken with rfl | htoken | rfl
    · exact ⟨isTagName_tag hkind, hattributes⟩
    · exact hcontent token htoken
    · exact isTagName_tag hkind

theorem printable_allTokens : ∀ ts : List DomTree, AllElements ts → ∀ token ∈ allTokens ts, token.Printable
  | [], _, token, htoken => by cases htoken
  | t :: ts, ⟨ht, hts⟩, token, htoken => by
    rw [allTokens, mem_append] at htoken
    rcases htoken with h | h
    · exact printable_tokens t ht token h
    · exact printable_allTokens ts hts token h

end

variable {children : List DomTree}

theorem printable_content (h : IsContent children) : ∀ token ∈ allTokens children, token.Printable := by
  obtain h | ⟨s, hs, rfl⟩ := h
  · exact printable_allTokens children h
  · exact printable_text hs

theorem tokens_document (children : List DomTree) : tokens (document children) =
    .startTag Tag.html false [] :: .startTag Tag.head false [] :: .endTag Tag.head false :: .startTag Tag.body false
      [] :: (allTokens children ++ [.endTag Tag.body false, .endTag Tag.html false]) := by
  simp [document, tokens, allTokens, ElementKind.tag]

theorem printable_document (h : IsContent children) : ∀ token ∈ tokens (document children), token.Printable := by
  have hhtml : IsTagName Tag.html := ⟨⟨'h', _, rfl, rfl⟩, by simp [Tag.html]⟩
  have hhead : IsTagName Tag.head := ⟨⟨'h', _, rfl, rfl⟩, by simp [Tag.head]⟩
  have hbody : IsTagName Tag.body := ⟨⟨'b', _, rfl, rfl⟩, by simp [Tag.body]⟩
  intro token htoken
  simp only [tokens_document, mem_cons, mem_append, not_mem_nil, or_false] at htoken
  rcases htoken with rfl | rfl | rfl | rfl | htoken | rfl | rfl
  · exact ⟨hhtml, by simp⟩
  · exact ⟨hhead, by simp⟩
  · exact hhead
  · exact ⟨hbody, by simp⟩
  · exact printable_content h token htoken
  · exact hbody
  · exact hhtml

/-- The document as it is written. -/
def html (children : List DomTree) : List Char :=
  "<html><head></head><body>".toList ++ ((allTokens children).flatMap HtmlToken.text ++ "</body></html>".toList)

theorem opening_eq : "<html><head></head><body>".toList = (HtmlToken.startTag Tag.html false []).text ++
    ((HtmlToken.startTag Tag.head false []).text ++
      ((HtmlToken.endTag Tag.head false).text ++ (HtmlToken.startTag Tag.body false []).text)) := by
  decide +kernel

theorem closing_eq :
    "</body></html>".toList = (HtmlToken.endTag Tag.body false).text ++ (HtmlToken.endTag Tag.html false).text := by
  decide +kernel

theorem html_eq (children : List DomTree) : html children = (tokens (document children)).flatMap HtmlToken.text := by
  unfold html
  rw [tokens_document, opening_eq, closing_eq]
  simp only [flatMap_cons, flatMap_append, flatMap_nil, append_assoc, append_nil]

/-- The body of an empty document takes its content. -/
theorem At.document {node node' : Nat → Node} {children : List DomTree} (h : At node 0 (document []))
    (hgrown : Grown node node' 4 3 none (first 4 children)) (hchildren : AllAt node' 4 children) :
    At node' 0 (DomTree.document children) := by
  obtain ⟨hkind0, hchild0, ⟨hkind1, hchild1, ⟨hkind2, hchild2, -⟩, hsibling2, ⟨hkind3, -, -⟩, hsibling3, -⟩,
    hsibling1, -⟩ := h
  have hkind : ∀ i < 4, (node' i).kind = (node i).kind := hgrown.kind
  have hchild : ∀ i < 3, (node' i).firstChild = (node i).firstChild := by
    intro i hi
    rw [hgrown.child i (by omega), if_neg fun h => hi.ne h.1]
  have hsibling : ∀ i < 4, (node' i).nextSibling = (node i).nextSibling := by
    intro i hi
    rw [hgrown.sibling i hi, if_neg (by simp)]
  refine ⟨(hkind 0 (by decide)).trans hkind0, (hchild 0 (by decide)).trans hchild0, ⟨(hkind 1 (by decide)).trans hkind1,
    (hchild 1 (by decide)).trans hchild1, ⟨(hkind 2 (by decide)).trans hkind2, (hchild 2 (by decide)).trans hchild2,
    trivial⟩, (hsibling 2 (by decide)).trans hsibling2, ⟨(hkind 3 (by decide)).trans hkind3, ?_, hchildren⟩,
    (hsibling 3 (by decide)).trans hsibling3, trivial⟩, (hsibling 1 (by decide)).trans hsibling1, trivial⟩
  exact hgrown.child 3 (by decide)

end DomTree

namespace HtmlParser

theorem feeds_of_emits : ∀ {tokens : List HtmlToken} {t : HtmlTokenizer}, t.Emits tokens → Feeds .ofTokenizer tokens t
  | [], _, h => h
  | _ :: _, _, ⟨t', hnext, h⟩ => ⟨t', hnext, feeds_of_emits h⟩

/-- What is written is built: the document comes out again, with all that was in its body. -/
theorem constructTree_html (children : List DomTree) (hchildren : DomTree.IsContent children) :
    ∃ p, (∃ n, ∀ rounds ≥ n, constructTree .ofTokenizer rounds (.new (.new (DomTree.html children))) = .ok p) ∧
      Reads p.node (some 0) [DomTree.document children] := by
  have hfeeds : Feeds .ofTokenizer (DomTree.document children).tokens (.new (DomTree.html children)) := by
    rw [DomTree.html_eq]
    exact feeds_of_emits (HtmlTokenizer.Ready.emits _ (DomTree.printable_document hchildren)
      (HtmlTokenizer.ready_new _))
  rw [DomTree.tokens_document] at hfeeds
  obtain ⟨_, c, hnext, hreaches, hbody, hat, hsibling⟩ := reaches_body hfeeds
  obtain ⟨-, -, ⟨-, -, -, -, ⟨hkind, hchild, -⟩, -⟩, -⟩ := id hat
  obtain ⟨_, _, hreaches', hbody', hextra, hgrown, hall⟩ :=
    buildsContent hchildren c 4 3 [1] _ _ hbody (Nat.lt_succ_self 3) hkind hchild
  obtain ⟨_, p, hreaches'', hdone, hnode⟩ := hbody'.close hextra ((hgrown.kind 3 (Nat.lt_succ_self 3)).trans hkind)
  obtain ⟨n, hn⟩ := Loop.run_eq_of_done (e := Panic.diverges) ((hreaches.trans hreaches').trans hreaches'') hdone
  refine ⟨p, ⟨n, fun rounds h => (constructTree_eq .ofTokenizer hnext rounds).trans (hn rounds h)⟩, ?_⟩
  rw [hnode]
  refine DomTree.reads_at (hat.document hgrown hall) ?_
  rw [hgrown.sibling 0 (by decide), if_neg nofun, hsibling]
  exact .nil

/-- A division with an attribute around a list of two items. -/
def listPage : List Char :=
  "<html><head></head><body><div id=\"a\"><ul><li>x y</li><li></li></ul></div></body></html>".toList

def listTree : List DomTree :=
  [.node (.element ⟨.div, [⟨['i', 'd'], ['a']⟩]⟩) [.node (.element ⟨.ul, []⟩)
    [.node (.element ⟨.li, []⟩) [.node (.text ['x', ' ', 'y']) []], .node (.element ⟨.li, []⟩) []]]]

theorem constructTree_html_list :
    ∃ p, (∃ n, ∀ rounds ≥ n, constructTree .ofTokenizer rounds (.new (.new listPage)) = .ok p) ∧
      Reads p.node (some 0) [DomTree.document listTree] := by
  have htext : DomTree.IsText ['x', ' ', 'y'] := ⟨by simp, by simp, by simp [isBlank]⟩
  have hitem : DomTree.IsElement (.node (.element ⟨.li, []⟩) [.node (.text ['x', ' ', 'y']) []]) :=
    ⟨.inr (.inr rfl), nofun, .inr ⟨_, htext, rfl⟩⟩
  have hempty : DomTree.IsElement (.node (.element ⟨.li, []⟩) []) := ⟨.inr (.inr rfl), nofun, .inl trivial⟩
  have hhtml : listPage = DomTree.html listTree := by decide +kernel
  rw [hhtml]
  refine constructTree_html listTree (.inl
    ⟨⟨.inl rfl, List.forall_mem_singleton.2 ⟨by simp, by simp, by simp⟩, .inl ⟨⟨?_, nofun, ?_⟩, trivial⟩⟩, trivial⟩)
  · exact .inr (.inl rfl)
  · exact .inl ⟨hitem, hempty, trivial⟩

end HtmlParser

end Liumos.Browser
