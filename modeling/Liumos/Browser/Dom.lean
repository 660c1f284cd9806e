/-
The tree that the browser builds from HTML tokens. Nodes are numbered in the order in which they are made,
and the document is node 0; a reference to a node is its number. Source: renderer/html/dom.rs.
-/
import Liumos.Browser.HtmlToken

namespace Liumos.Browser

open Loop (Round)

/-! ## Nodes -/

inductive ElementKind where
  | html
  | head
  | link
  | style
  | script
  | text
  | body
  | ul
  | li
  | div
  deriving Repr, DecidableEq

structure Element where
  kind : ElementKind
  attributes : List Attribute
  deriving Repr, DecidableEq

inductive NodeKind where
  | document
  | element (e : Element)
  | text (s : List Char)
  deriving Repr, DecidableEq

/-- `==` on node kinds compares neither the attributes of elements nor texts. -/
def NodeKind.eq : NodeKind → NodeKind → Bool
  | document, document => true
  | element e1, element e2 => e1.kind == e2.kind
  | text _, text _ => true
  | _, _ => false

structure Node where
  kind : NodeKind
  parent : Option Nat
  firstChild : Option Nat
  lastChild : Option Nat
  previousSibling : Option Nat
  nextSibling : Option Nat

def Node.new (kind : NodeKind) : Node := ⟨kind, none, none, none, none, none⟩

namespace Tag

def html : List Char := ['h', 't', 'm', 'l']

def head : List Char := ['h', 'e', 'a', 'd']

def link : List Char := ['l', 'i', 'n', 'k']

def style : List Char := ['s', 't', 'y', 'l', 'e']

def script : List Char := ['s', 'c', 'r', 'i', 'p', 't']

def body : List Char := ['b', 'o', 'd', 'y']

def ul : List Char := ['u', 'l']

def li : List Char := ['l', 'i']

def div : List Char := ['d', 'i', 'v']

def br : List Char := ['b', 'r']

end Tag

def Element.strToElementKind (name : List Char) : Except Panic ElementKind :=
  if name = Tag.html then .ok .html
  else if name = Tag.head then .ok .head
  else if name = Tag.link then .ok .link
  else if name = Tag.style then .ok .style
  else if name = Tag.script then .ok .script
  else if name = Tag.body then .ok .body
  else if name = Tag.ul then .ok .ul
  else if name = Tag.li then .ok .li
  else if name = Tag.div then .ok .div
  else .error (.message ("not implemented: not supported this tag name: " ++ String.ofList name))

inductive InsertionMode where
  | initial
  | beforeHtml
  | beforeHead
  | inHead
  | afterHead
  | inBody
  | text
  | afterBody
  | afterAfterBody
  deriving Repr, DecidableEq

/-! ## The parser -/

/-- Where tokens come from: every token makes what is left less, and asking for one does not take forever. -/
structure TokenSource (τ : Type) where
  next : τ → Except Panic (Option HtmlToken × τ)
  size : τ → Nat
  size_lt : ∀ {t token t'}, next t = .ok (some token, t') → size t' < size t
  ends : ∀ t, next t ≠ .error .diverges

theorem HtmlTokenizer.next_shorter {t t' : HtmlTokenizer} {token : HtmlToken} (h : t.next = .ok (some token, t')) :
    t'.input.length - t'.place < t.input.length - t.place := by
  have hends := t.ends_next
  unfold HtmlTokenizer.next at h
  split_ifs at h with hpos
  · cases h
  · generalize Loop.run HtmlTokenizer.step .diverges (4 * (t.input.length - t.pos) + 4) t = r at h hends
    cases hends with
    | @token token1 t1 hinput hr hlt =>
      cases h
      have hplace : t1.place = t1.pos := by simp [HtmlTokenizer.place, hr]
      have hle : t.place ≤ t.pos := by unfold HtmlTokenizer.place; split_ifs <;> omega
      rw [hinput, hplace]
      omega
    | error he => cases h

theorem HtmlTokenizer.next_ne_diverges (t : HtmlTokenizer) : t.next ≠ .error .diverges := by
  intro h
  have hends := t.ends_next
  unfold HtmlTokenizer.next at h
  split_ifs at h
  generalize Loop.run HtmlTokenizer.step .diverges (4 * (t.input.length - t.pos) + 4) t = r at h hends
  cases hends with
  | token => cases h
  | error he =>
    cases h
    exact he rfl

/-- The tokens of a text. -/
def TokenSource.ofTokenizer : TokenSource HtmlTokenizer where
  next := HtmlTokenizer.next
  size t := t.input.length - t.place
  size_lt := HtmlTokenizer.next_shorter
  ends := HtmlTokenizer.next_ne_diverges

/-- The open elements are listed from the innermost on. -/
structure HtmlParser (τ : Type) where
  node : Nat → Node
  size : Nat
  mode : InsertionMode
  t : τ
  stackOfOpenElements : List Nat
  originalInsertionMode : InsertionMode

namespace HtmlParser

variable {τ : Type}

def new (t : τ) : HtmlParser τ := ⟨fun _ => .new .document, 1, .initial, t, [], .initial⟩

/-- The innermost open element, or the document. -/
def current (p : HtmlParser τ) : Nat := p.stackOfOpenElements.head?.getD 0

def kindOf (p : HtmlParser τ) (i : Nat) : NodeKind := (p.node i).kind

def modifyNode (p : HtmlParser τ) (i : Nat) (f : Node → Node) : HtmlParser τ :=
  { p with node := Function.update p.node i (f (p.node i)) }

/-- The loop along `next_sibling` in `insert_element`. -/
def lastSibling (p : HtmlParser τ) : Nat → Nat → Except Panic Nat
  | 0, _ => .error .diverges
  | n + 1, i =>
    match (p.node i).nextSibling with
    | some j => lastSibling p n j
    | none => .ok i

/-- The end of both insertions: the new node is the last child of the current node, and open. -/
def pushNode (p : HtmlParser τ) (node : Node) : HtmlParser τ :=
  let p' := p.modifyNode p.current fun c => { c with lastChild := some p.size }
  { p' with
    node := Function.update p'.node p.size { node with parent := some p.current }
    size := p.size + 1
    stackOfOpenElements := p.size :: p.stackOfOpenElements }

def insertElement (tag : List Char) (attributes : List Attribute) (p : HtmlParser τ) : Except Panic (HtmlParser τ) := do
  let kind ← Element.strToElementKind tag
  let node := Node.new (.element ⟨kind, attributes⟩)
  match (p.node p.current).firstChild with
  | some first =>
    let last ← p.lastSibling p.size first
    return (p.modifyNode last fun c => { c with nextSibling := some p.size }).pushNode
      { node with previousSibling := some first }
  | none => return (p.modifyNode p.current fun c => { c with firstChild := some p.size }).pushNode node

/-- A text node that follows an element becomes the second child of its parent, whatever was there. -/
def insertChar (c : Char) (p : HtmlParser τ) : HtmlParser τ :=
  match p.kindOf p.current with
  | .text s => p.modifyNode p.current fun n => { n with kind := .text (s ++ [c]) }
  | _ =>
    if c = '\n' || c = ' ' then p
    else
      let node := Node.new (.text [c])
      match (p.node p.current).firstChild with
      | some first => (p.modifyNode first fun n => { n with nextSibling := some p.size }).pushNode
          { node with previousSibling := some first }
      | none => (p.modifyNode p.current fun n => { n with firstChild := some p.size }).pushNode node

def isKind (p : HtmlParser τ) (elementKind : ElementKind) (i : Nat) : Bool :=
  (p.kindOf i).eq (.element ⟨elementKind, []⟩)

def popCurrentNode (elementKind : ElementKind) (p : HtmlParser τ) : Bool × HtmlParser τ :=
  match p.stackOfOpenElements with
  | [] => (false, p)
  | i :: rest => if p.isKind elementKind i then (true, { p with stackOfOpenElements := rest }) else (false, p)

def containInStack (elementKind : ElementKind) (p : HtmlParser τ) : Bool :=
  p.stackOfOpenElements.any (p.isKind elementKind)

def popUntilLoop (p : HtmlParser τ) (elementKind : ElementKind) : List Nat → List Nat
  | [] => []
  | i :: rest => if p.isKind elementKind i then rest else popUntilLoop p elementKind rest

def popUntil (elementKind : ElementKind) (p : HtmlParser τ) : Except Panic (HtmlParser τ) :=
  if p.containInStack elementKind then
    .ok { p with stackOfOpenElements := p.popUntilLoop elementKind p.stackOfOpenElements }
  else .error (.assertFailed "self.contain_in_stack(element_kind)")

/-! ## Tree construction -/

/-- A round of the loop in `construct_tree`: the same token again, another token, or the end. -/
abbrev Next (τ : Type) := Round (HtmlParser τ × Option HtmlToken) (HtmlParser τ)

variable (source : TokenSource τ)

/-- `token = self.t.next(); continue`. -/
def advance (p : HtmlParser τ) : Except Panic (Next τ) := do
  let (token, t) ← source.next p.t
  return .again ({ p with t }, token)

/-- `token = self.t.next()`, then something else, and then `continue`. -/
def advanceThen (f : HtmlParser τ → Except Panic (HtmlParser τ)) (p : HtmlParser τ) : Except Panic (Next τ) := do
  let (token, t) ← source.next p.t
  let p ← f { p with t }
  return .again (p, token)

/-- The token is processed once more, in another mode. -/
def again (token : HtmlToken) (mode : InsertionMode) (p : HtmlParser τ) : Except Panic (Next τ) :=
  .ok (.again ({ p with mode }, some token))

def isBlank (c : Char) : Bool := c == ' ' || c == '\n'

def beforeHtml (token : HtmlToken) (p : HtmlParser τ) : Except Panic (Next τ) :=
  let other : Except Panic (Next τ) := insertElement Tag.html [] p >>= again token .beforeHead
  match token with
  | .char c => if isBlank c then advance source p else other
  | .startTag tag _ attributes =>
    if tag = Tag.html then insertElement tag attributes p >>= fun p => advance source { p with mode := .beforeHead }
    else other
  | .endTag tag _ =>
    if tag ≠ Tag.head || tag ≠ Tag.body || tag ≠ Tag.html || tag ≠ Tag.br then advance source p else other
  | .eof => .ok (.done p)

def beforeHead (token : HtmlToken) (p : HtmlParser τ) : Except Panic (Next τ) :=
  let other : Except Panic (Next τ) := insertElement Tag.head [] p >>= again token .inHead
  match token with
  | .char c => if isBlank c then advance source p else other
  | .startTag tag _ attributes =>
    if tag = Tag.head then insertElement tag attributes p >>= fun p => advance source { p with mode := .inHead }
    else other
  | .endTag _ _ => other
  | .eof => .ok (.done p)

def inHead (token : HtmlToken) (p : HtmlParser τ) : Except Panic (Next τ) :=
  let other : Except Panic (Next τ) := popUntil .head { p with mode := .afterHead } >>= again token .afterHead
  match token with
  | .char c => if isBlank c then advance source (insertChar c p) else other
  | .startTag tag _ attributes =>
    if tag = Tag.link then do
      let p ← insertElement Tag.link attributes p
      if (popCurrentNode .link p).1 then advance source (popCurrentNode .link p).2
      else throw (.assertFailed "self.pop_current_node(ElementKind::Link)")
    else if tag = Tag.style then
      insertElement tag attributes p >>= fun p =>
        advance source { p with originalInsertionMode := p.mode, mode := .text }
    else if tag = Tag.script then
      insertElement tag attributes p >>= fun p =>
        advance source { p with originalInsertionMode := p.mode, mode := .text }
    else other
  | .endTag tag _ => if tag = Tag.head then advanceThen source (popUntil .head) { p with mode := .afterHead } else other
  | .eof => .ok (.done p)

def afterHead (token : HtmlToken) (p : HtmlParser τ) : Except Panic (Next τ) :=
  let other : Except Panic (Next τ) := insertElement Tag.body [] p >>= again token .inBody
  match token with
  | .char c => if isBlank c then advance source (insertChar c p) else other
  | .startTag tag _ attributes =>
    if tag = Tag.body then insertElement tag attributes p >>= advanceThen source fun p => .ok { p with mode := .inBody }
    else other
  | .endTag _ _ => other
  | .eof => .ok (.done p)

/-- Tokens that no branch takes come around again as they are. -/
def inBody (token : HtmlToken) (p : HtmlParser τ) : Except Panic (Next τ) :=
  match token with
  | .startTag tag _ attributes =>
    if tag = Tag.ul then insertElement tag attributes p >>= advance source
    else if tag = Tag.li then insertElement tag attributes p >>= advance source
    else if tag = Tag.div then insertElement tag attributes p >>= advance source
    else .ok (.again (p, some token))
  | .endTag tag _ =>
    if tag = Tag.body then
      advanceThen source (fun p => if p.containInStack .body then popUntil .body p else .ok p)
        { p with mode := .afterBody }
    else if tag = Tag.html then
      if (popCurrentNode .body p).1 then
        let p := { (popCurrentNode .body p).2 with mode := .afterBody }
        if (popCurrentNode .html p).1 then .ok (.again ((popCurrentNode .html p).2, some token))
        else .error (.assertFailed "self.pop_current_node(ElementKind::Html)")
      else advance source p
    else if tag = Tag.ul then advanceThen source (popUntil .ul) p
    else if tag = Tag.li then advanceThen source (popUntil .li) p
    else if tag = Tag.div then advanceThen source (popUntil .div) p
    else .ok (.again (p, some token))
  | .char c => advance source (insertChar c p)
  | .eof => .ok (.done p)

def text (token : HtmlToken) (p : HtmlParser τ) : Except Panic (Next τ) :=
  match token with
  | .eof => .ok (.done p)
  | .endTag tag _ =>
    if tag = Tag.style then popUntil .style p >>= fun p => advance source { p with mode := p.originalInsertionMode }
    else if tag = Tag.script then
      popUntil .script p >>= fun p => advance source { p with mode := p.originalInsertionMode }
    else again token p.originalInsertionMode p
  | .char c => advance source (insertChar c p)
  | .startTag _ _ _ => again token p.originalInsertionMode p

/-- The modes after the body differ in nothing. -/
def afterBody (token : HtmlToken) (p : HtmlParser τ) : Except Panic (Next τ) :=
  match token with
  | .char _ => advance source p
  | .endTag tag _ => if tag = Tag.html then advance source { p with mode := .afterAfterBody } else again token .inBody p
  | .eof => .ok (.done p)
  | .startTag _ _ _ => again token .inBody p

def afterAfterBody : HtmlToken → HtmlParser τ → Except Panic (Next τ) := afterBody source

def step : HtmlParser τ × Option HtmlToken → Except Panic (Next τ)
  | (p, none) => .ok (.done p)
  | (p, some token) =>
    match p.mode with
    | .initial => again token .beforeHtml p
    | .beforeHtml => beforeHtml source token p
    | .beforeHead => beforeHead source token p
    | .inHead => inHead source token p
    | .afterHead => afterHead source token p
    | .inBody => inBody source token p
    | .text => text source token p
    | .afterBody => afterBody source token p
    | .afterAfterBody => afterAfterBody source token p

/-- `construct_tree`, for at most so many rounds. The tree is at node 0 of the result. -/
def constructTree (rounds : Nat) (p : HtmlParser τ) : Except Panic (HtmlParser τ) := do
  let (token, t) ← source.next p.t
  Loop.run (step source) .diverges rounds ({ p with t }, token)

end HtmlParser

end Liumos.Browser
