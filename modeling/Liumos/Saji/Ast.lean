/-
The parser of scripts, by recursive descent. Its loops are procedures: every iteration is a call, and an iteration
that goes on ends with another. The other functions are inlined into them. A `Vec` is built from the front.
Source: ast.rs.
-/
import Liumos.Lib.Procedure
import Liumos.Saji.Token

namespace Liumos.Saji

open Procedure

inductive Node where
  | expressionStatement (expression : Option Node)
  | blockStatement (body : List (Option Node))
  | returnStatement (argument : Option Node)
  | functionDeclaration (id : Option Node) (params : List (Option Node)) (body : Option Node)
  | variableDeclaration (declarations : List (Option Node))
  | variableDeclarator (id init : Option Node)
  | binaryExpression (operator : Char) (left right : Option Node)
  | callExpression (callee : Option Node) (arguments : List (Option Node))
  | identifier (name : List Char)
  | numericLiteral (value : Word)
  | stringLiteral (value : List Char)

structure Program where
  body : List Node

/-- The loops, by the functions they are in. -/
inductive JsLoop where
  | functionBody
  | arguments
  | parameterList
  | parseAst
  deriving Repr, DecidableEq

/-- The nodes that are still to be collected. -/
def JsLoop.Nodes : JsLoop → Type
  | functionBody => List (Option Node)
  | arguments => List (Option Node)
  | parameterList => List (Option Node)
  | parseAst => List Node

/-- An iteration begins with the input that is left, and returns with what is left then. -/
abbrev JsTask := Task (JsLoop × List Char) (fun k => k.1.Nodes × List Char) Panic

abbrev JsParser := StateT (List Char) JsTask

namespace JsParser

/-- `self.t.next()`. -/
def next : JsParser (Option Token) := fun t => .done (JsLexer.getNextToken t)

def peek : JsParser (Option Token) := fun t => .done ((JsLexer.getNextToken t).map fun x => (x.1, t))

def fail {α : Type} (e : Panic) : JsParser α := fun _ => .done (.error e)

def unimplemented {α : Type} (message : String) : JsParser α := fail (.message ("not implemented: " ++ message))

/-- `assert!(self.t.next().is_some())`. -/
def consume : JsParser Unit := do
  if (← next).isSome then return () else fail (.assertFailed "self.t.next().is_some()")

/-- The next iteration of a loop, or the first. -/
def iterate (loop : JsLoop) : JsParser loop.Nodes := fun t => .call (loop, t) fun r => pure r

/-- The opening bracket of a list or a body. -/
def openBracket (c : Char) (expected expr : String) : JsParser Unit := do
  match ← next with
  | some (.punctuator d) => if d = c then return () else fail (.assertFailed expr)
  | some t => unimplemented ("function should have " ++ expected ++ " but got " ++ t.debug)
  | none => unimplemented ("function should have " ++ expected ++ " but got None")

/-! ## Expressions -/

def arguments : JsParser (List (Option Node)) := do
  openBracket '(' "`(`" "c == '('"
  iterate .arguments

def leftHandSideExpression : JsParser (Option Node) := do
  match ← next with
  | none => return none
  | some (.number value) => return some (.numericLiteral value)
  | some (.stringLiteral value) => return some (.stringLiteral value)
  | some (.identifier value) =>
    match ← peek with
    | none => return none
    | some t =>
      if t = .punctuator '(' then do
        let arguments ← arguments
        return some (.callExpression (some (.identifier value)) arguments)
      else return some (.identifier value)
  | some t => unimplemented ("token " ++ t.debug ++ " is not supported")

def expression : JsParser (Option Node) := do
  let left ← leftHandSideExpression
  match ← peek with
  | some (.punctuator c) =>
    if c = '+' ∨ c = '-' then do
      consume
      let right ← leftHandSideExpression
      return some (.binaryExpression c left right)
    else if c = ';' then do
      consume
      return left
    else if c = ',' ∨ c = ')' then return left
    else unimplemented ("`Punctuator` token with " ++ c.toString ++ " is not supported")
  | _ => return none

def identifier : JsParser (Option Node) := do
  match ← next with
  | some (.identifier name) => return some (.identifier name)
  | _ => return none

def initialiser : JsParser (Option Node) := do
  match ← next with
  | some (.punctuator c) => if c = '=' then expression else return none
  | _ => return none

/-! ## Statements -/

def variableDeclaration : JsParser (Option Node) := do
  let ident ← identifier
  let init ← initialiser
  return some (.variableDeclaration [some (.variableDeclarator ident init)])

/-- The statement without the semicolon that may come after it. -/
def statementNode (t : Token) : JsParser (Option Node) :=
  match t with
  | .keyword keyword =>
    if keyword = Reserved.var then do
      consume
      variableDeclaration
    else if keyword = Reserved.return then do
      consume
      let argument ← expression
      return some (.returnStatement argument)
    else return none
  | _ => do
    let expression ← expression
    return some (.expressionStatement expression)

def semicolon : JsParser Unit := do
  if (← peek) = some (.punctuator ';') then consume else return ()

def statement : JsParser (Option Node) := do
  match ← peek with
  | none => return none
  | some t =>
    let node ← statementNode t
    semicolon
    return node

/-! ## Functions -/

def functionBody : JsParser (Option Node) := do
  openBracket '\x7b' "open curly blacket" "c == '\x7b'"
  let body ← iterate .functionBody
  return some (.blockStatement body)

def parameterList : JsParser (List (Option Node)) := do
  openBracket '(' "`(`" "c == '('"
  iterate .parameterList

def functionDeclaration : JsParser (Option Node) := do
  let id ← identifier
  let params ← parameterList
  let body ← functionBody
  return some (.functionDeclaration id params body)

def sourceElement : JsParser (Option Node) := do
  match ← peek with
  | none => return none
  | some t =>
    if t = .keyword Reserved.function then do
      consume
      functionDeclaration
    else statement

/-! ## Loops -/

def functionBodyLoop : JsParser (List (Option Node)) := do
  if (← peek) = some (.punctuator '\x7d') then do
    consume
    return []
  else do
    let element ← sourceElement
    let body ← iterate .functionBody
    return element :: body

/-- The loops over what is in parentheses. -/
def listLoop (loop : JsParser (List (Option Node))) (element : JsParser (Option Node)) :
    JsParser (List (Option Node)) := do
  match ← peek with
  | some (.punctuator c) =>
    if c = ')' then do
      consume
      return []
    else if c = ',' then do
      consume
      loop
    else loop
  | some _ => do
    let node ← element
    let nodes ← loop
    return node :: nodes
  | none => return []

def argumentsLoop : JsParser (List (Option Node)) := listLoop (iterate .arguments) expression

def parameterListLoop : JsParser (List (Option Node)) := listLoop (iterate .parameterList) identifier

def parseAstLoop : JsParser (List Node) := do
  match ← sourceElement with
  | some node =>
    let body ← iterate .parseAst
    return node :: body
  | none => return []

/-- An iteration. -/
def iteration : ∀ k : JsLoop × List Char, JsTask (k.1.Nodes × List Char)
  | (.functionBody, t) => functionBodyLoop t
  | (.arguments, t) => argumentsLoop t
  | (.parameterList, t) => parameterListLoop t
  | (.parseAst, t) => parseAstLoop t

/-- `parse_ast`, with at most so many iterations within or after one another. -/
def parseAst (depth : Nat) (js : List Char) : Except Panic Program :=
  (run iteration .diverges depth (.parseAst, js)).map fun x => ⟨x.1⟩

/-! ## Steps -/

section

variable {t t' : List Char}

theorem peek_eq {r : Option Token} (h : JsLexer.getNextToken t = .ok (r, t')) : peek t = pure (r, t) := by
  rw [peek, h]
  rfl

theorem next_eq {r : Option Token} (h : JsLexer.getNextToken t = .ok (r, t')) : next t = pure (r, t') := by
  rw [next, h]
  rfl

theorem bind_eq {α β : Type} {p : JsParser α} {f : α → JsParser β} {a : α} (h : p t = pure (a, t')) :
    (p >>= f) t = f a t' := by
  show (p t >>= fun x => f x.1 x.2) = _
  rw [h]
  rfl

end

end JsParser

end Liumos.Saji
