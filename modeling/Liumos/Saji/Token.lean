/-
The tokens of a script. A lexer is the input from its position on, and `peek` leaves it where it is.
Source: token.rs.
-/
import Liumos.Lib.Scan
import Liumos.Machine.Basic

namespace Liumos.Saji

inductive Token where
  | identifier (name : List Char)
  | keyword (word : List Char)
  | punctuator (c : Char)
  | stringLiteral (value : List Char)
  | number (value : Word)
  deriving Repr, DecidableEq

/-- The text that `{:?}` makes of a token. -/
def Token.debug : Token → String
  | identifier name => "Identifier(" ++ (String.ofList name).quote ++ ")"
  | keyword word => "Keyword(" ++ (String.ofList word).quote ++ ")"
  | punctuator c => "Punctuator(" ++ c.quote ++ ")"
  | stringLiteral value => "StringLiteral(" ++ (String.ofList value).quote ++ ")"
  | number value => "Number(" ++ toString value.toNat ++ ")"

namespace Reserved

def var : List Char := ['v', 'a', 'r']

def function : List Char := ['f', 'u', 'n', 'c', 't', 'i', 'o', 'n']

def «return» : List Char := ['r', 'e', 't', 'u', 'r', 'n']

end Reserved

/-- `RESERVED_WORDS`. -/
def reservedWords : List (List Char) := [Reserved.var, Reserved.function, Reserved.return]

namespace JsLexer

def isSpace (c : Char) : Bool := c == ' ' || c == '\n'

def isPunctuator (c : Char) : Bool := ['+', '-', ';', '=', '(', ')', '\x7b', '\x7d', ','].contains c

/-- The characters a name may begin with. -/
def isIdentifierStart (c : Char) : Bool := c.isAlpha || c == '_' || c == '$'

/-- The characters that `consume_identifier` goes on with: an underscore is not among them. -/
def isIdentifierPart (c : Char) : Bool := c.isAlphanum || c == '$'

def consumeNumber (input : List Char) : Word × List Char := Scan.number 0#64 input

/-- `consume_string` after the quotation mark. A string may also end with the input. -/
def consumeString (input : List Char) : List Char × List Char :=
  (input.takeWhile (· != '"'), (input.dropWhile (· != '"')).tail)

def consumeIdentifier (input : List Char) : List Char × List Char :=
  (input.takeWhile isIdentifierPart, input.dropWhile isIdentifierPart)

/-- Whether the input begins with `keyword`. It is not expected to end within it. -/
def contains : List Char → List Char → Except Panic Bool
  | [], _ => .ok true
  | _ :: _, [] => .error (.message "index out of bounds")
  | k :: keyword, c :: input => if k ≠ c then .ok false else contains keyword input

def checkReservedWord : List (List Char) → List Char → Except Panic (Option (List Char))
  | [], _ => .ok none
  | word :: words, input =>
    match contains word input with
    | .ok true => .ok (some word)
    | .ok false => checkReservedWord words input
    | .error e => .error e

/-- The token at a character that begins no reserved word. -/
def tokenAt (c : Char) (rest : List Char) : Except Panic (Token × List Char) :=
  if isPunctuator c then .ok (.punctuator c, rest)
  else if c = '"' then .ok (.stringLiteral (consumeString rest).1, (consumeString rest).2)
  else if c.isDigit then .ok (.number (consumeNumber (c :: rest)).1, (consumeNumber (c :: rest)).2)
  else if isIdentifierStart c then .ok (.identifier (consumeIdentifier (c :: rest)).1,
    (consumeIdentifier (c :: rest)).2)
  else .error (.message ("not implemented: char " ++ c.toString ++ " is not supported yet"))

/-- The next token, and the input after it. -/
def getNextToken (input : List Char) : Except Panic (Option Token × List Char) :=
  match input.dropWhile isSpace with
  | [] => .ok (none, [])
  | c :: rest =>
    match checkReservedWord reservedWords (c :: rest) with
    | .ok (some keyword) => .ok (some (.keyword keyword), (c :: rest).drop keyword.length)
    | .ok none => (tokenAt c rest).map fun x => (some x.1, x.2)
    | .error e => .error e

end JsLexer

end Liumos.Saji
