import Deferral.Grammar.Cursor

/-!
# Expressions

Operators are told apart by how tightly they bind. Operands are reported before their operator, a prefix operator
before its operand. Parentheses leave no event.
-/

namespace Deferral.Grammar

/-! ## Operators -/

/-- An operator between two operands. -/
structure Operator where
  /-- How tightly it binds. -/
  power : Nat
  /-- The least power of operators inside its right operand: its own for those that group to the right. -/
  rightPower : Nat
  kind : Event.Kind

/-- An operator that groups to the left. -/
def leftward (power : Nat) (kind : Event.Kind) : Operator := ⟨power, power + 1, kind⟩

/-- An operator that groups to the right. -/
def rightward (power : Nat) (kind : Event.Kind) : Operator := ⟨power, power, kind⟩

def anyPower : Nat := 0

def commaPower : Nat := 1

def assignmentPower : Nat := 2

def conditionalPower : Nat := 3

def operator? : String → Option Operator
  | "=" | "+=" | "-=" | "*=" | "/=" | "%=" | "&=" | "|=" | "^=" | "<<=" | ">>=" =>
    some (rightward assignmentPower .assignment)
  | "," => some (leftward commaPower .binaryOperator)
  | "?" => some (rightward conditionalPower .binaryOperator)
  | "||" => some (leftward 4 .binaryOperator)
  | "&&" => some (leftward 5 .binaryOperator)
  | "|" => some (leftward 6 .binaryOperator)
  | "^" => some (leftward 7 .binaryOperator)
  | "&" => some (leftward 8 .binaryOperator)
  | "==" | "!=" => some (leftward 9 .relational)
  | "<" | ">" | "<=" | ">=" => some (leftward 10 .relational)
  | "<<" | ">>" => some (leftward 11 .binaryOperator)
  | "+" | "-" => some (leftward 12 .binaryOperator)
  | "*" | "/" | "%" => some (leftward 13 .binaryOperator)
  | _ => none

/-- Operators before an operand. -/
def signs : List String := ["+", "-", "!", "~", "*", "&", "++", "--"]

/-- The next token, if it is an operator that binds at least as tightly as `least`. -/
def Cursor.operator? (c : Cursor) (least : Nat) : Option (String × Operator) := do
  let t ← c.front?
  guard (t.kind == .punct)
  let op ← Grammar.operator? t.text
  guard (least ≤ op.power)
  return (t.text, op)

/-- Whether a parenthesized type is next. -/
def Cursor.atTypeGroup (c : Cursor) : Bool := c.atPunct "(" && c.second?.any c.startsType

/-! ## Recognition -/

/-- An identifier, a constant or a run of string literals. -/
def leaf : Recognizer Unit := do
  match (← get).front? with
  | none => unexpected .expression
  | some t =>
    if t.isIdentifier then
      advance
      reportToken .identifier t
    else
      match t.kind with
      | .number | .charLiteral =>
        advance
        reportToken .constant t
      | .stringLiteral =>
        modify (Cursor.advanceWhile (·.kind == .stringLiteral))
        reportText .constant t.start (← get).lastEnd
      | _ => unexpected .expression

/-- A parenthesized type that no brace follows. -/
def expectCast (t : Token) : Recognizer Token := do
  let c ← get
  match Token.close? c.rest with
  | none => unexpected (.punct ")")
  | some (close, rest) =>
    if rest.head?.any (·.isPunct "\x7b") then unsupported .compoundLiteral t.start
    else
      set (c.moveTo close rest)
      return close

namespace Round

variable (call : Calls)

/-- An expression whose operators outside brackets all bind at least as tightly as `least`. -/
def expression (least : Nat) : Recognizer Unit := do
  call .unary
  call (.operators least)

/-- The operators after the first operand, each with its right operand. The conditional `c ? a : b` is reported as
the operator `:` on its branches under the operator `?`. -/
def operators (least : Nat) : Recognizer Unit := do
  match (← get).operator? least with
  | none => return ()
  | some (text, op) =>
    advance
    if text == "?" then
      call (.expression commaPower)
      let _ ← expectPunct ":"
      call (.expression conditionalPower)
      reportHere .binaryOperator ":"
      reportHere .binaryOperator "?"
    else
      call (.expression op.rightPower)
      reportHere op.kind text
    call (.operators least)

/-- An operand with the prefix operators, casts and `sizeof` before it. -/
def unary : Recognizer Unit := do
  let c ← get
  match c.front? with
  | none => unexpected .expression
  | some t =>
    if t.kind == .punct && signs.contains t.text then
      advance
      report .unaryOperator t.stop t.text
      call .unary
    else if c.atTypeGroup then
      let close ← expectCast t
      reportText .unaryOperator t.start close.stop
      call .unary
    else if t.isWord "sizeof" then
      advance
      if (← get).atTypeGroup then
        -- A measured type is a constant; its text stays whole.
        let close ← expectGroup ")"
        reportText .constant t.start close.stop
      else
        report .unaryOperator t.stop "sizeof"
        call .unary
    else
      call .primary
      call .postfixes

/-- A leaf or a parenthesized expression. -/
def primary : Recognizer Unit := do
  let c ← get
  match c.front? with
  | none => unexpected .expression
  | some t =>
    if t.isPunct "(" then
      advance
      if (← get).atPunct "\x7b" then unsupported .statementExpression t.start
      call (.expression anyPower)
      let close ← expectPunct ")"
      modify ({ · with groupEnd? := some close.stop })
    else leaf

/-- Calls, indices, members and increments after an operand. -/
def postfixes : Recognizer Unit := do
  match (← get).front? with
  | none => return ()
  | some t =>
    if t.isPunct "(" then
      advance
      let count ← if (← get).atPunct ")" then pure 0 else call (.arguments 0)
      let close ← expectPunct ")"
      report .postfixCall close.stop (toString count)
      call .postfixes
    else if t.isPunct "[" then
      advance
      call (.expression anyPower)
      let close ← expectPunct "]"
      report .postfixIndex close.stop
      call .postfixes
    else if t.isPunct "." || t.isPunct "->" then
      advance
      let field ← expect (·.isIdentifier) .memberName
      report .postfixMember field.stop (t.text ++ field.literal)
      call .postfixes
    else if t.isPunct "++" || t.isPunct "--" then
      advance
      report .postfixIncrement t.stop t.text
      call .postfixes
    else return ()

/-- Arguments of a call after the first `count`; gives their number. -/
def arguments (count : Nat) : Recognizer Nat := do
  call (.expression assignmentPower)
  if ← eatPunct "," then call (.arguments (count + 1)) else return count + 1

end Round

end Deferral.Grammar
