import Deferral.Grammar.Declaration
import Deferral.Text.Blank

/-!
# Statements

A body without braces gets a scope of its own, reported as implicit. A deferred statement is a block or an expression;
an expression with parentheses at either end is turned down, because the text of an expression does not cover them.
-/

namespace Deferral.Grammar

/-- The colon that ends a case label, and what follows it. Colons inside brackets and those of conditionals do not
count: `depth` brackets and `conditionals` conditionals are open. -/
def labelColon? (depth conditionals : Nat) : List Token → Option (Token × List Token)
  | [] => none
  | t :: rest =>
    if t.isPunct "(" || t.isPunct "[" then labelColon? (depth + 1) conditionals rest
    else if t.isPunct ")" || t.isPunct "]" then labelColon? (depth - 1) conditionals rest
    else if t.isPunct "?" then labelColon? depth (conditionals + 1) rest
    else if t.isPunct ":" then
      if depth = 0 ∧ conditionals = 0 then some (t, rest) else labelColon? depth (conditionals - 1) rest
    else labelColon? depth conditionals rest

/-- A case label, reported with its text. -/
def caseLabel : Recognizer Unit := do
  advance
  let c ← get
  match labelColon? 0 0 c.rest with
  | none => throw (.rejected (.unexpectedEnd (.punct ":") c.source.length))
  | some (colon, rest) =>
    set (c.moveTo colon rest)
    let label := Text.trim (c.slice c.lastEnd colon.start)
    if label.isEmpty then unexpected .caseLabel
    report .caseLabel colon.stop label

/-- Passes the punctuator `p`, which ends a production of the given kind. -/
def endWith (p : String) (kind : Event.Kind) (literal : String := "") : Recognizer Unit := do
  let t ← expectPunct p
  report kind t.stop literal

/-- Passes the keyword that is next and reports the header it opens. -/
def header (kind : Event.Kind) : Recognizer Unit := do
  advance
  reportHere kind

namespace Round

variable (call : Calls)

/-- The parenthesized expression of a header, reported as `kind`. -/
def condition (kind : Event.Kind) : Recognizer Unit := do
  let _ ← expectPunct "("
  call (.expression anyPower)
  let close ← expectPunct ")"
  report kind close.stop

/-- An expression unless `p` is next. -/
def expressionUnless (p : String) : Recognizer Unit := do
  unless (← get).atPunct p do
    call (.expression anyPower)

def expressionStatement : Recognizer Unit := do
  call (.expression anyPower)
  endWith ";" .statementEnd

def declarationStatement : Recognizer Unit := do
  declaration call
  endWith ";" .statementEnd

def returnStatement : Recognizer Unit := do
  advance
  expressionUnless call ";"
  endWith ";" .returned

/-- The three parts between the parentheses of a `for`. -/
def forParts : Recognizer Unit := do
  let _ ← expectPunct "("
  let c ← get
  unless c.atPunct ";" do
    if c.atDeclaration then declaration call else call (.expression anyPower)
  endWith ";" .forInit
  expressionUnless call ";"
  endWith ";" .forCondition
  expressionUnless call ")"
  endWith ")" .forChange

/-- A deferred expression, after the keyword `keyword`. -/
def deferredExpression (keyword : Token) : Recognizer Unit := do
  let c ← get
  match c.front? with
  | some t =>
    if t.isPunct "(" && !c.atTypeGroup then unsupported .parenthesizedDefer t.start
  | none => pure ()
  set { c with groupEnd? := none }
  call (.expression anyPower)
  let c ← get
  if c.groupEnd? == some c.lastEnd then unsupported .parenthesizedDefer keyword.start
  endWith ";" .deferred

def statement : Recognizer Unit := do
  let c ← get
  match c.front? with
  | none => expressionStatement call
  | some t =>
    match t.kind, t.text with
    | .punct, "\x7b" => call .block
    | .punct, ";" =>
      advance
      report .emptyStatement t.stop
    | .word, "if" => call .ifStatement
    | .word, "for" =>
      header .forHeader
      forParts call
      call .body
      reportHere .loopEnd
    | .word, "while" =>
      header .whileHeader
      condition call .whileCondition
      call .body
      reportHere .loopEnd
    | .word, "do" => call .doStatement
    | .word, "switch" => call .switchStatement
    | .word, "case" => caseLabel
    | .word, "default" =>
      advance
      endWith ":" .defaultLabel
    | .word, "return" => returnStatement call
    | .word, "break" | .word, "continue" =>
      advance
      endWith ";" .jump t.text
    | .word, "defer" => call (.deferStatement t)
    | .word, "goto" => unsupported .gotoStatement t.start
    | _, _ =>
      if t.isIdentifier && c.second?.any (·.isPunct ":") then unsupported .label t.start
      if c.atDeclaration then declarationStatement call else expressionStatement call

def ifStatement : Recognizer Unit := do
  header .ifHeader
  condition call .ifCondition
  call .body
  if (← get).atWord "else" then
    header .elseMark
    call .body
  reportHere .ifEnd

def doStatement : Recognizer Unit := do
  header .doHeader
  call .body
  let _ ← expect (·.isWord "while") (.keyword "while")
  condition call .doWhileCondition
  endWith ";" .loopEnd

def switchStatement : Recognizer Unit := do
  header .switchHeader
  condition call .switchCondition
  let c ← get
  unless c.atPunct "\x7b" do
    unsupported .unbracedSwitch ((c.front?.map Token.start).getD c.source.length)
  call .block
  reportHere .switchEnd

def deferStatement (keyword : Token) : Recognizer Unit := do
  header .deferHeader
  if (← get).atPunct "\x7b" then
    call .block
    reportHere .deferred
  else deferredExpression call keyword

/-- The body of a selection or a loop. -/
def body : Recognizer Unit := do
  if (← get).atPunct "\x7b" then call .block
  else
    reportHere .implicitScopeStart
    call .statement
    reportHere .implicitScopeEnd

/-- Statements in braces. -/
def block : Recognizer Unit := do
  endWith "\x7b" .scopeStart
  call .statements

/-- Statements up to the closing brace, and the brace. -/
def statements : Recognizer Unit := do
  let c ← get
  if c.atPunct "\x7d" || c.rest.isEmpty then endWith "\x7d" .scopeEnd
  else
    call .statement
    call .statements

end Round

end Deferral.Grammar
