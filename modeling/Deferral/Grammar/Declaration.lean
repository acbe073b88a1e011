import Deferral.Grammar.Expression

/-!
# Declarations

Specifiers, declarators, initializers and parameter lists. Each specifier word is an event of its own; a tag such as
`struct s` is two.
-/

namespace Deferral.Grammar

/-- The end of the specifiers, of which there has to be at least one. -/
def specifiersEnd (any : Bool) : Recognizer Unit := if any then return () else unexpected .typeSpecifier

/-- A declarator without a name, where that is allowed. -/
def nameless (allowed : Bool) : Recognizer Unit :=
  if allowed then reportHere .declaratorName else unexpected .declaratorName

namespace Round

variable (call : Calls)

/-- Declaration specifiers; `any` says whether there were some before. After a word that names a type, a
declared type name is a declarator. -/
def specifiers (named any : Bool) : Recognizer Unit := do
  let c ← get
  match c.front? with
  | none => specifiersEnd any
  | some t =>
    if t.kind != .word then specifiersEnd any
    else if Token.tagWords.contains t.text then
      advance
      report .tagKeyword t.stop t.text
      let tag ← expect (·.isIdentifier) .tagName
      if (← get).atPunct "\x7b" then unsupported .tagDefinition t.start
      reportToken .typeWord tag
      call (.specifiers true true)
    else if Token.specifierWords.contains t.text then
      advance
      report .typeWord t.stop t.text
      call (.specifiers (named || !Token.qualifierWords.contains t.text) true)
    else if !named && c.typeNames.contains t.text then
      advance
      report .typeWord t.stop t.text
      call (.specifiers true true)
    else specifiersEnd any

/-- Pointer and reference marks. Qualifiers after a pointer mark leave no event. -/
def marks : Recognizer Unit := do
  if ← eatPunct "*" then
    reportHere .pointer "*"
    modify (Cursor.advanceWhile fun t => t.kind == .word && Token.qualifierWords.contains t.text)
    call .marks
  else if ← eatPunct "&" then
    reportHere .reference "&"
    call .marks
  else return ()

/-- Array suffixes, each as it is written. -/
def arraySuffixes : Recognizer Unit := do
  match (← get).front? with
  | none => return ()
  | some t =>
    if t.isPunct "[" then
      let close ← expectGroup "]"
      reportText .arraySuffix t.start close.stop
      call .arraySuffixes
    else return ()

/-- Marks, a name and array suffixes. Where the name may be missing it is reported as empty. -/
def declarator (mayBeNameless : Bool) : Recognizer Unit := do
  call .marks
  let c ← get
  match c.front? with
  | some t =>
    if t.isPunct "(" then unsupported .functionPointer t.start
    else if t.isIdentifier then
      advance
      reportToken .declaratorName t
    else nameless mayBeNameless
  | none => nameless mayBeNameless
  call .arraySuffixes

/-- Parameters up to the closing parenthesis; three dots end them. -/
def parameters : Recognizer Unit := do
  if ← eatPunct "..." then return ()
  call (.specifiers false false)
  declarator call true
  let c ← get
  match c.front? with
  | some t => if t.isPunct "(" then unsupported .functionParameter t.start
  | none => pure ()
  if ← eatPunct "," then call .parameters

/-- What stands between the parentheses of a function definition: nothing, `void`, or parameters. -/
def parameterList : Recognizer Unit := do
  let c ← get
  if c.atPunct ")" then return ()
  else if c.atWord "void" && c.second?.any (·.isPunct ")") then advance
  else call .parameters

/-- The value of an initialized declarator: an expression or a braced list. -/
def initializer : Recognizer Unit := do
  if ← eatPunct "\x7b" then
    let count ← call (.initializers 0)
    let close ← expectPunct "\x7d"
    report .initializerList close.stop (toString count)
  else call (.expression assignmentPower)

/-- The members of a braced list after the first `count`; gives their number. -/
def initializers (count : Nat) : Recognizer Nat := do
  let c ← get
  if c.atPunct "\x7d" then return count
  match c.front? with
  | some t => if t.isPunct "." || t.isPunct "[" then unsupported .designatedInitializer t.start
  | none => pure ()
  call .initializer
  if ← eatPunct "," then call (.initializers (count + 1)) else return count + 1

/-- Declarators with their initializers, separated by commas. -/
def declarators : Recognizer Unit := do
  declarator call false
  let c ← get
  match c.front? with
  | some t => if t.isPunct "(" then unsupported .blockFunction t.start
  | none => pure ()
  if ← eatPunct "=" then
    call .initializer
    reportHere .assignment "="
  if ← eatPunct "," then call .declarators

/-- A declaration without the semicolon that ends it. -/
def declaration : Recognizer Unit := do
  match (← get).front? with
  | some t => if t.isWord "typedef" then unsupported .blockTypedef t.start
  | none => pure ()
  call (.specifiers false false)
  call .declarators

end Round

/-- Whether a declaration is next. A type name before `=` or `(` is used as a variable or function. -/
def Cursor.atDeclaration (c : Cursor) : Bool :=
  c.front?.any fun t =>
    t.isWord "typedef" ||
      (c.startsType t &&
        !(c.typeNames.contains t.text && c.second?.any fun next => next.isPunct "=" || next.isPunct "("))

end Deferral.Grammar
