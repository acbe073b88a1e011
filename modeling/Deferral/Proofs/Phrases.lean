import Deferral.Grammar.Trace

/-!
# Phrases

What recognition finds, as trees over tokens: expressions, declarations, statements and whole sources. A phrase has its
tokens, in order, and the events it is reported as. `Deferral.Proofs.Recognition` shows that recognition passes the
tokens of a phrase and reports its events.

Events carry the text of some leaves, so the functions that give events take the source.
-/

namespace Deferral.Grammar

/-! ## Tokens by their role -/

/-- The punctuator `p`. -/
abbrev Punct (p : String) := { t : Token // t.isPunct p = true }

/-- The word `w`. -/
abbrev Keyword (w : String) := { t : Token // t.isWord w = true }

abbrev Name := { t : Token // t.isIdentifier = true }

/-- An operator before its operand. -/
abbrev Sign := { t : Token // (t.kind == .punct && signs.contains t.text) = true }

/-- An operator between two operands. -/
structure Connective where
  token : Token
  operator : Operator
  punct : token.kind = .punct
  known : operator? token.text = some operator
  ne_question : token.text ≠ "?"

/-- What stands before the name of a member. -/
abbrev Point := { t : Token // (t.isPunct "." || t.isPunct "->") = true }

/-- An increment or decrement after its operand. -/
abbrev Increment := { t : Token // (t.isPunct "++" || t.isPunct "--") = true }

/-- A number or a character. -/
abbrev Literal := { t : Token // (t.kind == .number || t.kind == .charLiteral) = true }

/-- The keyword of a tagged type. -/
abbrev TagKeyword := { t : Token // Token.tagWords.contains t.text = true }

/-- The keyword of a jump. -/
abbrev JumpKeyword := { t : Token // t.text = "break" ∨ t.text = "continue" }

/-- A bracket, what stands inside, and its partner. -/
structure Enclosed where
  opening : Token
  inside : List Token
  closing : Token

def Enclosed.tokens (g : Enclosed) : List Token := g.opening :: (g.inside ++ [g.closing])

/-- Parentheses around what starts with a word, as a type does. -/
structure TypeGroup extends Enclosed where
  opens : opening.isPunct "(" = true
  closes : closing.isPunct ")" = true
  worded : inside.head?.any (·.kind == .word) = true

/-- Where the last of some tokens ends; `p` if there is none. -/
def lastStop (p : Nat) (ts : List Token) : Nat := ts.foldl (fun _ t => t.stop) p

/-- The tokens come one after the other, from `p` on, and none is empty. -/
def Ordered : Nat → List Token → Prop
  | _, [] => True
  | p, t :: rest => p ≤ t.start ∧ t.start < t.stop ∧ Ordered t.stop rest

/-- Some tokens of a source side by side, the first of them after text that ends at `p`. -/
def Occurs (tokens : List Token) (p : Nat) (ts : List Token) : Prop :=
  ∃ before after, tokens = before ++ (ts ++ after) ∧ lastStop 0 before = p

/-- The text of some tokens, from the start of the first to the end of the last. -/
def extent (ts : List Token) : Span := ⟨(ts.head?.map Token.start).getD 0, lastStop 0 ts⟩

/-! ## Events by their form -/

/-- An event with an end and perhaps a literal. -/
def mark (kind : Event.Kind) (offset : Nat) (literal : String := "") : Event := { kind, offset, literal }

/-- A leaf with the text of a token. -/
def tokenLeaf (kind : Event.Kind) (t : Token) : Event :=
  { kind, offset := t.stop, literal := t.literal, start? := some t.start }

/-- The source between two offsets, as text. -/
def sliceOf (source : List UInt8) (start stop : Nat) : String := Utf8.lossy ((source.drop start).take (stop - start))

/-- A leaf with the source text between two offsets. -/
def textLeaf (source : List UInt8) (kind : Event.Kind) (start stop : Nat) : Event :=
  { kind, offset := stop, literal := sliceOf source start stop, start? := some start }

/-! ## Expressions -/

mutual

inductive Expr where
  | name (t : Name)
  | constant (t : Literal)
  /-- String literals side by side. -/
  | strings (t : Token) (more : List Token) (h : (t :: more).all (·.kind == .stringLiteral) = true)
  /-- `sizeof` of a type. -/
  | measure (keyword : Keyword "sizeof") (type : TypeGroup)
  | sign (op : Sign) (operand : Expr)
  /-- `sizeof` of a value. -/
  | sizeOf (keyword : Keyword "sizeof") (operand : Expr)
  | cast (type : TypeGroup) (operand : Expr)
  | group (opening : Punct "(") (inner : Expr) (closing : Punct ")")
  | binary (left : Expr) (op : Connective) (right : Expr)
  | conditional (test : Expr) (question : Punct "?") (yes : Expr) (colon : Punct ":") (no : Expr)
  | call (base : Expr) (opening : Punct "(") (args : Args) (closing : Punct ")")
  | index (base : Expr) (opening : Punct "[") (inner : Expr) (closing : Punct "]")
  | member (base : Expr) (point : Point) (field : Name)
  | increment (base : Expr) (op : Increment)

inductive Args where
  | none
  | last (e : Expr)
  | more (e : Expr) (comma : Punct ",") (rest : Args)

end

mutual

def Expr.tokens : Expr → List Token
  | .name t => [t.1]
  | .constant t => [t.1]
  | .strings t more _ => t :: more
  | .measure k g => k.1 :: g.tokens
  | .sign op e => op.1 :: e.tokens
  | .sizeOf k e => k.1 :: e.tokens
  | .cast g e => g.tokens ++ e.tokens
  | .group o e c => o.1 :: (e.tokens ++ [c.1])
  | .binary l op r => l.tokens ++ op.token :: r.tokens
  | .conditional c q y k n => c.tokens ++ q.1 :: (y.tokens ++ k.1 :: n.tokens)
  | .call b o as c => b.tokens ++ o.1 :: (as.tokens ++ [c.1])
  | .index b o e c => b.tokens ++ o.1 :: (e.tokens ++ [c.1])
  | .member b p f => b.tokens ++ [p.1, f.1]
  | .increment b op => b.tokens ++ [op.1]

def Args.tokens : Args → List Token
  | .none => []
  | .last e => e.tokens
  | .more e comma rest => e.tokens ++ comma.1 :: rest.tokens

end

/-- Where an expression starts. -/
def Expr.start : Expr → Nat
  | .name t => t.1.start
  | .constant t => t.1.start
  | .strings t _ _ => t.start
  | .measure k _ => k.1.start
  | .sign op _ => op.1.start
  | .sizeOf k _ => k.1.start
  | .cast g _ => g.opening.start
  | .group o _ _ => o.1.start
  | .binary l _ _ => l.start
  | .conditional c _ _ _ _ => c.start
  | .call b _ _ _ | .index b _ _ _ | .member b _ _ | .increment b _ => b.start

/-- Where an expression ends. -/
def Expr.stop : Expr → Nat
  | .name t => t.1.stop
  | .constant t => t.1.stop
  | .strings t more _ => lastStop t.stop more
  | .measure _ g => g.closing.stop
  | .sign _ e => e.stop
  | .sizeOf _ e => e.stop
  | .cast _ e => e.stop
  | .group _ _ c => c.1.stop
  | .binary _ _ r => r.stop
  | .conditional _ _ _ _ n => n.stop
  | .call _ _ _ c => c.1.stop
  | .index _ _ _ c => c.1.stop
  | .member _ _ f => f.1.stop
  | .increment _ op => op.1.stop

/-- Whether an expression starts with a parenthesis around an operand. -/
def Expr.startsGrouped : Expr → Bool
  | .group _ _ _ => true
  | .binary l _ _ => l.startsGrouped
  | .conditional c _ _ _ _ => c.startsGrouped
  | .call b _ _ _ | .index b _ _ _ | .member b _ _ | .increment b _ => b.startsGrouped
  | .name _ | .constant _ | .strings _ _ _ | .measure _ _ | .sign _ _ | .sizeOf _ _ | .cast _ _ => false

/-- Whether an expression ends with a parenthesis around an operand. -/
def Expr.endsGrouped : Expr → Bool
  | .group _ _ _ => true
  | .sign _ e | .sizeOf _ e | .cast _ e => e.endsGrouped
  | .binary _ _ r => r.endsGrouped
  | .conditional _ _ _ _ n => n.endsGrouped
  | .name _ | .constant _ | .strings _ _ _ | .measure _ _ | .call _ _ _ _ | .index _ _ _ _ | .member _ _ _
  | .increment _ _ => false

/-- Where an expression starts, parentheses around its first operand left out. -/
def Expr.coreStart : Expr → Nat
  | .name t => t.1.start
  | .constant t => t.1.start
  | .strings t _ _ => t.start
  | .measure k _ => k.1.start
  | .sign op _ => op.1.start
  | .sizeOf k _ => k.1.start
  | .cast g _ => g.opening.start
  | .group _ e _ => e.coreStart
  | .binary l _ _ => l.coreStart
  | .conditional c _ _ _ _ => c.coreStart
  | .call b _ _ _ | .index b _ _ _ | .member b _ _ | .increment b _ => b.coreStart

/-- Where an expression ends, parentheses around its last operand left out. -/
def Expr.coreStop : Expr → Nat
  | .name t => t.1.stop
  | .constant t => t.1.stop
  | .strings t more _ => lastStop t.stop more
  | .measure _ g => g.closing.stop
  | .sign _ e | .sizeOf _ e | .cast _ e | .group _ e _ => e.coreStop
  | .binary _ _ r => r.coreStop
  | .conditional _ _ _ _ n => n.coreStop
  | .call _ _ _ c => c.1.stop
  | .index _ _ _ c => c.1.stop
  | .member _ _ f => f.1.stop
  | .increment _ op => op.1.stop

/-- The text of an expression, parentheses around its first and its last operand left out. -/
def Expr.core (e : Expr) : Span := ⟨e.coreStart, e.coreStop⟩

/-- An expression with no parenthesis around an operand at either end. -/
abbrev Bare := { e : Expr // e.startsGrouped = false ∧ e.endsGrouped = false }

def Args.count : Args → Nat
  | .none => 0
  | .last _ => 1
  | .more _ _ rest => rest.count + 1

section Events

variable (source : List UInt8)

mutual

def Expr.events : Expr → List Event
  | .name t => [tokenLeaf .identifier t.1]
  | .constant t => [tokenLeaf .constant t.1]
  | .strings t more _ => [textLeaf source .constant t.start (lastStop t.stop more)]
  | .measure k g => [textLeaf source .constant k.1.start g.closing.stop]
  | .sign op e => mark .unaryOperator op.1.stop op.1.text :: e.events
  | .sizeOf k e => mark .unaryOperator k.1.stop "sizeof" :: e.events
  | .cast g e => textLeaf source .unaryOperator g.opening.start g.closing.stop :: e.events
  | .group _ e _ => e.events
  | .binary l op r => l.events ++ (r.events ++ [mark op.operator.kind r.stop op.token.text])
  | .conditional c _ y _ n =>
    c.events ++ (y.events ++ (n.events ++ [mark .binaryOperator n.stop ":", mark .binaryOperator n.stop "?"]))
  | .call b _ as c => b.events ++ (as.events ++ [mark .postfixCall c.1.stop (toString as.count)])
  | .index b _ e c => b.events ++ (e.events ++ [mark .postfixIndex c.1.stop])
  | .member b p f => b.events ++ [mark .postfixMember f.1.stop (p.1.text ++ f.1.literal)]
  | .increment b op => b.events ++ [mark .postfixIncrement op.1.stop op.1.text]

def Args.events : Args → List Event
  | .none => []
  | .last e => e.events
  | .more e _ rest => e.events ++ rest.events

end

end Events

/-! ## Declarations -/

inductive Specifier where
  | word (t : Token)
  | tag (keyword : TagKeyword) (name : Name)

def Specifier.tokens : Specifier → List Token
  | .word t => [t]
  | .tag k n => [k.1, n.1]

def Specifier.events : Specifier → List Event
  | .word t => [mark .typeWord t.stop t.text]
  | .tag k n => [mark .tagKeyword k.1.stop k.1.text, tokenLeaf .typeWord n.1]

/-- Declaration specifiers, of which there is at least one. -/
abbrev Specifiers := { ss : List Specifier // ss ≠ [] }

/-- Pointer and reference marks leave an event, qualifiers among them do not. -/
def markEvents (t : Token) : List Event :=
  if t.isPunct "*" then [mark .pointer t.stop "*"] else if t.isPunct "&" then [mark .reference t.stop "&"] else []

structure Declarator where
  marks : List Token
  name : Name
  suffixes : List Enclosed

def Declarator.tokens (d : Declarator) : List Token := d.marks ++ d.name.1 :: d.suffixes.flatMap Enclosed.tokens

def suffixEvents (source : List UInt8) (suffixes : List Enclosed) : List Event :=
  suffixes.map fun g => textLeaf source .arraySuffix g.opening.start g.closing.stop

def Declarator.events (source : List UInt8) (d : Declarator) : List Event :=
  d.marks.flatMap markEvents ++ tokenLeaf .declaratorName d.name.1 :: suffixEvents source d.suffixes

mutual

inductive Init where
  | value (e : Expr)
  | list (opening : Punct "\x7b") (members : Inits) (closing : Punct "\x7d")

inductive Inits where
  | none
  | last (i : Init)
  | more (i : Init) (comma : Punct ",") (rest : Inits)

end

mutual

def Init.tokens : Init → List Token
  | .value e => e.tokens
  | .list o ms c => o.1 :: (ms.tokens ++ [c.1])

def Inits.tokens : Inits → List Token
  | .none => []
  | .last i => i.tokens
  | .more i comma rest => i.tokens ++ comma.1 :: rest.tokens

end

def Init.stop : Init → Nat
  | .value e => e.stop
  | .list _ _ c => c.1.stop

def Inits.count : Inits → Nat
  | .none => 0
  | .last _ => 1
  | .more _ _ rest => rest.count + 1

mutual

def Init.events (source : List UInt8) : Init → List Event
  | .value e => e.events source
  | .list _ ms c => ms.events source ++ [mark .initializerList c.1.stop (toString ms.count)]

def Inits.events (source : List UInt8) : Inits → List Event
  | .none => []
  | .last i => i.events source
  | .more i _ rest => i.events source ++ rest.events source

end

/-- A declarator and the value it is given, if any. -/
structure InitDeclarator where
  declarator : Declarator
  init? : Option (Punct "=" × Init)

def InitDeclarator.tokens (d : InitDeclarator) : List Token :=
  d.declarator.tokens ++ match d.init? with
    | none => []
    | some (eq, i) => eq.1 :: i.tokens

def InitDeclarator.events (source : List UInt8) (d : InitDeclarator) : List Event :=
  d.declarator.events source ++ match d.init? with
    | none => []
    | some (_, i) => i.events source ++ [mark .assignment i.stop "="]

/-- Declarators separated by commas. -/
inductive InitDeclarators where
  | last (d : InitDeclarator)
  | more (d : InitDeclarator) (comma : Punct ",") (rest : InitDeclarators)

def InitDeclarators.tokens : InitDeclarators → List Token
  | .last d => d.tokens
  | .more d comma rest => d.tokens ++ comma.1 :: rest.tokens

def InitDeclarators.events (source : List UInt8) : InitDeclarators → List Event
  | .last d => d.events source
  | .more d _ rest => d.events source ++ rest.events source

structure Declaration where
  specifiers : Specifiers
  declarators : InitDeclarators

def Declaration.tokens (d : Declaration) : List Token :=
  d.specifiers.1.flatMap Specifier.tokens ++ d.declarators.tokens

def Declaration.events (source : List UInt8) (d : Declaration) : List Event :=
  d.specifiers.1.flatMap Specifier.events ++ d.declarators.events source

/-! ## Parameters -/

/-- A parameter, which may have no name. -/
inductive Param where
  | named (specifiers : Specifiers) (d : Declarator)
  | nameless (specifiers : Specifiers) (marks : List Token) (suffixes : List Enclosed)

def Param.tokens : Param → List Token
  | .named ss d => ss.1.flatMap Specifier.tokens ++ d.tokens
  | .nameless ss marks suffixes => ss.1.flatMap Specifier.tokens ++ (marks ++ suffixes.flatMap Enclosed.tokens)

/-- The events of a parameter after text that ends at `p`. -/
def Param.events (source : List UInt8) (p : Nat) : Param → List Event
  | .named ss d => ss.1.flatMap Specifier.events ++ d.events source
  | .nameless ss marks suffixes =>
    ss.1.flatMap Specifier.events ++ (marks.flatMap markEvents ++
      mark .declaratorName (lastStop (lastStop p (ss.1.flatMap Specifier.tokens)) marks) ::
        suffixEvents source suffixes)

inductive Params where
  | none
  /-- Three dots, or `void` alone. -/
  | word (t : Token)
  | last (q : Param)
  | more (q : Param) (comma : Punct ",") (rest : Params)

def Params.tokens : Params → List Token
  | .none => []
  | .word t => [t]
  | .last q => q.tokens
  | .more q comma rest => q.tokens ++ comma.1 :: rest.tokens

def Params.events (source : List UInt8) (p : Nat) : Params → List Event
  | .none => []
  | .word _ => []
  | .last q => q.events source p
  | .more q comma rest => q.events source p ++ rest.events source comma.1.stop

/-! ## Statements -/

/-- A parenthesized expression. -/
structure Condition where
  opening : Punct "("
  test : Expr
  closing : Punct ")"

def Condition.tokens (c : Condition) : List Token := c.opening.1 :: (c.test.tokens ++ [c.closing.1])

def Condition.events (source : List UInt8) (c : Condition) (kind : Event.Kind) : List Event :=
  c.test.events source ++ [mark kind c.closing.1.stop]

/-- What stands before the first semicolon of a `for`. -/
inductive ForInit where
  | none
  | declaration (d : Declaration)
  | expression (e : Expr)

def ForInit.tokens : ForInit → List Token
  | .none => []
  | .declaration d => d.tokens
  | .expression e => e.tokens

def ForInit.events (source : List UInt8) : ForInit → List Event
  | .none => []
  | .declaration d => d.events source
  | .expression e => e.events source

/-- An expression that may be missing. -/
def optionTokens (e? : Option Expr) : List Token := (e?.map Expr.tokens).getD []

def optionEvents (source : List UInt8) (e? : Option Expr) : List Event := (e?.map (Expr.events source)).getD []

structure ForParts where
  opening : Punct "("
  init : ForInit
  first : Punct ";"
  test? : Option Expr
  second : Punct ";"
  change? : Option Expr
  closing : Punct ")"

def ForParts.tokens (f : ForParts) : List Token :=
  f.opening.1 :: (f.init.tokens ++ f.first.1 :: (optionTokens f.test? ++ f.second.1 ::
    (optionTokens f.change? ++ [f.closing.1])))

def ForParts.events (source : List UInt8) (f : ForParts) : List Event :=
  f.init.events source ++ mark .forInit f.first.1.stop :: (optionEvents source f.test? ++
    mark .forCondition f.second.1.stop :: (optionEvents source f.change? ++ [mark .forChange f.closing.1.stop]))

/-- Statements without statements inside. -/
inductive Simple where
  | expression (e : Expr) (semicolon : Punct ";")
  | declaration (d : Declaration) (semicolon : Punct ";")
  | empty (semicolon : Punct ";")
  | returned (keyword : Keyword "return") (value? : Option Expr) (semicolon : Punct ";")
  | jump (keyword : JumpKeyword) (semicolon : Punct ";")
  | deferred (keyword : Keyword "defer") (e : Bare) (semicolon : Punct ";")

def Simple.tokens : Simple → List Token
  | .expression e s => e.tokens ++ [s.1]
  | .declaration d s => d.tokens ++ [s.1]
  | .empty s => [s.1]
  | .returned k v? s => k.1 :: (optionTokens v? ++ [s.1])
  | .jump k s => [k.1, s.1]
  | .deferred k e s => k.1 :: (e.1.tokens ++ [s.1])

def Simple.stop : Simple → Nat
  | .expression _ s | .declaration _ s | .empty s | .returned _ _ s | .jump _ s | .deferred _ _ s => s.1.stop

def Simple.events (source : List UInt8) : Simple → List Event
  | .expression e s => e.events source ++ [mark .statementEnd s.1.stop]
  | .declaration d s => d.events source ++ [mark .statementEnd s.1.stop]
  | .empty s => [mark .emptyStatement s.1.stop]
  | .returned _ v? s => optionEvents source v? ++ [mark .returned s.1.stop]
  | .jump k s => [mark .jump s.1.stop k.1.text]
  | .deferred k e s => mark .deferHeader k.1.stop :: (e.1.events source ++ [mark .deferred s.1.stop])

/-- The labels of a `switch`; a case has a text, which is not blank. -/
inductive Label where
  | case (keyword : Keyword "case") (inside : List Token) (colon : Punct ":")
      (text : { s : String // s.isEmpty = false })
  | default (keyword : Keyword "default") (colon : Punct ":")

def Label.tokens : Label → List Token
  | .case k inside colon _ => k.1 :: (inside ++ [colon.1])
  | .default k colon => [k.1, colon.1]

def Label.stop : Label → Nat
  | .case _ _ colon _ | .default _ colon => colon.1.stop

def Label.event : Label → Event
  | .case _ _ colon text => mark .caseLabel colon.1.stop text.1
  | .default _ colon => mark .defaultLabel colon.1.stop

mutual

inductive Stmt where
  | simple (s : Simple)
  | label (l : Label)
  | block (b : Block)
  | deferBlock (keyword : Keyword "defer") (b : Block)
  | branch (keyword : Keyword "if") (c : Condition) (yes : Body)
  | branchElse (keyword : Keyword "if") (c : Condition) (yes : Body) (other : Keyword "else") (no : Body)
  | whileLoop (keyword : Keyword "while") (c : Condition) (body : Body)
  | forLoop (keyword : Keyword "for") (parts : ForParts) (body : Body)
  | doLoop (keyword : Keyword "do") (body : Body) (again : Keyword "while") (c : Condition) (semicolon : Punct ";")
  | switch (keyword : Keyword "switch") (c : Condition) (b : Block)

inductive Stmts where
  | nil
  | cons (s : Stmt) (rest : Stmts)

/-- Statements in braces. -/
inductive Block where
  | mk (opening : Punct "\x7b") (items : Stmts) (closing : Punct "\x7d")

/-- What a header governs. -/
inductive Body where
  | braced (b : Block)
  | single (s : Stmt)

end

mutual

def Stmt.tokens : Stmt → List Token
  | .simple s => s.tokens
  | .label l => l.tokens
  | .block b => b.tokens
  | .deferBlock k b => k.1 :: b.tokens
  | .branch k c y => k.1 :: (c.tokens ++ y.tokens)
  | .branchElse k c y o n => k.1 :: (c.tokens ++ (y.tokens ++ o.1 :: n.tokens))
  | .whileLoop k c b => k.1 :: (c.tokens ++ b.tokens)
  | .forLoop k f b => k.1 :: (f.tokens ++ b.tokens)
  | .doLoop k b w c s => k.1 :: (b.tokens ++ w.1 :: (c.tokens ++ [s.1]))
  | .switch k c b => k.1 :: (c.tokens ++ b.tokens)

def Stmts.tokens : Stmts → List Token
  | .nil => []
  | .cons s rest => s.tokens ++ rest.tokens

def Block.tokens : Block → List Token
  | .mk o items c => o.1 :: (items.tokens ++ [c.1])

def Body.tokens : Body → List Token
  | .braced b => b.tokens
  | .single s => s.tokens

end

def Block.stop : Block → Nat
  | .mk _ _ c => c.1.stop

mutual

def Stmt.stop : Stmt → Nat
  | .simple s => s.stop
  | .label l => l.stop
  | .block b => b.stop
  | .deferBlock _ b => b.stop
  | .branch _ _ y => y.stop
  | .branchElse _ _ _ _ n => n.stop
  | .whileLoop _ _ b => b.stop
  | .forLoop _ _ b => b.stop
  | .doLoop _ _ _ _ s => s.1.stop
  | .switch _ _ b => b.stop

def Body.stop : Body → Nat
  | .braced b => b.stop
  | .single s => s.stop

end

section Events

variable (source : List UInt8)

mutual

def Stmt.events : Stmt → List Event
  | .simple s => s.events source
  | .label l => [l.event]
  | .block b => b.events
  | .deferBlock k b => mark .deferHeader k.1.stop :: (b.events ++ [mark .deferred b.stop])
  | .branch k c y =>
    mark .ifHeader k.1.stop :: (c.events source .ifCondition ++ (y.events c.closing.1.stop ++ [mark .ifEnd y.stop]))
  | .branchElse k c y o n =>
    mark .ifHeader k.1.stop :: (c.events source .ifCondition ++ (y.events c.closing.1.stop ++
      mark .elseMark o.1.stop :: (n.events o.1.stop ++ [mark .ifEnd n.stop])))
  | .whileLoop k c b =>
    mark .whileHeader k.1.stop ::
      (c.events source .whileCondition ++ (b.events c.closing.1.stop ++ [mark .loopEnd b.stop]))
  | .forLoop k f b =>
    mark .forHeader k.1.stop :: (f.events source ++ (b.events f.closing.1.stop ++ [mark .loopEnd b.stop]))
  | .doLoop k b _ c s =>
    mark .doHeader k.1.stop ::
      (b.events k.1.stop ++ (c.events source .doWhileCondition ++ [mark .loopEnd s.1.stop]))
  | .switch k c b =>
    mark .switchHeader k.1.stop :: (c.events source .switchCondition ++ (b.events ++ [mark .switchEnd b.stop]))

def Stmts.events : Stmts → List Event
  | .nil => []
  | .cons s rest => s.events ++ rest.events

def Block.events : Block → List Event
  | .mk o items c => mark .scopeStart o.1.stop :: (items.events ++ [mark .scopeEnd c.1.stop])

/-- The events of a body after text that ends at `p`. -/
def Body.events (p : Nat) : Body → List Event
  | .braced b => b.events
  | .single s => mark .implicitScopeStart p :: (s.events ++ [mark .implicitScopeEnd s.stop])

end

end Events

/-! ## Sources -/

structure FunctionPhrase where
  specifiers : Specifiers
  declarator : Declarator
  opening : Punct "("
  params : Params
  closing : Punct ")"
  body : Block

def FunctionPhrase.tokens (f : FunctionPhrase) : List Token :=
  f.specifiers.1.flatMap Specifier.tokens ++ (f.declarator.tokens ++ f.opening.1 ::
    (f.params.tokens ++ f.closing.1 :: f.body.tokens))

def FunctionPhrase.events (source : List UInt8) (f : FunctionPhrase) : List Event :=
  f.specifiers.1.flatMap Specifier.events ++ (f.declarator.events source ++ (f.params.events source f.opening.1.stop ++
    mark .functionHeader f.closing.1.stop :: (f.body.events source ++ [mark .functionEnd f.body.stop])))

/-- A construct at top level; only functions leave events. -/
inductive Item where
  | function (f : FunctionPhrase)
  | other (ts : List Token)

def Item.tokens : Item → List Token
  | .function f => f.tokens
  | .other ts => ts

def Item.events (source : List UInt8) : Item → List Event
  | .function f => f.events source
  | .other _ => []

/-- The events of a whole source. -/
def unitEvents (source : List UInt8) (items : List Item) : List Event :=
  items.flatMap (Item.events source) ++ [mark .unitEnd source.length]

end Deferral.Grammar
