import Deferral.Files.Path
import Deferral.Span

/-!
# Nodes

The constructs of a source file. Nodes live in numbered slots of a tree (`Deferral.Tree`) and name one another by slot:
a node owns its children, and the slots in its construct point to some of them. The parameters of a function are the
exception; they hang on the construct alone.
-/

namespace Deferral

/-- A place in a tree. -/
structure Slot where
  index : Nat
  deriving DecidableEq, Repr, Inhabited

/-- The slot of the whole source file. -/
def Slot.root : Slot := ⟨0⟩

/-- Slots are shown counting from one. -/
def Slot.number (s : Slot) : Nat := s.index + 1

/-! ## Constructs -/

inductive LoopForm where
  | forLoop
  | whileLoop
  | doLoop
  deriving DecidableEq, Repr

inductive Jump where
  | break
  | continue
  deriving DecidableEq, Repr

namespace Jump

def keyword : Jump → String
  | .break => "break"
  | .continue => "continue"

def ofKeyword? : String → Option Jump
  | "break" => some .break
  | "continue" => some .continue
  | _ => none

end Jump

/-- What follows an operand. -/
inductive Suffix where
  | call
  | index
  | member (field : String) (arrow : Bool)
  | increment (down : Bool)
  deriving DecidableEq, Repr

def Suffix.text : Suffix → String
  | .call => "call"
  | .index => "index"
  | .member field true => "->" ++ field
  | .member field false => "." ++ field
  | .increment true => "--"
  | .increment false => "++"

/-- A function definition. -/
structure FunctionForm where
  name : String
  returnType : String
  params : List Slot
  braced : Bool
  deriving DecidableEq, Repr

/-- A loop: the parts of its header, the group that holds them, and whether its body stands in braces. -/
structure LoopParts where
  form : LoopForm
  init? : Option Slot := none
  condition? : Option Slot := none
  change? : Option Slot := none
  group? : Option Slot := none
  braced : Bool := false
  deriving DecidableEq, Repr

inductive Construct where
  | unit (path : Path)
  | scope (braced : Bool)
  | function (form : FunctionForm)
  | loop (parts : LoopParts)
  | branch (group? : Option Slot) (braced : Bool)
  | switch (group? : Option Slot) (braced : Bool)
  | caseLabel (text : String) (fallsThrough : Bool)
  | returned (value? : Option Slot)
  | jump (kind : Jump)
  | declaration (type name : String) (isReference : Bool)
  | suffixed (suffix : Suffix) (base : Slot)
  | emptyStatement
  | binary (op : String) (left right : Slot)
  | identifier (name : String)
  | constant (text : String)
  | unary (op : String) (operand? : Option Slot)
  | initializerList
  | group
  | deferred
  deriving DecidableEq, Repr

/-- The sorts of constructs. -/
inductive Construct.Tag where
  | unit | scope | function | loop | branch | switch | caseLabel | returned | jump | declaration | suffixed
  | emptyStatement | binary | identifier | constant | unary | initializerList | group | deferred
  deriving DecidableEq, Repr

namespace Construct

def Tag.all : List Tag :=
  [.unit, .scope, .function, .loop, .branch, .switch, .caseLabel, .returned, .jump, .declaration, .suffixed,
    .emptyStatement, .binary, .identifier, .constant, .unary, .initializerList, .group, .deferred]

/-- The name of a sort in outlines and messages. -/
def Tag.label : Tag → String
  | .unit => "TranslationUnit"
  | .scope => "Scope"
  | .function => "Function"
  | .loop => "Loop"
  | .branch => "If"
  | .switch => "SwitchCase"
  | .caseLabel => "SwitchCaseLabel"
  | .returned => "Return"
  | .jump => "JumpStatement"
  | .declaration => "Declaration"
  | .suffixed => "PostfixExpression"
  | .emptyStatement => "EmptyStatement"
  | .binary => "BinaryOp"
  | .identifier => "Identifier"
  | .constant => "Constant"
  | .unary => "UnaryOp"
  | .initializerList => "InitializerList"
  | .group => "Group"
  | .deferred => "Defer"

def Tag.ofLabel? (s : String) : Option Tag := Tag.all.find? (·.label == s)

/-- Sorts that own a list of statements. -/
def Tag.holdsStatements : Tag → Bool
  | .scope | .function | .loop | .branch | .switch | .caseLabel => true
  | _ => false

def tag : Construct → Tag
  | .unit _ => .unit
  | .scope _ => .scope
  | .function _ => .function
  | .loop _ => .loop
  | .branch _ _ => .branch
  | .switch _ _ => .switch
  | .caseLabel _ _ => .caseLabel
  | .returned _ => .returned
  | .jump _ => .jump
  | .declaration _ _ _ => .declaration
  | .suffixed _ _ => .suffixed
  | .emptyStatement => .emptyStatement
  | .binary _ _ _ => .binary
  | .identifier _ => .identifier
  | .constant _ => .constant
  | .unary _ _ => .unary
  | .initializerList => .initializerList
  | .group => .group
  | .deferred => .deferred

/-- Whether its statements stand in braces; true where there are none to stand. -/
def braced : Construct → Bool
  | .scope b => b
  | .function f => f.braced
  | .loop l => l.braced
  | .branch _ b => b
  | .switch _ b => b
  | _ => true

def setBraced (b : Bool) : Construct → Construct
  | .scope _ => .scope b
  | .function f => .function { f with braced := b }
  | .loop l => .loop { l with braced := b }
  | .branch g _ => .branch g b
  | .switch g _ => .switch g b
  | c => c

/-- Renames the slots that point to children. Parameters of a function are not children and stay. -/
def mapSlots (f : Slot → Slot) : Construct → Construct
  | .loop l =>
    .loop { l with
      init? := l.init?.map f, condition? := l.condition?.map f, change? := l.change?.map f, group? := l.group?.map f }
  | .branch g b => .branch (g.map f) b
  | .switch g b => .switch (g.map f) b
  | .returned v => .returned (v.map f)
  | .suffixed s base => .suffixed s (f base)
  | .binary op l r => .binary op (f l) (f r)
  | .unary op operand => .unary op (operand.map f)
  | c => c

end Construct

/-! ## Edits -/

/-- What has become of a node since it was read. -/
inductive Status where
  | clean
  /-- New; its text is spliced in from its span. -/
  | added
  /-- Kept in place, with requests. -/
  | modified
  /-- Left out with everything below it. -/
  | removed
  deriving DecidableEq, Repr

/-- Text to be written around the source text of a node, or instead of it. -/
structure Actions where
  newlineBefore : Bool := false
  semicolonAfter : Bool := false
  omitted : Bool := false
  braceBefore : Bool := false
  braceAfter : Bool := false
  deriving DecidableEq, Repr

namespace Actions

def union (a b : Actions) : Actions where
  newlineBefore := a.newlineBefore || b.newlineBefore
  semicolonAfter := a.semicolonAfter || b.semicolonAfter
  omitted := a.omitted || b.omitted
  braceBefore := a.braceBefore || b.braceBefore
  braceAfter := a.braceAfter || b.braceAfter

/-- The part that is written before the text. -/
def leading (a : Actions) : Actions := { newlineBefore := a.newlineBefore, braceBefore := a.braceBefore }

/-- The part that is written after the text. -/
def trailing (a : Actions) : Actions := { semicolonAfter := a.semicolonAfter, braceAfter := a.braceAfter }

def isEmpty (a : Actions) : Bool := a == {}

/-- The names of the actions asked for. -/
def names (a : Actions) : List String :=
  [("PREPEND_NEWLINE", a.newlineBefore), ("APPEND_SEMICOLON", a.semicolonAfter), ("OMIT", a.omitted),
    ("OPEN_BRACE", a.braceBefore), ("CLOSE_BRACE", a.braceAfter)].filterMap fun (name, asked) =>
      if asked then some name else none

/-- The action with a given name. -/
def ofName? : String → Option Actions
  | "PREPEND_NEWLINE" => some { newlineBefore := true }
  | "APPEND_SEMICOLON" => some { semicolonAfter := true }
  | "OMIT" => some { omitted := true }
  | "OPEN_BRACE" => some { braceBefore := true }
  | "CLOSE_BRACE" => some { braceAfter := true }
  | _ => none

end Actions

/-! ## Nodes -/

structure Node where
  construct : Construct
  span : Span := .absent
  status : Status := .clean
  children : List Slot := []
  parent? : Option Slot := none
  actions : Actions := {}
  /-- Text written right before the node's own. -/
  lead? : Option String := none
  /-- Text written in place of the node's own. -/
  replacement? : Option String := none
  /-- The number by which the node is looked up. -/
  id : Nat := 0
  deriving DecidableEq, Repr

instance : Inhabited Node := ⟨{ construct := .emptyStatement }⟩

def Node.tag (n : Node) : Construct.Tag := n.construct.tag

end Deferral
