/-!
# Events

Recognizing a source gives a sequence of events, one for each production, in the order in which productions end. An
event has the offset where its production ends and, for some kinds, a literal: the text of a leaf, or an operand count.
A leaf also says where its text starts.
-/

namespace Deferral

/-- What has been recognized. -/
inductive Event.Kind where
  -- Declarators.
  | typeWord | tagKeyword | pointer | reference | declaratorName | arraySuffix
  -- Functions and blocks.
  | functionHeader | functionEnd | scopeStart | scopeEnd | implicitScopeStart | implicitScopeEnd
  -- Selection and iteration.
  | ifHeader | ifCondition | elseMark | ifEnd | forHeader | forInit | forCondition | forChange
  | whileHeader | whileCondition | doHeader | doWhileCondition | loopEnd | switchHeader
  | switchCondition | caseLabel | defaultLabel | switchEnd
  -- Statements.
  | statementEnd | emptyStatement | returned | jump | deferHeader | deferred
  -- Expressions, and the end of the source.
  | identifier | constant | assignment | relational | binaryOperator | unaryOperator | postfixCall
  | postfixIndex | postfixMember | postfixIncrement | initializerList | unitEnd
  deriving DecidableEq, Repr

namespace Event.Kind

/-- All kinds. -/
def all : List Event.Kind :=
  [.typeWord, .tagKeyword, .pointer, .reference, .declaratorName, .arraySuffix, .functionHeader, .functionEnd,
    .scopeStart, .scopeEnd, .implicitScopeStart, .implicitScopeEnd, .ifHeader, .ifCondition, .elseMark, .ifEnd,
    .forHeader, .forInit, .forCondition, .forChange, .whileHeader, .whileCondition, .doHeader, .doWhileCondition,
    .loopEnd, .switchHeader, .switchCondition, .caseLabel, .defaultLabel, .switchEnd, .statementEnd,
    .emptyStatement, .returned, .jump, .deferHeader, .deferred, .identifier, .constant, .assignment, .relational,
    .binaryOperator, .unaryOperator, .postfixCall, .postfixIndex, .postfixMember, .postfixIncrement,
    .initializerList, .unitEnd]

/-- The name of a kind in messages. -/
def label : Event.Kind → String
  | .typeWord => "Type"
  | .tagKeyword => "StructKeyword"
  | .pointer => "Pointer"
  | .reference => "Reference"
  | .declaratorName => "DirectDeclarator"
  | .arraySuffix => "ArrayDeclarator"
  | .functionHeader => "FunctionHeader"
  | .functionEnd => "FunctionEnd"
  | .scopeStart => "ScopeStart"
  | .scopeEnd => "ScopeEnd"
  | .implicitScopeStart => "ImplicitScopeStart"
  | .implicitScopeEnd => "ImplicitScopeEnd"
  | .ifHeader => "IfHeader"
  | .ifCondition => "IfCondition"
  | .elseMark => "Else"
  | .ifEnd => "IfEnd"
  | .forHeader => "ForHeader"
  | .forInit => "ForInit"
  | .forCondition => "ForCondition"
  | .forChange => "ForChange"
  | .whileHeader => "WhileHeader"
  | .whileCondition => "WhileCondition"
  | .doHeader => "DoHeader"
  | .doWhileCondition => "DoWhileCondition"
  | .loopEnd => "LoopEnd"
  | .switchHeader => "SwitchHeader"
  | .switchCondition => "SwitchCondition"
  | .caseLabel => "CaseLabel"
  | .defaultLabel => "DefaultLabel"
  | .switchEnd => "SwitchEnd"
  | .statementEnd => "StatementEnd"
  | .emptyStatement => "EmptyStatement"
  | .returned => "Return"
  | .jump => "Jump"
  | .deferHeader => "DeferHeader"
  | .deferred => "Defer"
  | .identifier => "Identifier"
  | .constant => "Constant"
  | .assignment => "Assignment"
  | .relational => "Relational"
  | .binaryOperator => "BinaryOperator"
  | .unaryOperator => "UnaryOperator"
  | .postfixCall => "PostfixCall"
  | .postfixIndex => "PostfixIndex"
  | .postfixMember => "PostfixMember"
  | .postfixIncrement => "PostfixIncrement"
  | .initializerList => "InitializerList"
  | .unitEnd => "TranslationUnitEnd"

/-- The kind with a given name. -/
def ofLabel? (s : String) : Option Event.Kind := all.find? (·.label == s)

end Event.Kind

structure Event where
  kind : Event.Kind
  /-- Where the production ends. -/
  offset : Nat
  literal : String
  /-- Where the text of a leaf starts. -/
  start? : Option Nat := none
  deriving DecidableEq, Repr

end Deferral
