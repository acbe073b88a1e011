import Deferral.Assembly.Declarator
import Deferral.Assembly.Statement
import Deferral.Grammar.Trace

/-!
# Building a tree

`Assembly.handle` takes one event, `Assembly.handleAll` a sequence up to the first that is not taken, and
`Assembly.build` the events of a source.
-/

namespace Deferral.Assembly

/-- What an event does. -/
def dispatch (e : Event) : Step Unit :=
  match e.kind with
  | .typeWord => onTypeWord e
  | .tagKeyword => onTagKeyword e
  | .pointer => onFragment e .pointer
  | .reference => onFragment e .reference
  | .declaratorName => onDeclaratorName e
  | .arraySuffix => onArraySuffix e
  | .functionHeader => onFunctionHeader e
  | .functionEnd => closeConstruct e .function
  | .scopeStart => onScopeStart e
  | .scopeEnd => onScopeEnd e
  | .implicitScopeStart => onImplicitScopeStart
  | .implicitScopeEnd => onImplicitScopeEnd e
  | .ifHeader => onIfHeader e
  | .ifCondition => onCondition e .branch
  | .elseMark => onElse e
  | .ifEnd => closeConstruct e .branch
  | .forHeader => onForHeader e
  | .forInit => onForPart e (fun s l => { l with init? := s }) false
  | .forCondition => onForPart e (fun s l => { l with condition? := s }) false
  | .forChange => onForPart e (fun s l => { l with change? := s }) true
  | .whileHeader => openLoop e .whileLoop
  | .whileCondition => onCondition e .loop
  | .doHeader => onDoHeader e
  | .doWhileCondition => onDoCondition e
  | .loopEnd => closeConstruct e .loop
  | .switchHeader => onSwitchHeader e
  | .switchCondition => onCondition e .switch
  | .caseLabel => onCaseLabel e
  | .defaultLabel => onLabel e "default"
  | .switchEnd => onSwitchEnd e
  | .statementEnd => onStatementEnd e
  | .emptyStatement => onEmptyStatement e
  | .returned => onReturn e
  | .jump => onJump e
  | .deferHeader => onDeferHeader e
  | .deferred => onDeferred e
  | .identifier => onLeaf e (.identifier e.literal)
  | .constant => onLeaf e (.constant e.literal)
  | .assignment => onBinary e
  | .relational => onBinary e
  | .binaryOperator => onBinary e
  | .unaryOperator => onLeaf e (.unary e.literal none)
  | .postfixCall => onCall e
  | .postfixIndex => onIndex e
  | .postfixMember => onMember e
  | .postfixIncrement => onIncrement e
  | .initializerList => onInitializerList e
  | .unitEnd => onUnitEnd e

/-- Takes one event. After a fault nothing changes any more, and every event is answered with that fault. -/
def handle (a : Assembly) (e : Event) : Assembly × Option Halt :=
  match a.failure? with
  | some f => (a, some (.fault f))
  | none =>
    match dispatch e a with
    | .ok _ a => (a, none)
    | .error (.fault f) a => ({ a with failure? := some f }, some (.fault f))
    | .error halt a => (a, some halt)

/-- Takes events until one is turned down. -/
def handleAll (a : Assembly) : List Event → Assembly × Option Halt
  | [] => (a, none)
  | e :: rest =>
    match a.handle e with
    | (a, none) => handleAll a rest
    | (a, some halt) => (a, some halt)

/-- Why a source gives no tree. -/
inductive BuildError where
  | grammar (stop : Grammar.Stop)
  | assembly (halt : Halt)
  deriving DecidableEq, Repr

/-- Takes the events of a source. An event that is turned down ends the recognition. -/
def feed (a : Assembly) (source : List UInt8) : Assembly × Option BuildError :=
  let trace := Grammar.trace source
  match a.handleAll trace.events.toList with
  | (a, some halt) => (a, some (.assembly halt))
  | (a, none) => (a, trace.stop?.map .grammar)

/-- The tree of a source. -/
def build (a : Assembly) (source : List UInt8) : Except BuildError Tree × Assembly :=
  match a.feed source with
  | (a, some e) => (.error e, a)
  | (a, none) =>
    let (tree, a) := a.take
    (.ok tree, a)

end Deferral.Assembly
