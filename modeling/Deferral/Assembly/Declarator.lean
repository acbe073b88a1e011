import Deferral.Assembly.Scope

/-!
# Declarators

The words and marks before a declared name wait as fragments. The name turns them into a declaration: type words joined
by blanks, one star for each pointer mark. A name without type words of its own shares those of the declarator before
it.
-/

namespace Deferral.Assembly

def pushFragment (fragment : Fragment) : Step Unit :=
  modify fun a => { a with fragments := a.fragments ++ [fragment] }

def onFragment (e : Event) (kind : FragmentKind) : Step Unit := do
  let span ← leafSpan e
  pushFragment ⟨kind, span.start, e.literal⟩

def onTagKeyword (e : Event) : Step Unit := do
  let span ← leafSpan e
  modify fun a => { a with waitingTag? := some ⟨.type, span.start, e.literal⟩, modes := .tagName :: a.modes }

/-- A type word, or the name for the tag keyword before it. -/
def onTypeWord (e : Event) : Step Unit := do
  let span ← leafSpan e
  let a ← get
  if a.mode = .tagName then
    set { a with modes := a.modes.tail, waitingTag? := none }
    match a.waitingTag? with
    | none => fail (.unexpectedEvent e.kind .tagName e.offset)
    | some keyword => pushFragment ⟨.type, keyword.start, keyword.text ++ " " ++ e.literal⟩
  else pushFragment ⟨.type, span.start, e.literal⟩

/-- The type words among fragments, joined. -/
def typeText? (fragments : List Fragment) : Option String :=
  match fragments.filter (·.kind == .type) with
  | [] => none
  | words => some (" ".intercalate (words.map (·.text)))

def stars (fragments : List Fragment) : String :=
  String.ofList ((fragments.filter (·.kind == .pointer)).map fun _ => '*')

def onDeclaratorName (e : Event) : Step Unit := do
  let span ← leafSpan e
  let fragments := (← get).fragments
  modify ({ · with fragments := [] })
  let type ← match typeText? fragments with
    | some type =>
      modify ({ · with sharedType? := some type })
      pure type
    | none =>
      match (← get).sharedType? with
      | some type => pure type
      | none => fail (.missingType e.literal e.offset)
  let isReference := fragments.any (·.kind == .reference)
  if isReference then
    write ⟨.warning, .assembly, s!"reference declarator `{e.literal}` @{e.offset} is recorded but not lowered"⟩
  let start := fragments.foldl (fun n f => min n f.start) span.start
  stage (← newNode (.declaration (type ++ stars fragments) e.literal isReference) ⟨start, e.offset⟩)

/-- An array suffix extends the type and the span of the declaration before it. -/
def onArraySuffix (e : Event) : Step Unit := do
  let a ← get
  match topOperand? a with
  | none => missingDeclarator e
  | some s =>
    match a.tree.construct s with
    | .declaration type name isReference =>
      modifyTree fun t =>
        (t.setConstruct s (.declaration (type ++ e.literal) name isReference)).setSpan s ⟨(t.span s).start, e.offset⟩
    | _ => missingDeclarator e

/-- Opens a function. The first declaration on the stage names it and the others are its parameters. -/
def onFunctionHeader (e : Event) : Step Unit := do
  let a ← get
  unless a.hasOperands do missingDeclarator e
  let declarations ← unstage a.statementBase
  if declarations.any fun s => a.tree.tag s != .declaration then missingDeclarator e
  match declarations.map (fun s => (s, a.tree.construct s)) with
  | (_, .declaration returnType name _) :: rest =>
    let params := rest.map Prod.fst
    modify ({ · with fragments := [], sharedType? := none })
    let s ← openScope (.function { name, returnType, params, braced := true })
    params.forM fun p => modifyTree (·.modify p ({ · with parent? := some s }))
    setLastEnd e.offset
    report .function e.offset s!"open `{name}` with {params.length} parameter(s)"
  | _ => missingDeclarator e

end Deferral.Assembly
