import ModuleAssets.Syntax.Grammar.State
/-!
# Patterns — targets of assignments and declarations

The target of an assignment and the parameters of an arrow function are first
read as expressions. `toPattern` turns such an expression into a pattern. A
declaration reads its pattern directly.
-/

namespace ModuleAssets.Syntax

namespace Tree

/-- The node is a member of an object. -/
def isMember (t : Tree) : Bool :=
  match t.kind with
  | .member _ => true
  | .hiddenMember _ => true
  | .computedMember => true
  | _ => false

/-- The node is part of an optional chain, which goes on with what follows. -/
def inChain (t : Tree) : Bool :=
  match t.kind with
  | .optionalMember .. => true
  | .optionalHiddenMember .. => true
  | .optionalComputedMember _ => true
  | .optionalCall _ => true
  | _ => false

/-- A single place that can be assigned to, perhaps in parentheses. -/
def isSimpleTarget (strict : Bool) : Tree → Bool
  | node (.identifier n) _ _ => !(strict && fixedNames.contains n)
  | node (.member _) _ (object :: _) => !object.isMember || isSimpleTarget strict object
  | node (.hiddenMember _) _ (object :: _) => !object.isMember || isSimpleTarget strict object
  | node .computedMember _ (object :: _) => !object.isMember || isSimpleTarget strict object
  | node .paren _ [t] => isSimpleTarget strict t
  | _ => false

/-- The node looks like a single place. If it is none, that alone does not
end a parse. -/
def looksSimple (t : Tree) : Bool :=
  t.isMember || t.inChain || t.kind == .paren || t.kind == .hole || t.kind matches .identifier _

/-- The node is a pattern and has no default. -/
def isPattern (t : Tree) : Bool :=
  t.kind == .arrayPattern || t.kind == .objectPattern || t.kind matches .binding _

mutual

/-- Where a pattern binds names with a fixed meaning. -/
def fixedPlaces : Tree → List Nat
  | node (.binding n) s _ => if fixedNames.contains n then [s.start] else []
  | node .arrayPattern _ items => fixedPlacesIn items
  | node .objectPattern _ members => fixedPlacesIn members
  | node (.propertyPattern .computed) _ (_ :: rest) => fixedPlacesIn rest
  | node (.propertyPattern _) _ parts => fixedPlacesIn parts
  | node (.shorthandPattern n) s _ => if fixedNames.contains n then [s.start] else []
  | node .restPattern _ parts => fixedPlacesIn parts
  | node .defaultPattern _ (target :: _) => fixedPlaces target
  | _ => []

/-- `fixedPlaces` of some patterns. -/
def fixedPlacesIn : List Tree → List Nat
  | [] => []
  | t :: rest => fixedPlaces t ++ fixedPlacesIn rest

end

end Tree

namespace Parse

/-! ## Expressions as patterns -/

mutual

/-- The pattern that an expression stands for. With `names` it may assign to
names only. -/
def toPattern (names : Bool) : Tree → Parse Tree
  | .node (.identifier n) s _ => do
    unless names do checkBound n s.start
    return .node (.binding n) s []
  | .node .array s items => do
    let items ← itemsToPatterns names s.start items
    return .node .arrayPattern s items
  | .node .object s members => do
    let members ← membersToPatterns names s.start members
    return .node .objectPattern s members
  | .node (.assign none) s (target :: rest) => do
    if names && !target.isPattern then complain target.span.start
    return .node .defaultPattern s (target :: rest)
  | .node .hole s parts => return .node .hole s parts
  | t => do
    if names || !t.isSimpleTarget (← read).strict then complain t.span.start
    return t

/-- The items of the array that starts at an offset, as patterns. Only the
last may take the rest. -/
def itemsToPatterns (names : Bool) (array : Nat) : List Tree → Parse (List Tree)
  | [] => return []
  | [.node .spread s [inner]] => do
    if inner.kind matches .assign _ then complain s.start
    complainOfTrailing array
    let inner ← toPattern names inner
    return [.node .restPattern s [inner]]
  | .node .spread s [inner] :: rest => do
    complain inner.span.start
    let rest ← itemsToPatterns names array rest
    return .node .restPattern s [inner] :: rest
  | t :: rest => do
    let t ← toPattern names t
    let rest ← itemsToPatterns names array rest
    return t :: rest

/-- The members of the object that starts at an offset, as patterns. Only the
last may take the rest. -/
def membersToPatterns (names : Bool) (object : Nat) : List Tree → Parse (List Tree)
  | [] => return []
  | .node (.property key) s parts :: rest => do
    let parts ← lastToPattern names parts
    let rest ← membersToPatterns names object rest
    return .node (.propertyPattern key) s parts :: rest
  | .node (.shorthand n) s _ :: rest => do
    let rest ← membersToPatterns names object rest
    return .node (.shorthandPattern n) s [] :: rest
  | .node (.shorthandDefault n) s parts :: rest => do
    let rest ← membersToPatterns names object rest
    return .node (.shorthandPattern n) s parts :: rest
  | .node .spread s [inner] :: rest => do
    unless rest.isEmpty do complain s.start
    complainOfTrailing object
    if names && !(inner.kind matches .identifier _) then
      complain s.start
      let rest ← membersToPatterns names object rest
      return .node .restPattern s [inner] :: rest
    else
      let inner ← toPattern names inner
      if inner.kind == .defaultPattern then complain s.start
      let rest ← membersToPatterns names object rest
      return .node .restPattern s [inner] :: rest
  | t :: _ => blame t.span.start

/-- The last part as a pattern, after the key of a property, if there is one. -/
def lastToPattern (names : Bool) : List Tree → Parse (List Tree)
  | [] => return []
  | [t] => do
    let t ← toPattern names t
    return [t]
  | t :: rest => do
    let rest ← lastToPattern names rest
    return t :: rest

end

/-- The target of a loop over the items or keys of an object: a single place
or a pattern. -/
def toLoopTarget (t : Tree) : Parse Tree := do
  match t with
  | .node (.identifier _) .. => toPattern false t
  | .node .array .. => toPattern false t
  | .node .object .. => toPattern false t
  | t =>
    unless t.isSimpleTarget (← read).strict do complain t.span.start
    return t

/-- The target of a compound assignment, which is a single place. -/
def toSimpleTarget (t : Tree) : Parse Tree := do
  unless t.isSimpleTarget (← read).strict do complain t.span.start
  unless t.looksSimple do blame t.span.start
  match t with
  | .node (.identifier n) s _ => return .node (.binding n) s []
  | t => return t

/-- The target of a plain assignment: a single place or a pattern. -/
def toTarget (t : Tree) : Parse Tree := do
  if t.kind == .array || t.kind == .object then toPattern false t else toSimpleTarget t

/-- The operand of `++` or `--`, which is a single place. -/
def checkUpdated (t : Tree) : Parse Unit := do
  unless t.isSimpleTarget (← read).strict do complain t.span.start

/-- Some items as parameters of an arrow function. Only the last may take the
rest, and no comma comes after it. -/
def itemsToParameters (trailing : Option Nat) : List Tree → Parse (List Tree)
  | [] => return []
  | [.node .spread s [inner]] => do
    if inner.kind matches .assign _ then complain s.start
    match trailing with
    | some comma => complain comma
    | none => pure ()
    let inner ← toPattern true inner
    return [.node .restPattern s [inner]]
  | .node .spread s _ :: rest => do
    complain s.start
    itemsToParameters trailing rest
  | t :: rest => do
    let t ← toPattern true t
    let rest ← itemsToParameters trailing rest
    return t :: rest

/-- Items in parentheses as parameters. -/
def toParameters (trailing : Option Nat) (items : List Tree) : Parse (List Tree) := do
  let params ← itemsToParameters trailing items
  if (← read).strict then
    for offset in Tree.fixedPlacesIn params do complain offset
  return params

/-! ## Patterns of declarations -/

variable (self : Rules)

/-- A value after an equals sign, which is passed, if it is there. -/
def value? : Parse (Option Tree) := do
  if ← eatMark "=" then
    some <$> within ({ · with allowIn := true }) (self .assignment)
  else return none

/-- A bound pattern, perhaps with a default. -/
def bindingWithDefault : Parse Tree := do
  let from_ ← start
  let target ← self .bindingTarget
  match ← value? self with
  | some value => nodeFrom from_ .defaultPattern [target, value]
  | none => return target

/-- What takes the rest of an array or of arguments. It has no default; one
that is read all the same is complained of. -/
def restBinding (hasDefault : Bool) : Parse Tree := do
  let from_ ← start
  expectMark "..."
  let target ← self .bindingTarget
  if hasDefault then
    if ← eatMark "=" then
      let _ ← self .assignment
      complain target.span.start
  nodeFrom from_ .restPattern [target]

/-- Bound patterns up to a closing punctuator. Items of an array may be left
out. `rest` is where one that takes the rest came before. -/
def bindingsUntil (closing : String) (restHasDefault : Bool) (rest : Option Nat) :
    Nat → Parse (List Tree)
  | 0 => unexpected
  | fuel + 1 => do
    if ← eatMark closing then return []
    let from_ ← start
    if closing == "]" && (← isMark ",") then
      advance
      return missing from_ :: (← bindingsUntil closing restHasDefault rest fuel)
    match rest with
    | some offset => complain offset
    | none => pure ()
    let takesRest ← isMark "..."
    let t ← if takesRest then restBinding self restHasDefault else bindingWithDefault self
    if ← eatMark closing then return [t]
    let comma ← start
    expectMark ","
    if takesRest && (← isMark closing) then complain comma
    let rest := if takesRest then some from_ else rest
    return t :: (← bindingsUntil closing restHasDefault rest fuel)

/-- Parameters in parentheses. -/
def parameters (restHasDefault : Bool) : Parse (List Tree) := do
  expectMark "("
  bindingsUntil self ")" restHasDefault none (← read).budget

/-- A private name after its hash, which is next. -/
def hiddenName : Parse String := do
  let from_ ← start
  expectMark "#"
  if (← start) != (← lastStop) then blame from_
  anyWord

/-- The key of a property, and its expression if it is computed. -/
def propertyKey : Parse (Key × List Tree) := do
  match ← token with
  | .word n _ => advance; return (.name n, [])
  | .text value _ => advance; return (.text value, [])
  | .number value => advance; return (.number value, [])
  | .bigint => advance; return (.bigint, [])
  | .punctuator "[" =>
    advance
    let key ← within ({ · with allowIn := true }) (self .assignment)
    expectMark "]"
    return (.computed, [key])
  | _ => unexpected

/-- A member of an object pattern. -/
def memberBinding : Parse Tree := do
  let from_ ← start
  if ← eatMark "..." then
    let target ← self .bindingTarget
    return ← nodeFrom from_ .restPattern [target]
  let (key, keyParts) ← propertyKey self
  if ← eatMark ":" then
    let value ← bindingWithDefault self
    return ← nodeFrom from_ (.propertyPattern key) (keyParts ++ [value])
  match key with
  | .name n =>
    let value ← value? self
    nodeFrom from_ (.shorthandPattern n) value.toList
  | _ => unexpected

/-- The members of an object pattern. Only the last takes the rest, it is a
name then, and no comma comes after it. -/
def checkMembers (trailing : Option Nat) : List Tree → Parse Unit
  | [] => pure ()
  | [.node .restPattern s parts] => do
    unless parts.all (·.kind matches .binding _) do blame s.start
    match trailing with
    | some comma => complain comma
    | none => pure ()
  | t :: rest => do
    if t.kind == .restPattern then complain t.span.start
    checkMembers trailing rest

/-- What a declaration binds: a name or a pattern. -/
def bindingTarget (allowLet : Bool) : Parse Tree := do
  let from_ ← start
  match ← token with
  | .word .. => bindingName allowLet
  | .punctuator "[" =>
    advance
    let items ← bindingsUntil self "]" false none (← read).budget
    nodeFrom from_ .arrayPattern items
  | .punctuator "\x7b" =>
    advance
    let (members, trailing) ← listUntil "\x7d" (memberBinding self) (← read).budget
    checkMembers trailing members
    nodeFrom from_ .objectPattern members
  | _ => unstarted

end Parse

end ModuleAssets.Syntax
