import TieredEngine.Specialize.Build
/-!
# Specialization

A routine, its profile and an inlining plan become a graph. `eval` follows the
interpreter's order of evaluation; operators on constants are folded, inlined
calls are evaluated in place, and speculation comes from the profile:
parameters that always had one type are guarded at the entry, and a
conditional that always went one way is replaced by a guard. Every guard,
hand-over and call describes the frames in which the interpreter would go on.
`stack` is the operands pending around an expression, outermost first.
-/

namespace TieredEngine

namespace Specialize

mutual

/-- Specialize an expression on a path; gives its value and where control is
then, or nothing if every path through it ends. -/
def eval (c : Context) : Expr → (stack : List NodeId) → Path → Build (Option Arrival)
  | .constant _ v, _, p => do return some ⟨← constant v, p⟩
  | .argument _ index, _, p => do
    match atWord? c.arguments index with
    | some v => return some ⟨v, p⟩
    | none => return some ⟨← constant .null, p⟩
  | .readLocal _ slot, _, p =>
    match p.locals[slot.toNat]? with
    | some v => return some ⟨v, p⟩
    | none => throw (.evaluation c.name (.readOutOfRange slot.toNat))
  | .writeLocal _ slot value, stack, p => do
    let some ⟨v, p⟩ ← eval c value stack p | return none
    if slot.toNat < p.locals.length then
      return some ⟨v, { p with locals := p.locals.set slot.toNat v }⟩
    else throw (.evaluation c.name (.writeOutOfRange slot.toNat))
  | .binary id op lhs rhs, stack, p => do
    let some ⟨a, p⟩ ← eval c lhs stack p | return none
    let some ⟨b, p⟩ ← eval c rhs (stack ++ [a]) p | return none
    emitBinary c id op a b stack p
  | .unary id op operand, stack, p => do
    let some ⟨a, p⟩ ← eval c operand stack p | return none
    emitUnary c id op a stack p
  | .block _ parts, stack, p => do evalBlock c parts (← constant .null) stack p
  | .ifThen id condition body, stack, p => do
    let some ⟨v, p⟩ ← eval c condition stack p | return none
    conditional c id v stack p (fun p => eval c body stack p)
      (fun p => do return some ⟨← constant .null, p⟩)
  | .ifElse id condition body alternative, stack, p => do
    let some ⟨v, p⟩ ← eval c condition stack p | return none
    conditional c id v stack p (fun p => eval c body stack p) (fun p => eval c alternative stack p)
  | .whileLoop id condition body, stack, p => do
    let (l, p) ← openLoop p
    let some ⟨v, p⟩ ← eval c condition stack p | return none
    loopOn c id l v stack p (fun p => eval c body stack p)
  | .ret _ value, stack, p => do
    let some ⟨v, p⟩ ← eval c value stack p | return none
    recordReturn v p
  | .call id target arguments, stack, p => do
    let some (args, p) ← evalAll c arguments [] stack p | return none
    match c.entries.lookup id with
    | some enter => enter (frameState c id .afterCall stack p) args p
    | none => emitInvoke c id target args stack p

/-- Specialize the parts of a block; gives the last value, or `last` if there
are none. -/
def evalBlock (c : Context) :
    List Expr → (last : NodeId) → (stack : List NodeId) → Path → Build (Option Arrival)
  | [], last, _, p => return some ⟨last, p⟩
  | e :: es, _, stack, p => do
    let some ⟨v, p⟩ ← eval c e stack p | return none
    evalBlock c es v stack p

/-- Specialize operands from left to right; `done` holds those already
evaluated. -/
def evalAll (c : Context) :
    List Expr → (done stack : List NodeId) → Path → Build (Option (List NodeId × Path))
  | [], done, _, p => return some (done, p)
  | e :: es, done, stack, p => do
    let some ⟨v, p⟩ ← eval c e (stack ++ done) p | return none
    evalAll c es (done ++ [v]) stack p

end

/-! ## Inlining -/

/-- Specialize an inlined routine in place of a call. The caller's own returns
wait meanwhile, and its locals are the same afterwards. -/
def inlineRoutine (target : TargetId) (callee : CallTarget) (entries : List (ExprId × Entry))
    (outer : NodeId) (arguments : List NodeId) (p : Path) : Build (Option Arrival) := do
  let null ← constant .null
  let waiting := (← get).returns
  modify fun b => { b with returns := [] }
  let c : Context := {
    target, name := callee.routine.name, profile := callee.profile, arguments, outer, entries }
  let inside := { p with locals := List.replicate callee.routine.localCount null }
  let arrival ← finishRoutine (← eval c callee.routine.body [] inside)
  modify fun b => { b with returns := waiting }
  return arrival.map fun a => { a with path := { a.path with locals := p.locals } }

mutual

/-- How one inlined call site is entered. -/
def entryOf (targets : Registry) : PlanEntry → Entry
  | ⟨_, target, _, children⟩ => fun describeCaller arguments p => do
    match targets[target]? with
    | none => throw (.unresolvedTarget target)
    | some callee =>
      let outer ← describeCaller
      inlineRoutine target callee (entriesOf targets children) outer arguments p

/-- How the inlined sites among some plan entries are entered. -/
def entriesOf (targets : Registry) : List PlanEntry → List (ExprId × Entry)
  | [] => []
  | e :: es => if e.isInlined then (e.site, entryOf targets e) :: entriesOf targets es
    else entriesOf targets es

end

/-! ## Whole routines -/

/-- The parameters that always had one type, with that type. -/
def speculated (r : Routine) (profile : Profile) : List (Nat × ValueType) :=
  (List.range r.parameters).filterMap fun index =>
    (profile.argument index).single?.map fun type => (index, type)

/-- Guard parameters at the entry; a failed guard starts the routine over in
the interpreter. -/
def guardEntry (c : Context) (r : Routine) (p : Path) : Build Path := do
  match speculated r c.profile with
  | [] => return p
  | types =>
    let state ← frameState c r.body.id .start [] p
    types.foldlM
      (fun p (index, type) =>
        match c.arguments[index]? with
        | some parameter => guardWith state parameter (.type type) .typeGuardFailure p
        | none => pure p) p

/-- Build the whole graph of a routine. -/
def buildRoutine (target : TargetId) (t : CallTarget) (entries : List (ExprId × Entry)) :
    Build Unit := do
  let r := t.routine
  let arguments ← (List.range (max r.parameters r.argumentCount)).mapM fun index =>
    addNode { kind := .parameter index }
  let null ← constant .null
  let c : Context := {
    target, name := r.name, profile := t.profile, arguments, outer := none, entries }
  let p ← guardEntry c r ⟨Graph.start, List.replicate r.localCount null, []⟩
  match ← finishRoutine (← eval c r.body [] p) with
  | some a =>
    let _ ← addNode { kind := .ret, inputs := [a.value], control := [a.path.control] }
  | none => pure ()

/-- The graph of a target under a plan. The result has been verified. -/
def specialize (targets : Registry) (target : TargetId) (t : CallTarget) (plan : Plan) :
    Except CompileError Graph := do
  if plan.root ≠ target then
    throw (.evaluation t.routine.name (.foreignPlan plan.root))
  let (_, b) ← (buildRoutine target t (entriesOf targets plan.entries)).run
    ⟨Graph.init t.routine.name, []⟩
  match b.graph.verify with
  | .ok () => return b.graph
  | .error e => throw (.malformedGraph e)

end Specialize

end TieredEngine
