import TieredEngine.Engine.State
/-!
# Invocations

An invocation of a target runs its code if it has some, and interprets it
otherwise. Code that gives up hands its frames over to the interpreter. An
interpreted invocation is counted, and when the target is hot it is compiled
afterwards. Guest code calls targets through `call`, which counts how deep
calls nest: `callWithin` takes the room that is left as an argument, so it
ends by recursion on it. `bound` limits loops, the steps of running code and
the nesting of inlining plans.
-/

namespace TieredEngine

namespace Engine

/-! ## Compilation -/

/-- What became of a request for compilation. -/
inductive CompilationStatus where
  | compiled
  | alreadyCompiled
  | disabled
deriving DecidableEq

/-- Compile a target and install the code, unless it has code or is disabled. -/
def requestCompilation (e : Engine) (bound : Nat) (id : TargetId) :
    Comp CompileError State CompilationStatus := do
  let s ← Comp.state
  match s.targets[id]? with
  | none => Comp.leave (.unresolvedTarget id)
  | some t =>
    if t.disabled then return .disabled
    else if t.isCompiled then return .alreadyCompiled
    else
      let code ← Comp.within State.stats (fun stats s => { s with stats })
        (e.compiler.compile bound s.targets id t)
      Comp.update fun s => s.modifyTarget id fun t => t.install code
      return .compiled

/-- Compile a target after the interpreted invocation with this number, if it
is hot. A failure is noted and not tried again. -/
def compileIfHot (e : Engine) (bound : Nat) (id : TargetId) (count : UInt64) :
    Comp GuestError State Unit := do
  match (← Comp.state).targets[id]? with
  | none => return ()
  | some t =>
    if t.wantsCompilation e.options.autoCompile e.options.compilationThreshold count then
      match ← (e.requestCompilation bound id).attempt with
      | .ok _ => return ()
      | .error _ => Comp.update fun s => s.modifyTarget id fun t => { t with failed := true }

/-! ## Handing over to the interpreter -/

/-- Resume one suspended frame of a registered target. -/
def resumeFrame (call : Dispatch) (bound : Nat) (f : SuspendedFrame) :
    Comp GuestError State Value := do
  match (← Comp.state).targets[f.target]? with
  | none => Comp.leave (.unknownFrameTarget f.target)
  | some t => Interpreter.resume (interpreterHost call f.target) bound t.routine f

/-- Resume a chain of frames: each frame's result goes on the stack of the
frame waiting for it. -/
def resumeFrames (call : Dispatch) (bound : Nat) :
    SuspendedFrame → List SuspendedFrame → Comp GuestError State Value
  | f, [] => resumeFrame call bound f
  | f, caller :: callers => do
    let v ← resumeFrame call bound f
    resumeFrames call bound (caller.push v) callers

/-- Remember a deoptimization of a target's code and finish its invocation in
the interpreter. -/
def deoptimizeWith (call : Dispatch) (bound : Nat) (id : TargetId) (reason : DeoptReason)
    (snapshot : Snapshot) : Comp GuestError State Value := do
  Comp.update fun s => s.remember ⟨id, reason, snapshot.innermost.node, snapshot.depth⟩
  resumeFrames call bound snapshot.innermost snapshot.callers

/-! ## Invocation -/

/-- Run a target's code and finish in the interpreter if it gives up. -/
def runCode (e : Engine) (bound : Nat) (call : Dispatch) (id : TargetId) (position : Nat)
    (code : Code) (arguments : List Value) : Comp GuestError State Value := do
  match ← code.run (codeHost call id position) bound arguments with
  | .returned v => return v
  | .deoptimized reason snapshot =>
    Comp.update fun s =>
      s.modifyTarget id fun t => t.recordDeopt position reason e.options.maxDeopts
    deoptimizeWith call bound id reason snapshot

/-- Interpret a target, counting the invocation. -/
def interpretCounted (e : Engine) (bound : Nat) (call : Dispatch) (id : TargetId) (t : CallTarget)
    (arguments : List Value) : Comp GuestError State Value := do
  let count := t.invocations + 1
  Comp.update fun s => s.modifyTarget id fun t => { t with invocations := count }
  (Interpreter.execute (interpreterHost call id) bound t.routine arguments).always
    (e.compileIfHot bound id count)

/-- Invoke a target whose calls go through `call`. -/
def invokeWith (e : Engine) (bound : Nat) (call : Dispatch) (id : TargetId)
    (arguments : List Value) :
    Comp GuestError State Value := do
  match (← Comp.state).targets[id]? with
  | none => Comp.leave (.unknownTarget id)
  | some t =>
    Comp.update fun s => s.modifyProfile id fun p => p.recordArguments arguments
    match t.currentCode with
    | some (position, code) => e.runCode bound call id position code arguments
    | none => e.interpretCounted bound call id t arguments

/-- Call a target with room for `room` nested calls. -/
def callWithin (e : Engine) (bound : Nat) : (room : Nat) → Dispatch
  | 0, _, _ => Comp.leave (.callDepth e.options.maxCallDepth.toNat)
  | room + 1, id, arguments => e.invokeWith bound (e.callWithin bound room) id arguments

/-- Call a target from outside, as guest code would. -/
def call (e : Engine) (bound : Nat) : Dispatch := e.callWithin bound e.options.maxCallDepth.toNat

/-- Invoke a target from outside; the invocation itself does not count as a
call. -/
def invoke (e : Engine) (bound : Nat) (id : TargetId) (arguments : List Value) :
    Comp GuestError State Value :=
  e.invokeWith bound (e.call bound) id arguments

/-- Remember a deoptimization and finish it, from outside. -/
def deoptimize (e : Engine) (bound : Nat) (id : TargetId) (reason : DeoptReason)
    (snapshot : Snapshot) :
    Comp GuestError State Value :=
  deoptimizeWith (e.call bound) bound id reason snapshot

/-- Resume a chain of frames, from outside. -/
def resume (e : Engine) (bound : Nat) (snapshot : Snapshot) : Comp GuestError State Value :=
  resumeFrames (e.call bound) bound snapshot.innermost snapshot.callers

/-- Interpret a routine without counting or recording anything about this run
of it. -/
def interpret (e : Engine) (bound : Nat) (r : Routine) (arguments : List Value) :
    Comp GuestError State Value :=
  Interpreter.execute (silentHost (e.call bound)) bound r arguments

/-- Resume one frame of a routine without recording anything about it. -/
def interpretFrame (e : Engine) (bound : Nat) (r : Routine) (f : SuspendedFrame) :
    Comp GuestError State Value :=
  Interpreter.resume (silentHost (e.call bound)) bound r f

end Engine

end TieredEngine
