import Mathlib.Order.Lattice
import CppMtHw.Coroutines.Engine
import CppMtHw.Coroutines.StackImage

/-!
# The engine and its stack

All coroutines run on the stack of `start`, and `sched` exchanges its bytes by `Store` and
`Restore` of `hw-coroutines/src/engine.cpp`. The engine is run here together with the memory, for
two ways of keeping a stack: copied to a buffer, as the source does, and apart, where each
coroutine has memory of its own below `StackBottom` and nothing is copied.
-/

namespace CppMtHw.Coroutines

open Machine

/-- How the stack of a coroutine is kept while others run: what a new context has, and what `Store`
and `Restore` do. -/
structure Keeping (σ : Type) where
  fresh : σ
  store : σ → ℕ → Bytes → Option σ
  restore : σ → List ℕ → Bytes → Option Bytes

def Keeping.copying (stackBottom : ℕ) : Keeping SavedStack where
  fresh := .fresh
  store ctx stackStart memory := ctx.store stackBottom stackStart memory
  restore := SavedStack.restore

/-- A stack that nobody else can touch: its lowest address, the memory it is in, and the lowest
address that it has ever had. -/
structure Kept where
  stackPointer : ℕ
  deepest : ℕ
  memory : Bytes

def Kept.shrunk (kept : Kept) : ℕ := kept.stackPointer - kept.deepest

/-- Each coroutine has memory of its own below `StackBottom`, and the rest is common to all. -/
def Keeping.apart (stackBottom : ℕ) : Keeping Kept where
  fresh := ⟨stackBottom, stackBottom, fun _ ↦ 0⟩
  store kept stackStart memory := some ⟨stackStart, min kept.deepest stackStart, memory⟩
  restore kept _ memory := some fun x ↦ if x < stackBottom then kept.memory x else memory x

/-- The engine with the stacks of its contexts, that of `idle_ctx`, and the memory. -/
structure Running (σ : Type) where
  engine : Engine Unit
  kept : Ctx → σ
  idleCtx : σ
  memory : Bytes

/-- The addresses of the local variables of `Store` and of the frames of `Restore`. -/
structure Locals where
  stackStart : ℕ
  frames : List ℕ

def orFault {α : Type} : Option α → Except Fault α
  | some a => .ok a
  | none => .error .outOfBounds

/-- Go on after a call of `sched`: as `returned` says, or where control has passed to. -/
def Sched.resume {E : Type} (returned : Except Fault E) : Sched E → Except Fault E
  | .returned => returned
  | .switched e => .ok e

/-- What the running coroutine does next, with the memory as it has left it by then; `yield` is
`sched` with a null pointer. A `ret` may go through the idle context. -/
inductive Move
  | run (memory : Bytes) (locals : Locals)
  | sched (routine : Option Ctx) (memory : Bytes) (locals : Locals)
  | ret (memory : Bytes) (locals : Locals) (idleFrames : List ℕ)

def Move.action : Move → Engine.Action
  | .run _ _ => .run
  | .sched none _ _ => .yield
  | .sched (some routine) _ _ => .sched routine
  | .ret _ _ _ => .ret

namespace Running

variable {σ : Type} (K : Keeping σ)

def store (r : Running σ) (c : Ctx) (stackStart : ℕ) : Except Fault (Running σ) := do
  let ctx ← orFault (K.store (r.kept c) stackStart r.memory)
  .ok { r with kept := Function.update r.kept c ctx }

def restore (r : Running σ) (c : Ctx) (frames : List ℕ) : Except Fault (Running σ) := do
  let memory ← orFault (K.restore (r.kept c) frames r.memory)
  .ok { r with memory }

def suspend (r : Running σ) (stackStart : ℕ) : Except Fault (Running σ) :=
  match r.engine.curRoutine with
  | some cur => r.store K cur stackStart
  | none => .ok r

/-- `Engine::sched`, with the decision of the engine between `Store` and `Restore`. -/
def sched (r : Running σ) (routine : Option Ctx) (locals : Locals) :
    Except Fault (Sched (Running σ)) := do
  let r ← r.suspend K locals.stackStart
  match ← r.engine.sched routine with
  | .returned => .ok .returned
  | .switched e =>
      match e.curRoutine with
      | some routine => do
          let r ← { r with engine := e }.restore K routine locals.frames
          .ok (.switched r)
      | none => .error .nullDeref

/-- `Restore(*idle_ctx)`, and the `yield` of `start` that it leads to. -/
def idle (r : Running σ) (locals : Locals) (idleFrames : List ℕ) : Except Fault (Running σ) := do
  let memory ← orFault (K.restore r.idleCtx idleFrames r.memory)
  let r := { r with memory }
  let outcome ← r.sched K none locals
  outcome.resume (.ok r)

/-- One move of the running coroutine, up to the point where a coroutine runs again or `start` has
returned. -/
def exec (r : Running σ) : Move → Except Fault (Running σ)
  | .run memory locals => do
      let (pc, e) ← r.engine.run ()
      let r := { r with engine := e, kept := Function.update r.kept pc K.fresh, memory }
      r.store K pc locals.stackStart
  | .sched routine memory locals => do
      let r := { r with memory }
      let outcome ← r.sched K routine locals
      outcome.resume (.ok r)
  | .ret memory locals idleFrames =>
      match r.engine.curRoutine with
      | none => .error .nullDeref
      | some pc => do
          let (next, e) ← r.engine.complete pc
          let r := { r with engine := e, memory }
          match next with
          | none => r.idle K locals idleFrames
          | some routine => do
              let outcome ← r.sched K (some routine) locals
              outcome.resume (r.idle K locals idleFrames)

/-- `start(main)`: `run` stores the stack of the main coroutine, `start` that of `idle_ctx`. -/
def start (memory : Bytes) (locals : Locals) (idleMemory : Bytes) (idleStart : ℕ) :
    Except Fault (Running σ) := do
  let (pc, e) ← (Engine.empty : Engine Unit).run ()
  let r : Running σ := { engine := e, kept := fun _ ↦ K.fresh, idleCtx := K.fresh, memory }
  let r ← r.store K pc locals.stackStart
  let idleCtx ← orFault (K.store K.fresh idleStart idleMemory)
  let r := { r with idleCtx, memory := idleMemory }
  let outcome ← r.sched K (some pc) locals
  outcome.resume (.ok r)

def execAll : Running σ → List Move → Except Fault (Running σ)
  | r, [] => .ok r
  | r, move :: moves => do execAll (← r.exec K move) moves

def current (r : Running σ) : σ :=
  match r.engine.curRoutine with
  | some c => r.kept c
  | none => r.idleCtx

end Running

end CppMtHw.Coroutines
