import Mathlib.Logic.Function.Basic
import CppMtHw.Machine.LinkedList

/-!
# Coroutine contexts and their registration

The part of `coroutine/engine.h` that is the same in `hw-coroutines` and
`hw-net-engine`: the `context` record, registration by `run`, and the clean-up at
the end of a coroutine's body. The net engine's contexts carry a lock state, the
plain engine's none, so contexts are generic in it. A context is named by the number
of contexts created before it, and a deleted context stays deleted: following a
pointer to one is a `Fault`. The saved stacks and registers are not represented,
as a transfer of control is described by the context it goes to.
-/

namespace CppMtHw.Coroutines

abbrev Ctx := ℕ

/-- `struct context`, less its saved stack and registers. -/
structure Context (Lock : Type) where
  caller : Option Ctx
  callee : Option Ctx
  prev : Option Ctx
  next : Option Ctx
  locked : Lock

structure Engine (Lock : Type) where
  context : Ctx → Option (Context Lock)
  created : ℕ
  curRoutine : Option Ctx
  alive : Option Ctx

/-- Why a step has no result: a field of a deleted context is read or written, control would pass
to a deleted context, a null pointer is followed, or a loop goes round for ever. In the net engine
also: a channel is used after its removal from the map, or a copy leaves a channel's buffer. -/
inductive Fault
  | deleted (c : Ctx)
  | resumed (c : Ctx)
  | nullDeref
  | endless
  | erasedChannel
  | outOfBounds
  deriving DecidableEq

/-- How a call of `sched` ends: it returns to its caller, or control passes to another context. -/
inductive Sched (E : Type)
  | returned
  | switched (e : E)

variable {Lock : Type}

namespace Engine

def empty : Engine Lock where
  context _ := none
  created := 0
  curRoutine := none
  alive := none

def get (e : Engine Lock) (c : Ctx) : Except Fault (Context Lock) :=
  match e.context c with
  | some x => .ok x
  | none => .error (.deleted c)

def put (e : Engine Lock) (c : Ctx) (x : Context Lock) : Engine Lock :=
  { e with context := Function.update e.context c (some x) }

def modify (e : Engine Lock) (c : Ctx) (f : Context Lock → Context Lock) :
    Except Fault (Engine Lock) := do
  let x ← e.get c
  .ok (e.put c (f x))

/-- The same through a pointer that may be null, in which case nothing happens. -/
def modifyOpt (e : Engine Lock) (c : Option Ctx) (f : Context Lock → Context Lock) :
    Except Fault (Engine Lock) :=
  match c with
  | some c => e.modify c f
  | none => .ok e

/-- `Engine::run` up to its return: a new context at the front of the list of alive ones. -/
def run (e : Engine Lock) (unlocked : Lock) : Except Fault (Ctx × Engine Lock) := do
  let pc := e.created
  let x : Context Lock :=
    { caller := e.curRoutine, callee := none, prev := none, next := e.alive, locked := unlocked }
  let e1 := { e.put pc x with created := e.created + 1, alive := some pc }
  let e2 ← e1.modifyOpt e.alive fun y ↦ { y with prev := some pc }
  .ok (pc, e2)

/-- The end of a coroutine's body in `Engine::run`, up to the deletion of its context; the first
component is the context that is scheduled next. -/
def complete (e : Engine Lock) (pc : Ctx) : Except Fault (Option Ctx × Engine Lock) := do
  let next := (← e.get pc).caller
  let x ← e.get pc
  let e ← e.modifyOpt x.prev fun y ↦ { y with next := x.next }
  let x ← e.get pc
  let e ← e.modifyOpt x.next fun y ↦ { y with prev := x.prev }
  let x ← e.get pc
  let e ← e.modifyOpt x.caller fun y ↦ { y with callee := none }
  let e ← if e.alive = e.curRoutine then
      match e.alive with
      | some a => do .ok { e with alive := (← e.get a).next }
      | none => .error .nullDeref
    else .ok e
  .ok (next, { e with curRoutine := none, context := Function.update e.context pc none })

end Engine

end CppMtHw.Coroutines
