import CppMtHw.Coroutines.Context
import CppMtHw.Machine.Transition

/-!
# The plain engine

`sched` of `hw-coroutines/src/engine.cpp` and the steps of a program of coroutines
under it. The loops of `sched` walk along pointers without changing anything, so a
walk longer than the number of contexts ever created never ends.
-/

namespace CppMtHw.Coroutines

open Machine

namespace Engine

/-- The loop over `alive` that looks for a routine other than the current one. -/
def findOther {Lock : Type} (e : Engine Lock) (cur : Ctx) :
    ℕ → Option Ctx → Except Fault (Option Ctx)
  | _, none => .ok none
  | 0, some _ => .error .endless
  | fuel + 1, some p =>
      if p ≠ cur then .ok (some p) else do findOther e cur fuel (← e.get p).next

def lastCallee {Lock : Type} (e : Engine Lock) : ℕ → Ctx → Except Fault Ctx
  | 0, routine => do
      match (← e.get routine).callee with
      | none => .ok routine
      | some _ => .error .endless
  | fuel + 1, routine => do
      match (← e.get routine).callee with
      | none => .ok routine
      | some callee => lastCallee e fuel callee

/-- The end of `sched`, once a routine has been chosen. -/
def switchTo (e : Engine Unit) (routine : Ctx) : Except Fault (Sched (Engine Unit)) :=
  match e.context routine with
  | none => .error (.resumed routine)
  | some x => do
      let e ← match x.callee with
        | some callee =>
            if e.curRoutine = some callee then do
              let e ← e.modify callee fun y ↦ { y with caller := none }
              e.modify routine fun y ↦ { y with callee := none }
            else .ok e
        | none => .ok e
      let target ← e.lastCallee e.created routine
      let e' ← e.modify target fun y ↦ { y with caller := e.curRoutine }
      .ok (.switched { e' with curRoutine := some target })

def sched (e : Engine Unit) (routine : Option Ctx) : Except Fault (Sched (Engine Unit)) :=
  match routine, e.curRoutine with
  | some routine, _ => e.switchTo routine
  | none, none =>
      match e.alive with
      | none => .ok .returned
      | some routine => e.switchTo routine
  | none, some cur => do
      match (← e.get cur).caller with
      | some routine => e.switchTo routine
      | none =>
          match ← e.findOther cur e.created e.alive with
          | some routine => e.switchTo routine
          | none => e.switchTo cur

/-- What the running coroutine may do: `run` another one, `yield`, `sched` one by its handle, or
return from its body. -/
inductive Action
  | run
  | yield
  | sched (routine : Ctx)
  | ret
  deriving DecidableEq

/-- The branch of `start` that `idle_ctx` leads back to; after it `start` returns. -/
def idle (e : Engine Unit) : Except Fault (Engine Unit) := do
  match ← e.sched none with
  | .returned => .ok e
  | .switched e' => .ok e'

/-- One action of the running coroutine, up to the point where a coroutine runs again or `start`
has returned. -/
def exec (e : Engine Unit) : Action → Except Fault (Engine Unit)
  | .run => do
      let (_, e') ← e.run ()
      .ok e'
  | .yield => do
      match ← e.sched none with
      | .returned => .ok e
      | .switched e' => .ok e'
  | .sched routine => do
      match ← e.sched (some routine) with
      | .returned => .ok e
      | .switched e' => .ok e'
  | .ret =>
      match e.curRoutine with
      | none => .error .nullDeref
      | some pc => do
          let (next, e') ← e.complete pc
          match next with
          | none => e'.idle
          | some routine =>
              match ← e'.sched (some routine) with
              | .returned => e'.idle
              | .switched e'' => .ok e''

def start : Except Fault (Engine Unit) := do
  let (pc, e) ← (empty : Engine Unit).run ()
  match ← e.sched (some pc) with
  | .returned => .ok e
  | .switched e' => .ok e'

def execAll : Engine Unit → List Action → Except Fault (Engine Unit)
  | e, [] => .ok e
  | e, act :: acts => do execAll (← e.exec act) acts

/-- Some coroutine is running, and a handle passed to `sched` belongs to a coroutine that is
registered and not yet completed. -/
def Allowed (e : Engine Unit) : Action → Prop
  | .sched routine => e.curRoutine ≠ none ∧ e.context routine ≠ none
  | _ => e.curRoutine ≠ none

def AllowedAll : Engine Unit → List Action → Prop
  | _, [] => True
  | e, act :: acts => e.Allowed act ∧
      match e.exec act with
      | .ok e' => AllowedAll e' acts
      | .error _ => True

end Engine

end CppMtHw.Coroutines
