import CppMtHw.Coroutines.Context

/-!
# The scheduler of the net engine

`sched` of `hw-net-engine/src/engine.cpp`: the plain engine's choice of a routine,
restricted to contexts that are not locked. A choice that ends with no routine at
all is the dead lock diagnostic when a coroutine is running, and a null pointer that
is followed when none is.
-/

namespace CppMtHw.NetEngine

open Coroutines

inductive LockedState
  | notLocked
  | lockedWrite
  | lockedRead
  deriving DecidableEq

/-- How a call of `sched` ends: it returns, control passes to another context, or the process exits
with the dead lock message. -/
inductive Outcome
  | returned
  | switched (e : Engine LockedState)
  | deadLock

/-- The loop that follows `callee` as long as it is not locked. -/
def freeCallee (e : Engine LockedState) : ℕ → Ctx → Except Fault Ctx
  | 0, routine => do
      match (← e.get routine).callee with
      | none => .ok routine
      | some callee =>
          if (← e.get callee).locked = .notLocked then .error .endless else .ok routine
  | fuel + 1, routine => do
      match (← e.get routine).callee with
      | none => .ok routine
      | some callee =>
          if (← e.get callee).locked = .notLocked then freeCallee e fuel callee else .ok routine

/-- The loop over `alive` that looks for a routine that is not locked, other than `skip`. -/
def findUnlocked (e : Engine LockedState) (skip : Option Ctx) :
    ℕ → Option Ctx → Except Fault (Option Ctx)
  | _, none => .ok none
  | 0, some _ => .error .endless
  | fuel + 1, some p => do
      let x ← e.get p
      if skip ≠ some p ∧ x.locked = .notLocked then .ok (some p)
      else findUnlocked e skip fuel x.next

/-- The routine asked for, unless it and its chain of callees are locked. -/
def requested (e : Engine LockedState) : Option Ctx → Except Fault (Option Ctx)
  | none => .ok none
  | some routine => do
      if (← e.get routine).locked = .notLocked then .ok (some routine)
      else do
        let p ← freeCallee e e.created routine
        .ok (if p = routine then none else some routine)

/-- The caller of the current routine, unless there is none or it is locked. -/
def unlockedCaller (e : Engine LockedState) (cur : Ctx) : Except Fault (Option Ctx) := do
  match (← e.get cur).caller with
  | none => .ok none
  | some caller => do
      if (← e.get caller).locked = .notLocked then .ok (some caller) else .ok none

def switchTo (e : Engine LockedState) (routine : Ctx) : Except Fault Outcome :=
  match e.context routine with
  | none => .error (.resumed routine)
  | some x => do
      let e ← match x.callee with
        | some callee =>
            if e.curRoutine = some callee then do
              let e ← e.modify callee fun y ↦ { y with caller := none }
              e.modify routine fun y ↦ { y with callee := none }
            else .ok e
        | none => .ok e
      let target ← freeCallee e e.created routine
      let e' ← e.modify target fun y ↦ { y with caller := e.curRoutine }
      .ok (.switched { e' with curRoutine := some target })

def sched (e : Engine LockedState) (routine : Option Ctx) : Except Fault Outcome := do
  match ← requested e routine, e.curRoutine with
  | some routine, _ => switchTo e routine
  | none, none =>
      match e.alive with
      | none => .ok .returned
      | some _ =>
          match ← findUnlocked e none e.created e.alive with
          | some routine => switchTo e routine
          | none => .error .nullDeref
  | none, some cur =>
      match ← unlockedCaller e cur with
      | some routine => switchTo e routine
      | none =>
          match ← findUnlocked e (some cur) e.created e.alive with
          | some routine => switchTo e routine
          | none =>
              if (← e.get cur).locked = .notLocked then switchTo e cur else .ok .deadLock

end CppMtHw.NetEngine
