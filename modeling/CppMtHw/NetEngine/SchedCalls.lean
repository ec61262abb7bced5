import CppMtHw.NetEngine.Wakeup

/-!
# The calls of `sched`

Where a program enters `sched`, and how such a call ends. The running context and its
caller are registered whenever control is not lost, so `sched` follows no pointer to a
deleted context unless it is handed one. What is left are the outcomes of its search:
there is no coroutine, there is one to pass control to, or there is none while a
coroutine is running or while none is.
-/

namespace CppMtHw.NetEngine

open Machine Coroutines

variable {e e' : Engine LockedState} {l : List Ctx} {c target : Ctx} {x : Context LockedState}
  {reason : LockedState}

/-- The running context and its caller are registered, and the links are in order. -/
structure Steady (e : Engine LockedState) (l : List Ctx) : Prop where
  listed : e.Listed l
  flat : Flat e
  current : ∀ c, e.curRoutine = some c → e.context c ≠ none
  caller : ∀ c r, e.curRoutine = some c → (e.context c).bind Context.caller = some r →
    e.context r ≠ none

theorem steady_empty : Steady Engine.empty [] where
  listed := Engine.listed_empty
  flat _ := rfl
  current _ hc := by cases hc
  caller _ _ hc := by cases hc

/-- Assignments that leave the running context and the callers alone. -/
theorem Steady.congr (h : Steady e l) (hlisted : e'.Listed l) (hflat : Flat e')
    (hcur : e'.curRoutine = e.curRoutine)
    (hcaller : ∀ c, (e'.context c).bind Context.caller = (e.context c).bind Context.caller) :
    Steady e' l where
  listed := hlisted
  flat := hflat
  current c hc := (hlisted.mem c).mp ((h.listed.mem c).mpr (h.current c (hcur ▸ hc)))
  caller c r hc hr := by
    rw [hcaller] at hr
    exact (hlisted.mem r).mp ((h.listed.mem r).mpr (h.caller c r (hcur ▸ hc) hr))

theorem Steady.unlocked (h : Steady e l) {cs : List Ctx} : Steady (unlocked e reason cs) l :=
  h.congr (listed_unlocked h.listed) (flat_unlocked h.flat) rfl fun _ ↦ unlocked_bind fun _ ↦ rfl

theorem Steady.locked (h : Steady e l) :
    Steady (e.mapAt (some target) fun x ↦ { x with locked := reason }) l :=
  h.congr (h.listed.mapAt _ _ (fun _ ↦ rfl) fun _ ↦ rfl) (flat_mapAt h.flat fun _ hx ↦ hx) rfl
    fun _ ↦ Engine.mapAt_bind fun _ ↦ rfl

/-- The context that gets control is called by the one that had it. -/
theorem Steady.resumed (h : Steady e l) (htarget : e.context target ≠ none) :
    Steady (resumed e target) l where
  listed := listed_resumed h.listed
  flat := flat_resumed h.flat
  current c hc := by
    rw [← Option.some.inj hc]
    exact Engine.mapAt_context_ne_none.mpr htarget
  caller c r hc hr := by
    obtain ⟨x, hx⟩ := Option.ne_none_iff_exists'.mp htarget
    rw [← Option.some.inj hc] at hr
    simp only [NetEngine.resumed, Engine.mapAt, if_true, hx, Option.map_some, Option.bind_some]
      at hr
    exact Engine.mapAt_context_ne_none.mpr (h.current r hr)

theorem Steady.registered (h : Steady e l) : Steady (e.registered .notLocked) (e.created :: l) := by
  have hlisted := h.listed.registered .notLocked
  have hsome : ∀ c, e.context c ≠ none → (e.registered .notLocked).context c ≠ none := fun c hc ↦
    (hlisted.mem c).mp (List.mem_cons_of_mem _ ((h.listed.mem c).mpr hc))
  refine ⟨hlisted, flat_registered h.flat, fun c hc ↦ hsome c (h.current c hc),
    fun c r hc hr ↦ hsome r (h.caller c r hc ?_)⟩
  have hne : c ≠ e.created := fun heq ↦ h.current c hc (heq ▸ h.listed.fresh)
  simp only [Engine.registered, if_neg hne] at hr
  split at hr
  · cases hx : e.context c with
    | none => rw [hx] at hr; cases hr
    | some x => rw [hx] at hr; exact hr
  · exact hr

theorem Steady.completed {pc : Ctx} (h : Steady e l) (hx : e.context pc = some x) :
    Steady (e.completed pc x) (l.erase pc) :=
  ⟨h.listed.completed_erase hx, flat_completed h.flat, nofun, nofun⟩

/-! ## How a call ends -/

theorem requested_eq (h : Flat e) {routine : Option Ctx}
    (hroutine : ∀ r, routine = some r → e.context r ≠ none) :
    requested e routine = .ok (routine.filter fun r ↦ lockOf e r = some .notLocked) := by
  cases routine with
  | none => rfl
  | some r =>
      obtain ⟨x, hx⟩ := Option.ne_none_iff_exists'.mp (hroutine r rfl)
      have hlock : lockOf e r = some x.locked := lockOf_eq_some.mpr ⟨x, hx, rfl⟩
      simp only [requested, Engine.get_eq hx, ok_bind, freeCallee_eq h hx, if_true,
        Option.filter_some, hlock, Option.some.injEq, decide_eq_true_eq]
      split <;> rfl

theorem unlockedCaller_eq (hx : e.context c = some x)
    (hcaller : ∀ r, x.caller = some r → e.context r ≠ none) :
    unlockedCaller e c = .ok (x.caller.filter fun r ↦ lockOf e r = some .notLocked) := by
  cases hr : x.caller with
  | none => simp only [unlockedCaller, Engine.get_eq hx, ok_bind, hr, Option.filter_none]
  | some r =>
      obtain ⟨y, hy⟩ := Option.ne_none_iff_exists'.mp (hcaller r hr)
      have hlock : lockOf e r = some y.locked := lockOf_eq_some.mpr ⟨y, hy, rfl⟩
      simp only [unlockedCaller, Engine.get_eq hx, ok_bind, hr, Engine.get_eq hy,
        Option.filter_some, hlock, Option.some.injEq, decide_eq_true_eq]
      split <;> rfl

/-- The ends of a call of `sched` whose argument is null or registered. -/
theorem Steady.sched_cases (h : Steady e l) {routine : Option Ctx}
    (hroutine : ∀ r, routine = some r → e.context r ≠ none) :
    (sched e routine = .ok .returned ∧ l = []) ∨
    (∃ target, lockOf e target = some .notLocked ∧
      sched e routine = .ok (.switched (NetEngine.resumed e target))) ∨
    (sched e routine = .ok .deadLock ∧ e.curRoutine ≠ none ∧
      ∀ c ∈ l, lockOf e c ≠ some .notLocked) ∨
    (sched e routine = .error .nullDeref ∧ e.curRoutine = none ∧ l ≠ [] ∧
      ∀ c ∈ l, lockOf e c ≠ some .notLocked) := by
  have hsearch : ∀ skip, findUnlocked e skip e.created e.alive =
      .ok (l.find? fun c ↦ skip ≠ some c ∧ lockOf e c = some .notLocked) :=
    findUnlocked_alive h.listed
  have hrequest := requested_eq h.flat hroutine
  cases hchoice : routine.filter fun r ↦ lockOf e r = some .notLocked with
  | some target =>
      have hfree : lockOf e target = some .notLocked :=
        of_decide_eq_true (Option.filter_eq_some_iff.mp hchoice).2
      have hswitch := switchTo_of_free h.flat hfree
      refine Or.inr (Or.inl ⟨target, hfree, ?_⟩)
      simp only [sched, hrequest, hchoice, ok_bind, hswitch]
  | none =>
      cases hcur : e.curRoutine with
      | none =>
          cases halive : e.alive with
          | none =>
              have hnil : l = [] := by
                have hchain := h.listed.chain
                cases l with
                | nil => rfl
                | cons a as => rw [chain_cons, halive] at hchain; cases hchain.1
              refine Or.inl ⟨?_, hnil⟩
              simp only [sched, hrequest, hchoice, ok_bind, hcur, halive]
          | some first =>
              rw [halive] at hsearch
              cases hfind : l.find? fun c ↦ (none : Option Ctx) ≠ some c ∧
                lockOf e c = some .notLocked with
              | some target =>
                  have hfree := free_of_find hfind
                  refine Or.inr (Or.inl ⟨target, hfree, ?_⟩)
                  simp only [sched, hrequest, hchoice, ok_bind, hcur, halive, hsearch, hfind,
                    switchTo_of_free h.flat hfree]
              | none =>
                  refine Or.inr
                    (Or.inr (Or.inr ⟨?_, rfl, List.ne_nil_of_mem (h.listed.alive_mem halive), ?_⟩))
                  · simp only [sched, hrequest, hchoice, ok_bind, hcur, halive, hsearch, hfind]
                  · exact fun c hc ↦ locked_of_find hfind hc (by simp)
      | some cur =>
          obtain ⟨x, hx⟩ := Option.ne_none_iff_exists'.mp (h.current cur hcur)
          have hcaller := unlockedCaller_eq hx fun r hr ↦ h.caller cur r hcur (by rw [hx]; exact hr)
          cases hback : x.caller.filter fun r ↦ lockOf e r = some .notLocked with
          | some target =>
              have hfree : lockOf e target = some .notLocked :=
                of_decide_eq_true (Option.filter_eq_some_iff.mp hback).2
              refine Or.inr (Or.inl ⟨target, hfree, ?_⟩)
              simp only [sched, hrequest, hchoice, ok_bind, hcur, hcaller, hback,
                switchTo_of_free h.flat hfree]
          | none =>
              cases hfind : l.find? fun c ↦ some cur ≠ some c ∧ lockOf e c = some .notLocked with
              | some target =>
                  have hfree := free_of_find hfind
                  refine Or.inr (Or.inl ⟨target, hfree, ?_⟩)
                  simp only [sched, hrequest, hchoice, ok_bind, hcur, hcaller, hback, hsearch,
                    hfind, switchTo_of_free h.flat hfree]
              | none =>
                  have hlock : lockOf e cur = some x.locked := lockOf_eq_some.mpr ⟨x, hx, rfl⟩
                  by_cases hself : x.locked = .notLocked
                  · rw [hself] at hlock
                    refine Or.inr (Or.inl ⟨cur, hlock, ?_⟩)
                    simp only [sched, hrequest, hchoice, ok_bind, hcur, hcaller, hback, hsearch,
                      hfind, Engine.get_eq hx, if_pos hself, switchTo_of_free h.flat hlock]
                  · refine Or.inr (Or.inr (Or.inl ⟨?_, by simp, fun c hc hfree ↦ ?_⟩))
                    · simp only [sched, hrequest, hchoice, ok_bind, hcur, hcaller, hback, hsearch,
                        hfind, Engine.get_eq hx, if_neg hself]
                    · have hne : some cur ≠ some c := by
                        intro heq
                        rw [← Option.some.inj heq, hlock] at hfree
                        exact hself (Option.some.inj hfree)
                      exact locked_of_find hfind hc hne hfree

/-- A deleted context is read at once. -/
theorem sched_deleted (hc : e.context c = none) : sched e (some c) = .error (.deleted c) := by
  simp only [sched, requested, Engine.get, hc, bind, Except.bind]

/-! ## Where `sched` is called -/

namespace World

variable {w w' : World} {d : ℤ} {ref written nbytes : ℕ} {data : List UInt8} {events : List Event}
  {p : Point} {routine : Option Ctx}

/-- The context is at the loop of `send_channel`: at the beginning of a call or after a wait. -/
def Sending (w : World) (c : Ctx) (d : ℤ) (ref : ℕ) (data : List UInt8) (written : ℕ) : Prop :=
  (w.point c = .body ∧ (∃ channel, w.nodeAt d = some { ref, channel }) ∧ written = 0) ∨
    w.point c = .send d ref data written

def Receiving (w : World) (c : Ctx) (d : ℤ) (ref nbytes : ℕ) (data : List UInt8) : Prop :=
  (w.point c = .body ∧ (∃ channel, w.nodeAt d = some { ref, channel }) ∧ data = []) ∨
    w.point c = .recv d ref nbytes data

/-- The calls of `sched` in an action of the running context `c`, with the engine they are made in:
in `yield` and `sched`, after a transfer that was cut short, and after a completion, where the
caller is scheduled first and the idle context yields if there is none or it does not take over. -/
inductive Enters (w : World) (c : Ctx) : Engine LockedState → Option Ctx → Prop
  | yield (hallowed : w.Allowed c .yield) : Enters w c w.engine none
  | sched {routine : Ctx} (hallowed : w.Allowed c (.sched routine)) :
      Enters w c w.engine (some routine)
  | send {d : ℤ} {ref : ℕ} {data : List UInt8} {written nwrite : ℕ} {channel channel' : Channel}
      {w₁ : World} (hsending : w.Sending c d ref data written) (hmore : written ≠ data.length)
      (hnode : w.nodeAt d = some { ref, channel })
      (hwrite : channel.write (data.drop written) = some (nwrite, channel'))
      (hcut : written + nwrite ≠ data.length)
      (hlock : (w.transferred d { ref, channel := channel' } .lockedRead).lock d c
        .lockedWrite = .ok w₁) :
      Enters w c w₁.engine none
  | recv {d : ℤ} {ref nbytes : ℕ} {data : List UInt8} {nread : ℕ} {bytes : List UInt8}
      {channel channel' : Channel} {w₁ : World}
      (hreceiving : w.Receiving c d ref nbytes data) (hmore : data.length ≠ nbytes)
      (hnode : w.nodeAt d = some { ref, channel })
      (hread : channel.read (usub nbytes data.length) = some (nread, bytes, channel'))
      (hcut : (data ++ bytes.take nread).length ≠ nbytes)
      (hlock : (w.transferred d { ref, channel := channel' } .lockedWrite).lock d c
        .lockedRead = .ok w₁) :
      Enters w c w₁.engine none
  | complete {caller : Ctx} {e : Engine LockedState} (hallowed : w.Allowed c .ret)
      (hcomplete : w.engine.complete c = .ok (some caller, e)) : Enters w c e (some caller)
  | idle {caller : Option Ctx} {e : Engine LockedState} (hallowed : w.Allowed c .ret)
      (hcomplete : w.engine.complete c = .ok (caller, e))
      (hidle : caller = none ∨ NetEngine.sched e caller = .ok .returned) : Enters w c e none

theorem schedule_steady (h : Steady w.engine l) (hok : w.schedule routine = .ok w') :
    Steady w'.engine l := by
  rcases schedule_ok hok with ⟨-, rfl⟩ | ⟨e, hsched, rfl⟩ | ⟨-, rfl⟩
  · exact h
  · rcases sched_ok h.listed h.flat hsched with ⟨heq, -⟩ | ⟨target, hfree, heq⟩ | ⟨heq, -⟩
    · cases heq
    · cases heq
      exact h.resumed (lockOf_ne_none hfree)
    · cases heq
  · exact h

theorem lock_steady (h : Steady w.engine l) (hlock : w.lock d c reason = .ok w') :
    Steady w'.engine l := by
  obtain ⟨-, heq, -⟩ := lock_ok hlock
  rw [heq]
  exact h.locked

theorem Suspended.steady (hsuspended : w.Suspended c d reason p w') (h : Steady w.engine l) :
    Steady w'.engine l := by
  obtain ⟨w₁, hlock, hschedule⟩ := hsuspended
  have hlocked := lock_steady h hlock
  exact schedule_steady (show Steady (w₁.at_ c p).engine l from hlocked) hschedule

theorem complete_steady (h : Steady w.engine l) (hcur : w.engine.curRoutine = some c)
    (hok : w.complete c = .ok w') : Steady w'.engine (l.erase c) := by
  obtain ⟨next, e, hcomplete, hrest⟩ := complete_ok hok
  obtain ⟨x, hx, rfl⟩ := complete_eq_completed h.listed hcur hcomplete
  have h' := h.completed hx
  rcases hrest with hidle | ⟨routine, -, ⟨e', hsched, rfl⟩ | ⟨-, rfl⟩⟩
  · have hcompleted : Steady { w with engine := w.engine.completed c x }.engine (l.erase c) := h'
    exact schedule_steady hcompleted hidle
  · rcases sched_ok h'.listed h'.flat hsched with ⟨heq, -⟩ | ⟨target, hfree, heq⟩ | ⟨heq, -⟩
    · cases heq
    · cases heq
      exact h'.resumed (lockOf_ne_none hfree)
    · cases heq
  · exact h'

theorem Passes.steady {woken own : LockedState} (hpasses : w.Passes c d ref woken own w')
    (h : Steady w.engine l) : Steady w'.engine l := by
  cases hpasses with
  | done => exact h
  | last => exact h.unlocked
  | wait _ _ _ hsuspended => exact hsuspended.steady h.unlocked

def registeredAfter (w : World) (c : Ctx) (l : List Ctx) : Action → List Ctx
  | .run => w.engine.created :: l
  | .ret => l.erase c
  | _ => l

theorem exec_steady (h : Steady w.engine l) (hcur : w.engine.curRoutine = some c) {act : Action}
    (hexec : w.exec c act = .ok (events, w')) : Steady w'.engine (w.registeredAfter c l act) := by
  cases act with
  | run =>
      obtain ⟨⟨pc, e⟩, hrun, hw'⟩ := ok_of_bind hexec
      rw [h.listed.run_eq] at hrun
      obtain ⟨-, rfl⟩ := Prod.mk.inj (Except.ok.inj hrun)
      obtain ⟨-, rfl⟩ := Prod.mk.inj (Except.ok.inj hw')
      exact h.registered
  | yield | sched =>
      obtain ⟨w₁, hschedule, hw'⟩ := ok_of_bind hexec
      obtain ⟨-, rfl⟩ := Prod.mk.inj (Except.ok.inj hw')
      exact schedule_steady h hschedule
  | create fresh =>
      obtain ⟨-, rfl⟩ := Prod.mk.inj (Except.ok.inj hexec)
      rw [newChannel_engine]
      exact h
  | createAt d fresh =>
      simp only [exec] at hexec
      split at hexec
      · obtain ⟨-, rfl⟩ := Prod.mk.inj (Except.ok.inj hexec)
        rw [newChannel_engine]
        exact h
      · obtain ⟨-, rfl⟩ := Prod.mk.inj (Except.ok.inj hexec)
        exact h
  | close d =>
      simp only [exec] at hexec
      split at hexec
      · obtain ⟨-, rfl⟩ := Prod.mk.inj (Except.ok.inj hexec)
        exact h
      · obtain ⟨-, rfl⟩ := Prod.mk.inj (Except.ok.inj hexec)
        exact h
  | send d data =>
      rcases exec_send_ok hexec with ⟨-, -, rfl⟩ | ⟨node, later, -, -, hloop⟩
      · exact h
      · exact (sendLoop_passes hloop).steady h
  | recv d nbytes =>
      rcases exec_recv_ok hexec with ⟨-, -, rfl⟩ | ⟨node, later, -, -, hloop⟩
      · exact h
      · exact (recvLoop_passes hloop).steady h
  | ret =>
      obtain ⟨w₁, hcomplete, hw'⟩ := ok_of_bind hexec
      obtain ⟨-, rfl⟩ := Prod.mk.inj (Except.ok.inj hw')
      exact complete_steady h hcur hcomplete
  | resume =>
      rcases exec_resume_ok hexec with ⟨-, -, rfl⟩ | ⟨d, ref, data, written, -, hloop⟩ |
        ⟨d, ref, nbytes, data, -, hloop⟩
      · exact h
      · exact (sendLoop_passes hloop).steady h
      · exact (recvLoop_passes hloop).steady h

theorem start_steady (h : start = .ok w) : ∃ l, Steady w.engine l := by
  obtain ⟨⟨pc, e⟩, hrun, h⟩ := ok_of_bind h
  rw [Engine.listed_empty.run_eq] at hrun
  obtain ⟨-, rfl⟩ := Prod.mk.inj (Except.ok.inj hrun)
  have hregistered : Steady
      { initial with engine := Engine.empty.registered .notLocked }.engine [0] :=
    steady_empty.registered
  exact ⟨_, schedule_steady hregistered h⟩

theorem Reaches.steady {history : List Event} (h : Reaches w history) : ∃ l, Steady w.engine l := by
  obtain ⟨w₀, labels, hstart, hrun, -⟩ := h
  refine hrun.invariant (P := fun w ↦ ∃ l, Steady w.engine l) (start_steady hstart) ?_
  rintro w events w' ⟨l, hw⟩ hstep
  cases hstep with
  | exec c act hcur _ _ hexec => exact ⟨_, exec_steady hw hcur hexec⟩

/-- The engine in which `sched` is called is in order. -/
theorem Enters.steady (henters : w.Enters c e routine) (h : Steady w.engine l)
    (hcur : w.engine.curRoutine = some c) : ∃ l', Steady e l' := by
  cases henters with
  | yield => exact ⟨l, h⟩
  | sched => exact ⟨l, h⟩
  | send _ _ _ _ _ hlock => exact ⟨l, lock_steady h.unlocked hlock⟩
  | recv _ _ _ _ _ hlock => exact ⟨l, lock_steady h.unlocked hlock⟩
  | complete _ hcomplete | idle _ hcomplete =>
      obtain ⟨x, hx, rfl⟩ := complete_eq_completed h.listed hcur hcomplete
      exact ⟨_, h.completed hx⟩

end World

end CppMtHw.NetEngine
