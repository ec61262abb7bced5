import CppMtHw.NetEngine.SchedCalls

/-!
# Dead locks and blocked coroutines

The outcomes of the calls of `sched` that programs make. A context that gets control is
never locked, so a coroutine that waits for a channel goes on only after `unlock_all`.
With a coroutine running, `sched` tells a dead lock; after a completion it does not: if
the coroutines that are left are all locked, it goes on with a null pointer.
-/

namespace CppMtHw.NetEngine

open Machine Coroutines World

variable {e e' : Engine LockedState} {routine : Option Ctx} {c : Ctx} {reason : LockedState}
  {w w' : World} {history events : List Event} {l : List Ctx}

/-- `sched` is called so by some program: by `start`, or by an action in a world that it reaches. -/
inductive SchedCall : Engine LockedState → Option Ctx → Prop
  | start {pc : Ctx} {e : Engine LockedState} (hrun : Engine.empty.run .notLocked = .ok (pc, e)) :
      SchedCall e (some pc)
  | action {w : World} {history : List Event} {c : Ctx} {e : Engine LockedState}
      {routine : Option Ctx}
      (hreaches : Reaches w history) (hcur : w.engine.curRoutine = some c)
      (hexited : w.exited = false) (henters : w.Enters c e routine) : SchedCall e routine

/-- The call returns as there is no coroutine, passes control to a registered context, or ends in
the dead lock message with every registered context locked. -/
def Diagnosed (e : Engine LockedState) (routine : Option Ctx) : Prop :=
  (sched e routine = .ok .returned ∧ ∀ c, e.context c = none) ∨
  (∃ e' target, sched e routine = .ok (.switched e') ∧ e'.curRoutine = some target ∧
    e.context target ≠ none) ∨
  (sched e routine = .ok .deadLock ∧ ∀ c, e.context c ≠ none → lockOf e c ≠ some .notLocked)

theorem not_diagnosed {fault : Fault} (hsched : sched e routine = .error fault) :
    ¬Diagnosed e routine := by
  rintro (⟨hok, -⟩ | ⟨_, _, hok, -⟩ | ⟨hok, -⟩) <;> rw [hsched] at hok <;> cases hok

theorem SchedCall.steady (h : SchedCall e routine) : ∃ l, Steady e l := by
  cases h with
  | start hrun =>
      rw [Engine.listed_empty.run_eq] at hrun
      obtain ⟨-, rfl⟩ := Prod.mk.inj (Except.ok.inj hrun)
      exact ⟨_, steady_empty.registered⟩
  | action hreaches hcur _ henters =>
      obtain ⟨l, hl⟩ := hreaches.steady
      exact henters.steady hl hcur

/-- Every call of `sched` is diagnosed if and only if it is not handed the context that has just
been deleted and, with no coroutine running, there is none or one of them is not locked. -/
theorem deadlock_diagnosed_iff (h : SchedCall e routine) :
    Diagnosed e routine ↔ (∀ r, routine = some r → e.context r ≠ none) ∧
      (e.curRoutine = none → (∃ c, e.context c ≠ none) → ∃ c, lockOf e c = some .notLocked) := by
  obtain ⟨l, hl⟩ := h.steady
  by_cases hroutine : ∀ r, routine = some r → e.context r ≠ none
  · rw [and_iff_right hroutine]
    rcases hl.sched_cases hroutine with
      ⟨hsched, hnil⟩ | ⟨target, hfree, hsched⟩ | ⟨hsched, hcur, hlocked⟩ |
        ⟨hsched, hcur, hne, hlocked⟩
    · have hnone : ∀ c, e.context c = none := by
        intro c
        by_contra hc
        have hmem := (hl.listed.mem c).mpr hc
        rw [hnil] at hmem
        exact List.not_mem_nil hmem
      exact iff_of_true (Or.inl ⟨hsched, hnone⟩) fun _ ⟨c, hc⟩ ↦ absurd (hnone c) hc
    · exact iff_of_true (Or.inr (Or.inl ⟨_, target, hsched, rfl, lockOf_ne_none hfree⟩)) fun _ _ ↦
        ⟨target, hfree⟩
    · refine iff_of_true (Or.inr (Or.inr ⟨hsched, fun c hc ↦ ?_⟩)) fun hidle ↦ absurd hidle hcur
      exact hlocked c ((hl.listed.mem c).mpr hc)
    · -- all that are left are locked, and nobody is running
      apply iff_of_false (not_diagnosed hsched)
      intro hcond
      obtain ⟨c, hc⟩ := List.exists_mem_of_ne_nil l hne
      obtain ⟨c', hfree⟩ := hcond hcur ⟨c, (hl.listed.mem c).mp hc⟩
      exact hlocked c' ((hl.listed.mem c').mpr (lockOf_ne_none hfree)) hfree
  · refine iff_of_false ?_ fun hcond ↦ hroutine hcond.1
    push Not at hroutine
    obtain ⟨r, rfl, hr⟩ := hroutine
    exact not_diagnosed (sched_deleted hr)

/-- A coroutine returns while one waits for an empty channel: control passes to the main
coroutine. -/
theorem deadlock_diagnosed_completion : ∃ e routine, SchedCall e routine ∧ e.curRoutine = none ∧
    lockOf e 2 = some .lockedRead ∧ Diagnosed e routine := by
  have hplay : ((playFromStart [.create zeros, .run, .run, .yield, .recv 0 1, .yield]).bind fun r ↦
      (r.2.engine.complete 1).toOption.map fun q ↦
        (r.2.engine.curRoutine, r.2.exited, r.2.point 1, q.1,
        decide (q.2.curRoutine = none ∧ lockOf q.2 0 = some .notLocked ∧
          lockOf q.2 2 = some .lockedRead))) = some (some 1, false, .body, some 0, true) := by
    decide +kernel
  obtain ⟨⟨history, w⟩, hw, hplay⟩ := Option.bind_eq_some_iff.mp hplay
  obtain ⟨⟨next, e⟩, hcomplete, heq⟩ := Option.map_eq_some_iff.mp hplay
  simp only [Prod.mk.injEq] at heq
  obtain ⟨hcur, hexited, hpoint, rfl, hflags⟩ := heq
  obtain ⟨hidle, hmain, hreader⟩ := of_decide_eq_true hflags
  have hcall : SchedCall e (some 0) :=
    .action (reaches_of_play hw) hcur hexited (.complete hpoint (ok_of_toOption hcomplete))
  have hdiagnosed : Diagnosed e (some 0) := by
    apply (deadlock_diagnosed_iff hcall).mpr
    refine ⟨fun r hr ↦ ?_, fun _ _ ↦ ⟨0, hmain⟩⟩
    rw [← Option.some.inj hr]
    exact lockOf_ne_none hmain
  exact ⟨e, some 0, hcall, hidle, hreader, hdiagnosed⟩

/-- The main coroutine returns while the only other one waits for an empty channel. -/
theorem dead_lock_missed_after_completion :
    ∃ e routine, SchedCall e routine ∧ sched e routine = .error .nullDeref ∧
    ¬Diagnosed e routine := by
  have hplay : ((playFromStart [.create zeros, .run, .yield, .recv 0 1]).bind fun r ↦
      (r.2.engine.complete 0).toOption.map fun q ↦
        (r.2.engine.curRoutine, r.2.exited, r.2.point 0, q.1,
        match sched q.2 q.1 with
        | .error fault => some fault
        | .ok _ => none)) = some (some 0, false, .body, some 1, some .nullDeref) := by
    decide +kernel
  obtain ⟨⟨history, w⟩, hw, hplay⟩ := Option.bind_eq_some_iff.mp hplay
  obtain ⟨⟨next, e⟩, hcomplete, heq⟩ := Option.map_eq_some_iff.mp hplay
  simp only [Prod.mk.injEq] at heq
  obtain ⟨hcur, hexited, hpoint, rfl, hfault⟩ := heq
  have hok := ok_of_toOption hcomplete
  have hsched : sched e (some 1) = .error .nullDeref := by
    cases hs : sched e (some 1) with
    | error fault => rw [hs] at hfault; rw [Option.some.inj hfault]
    | ok outcome => rw [hs] at hfault; cases hfault
  exact ⟨e, some 1, .action (reaches_of_play hw) hcur hexited (.complete hpoint hok), hsched,
    not_diagnosed hsched⟩

/-! ## Null pointers in a step -/

section Errors

variable {fault : Fault} {d : ℤ} {ref written nbytes : ℕ} {data : List UInt8}

theorem get_error (h : e.get c = .error fault) : fault = .deleted c := by
  unfold Engine.get at h
  split at h
  · cases h
  · exact (Except.error.inj h).symm

theorem modify_error {f : Context LockedState → Context LockedState}
    (h : e.modify c f = .error fault) : fault = .deleted c := by
  rcases error_of_bind h with hget | ⟨x, -, hput⟩
  · exact get_error hget
  · cases hput

theorem modifyOpt_error {c : Option Ctx} {f : Context LockedState → Context LockedState}
    (h : e.modifyOpt c f = .error fault) : ∃ c', fault = .deleted c' := by
  cases c with
  | none => cases h
  | some c => exact ⟨c, modify_error h⟩

theorem schedule_error (h : w.schedule routine = .error fault) :
    sched w.engine routine = .error fault := by
  rcases error_of_bind h with hsched | ⟨outcome, -, houtcome⟩
  · exact hsched
  · cases outcome <;> cases houtcome

theorem unlockEach_error {cs : List Ctx} (h : unlockEach e reason cs = .error fault) :
    ∃ c, fault = .deleted c := by
  induction cs generalizing e with
  | nil => cases h
  | cons c cs ih =>
      rcases error_of_bind h with hget | ⟨x, -, hrest⟩
      · exact ⟨c, get_error hget⟩
      · split at hrest
        · exact ih hrest
        · exact ih hrest

theorem unlockAll_error (h : w.unlockAll d reason = .error fault) : ∃ c, fault = .deleted c := by
  unfold unlockAll at h
  split at h
  · cases h
  · exact unlockEach_error (error_of_bind_ok h)

theorem lock_error (h : w.lock d c reason = .error fault) : fault = .deleted c :=
  modify_error (error_of_bind_ok h)

theorem channelAt_error (h : w.channelAt d ref = .error fault) : fault = .erasedChannel := by
  unfold channelAt at h
  split at h
  · split at h
    · cases h
    · exact (Except.error.inj h).symm
  · exact (Except.error.inj h).symm

/-- The clean-up follows pointers that are not null. -/
theorem complete_error (hcur : e.curRoutine = some c) (h : e.complete c = .error fault) :
    ∃ c', fault = .deleted c' := by
  rcases error_of_bind h with hget | ⟨x, -, h⟩
  · exact ⟨c, get_error hget⟩
  rcases error_of_bind h with hget | ⟨x₀, -, h⟩
  · exact ⟨c, get_error hget⟩
  rcases error_of_bind h with hprev | ⟨e₁, hprev, h⟩
  · exact modifyOpt_error hprev
  rcases error_of_bind h with hget | ⟨x₁, -, h⟩
  · exact ⟨c, get_error hget⟩
  rcases error_of_bind h with hnext | ⟨e₂, hnext, h⟩
  · exact modifyOpt_error hnext
  rcases error_of_bind h with hget | ⟨x₂, -, h⟩
  · exact ⟨c, get_error hget⟩
  rcases error_of_bind h with hcaller | ⟨e₃, hcaller, h⟩
  · exact modifyOpt_error hcaller
  obtain ⟨-, rfl⟩ := modifyOpt_ok hprev
  obtain ⟨-, rfl⟩ := modifyOpt_ok hnext
  obtain ⟨-, rfl⟩ := modifyOpt_ok hcaller
  split at h
  · rename_i hhead
    split at h
    · rename_i a _
      exact ⟨a, get_error (error_of_bind_ok h)⟩
    · -- the running context is not null, so neither is `alive` if they are equal
      rename_i hnone
      rw [hnone] at hhead
      exact absurd (hhead.trans hcur) (by simp)
  · cases h

/-- A transfer that stops at a null pointer stops in `sched`. -/
theorem sendLoop_nullDeref (hsending : w.Sending c d ref data written)
    (h : w.sendLoop c d ref data written = .error .nullDeref) :
    ∃ e, w.Enters c e none ∧ sched e none = .error .nullDeref := by
  unfold sendLoop at h
  split at h
  · cases h
  rename_i hmore
  rcases error_of_bind h with hchannel | ⟨channel, hchannel, h⟩
  · cases channelAt_error hchannel
  rcases error_of_bind h with hwrite | ⟨⟨nwrite, channel'⟩, hwrite, h⟩
  · unfold World.write at hwrite
    split at hwrite <;> cases hwrite
  rcases error_of_bind h with hunlock | ⟨w₁, hunlock, h⟩
  · obtain ⟨c', hc'⟩ := unlockAll_error hunlock
    cases hc'
  have hw₁ : w₁ = w.transferred d { ref, channel := channel' } .lockedRead := unlockAll_ok hunlock
  subst hw₁
  split at h
  · rename_i hcut
    rcases error_of_bind h with hlock | ⟨w₂, hlock, h⟩
    · cases lock_error hlock
    have hsched := schedule_error (error_of_bind_ok h)
    exact ⟨w₂.engine, .send hsending hmore (channelAt_ok hchannel)
      (write_ok hwrite) hcut hlock, hsched⟩
  · cases h

theorem recvLoop_nullDeref (hreceiving : w.Receiving c d ref nbytes data)
    (h : w.recvLoop c d ref nbytes data = .error .nullDeref) :
    ∃ e, w.Enters c e none ∧ sched e none = .error .nullDeref := by
  unfold recvLoop at h
  split at h
  · cases h
  rename_i hmore
  rcases error_of_bind h with hchannel | ⟨channel, hchannel, h⟩
  · cases channelAt_error hchannel
  rcases error_of_bind h with hread | ⟨⟨nread, bytes, channel'⟩, hread, h⟩
  · unfold World.read at hread
    split at hread <;> cases hread
  rcases error_of_bind h with hunlock | ⟨w₁, hunlock, h⟩
  · obtain ⟨c', hc'⟩ := unlockAll_error hunlock
    cases hc'
  have hw₁ : w₁ = w.transferred d { ref, channel := channel' } .lockedWrite := unlockAll_ok hunlock
  subst hw₁
  split at h
  · rename_i hcut
    rcases error_of_bind h with hlock | ⟨w₂, hlock, h⟩
    · cases lock_error hlock
    have hsched := schedule_error (error_of_bind_ok h)
    exact ⟨w₂.engine, .recv hreceiving hmore (channelAt_ok hchannel)
      (read_ok hread) hcut hlock, hsched⟩
  · cases h

/-- The end of a coroutine's body stops at a null pointer only in `sched`. -/
theorem complete_nullDeref (hcur : w.engine.curRoutine = some c) (hallowed : w.Allowed c .ret)
    (h : w.complete c = .error .nullDeref) :
    ∃ e routine, w.Enters c e routine ∧ sched e routine = .error .nullDeref := by
  rcases error_of_bind h with hclean | ⟨⟨next, e⟩, hclean, hrest⟩
  · obtain ⟨c', hc'⟩ := complete_error hcur hclean
    cases hc'
  · cases next with
    | none =>
        have hsched := schedule_error hrest
        exact ⟨e, none, .idle hallowed hclean (Or.inl rfl), hsched⟩
    | some caller =>
        rcases error_of_bind hrest with hsched | ⟨outcome, hsched, hrest⟩
        · exact ⟨e, some caller, .complete hallowed hclean, hsched⟩
        · cases outcome with
          | returned =>
              have hidle := schedule_error hrest
              exact ⟨e, none, .idle hallowed hclean (Or.inr hsched), hidle⟩
          | switched e' => cases hrest
          | deadLock => cases hrest

/-- A step that stops at a null pointer stops in one of the calls of `sched`. -/
theorem exec_nullDeref (hcur : w.engine.curRoutine = some c) {act : Action}
    (hallowed : w.Allowed c act) (h : w.exec c act = .error .nullDeref) :
    ∃ e routine, w.Enters c e routine ∧ sched e routine = .error .nullDeref := by
  cases act with
  | run =>
      obtain ⟨c', hc'⟩ := modifyOpt_error (error_of_bind_ok (error_of_bind_ok h))
      cases hc'
  | yield => exact ⟨_, _, .yield hallowed, schedule_error (error_of_bind_ok h)⟩
  | sched routine => exact ⟨_, _, .sched hallowed, schedule_error (error_of_bind_ok h)⟩
  | create fresh => cases h
  | createAt d fresh =>
      simp only [exec] at h
      split at h <;> cases h
  | close d =>
      simp only [exec] at h
      split at h <;> cases h
  | send d data =>
      simp only [exec] at h
      split at h
      · cases h
      · rename_i node hfind
        have hnode : w.nodeAt d = some node := by rw [nodeAt, hfind]; rfl
        obtain ⟨e, he⟩ := sendLoop_nullDeref (Or.inl ⟨hallowed, ⟨node.channel, hnode⟩, rfl⟩)
          (error_of_bind_ok h)
        exact ⟨e, none, he⟩
  | recv d nbytes =>
      simp only [exec] at h
      split at h
      · cases h
      · rename_i node hfind
        have hnode : w.nodeAt d = some node := by rw [nodeAt, hfind]; rfl
        obtain ⟨e, he⟩ := recvLoop_nullDeref (Or.inl ⟨hallowed, ⟨node.channel, hnode⟩, rfl⟩)
          (error_of_bind_ok h)
        exact ⟨e, none, he⟩
  | ret => exact complete_nullDeref hcur hallowed (error_of_bind_ok h)
  | resume =>
      simp only [exec] at h
      split at h
      · cases h
      · rename_i hpoint
        obtain ⟨e, he⟩ := sendLoop_nullDeref (Or.inr hpoint) h
        exact ⟨e, none, he⟩
      · rename_i hpoint
        obtain ⟨e, he⟩ := recvLoop_nullDeref (Or.inr hpoint) h
        exact ⟨e, none, he⟩

/-- A reachable world stops at a null pointer only while nothing but the running context is
unlocked. -/
theorem World.Reaches.exec_nullDeref (h : Reaches w history) (hcur : w.engine.curRoutine = some c)
    (hexited : w.exited = false) {act : Action} (hallowed : w.Allowed c act)
    (hexec : w.exec c act = .error .nullDeref) {c' : Ctx}
    (hfree : lockOf w.engine c' = some .notLocked) : c' = c := by
  obtain ⟨e, routine, henters, hsched⟩ := NetEngine.exec_nullDeref hcur hallowed hexec
  obtain ⟨l, hl⟩ := (SchedCall.action h hcur hexited henters).steady
  have hroutine : ∀ r, routine = some r → e.context r ≠ none := by
    rintro r rfl hr
    rw [sched_deleted hr] at hsched
    cases hsched
  obtain ⟨hidle, hlocked⟩ : e.curRoutine = none ∧ ∀ c ∈ l, lockOf e c ≠ some .notLocked := by
    rcases hl.sched_cases hroutine with ⟨hok, -⟩ | ⟨_, -, hok⟩ | ⟨hok, -⟩ | ⟨-, hidle, -, hlocked⟩
    · rw [hok] at hsched; cases hsched
    · rw [hok] at hsched; cases hsched
    · rw [hok] at hsched; cases hsched
    · exact ⟨hidle, hlocked⟩
  have hcompleted : ∀ {next}, w.engine.complete c = .ok (next, e) → c' = c := by
    intro next hcomplete
    obtain ⟨l', hl'⟩ := h.steady
    obtain ⟨x, hx, rfl⟩ := complete_eq_completed hl'.listed hcur hcomplete
    by_contra hne
    have hstill : lockOf (w.engine.completed c x) c' = some .notLocked := by
      rw [lockOf_completed, if_neg hne, hfree]
    exact hlocked c' ((hl.listed.mem c').mpr (lockOf_ne_none hstill)) hstill
  cases henters with
  | yield => exact absurd (hcur.symm.trans hidle) (by simp)
  | sched => exact absurd (hcur.symm.trans hidle) (by simp)
  | send _ _ _ _ _ hlock | recv _ _ _ _ _ hlock =>
      obtain ⟨-, heq, -⟩ := lock_ok hlock
      rw [heq] at hidle
      exact absurd (hcur.symm.trans hidle) (by simp)
  | complete _ hcomplete => exact hcompleted hcomplete
  | idle _ hcomplete => exact hcompleted hcomplete

end Errors

/-! ## Blocked coroutines -/

/-- A transfer on a channel, by the reason of those that it unlocks. -/
def Event.Unlocks (ref : ℕ) : LockedState → Event → Prop
  | .lockedRead, .taken _ ref' _ => ref' = ref
  | .lockedWrite, .copied _ ref' _ => ref' = ref
  | _, _ => False

/-- The step makes a transfer on the channel under `d`, and `unlock_all` then clears the flag of
`c`. -/
structure Cleared (w : World) (events : List Event) (c : Ctx) (reason : LockedState) (d : ℤ)
    (node : MapNode) (w₁ : World) : Prop where
  transfer : ∃ event ∈ events, event.Unlocks node.ref reason
  unlockAll : (w.setChannel d node).unlockAll d reason = .ok w₁
  before : lockOf w.engine c = some reason
  after : lockOf w₁.engine c = some .notLocked

section Blocked

variable {d : ℤ} {ref written nbytes : ℕ} {data : List UInt8} {act : Action} {c' : Ctx}
  {node : MapNode} {woken : LockedState} {p : Point}

/-- `unlock_all` clears a flag or leaves it. -/
theorem lockOf_unlockAll (hunlock : (w.setChannel d node).unlockAll d woken = .ok w')
    (hlock : lockOf w.engine c = some reason) :
    lockOf w'.engine c = some reason ∨ (reason = woken ∧ lockOf w'.engine c = some .notLocked) := by
  have hw' := unlockAll_ok hunlock
  have hengine : lockOf w'.engine c = if c ∈ (w.setChannel d node).waiting d ∧
      lockOf w.engine c = some woken then some .notLocked else lockOf w.engine c := by
    rw [hw']
    exact lockOf_unlocked
  rw [hengine]
  split
  · rename_i hcleared
    exact Or.inr ⟨Option.some.inj (hlock.symm.trans hcleared.2), rfl⟩
  · exact Or.inl hlock

theorem lockOf_schedule (hl : Steady w.engine l) (hok : w.schedule routine = .ok w') :
    lockOf w'.engine c = lockOf w.engine c := by
  rcases schedule_ok hok with ⟨-, rfl⟩ | ⟨e, hsched, rfl⟩ | ⟨-, rfl⟩
  · rfl
  · rcases sched_ok hl.listed hl.flat hsched with ⟨heq, -⟩ | ⟨target, -, heq⟩ | ⟨heq, -⟩
    · cases heq
    · cases heq
      exact lockOf_resumed
    · cases heq
  · rfl

/-- A context that starts to wait does not change the flags of others. -/
theorem lockOf_suspended (hl : Steady w.engine l) (hsuspended : w.Suspended c' d woken p w')
    (hne : c ≠ c') : lockOf w'.engine c = lockOf w.engine c := by
  obtain ⟨w₁, hlock, hschedule⟩ := hsuspended
  obtain ⟨hcontext, heq, -⟩ := lock_ok hlock
  have hlocked := lock_steady hl hlock
  have hat : lockOf w'.engine c = lockOf w₁.engine c :=
    lockOf_schedule (w := w₁.at_ c' p) hlocked hschedule
  rw [hat, heq]
  exact (lockOf_lock hcontext).trans (if_neg hne)

/-- A flag after a transfer by another context, which then returns or starts to wait. -/
theorem flag_of_transfer {own : LockedState} {w₁ : World} (hl : Steady w.engine l)
    (hunlock : (w.setChannel d node).unlockAll d woken = .ok w₁)
    (htransfer : ∃ event ∈ events, event.Unlocks node.ref woken)
    (hrest : w' = w₁.at_ c' .body ∨ w₁.Suspended c' d own p w') (hne : c ≠ c')
    (hlock : lockOf w.engine c = some reason) :
    lockOf w'.engine c = some reason ∨ ∃ d node w₁, Cleared w events c reason d node w₁ := by
  have hflag : lockOf w'.engine c = lockOf w₁.engine c := by
    rcases hrest with rfl | hsuspended
    · rfl
    · have hl₁ : Steady w₁.engine l := by
        rw [unlockAll_ok hunlock]
        exact Steady.unlocked (e := w.engine) hl
      exact lockOf_suspended hl₁ hsuspended hne
  rw [hflag]
  rcases lockOf_unlockAll hunlock hlock with hstays | ⟨rfl, hcleared⟩
  · exact Or.inl hstays
  · exact Or.inr ⟨d, node, w₁, htransfer, hunlock, hlock, hcleared⟩

theorem sendLoop_flag (hl : Steady w.engine l)
    (hloop : w.sendLoop c' d ref data written = .ok (events, w')) (hne : c ≠ c')
    (hlock : lockOf w.engine c = some reason) :
    lockOf w'.engine c = some reason ∨ ∃ d node w₁, Cleared w events c reason d node w₁ := by
  unfold sendLoop at hloop
  split at hloop
  · obtain ⟨rfl, rfl⟩ := Prod.mk.inj (Except.ok.inj hloop)
    exact Or.inl hlock
  obtain ⟨channel, -, hloop⟩ := ok_of_bind hloop
  obtain ⟨⟨nwrite, channel'⟩, -, hloop⟩ := ok_of_bind hloop
  obtain ⟨w₁, hunlock, hloop⟩ := ok_of_bind hloop
  split at hloop
  · obtain ⟨w₂, hlock₂, hloop⟩ := ok_of_bind hloop
    obtain ⟨w₃, hschedule, hloop⟩ := ok_of_bind hloop
    obtain ⟨rfl, rfl⟩ := Prod.mk.inj (Except.ok.inj hloop)
    exact flag_of_transfer hl hunlock ⟨_, List.mem_cons_self, rfl⟩
      (Or.inr ⟨w₂, hlock₂, hschedule⟩) hne hlock
  · obtain ⟨rfl, rfl⟩ := Prod.mk.inj (Except.ok.inj hloop)
    have hreturn : w₁.at_ c' .body = w₁.at_ c' .body ∨
        w₁.Suspended c' d .lockedWrite .body (w₁.at_ c' .body) :=
      Or.inl rfl
    exact flag_of_transfer hl hunlock ⟨_, List.mem_cons_self, rfl⟩ hreturn hne hlock

theorem recvLoop_flag (hl : Steady w.engine l)
    (hloop : w.recvLoop c' d ref nbytes data = .ok (events, w')) (hne : c ≠ c')
    (hlock : lockOf w.engine c = some reason) :
    lockOf w'.engine c = some reason ∨ ∃ d node w₁, Cleared w events c reason d node w₁ := by
  unfold recvLoop at hloop
  split at hloop
  · obtain ⟨rfl, rfl⟩ := Prod.mk.inj (Except.ok.inj hloop)
    exact Or.inl hlock
  obtain ⟨channel, -, hloop⟩ := ok_of_bind hloop
  obtain ⟨⟨nread, bytes, channel'⟩, -, hloop⟩ := ok_of_bind hloop
  obtain ⟨w₁, hunlock, hloop⟩ := ok_of_bind hloop
  split at hloop
  · obtain ⟨w₂, hlock₂, hloop⟩ := ok_of_bind hloop
    obtain ⟨w₃, hschedule, hloop⟩ := ok_of_bind hloop
    obtain ⟨rfl, rfl⟩ := Prod.mk.inj (Except.ok.inj hloop)
    exact flag_of_transfer hl hunlock ⟨_, List.mem_cons_self, rfl⟩
      (Or.inr ⟨w₂, hlock₂, hschedule⟩) hne hlock
  · obtain ⟨rfl, rfl⟩ := Prod.mk.inj (Except.ok.inj hloop)
    have hreturn : w₁.at_ c' .body = w₁.at_ c' .body ∨
        w₁.Suspended c' d .lockedRead .body (w₁.at_ c' .body) :=
      Or.inl rfl
    exact flag_of_transfer hl hunlock ⟨_, List.mem_cons_self, rfl⟩ hreturn hne hlock

/-- Whatever the running context does, the flag of another one stays unless `unlock_all` clears
it. -/
theorem World.Effect.flag (hl : Steady w.engine l) (hcur : w.engine.curRoutine = some c')
    (heffect : Effect w c' events w') (hne : c ≠ c') (hlock : lockOf w.engine c = some reason) :
    lockOf w'.engine c = some reason ∨ ∃ d node w₁, Cleared w events c reason d node w₁ := by
  cases heffect with
  | idle => exact Or.inl hlock
  | run hrun =>
      rw [hl.listed.run_eq] at hrun
      obtain ⟨-, rfl⟩ := Prod.mk.inj (Except.ok.inj hrun)
      have hold : c ≠ w.engine.created := fun heq ↦ lockOf_ne_none hlock (heq ▸ hl.listed.fresh)
      exact Or.inl (lockOf_registered.trans ((if_neg hold).trans hlock))
  | schedule hschedule => exact Or.inl ((lockOf_schedule hl hschedule).trans hlock)
  | complete _ hcomplete =>
      obtain ⟨next, e, hclean, hrest⟩ := complete_ok hcomplete
      obtain ⟨x, hx, rfl⟩ := complete_eq_completed hl.listed hcur hclean
      have hl' := hl.completed hx
      have hstays : lockOf (w.engine.completed c' x) c = some reason := by
        rw [lockOf_completed, if_neg hne, hlock]
      rcases hrest with hidle | ⟨routine, -, ⟨e', hsched, rfl⟩ | ⟨-, rfl⟩⟩
      · have hcompleted : Steady { w with engine := w.engine.completed c' x }.engine (l.erase c') :=
          hl'
        exact Or.inl ((lockOf_schedule hcompleted hidle).trans hstays)
      · rcases sched_ok hl'.listed hl'.flat hsched with ⟨heq, -⟩ | ⟨target, -, heq⟩ | ⟨heq, -⟩
        · cases heq
        · cases heq
          exact Or.inl (lockOf_resumed.trans hstays)
        · cases heq
      · exact Or.inl hstays
  | create => exact Or.inl hlock
  | renew => exact Or.inl hlock
  | close => exact Or.inl hlock
  | sendCall _ _ hloop =>
      rcases sendLoop_flag hl hloop hne hlock with hstays | ⟨d, node, w₁, hcleared⟩
      · exact Or.inl hstays
      · obtain ⟨event, hevent, hunlocks⟩ := hcleared.transfer
        exact Or.inr ⟨d, node, w₁, ⟨event, List.mem_cons_of_mem _ hevent, hunlocks⟩,
          hcleared.unlockAll, hcleared.before, hcleared.after⟩
  | sendResume _ hloop => exact sendLoop_flag hl hloop hne hlock
  | recvCall _ _ hloop =>
      rcases recvLoop_flag hl hloop hne hlock with hstays | ⟨d, node, w₁, hcleared⟩
      · exact Or.inl hstays
      · obtain ⟨event, hevent, hunlocks⟩ := hcleared.transfer
        exact Or.inr ⟨d, node, w₁, ⟨event, List.mem_cons_of_mem _ hevent, hunlocks⟩,
          hcleared.unlockAll, hcleared.before, hcleared.after⟩
  | recvResume _ hloop => exact recvLoop_flag hl hloop hne hlock

/-- A run goes on from a world that has been reached. -/
theorem World.Reaches.run {labels : List (List Event)} (h : Reaches w history)
    (hrun : Run Step w labels w') : Reaches w' (history ++ labels.flatten) := by
  obtain ⟨w₀, labels₀, hstart, hrun₀, rfl⟩ := h
  exact ⟨w₀, labels₀ ++ labels, hstart, hrun₀.append hrun, (List.flatten_append).symm⟩

/-- Somewhere in the run `unlock_all` clears the flag of `c`. -/
def ClearedIn (w : World) (labels : List (List Event)) (c : Ctx) (reason : LockedState) : Prop :=
  ∃ before events after w₁ d node w₂, labels = before ++ events :: after ∧ Run Step w before w₁ ∧
    Cleared w₁ events c reason d node w₂

/-- A flag that is set stays set over a run in which it is not cleared. -/
theorem flag_of_run {labels : List (List Event)} (h : Reaches w history)
    (hrun : Run Step w labels w') (hlock : lockOf w.engine c = some reason)
    (hreason : reason ≠ .notLocked) :
    lockOf w'.engine c = some reason ∨ ClearedIn w labels c reason := by
  induction hrun with
  | nil => exact Or.inl hlock
  | snoc hrun hstep ih =>
      rename_i t u labels events
      rcases ih with hstays | ⟨before, events', after, w₁, d, node, w₂, rfl, hbefore, hcleared⟩
      · have ht := h.run hrun
        obtain ⟨l, hl⟩ := ht.steady
        obtain ⟨l', hw⟩ := ht.wakeful
        obtain ⟨c', hcur, hexited, heffect⟩ := hstep.effect hw.map
        have hne : c ≠ c' := by
          rintro rfl
          have hfree := hw.awake hexited c hcur
          exact hreason (Option.some.inj (hstays.symm.trans hfree))
        rcases heffect.flag hl hcur hne hstays with hstays' | ⟨d, node, w₁, hcleared⟩
        · exact Or.inl hstays'
        · exact Or.inr ⟨labels, events, [], t, d, node, w₁, rfl, hrun, hcleared⟩
      · refine Or.inr ⟨before, events', after ++ [events], w₁, d, node, w₂, ?_, hbefore, hcleared⟩
        rw [List.append_assoc, List.cons_append]

end Blocked

/-- The context that `sched` passes control to is never locked, and a coroutine that is locked runs
again only after `unlock_all` has cleared its flag. -/
theorem blocked_never_runs :
    (∀ e e' routine, SchedCall e routine → sched e routine = .ok (.switched e') →
      ∃ target, e'.curRoutine = some target ∧ lockOf e' target = some .notLocked) ∧
    ∀ w w' history labels c reason, Reaches w history → lockOf w.engine c = some reason →
      reason ≠ .notLocked → Run Step w labels w' → w'.exited = false →
        w'.engine.curRoutine = some c →
      ClearedIn w labels c reason := by
  constructor
  · intro e e' routine hcall hsched
    obtain ⟨l, hl⟩ := hcall.steady
    rcases sched_ok hl.listed hl.flat hsched with ⟨heq, -⟩ | ⟨target, hfree, heq⟩ | ⟨heq, -⟩
    · cases heq
    · cases heq
      exact ⟨target, rfl, lockOf_resumed.trans hfree⟩
    · cases heq
  · intro w w' history labels c reason h hlock hreason hrun hexited hcur
    apply (flag_of_run h hrun hlock hreason).resolve_left
    intro hstays
    obtain ⟨l, hw⟩ := (h.run hrun).wakeful
    have hfree := hw.awake hexited c hcur
    exact hreason (Option.some.inj (hstays.symm.trans hfree))

/-- The main coroutine gets control at the start; another one that waits for its channel runs again
after the main coroutine has sent a byte. -/
theorem blocked_never_runs_reader :
    (∃ e target, sched (Engine.empty.registered .notLocked) (some 0) = .ok (.switched e) ∧
      e.curRoutine = some target ∧ lockOf e target = some .notLocked) ∧
    ∃ w history labels, playFromStart [.create zeros, .run, .yield, .recv 0 1] = some (history, w) ∧
      ClearedIn w labels 1 .lockedRead := by
  constructor
  · have hcall : SchedCall (Engine.empty.registered .notLocked) (some 0) :=
      .start (Engine.listed_empty.run_eq LockedState.notLocked)
    obtain ⟨target, hcur, hfree⟩ := blocked_never_runs.1 _ _ _ hcall rfl
    exact ⟨_, target, rfl, hcur, hfree⟩
  · have hplay : ((playFromStart [.create zeros, .run, .yield, .recv 0 1]).bind fun r ↦
        (r.2.play [.send 0 [7], .yield]).map fun q ↦
          (lockOf r.2.engine 1, q.2.exited, q.2.engine.curRoutine)) =
        some (some .lockedRead, false, some 1) := by
      decide +kernel
    obtain ⟨⟨history, w⟩, hw, hplay⟩ := Option.bind_eq_some_iff.mp hplay
    obtain ⟨⟨events, w'⟩, hw', heq⟩ := Option.map_eq_some_iff.mp hplay
    simp only [Prod.mk.injEq] at heq
    obtain ⟨hlock, hexited, hcur⟩ := heq
    obtain ⟨labels, hrun, -⟩ := run_of_play hw'
    exact ⟨w, history, labels, hw, blocked_never_runs.2 _ _ _ _ _ _ (reaches_of_play hw) hlock
      (by simp) hrun hexited hcur⟩

end CppMtHw.NetEngine
