import CppMtHw.NetEngine.DeadLock
import CppMtHw.NetEngine.LockTable

/-!
# Wakeups per channel

`unlock_all` looks at the flags of everybody that the lock table lists for its channel, and a
context is listed for every channel on which it has ever waited. A transfer therefore also wakes
those that wait in the same direction on another channel, if they have waited on this one before.
-/

namespace CppMtHw.NetEngine

open Machine Coroutines

namespace World

variable {w w' w₀ : World} {c c' : Ctx} {d j : ℤ} {ref written nbytes : ℕ} {data : List UInt8}
  {act : Action} {acts : List Action} {events : List Event} {reason : LockedState} {l : List Ctx}

/-- With this action the context `c` makes a transfer on `d`: it calls `unlock_all` there, in
`send_channel` for those that read and in `recv_channel` for those that write. -/
inductive Transfers (w : World) (c : Ctx) : Action → ℤ → LockedState → Prop
  | send {d : ℤ} {data : List UInt8} (hnode : w.nodeAt d ≠ none) (hmore : 0 ≠ data.length) :
      Transfers w c (.send d data) d .lockedRead
  | sendResume {d : ℤ} {ref written : ℕ} {data : List UInt8}
      (hpoint : w.point c = .send d ref data written)
      (hmore : written ≠ data.length) : Transfers w c .resume d .lockedRead
  | recv {d : ℤ} {nbytes : ℕ} (hnode : w.nodeAt d ≠ none) (hmore : 0 ≠ nbytes) :
      Transfers w c (.recv d nbytes) d .lockedWrite
  | recvResume {d : ℤ} {ref nbytes : ℕ} {data : List UInt8}
      (hpoint : w.point c = .recv d ref nbytes data)
      (hmore : data.length ≠ nbytes) : Transfers w c .resume d .lockedWrite

/-- Only a transfer on the channel for which a context is blocked changes its flag. -/
def PerChannel (w : World) (act : Action) (w' : World) : Prop :=
  ∀ c d ref reason, lockOf w.engine c = some reason → (w.point c).awaited = some (d, ref, reason) →
    lockOf w'.engine c = some reason ∨
      ∃ running, w.engine.curRoutine = some running ∧ w.Transfers running act d reason

/-- The action is a transfer on one channel, and a context that has waited there is blocked on
another channel for the same reason. -/
def Crossing (w₀ : World) (acts : List Action) (w : World) (act : Action) : Prop :=
  ∃ running c d d' ref reason, w.engine.curRoutine = some running ∧
    w.Transfers running act d' reason ∧
    WaitedOn w₀ acts c d' ∧ lockOf w.engine c = some reason ∧
    (w.point c).awaited = some (d, ref, reason) ∧ d ≠ d'

/-- An action transfers on at most one channel, in one direction. -/
theorem Transfers.unique {d' : ℤ} {reason' : LockedState} (h : w.Transfers c act d reason)
    (h' : w.Transfers c act d' reason') : d = d' ∧ reason = reason' := by
  cases h with
  | send => cases h'; exact ⟨rfl, rfl⟩
  | recv => cases h'; exact ⟨rfl, rfl⟩
  | sendResume hpoint =>
      cases h' with
      | sendResume hpoint' => cases hpoint.symm.trans hpoint'; exact ⟨rfl, rfl⟩
      | recvResume hpoint' => cases hpoint.symm.trans hpoint'
  | recvResume hpoint =>
      cases h' with
      | sendResume hpoint' => cases hpoint.symm.trans hpoint'
      | recvResume hpoint' => cases hpoint.symm.trans hpoint'; exact ⟨rfl, rfl⟩

/-! ## The flags of others after a step -/

/-- The flag of another context after a transfer, after which the running one returns or starts to
wait. -/
theorem lockOf_transfer {node : MapNode} {own : LockedState} {p : Point} (hl : Steady w.engine l)
    (hne : c' ≠ c) (hrest : w' = (w.transferred d node reason).at_ c .body ∨
      (w.transferred d node reason).Suspended c d own p w') :
    lockOf w'.engine c' =
      if c' ∈ w.waiting d ∧ lockOf w.engine c' = some reason then some .notLocked
      else lockOf w.engine c' := by
  rcases hrest with rfl | hsuspended
  · exact lockOf_unlocked
  · have hl' : Steady (w.transferred d node reason).engine l := Steady.unlocked (e := w.engine) hl
    exact (lockOf_suspended hl' hsuspended hne).trans lockOf_unlocked

theorem sendLoop_lockOf (hl : Steady w.engine l) (hne : c' ≠ c)
    (hloop : w.sendLoop c d ref data written = .ok (events, w')) :
    (written = data.length ∧ lockOf w'.engine c' = lockOf w.engine c') ∨
      (written ≠ data.length ∧ lockOf w'.engine c' =
        if c' ∈ w.waiting d ∧ lockOf w.engine c' = some .lockedRead then some .notLocked
        else lockOf w.engine c') := by
  rcases sendLoop_ok hloop with ⟨hdone, -, rfl⟩ | ⟨hmore, channel, nwrite, channel', -, -, hrest⟩
  · exact Or.inl ⟨hdone, rfl⟩
  · refine Or.inr ⟨hmore, ?_⟩
    apply lockOf_transfer hl hne
    exact hrest.imp (fun h ↦ h.2.2) fun h ↦ h.2.2

theorem recvLoop_lockOf (hl : Steady w.engine l) (hne : c' ≠ c)
    (hloop : w.recvLoop c d ref nbytes data = .ok (events, w')) :
    (data.length = nbytes ∧ lockOf w'.engine c' = lockOf w.engine c') ∨
      (data.length ≠ nbytes ∧ lockOf w'.engine c' =
        if c' ∈ w.waiting d ∧ lockOf w.engine c' = some .lockedWrite then some .notLocked
        else lockOf w.engine c') := by
  rcases recvLoop_ok hloop with
      ⟨hdone, -, rfl⟩ | ⟨hmore, channel, nread, bytes, channel', -, -, hrest⟩
  · exact Or.inl ⟨hdone, rfl⟩
  · refine Or.inr ⟨hmore, ?_⟩
    apply lockOf_transfer hl hne
    exact hrest.imp (fun h ↦ h.2.2) fun h ↦ h.2.2

/-- An action without transfers leaves the flags of others alone. -/
theorem Effect.flag_of_quiet (hl : Steady w.engine l) (hcur : w.engine.curRoutine = some c)
    (hne : c' ≠ c) (hlock : lockOf w.engine c' = some reason) (heffect : Effect w c events w')
    (hquiet : ∀ event ∈ events, ∀ ref, ¬event.Unlocks ref reason) :
    lockOf w'.engine c' = some reason := by
  apply (heffect.flag hl hcur hne hlock).resolve_right
  rintro ⟨d, node, w₁, hcleared⟩
  obtain ⟨event, hevent, hunlocks⟩ := hcleared.transfer
  exact hquiet event hevent node.ref hunlocks

/-- The events of the actions that do not call `send_channel` or `recv_channel`. -/
theorem exec_quiet (hexec : w.exec c act = .ok (events, w')) (hsend : ∀ d data, act ≠ .send d data)
    (hrecv : ∀ d nbytes, act ≠ .recv d nbytes) (hresume : act ≠ .resume) :
    ∀ event ∈ events, ∀ ref reason, ¬event.Unlocks ref reason := by
  have hevents : ∀ event ∈ events, ∀ ref reason, event.Unlocks ref reason → False := by
    cases act with
    | send d data => exact absurd rfl (hsend d data)
    | recv d nbytes => exact absurd rfl (hrecv d nbytes)
    | resume => exact absurd rfl hresume
    | run | yield | sched | ret =>
        obtain ⟨_, -, h⟩ := ok_of_bind hexec
        obtain ⟨rfl, -⟩ := Prod.mk.inj (Except.ok.inj h)
        exact fun event hevent ↦ absurd hevent List.not_mem_nil
    | create fresh =>
        obtain ⟨rfl, -⟩ := Prod.mk.inj (Except.ok.inj hexec)
        simp [Event.Unlocks]
    | createAt d fresh =>
        simp only [exec] at hexec
        split at hexec <;> obtain ⟨rfl, -⟩ :=
          Prod.mk.inj (Except.ok.inj hexec) <;> simp [Event.Unlocks]
    | close d =>
        simp only [exec] at hexec
        split at hexec <;> obtain ⟨rfl, -⟩ :=
          Prod.mk.inj (Except.ok.inj hexec) <;> simp [Event.Unlocks]
  exact hevents

/-- The flag of another context after an action, which may be a transfer on one channel. -/
theorem exec_lockOf (hl : Steady w.engine l) (hmap : w.ChannelMap)
    (hcur : w.engine.curRoutine = some c) (hne : c' ≠ c) (hallowed : w.Allowed c act)
    (hexec : w.exec c act = .ok (events, w')) :
    (∃ d woken, w.Transfers c act d woken ∧ lockOf w'.engine c' =
      if c' ∈ w.waiting d ∧ lockOf w.engine c' = some woken then some .notLocked
        else lockOf w.engine c') ∨
      (∀ d woken, ¬w.Transfers c act d woken) ∧
        ∀ reason, lockOf w.engine c' = some reason → lockOf w'.engine c' = some reason := by
  cases act with
  | send d data =>
      rcases exec_send_ok hexec with ⟨hnone, -, rfl⟩ | ⟨node, later, hnode, -, hloop⟩
      · refine Or.inr ⟨fun d woken htransfers ↦ ?_, fun _ hlock ↦ hlock⟩
        cases htransfers with
        | send hnode => exact hnode hnone
      · rcases sendLoop_lockOf hl hne hloop with ⟨hdone, hflag⟩ | ⟨hmore, hflag⟩
        · refine Or.inr ⟨fun d woken htransfers ↦ ?_, fun _ hlock ↦ hflag.trans hlock⟩
          cases htransfers with
          | send _ hmore => exact hmore hdone
        · exact Or.inl ⟨d, .lockedRead, .send (by simp [hnode]) hmore, hflag⟩
  | recv d nbytes =>
      rcases exec_recv_ok hexec with ⟨hnone, -, rfl⟩ | ⟨node, later, hnode, -, hloop⟩
      · refine Or.inr ⟨fun d woken htransfers ↦ ?_, fun _ hlock ↦ hlock⟩
        cases htransfers with
        | recv hnode => exact hnode hnone
      · rcases recvLoop_lockOf hl hne hloop with ⟨hdone, hflag⟩ | ⟨hmore, hflag⟩
        · refine Or.inr ⟨fun d woken htransfers ↦ ?_, fun _ hlock ↦ hflag.trans hlock⟩
          cases htransfers with
          | recv _ hmore => exact hmore hdone
        · exact Or.inl ⟨d, .lockedWrite, .recv (by simp [hnode]) hmore, hflag⟩
  | resume =>
      rcases exec_resume_ok hexec with ⟨hpoint, -⟩ | ⟨d, ref, data, written, hpoint, hloop⟩ |
        ⟨d, ref, nbytes, data, hpoint, hloop⟩
      · exact absurd hpoint hallowed
      · rcases sendLoop_lockOf hl hne hloop with ⟨hdone, hflag⟩ | ⟨hmore, hflag⟩
        · refine Or.inr ⟨fun d woken htransfers ↦ ?_, fun _ hlock ↦ hflag.trans hlock⟩
          cases htransfers with
          | sendResume hpoint' hmore => cases hpoint.symm.trans hpoint'; exact hmore hdone
          | recvResume hpoint' => cases hpoint.symm.trans hpoint'
        · exact Or.inl ⟨d, .lockedRead, .sendResume hpoint hmore, hflag⟩
      · rcases recvLoop_lockOf hl hne hloop with ⟨hdone, hflag⟩ | ⟨hmore, hflag⟩
        · refine Or.inr ⟨fun d woken htransfers ↦ ?_, fun _ hlock ↦ hflag.trans hlock⟩
          cases htransfers with
          | sendResume hpoint' => cases hpoint.symm.trans hpoint'
          | recvResume hpoint' hmore => cases hpoint.symm.trans hpoint'; exact hmore hdone
        · exact Or.inl ⟨d, .lockedWrite, .recvResume hpoint hmore, hflag⟩
  | _ =>
      refine Or.inr ⟨fun d woken htransfers ↦ ?_, fun reason hlock ↦ ?_⟩
      · cases htransfers
      · apply (exec_effect hmap hallowed hexec).flag_of_quiet hl hcur hne hlock
        exact fun event hevent ref ↦ exec_quiet hexec (by simp) (by simp)
          (by simp) event hevent ref reason

/-- A transfer clears the flag of everybody that is listed for its channel and locked for its
reason. -/
theorem Transfers.cleared (hl : Steady w.engine l) (hmap : w.ChannelMap)
    (hcur : w.engine.curRoutine = some c) (hne : c' ≠ c) (hlock : lockOf w.engine c' = some reason)
    (htransfers : w.Transfers c act d reason) (hmem : c' ∈ w.waiting d) (hallowed : w.Allowed c act)
    (hexec : w.exec c act = .ok (events, w')) : lockOf w'.engine c' = some .notLocked := by
  rcases exec_lockOf hl hmap hcur hne hallowed hexec with
      ⟨j, woken, htransfers', hflag⟩ | ⟨hquiet, -⟩
  · obtain ⟨rfl, rfl⟩ := htransfers.unique htransfers'
    rw [hflag, if_pos ⟨hmem, hlock⟩]
  · exact absurd htransfers (hquiet d reason)

/-- A flag that changes is cleared by a transfer on a channel for which the context is listed. -/
theorem Takes.flag (hl : Steady w.engine l) (hmap : w.ChannelMap)
    (hcur : w.engine.curRoutine = some c) (hne : c' ≠ c) (hlock : lockOf w.engine c' = some reason)
    (h : w.Takes act w') (hnone : ∀ d, w.Transfers c act d reason → c' ∉ w.waiting d) :
    lockOf w'.engine c' = some reason := by
  cases h with
  | exec c₁ events hcur₁ _ hallowed hexec =>
      obtain rfl := Option.some.inj (hcur₁.symm.trans hcur)
      rcases exec_lockOf hl hmap hcur hne hallowed hexec with
          ⟨d, woken, htransfers, hflag⟩ | ⟨-, hstays⟩
      · rw [hflag, if_neg, hlock]
        rintro ⟨hmem, hwoken⟩
        obtain rfl := Option.some.inj (hlock.symm.trans hwoken)
        exact hnone d htransfers hmem
      · exact hstays reason hlock

theorem takes_of_play_singleton (h : w.play [act] = some (events, w')) : w.Takes act w' := by
  obtain ⟨c, now, w₁, later, hcur, hexited, hallowed, hexec, hplay, -⟩ := play_cons h
  obtain ⟨-, rfl⟩ := Prod.mk.inj (Option.some.inj hplay)
  exact .exec c now hcur hexited hallowed hexec

end World

open World

/-- After every run, every step changes the flag of a blocked context only by a transfer on the
channel for which the context is blocked, if and only if the step is not a transfer on another
channel, in that direction, on which a blocked context has waited before. -/
theorem per_channel_iff {w₀ w w' : World} {acts : List Action} {act : Action}
    (hstart : start = .ok w₀) (hrun : Run Takes w₀ acts w) (hstep : w.Takes act w') :
    w.PerChannel act w' ↔ ¬Crossing w₀ acts w act := by
  obtain ⟨history, hreaches⟩ := reaches_of_takes hstart hrun
  obtain ⟨l, hl⟩ := hreaches.steady
  obtain ⟨l', hwakeful⟩ := hreaches.wakeful
  have hother : ∀ {c running d ref reason}, w.engine.curRoutine = some running →
      lockOf w.engine c = some reason → (w.point c).awaited = some (d, ref, reason) →
      c ≠ running ∧ reason ≠ .notLocked := by
    intro c running d ref reason hcur hlock hawaited
    have hreason : reason ≠ .notLocked := by
      rintro rfl
      cases hpoint : w.point c <;> simp [hpoint, Point.awaited] at hawaited
    refine ⟨?_, hreason⟩
    rintro rfl
    cases hstep with
    | exec c₁ events _ hexited _ _ =>
        exact hreason (Option.some.inj (hlock.symm.trans (hwakeful.awake hexited c hcur)))
  constructor
  · rintro hper ⟨running, c, d, d', ref, reason, hcur, htransfers, hwaited, hlock, hawaited, hne⟩
    obtain ⟨hcne, hreason⟩ := hother hcur hlock hawaited
    have hmem := (mem_waiting_iff_waitedOn hstart hrun).mpr hwaited
    cases hstep with
    | exec c₁ events hcur₁ _ hallowed hexec =>
        obtain rfl := Option.some.inj (hcur₁.symm.trans hcur)
        have hcleared := htransfers.cleared hl hreaches.channelMap hcur hcne hlock
          hmem hallowed hexec
        rcases hper c d ref reason hlock hawaited with hstays | ⟨running, hcur', htransfers'⟩
        · exact hreason (Option.some.inj (hstays.symm.trans hcleared))
        · obtain rfl := Option.some.inj (hcur.symm.trans hcur')
          exact hne (htransfers'.unique htransfers).1
  · intro hnever c d ref reason hlock hawaited
    by_contra hcontra
    rw [not_or] at hcontra
    obtain ⟨hchanges, hforeign⟩ := hcontra
    apply hchanges
    cases hcur : w.engine.curRoutine with
    | none =>
        cases hstep with
        | exec c₁ events hcur₁ => exact absurd (hcur.symm.trans hcur₁) (by simp)
    | some running =>
        refine hstep.flag hl hreaches.channelMap hcur (hother hcur hlock hawaited).1 hlock ?_
        intro d' htransfers hmem
        have hwaited := (mem_waiting_iff_waitedOn hstart hrun).mp hmem
        have hne : d ≠ d' := by
          rintro rfl
          exact hforeign ⟨running, hcur, htransfers⟩
        exact hnever ⟨running, c, d, d', ref, reason, hcur, htransfers, hwaited,
          hlock, hawaited, hne⟩

/-- A byte that the main coroutine sends wakes the coroutine that waits for it on this channel. -/
theorem per_channel_send : ∃ w₀ w w', start = .ok w₀ ∧
    Run Takes w₀ [.create zeros, .run, .yield, .recv 0 1] w ∧
    w.Takes (.send 0 [7]) w' ∧ w.PerChannel (.send 0 [7]) w' := by
  have hplay : ((playFromStart [.create zeros, .run, .yield, .recv 0 1]).bind fun r ↦
      (r.2.play [.send 0 [7]]).map fun _ ↦ (r.2.waiting 0, (r.2.point 1).awaited)) =
      some ([1], some (0, 0, .lockedRead)) := by
    decide +kernel
  obtain ⟨⟨history, w⟩, hw, hplay⟩ := Option.bind_eq_some_iff.mp hplay
  obtain ⟨⟨events, w'⟩, hw', heq⟩ := Option.map_eq_some_iff.mp hplay
  obtain ⟨hwaiting, hawaited₁⟩ := Prod.mk.inj heq
  obtain ⟨w₀, hstart, hrun⟩ := takes_of_play hw
  have hstep := takes_of_play_singleton hw'
  refine ⟨w₀, w, w', hstart, hrun, hstep, (per_channel_iff hstart hrun hstep).mpr ?_⟩
  rintro ⟨running, c, d, d', ref, reason, -, htransfers, hwaited, -, hawaited, hne⟩
  have hmem := (mem_waiting_iff_waitedOn hstart hrun).mpr hwaited
  cases htransfers
  rw [hwaiting] at hmem
  obtain rfl := List.mem_singleton.mp hmem
  rw [hawaited₁] at hawaited
  cases hawaited
  exact hne rfl

/-- A coroutine has read a byte from channel 0 and waits for another one on channel 1. A byte that
is sent on channel 0 clears its flag. -/
theorem foreign_wakeup : ∃ w history w', Reaches w history ∧ w.Takes (.send 0 [8]) w' ∧
    w.BlockedReader 1 1 ∧
    lockOf w'.engine 1 = some .notLocked ∧ ¬w.PerChannel (.send 0 [8]) w' := by
  have hplay : ((playFromStart [.create zeros, .create zeros, .run, .yield, .recv 0 1, .send 0 [7],
      .yield, .resume, .recv 1 1]).bind fun r ↦ (r.2.play [.send 0 [8]]).map fun q ↦
        (lockOf r.2.engine 1, r.2.point 1, lockOf q.2.engine 1)) =
      some (some .lockedRead, .recv 1 1 1 [], some .notLocked) := by
    decide +kernel
  obtain ⟨⟨history, w⟩, hw, hplay⟩ := Option.bind_eq_some_iff.mp hplay
  obtain ⟨⟨events, w'⟩, hw', heq⟩ := Option.map_eq_some_iff.mp hplay
  simp only [Prod.mk.injEq] at heq
  obtain ⟨hlock, hpoint, hcleared⟩ := heq
  have hawaited : (w.point 1).awaited = some (1, 1, .lockedRead) := by rw [hpoint]; rfl
  refine ⟨w, history, w', reaches_of_play hw, takes_of_play_singleton hw',
    ⟨hlock, 1, 1, [], hpoint⟩, hcleared, ?_⟩
  intro hper
  rcases hper 1 1 1 .lockedRead hlock hawaited with hstays | ⟨running, -, htransfers⟩
  · exact absurd (hstays.symm.trans hcleared) (by simp)
  · cases htransfers

end CppMtHw.NetEngine
