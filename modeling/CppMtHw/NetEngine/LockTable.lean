import CppMtHw.NetEngine.SchedCalls

/-!
# Pointers in the lock table

`unlock_all` clears flags and leaves the table alone, so a context that has waited for a
channel stays listed for it until the end. Its completion deletes it all the same, and the
next transfer on the channel reads it. The table is in order exactly as long as no
coroutine returns that has ever waited.
-/

namespace CppMtHw.NetEngine

open Machine Coroutines

namespace World

variable {w w' w₀ : World} {c c' : Ctx} {d j : ℤ} {act : Action} {acts : List Action}
  {events : List Event} {l : List Ctx} {reason : LockedState} {p : Point} {routine : Option Ctx}
  {ref : ℕ}

inductive Takes (w : World) (act : Action) (w' : World) : Prop
  | exec (c : Ctx) (events : List Event) (hrunning : w.engine.curRoutine = some c)
      (hexited : w.exited = false) (hallowed : w.Allowed c act)
      (hexec : w.exec c act = .ok (events, w'))

theorem takes_deterministic (w : World) (act : Action) (w₁ w₂ : World) (h₁ : w.Takes act w₁)
    (h₂ : w.Takes act w₂) : w₁ = w₂ := by
  cases h₁ with
  | exec c₁ events₁ hcur₁ _ _ hexec₁ =>
      cases h₂ with
      | exec c₂ events₂ hcur₂ _ _ hexec₂ =>
          obtain rfl := Option.some.inj (hcur₁.symm.trans hcur₂)
          exact (Prod.mk.inj (Except.ok.inj (hexec₁.symm.trans hexec₂))).2

theorem Takes.step (h : w.Takes act w') : ∃ events, Step w events w' := by
  cases h with
  | exec c events hcur hexited hallowed hexec =>
    exact ⟨events, .exec c act hcur hexited hallowed hexec⟩

theorem reaches_of_takes (hstart : start = .ok w₀) (hrun : Run Takes w₀ acts w) :
    ∃ history, Reaches w history := by
  suffices hsteps : ∃ labels, Run Step w₀ labels w by
    obtain ⟨labels, hsteps⟩ := hsteps
    exact ⟨labels.flatten, w₀, labels, hstart, hsteps, rfl⟩
  induction hrun with
  | nil => exact ⟨[], Run.nil w₀⟩
  | snoc _ hlast ih =>
      obtain ⟨labels, hsteps⟩ := ih
      obtain ⟨events, hstep⟩ := hlast.step
      exact ⟨labels ++ [events], hsteps.snoc hstep⟩

/-- Playing actions takes them one after the other. -/
theorem takes_of_play {history : List Event} (h : playFromStart acts = some (history, w)) :
    ∃ w₀, start = .ok w₀ ∧ Run Takes w₀ acts w := by
  unfold playFromStart at h
  split at h
  · rename_i w₀ hstart
    refine ⟨w₀, hstart, ?_⟩
    clear hstart
    induction acts generalizing w₀ history with
    | nil =>
        obtain ⟨-, rfl⟩ := Prod.mk.inj (Option.some.inj h)
        exact Run.nil w₀
    | cons act acts ih =>
        obtain ⟨c, now, w₁, later, hrunning, hexited, hallowed, hexec, hplay, -⟩ := play_cons h
        exact (ih w₁ hplay).cons (.exec c now hrunning hexited hallowed hexec)
  · cases h

def InTable (w : World) (c : Ctx) : Prop := ∃ d, c ∈ w.waiting d

/-- Every pointer in the lock table leads to a registered context. -/
def LockTableAlive (w : World) : Prop := ∀ d c, c ∈ w.waiting d → w.engine.context c ≠ none

def Waited (w₀ : World) (acts : List Action) (c : Ctx) : Prop :=
  ∃ before after w, acts = before ++ after ∧ Run Takes w₀ before w ∧ w.point c ≠ .body

/-- The context is suspended in `send_channel` or `recv_channel` on `d`, locked or already
unlocked. -/
def Inside (w : World) (c : Ctx) (d : ℤ) : Prop :=
  ∃ ref reason, (w.point c).awaited = some (d, ref, reason)

/-- At some point of the run so far `c` was suspended in `send_channel` or `recv_channel` on `d`. -/
def WaitedOn (w₀ : World) (acts : List Action) (c : Ctx) (d : ℤ) : Prop :=
  ∃ before after w, acts = before ++ after ∧ Run Takes w₀ before w ∧ w.Inside c d

theorem point_ne_body_iff : w.point c ≠ .body ↔ ∃ d, w.Inside c d := by
  unfold Inside
  cases w.point c <;> simp [Point.awaited]

theorem waited_iff_waitedOn : Waited w₀ acts c ↔ ∃ d, WaitedOn w₀ acts c d := by
  constructor
  · rintro ⟨before, after, w, hacts, hbefore, hpoint⟩
    obtain ⟨d, hinside⟩ := point_ne_body_iff.mp hpoint
    exact ⟨d, before, after, w, hacts, hbefore, hinside⟩
  · rintro ⟨d, before, after, w, hacts, hbefore, hinside⟩
    exact ⟨before, after, w, hacts, hbefore, point_ne_body_iff.mpr ⟨d, hinside⟩⟩

/-- What was waited for in a run was waited for before its last step, or is waited for now. -/
theorem waitedOn_snoc (hrun : Run Takes w₀ acts w) (hlast : w.Takes act w') :
    WaitedOn w₀ (acts ++ [act]) c d ↔ WaitedOn w₀ acts c d ∨ w'.Inside c d := by
  constructor
  · rintro ⟨before, after, v, hacts, hbefore, hinside⟩
    rcases List.eq_nil_or_concat after with rfl | ⟨after, last, rfl⟩
    · rw [List.append_nil] at hacts
      subst hacts
      obtain rfl := hbefore.deterministic takes_deterministic (hrun.snoc hlast)
      exact Or.inr hinside
    · rw [List.concat_eq_append, ← List.append_assoc] at hacts
      obtain ⟨rfl, -⟩ := List.append_inj' hacts rfl
      exact Or.inl ⟨before, after, v, rfl, hbefore, hinside⟩
  · rintro (⟨before, after, v, rfl, hbefore, hinside⟩ | hinside)
    · exact ⟨before, after ++ [act], v, by rw [List.append_assoc], hbefore, hinside⟩
    · exact ⟨acts ++ [act], [], w', (List.append_nil _).symm, hrun.snoc hlast, hinside⟩

/-! ## What a step does to the table -/

/-- The table after a step: the pointers stay, and new ones lead to the context that has just been
suspended. -/
structure TableStep (w : World) (c : Ctx) (w' : World) : Prop where
  stays : ∀ c' d, c' ∈ w.waiting d → c' ∈ w'.waiting d
  added : ∀ c' d, c' ∈ w'.waiting d → c' ∈ w.waiting d ∨ (c' = c ∧ w'.Inside c d)
  suspended : ∀ c' d, w'.Inside c' d → w.Inside c' d ∨ c' ∈ w'.waiting d

theorem tableStep_of_same (htable : w'.locksTable = w.locksTable)
    (hinside : ∀ c' d, w'.Inside c' d → w.Inside c' d) : TableStep w c w' := by
  have hwaiting : ∀ d, w'.waiting d = w.waiting d := by
    intro d
    rw [waiting, waiting, htable]
  constructor
  · intro c' d hmem
    rwa [hwaiting]
  · intro c' d hmem
    rw [hwaiting] at hmem
    exact Or.inl hmem
  · intro c' d hc'
    exact Or.inl (hinside c' d hc')

theorem inside_of_point (hpoint : w'.point = w.point) (h : w'.Inside c' d) : w.Inside c' d := by
  rwa [Inside, hpoint] at h

theorem awaited_of_at_body {awaited : ℤ × ℕ × LockedState}
    (h : ((w.at_ c .body).point c').awaited = some awaited) :
    (w.point c').awaited = some awaited := by
  simp only [World.at_, Function.update_apply] at h
  split at h
  · cases h
  · exact h

theorem inside_of_at_body (h : (w.at_ c .body).Inside c' d) : w.Inside c' d := by
  obtain ⟨ref, reason, hawaited⟩ := h
  exact ⟨ref, reason, awaited_of_at_body hawaited⟩

theorem schedule_table (hok : w.schedule routine = .ok w') : w'.locksTable = w.locksTable := by
  rcases schedule_ok hok with ⟨-, rfl⟩ | ⟨e, -, rfl⟩ | ⟨-, rfl⟩ <;> rfl

theorem complete_table (hok : w.complete c = .ok w') : w'.locksTable = w.locksTable := by
  obtain ⟨next, e, -, hidle | ⟨routine, -, ⟨e', -, rfl⟩ | ⟨-, rfl⟩⟩⟩ := complete_ok hok
  · have htable := schedule_table hidle
    exact htable
  · rfl
  · rfl

/-- The table and the points after a suspension. -/
theorem Suspended.waiting (h : w.Suspended c d reason p w') (j : ℤ) :
    w'.waiting j = if j = d then w.waiting d ++ [c] else w.waiting j := by
  obtain ⟨w₁, hlock, hschedule⟩ := h
  obtain ⟨-, -, hwaiting⟩ := lock_ok hlock
  rw [← hwaiting j, World.waiting, schedule_table hschedule]
  rfl

theorem Suspended.tableStep (h : w.Suspended c d reason p w')
    (hp : p.awaited = some (d, ref, reason)) : TableStep w c w' := by
  have hpoint := h.frame.2.2
  have hself : w'.Inside c d := by
    refine ⟨ref, reason, ?_⟩
    rw [hpoint, Function.update_self]
    exact hp
  constructor
  · intro c' j hmem
    rw [h.waiting]
    split
    · rename_i hjd
      exact List.mem_append_left _ (hjd ▸ hmem)
    · exact hmem
  · intro c' j hmem
    rw [h.waiting] at hmem
    split at hmem
    · rename_i hjd
      subst hjd
      rcases List.mem_append.mp hmem with hold | hnew
      · exact Or.inl hold
      · exact Or.inr ⟨List.mem_singleton.mp hnew, hself⟩
    · exact Or.inl hmem
  · rintro c' j ⟨ref', reason', hawaited⟩
    rw [hpoint] at hawaited
    by_cases hcc : c' = c
    · subst hcc
      rw [Function.update_self, hp] at hawaited
      cases hawaited
      rw [h.waiting, if_pos rfl]
      exact Or.inr (List.mem_append_right _ List.mem_cons_self)
    · rw [Function.update_of_ne hcc] at hawaited
      exact Or.inl ⟨ref', reason', hawaited⟩

/-- The table and the points do not see that a channel has been stored and flags have been
cleared. -/
theorem TableStep.of_transferred {node : MapNode}
    (h : TableStep (w.transferred d node reason) c w') :
    TableStep w c w' := ⟨h.stays, h.added, h.suspended⟩

theorem Passes.tableStep {woken own : LockedState} (h : w.Passes c d ref woken own w') :
    TableStep w c w' := by
  cases h with
  | done => exact tableStep_of_same rfl fun _ _ ↦ inside_of_at_body
  | last => exact TableStep.of_transferred (tableStep_of_same rfl fun _ _ ↦ inside_of_at_body)
  | wait _ _ hawaited hsuspended => exact TableStep.of_transferred (hsuspended.tableStep hawaited)

theorem Effect.tableStep (heffect : Effect w c events w') : TableStep w c w' := by
  cases heffect with
  | idle => exact tableStep_of_same rfl fun _ _ h ↦ h
  | run => exact tableStep_of_same rfl fun _ _ h ↦ h
  | schedule hschedule =>
      exact tableStep_of_same (schedule_table hschedule) fun _ _ ↦
        inside_of_point (schedule_frame hschedule).2.2
  | complete _ hcomplete =>
      exact tableStep_of_same (complete_table hcomplete) fun _ _ ↦
        inside_of_point (complete_frame hcomplete).2.2
  | create => exact tableStep_of_same rfl fun _ _ h ↦ h
  | renew => exact tableStep_of_same rfl fun _ _ h ↦ h
  | close => exact tableStep_of_same rfl fun _ _ h ↦ h
  | sendCall _ _ hloop | sendResume _ hloop => exact (sendLoop_passes hloop).tableStep
  | recvCall _ _ hloop | recvResume _ hloop => exact (recvLoop_passes hloop).tableStep

/-! ## Runs -/

theorem start_table (hstart : start = .ok w) : c ∉ w.waiting d ∧ ¬w.Inside c d := by
  obtain ⟨⟨pc, e⟩, -, h⟩ := ok_of_bind hstart
  constructor
  · rw [waiting, schedule_table h]
    exact List.not_mem_nil
  · rintro ⟨ref, reason, hawaited⟩
    rw [(schedule_frame h).2.2] at hawaited
    cases hawaited

theorem Takes.tableStep (hmap : w.ChannelMap) (h : w.Takes act w') :
    ∃ c, w.engine.curRoutine = some c ∧ TableStep w c w' := by
  cases h with
  | exec c events hcur _ hallowed hexec =>
    exact ⟨c, hcur, (exec_effect hmap hallowed hexec).tableStep⟩

/-- The table lists under each descriptor exactly the contexts that have waited there. -/
theorem mem_waiting_iff_waitedOn (hstart : start = .ok w₀) (hrun : Run Takes w₀ acts w) :
    c ∈ w.waiting d ↔ WaitedOn w₀ acts c d := by
  induction hrun with
  | nil =>
      apply iff_of_false (start_table hstart).1
      rintro ⟨before, after, u, hacts, hbefore, hinside⟩
      obtain ⟨rfl, -⟩ := List.append_eq_nil_iff.mp hacts.symm
      obtain rfl := hbefore.eq_of_nil
      exact (start_table hstart).2 hinside
  | snoc hrun hlast ih =>
      obtain ⟨history, hreaches⟩ := reaches_of_takes hstart hrun
      obtain ⟨c', -, htable⟩ := hlast.tableStep hreaches.channelMap
      rw [waitedOn_snoc hrun hlast, ← ih]
      constructor
      · intro hmem
        rcases htable.added c d hmem with hold | ⟨rfl, hinside⟩
        · exact Or.inl hold
        · exact Or.inr hinside
      · rintro (hold | hinside)
        · exact htable.stays c d hold
        · rcases htable.suspended c d hinside with hinside | hmem
          · exact htable.stays c d (ih.mpr ⟨_, [], _, (List.append_nil _).symm, hrun, hinside⟩)
          · exact hmem

/-- The table lists exactly the contexts that have waited. -/
theorem inTable_iff_waited (hstart : start = .ok w₀) (hrun : Run Takes w₀ acts w) :
    w.InTable c ↔ Waited w₀ acts c := by
  rw [waited_iff_waitedOn]
  exact exists_congr fun d ↦ mem_waiting_iff_waitedOn hstart hrun

/-- Only a return deletes a context, the one that returns. -/
theorem Takes.registered (hl : Steady w.engine l) (h : w.Takes act w')
    (hc : w.engine.context c ≠ none) :
    w'.engine.context c ≠ none ∨ (act = .ret ∧ w.engine.curRoutine = some c) := by
  cases h with
  | exec c' events hcur _ _ hexec =>
      have hsteady := exec_steady hl hcur hexec
      have hmem := (hl.listed.mem c).mpr hc
      by_cases hret : act = .ret
      · by_cases hcc : c = c'
        · exact Or.inr ⟨hret, hcc ▸ hcur⟩
        · subst hret
          exact Or.inl ((hsteady.listed.mem c).mp ((List.mem_erase_of_ne hcc).mpr hmem))
      · refine Or.inl ((hsteady.listed.mem c).mp ?_)
        cases act with
        | run => exact List.mem_cons_of_mem _ hmem
        | ret => exact absurd rfl hret
        | _ => exact hmem

theorem Takes.deleted (hl : Steady w.engine l) (h : w.Takes .ret w')
    (hcur : w.engine.curRoutine = some c) : w'.engine.context c = none := by
  cases h with
  | exec c' events hcur' _ _ hexec =>
      obtain rfl := Option.some.inj (hcur.symm.trans hcur')
      have hsteady := exec_steady hl hcur hexec
      by_contra hne
      exact hl.listed.nodup.not_mem_erase ((hsteady.listed.mem c).mpr hne)

/-- A coroutine that returns is not suspended. -/
theorem Takes.ret_point (h : w.Takes .ret w') (hcur : w.engine.curRoutine = some c) :
    w'.point c = .body := by
  cases h with
  | exec c' events hcur' _ hallowed hexec =>
      obtain rfl := Option.some.inj (hcur.symm.trans hcur')
      obtain ⟨w₁, hcomplete, hw'⟩ := ok_of_bind hexec
      obtain ⟨-, rfl⟩ := Prod.mk.inj (Except.ok.inj hw')
      rw [(complete_frame hcomplete).2.2]
      exact hallowed

theorem unlockEach_of_registered (reason : LockedState) {e : Engine LockedState} {cs : List Ctx}
    (h : ∀ c ∈ cs, e.context c ≠ none) : ∃ e', unlockEach e reason cs = .ok e' := by
  induction cs generalizing e with
  | nil => exact ⟨e, rfl⟩
  | cons c cs ih =>
      obtain ⟨x, hx⟩ := Option.ne_none_iff_exists'.mp (h c List.mem_cons_self)
      have htail : ∀ c' ∈ cs, e.context c' ≠ none := fun c' hc' ↦ h c' (List.mem_cons_of_mem c hc')
      simp only [unlockEach, Engine.get_eq hx, ok_bind]
      split
      · apply ih
        intro c' hc'
        simp only [Engine.put, Function.update_apply]
        split
        · simp
        · exact htail c' hc'
      · exact ih htail

/-- `unlock_all` then reads and writes registered contexts only. -/
theorem LockTableAlive.unlockAll (h : w.LockTableAlive) (d : ℤ) (reason : LockedState) :
    ∃ w', w.unlockAll d reason = .ok w' := by
  unfold World.unlockAll
  cases hfind : find d w.locksTable with
  | none => exact ⟨w, rfl⟩
  | some p =>
      have hregistered : ∀ c ∈ p.2, w.engine.context c ≠ none := fun c hc ↦
        h d c (by rw [waiting, hfind]; exact hc)
      obtain ⟨e, he⟩ := unlockEach_of_registered reason hregistered
      refine ⟨{ w with engine := e }, ?_⟩
      simp only [he, ok_bind]

end World

open World

/-- Over a whole run, the lock table leads to registered contexts only, and `unlock_all` finds them,
if and only if no coroutine returns that was ever suspended in `send_channel` or `recv_channel`. -/
theorem lock_table_alive_iff {w₀ w : World} {acts : List Action} (hstart : start = .ok w₀)
    (hrun : Run Takes w₀ acts w) :
    (∀ before after u, acts = before ++ after → Run Takes w₀ before u →
      u.LockTableAlive ∧ ∀ d reason, ∃ u', u.unlockAll d reason = .ok u') ↔
    ∀ before after u c, acts = before ++ .ret :: after → Run Takes w₀ before u →
      u.engine.curRoutine = some c → ¬Waited w₀ before c := by
  constructor
  · rintro halive before after u c rfl hbefore hcur hwaited
    obtain ⟨u₁, hbefore₁, hafter⟩ := hrun.append_inv
    obtain rfl := hbefore.deterministic takes_deterministic hbefore₁
    rw [← List.singleton_append] at hafter
    obtain ⟨v, hret, -⟩ := hafter.append_inv
    obtain ⟨t, hnil, hstep⟩ := Run.snoc_inv (show Run Takes u ([] ++ [.ret]) v from hret)
    obtain rfl := hnil.eq_of_nil
    obtain ⟨history, hreaches⟩ := reaches_of_takes hstart hbefore
    obtain ⟨l, hl⟩ := hreaches.steady
    obtain ⟨c', -, htable⟩ := hstep.tableStep hreaches.channelMap
    obtain ⟨d, hd⟩ := (inTable_iff_waited hstart hbefore).mpr hwaited
    have hv := (halive (before ++ [.ret]) after v (by simp) (hbefore.snoc hstep)).1
    exact hv d c (htable.stays c d hd) (hstep.deleted hl hcur)
  · intro hnever before after u hacts hbefore
    suffices halive : u.LockTableAlive from ⟨halive, halive.unlockAll⟩
    induction hbefore generalizing after with
    | nil => exact fun d c hd ↦ absurd hd (start_table hstart).1
    | snoc hbefore hstep ih =>
        rename_i t u before act
        rw [List.append_assoc, List.singleton_append] at hacts
        have halive := ih (act :: after) hacts
        obtain ⟨history, hreaches⟩ := reaches_of_takes hstart hbefore
        obtain ⟨l, hl⟩ := hreaches.steady
        obtain ⟨c', hcur, htable⟩ := hstep.tableStep hreaches.channelMap
        intro d c hd
        rcases htable.added c d hd with hold | ⟨rfl, hinside⟩
        · rcases hstep.registered hl (halive d c hold) with hstays | ⟨rfl, hret⟩
          · exact hstays
          · -- a coroutine that has waited returns
            have hwaited := (inTable_iff_waited hstart hbefore).mp ⟨d, hold⟩
            exact absurd hwaited (hnever before after t c hacts hbefore hret)
        · rcases hstep.registered hl (hl.current c hcur) with hstays | ⟨rfl, -⟩
          · exact hstays
          · exact absurd (hstep.ret_point hcur) (point_ne_body_iff.mpr ⟨d, hinside⟩)

/-- A coroutine waits for a channel of the main coroutine, and nobody returns. -/
theorem lock_table_alive_waiting : ∃ w₀ w, start = .ok w₀ ∧
    Run Takes w₀ [.create zeros, .run, .yield, .recv 0 1] w ∧ w.InTable 1 ∧ w.LockTableAlive := by
  have hplay : (playFromStart [.create zeros, .run, .yield, .recv 0 1]).map
      (fun r ↦ r.2.waiting 0) = some [1] := by
    decide +kernel
  obtain ⟨⟨history, w⟩, hw, hwaiting⟩ := Option.map_eq_some_iff.mp hplay
  obtain ⟨w₀, hstart, hrun⟩ := takes_of_play hw
  have hnever : Action.ret ∉ [.create zeros, .run, .yield, .recv 0 1] := by simp
  have halive := (lock_table_alive_iff hstart hrun).mpr fun before after u c hacts _ _ ↦
    absurd (hacts ▸ List.mem_append_right before List.mem_cons_self) hnever
  have hin : (1 : Ctx) ∈ w.waiting 0 := by
    rw [show w.waiting 0 = [1] from hwaiting]
    exact List.mem_cons_self
  exact ⟨w₀, w, hstart, hrun, ⟨0, hin⟩, (halive _ [] w (List.append_nil _).symm hrun).1⟩

/-- A coroutine waits for a channel, is served and returns; the next byte that is sent on the
channel makes `unlock_all` read its deleted context. -/
theorem unlock_all_reads_deleted : ∃ w history, Reaches w history ∧ ¬w.LockTableAlive ∧
    w.engine.curRoutine = some 0 ∧ w.exited = false ∧ w.Allowed 0 (.send 0 [8]) ∧
    w.exec 0 (.send 0 [8]) = .error (.deleted 1) := by
  have hplay : (playFromStart [.create zeros, .run, .yield, .recv 0 1, .send 0 [7], .yield,
      .resume, .ret]).map
      (fun r ↦ (r.2.waiting 0, (r.2.engine.context 1).isSome || r.2.exited,
        r.2.engine.curRoutine, r.2.point 0,
        match r.2.exec 0 (.send 0 [8]) with
        | .error fault => some fault
        | .ok _ => none)) = some ([1], false, some 0, .body, some (.deleted 1)) := by
    decide +kernel
  obtain ⟨⟨history, w⟩, hw, heq⟩ := Option.map_eq_some_iff.mp hplay
  simp only [Prod.mk.injEq] at heq
  obtain ⟨hwaiting, hfalse, hcur, hpoint, hfault⟩ := heq
  obtain ⟨hdeleted, hexited⟩ := Bool.or_eq_false_iff.mp hfalse
  have hexec : w.exec 0 (.send 0 [8]) = .error (.deleted 1) := by
    cases hx : w.exec 0 (.send 0 [8]) with
    | error fault => rw [hx] at hfault; rw [Option.some.inj hfault]
    | ok r => rw [hx] at hfault; cases hfault
  refine ⟨w, history, reaches_of_play hw, fun halive ↦ ?_, hcur, hexited, hpoint, hexec⟩
  apply halive 0 1
  · rw [hwaiting]
    exact List.mem_cons_self
  · exact Option.not_isSome_iff_eq_none.mp (Bool.not_eq_true _ ▸ hdeleted)

end CppMtHw.NetEngine
