import CppMtHw.NetEngine.LockTable

/-!
# Closing channels

`close_channel` asks the lock table whether there are locks on the channel. The table lists
everybody that has ever waited there, and `unlock_all` does not erase them, so once somebody has
waited the channel stays open for good. It is due to this that a suspended call never loses the
channel to which it keeps a reference.
-/

namespace CppMtHw.NetEngine

open Machine Coroutines

namespace World

variable {w w' w₀ : World} {c c' : Ctx} {d j : ℤ} {ref : ℕ} {act : Action} {acts : List Action}
  {events : List Event} {reason : LockedState} {node : MapNode} {p : Point}

def Blocked (w : World) (c : Ctx) (d : ℤ) : Prop :=
  w.Inside c d ∧ ∃ reason, lockOf w.engine c = some reason ∧ reason ≠ .notLocked

def Refuses (w : World) (c : Ctx) (d : ℤ) : Prop :=
  w.exec c (.close d) = .ok ([.closeRet c d (-1)], w)

def Closes (w : World) (c : Ctx) (d : ℤ) : Prop :=
  ∃ channels, w.exec c (.close d) = .ok ([.closeRet c d 0], { w with channels }) ∧
    ∀ j, { w with channels }.nodeAt j = if j = d then none else w.nodeAt j

structure ClosesAsDocumented (w : World) (c : Ctx) (d : ℤ) : Prop where
  refuses : (∃ c', w.Blocked c' d) → w.Refuses c d
  closes : (¬∃ c', w.Blocked c' d) → w.Closes c d

theorem exec_close : w.exec c (.close d) =
    if w.waiting d ≠ [] then .ok ([.closeRet c d (-1)], w)
    else .ok ([.closeRet c d 0], { w with channels := SortedMap.erase (· < ·) d w.channels }) := rfl

theorem refuses_iff : w.Refuses c d ↔ w.waiting d ≠ [] := by
  unfold Refuses
  rw [exec_close]
  split
  · rename_i hwaiting
    exact iff_of_true rfl hwaiting
  · rename_i hwaiting
    apply iff_of_false _ hwaiting
    intro hret
    cases (Prod.mk.inj (Except.ok.inj hret)).1

theorem closes_iff (hmap : w.ChannelMap) : w.Closes c d ↔ w.waiting d = [] := by
  constructor
  · rintro ⟨channels, hexec, -⟩
    by_contra hwaiting
    have hrefuses := (refuses_iff (c := c)).mpr hwaiting
    have hret := (Prod.mk.inj (Except.ok.inj (hrefuses.symm.trans hexec))).1
    cases hret
  · intro hwaiting
    refine ⟨SortedMap.erase (· < ·) d w.channels, ?_, fun j ↦ nodeAt_erase hmap.sorted⟩
    rw [exec_close]
    exact if_neg (not_not.mpr hwaiting)

theorem Blocked.waitedOn (hrun : Run Takes w₀ acts w) (h : w.Blocked c d) : WaitedOn w₀ acts c d :=
  ⟨acts, [], w, (List.append_nil acts).symm, hrun, h.1⟩

theorem waiting_eq_nil_iff (hstart : start = .ok w₀) (hrun : Run Takes w₀ acts w) :
    w.waiting d = [] ↔ ∀ c, ¬WaitedOn w₀ acts c d := by
  rw [List.eq_nil_iff_forall_not_mem]
  exact forall_congr' fun c ↦ not_congr (mem_waiting_iff_waitedOn hstart hrun)

/-! ## References to channels -/

/-- A suspended call has a reference to a channel in the map, and is listed for it. -/
def Referenced (w : World) : Prop :=
  ∀ c d ref reason, (w.point c).awaited = some (d, ref, reason) →
    (∃ channel, w.nodeAt d = some { ref, channel }) ∧ c ∈ w.waiting d

theorem Referenced.of_frame (h : w.Referenced) (hpoint : w'.point = w.point)
    (hchannels : w'.channels = w.channels) (htable : w'.locksTable = w.locksTable) :
    w'.Referenced := by
  intro c d ref reason hawaited
  rw [hpoint] at hawaited
  rw [nodeAt, waiting, hchannels, htable]
  exact h c d ref reason hawaited

theorem Referenced.schedule {routine : Option Ctx} (h : w.Referenced)
    (hok : w.schedule routine = .ok w') : w'.Referenced := by
  obtain ⟨hchannels, -, hpoint⟩ := schedule_frame hok
  exact h.of_frame hpoint hchannels (schedule_table hok)

theorem Referenced.complete (h : w.Referenced) (hok : w.complete c = .ok w') : w'.Referenced := by
  obtain ⟨hchannels, -, hpoint⟩ := complete_frame hok
  exact h.of_frame hpoint hchannels (complete_table hok)

theorem Referenced.at_body (h : w.Referenced) : (w.at_ c .body).Referenced := by
  intro c' d ref reason hawaited
  exact h c' d ref reason (awaited_of_at_body hawaited)

theorem Referenced.addChannel (h : w.Referenced) (hfree : w.nodeAt d = none) (fresh : FreshBuffer) :
    (w.addChannel d fresh).Referenced := by
  intro c j ref reason hawaited
  obtain ⟨⟨channel, hnode⟩, hmem⟩ := h c j ref reason hawaited
  have hne : j ≠ d := by
    rintro rfl
    rw [hfree] at hnode
    cases hnode
  exact ⟨⟨channel, nodeAt_addChannel.trans ((if_neg hne).trans hnode)⟩, hmem⟩

/-- The channel under a node may change, the node stays. -/
theorem Referenced.setChannel (h : w.Referenced) {channel channel' : Channel}
    (hnode : w.nodeAt d = some { ref, channel }) :
    (w.setChannel d { ref, channel := channel' }).Referenced := by
  intro c j ref' reason hawaited
  obtain ⟨⟨channel₁, hnode₁⟩, hmem⟩ := h c j ref' reason hawaited
  refine ⟨?_, hmem⟩
  by_cases hj : j = d
  · subst hj
    obtain rfl : ref' = ref := (MapNode.mk.inj (Option.some.inj (hnode₁.symm.trans hnode))).1
    exact ⟨channel', nodeAt_setChannel.trans (if_pos rfl)⟩
  · exact ⟨channel₁, nodeAt_setChannel.trans ((if_neg hj).trans hnode₁)⟩

theorem Referenced.transferred (h : w.Referenced) {channel : Channel}
    (hnode : w.nodeAt d = some { ref, channel }) (channel' : Channel) (reason : LockedState) :
    (w.transferred d { ref, channel := channel' } reason).Referenced :=
  (h.setChannel hnode).of_frame rfl rfl rfl

/-- Nobody has a reference to a channel that is closed. -/
theorem Referenced.close (h : w.Referenced) (hmap : w.ChannelMap) (hwaiting : w.waiting d = []) :
    { w with channels := SortedMap.erase (· < ·) d w.channels }.Referenced := by
  intro c j ref reason hawaited
  obtain ⟨⟨channel, hnode⟩, hmem⟩ := h c j ref reason hawaited
  have hne : j ≠ d := by
    rintro rfl
    rw [hwaiting] at hmem
    exact List.not_mem_nil hmem
  exact ⟨⟨channel, (nodeAt_erase hmap.sorted).trans ((if_neg hne).trans hnode)⟩, hmem⟩

theorem Referenced.suspend (h : w.Referenced) {channel : Channel}
    (hnode : w.nodeAt d = some { ref, channel })
    (hawaited : p.awaited = some (d, ref, reason)) (hsuspended : w.Suspended c d reason p w') :
    w'.Referenced := by
  obtain ⟨hchannels, -, hpoint⟩ := hsuspended.frame
  have hnodeAt : ∀ j, w'.nodeAt j = w.nodeAt j := by
    intro j
    rw [nodeAt, nodeAt, hchannels]
  intro c' j ref' reason' hawaited'
  rw [hpoint] at hawaited'
  rw [hnodeAt, hsuspended.waiting]
  by_cases hc : c' = c
  · subst hc
    rw [Function.update_self, hawaited] at hawaited'
    cases hawaited'
    rw [if_pos rfl]
    exact ⟨⟨channel, hnode⟩, List.mem_append_right _ List.mem_cons_self⟩
  · rw [Function.update_of_ne hc] at hawaited'
    obtain ⟨hnode', hmem⟩ := h c' j ref' reason' hawaited'
    refine ⟨hnode', ?_⟩
    split
    · rename_i hjd
      exact List.mem_append_left _ (hjd ▸ hmem)
    · exact hmem

theorem Referenced.passes {woken own : LockedState} (h : w.Referenced)
    (hpasses : w.Passes c d ref woken own w') : w'.Referenced := by
  cases hpasses with
  | done => exact h.at_body
  | last hnode => exact (h.transferred hnode _ woken).at_body
  | wait hnode _ hawaited hsuspended =>
      exact (h.transferred hnode _ woken).suspend
        (nodeAt_setChannel.trans (if_pos rfl)) hawaited hsuspended

/-- Every action of the running coroutine keeps the references valid. -/
theorem Effect.referenced (h : w.Referenced) (hmap : w.ChannelMap)
    (heffect : Effect w c events w') : w'.Referenced := by
  cases heffect with
  | idle => exact h
  | run => exact h.of_frame rfl rfl rfl
  | schedule hschedule => exact h.schedule hschedule
  | complete _ hcomplete => exact h.complete hcomplete
  | create hfree fresh => exact h.addChannel hfree fresh
  | renew hnode _ fresh => exact h.setChannel hnode
  | close hwaiting => exact h.close hmap hwaiting
  | sendCall _ _ hloop | sendResume _ hloop => exact h.passes (sendLoop_passes hloop)
  | recvCall _ _ hloop | recvResume _ hloop => exact h.passes (recvLoop_passes hloop)

theorem start_referenced (hstart : start = .ok w) : w.Referenced := by
  intro c d ref reason hawaited
  have hinside : w.Inside c d := ⟨ref, reason, hawaited⟩
  exact absurd hinside (start_table hstart).2

theorem Reaches.referenced {history : List Event} (h : Reaches w history) : w.Referenced := by
  apply h.induct (P := fun _ w ↦ w.Referenced) start_referenced
  intro history events w w' c ht hw _ _ heffect
  exact heffect.referenced hw ht.channelMap

end World

open World

/-- After every run `close_channel` does what is documented, on behalf of whichever coroutine, if
and only if somebody is blocked on the channel or nobody has ever waited for it. -/
theorem close_channel_iff {w₀ w : World} {acts : List Action} (hstart : start = .ok w₀)
    (hrun : Run Takes w₀ acts w) (c : Ctx) (d : ℤ) :
    w.ClosesAsDocumented c d ↔ (∃ c', w.Blocked c' d) ∨ ∀ c', ¬WaitedOn w₀ acts c' d := by
  obtain ⟨history, hreaches⟩ := reaches_of_takes hstart hrun
  have hmap := hreaches.channelMap
  have hblocked : (∃ c', w.Blocked c' d) → w.waiting d ≠ [] := by
    rintro ⟨c', hc'⟩ hnil
    exact (waiting_eq_nil_iff hstart hrun).mp hnil c' (hc'.waitedOn hrun)
  constructor
  · intro h
    by_cases hsome : ∃ c', w.Blocked c' d
    · exact Or.inl hsome
    · exact Or.inr ((waiting_eq_nil_iff hstart hrun).mp ((closes_iff hmap).mp (h.closes hsome)))
  · intro h
    constructor
    · intro hsome
      exact refuses_iff.mpr (hblocked hsome)
    · intro hnone
      have hnever := h.resolve_left hnone
      exact (closes_iff hmap).mpr ((waiting_eq_nil_iff hstart hrun).mpr hnever)

/-- The main coroutine may close a channel on which a coroutine is blocked only in vain. -/
theorem close_channel_blocked : ∃ w₀ w, start = .ok w₀ ∧
    Run Takes w₀ [.create zeros, .run, .yield, .recv 0 1] w ∧ w.ClosesAsDocumented 0 0 := by
  have hplay : (playFromStart [.create zeros, .run, .yield, .recv 0 1]).map
      (fun r ↦ (lockOf r.2.engine 1, (r.2.point 1).awaited)) =
        some (some .lockedRead, some (0, 0, .lockedRead)) := by
    decide +kernel
  obtain ⟨⟨history, w⟩, hw, heq⟩ := Option.map_eq_some_iff.mp hplay
  obtain ⟨hlock, hawaited⟩ := Prod.mk.inj heq
  obtain ⟨w₀, hstart, hrun⟩ := takes_of_play hw
  have hblocked : w.Blocked 1 0 := ⟨⟨0, .lockedRead, hawaited⟩, .lockedRead, hlock, by simp⟩
  exact ⟨w₀, w, hstart, hrun, (close_channel_iff hstart hrun 0 0).mpr (Or.inl ⟨1, hblocked⟩)⟩

/-- A coroutine waits for a byte and gets it. Nobody is blocked any more, and still the channel
cannot be closed. -/
theorem close_channel_refused : ∃ w history, Reaches w history ∧ w.engine.curRoutine = some 1 ∧
    w.exited = false ∧ w.Allowed 1 (.close 0) ∧ (∀ c, ¬w.Inside c 0) ∧ w.Refuses 1 0 ∧
    ¬w.ClosesAsDocumented 1 0 := by
  have hplay : (playFromStart [.create zeros, .run, .yield, .recv 0 1, .send 0 [7], .yield,
      .resume]).map (fun r ↦ (r.2.engine.curRoutine, r.2.exited, r.2.point 1, r.2.waiting 0)) =
      some (some 1, false, .body, [1]) := by
    decide +kernel
  obtain ⟨⟨history, w⟩, hw, heq⟩ := Option.map_eq_some_iff.mp hplay
  simp only [Prod.mk.injEq] at heq
  obtain ⟨hcur, hexited, hpoint, hwaiting⟩ := heq
  have hreaches := reaches_of_play hw
  have hnobody : ∀ c, ¬w.Inside c 0 := by
    rintro c ⟨ref, reason, hawaited⟩
    have hmem := (hreaches.referenced c 0 ref reason hawaited).2
    rw [hwaiting] at hmem
    obtain rfl := List.mem_singleton.mp hmem
    rw [hpoint] at hawaited
    cases hawaited
  have hsome : w.waiting 0 ≠ [] := by simp [hwaiting]
  refine ⟨w, history, hreaches, hcur, hexited, hpoint, hnobody, refuses_iff.mpr hsome, ?_⟩
  intro h
  have hcloses := h.closes fun ⟨c, hblocked⟩ ↦ hnobody c hblocked.1
  exact hsome ((closes_iff hreaches.channelMap).mp hcloses)

/-- No channel disappears under a suspended call: in every world that can be reached, the map still
has the node to which a call suspended in `send_channel` or `recv_channel` has a reference, and
nobody can close the channel. -/
theorem channel_present {w : World} {history : List Event} (h : Reaches w history) {c : Ctx} {d : ℤ}
    {ref : ℕ} {reason : LockedState} (hawaited : (w.point c).awaited = some (d, ref, reason)) :
    (∃ channel, w.nodeAt d = some { ref, channel }) ∧ ∀ c', w.Refuses c' d := by
  obtain ⟨hnode, hmem⟩ := h.referenced c d ref reason hawaited
  refine ⟨hnode, fun c' ↦ refuses_iff.mpr ?_⟩
  exact List.ne_nil_of_mem hmem

/-- The coroutine that waits for the main coroutine's channel keeps it open, also once it is
unlocked. -/
theorem channel_present_unlocked : ∃ w history, Reaches w history ∧
    lockOf w.engine 1 = some .notLocked ∧
    (w.point 1).awaited = some (0, 0, .lockedRead) ∧
    (∃ channel, w.nodeAt 0 = some { ref := 0, channel }) ∧ ∀ c, w.Refuses c 0 := by
  have hplay : (playFromStart [.create zeros, .run, .yield, .recv 0 1, .send 0 [7]]).map
      (fun r ↦ (lockOf r.2.engine 1, (r.2.point 1).awaited)) =
        some (some .notLocked, some (0, 0, .lockedRead)) := by
    decide +kernel
  obtain ⟨⟨history, w⟩, hw, heq⟩ := Option.map_eq_some_iff.mp hplay
  obtain ⟨hlock, hawaited⟩ := Prod.mk.inj heq
  have hreaches := reaches_of_play hw
  exact ⟨w, history, hreaches, hlock, hawaited, channel_present hreaches hawaited⟩

end CppMtHw.NetEngine
