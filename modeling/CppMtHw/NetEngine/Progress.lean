import Mathlib.Algebra.BigOperators.Group.Finset.Basic
import Mathlib.Data.Finset.Card
import CppMtHw.Machine.Amortization
import CppMtHw.NetEngine.PerChannel

/-!
# Every run makes progress

A coroutine that goes on with a suspended call either moves a byte or finds its channel as
it left it, and then it is locked again. The bytes are paid for by the calls that ask for
them. A resumption in vain wakes only contexts that the channel can now serve, as long as
nobody is woken for another channel than the one it waits for, so there are no more of
them in a row than contexts. Hence a run is not much longer than the calls in it.
-/

namespace CppMtHw.NetEngine

open Machine Coroutines

def Point.left : Point → ℕ
  | .body => 0
  | .send _ _ data written => data.length - written
  | .recv _ _ nbytes data => nbytes - data.length

/-- What an action pays for: itself, and the bytes that it asks for. To go on with a suspended call
pays for nothing. -/
def Action.charge : Action → ℕ
  | .send _ data => data.length + 1
  | .recv _ nbytes => nbytes + 1
  | .resume => 0
  | .run | .yield | .sched _ | .create _ | .createAt _ _ | .close _ | .ret => 1

def Action.descriptor : Action → Option ℤ
  | .send d _ => some d
  | .recv d _ => some d
  | _ => none

def Action.spawned : Action → ℕ
  | .run => 1
  | _ => 0

namespace World

variable {w w' w₀ : World} {c c' : Ctx} {d j : ℤ} {ref written nbytes n : ℕ} {data : List UInt8}
  {act : Action} {acts : List Action} {events : List Event} {reason own woken : LockedState}
  {l l' : List Ctx} {p : Point}

/-- The bytes that the calls under way of the first `n` contexts have still to transfer. -/
def bytesLeft (w : World) (n : ℕ) : ℕ := ∑ c ∈ Finset.range n, (w.point c).left

/-- The context may go on with a call on a channel that cannot serve it. -/
def Vain (w : World) (c : Ctx) : Prop :=
  lockOf w.engine c = some .notLocked ∧
    ∃ d node reason, (w.point c).awaited = some (d, node.ref, reason) ∧
    w.nodeAt d = some node ∧ node.channel.Stuck reason

open Classical in
noncomputable def vain (w : World) (n : ℕ) : ℕ := ((Finset.range n).filter w.Vain).card

/-- A transfer on one channel wakes a context that waits for another one. -/
def Crosses (w : World) (act : Action) : Prop :=
  ∃ running c d d' ref reason, w.engine.curRoutine = some running ∧
    w.Transfers running act d' reason ∧
    c ∈ w.waiting d' ∧ lockOf w.engine c = some reason ∧
    (w.point c).awaited = some (d, ref, reason) ∧ d ≠ d'

theorem crossing_of_crosses (hstart : start = .ok w₀) (hrun : Run Takes w₀ acts w)
    (h : w.Crosses act) : Crossing w₀ acts w act := by
  obtain ⟨running, c, d, d', ref, reason, hcur, htransfers, hmem, hlock, hawaited, hne⟩ := h
  have hwaited := (mem_waiting_iff_waitedOn hstart hrun).mp hmem
  exact ⟨running, c, d, d', ref, reason, hcur, htransfers, hwaited, hlock, hawaited, hne⟩

/-! ## The bytes that are left -/

theorem bytesLeft_congr (hpoint : w'.point = w.point) : w'.bytesLeft n = w.bytesLeft n := by
  unfold bytesLeft
  rw [hpoint]

/-- A context goes on elsewhere. -/
theorem bytesLeft_update (hpoint : w'.point = Function.update w.point c p) (hc : c < n) :
    w'.bytesLeft n + (w.point c).left = w.bytesLeft n + p.left := by
  unfold bytesLeft
  rw [hpoint]
  exact sum_update_add (Finset.range n) w.point Point.left (Finset.mem_range.mpr hc) p

theorem newChannel_point (fresh : FreshBuffer) : (w.newChannel d fresh).point = w.point := by
  unfold newChannel
  split <;> rfl

/-- After `send_channel` no more is left than before. -/
theorem sendLoop_point (hloop : w.sendLoop c d ref data written = .ok (events, w')) :
    ∃ p : Point, w'.point = Function.update w.point c p ∧ p.left ≤ data.length - written := by
  rcases sendLoop_ok hloop with
      ⟨-, -, rfl⟩ | ⟨-, channel, nwrite, channel', -, -, ⟨-, -, rfl⟩ | ⟨-, -, hsuspended⟩⟩
  · exact ⟨.body, rfl, Nat.zero_le _⟩
  · exact ⟨.body, rfl, Nat.zero_le _⟩
  · exact ⟨_, hsuspended.frame.2.2, Nat.sub_le_sub_left (Nat.le_add_right _ _) _⟩

theorem recvLoop_point (hloop : w.recvLoop c d ref nbytes data = .ok (events, w')) :
    ∃ p : Point, w'.point = Function.update w.point c p ∧ p.left ≤ nbytes - data.length := by
  rcases recvLoop_ok hloop with
    ⟨-, -, rfl⟩ | ⟨-, channel, nread, bytes, channel', -, -, ⟨-, -, rfl⟩ | ⟨-, -, hsuspended⟩⟩
  · exact ⟨.body, rfl, Nat.zero_le _⟩
  · exact ⟨.body, rfl, Nat.zero_le _⟩
  · refine ⟨_, hsuspended.frame.2.2, ?_⟩
    show nbytes - (data ++ bytes.take nread).length ≤ nbytes - data.length
    rw [List.length_append]
    omega

/-- Only transfers change where contexts continue. -/
theorem exec_point (hdescriptor : act.descriptor = none) (hact : act ≠ .resume)
    (hexec : w.exec c act = .ok (events, w')) : w'.point = w.point := by
  cases act with
  | send | recv => cases hdescriptor
  | resume => exact absurd rfl hact
  | run =>
      obtain ⟨r, -, h⟩ := ok_of_bind hexec
      obtain ⟨-, rfl⟩ := Prod.mk.inj (Except.ok.inj h)
      rfl
  | yield | sched routine =>
      obtain ⟨w₁, hschedule, h⟩ := ok_of_bind hexec
      obtain ⟨-, rfl⟩ := Prod.mk.inj (Except.ok.inj h)
      exact (schedule_frame hschedule).2.2
  | create fresh =>
      obtain ⟨-, rfl⟩ := Prod.mk.inj (Except.ok.inj hexec)
      exact newChannel_point fresh
  | createAt d fresh =>
      simp only [exec] at hexec
      split at hexec
      · obtain ⟨-, rfl⟩ := Prod.mk.inj (Except.ok.inj hexec)
        exact newChannel_point fresh
      · obtain ⟨-, rfl⟩ := Prod.mk.inj (Except.ok.inj hexec)
        rfl
  | close d =>
      simp only [exec] at hexec
      split at hexec
      · obtain ⟨-, rfl⟩ := Prod.mk.inj (Except.ok.inj hexec)
        rfl
      · obtain ⟨-, rfl⟩ := Prod.mk.inj (Except.ok.inj hexec)
        rfl
  | ret =>
      obtain ⟨w₁, hcomplete, h⟩ := ok_of_bind hexec
      obtain ⟨-, rfl⟩ := Prod.mk.inj (Except.ok.inj h)
      exact (complete_frame hcomplete).2.2

/-- The bytes that are left after an action are paid for by it. -/
theorem exec_charge (hc : c < n) (hact : act ≠ .resume) (hexec : w.exec c act = .ok (events, w')) :
    w'.bytesLeft n < w.bytesLeft n + act.charge := by
  have hsame : act.descriptor = none → w'.bytesLeft n < w.bytesLeft n + 1 := by
    intro hdescriptor
    rw [bytesLeft_congr (exec_point hdescriptor hact hexec)]
    exact Nat.lt_succ_self _
  cases act with
  | resume => exact absurd rfl hact
  | run | yield | sched | create | createAt | close | ret => exact hsame rfl
  | send d data =>
      show w'.bytesLeft n < w.bytesLeft n + (data.length + 1)
      rcases exec_send_ok hexec with ⟨-, -, rfl⟩ | ⟨node, later, -, -, hloop⟩
      · omega
      · obtain ⟨p, hpoint, hleft⟩ := sendLoop_point hloop
        have hsum := bytesLeft_update hpoint hc
        omega
  | recv d nbytes =>
      show w'.bytesLeft n < w.bytesLeft n + (nbytes + 1)
      rcases exec_recv_ok hexec with ⟨-, -, rfl⟩ | ⟨node, later, -, -, hloop⟩
      · omega
      · obtain ⟨p, hpoint, hleft⟩ := recvLoop_point hloop
        have hsum := bytesLeft_update hpoint hc
        rw [List.length_nil] at hleft
        omega

/-! ## Going on with a suspended call -/

/-- What a resumption leads to: fewer bytes are left, or the channel has not served the call, and
then it can serve those that wait for the other direction. -/
inductive Advances (w : World) (c : Ctx) (d : ℤ) (ref : ℕ) (woken own : LockedState)
    (w' : World) : Prop
  | moved {p : Point} (hpoint : w'.point = Function.update w.point c p)
      (hless : p.left < (w.point c).left)
  | vain {channel channel' : Channel} {p : Point} (hnode : w.nodeAt d = some { ref, channel })
      (hstuck : channel.Stuck own) (hserves : ¬channel'.Stuck woken)
      (hawaited : p.awaited = some (d, ref, own)) (hleft : p.left = (w.point c).left)
      (hsuspended : (w.transferred d { ref, channel := channel' } woken).Suspended c d own p w')

/-- A full channel of the engine is not empty. -/
theorem ChannelMap.unread_ne_nil (hmap : w.ChannelMap) {node : MapNode}
    (hnode : w.nodeAt d = some node) (hroom : node.channel.room = 0) :
    node.channel.unread ≠ [] := by
  obtain ⟨hin, hsize⟩ := hmap.inBounds d node hnode
  have hcapacity := hin.length_unread_add_room
  rw [hroom, hsize, defaultChannelBufSize] at hcapacity
  intro hempty
  rw [hempty, List.length_nil] at hcapacity
  split at hcapacity <;> omega

theorem sendLoop_advances (hmap : w.ChannelMap) (hpoint : w.point c = .send d ref data written)
    (hwritten : written < data.length)
    (hloop : w.sendLoop c d ref data written = .ok (events, w')) :
    w.Advances c d ref .lockedRead .lockedWrite w' := by
  have hleft : (w.point c).left = data.length - written := by rw [hpoint]; rfl
  rcases sendLoop_ok hloop with ⟨hdone, -, -⟩ | ⟨-, channel, nwrite, channel', hnode, hwrite, hrest⟩
  · exact absurd hdone (Nat.ne_of_lt hwritten)
  have hin : channel.InBounds := (hmap.inBounds d _ hnode).1
  obtain ⟨c₁, hspec, -, -, -, hunread⟩ := Channel.write_spec hin (data.drop written)
  obtain ⟨rfl, rfl⟩ := Prod.mk.inj (Option.some.inj (hspec.symm.trans hwrite))
  have hrest_length : (data.drop written).length = data.length - written := List.length_drop
  rcases hrest with ⟨-, -, rfl⟩ | ⟨hcut, -, hsuspended⟩
  · refine .moved (p := .body) rfl ?_
    show 0 < (w.point c).left
    omega
  · have hnext : (Point.send d ref data
        (written + min (data.drop written).length channel.room)).left =
        data.length - (written + min (data.drop written).length channel.room) := rfl
    by_cases hroom : channel.room = 0
    · -- nothing is written, so the channel is as full as it was
      have hserves : ¬c₁.Stuck .lockedRead := by
        intro hempty
        have hnil : channel.unread ++ (data.drop written).take channel.room = [] :=
          hunread.symm.trans hempty
        exact hmap.unread_ne_nil hnode hroom (List.append_eq_nil_iff.mp hnil).1
      exact .vain hnode hroom hserves rfl (by omega) hsuspended
    · exact .moved hsuspended.frame.2.2 (by omega)

theorem recvLoop_advances (hmap : w.ChannelMap) (hpoint : w.point c = .recv d ref nbytes data)
    (hread : data.length < nbytes) (hloop : w.recvLoop c d ref nbytes data = .ok (events, w')) :
    w.Advances c d ref .lockedWrite .lockedRead w' := by
  have hleft : (w.point c).left = nbytes - data.length := by rw [hpoint]; rfl
  rcases recvLoop_ok hloop with
      ⟨hdone, -, -⟩ | ⟨-, channel, nread, bytes, channel', hnode, hcall, hrest⟩
  · exact absurd hdone (Nat.ne_of_lt hread)
  obtain ⟨hin, hsize⟩ : channel.InBounds ∧ channel.bufSize = defaultChannelBufSize :=
    hmap.inBounds d _ hnode
  rw [usub_of_le (Nat.le_of_lt hread)] at hcall
  obtain ⟨c₁, hspec, hin', hsize', hunread⟩ := Channel.read_spec hin (nbytes - data.length)
  obtain ⟨rfl, hpair⟩ := Prod.mk.inj (Option.some.inj (hspec.symm.trans hcall))
  obtain ⟨rfl, rfl⟩ := Prod.mk.inj hpair
  rcases hrest with ⟨-, -, rfl⟩ | ⟨hcut, -, hsuspended⟩
  · refine .moved (p := .body) rfl ?_
    show 0 < (w.point c).left
    omega
  · set part := (channel.unread.take (nbytes - data.length)).take
      (min (nbytes - data.length) channel.unread.length) with hpart
    have hlength : part.length = min (nbytes - data.length) channel.unread.length := by
      rw [hpart, List.length_take, List.length_take]
      omega
    have hnext : (Point.recv d ref nbytes (data ++ part)).left =
        nbytes - (data.length + part.length) := by
      rw [← List.length_append]
      rfl
    by_cases hempty : channel.unread = []
    · have hserves : ¬c₁.Stuck .lockedWrite := by
        intro hroom
        have hnil : c₁.unread = [] := by rw [hunread, hempty, List.drop_nil]
        have hset : (w.setChannel d { ref, channel := c₁ }).nodeAt d =
            some { ref, channel := c₁ } :=
          nodeAt_setChannel.trans (if_pos rfl)
        exact (hmap.setChannel hnode ⟨hin', hsize'.trans hsize⟩).unread_ne_nil hset hroom hnil
      rw [hempty, List.length_nil, Nat.min_zero] at hlength
      exact .vain hnode hempty hserves rfl (by omega) hsuspended
    · have hpos := List.length_pos_iff.mpr hempty
      exact .moved hsuspended.frame.2.2 (by omega)

theorem Suspended.lockOf_self (hl : Steady w.engine l) (h : w.Suspended c d reason p w') :
    lockOf w'.engine c = some reason := by
  obtain ⟨w₁, hlock, hschedule⟩ := h
  obtain ⟨hcontext, heq, -⟩ := lock_ok hlock
  have hlocked := lock_steady hl hlock
  have hat : lockOf w'.engine c = lockOf w₁.engine c :=
    lockOf_schedule (w := w₁.at_ c p) hlocked hschedule
  rw [hat, heq]
  exact (lockOf_lock hcontext).trans (if_pos rfl)

/-- A call waits in the direction in which it is locked. -/
theorem Wakeful.awaited_of_locked {orderly : Prop} (h : w.Wakeful orderly l)
    (hlock : lockOf w.engine c = some reason) (hreason : reason ≠ .notLocked) :
    ∃ d ref, (w.point c).awaited = some (d, ref, reason) := by
  obtain ⟨d, node, hawaited, -, -, -⟩ := h.stalled c reason hlock hreason
  exact ⟨d, node.ref, hawaited⟩

/-- Those that may go on in vain after a resumption in vain might have done so before, and the one
that was resumed is locked. -/
theorem vain_of_suspended {orderly : Prop} {channel channel' : Channel} (h : w.Wakeful orderly l')
    (hl : Steady w.engine l) (hnode : w.nodeAt d = some { ref, channel })
    (hstuck : channel.Stuck own) (hserves : ¬channel'.Stuck woken) (hown : own ≠ .notLocked)
    (hwoken : woken ≠ .notLocked) (hother : own ≠ woken)
    (hsuspended : (w.transferred d { ref, channel := channel' } woken).Suspended c d own p w')
    (hnever : ∀ c' j ref, c' ∈ w.waiting d → lockOf w.engine c' = some woken →
      (w.point c').awaited = some (j, ref, woken) → j = d) (hvain : w'.Vain c') :
    c' ≠ c ∧ w.Vain c' := by
  have hl' : Steady (w.transferred d { ref, channel := channel' } woken).engine l := hl.unlocked
  obtain ⟨hfree, j, node, reason, hawaited, hnode', hstuck'⟩ := hvain
  have hne : c' ≠ c := by
    rintro rfl
    rw [hsuspended.lockOf_self hl'] at hfree
    exact hown (Option.some.inj hfree)
  obtain ⟨hchannels, -, hpoint⟩ := hsuspended.frame
  rw [hpoint, Function.update_of_ne hne] at hawaited
  change (w.point c').awaited = _ at hawaited
  have hset : w'.nodeAt j = if j = d then some { ref, channel := channel' } else w.nodeAt j := by
    rw [nodeAt, hchannels]
    exact nodeAt_setChannel
  rw [hset] at hnode'
  rw [lockOf_transfer hl hne (Or.inr hsuspended)] at hfree
  split at hfree
  · -- it has just been woken, so it waits for this channel, which can serve it
    rename_i hcleared
    obtain ⟨d', ref', hawaited'⟩ := h.awaited_of_locked hcleared.2 hwoken
    obtain rfl := hnever c' d' ref' hcleared.1 hcleared.2 hawaited'
    rw [hawaited'] at hawaited
    cases hawaited
    rw [if_pos rfl] at hnode'
    cases hnode'
    exact absurd hstuck' hserves
  · refine ⟨hne, hfree, j, ?_⟩
    split at hnode'
    · rename_i hjd
      subst hjd
      cases hnode'
      refine ⟨{ ref, channel }, reason, hawaited, hnode, ?_⟩
      by_cases hreason : reason = woken
      · exact absurd (hreason ▸ hstuck') hserves
      · have hdirection : reason = own := by
          cases hp : w.point c' <;> rw [hp] at hawaited <;> cases hawaited <;> cases own <;>
            cases woken <;> simp_all
        exact hdirection ▸ hstuck
    · exact ⟨node, reason, hawaited, hnode', hstuck'⟩

/-- A resumption lowers the number of bytes that are left, or of those that may go on in vain. -/
theorem Advances.paid {orderly : Prop} (h : w.Wakeful orderly l') (hl : Steady w.engine l)
    (hc : c < n) (hfree : lockOf w.engine c = some .notLocked) (hown : own ≠ .notLocked)
    (hwoken : woken ≠ .notLocked) (hother : own ≠ woken)
    (hpoint : (w.point c).awaited = some (d, ref, own))
    (hnever : ∀ c' j ref, c' ∈ w.waiting d → lockOf w.engine c' = some woken →
      (w.point c').awaited = some (j, ref, woken) → j = d)
    (hadvances : w.Advances c d ref woken own w') :
    w'.bytesLeft n < w.bytesLeft n ∨ (w'.bytesLeft n ≤ w.bytesLeft n ∧ w'.vain n < w.vain n) := by
  classical
  cases hadvances with
  | moved hpoint' hless =>
      have hsum := bytesLeft_update hpoint' hc
      exact Or.inl (by omega)
  | vain hnode hstuck hserves hawaited hleft hsuspended =>
      have hsum := bytesLeft_update hsuspended.frame.2.2 hc
      change w'.bytesLeft n + (w.point c).left = w.bytesLeft n + _ at hsum
      refine Or.inr ⟨by omega, ?_⟩
      have hself : w.Vain c := ⟨hfree, d, _, own, hpoint, hnode, hstuck⟩
      apply Finset.card_lt_card
      rw [Finset.ssubset_iff_of_subset]
      · refine ⟨c, Finset.mem_filter.mpr ⟨Finset.mem_range.mpr hc, hself⟩, fun hmem ↦ ?_⟩
        have hvain := (Finset.mem_filter.mp hmem).2
        exact (vain_of_suspended h hl hnode hstuck hserves hown hwoken hother hsuspended
          hnever hvain).1 rfl
      · intro c' hmem
        obtain ⟨hrange, hvain⟩ := Finset.mem_filter.mp hmem
        apply Finset.mem_filter.mpr
        exact ⟨hrange, (vain_of_suspended h hl hnode hstuck hserves hown hwoken hother hsuspended
          hnever hvain).2⟩

/-- Going on with a suspended call lowers one of the two quantities if nobody is woken for another
channel. -/
theorem resume_paid {orderly : Prop} (h : w.Wakeful orderly l') (hl : Steady w.engine l)
    (hcur : w.engine.curRoutine = some c) (hexited : w.exited = false) (hc : c < n)
    (hallowed : w.Allowed c .resume) (hexec : w.exec c .resume = .ok (events, w'))
    (hnever : ¬w.Crosses .resume) :
    w'.bytesLeft n < w.bytesLeft n ∨ (w'.bytesLeft n ≤ w.bytesLeft n ∧ w'.vain n < w.vain n) := by
  have hfree := h.awake hexited c hcur
  have hunderway := h.underway c
  have hstranger : ∀ {d woken}, w.Transfers c .resume d woken → ∀ c' j ref, c' ∈ w.waiting d →
      lockOf w.engine c' = some woken → (w.point c').awaited = some (j, ref, woken) → j = d := by
    intro d woken htransfers c' j ref hmem hlock hawaited
    by_contra hne
    exact hnever ⟨c, c', j, d, ref, woken, hcur, htransfers, hmem, hlock, hawaited, hne⟩
  rcases exec_resume_ok hexec with ⟨hpoint, -⟩ | ⟨d, ref, data, written, hpoint, hloop⟩ |
    ⟨d, ref, nbytes, data, hpoint, hloop⟩
  · exact absurd hpoint hallowed
  · rw [hpoint] at hunderway
    have hawaited : (w.point c).awaited = some (d, ref, .lockedWrite) := by rw [hpoint]; rfl
    have htransfers : w.Transfers c .resume d .lockedRead :=
      .sendResume hpoint (Nat.ne_of_lt hunderway)
    have hadvances := sendLoop_advances h.map hpoint hunderway hloop
    exact hadvances.paid h hl hc hfree (by simp) (by simp) (by simp) hawaited (hstranger htransfers)
  · rw [hpoint] at hunderway
    have hawaited : (w.point c).awaited = some (d, ref, .lockedRead) := by rw [hpoint]; rfl
    have htransfers : w.Transfers c .resume d .lockedWrite :=
      .recvResume hpoint (Nat.ne_of_lt hunderway)
    have hadvances := recvLoop_advances h.map hpoint hunderway hloop
    exact hadvances.paid h hl hc hfree (by simp) (by simp) (by simp) hawaited (hstranger htransfers)

/-! ## How many contexts there are -/

theorem schedule_created {routine : Option Ctx} (h : Steady w.engine l)
    (hok : w.schedule routine = .ok w') : w'.engine.created = w.engine.created := by
  rcases schedule_ok hok with ⟨-, rfl⟩ | ⟨e, hsched, rfl⟩ | ⟨-, rfl⟩
  · rfl
  · rcases sched_ok h.listed h.flat hsched with ⟨heq, -⟩ | ⟨target, -, heq⟩ | ⟨heq, -⟩
    · cases heq
    · cases heq
      rfl
    · cases heq
  · rfl

theorem Passes.created (h : w.Passes c d ref woken own w') (hl : Steady w.engine l) :
    w'.engine.created = w.engine.created := by
  cases h with
  | done => rfl
  | last => rfl
  | wait hnode hkept hawaited hsuspended =>
      obtain ⟨w₁, hlock, hschedule⟩ := hsuspended
      have hlocked := lock_steady hl.unlocked hlock
      have hcreated := schedule_created (w := w₁.at_ c _) hlocked hschedule
      rw [hcreated, (lock_ok hlock).2.1]
      rfl

theorem complete_created (hl : Steady w.engine l) (hcur : w.engine.curRoutine = some c)
    (hok : w.complete c = .ok w') : w'.engine.created = w.engine.created := by
  obtain ⟨next, e, hcomplete, hrest⟩ := complete_ok hok
  obtain ⟨x, hx, rfl⟩ := complete_eq_completed hl.listed hcur hcomplete
  have hl' := hl.completed hx
  rcases hrest with hidle | ⟨routine, -, ⟨e', hsched, rfl⟩ | ⟨-, rfl⟩⟩
  · exact schedule_created (w := { w with engine := w.engine.completed c x }) hl' hidle
  · rcases sched_ok hl'.listed hl'.flat hsched with ⟨heq, -⟩ | ⟨target, -, heq⟩ | ⟨heq, -⟩
    · cases heq
    · cases heq
      rfl
    · cases heq
  · rfl

/-- Only `run` creates a context. -/
theorem exec_created (hl : Steady w.engine l) (hcur : w.engine.curRoutine = some c)
    (hexec : w.exec c act = .ok (events, w')) :
    w'.engine.created = w.engine.created + act.spawned := by
  cases act with
  | run =>
      obtain ⟨⟨pc, e⟩, hrun, h⟩ := ok_of_bind hexec
      rw [hl.listed.run_eq] at hrun
      obtain ⟨-, rfl⟩ := Prod.mk.inj (Except.ok.inj hrun)
      obtain ⟨-, rfl⟩ := Prod.mk.inj (Except.ok.inj h)
      rfl
  | yield | sched routine =>
      obtain ⟨w₁, hschedule, h⟩ := ok_of_bind hexec
      obtain ⟨-, rfl⟩ := Prod.mk.inj (Except.ok.inj h)
      exact schedule_created hl hschedule
  | create fresh =>
      obtain ⟨-, rfl⟩ := Prod.mk.inj (Except.ok.inj hexec)
      exact congrArg _ (newChannel_engine w _ fresh)
  | createAt d fresh =>
      simp only [exec] at hexec
      split at hexec
      · obtain ⟨-, rfl⟩ := Prod.mk.inj (Except.ok.inj hexec)
        exact congrArg _ (newChannel_engine w d fresh)
      · obtain ⟨-, rfl⟩ := Prod.mk.inj (Except.ok.inj hexec)
        rfl
  | close d =>
      simp only [exec] at hexec
      split at hexec
      · obtain ⟨-, rfl⟩ := Prod.mk.inj (Except.ok.inj hexec)
        rfl
      · obtain ⟨-, rfl⟩ := Prod.mk.inj (Except.ok.inj hexec)
        rfl
  | ret =>
      obtain ⟨w₁, hcomplete, h⟩ := ok_of_bind hexec
      obtain ⟨-, rfl⟩ := Prod.mk.inj (Except.ok.inj h)
      exact complete_created hl hcur hcomplete
  | send d data =>
      rcases exec_send_ok hexec with ⟨-, -, rfl⟩ | ⟨node, later, -, -, hloop⟩
      · rfl
      · exact (sendLoop_passes hloop).created hl
  | recv d nbytes =>
      rcases exec_recv_ok hexec with ⟨-, -, rfl⟩ | ⟨node, later, -, -, hloop⟩
      · rfl
      · exact (recvLoop_passes hloop).created hl
  | resume =>
      rcases exec_resume_ok hexec with ⟨-, -, rfl⟩ | ⟨d, ref, data, written, -, hloop⟩ |
        ⟨d, ref, nbytes, data, -, hloop⟩
      · rfl
      · exact (sendLoop_passes hloop).created hl
      · exact (recvLoop_passes hloop).created hl

/-! ## Runs -/

def Reachable (w : World) : Prop := ∃ history, Reaches w history

theorem Reachable.takes (h : w.Reachable) (hstep : w.Takes act w') : w'.Reachable := by
  obtain ⟨history, w₀, labels, hstart, hrun, -⟩ := h
  obtain ⟨events, hstep⟩ := hstep.step
  exact ⟨_, w₀, labels ++ [events], hstart, hrun.snoc hstep, rfl⟩

theorem Takes.created (h : w.Reachable) (hstep : w.Takes act w') :
    w'.engine.created = w.engine.created + act.spawned := by
  obtain ⟨history, hreaches⟩ := h
  obtain ⟨l, hl⟩ := hreaches.steady
  cases hstep with
  | exec c events hcur _ _ hexec => exact exec_created hl hcur hexec

/-- Every action lowers what is left and what it brings, or the number of contexts that go on in
vain. -/
theorem Takes.paid (h : w.Reachable) (hstep : w.Takes act w') (hnever : ¬w.Crosses act)
    (hn : w.engine.created ≤ n) :
    w'.bytesLeft n < w.bytesLeft n + act.charge ∨
    (w'.bytesLeft n ≤ w.bytesLeft n ∧ w'.vain n < w.vain n) := by
  obtain ⟨history, hreaches⟩ := h
  obtain ⟨l, hl⟩ := hreaches.steady
  obtain ⟨l', hwakeful⟩ := hreaches.wakeful
  cases hstep with
  | exec c events hcur hexited hallowed hexec =>
      have hc : c < n := by
        have hmem := (hl.listed.mem c).mpr (hl.current c hcur)
        exact Nat.lt_of_lt_of_le (hl.listed.bound c hmem) hn
      by_cases hact : act = .resume
      · subst hact
        exact resume_paid hwakeful hl hcur hexited hc hallowed hexec hnever
      · exact Or.inl (exec_charge hc hact hexec)

theorem vain_le (w : World) (n : ℕ) : w.vain n ≤ n := by
  classical
  unfold vain
  calc
    _ ≤ (Finset.range n).card := Finset.card_filter_le _ _
    _ = n := Finset.card_range n

/-- At the start no call is under way. -/
theorem start_bytesLeft (hstart : start = .ok w) :
    w.bytesLeft n = 0 ∧ w.vain n = 0 ∧ w.engine.created = 1 := by
  obtain ⟨⟨pc, e⟩, hrun, h⟩ := ok_of_bind hstart
  rw [Engine.listed_empty.run_eq] at hrun
  obtain ⟨-, rfl⟩ := Prod.mk.inj (Except.ok.inj hrun)
  have hpoint : ∀ c, w.point c = .body := fun c ↦ congrFun (schedule_frame h).2.2 c
  refine ⟨?_, ?_, ?_⟩
  · apply Finset.sum_eq_zero
    intro c _
    rw [hpoint]
    rfl
  · classical
    unfold vain
    apply Finset.card_eq_zero.mpr
    apply Finset.filter_eq_empty_iff.mpr
    rintro c _ ⟨-, d, node, reason, hawaited, -⟩
    rw [hpoint] at hawaited
    cases hawaited
  · have hl : Steady { initial with engine := Engine.empty.registered .notLocked }.engine [0] :=
      steady_empty.registered
    rw [schedule_created hl h]
    rfl

/-! ## Programs with one channel -/

theorem Passes.inside (h : w.Passes c d ref woken own w') (hinside : w'.Inside c' j) :
    w.Inside c' j ∨ j = d := by
  cases h with
  | done => exact Or.inl (inside_of_at_body hinside)
  | last => exact Or.inl (inside_of_at_body hinside)
  | wait hnode hkept hawaited hsuspended =>
      obtain ⟨ref', reason', hawaited'⟩ := hinside
      rw [hsuspended.frame.2.2] at hawaited'
      by_cases hc : c' = c
      · subst hc
        rw [Function.update_self, hawaited] at hawaited'
        cases hawaited'
        exact Or.inr rfl
      · rw [Function.update_of_ne hc] at hawaited'
        exact Or.inl ⟨ref', reason', hawaited'⟩

/-- A call that is suspended was under way before, or is the one that has just been made. -/
theorem Takes.inside (hstep : w.Takes act w') (hinside : w'.Inside c' j) :
    act.descriptor = some j ∨ ∃ c, w.Inside c j := by
  cases hstep with
  | exec c events hcur hexited hallowed hexec =>
      have hsame : act.descriptor = none → act ≠ .resume → ∃ c, w.Inside c j :=
        fun hdescriptor hact ↦
        ⟨c', inside_of_point (exec_point hdescriptor hact hexec) hinside⟩
      cases act with
      | run | yield | sched | create | createAt | close | ret => exact Or.inr (hsame rfl (by simp))
      | send d data =>
          rcases exec_send_ok hexec with ⟨-, -, rfl⟩ | ⟨node, later, -, -, hloop⟩
          · exact Or.inr ⟨c', hinside⟩
          · rcases (sendLoop_passes hloop).inside hinside with hbefore | rfl
            · exact Or.inr ⟨c', hbefore⟩
            · exact Or.inl rfl
      | recv d nbytes =>
          rcases exec_recv_ok hexec with ⟨-, -, rfl⟩ | ⟨node, later, -, -, hloop⟩
          · exact Or.inr ⟨c', hinside⟩
          · rcases (recvLoop_passes hloop).inside hinside with hbefore | rfl
            · exact Or.inr ⟨c', hbefore⟩
            · exact Or.inl rfl
      | resume =>
          rcases exec_resume_ok hexec with ⟨-, -, rfl⟩ | ⟨d, ref, data, written, hpoint, hloop⟩ |
            ⟨d, ref, nbytes, data, hpoint, hloop⟩
          · exact Or.inr ⟨c', hinside⟩
          · rcases (sendLoop_passes hloop).inside hinside with hbefore | rfl
            · exact Or.inr ⟨c', hbefore⟩
            · exact Or.inr ⟨c, ref, .lockedWrite, by rw [hpoint]; rfl⟩
          · rcases (recvLoop_passes hloop).inside hinside with hbefore | rfl
            · exact Or.inr ⟨c', hbefore⟩
            · exact Or.inr ⟨c, ref, .lockedRead, by rw [hpoint]; rfl⟩

/-- Calls are suspended on channels that have been called for. -/
theorem inside_of_run (hstart : start = .ok w₀) (hrun : Run Takes w₀ acts w)
    (hinside : w.Inside c j) : ∃ act ∈ acts, act.descriptor = some j := by
  induction hrun generalizing c with
  | nil => exact absurd hinside (start_table hstart (d := j)).2
  | snoc hbefore hlast ih =>
      rcases hlast.inside hinside with hcall | ⟨c', hold⟩
      · exact ⟨_, List.mem_append_right _ List.mem_cons_self, hcall⟩
      · obtain ⟨act, hmem, hcall⟩ := ih hold
        exact ⟨act, List.mem_append_left _ hmem, hcall⟩

/-- With one channel nobody can be woken for another one. -/
theorem not_crossing_of_one_channel (hstart : start = .ok w₀) (hrun : Run Takes w₀ acts w)
    (hone : ∀ act ∈ acts, act.descriptor = none ∨ act.descriptor = some d) :
    ¬Crossing w₀ acts w act := by
  rintro ⟨running, c, j, j', ref, reason, -, -, hwaited, -, hawaited, hne⟩
  have hd : ∀ {u before c j}, Run Takes w₀ before u → (∀ act ∈ before, act ∈ acts) →
      u.Inside c j → j = d := by
    intro u before c j hbefore hsub hinside
    obtain ⟨act, hmem, hcall⟩ := inside_of_run hstart hbefore hinside
    rcases hone act (hsub act hmem) with hnone | hsome
    · rw [hnone] at hcall
      cases hcall
    · rw [hsome] at hcall
      exact (Option.some.inj hcall).symm
  obtain ⟨before, after, u, rfl, hbefore, hinside⟩ := hwaited
  have hj' := hd hbefore (fun act hmem ↦ List.mem_append_left _ hmem) hinside
  have hj := hd hrun (fun act hmem ↦ hmem) ⟨ref, reason, hawaited⟩
  exact hne (hj.trans hj'.symm)

end World

open World

/-- Every run in which no transfer wakes a context that waits for another channel is at most as long
as the calls in it, each counted with the bytes it asks for, times the number of coroutines and
one. -/
theorem run_length_le {w₀ w : World} {acts : List Action} (hstart : start = .ok w₀)
    (hrun : Run Takes w₀ acts w) (hnever : ∀ before act after u, acts = before ++ act :: after →
      Run Takes w₀ before u → ¬Crossing w₀ before u act) :
    acts.length ≤ ((acts.map Action.spawned).sum + 2) * (acts.map Action.charge).sum := by
  set n := (acts.map Action.spawned).sum + 1 with hn
  obtain ⟨hleft, hvain, hone⟩ : w₀.bytesLeft n = 0 ∧ w₀.vain n = 0 ∧ w₀.engine.created = 1 :=
    start_bytesLeft hstart
  have hreachable : w₀.Reachable := ⟨[], w₀, [], hstart, Run.nil w₀, rfl⟩
  have hcreated : w.engine.created ≤ n := by
    have hsum : (acts.map fun _ ↦ 0).sum + w.engine.created ≤
        w₀.engine.created + (acts.map Action.spawned).sum := by
      apply hrun.amortized hreachable (fun _ _ _ h hstep ↦ h.takes hstep)
      intro u act u' hu hstep
      rw [Nat.zero_add]
      exact (hstep.created hu).le
    omega
  have hguarded : Run (Guarded (fun u act ↦ ¬u.Crosses act) Takes) w₀ acts w := by
    apply hrun.guarded_of_forall
    intro before act after u hacts hbefore hcrosses
    exact hnever before act after u hacts hbefore (crossing_of_crosses hstart hbefore hcrosses)
  have hkept : ∀ u act u', u.Reachable → Guarded (fun u act ↦ ¬u.Crosses act) Takes u act u' →
      u'.Reachable :=
    fun _ _ _ hu hstep ↦ hu.takes hstep.2
  have hmono : ∀ u act u', u.Reachable → Guarded (fun u act ↦ ¬u.Crosses act) Takes u act u' →
      u.engine.created ≤ u'.engine.created := by
    intro u act u' hu hstep
    rw [hstep.2.created hu]
    exact Nat.le_add_right _ _
  have hbounded := (hguarded.bounded hreachable hkept hmono hcreated).2
  have hlength : acts.length ≤ (n + 1) * (w₀.bytesLeft n + (acts.map Action.charge).sum) +
      w₀.vain n := by
    apply hbounded.length_le hreachable
    · exact fun u act u' hu hstep ↦ hkept u act u' hu hstep.1
    · exact fun u _ ↦ u.vain_le n
    · intro u act u' hu hstep
      exact hstep.1.2.paid hu hstep.1.1 ((hmono u act u' hu hstep.1).trans hstep.2)
  rw [hleft, hvain, Nat.zero_add, Nat.add_zero] at hlength
  exact hlength

/-- A coroutine waits for a byte of the main coroutine and is resumed. -/
theorem run_length_le_one_byte : ∃ w₀ w acts, start = .ok w₀ ∧ Run Takes w₀ acts w ∧
    acts.length = 7 ∧
    acts.length ≤ ((acts.map Action.spawned).sum + 2) * (acts.map Action.charge).sum := by
  have hplay : (playFromStart
      [.create zeros, .run, .yield, .recv 0 1, .send 0 [7], .yield, .resume]).isSome = true := by
        decide +kernel
  obtain ⟨⟨history, w⟩, hw⟩ := Option.isSome_iff_exists.mp hplay
  obtain ⟨w₀, hstart, hrun⟩ := takes_of_play hw
  have hone : ∀ act ∈ [Action.create zeros, .run, .yield, .recv 0 1, .send 0 [7], .yield, .resume],
      act.descriptor = none ∨ act.descriptor = some 0 := by
    simp [Action.descriptor]
  refine ⟨w₀, w, _, hstart, hrun, rfl, run_length_le hstart hrun ?_⟩
  intro before act after u hacts hbefore
  apply not_crossing_of_one_channel hstart hbefore
  intro act' hmem
  exact hone act' (hacts ▸ List.mem_append_left _ hmem)

end CppMtHw.NetEngine
