import CppMtHw.NetEngine.ChannelFifo
import CppMtHw.NetEngine.Steps

/-!
# The map of channels

The channels of a reachable world are sorted by descriptor, their references are pairwise
different and older than the next one, and their buffers are in bounds. With that, every
action is one of a few effects: `create_channel` makes a new channel, unless a negative
descriptor keeps it from finding a free one.
-/

namespace CppMtHw.NetEngine

open Machine Coroutines

/-- A call that returns without having touched a channel. -/
def Event.Idle : Event → Prop
  | .createRet _ _ => True
  | .closeRet _ _ ret => ret = -1
  | .sendRet _ ref _ ret => ref = none ∧ ret = -1
  | .recvRet _ ref _ _ ret => ref = none ∧ ret = -1
  | _ => False

/-- The channel and the lock state with which a call waits. -/
def Point.awaited : Point → Option (ℤ × ℕ × LockedState)
  | .body => none
  | .send d ref _ _ => some (d, ref, .lockedWrite)
  | .recv d ref _ _ => some (d, ref, .lockedRead)

namespace World

variable {w w' : World} {c : Ctx} {d j : ℤ} {ref : ℕ} {node : MapNode}

structure ChannelMap (w : World) : Prop where
  sorted : SortedMap.Sorted (· < ·) w.channels
  ref_lt : ∀ d node, w.nodeAt d = some node → node.ref < w.refs
  ref_inj : ∀ d d' node node', w.nodeAt d = some node → w.nodeAt d' = some node' →
    node.ref = node'.ref → d = d'
  inBounds : ∀ d node, w.nodeAt d = some node →
    node.channel.InBounds ∧ node.channel.bufSize = defaultChannelBufSize

theorem initial_channelMap : initial.ChannelMap where
  sorted := List.Pairwise.nil
  ref_lt _ _ h := nomatch h
  ref_inj _ _ _ _ h := nomatch h
  inBounds _ _ h := nomatch h

theorem ChannelMap.congr (h : w.ChannelMap) (hchannels : w'.channels = w.channels)
    (hrefs : w'.refs = w.refs) : w'.ChannelMap := by
  obtain ⟨hsorted, hlt, hinj, hin⟩ := h
  have hnode : ∀ d, w'.nodeAt d = w.nodeAt d := fun d ↦ by rw [nodeAt, nodeAt, hchannels]
  constructor
  · rwa [hchannels]
  · simpa only [hnode, hrefs] using hlt
  · simpa only [hnode] using hinj
  · simpa only [hnode] using hin

theorem nodeAt_eq_none_iff : w.nodeAt d = none ↔ find d w.channels = none := by
  rw [nodeAt, Option.map_eq_none_iff]

/-- An assignment to a channel that is in the map. -/
theorem ChannelMap.setChannel (h : w.ChannelMap) {channel channel' : Channel}
    (hnode : w.nodeAt d = some { ref, channel })
    (hin : channel'.InBounds ∧ channel'.bufSize = defaultChannelBufSize) :
    (w.setChannel d { ref, channel := channel' }).ChannelMap where
  sorted := SortedMap.sorted_insert h.sorted
  ref_lt j node hj := by
    rw [nodeAt_setChannel] at hj
    split at hj
    · rw [← Option.some.inj hj]
      have hlt : ref < w.refs := h.ref_lt d _ hnode
      exact hlt
    · exact h.ref_lt j node hj
  ref_inj j j' node node' hj hj' href := by
    rw [nodeAt_setChannel] at hj hj'
    split at hj <;> split at hj'
    · subst_vars
      rfl
    · subst_vars
      rw [← Option.some.inj hj] at href
      exact h.ref_inj _ _ _ _ hnode hj' href
    · subst_vars
      rw [← Option.some.inj hj'] at href
      exact h.ref_inj _ _ _ _ hj hnode href
    · exact h.ref_inj _ _ _ _ hj hj' href
  inBounds j node hj := by
    rw [nodeAt_setChannel] at hj
    split at hj
    · rw [← Option.some.inj hj]
      exact hin
    · exact h.inBounds j node hj

def addChannel (w : World) (d : ℤ) (fresh : FreshBuffer) : World :=
  { w.setChannel d { ref := w.refs, channel := Channel.new fresh.val } with refs := w.refs + 1 }

theorem refAt_of_none (hfree : w.nodeAt d = none) : w.refAt d = w.refs := by
  simp only [refAt, nodeAt_eq_none_iff.mp hfree]

theorem refAt_of_some (hnode : w.nodeAt d = some node) : w.refAt d = node.ref := by
  obtain ⟨⟨key, node'⟩, hfind, rfl⟩ := Option.map_eq_some_iff.mp hnode
  simp only [refAt, hfind]

theorem newChannel_of_none (fresh : FreshBuffer) (hfree : w.nodeAt d = none) :
    w.newChannel d fresh = w.addChannel d fresh := by
  simp only [World.newChannel, nodeAt_eq_none_iff.mp hfree, addChannel]

theorem newChannel_of_some (fresh : FreshBuffer) (hnode : w.nodeAt d = some node) :
    w.newChannel d fresh = w.setChannel d
      { ref := node.ref, channel := Channel.new fresh.val } := by
  obtain ⟨⟨key, node'⟩, hfind, rfl⟩ := Option.map_eq_some_iff.mp hnode
  simp only [World.newChannel, hfind]

theorem nodeAt_addChannel {fresh : FreshBuffer} : (w.addChannel d fresh).nodeAt j =
    if j = d then some { ref := w.refs, channel := Channel.new fresh.val } else w.nodeAt j :=
  nodeAt_setChannel

theorem ChannelMap.addChannel (h : w.ChannelMap) (d : ℤ) (fresh : FreshBuffer) :
    (w.addChannel d fresh).ChannelMap where
  sorted := SortedMap.sorted_insert h.sorted
  ref_lt j node hj := by
    rw [nodeAt_addChannel] at hj
    split at hj
    · rw [← Option.some.inj hj]
      exact Nat.lt_succ_self _
    · exact Nat.lt_succ_of_lt (h.ref_lt j node hj)
  ref_inj j j' node node' hj hj' href := by
    rw [nodeAt_addChannel] at hj hj'
    split at hj <;> split at hj'
    · subst_vars
      rfl
    · rw [← Option.some.inj hj] at href
      exact absurd href.symm (Nat.ne_of_lt (h.ref_lt _ _ hj'))
    · rw [← Option.some.inj hj'] at href
      exact absurd href (Nat.ne_of_lt (h.ref_lt _ _ hj))
    · exact h.ref_inj _ _ _ _ hj hj' href
  inBounds j node hj := by
    rw [nodeAt_addChannel] at hj
    split at hj
    · rw [← Option.some.inj hj]
      exact ⟨Channel.new_inBounds _, fresh.property⟩
    · exact h.inBounds j node hj

theorem ChannelMap.erase (h : w.ChannelMap) (d : ℤ) :
    { w with channels := SortedMap.erase (· < ·) d w.channels }.ChannelMap := by
  have hold : ∀ {j node}, { w with channels := SortedMap.erase (· < ·) d w.channels }.nodeAt j =
      some node → w.nodeAt j = some node := by
    intro j node hj
    rw [nodeAt_erase h.sorted] at hj
    split at hj
    · cases hj
    · exact hj
  exact {
    sorted := SortedMap.sorted_erase h.sorted
    ref_lt := fun j node hj ↦ h.ref_lt j node (hold hj)
    ref_inj := fun j j' node node' hj hj' ↦ h.ref_inj j j' node node' (hold hj) (hold hj')
    inBounds := fun j node hj ↦ h.inBounds j node (hold hj) }

/-! ## Free descriptors -/

/-- The first branch of `create_channel()` is a case of the second. -/
theorem smallestFree_of_empty (m : List (ℤ × MapNode)) :
    (if m = [] then 0 else smallestFree 0 m) = smallestFree 0 m := by
  split
  · rename_i hnil
    rw [hnil, smallestFree]
  · rfl

/-- Without smaller descriptors the loop of `create_channel()` stops at one that is not in the
map. -/
theorem smallestFree_spec {m : List (ℤ × MapNode)} {chd : ℤ}
    (hsorted : SortedMap.Sorted (· < ·) m) (hge : ∀ p ∈ m, chd ≤ p.1) :
    chd ≤ smallestFree chd m ∧ ∀ p ∈ m, p.1 ≠ smallestFree chd m := by
  induction m generalizing chd with
  | nil => exact ⟨le_refl chd, fun p hp ↦ absurd hp List.not_mem_nil⟩
  | cons it its ih =>
      obtain ⟨hit, hits⟩ := List.pairwise_cons.mp hsorted
      simp only [smallestFree]
      split
      · rename_i hne
        refine ⟨le_refl chd, fun p hp ↦ ?_⟩
        have hitge := hge it List.mem_cons_self
        rcases List.mem_cons.mp hp with rfl | hmem
        · exact hne
        · have hlt := hit p hmem
          omega
      · rename_i heq
        have heq := not_not.mp heq
        have hnext : ∀ p ∈ its, chd + 1 ≤ p.1 := fun p hp ↦ by
          have hlt := hit p hp
          omega
        obtain ⟨hle, hfree⟩ := ih hits hnext
        refine ⟨by omega, fun p hp ↦ ?_⟩
        rcases List.mem_cons.mp hp with rfl | hmem
        · omega
        · exact hfree p hmem

/-- If it stops at one that is in the map, a negative descriptor is in it too. -/
theorem exists_negative (h : w.ChannelMap)
    (hnode : w.nodeAt (smallestFree 0 w.channels) = some node) : ∃ j < 0, w.nodeAt j ≠ none := by
  by_contra hnone
  have hnonneg : ∀ p ∈ w.channels, 0 ≤ p.1 := by
    intro p hp
    by_contra hp0
    apply hnone
    refine ⟨p.1, by omega, ?_⟩
    have hfind : find p.1 w.channels = some p := h.sorted.mem_iff_find.mp hp
    rw [nodeAt, hfind]
    exact Option.some_ne_none _
  obtain ⟨p, hp, -⟩ := Option.map_eq_some_iff.mp hnode
  obtain ⟨hmem, heq⟩ := find_eq_some hp
  exact (smallestFree_spec h.sorted hnonneg).2 p hmem heq

/-! ## The effects of actions -/

/-- Everything an action of the running coroutine `c` can do. -/
inductive Effect (w : World) (c : Ctx) : List Event → World → Prop
  | idle {events : List Event} (hidle : ∀ e ∈ events, e.Idle) : Effect w c events w
  | run {pc : Ctx} {e : Engine LockedState} (hrun : w.engine.run .notLocked = .ok (pc, e)) :
      Effect w c [] { w with engine := e }
  | schedule {routine : Option Ctx} {w' : World} (hschedule : w.schedule routine = .ok w') :
      Effect w c [] w'
  | complete {w' : World} (hpoint : w.point c = .body) (hcomplete : w.complete c = .ok w') :
      Effect w c [] w'
  | create {d : ℤ} (hfree : w.nodeAt d = none) (fresh : FreshBuffer) :
      Effect w c [.created d w.refs, .createRet c d] (w.addChannel d fresh)
  | renew {d : ℤ} {node : MapNode} (hnode : w.nodeAt d = some node)
      (hnegative : ∃ j < 0, w.nodeAt j ≠ none)
      (fresh : FreshBuffer) : Effect w c [.created d node.ref, .createRet c d]
        (w.setChannel d { ref := node.ref, channel := Channel.new fresh.val })
  | close {d : ℤ} (hwaiting : w.waiting d = []) :
      Effect w c [.closeRet c d 0] { w with channels := SortedMap.erase (· < ·) d w.channels }
  | sendCall {d : ℤ} {node : MapNode} {data : List UInt8} {events : List Event} {w' : World}
      (hpoint : w.point c = .body) (hnode : w.nodeAt d = some node)
      (hloop : w.sendLoop c d node.ref data 0 = .ok (events, w')) :
      Effect w c (.sendCall c node.ref data :: events) w'
  | sendResume {d : ℤ} {ref written : ℕ} {data : List UInt8} {events : List Event} {w' : World}
      (hpoint : w.point c = .send d ref data written)
      (hloop : w.sendLoop c d ref data written = .ok (events, w')) : Effect w c events w'
  | recvCall {d : ℤ} {node : MapNode} {nbytes : ℕ} {events : List Event} {w' : World}
      (hpoint : w.point c = .body) (hnode : w.nodeAt d = some node)
      (hloop : w.recvLoop c d node.ref nbytes [] = .ok (events, w')) :
      Effect w c (.recvCall c node.ref nbytes :: events) w'
  | recvResume {d : ℤ} {ref nbytes : ℕ} {data : List UInt8} {events : List Event} {w' : World}
      (hpoint : w.point c = .recv d ref nbytes data)
      (hloop : w.recvLoop c d ref nbytes data = .ok (events, w')) : Effect w c events w'

theorem Effect.of_refused {e : Event} (h : e.Idle) : Effect w c [e] w :=
  .idle fun _ he ↦ List.mem_singleton.mp he ▸ h

/-- `send_channel` refuses a channel that is not in the map. -/
theorem exec_send_ok {data : List UInt8} {events : List Event}
    (h : w.exec c (.send d data) = .ok (events, w')) :
    (w.nodeAt d = none ∧ events = [.sendRet c none data (-1)] ∧ w' = w) ∨
      ∃ node later, w.nodeAt d = some node ∧ events = .sendCall c node.ref data :: later ∧
        w.sendLoop c d node.ref data 0 = .ok (later, w') := by
  simp only [exec] at h
  split at h
  · rename_i hfind
    obtain ⟨rfl, rfl⟩ := Prod.mk.inj (Except.ok.inj h)
    exact Or.inl ⟨nodeAt_eq_none_iff.mpr hfind, rfl, rfl⟩
  · rename_i node hfind
    obtain ⟨⟨later, w₁⟩, hloop, h⟩ := ok_of_bind h
    obtain ⟨rfl, rfl⟩ := Prod.mk.inj (Except.ok.inj h)
    exact Or.inr ⟨node, later, by rw [nodeAt, hfind]; rfl, rfl, hloop⟩

theorem exec_recv_ok {nbytes : ℕ} {events : List Event}
    (h : w.exec c (.recv d nbytes) = .ok (events, w')) :
    (w.nodeAt d = none ∧ events = [.recvRet c none nbytes [] (-1)] ∧ w' = w) ∨
      ∃ node later, w.nodeAt d = some node ∧ events = .recvCall c node.ref nbytes :: later ∧
        w.recvLoop c d node.ref nbytes [] = .ok (later, w') := by
  simp only [exec] at h
  split at h
  · rename_i hfind
    obtain ⟨rfl, rfl⟩ := Prod.mk.inj (Except.ok.inj h)
    exact Or.inl ⟨nodeAt_eq_none_iff.mpr hfind, rfl, rfl⟩
  · rename_i node hfind
    obtain ⟨⟨later, w₁⟩, hloop, h⟩ := ok_of_bind h
    obtain ⟨rfl, rfl⟩ := Prod.mk.inj (Except.ok.inj h)
    exact Or.inr ⟨node, later, by rw [nodeAt, hfind]; rfl, rfl, hloop⟩

/-- A suspended call goes on where it has stopped. -/
theorem exec_resume_ok {events : List Event} (h : w.exec c .resume = .ok (events, w')) :
    (w.point c = .body ∧ events = [] ∧ w' = w) ∨
      (∃ d ref data written, w.point c = .send d ref data written ∧
        w.sendLoop c d ref data written = .ok (events, w')) ∨
      ∃ d ref nbytes data, w.point c = .recv d ref nbytes data ∧
        w.recvLoop c d ref nbytes data = .ok (events, w') := by
  simp only [exec] at h
  split at h
  · rename_i hpoint
    obtain ⟨rfl, rfl⟩ := Prod.mk.inj (Except.ok.inj h)
    exact Or.inl ⟨hpoint, rfl, rfl⟩
  · rename_i d ref data written hpoint
    exact Or.inr (Or.inl ⟨d, ref, data, written, hpoint, h⟩)
  · rename_i d ref nbytes data hpoint
    exact Or.inr (Or.inr ⟨d, ref, nbytes, data, hpoint, h⟩)

theorem exec_effect (hmap : w.ChannelMap) {act : Action} {events : List Event}
    (hallowed : w.Allowed c act) (hexec : w.exec c act = .ok (events, w')) :
    Effect w c events w' := by
  cases act with
  | run =>
      obtain ⟨⟨pc, e⟩, hrun, h⟩ := ok_of_bind hexec
      obtain ⟨rfl, rfl⟩ := Prod.mk.inj (Except.ok.inj h)
      exact .run hrun
  | yield =>
      obtain ⟨w₁, hschedule, h⟩ := ok_of_bind hexec
      obtain ⟨rfl, rfl⟩ := Prod.mk.inj (Except.ok.inj h)
      exact .schedule hschedule
  | sched routine =>
      obtain ⟨w₁, hschedule, h⟩ := ok_of_bind hexec
      obtain ⟨rfl, rfl⟩ := Prod.mk.inj (Except.ok.inj h)
      exact .schedule hschedule
  | create fresh =>
      obtain ⟨rfl, rfl⟩ := Prod.mk.inj (Except.ok.inj hexec)
      rw [smallestFree_of_empty]
      cases hnode : w.nodeAt (smallestFree 0 w.channels) with
      | none =>
          rw [refAt_of_none hnode, newChannel_of_none fresh hnode]
          exact .create hnode fresh
      | some node =>
          rw [refAt_of_some hnode, newChannel_of_some fresh hnode]
          exact .renew hnode (exists_negative hmap hnode) fresh
  | createAt d fresh =>
      simp only [exec] at hexec
      split at hexec
      · rename_i hfind
        obtain ⟨rfl, rfl⟩ := Prod.mk.inj (Except.ok.inj hexec)
        have hfree := nodeAt_eq_none_iff.mpr hfind
        rw [refAt_of_none hfree, newChannel_of_none fresh hfree]
        exact .create hfree fresh
      · obtain ⟨rfl, rfl⟩ := Prod.mk.inj (Except.ok.inj hexec)
        exact .of_refused trivial
  | close d =>
      simp only [exec] at hexec
      split at hexec
      · obtain ⟨rfl, rfl⟩ := Prod.mk.inj (Except.ok.inj hexec)
        exact .of_refused rfl
      · rename_i hwaiting
        obtain ⟨rfl, rfl⟩ := Prod.mk.inj (Except.ok.inj hexec)
        exact .close (not_not.mp hwaiting)
  | send d data =>
      rcases exec_send_ok hexec with ⟨-, rfl, rfl⟩ | ⟨node, later, hnode, rfl, hloop⟩
      · exact .of_refused ⟨rfl, rfl⟩
      · exact .sendCall hallowed hnode hloop
  | recv d nbytes =>
      rcases exec_recv_ok hexec with ⟨-, rfl, rfl⟩ | ⟨node, later, hnode, rfl, hloop⟩
      · exact .of_refused ⟨rfl, rfl⟩
      · exact .recvCall hallowed hnode hloop
  | ret =>
      obtain ⟨w₁, hcomplete, h⟩ := ok_of_bind hexec
      obtain ⟨rfl, rfl⟩ := Prod.mk.inj (Except.ok.inj h)
      exact .complete hallowed hcomplete
  | resume =>
      rcases exec_resume_ok hexec with ⟨-, rfl, rfl⟩ | ⟨d, ref, data, written, hpoint, hloop⟩ |
        ⟨d, ref, nbytes, data, hpoint, hloop⟩
      · exact .idle fun e he ↦ absurd he List.not_mem_nil
      · exact .sendResume hpoint hloop
      · exact .recvResume hpoint hloop

/-! ## Every effect keeps the map well formed -/

/-- What a call of `c` on `d` does, in either direction: it returns, or it makes a transfer, which
wakes those that are locked for `woken`, and then returns or starts to wait with `own`. -/
inductive Passes (w : World) (c : Ctx) (d : ℤ) (ref : ℕ) (woken own : LockedState) : World → Prop
  | done : Passes w c d ref woken own (w.at_ c .body)
  | last {channel channel' : Channel} (hnode : w.nodeAt d = some { ref, channel })
      (hkept : channel.InBounds → channel'.InBounds ∧ channel'.bufSize = channel.bufSize) :
      Passes w c d ref woken own ((w.transferred d { ref, channel := channel' } woken).at_ c .body)
  | wait {channel channel' : Channel} {p : Point} {w' : World}
      (hnode : w.nodeAt d = some { ref, channel })
      (hkept : channel.InBounds → channel'.InBounds ∧ channel'.bufSize = channel.bufSize)
      (hawaited : p.awaited = some (d, ref, own))
      (hsuspended : (w.transferred d { ref, channel := channel' } woken).Suspended c d own p w') :
      Passes w c d ref woken own w'

theorem sendLoop_passes {data : List UInt8} {written : ℕ} {events : List Event}
    (hloop : w.sendLoop c d ref data written = .ok (events, w')) :
    w.Passes c d ref .lockedRead .lockedWrite w' := by
  rcases sendLoop_ok hloop with ⟨-, -, rfl⟩ | ⟨-, channel, nwrite, channel', hnode, hwrite, hrest⟩
  · exact .done
  · have hkept : channel.InBounds → channel'.InBounds ∧ channel'.bufSize = channel.bufSize := by
      intro hin
      obtain ⟨c₁, hspec, hin', hsize', -⟩ := Channel.write_spec hin (data.drop written)
      obtain rfl : c₁ = channel' := (Prod.mk.inj (Option.some.inj (hspec.symm.trans hwrite))).2
      exact ⟨hin', hsize'⟩
    rcases hrest with ⟨-, -, rfl⟩ | ⟨-, -, hsuspended⟩
    · exact .last hnode hkept
    · exact .wait hnode hkept rfl hsuspended

theorem recvLoop_passes {data : List UInt8} {nbytes : ℕ} {events : List Event}
    (hloop : w.recvLoop c d ref nbytes data = .ok (events, w')) :
    w.Passes c d ref .lockedWrite .lockedRead w' := by
  rcases recvLoop_ok hloop with
      ⟨-, -, rfl⟩ | ⟨-, channel, nread, bytes, channel', hnode, hread, hrest⟩
  · exact .done
  · have hkept : channel.InBounds → channel'.InBounds ∧ channel'.bufSize = channel.bufSize := by
      intro hin
      obtain ⟨c₁, hspec, hin', hsize', -⟩ := Channel.read_spec hin (usub nbytes data.length)
      obtain rfl : c₁ = channel' :=
        (Prod.mk.inj (Prod.mk.inj (Option.some.inj (hspec.symm.trans hread))).2).2
      exact ⟨hin', hsize'⟩
    rcases hrest with ⟨-, -, rfl⟩ | ⟨-, -, hsuspended⟩
    · exact .last hnode hkept
    · exact .wait hnode hkept rfl hsuspended

section Passes

variable {woken own : LockedState}

theorem ChannelMap.passes (h : w.ChannelMap) (hpasses : w.Passes c d ref woken own w') :
    w'.ChannelMap := by
  have hset : ∀ {channel channel' : Channel}, w.nodeAt d = some { ref, channel } →
      (channel.InBounds → channel'.InBounds ∧ channel'.bufSize = channel.bufSize) →
      (w.setChannel d { ref, channel := channel' }).ChannelMap := by
    intro channel channel' hnode hkept
    obtain ⟨hin, hsize⟩ : channel.InBounds ∧ channel.bufSize = defaultChannelBufSize :=
      h.inBounds d _ hnode
    exact h.setChannel hnode ⟨(hkept hin).1, (hkept hin).2.trans hsize⟩
  cases hpasses with
  | done => exact h.congr rfl rfl
  | last hnode hkept => exact (hset hnode hkept).congr rfl rfl
  | wait hnode hkept _ hsuspended =>
      obtain ⟨hchannels, hrefs, -⟩ := hsuspended.frame
      exact (hset hnode hkept).congr hchannels hrefs

/-- No descriptor is added. -/
theorem Passes.nodeAt (h : w.Passes c d ref woken own w') (hj : w'.nodeAt j ≠ none) :
    w.nodeAt j ≠ none := by
  have hset : ∀ {channel channel' : Channel}, w.nodeAt d = some { ref, channel } →
      w'.channels = (w.setChannel d { ref, channel := channel' }).channels → w.nodeAt j ≠ none := by
    intro channel channel' hnode hchannels
    rw [World.nodeAt, hchannels] at hj
    change (w.setChannel d _).nodeAt j ≠ none at hj
    rw [nodeAt_setChannel] at hj
    by_cases hjd : j = d
    · rw [hjd, hnode]
      exact Option.some_ne_none _
    · rwa [if_neg hjd] at hj
  cases h with
  | done => exact hj
  | last hnode => exact hset hnode rfl
  | wait hnode _ _ hsuspended => exact hset hnode hsuspended.frame.1

end Passes

theorem Effect.channelMap {events : List Event} (h : w.ChannelMap)
    (heffect : Effect w c events w') : w'.ChannelMap := by
  cases heffect with
  | idle => exact h
  | run => exact h.congr rfl rfl
  | schedule hschedule =>
      obtain ⟨hchannels, hrefs, -⟩ := schedule_frame hschedule
      exact h.congr hchannels hrefs
  | complete _ hcomplete =>
      obtain ⟨hchannels, hrefs, -⟩ := complete_frame hcomplete
      exact h.congr hchannels hrefs
  | create _ fresh => exact h.addChannel _ fresh
  | renew hnode _ fresh => exact h.setChannel hnode ⟨Channel.new_inBounds _, fresh.property⟩
  | close => exact h.erase _
  | sendCall _ _ hloop | sendResume _ hloop => exact h.passes (sendLoop_passes hloop)
  | recvCall _ _ hloop | recvResume _ hloop => exact h.passes (recvLoop_passes hloop)

/-- The descriptors in the map are those that were created. -/
theorem Effect.created {events : List Event} (hmap : w.ChannelMap) (heffect : Effect w c events w')
    (hj : w'.nodeAt j ≠ none) : w.nodeAt j ≠ none ∨ ∃ ref, .created j ref ∈ events := by
  have hsame : w'.channels = w.channels → w.nodeAt j ≠ none := by
    intro hchannels
    rwa [nodeAt, hchannels] at hj
  cases heffect with
  | idle => exact Or.inl hj
  | run => exact Or.inl hj
  | schedule hschedule => exact Or.inl (hsame (schedule_frame hschedule).1)
  | complete _ hcomplete => exact Or.inl (hsame (complete_frame hcomplete).1)
  | create hfree fresh =>
      rename_i d
      rw [nodeAt_addChannel] at hj
      by_cases hjd : j = d
      · exact Or.inr ⟨w.refs, by simp [hjd]⟩
      · rw [if_neg hjd] at hj
        exact Or.inl hj
  | renew hnode =>
      rename_i d node _ _
      rw [nodeAt_setChannel] at hj
      by_cases hjd : j = d
      · rw [hjd, hnode]
        exact Or.inl (Option.some_ne_none _)
      · rw [if_neg hjd] at hj
        exact Or.inl hj
  | close =>
      rw [nodeAt_erase hmap.sorted] at hj
      split at hj
      · exact absurd rfl hj
      · exact Or.inl hj
  | sendCall _ _ hloop | sendResume _ hloop => exact Or.inl ((sendLoop_passes hloop).nodeAt hj)
  | recvCall _ _ hloop | recvResume _ hloop => exact Or.inl ((recvLoop_passes hloop).nodeAt hj)

theorem start_channelMap (h : start = .ok w) : w.ChannelMap := by
  obtain ⟨⟨pc, e⟩, -, h⟩ := ok_of_bind h
  obtain ⟨hchannels, hrefs, -⟩ := schedule_frame h
  exact initial_channelMap.congr hchannels hrefs

theorem Step.effect {events : List Event} (hmap : w.ChannelMap) (hstep : Step w events w') :
    ∃ c, w.engine.curRoutine = some c ∧ w.exited = false ∧ Effect w c events w' := by
  cases hstep with
  | exec c act hrunning hexited hallowed hexec =>
      exact ⟨c, hrunning, hexited, exec_effect hmap hallowed hexec⟩

/-- The map of a reachable world is well formed. -/
theorem Reaches.channelMap {history : List Event} (h : Reaches w history) : w.ChannelMap := by
  obtain ⟨w₀, labels, hstart, hrun, -⟩ := h
  refine hrun.invariant (start_channelMap hstart) fun w events w' hmap hstep ↦ ?_
  obtain ⟨c, -, -, heffect⟩ := hstep.effect hmap
  exact heffect.channelMap hmap

/-- What holds at the start and is kept by every effect holds along every run. -/
theorem Reaches.induct {P : List Event → World → Prop} {history : List Event}
    (h : Reaches w history) (hinitial : ∀ {w}, start = .ok w → P [] w)
    (hkept : ∀ {history events w w' c}, Reaches w history → P history w →
      w.engine.curRoutine = some c →
      w.exited = false → Effect w c events w' → P (history ++ events) w') : P history w := by
  obtain ⟨w₀, labels, hstart, hrun, rfl⟩ := h
  induction hrun with
  | nil => exact hinitial hstart
  | snoc hrun hstep ih =>
      rename_i t u labels events
      have ht : Reaches t labels.flatten := ⟨w₀, labels, hstart, hrun, rfl⟩
      obtain ⟨c, hcur, hexited, heffect⟩ := hstep.effect ht.channelMap
      rw [List.flatten_append, List.flatten_singleton]
      exact hkept ht ih hcur hexited heffect

theorem NonNegative.of_append {before after : List Event} (h : NonNegative (before ++ after)) :
    NonNegative before := fun d ref hmem ↦ h d ref (List.mem_append_left after hmem)

theorem Reaches.created {history : List Event} (h : Reaches w history) (hj : w.nodeAt j ≠ none) :
    ∃ ref, .created j ref ∈ history := by
  revert j
  apply h.induct (P := fun history w ↦ ∀ {j}, w.nodeAt j ≠ none → ∃ ref, .created j ref ∈ history)
  · intro w hstart j hj
    obtain ⟨⟨pc, e⟩, -, hschedule⟩ := ok_of_bind hstart
    rw [nodeAt, (schedule_frame hschedule).1] at hj
    exact absurd rfl hj
  · intro history events w w' c ht hcreated _ _ heffect j hj
    rcases heffect.created ht.channelMap hj with hold | ⟨ref, hnew⟩
    · obtain ⟨ref, hmem⟩ := hcreated hold
      exact ⟨ref, List.mem_append_left _ hmem⟩
    · exact ⟨ref, List.mem_append_right _ hnew⟩

theorem Reaches.nonneg {history : List Event} (h : Reaches w history)
    (hnonneg : NonNegative history) : ¬∃ j < 0, w.nodeAt j ≠ none := by
  rintro ⟨j, hlt, hj⟩
  obtain ⟨ref, hmem⟩ := h.created hj
  have hle := hnonneg j ref hmem
  omega

end World

end CppMtHw.NetEngine
