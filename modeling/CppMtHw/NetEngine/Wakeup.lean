import CppMtHw.NetEngine.ChannelMap
import CppMtHw.NetEngine.Scheduling

/-!
# No lost wakeup

A context that is locked waits at a call on a channel that is in the map, is listed
for it in the lock table, and the channel cannot serve it: a reader waits only while
nothing is unread, a writer only while there is no room. A transfer unlocks all that
wait for the other direction and leaves those that wait for its own direction where
they are, so every step keeps this, and the dead lock message is never a mistake. What is
said about the state of the channels presupposes that no channel is created over another
one, as `create_channel()` does when there are negative descriptors.
-/

namespace CppMtHw.NetEngine

open Machine Coroutines

/-- A call that waits has something left to do. -/
def Point.Underway : Point → Prop
  | .body => True
  | .send _ _ data written => written < data.length
  | .recv _ _ nbytes data => data.length < nbytes

/-- The channel cannot serve those that are locked for this reason. -/
def Channel.Stuck (channel : Channel) : LockedState → Prop
  | .notLocked => True
  | .lockedRead => channel.unread = []
  | .lockedWrite => channel.room = 0

namespace World

variable {w w' : World} {c : Ctx} {d : ℤ} {ref written nbytes : ℕ} {data : List UInt8}
  {events : List Event} {reason : LockedState} {node : MapNode} {p : Point} {l : List Ctx}
  {orderly' : Prop}

/-- The context waits at a call on a channel that, in an orderly run, cannot serve it. -/
structure Stalled (w : World) (orderly : Prop) (c : Ctx) (reason : LockedState) (d : ℤ)
    (node : MapNode) :
    Prop where
  point : (w.point c).awaited = some (d, node.ref, reason)
  here : w.nodeAt d = some node
  stuck : orderly → node.channel.Stuck reason
  waiting : c ∈ w.waiting d

/-- Locked contexts are stalled. -/
structure Consistent (w : World) (orderly : Prop) (l : List Ctx) : Prop where
  listed : w.engine.Listed l
  flat : Flat w.engine
  map : w.ChannelMap
  underway : ∀ c, (w.point c).Underway
  stalled : ∀ c reason, lockOf w.engine c = some reason → reason ≠ .notLocked →
    ∃ d node, w.Stalled orderly c reason d node

/-- Control is with a context that is not locked, or the process has ended with all of them
locked. -/
structure Wakeful (w : World) (orderly : Prop) (l : List Ctx) :
    Prop extends w.Consistent orderly l where
  awake : w.exited = false → ∀ c, w.engine.curRoutine = some c →
    lockOf w.engine c = some .notLocked
  dead : w.exited = true → ∀ c ∈ l, lockOf w.engine c ≠ some .notLocked

theorem Consistent.wakeful (h : w.Consistent orderly l) (hexited : w.exited = false)
    (hawake : ∀ c, w.engine.curRoutine = some c → lockOf w.engine c = some .notLocked) :
    w.Wakeful orderly l where
  toConsistent := h
  awake _ := hawake
  dead hdead := by rw [hexited] at hdead; cases hdead

/-- Where a context that is not locked continues is irrelevant. -/
theorem Consistent.at_ (h : w.Consistent orderly l) (hfree : lockOf w.engine c = some .notLocked)
    (hp : p.Underway) : (w.at_ c p).Consistent orderly l where
  listed := h.listed
  flat := h.flat
  map := h.map.congr rfl rfl
  underway c' := by
    by_cases hc : c' = c
    · subst hc
      simpa [World.at_] using hp
    · simpa [World.at_, hc] using h.underway c'
  stalled c' reason hlock hreason := by
    have hc : c' ≠ c := by
      rintro rfl
      exact hreason (Option.some.inj (hlock.symm.trans hfree))
    obtain ⟨d, node, hpoint, hnode, hstuck, hwaiting⟩ := h.stalled c' reason hlock hreason
    exact ⟨d, node, by simpa [World.at_, hc] using hpoint, hnode, hstuck, hwaiting⟩

/-- A new engine under which the same contexts are locked. -/
theorem Consistent.setEngine (h : w.Consistent orderly l) {e : Engine LockedState} {l' : List Ctx}
    (hlisted : e.Listed l') (hflat : Flat e)
    (hlock : ∀ c reason, lockOf e c = some reason → reason ≠ .notLocked →
      lockOf w.engine c = some reason) : { w with engine := e }.Consistent orderly l' where
  listed := hlisted
  flat := hflat
  map := h.map.congr rfl rfl
  underway := h.underway
  stalled c reason hc hreason := by
    obtain ⟨d, node, hpoint, hnode, hstuck, hwaiting⟩ :=
      h.stalled c reason (hlock c reason hc hreason) hreason
    exact ⟨d, node, hpoint, hnode, hstuck, hwaiting⟩

theorem Consistent.resumed (h : w.Consistent orderly l) {target : Ctx} :
    { w with engine := resumed w.engine target }.Consistent orderly l :=
  h.setEngine (listed_resumed h.listed) (flat_resumed h.flat) fun _ _ hc _ ↦ lockOf_resumed ▸ hc

/-- Control goes to a context that is not locked, or there is none. -/
theorem Consistent.schedule (h : w.Consistent orderly l) (hexited : w.exited = false)
    {routine : Option Ctx} (hok : w.schedule routine = .ok w') : w'.Wakeful orderly l := by
  rcases schedule_ok hok with ⟨hsched, rfl⟩ | ⟨e, hsched, rfl⟩ | ⟨hsched, rfl⟩
  · rcases sched_ok h.listed h.flat hsched with ⟨-, hcur⟩ | ⟨_, _, heq⟩ | ⟨heq, _⟩
    · exact h.wakeful hexited fun c hc ↦ by rw [hcur] at hc; cases hc
    · cases heq
    · cases heq
  · rcases sched_ok h.listed h.flat hsched with ⟨heq, -⟩ | ⟨target, hfree, heq⟩ | ⟨heq, _⟩
    · cases heq
    · cases heq
      refine h.resumed.wakeful hexited fun c hc ↦ ?_
      rw [← Option.some.inj hc]
      exact lockOf_resumed.trans hfree
    · cases heq
  · rcases sched_ok h.listed h.flat hsched with ⟨heq, -⟩ | ⟨_, _, heq⟩ | ⟨-, -, hall⟩
    · cases heq
    · cases heq
    · exact {
        listed := h.listed
        flat := h.flat
        map := h.map.congr rfl rfl
        underway := h.underway
        stalled := fun c reason hc hreason ↦ by
          obtain ⟨d, node, hpoint, hnode, hstuck, hwaiting⟩ := h.stalled c reason hc hreason
          exact ⟨d, node, hpoint, hnode, hstuck, hwaiting⟩
        awake := fun hfalse ↦ by cases hfalse
        dead := fun _ ↦ hall }

/-! ## Transfers -/

/-- A transfer unlocks those that wait for the other direction, and those that wait for its own
direction stay stalled. -/
theorem Consistent.transfer (h : w.Consistent orderly l) (woken : LockedState)
    {channel channel' : Channel}
    (hnode : w.nodeAt d = some { ref, channel })
    (hin : channel'.InBounds ∧ channel'.bufSize = defaultChannelBufSize)
    (hstuck : ∀ reason, reason ≠ woken → channel.Stuck reason → channel'.Stuck reason) :
    (w.transferred d { ref, channel := channel' } woken).Consistent orderly l where
  listed := listed_unlocked h.listed
  flat := flat_unlocked h.flat
  map := (h.map.setChannel hnode hin).congr rfl rfl
  underway := h.underway
  stalled c reason hlock hreason := by
    have hold : (if c ∈ w.waiting d ∧ lockOf w.engine c = some woken then some .notLocked
      else lockOf w.engine c) = some reason := lockOf_unlocked.symm.trans hlock
    split at hold
    · exact absurd (Option.some.inj hold).symm hreason
    · rename_i hasleep
      obtain ⟨d', node, hpoint, hnode', hstuck', hwaiting⟩ := h.stalled c reason hold hreason
      have hset : (w.transferred d { ref, channel := channel' } woken).nodeAt d' =
        if d' = d then some { ref, channel := channel' } else w.nodeAt d' := nodeAt_setChannel
      by_cases hd : d' = d
      · subst hd
        rw [if_pos rfl] at hset
        obtain rfl := Option.some.inj (hnode'.symm.trans hnode)
        have hother : reason ≠ woken := by
          rintro rfl
          exact hasleep ⟨hwaiting, hold⟩
        exact ⟨d', { ref, channel := channel' }, hpoint, hset,
          fun horderly ↦ hstuck reason hother (hstuck' horderly), hwaiting⟩
      · rw [if_neg hd, hnode'] at hset
        exact ⟨d', node, hpoint, hset, hstuck', hwaiting⟩

/-- The running context starts to wait for a channel that cannot serve it. -/
theorem Consistent.suspend (h : w.Consistent orderly l) (hexited : w.exited = false)
    (hnode : w.nodeAt d = some node)
    (hstuck : node.channel.Stuck reason) (hp : p.Underway)
    (hawaited : p.awaited = some (d, node.ref, reason)) (hsuspended : w.Suspended c d reason p w') :
    w'.Wakeful orderly l := by
  obtain ⟨w₁, hlock, hschedule⟩ := hsuspended
  obtain ⟨hcontext, heq, hwaiting⟩ := lock_ok hlock
  have hlockOf : ∀ c', lockOf w₁.engine c' = if c' = c then some reason
      else lockOf w.engine c' := by
    intro c'
    rw [heq]
    exact lockOf_lock hcontext
  refine Consistent.schedule ?_ (by rw [heq]; exact hexited) hschedule
  have hlisted : w₁.engine.Listed l := by
    rw [heq]
    exact h.listed.mapAt _ _ (fun _ ↦ rfl) fun _ ↦ rfl
  have hflat : Flat w₁.engine := by
    rw [heq]
    exact flat_mapAt h.flat fun _ hx ↦ hx
  have hnodeAt : ∀ j, (w₁.at_ c p).nodeAt j = w.nodeAt j := by
    intro j
    rw [heq]
    rfl
  have hpoint : ∀ c', c' ≠ c → (w₁.at_ c p).point c' = w.point c' := by
    intro c' hc
    rw [heq]
    simp [World.at_, hc]
  refine ⟨hlisted, hflat, h.map.congr (by rw [heq]; rfl) (by rw [heq]; rfl), fun c' ↦ ?_,
    fun c' reason' hc' hreason' ↦ ?_⟩
  · by_cases hc : c' = c
    · subst hc
      simpa [World.at_] using hp
    · rw [hpoint c' hc]
      exact h.underway c'
  · have hmem : ∀ c' j, c' ∈ w.waiting j → c' ∈ (w₁.at_ c p).waiting j := by
      intro c' j hc'
      have hw : (w₁.at_ c p).waiting j = _ := hwaiting j
      rw [hw]
      split
      · rename_i hj
        exact List.mem_append_left _ (hj ▸ hc')
      · exact hc'
    by_cases hc : c' = c
    · subst hc
      have hsame : some reason = some reason' := by
        rw [← hc']
        exact ((hlockOf c').trans (if_pos rfl)).symm
      obtain rfl := Option.some.inj hsame
      refine ⟨d, node, by simpa [World.at_] using hawaited, (hnodeAt d).trans hnode,
        fun _ ↦ hstuck, ?_⟩
      have hw : (w₁.at_ c' p).waiting d = _ := hwaiting d
      rw [hw, if_pos rfl]
      simp
    · have hold := ((hlockOf c').trans (if_neg hc)).symm.trans hc'
      obtain ⟨d', node', hpoint', hnode', hstuck', hwaiting'⟩ := h.stalled c' reason' hold hreason'
      exact ⟨d', node', by rw [hpoint c' hc]; exact hpoint', (hnodeAt d').trans hnode', hstuck',
        hmem c' d' hwaiting'⟩

/-! ## The effects of actions -/

/-- The running context returns from a call. -/
theorem Consistent.return (h : w.Consistent orderly l) (hexited : w.exited = false)
    (hcur : w.engine.curRoutine = some c) (hfree : lockOf w.engine c = some .notLocked) :
    (w.at_ c .body).Wakeful orderly l := by
  have hbody : Point.body.Underway := trivial
  refine (h.at_ hfree hbody).wakeful hexited fun c' hc' ↦ ?_
  exact Option.some.inj (hcur.symm.trans hc') ▸ hfree

theorem Consistent.sendLoop (h : w.Consistent orderly l) (hexited : w.exited = false)
    (hcur : w.engine.curRoutine = some c) (hfree : lockOf w.engine c = some .notLocked)
    (hwritten : written ≤ data.length)
    (hloop : w.sendLoop c d ref data written = .ok (events, w')) : w'.Wakeful orderly l := by
  rcases sendLoop_ok hloop with
    ⟨-, -, rfl⟩ | ⟨hmore, channel, nwrite, channel', hnode, hwrite, hrest⟩
  · exact h.return hexited hcur hfree
  · obtain ⟨hin, hsize⟩ : channel.InBounds ∧ channel.bufSize = defaultChannelBufSize :=
      h.map.inBounds d _ hnode
    obtain ⟨c₁, hspec, hin', hsize', hstart, hunread⟩ := Channel.write_spec hin (data.drop written)
    obtain ⟨rfl, rfl⟩ := Prod.mk.inj (Option.some.inj (hspec.symm.trans hwrite))
    have hroom := Channel.room_after_write hin hin' hsize' hstart hunread
    have hstay : ∀ reason, reason ≠ .lockedRead → channel.Stuck reason → c₁.Stuck reason := by
      intro reason hreason hstuck
      cases reason with
      | notLocked => trivial
      | lockedRead => exact absurd rfl hreason
      | lockedWrite =>
          have hfull : channel.room = 0 := hstuck
          exact hroom.trans (by omega)
    have htransfer := h.transfer .lockedRead hnode ⟨hin', hsize'.trans hsize⟩ hstay
    have hlen : (data.drop written).length = data.length - written := List.length_drop
    rcases hrest with ⟨-, -, rfl⟩ | ⟨hcut, -, hsuspended⟩
    · exact htransfer.return hexited hcur (lockOf_unlocked_of_free hfree)
    · -- a write that is cut short leaves no room
      refine htransfer.suspend hexited (nodeAt_setChannel.trans (if_pos rfl)) ?_ ?_ rfl hsuspended
      · show c₁.room = 0
        omega
      · show written + min (data.drop written).length channel.room < data.length
        omega

theorem Consistent.recvLoop (h : w.Consistent orderly l) (hexited : w.exited = false)
    (hcur : w.engine.curRoutine = some c) (hfree : lockOf w.engine c = some .notLocked)
    (hread : data.length ≤ nbytes)
    (hloop : w.recvLoop c d ref nbytes data = .ok (events, w')) : w'.Wakeful orderly l := by
  rcases recvLoop_ok hloop with
    ⟨-, -, rfl⟩ | ⟨hmore, channel, nread, bytes, channel', hnode, hread', hrest⟩
  · exact h.return hexited hcur hfree
  · obtain ⟨hin, hsize⟩ : channel.InBounds ∧ channel.bufSize = defaultChannelBufSize :=
      h.map.inBounds d _ hnode
    rw [usub_of_le hread] at hread'
    obtain ⟨c₁, hspec, hin', hsize', hunread⟩ := Channel.read_spec hin (nbytes - data.length)
    obtain ⟨rfl, hpair⟩ := Prod.mk.inj (Option.some.inj (hspec.symm.trans hread'))
    obtain ⟨rfl, rfl⟩ := Prod.mk.inj hpair
    have hstay : ∀ reason, reason ≠ .lockedWrite → channel.Stuck reason → c₁.Stuck reason := by
      intro reason hreason hstuck
      cases reason with
      | notLocked => trivial
      | lockedRead =>
          have hempty : channel.unread = [] := hstuck
          exact hunread.trans (by rw [hempty, List.drop_nil])
      | lockedWrite => exact absurd rfl hreason
    have htransfer := h.transfer .lockedWrite hnode ⟨hin', hsize'.trans hsize⟩ hstay
    rcases hrest with ⟨-, -, rfl⟩ | ⟨hcut, -, hsuspended⟩
    · exact htransfer.return hexited hcur (lockOf_unlocked_of_free hfree)
    · -- a read that is cut short leaves nothing unread
      simp only [List.length_append, List.length_take] at hcut
      refine htransfer.suspend hexited (nodeAt_setChannel.trans (if_pos rfl)) ?_ ?_ rfl hsuspended
      · show c₁.unread = []
        rw [hunread, List.drop_eq_nil_iff]
        omega
      · show (data ++ (channel.unread.take (nbytes - data.length)).take _).length < nbytes
        simp only [List.length_append, List.length_take]
        omega

/-- What the deletion of the running context leaves behind. -/
theorem Consistent.completed (h : w.Consistent orderly l) {x : Context LockedState}
    (hx : w.engine.context c = some x) :
    ∃ l', { w with engine := w.engine.completed c x }.Consistent orderly l' := by
  obtain ⟨front, back, rfl⟩ := List.append_of_mem ((h.listed.mem c).mpr (by rw [hx]; simp))
  refine ⟨front ++ back, h.setEngine (h.listed.completed hx) (flat_completed h.flat) ?_⟩
  intro c' reason hc' _
  rw [lockOf_completed] at hc'
  split at hc'
  · cases hc'
  · exact hc'

theorem Consistent.complete (h : w.Consistent orderly l) (hexited : w.exited = false)
    (hcur : w.engine.curRoutine = some c) (hok : w.complete c = .ok w') :
    ∃ l', w'.Wakeful orderly l' := by
  obtain ⟨next, e, hcomplete, hrest⟩ := complete_ok hok
  obtain ⟨x, hx, rfl⟩ := complete_eq_completed h.listed hcur hcomplete
  obtain ⟨l', h'⟩ := h.completed hx
  refine ⟨l', ?_⟩
  rcases hrest with hidle | ⟨routine, -, ⟨e', hsched, rfl⟩ | ⟨hsched, -⟩⟩
  · exact h'.schedule hexited hidle
  · rcases sched_ok h'.listed h'.flat hsched with ⟨heq, -⟩ | ⟨target, hfree, heq⟩ | ⟨heq, -⟩
    · cases heq
    · cases heq
      refine h'.resumed.wakeful hexited fun c' hc' ↦ ?_
      rw [← Option.some.inj hc']
      exact lockOf_resumed.trans hfree
    · cases heq
  · -- nobody is running, so there is no dead lock message
    rcases sched_ok h'.listed h'.flat hsched with ⟨heq, -⟩ | ⟨_, _, heq⟩ | ⟨-, hcur', -⟩
    · cases heq
    · cases heq
    · exact absurd rfl hcur'

theorem Consistent.addChannel (h : w.Consistent orderly l) (hfree : w.nodeAt d = none)
    (fresh : FreshBuffer) : (w.addChannel d fresh).Consistent orderly l where
  listed := h.listed
  flat := h.flat
  map := h.map.addChannel d fresh
  underway := h.underway
  stalled c reason hlock hreason := by
    obtain ⟨d', node, hpoint, hnode, hstuck, hwaiting⟩ := h.stalled c reason hlock hreason
    have hne : d' ≠ d := by
      rintro rfl
      rw [hfree] at hnode
      cases hnode
    exact ⟨d', node, hpoint, nodeAt_addChannel.trans ((if_neg hne).trans hnode), hstuck, hwaiting⟩

/-- A channel that is created over another one leaves no run orderly. -/
theorem Consistent.renew (h : w.Consistent orderly l) {channel : Channel}
    (hnode : w.nodeAt d = some { ref, channel }) (hdisorder : ¬orderly) (fresh : FreshBuffer) :
    (w.setChannel d { ref, channel := Channel.new fresh.val }).Consistent orderly l where
  listed := h.listed
  flat := h.flat
  map := h.map.setChannel hnode ⟨Channel.new_inBounds _, fresh.property⟩
  underway := h.underway
  stalled c reason hlock hreason := by
    obtain ⟨d', node, hpoint, hnode', -, hwaiting⟩ := h.stalled c reason hlock hreason
    by_cases hd : d' = d
    · subst hd
      obtain rfl := Option.some.inj (hnode'.symm.trans hnode)
      exact ⟨d', { ref, channel := Channel.new fresh.val }, hpoint,
        nodeAt_setChannel.trans (if_pos rfl), fun horderly ↦ absurd horderly hdisorder, hwaiting⟩
    · exact ⟨d', node, hpoint, nodeAt_setChannel.trans ((if_neg hd).trans hnode'),
        fun horderly ↦ absurd horderly hdisorder, hwaiting⟩

/-- A channel is closed only when nobody waits for it. -/
theorem Consistent.close (h : w.Consistent orderly l) (hwaiting : w.waiting d = []) :
    { w with channels := SortedMap.erase (· < ·) d w.channels }.Consistent orderly l where
  listed := h.listed
  flat := h.flat
  map := h.map.erase d
  underway := h.underway
  stalled c reason hlock hreason := by
    obtain ⟨d', node, hpoint, hnode, hstuck, hmem⟩ := h.stalled c reason hlock hreason
    have hne : d' ≠ d := by
      rintro rfl
      rw [hwaiting] at hmem
      cases hmem
    exact ⟨d', node, hpoint, (nodeAt_erase h.map.sorted).trans ((if_neg hne).trans hnode), hstuck,
      hmem⟩

theorem Consistent.registered (h : w.Consistent orderly l) :
    { w with engine := w.engine.registered .notLocked }.Consistent orderly
      (w.engine.created :: l) := by
  refine h.setEngine (h.listed.registered .notLocked) (flat_registered h.flat) ?_
  intro c reason hc hreason
  rw [lockOf_registered] at hc
  split at hc
  · exact absurd (Option.some.inj hc).symm hreason
  · exact hc

/-- Every action of the running context keeps locked contexts stalled. -/
theorem Effect.wakeful (h : w.Wakeful orderly l) (hcur : w.engine.curRoutine = some c)
    (hexited : w.exited = false) (horderly : orderly → ¬∃ j < 0, w.nodeAt j ≠ none)
    (heffect : Effect w c events w') : ∃ l', w'.Wakeful orderly l' := by
  have hfree := h.awake hexited c hcur
  have hcurFree : ∀ c', w.engine.curRoutine = some c' → lockOf w.engine c' = some .notLocked :=
    h.awake hexited
  cases heffect with
  | idle => exact ⟨l, h⟩
  | run hrun =>
      rw [h.listed.run_eq] at hrun
      obtain ⟨-, rfl⟩ := Prod.mk.inj (Except.ok.inj hrun)
      refine ⟨_, h.registered.wakeful hexited fun c' hc' ↦ ?_⟩
      rw [lockOf_registered, hcurFree c' hc', ite_self]
  | schedule hschedule => exact ⟨l, h.schedule hexited hschedule⟩
  | complete _ hcomplete => exact h.complete hexited hcur hcomplete
  | create hfreeDescr fresh => exact ⟨l, (h.addChannel hfreeDescr fresh).wakeful hexited hcurFree⟩
  | renew hnode hnegative fresh =>
      exact ⟨l, (h.renew hnode (fun h' ↦ horderly h' hnegative) fresh).wakeful hexited hcurFree⟩
  | close hwaiting => exact ⟨l, (h.close hwaiting).wakeful hexited hcurFree⟩
  | sendCall _ _ hloop => exact ⟨l, h.sendLoop hexited hcur hfree (Nat.zero_le _) hloop⟩
  | sendResume hpoint hloop =>
      have hunderway := h.underway c
      rw [hpoint] at hunderway
      exact ⟨l, h.sendLoop hexited hcur hfree (Nat.le_of_lt hunderway) hloop⟩
  | recvCall _ _ hloop => exact ⟨l, h.recvLoop hexited hcur hfree (Nat.zero_le _) hloop⟩
  | recvResume hpoint hloop =>
      have hunderway := h.underway c
      rw [hpoint] at hunderway
      exact ⟨l, h.recvLoop hexited hcur hfree (Nat.le_of_lt hunderway) hloop⟩

theorem initial_consistent : initial.Consistent orderly [] where
  listed := Engine.listed_empty
  flat _ := rfl
  map := initial_channelMap
  underway _ := trivial
  stalled _ _ hlock := by cases hlock

theorem start_wakeful (h : start = .ok w) : ∃ l, w.Wakeful orderly l := by
  obtain ⟨⟨pc, e⟩, hrun, h⟩ := ok_of_bind h
  rw [Engine.listed_empty.run_eq] at hrun
  obtain ⟨-, rfl⟩ := Prod.mk.inj (Except.ok.inj hrun)
  exact ⟨_, initial_consistent.registered.schedule rfl h⟩

theorem Wakeful.mono (h : w.Wakeful orderly l) (himp : orderly' → orderly) :
    w.Wakeful orderly' l where
  listed := h.listed
  flat := h.flat
  map := h.map
  underway := h.underway
  stalled c reason hlock hreason := by
    obtain ⟨d, node, hpoint, hnode, hstuck, hwaiting⟩ := h.stalled c reason hlock hreason
    exact ⟨d, node, hpoint, hnode, fun h' ↦ hstuck (himp h'), hwaiting⟩
  awake := h.awake
  dead := h.dead

/-- The runs without negative descriptors are the orderly ones. -/
theorem Reaches.wakeful {history : List Event} (h : Reaches w history) :
    ∃ l, w.Wakeful (NonNegative history) l := by
  apply h.induct (P := fun history w ↦ ∃ l, w.Wakeful (NonNegative history) l) start_wakeful
  intro history events w w' c ht ⟨l, hw⟩ hcur hexited heffect
  have hbefore : NonNegative (history ++ events) → NonNegative history := NonNegative.of_append
  exact heffect.wakeful (hw.mono hbefore) hcur hexited fun hnonneg ↦ ht.nonneg (hbefore hnonneg)

/-! ## Blocked readers and writers -/

/-- The context is suspended in `recv_channel` on `d`, locked. -/
def BlockedReader (w : World) (c : Ctx) (d : ℤ) : Prop :=
  lockOf w.engine c = some .lockedRead ∧ ∃ ref nbytes data, w.point c = .recv d ref nbytes data

/-- The context is suspended in `send_channel` on `d`, locked. -/
def BlockedWriter (w : World) (c : Ctx) (d : ℤ) : Prop :=
  lockOf w.engine c = some .lockedWrite ∧ ∃ ref data written, w.point c = .send d ref data written

theorem Consistent.nodeAt_of_blockedReader (h : w.Consistent orderly l) (horderly : orderly)
    (hblocked : w.BlockedReader c d) :
    ∃ node, w.nodeAt d = some node ∧ node.channel.unread = [] := by
  obtain ⟨hlock, ref, nbytes, data, hpoint⟩ := hblocked
  obtain ⟨d', node, hawaited, hnode, hstuck, -⟩ := h.stalled c _ hlock (by simp)
  rw [hpoint] at hawaited
  cases hawaited
  exact ⟨node, hnode, hstuck horderly⟩

theorem Consistent.nodeAt_of_blockedWriter (h : w.Consistent orderly l) (horderly : orderly)
    (hblocked : w.BlockedWriter c d) : ∃ node, w.nodeAt d = some node ∧ node.channel.room = 0 := by
  obtain ⟨hlock, ref, data, written, hpoint⟩ := hblocked
  obtain ⟨d', node, hawaited, hnode, hstuck, -⟩ := h.stalled c _ hlock (by simp)
  rw [hpoint] at hawaited
  cases hawaited
  exact ⟨node, hnode, hstuck horderly⟩

/-- A reader and a writer are never blocked on the same channel, as it would be both empty and
full. -/
theorem Consistent.not_blocked_both (h : w.Consistent orderly l) (horderly : orderly) {c' : Ctx}
    (hreader : w.BlockedReader c d) (hwriter : w.BlockedWriter c' d) : False := by
  obtain ⟨node, hnode, hunread⟩ := h.nodeAt_of_blockedReader horderly hreader
  obtain ⟨node', hnode', hroom⟩ := h.nodeAt_of_blockedWriter horderly hwriter
  obtain rfl := Option.some.inj (hnode.symm.trans hnode')
  obtain ⟨hin, hsize⟩ := h.map.inBounds d node hnode
  have hcapacity := hin.length_unread_add_room
  rw [hunread, hroom, hsize, List.length_nil, defaultChannelBufSize] at hcapacity
  split at hcapacity <;> omega

theorem Consistent.blocked_of_locked (h : w.Consistent orderly l)
    (hlock : lockOf w.engine c = some reason) (hreason : reason ≠ .notLocked) :
    ∃ d, w.BlockedReader c d ∨ w.BlockedWriter c d := by
  obtain ⟨d, node, hawaited, -, -, -⟩ := h.stalled c reason hlock hreason
  cases hpoint : w.point c with
  | body =>
      rw [hpoint] at hawaited
      cases hawaited
  | send d' ref data written =>
      rw [hpoint] at hawaited
      cases hawaited
      exact ⟨_, Or.inr ⟨hlock, _, data, written, hpoint⟩⟩
  | recv d' ref nbytes data =>
      rw [hpoint] at hawaited
      cases hawaited
      exact ⟨_, Or.inl ⟨hlock, _, nbytes, data, hpoint⟩⟩

end World

/-- No wakeup is lost: in every world reached without negative descriptors a blocked reader's
channel is empty, a blocked writer's channel does not take a single byte, so no channel has both,
and when the process has ended with the dead lock message every registered coroutine is blocked in
one of these ways. -/
theorem no_lost_wakeup {w : World} {history : List Event} (h : World.Reaches w history)
    (hnonneg : World.NonNegative history) :
    (∀ c d, w.BlockedReader c d → ∃ node, w.nodeAt d = some node ∧ node.channel.unread = []) ∧
    (∀ c d, w.BlockedWriter c d → ∃ node, w.nodeAt d = some node ∧
      ∀ byte, ∃ channel', node.channel.write [byte] = some (0, channel')) ∧
    (∀ c c' d, ¬(w.BlockedReader c d ∧ w.BlockedWriter c' d)) ∧
    (w.exited = true → ∀ c, w.engine.context c ≠ none →
      ∃ d, w.BlockedReader c d ∨ w.BlockedWriter c d) := by
  obtain ⟨l, hw⟩ := h.wakeful
  refine ⟨fun c d ↦ hw.nodeAt_of_blockedReader hnonneg, fun c d hblocked ↦ ?_,
    fun c c' d hboth ↦ hw.not_blocked_both hnonneg hboth.1 hboth.2, fun hexited c hc ↦ ?_⟩
  · obtain ⟨node, hnode, hroom⟩ := hw.nodeAt_of_blockedWriter hnonneg hblocked
    refine ⟨node, hnode, fun byte ↦ ?_⟩
    obtain ⟨channel', hwrite, -⟩ := Channel.write_spec (hw.map.inBounds d node hnode).1 [byte]
    rw [hroom] at hwrite
    exact ⟨channel', hwrite⟩
  · obtain ⟨x, hx⟩ := Option.ne_none_iff_exists'.mp hc
    have hlock : lockOf w.engine c = some x.locked := lockOf_eq_some.mpr ⟨x, hx, rfl⟩
    have hdead := hw.dead hexited c ((hw.listed.mem c).mpr hc)
    exact hw.blocked_of_locked hlock fun hfree ↦ hdead (hfree ▸ hlock)

/-- A blocked reader is woken and gets its byte. When it asks for another one, and the main
coroutine for one too, both are blocked and the process ends with the dead lock message. -/
theorem no_lost_wakeup_served : ∃ w history,
    World.playFromStart [.create zeros, .run, .yield, .recv 0 1, .send 0 [7], .yield, .resume,
      .recv 0 1, .recv 0 1] = some (history, w) ∧
    .recvRet 1 (some 0) 1 [7] 1 ∈ history ∧ w.BlockedReader 1 0 ∧ w.exited = true ∧
    (∃ node, w.nodeAt 0 = some node ∧ node.channel.unread = []) ∧
    ∀ c, w.engine.context c ≠ none → ∃ d, w.BlockedReader c d ∨ w.BlockedWriter c d := by
  have hplay : (World.playFromStart
      [.create zeros, .run, .yield, .recv 0 1, .send 0 [7], .yield, .resume,
      .recv 0 1, .recv 0 1]).map
      (fun r ↦ (r.1, r.2.exited, lockOf r.2.engine 1, r.2.point 1)) =
      some ([.created 0 0, .createRet 0 0, .recvCall 1 0 1, .copied 1 0 [], .sendCall 0 0 [7],
        .taken 0 0 [7], .sendRet 0 (some 0) [7] 1, .copied 1 0 [7], .recvRet 1 (some 0) 1 [7] 1,
        .recvCall 1 0 1, .copied 1 0 [], .recvCall 0 0 1, .copied 0 0 []], true, some .lockedRead,
        .recv 0 0 1 []) := by
    decide +kernel
  obtain ⟨⟨history, w⟩, hw, heq⟩ := Option.map_eq_some_iff.mp hplay
  simp only [Prod.mk.injEq] at heq
  obtain ⟨rfl, hexited, hlock, hpoint⟩ := heq
  have hreader : w.BlockedReader 1 0 := ⟨hlock, 0, 1, [], hpoint⟩
  obtain ⟨hempty, -, -, hdead⟩ :=
    no_lost_wakeup (World.reaches_of_play hw) (by simp [World.NonNegative])
  exact ⟨w, _, hw, by simp, hreader, hexited, hempty 1 0 hreader, hdead hexited⟩

end CppMtHw.NetEngine
