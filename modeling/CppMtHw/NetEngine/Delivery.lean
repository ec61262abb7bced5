import CppMtHw.Machine.Stream
import CppMtHw.NetEngine.ChannelMap

/-!
# Delivery between coroutines

The runs of a program are runs of the streams between agents: the agents are the
coroutines, the channels are the nodes of the map, and a queue holds the unread bytes
of its channel. A suspended call corresponds to a call under way. What the streams
promise on every interleaving therefore holds of the channels of the engine.
-/

namespace CppMtHw.NetEngine

open Machine Coroutines

/-- What an event means for the streams. -/
def Event.stream : Event → Option (Stream.Event Ctx ℕ UInt8)
  | .sendCall c ref data => some (.sendCall c ref data)
  | .taken c ref bytes => some (.taken c ref bytes)
  | .sendRet c (some ref) _ _ => some (.sendRet c ref)
  | .recvCall c ref _ => some (.recvCall c ref)
  | .copied c ref bytes => some (.copied c ref bytes)
  | .recvRet c (some ref) _ data _ => some (.recvRet c ref data)
  | _ => none

def streams (history : List Event) : List (Stream.Event Ctx ℕ UInt8) :=
  history.filterMap Event.stream

def Point.call : Point → Stream.Call ℕ UInt8
  | .body => .idle
  | .send _ ref data written => .sending ref (data.drop written)
  | .recv _ ref _ data => .receiving ref data

theorem Event.Idle.stream_eq {e : Event} (h : e.Idle) : e.stream = none := by
  cases e with
  | sendRet c ref data ret =>
      obtain ⟨rfl, -⟩ := h
      rfl
  | recvRet c ref nbytes data ret =>
      obtain ⟨rfl, -⟩ := h
      rfl
  | createRet | closeRet => rfl
  | created | sendCall | taken | recvCall | copied => exact h.elim

/-- A call that returns without failing has transferred all of its bytes. -/
def Event.Complete : Event → Prop
  | .sendRet _ _ data ret => ret = -1 ∨ ret = data.length
  | .recvRet _ _ nbytes data ret => ret = -1 ∨ (ret = nbytes ∧ data.length = nbytes)
  | _ => True

theorem Event.Idle.complete {e : Event} (h : e.Idle) : e.Complete := by
  cases e with
  | sendRet | recvRet => exact Or.inl h.2
  | created | createRet | closeRet | sendCall | taken | recvCall | copied => trivial

namespace World

variable {w w' : World} {c : Ctx} {d : ℤ} {ref written nbytes : ℕ} {data : List UInt8}
  {events : List Event} {s : Stream.State Ctx ℕ UInt8}

structure Represents (w : World) (s : Stream.State Ctx ℕ UInt8) : Prop where
  call : ∀ c, s.call c = (w.point c).call
  queue : ∀ d node, w.nodeAt d = some node → s.queue node.ref = node.channel.unread
  fresh : ∀ ref, w.refs ≤ ref → s.queue ref = []

theorem Represents.congr (h : w.Represents s) (hchannels : w'.channels = w.channels)
    (hrefs : w'.refs = w.refs) (hpoint : w'.point = w.point) : w'.Represents s where
  call c := by rw [hpoint, h.call]
  queue d node hnode := by
    rw [nodeAt, hchannels] at hnode
    exact h.queue d node hnode
  fresh ref hle := h.fresh ref (hrefs ▸ hle)

/-- The streams take the steps of the events on the way from `s` to a state of `w'`. -/
def Follows (s : Stream.State Ctx ℕ UInt8) (events : List Event) (w' : World) : Prop :=
  ∃ s', Run Stream.Step s (streams events) s' ∧ w'.Represents s'

theorem Follows.cons {e : Event} {label : Stream.Event Ctx ℕ UInt8}
    {s₁ : Stream.State Ctx ℕ UInt8} (hlabel : e.stream = some label)
    (hstep : Stream.Step s label s₁) (h : Follows s₁ events w') : Follows s (e :: events) w' := by
  obtain ⟨s', hrun, hrep⟩ := h
  refine ⟨s', ?_, hrep⟩
  rw [streams, List.filterMap_cons_some hlabel]
  exact hrun.cons hstep

theorem Follows.nil (h : w'.Represents s) : Follows s [] w' := ⟨s, Run.nil s, h⟩

/-- The start or the end of a call. -/
theorem Represents.at_ (h : w.Represents s) (p : Point) :
    (w.at_ c p).Represents { s with call := Function.update s.call c p.call } where
  call c' := by
    by_cases hc : c' = c
    · subst hc
      simp [World.at_]
    · simp [World.at_, hc, h.call]
  queue := h.queue
  fresh := h.fresh

theorem at_at {p q : Point} : (w.at_ c p).at_ c q = w.at_ c q := by
  simp [World.at_]

/-- A transfer on a channel of the map by a call under way at `p`, which goes on at `q`. -/
theorem Represents.transfer {p : Point} (h : (w.at_ c p).Represents s) (hmap : w.ChannelMap)
    {channel channel' : Channel} (hnode : w.nodeAt d = some { ref, channel }) (q : Point)
    (hchannels : w'.channels = (w.setChannel d { ref, channel := channel' }).channels)
    (hrefs : w'.refs = w.refs) (hpoint : w'.point = Function.update w.point c q) :
    w'.Represents {
      queue := Function.update s.queue ref channel'.unread
      call := Function.update s.call c q.call } where
  call c' := by
    rw [hpoint]
    by_cases hc : c' = c
    · subst hc
      simp
    · simp [hc, h.call, World.at_]
  queue j node hj := by
    have hj : (w.setChannel d { ref, channel := channel' }).nodeAt j = some node := by
      rw [← hj, nodeAt, nodeAt, hchannels]
    rw [nodeAt_setChannel] at hj
    split at hj
    · rw [← Option.some.inj hj]
      exact Function.update_self _ _ _
    · rename_i hne
      have href : node.ref ≠ ref := fun heq ↦ hne (hmap.ref_inj j d _ _ hj hnode heq)
      exact (Function.update_of_ne href _ _).trans (h.queue j node hj)
  fresh ref' hle := by
    have hlt : ref < w.refs := hmap.ref_lt d _ hnode
    have hne : ref' ≠ ref := by omega
    exact (Function.update_of_ne hne _ _).trans (h.fresh ref' (hrefs ▸ hle))

theorem Represents.call_at {p : Point} (h : (w.at_ c p).Represents s) : s.call c = p.call := by
  rw [h.call]
  simp [World.at_]

/-- The loop of `send_channel`, entered from a call under way. -/
theorem sendLoop_follows (h : (w.at_ c (.send d ref data written)).Represents s)
    (hmap : w.ChannelMap) (hloop : w.sendLoop c d ref data written = .ok (events, w')) :
    Follows s events w' := by
  have hcall : s.call c = .sending ref (data.drop written) := h.call_at
  rcases sendLoop_ok hloop with
    ⟨hdone, rfl, rfl⟩ | ⟨-, channel, nwrite, channel', hnode, hwrite, hrest⟩
  · rw [hdone, List.drop_length] at hcall
    exact .cons rfl (.sendRet c ref hcall) (.nil (at_at ▸ h.at_ .body))
  · obtain ⟨c₁, hspec, -, -, -, hunread⟩ :=
      Channel.write_spec (hmap.inBounds d _ hnode).1 (data.drop written)
    obtain ⟨rfl, rfl⟩ := Prod.mk.inj (Option.some.inj (hspec.symm.trans hwrite))
    set nwrite := min (data.drop written).length channel.room with hnwrite
    -- the channel takes the bytes it has written
    have hsplit : data.drop written =
        (data.drop written).take nwrite ++ data.drop (written + nwrite) := by
      rw [← List.drop_drop, List.take_append_drop]
    have hqueue : s.queue ref ++ (data.drop written).take nwrite = c₁.unread := by
      rw [hunread, List.take_eq_take_min (i := channel.room), Nat.min_comm]
      rw [h.queue d _ hnode]
    have htaken := Stream.Step.taken c ref _ _ (hcall.trans (congrArg _ hsplit))
    rw [hqueue] at htaken
    rcases hrest with ⟨hall, rfl, rfl⟩ | ⟨-, rfl, hsuspended⟩
    · have hrep : ((w.transferred d { ref, channel := c₁ } .lockedRead).at_ c
          (.send d ref data (written + nwrite))).Represents _ :=
        h.transfer hmap hnode _ rfl rfl rfl
      refine .cons rfl htaken (.cons rfl (.sendRet c ref ?_) (.nil (at_at ▸ hrep.at_ .body)))
      rw [hall, List.drop_length]
      exact Function.update_self _ _ _
    · obtain ⟨hchannels, hrefs, hpoint⟩ := hsuspended.frame
      exact .cons rfl htaken (.nil (h.transfer hmap hnode _ hchannels hrefs hpoint))

/-- The loop of `recv_channel`, entered from a call under way. -/
theorem recvLoop_follows (h : (w.at_ c (.recv d ref nbytes data)).Represents s)
    (hmap : w.ChannelMap) (hloop : w.recvLoop c d ref nbytes data = .ok (events, w')) :
    Follows s events w' := by
  have hcall : s.call c = .receiving ref data := h.call_at
  rcases recvLoop_ok hloop with
    ⟨-, rfl, rfl⟩ | ⟨-, channel, nread, bytes, channel', hnode, hread, hrest⟩
  · exact .cons rfl (.recvRet c ref data hcall) (.nil (at_at ▸ h.at_ .body))
  · obtain ⟨c₁, hspec, -, -, hunread⟩ :=
      Channel.read_spec (hmap.inBounds d _ hnode).1 (usub nbytes data.length)
    obtain ⟨rfl, hrest'⟩ := Prod.mk.inj (Option.some.inj (hspec.symm.trans hread))
    obtain ⟨rfl, rfl⟩ := Prod.mk.inj hrest'
    set part := (channel.unread.take (usub nbytes data.length)).take
      (min (usub nbytes data.length) channel.unread.length) with hpart
    -- the channel hands out the bytes it has read
    have hqueue : s.queue ref = part ++ c₁.unread := by
      rw [h.queue d _ hnode, hunread, hpart, List.take_of_length_le (by simp),
        List.take_append_drop]
    have hcopied := Stream.Step.copied c ref data part _ hcall hqueue
    rcases hrest with ⟨-, rfl, rfl⟩ | ⟨-, rfl, hsuspended⟩
    · have hrep : ((w.transferred d { ref, channel := c₁ } .lockedWrite).at_ c
          (.recv d ref nbytes (data ++ part))).Represents _ :=
        h.transfer hmap hnode _ rfl rfl rfl
      exact .cons rfl hcopied (.cons rfl (.recvRet c ref _ (Function.update_self _ _ _))
        (.nil (at_at ▸ hrep.at_ .body)))
    · obtain ⟨hchannels, hrefs, hpoint⟩ := hsuspended.frame
      exact .cons rfl hcopied (.nil (h.transfer hmap hnode _ hchannels hrefs hpoint))

theorem streams_idle (hidle : ∀ e ∈ events, e.Idle) : streams events = [] :=
  List.filterMap_eq_nil_iff.mpr fun e he ↦ (hidle e he).stream_eq

theorem at_of_point {p : Point} (h : w.point c = p) : w.at_ c p = w := by
  rw [World.at_, ← h, Function.update_eq_self]

/-- Every effect is a run of the streams. -/
theorem Effect.follows (h : w.Represents s) (hmap : w.ChannelMap)
    (hnonneg : ¬∃ j < 0, w.nodeAt j ≠ none) (heffect : Effect w c events w') :
    Follows s events w' := by
  have hidle : ∀ {p}, w.point c = p → s.call c = p.call := fun hp ↦ (h.call c).trans (hp ▸ rfl)
  cases heffect with
  | idle hevents => exact ⟨s, streams_idle hevents ▸ Run.nil s, h⟩
  | run => exact .nil (h.congr rfl rfl rfl)
  | schedule hschedule =>
      obtain ⟨hchannels, hrefs, hpoint⟩ := schedule_frame hschedule
      exact .nil (h.congr hchannels hrefs hpoint)
  | complete _ hcomplete =>
      obtain ⟨hchannels, hrefs, hpoint⟩ := complete_frame hcomplete
      exact .nil (h.congr hchannels hrefs hpoint)
  | renew _ hnegative => exact absurd hnegative hnonneg
  | create hfree fresh =>
      refine ⟨s, Run.nil s, h.call, fun j node hj ↦ ?_, fun ref hle ↦ h.fresh ref
        (Nat.le_of_lt hle)⟩
      rw [nodeAt_addChannel] at hj
      split at hj
      · rw [← Option.some.inj hj]
        exact (h.fresh _ (le_refl _)).trans (Channel.new_unread _).symm
      · exact h.queue j node hj
  | close =>
      refine ⟨s, Run.nil s, h.call, fun j node hj ↦ ?_, h.fresh⟩
      rw [nodeAt_erase hmap.sorted] at hj
      split at hj
      · cases hj
      · exact h.queue j node hj
  | sendCall hpoint hnode hloop =>
      exact .cons rfl (.sendCall c _ _ (hidle hpoint)) (sendLoop_follows (h.at_ _) hmap hloop)
  | sendResume hpoint hloop => exact sendLoop_follows (by rwa [at_of_point hpoint]) hmap hloop
  | recvCall hpoint hnode hloop =>
      exact .cons rfl (.recvCall c _ (hidle hpoint)) (recvLoop_follows (h.at_ _) hmap hloop)
  | recvResume hpoint hloop => exact recvLoop_follows (by rwa [at_of_point hpoint]) hmap hloop

theorem start_represents (h : start = .ok w) : w.Represents Stream.State.initial := by
  obtain ⟨⟨pc, e⟩, -, h⟩ := ok_of_bind h
  obtain ⟨hchannels, hrefs, hpoint⟩ := schedule_frame h
  have hinitial : initial.Represents Stream.State.initial := ⟨fun _ ↦ rfl, nofun, fun _ _ ↦ rfl⟩
  exact hinitial.congr hchannels hrefs hpoint

/-- Worlds reached without negative descriptors are represented by a run of the streams. -/
theorem Reaches.follows {history : List Event} (h : Reaches w history)
    (hnonneg : NonNegative history) : Follows Stream.State.initial history w := by
  revert hnonneg
  apply h.induct (P := fun history w ↦ NonNegative history → Follows Stream.State.initial history w)
  · exact fun hstart _ ↦ .nil (start_represents hstart)
  · intro history events w w' c ht ih _ _ heffect hnonneg
    obtain ⟨s, hstreams, hrep⟩ := ih hnonneg.of_append
    obtain ⟨s', hafter, hrep'⟩ := heffect.follows hrep ht.channelMap (ht.nonneg hnonneg.of_append)
    refine ⟨s', ?_, hrep'⟩
    rw [streams, List.filterMap_append]
    exact hstreams.append hafter

/-! ## What the calls return -/

theorem sendLoop_complete (hloop : w.sendLoop c d ref data written = .ok (events, w')) :
    ∀ e ∈ events, e.Complete := by
  rcases sendLoop_ok hloop with
    ⟨hdone, rfl, -⟩ | ⟨-, _, nwrite, _, -, -, ⟨hdone, rfl, -⟩ | ⟨-, rfl, -⟩⟩
  · simp [Event.Complete, hdone]
  · simp only [List.mem_cons, List.not_mem_nil, or_false, forall_eq_or_imp, forall_eq]
    exact ⟨trivial, Or.inr (congrArg _ hdone)⟩
  · simp [Event.Complete]

theorem recvLoop_complete (hloop : w.recvLoop c d ref nbytes data = .ok (events, w')) :
    ∀ e ∈ events, e.Complete := by
  rcases recvLoop_ok hloop with
    ⟨hdone, rfl, -⟩ | ⟨-, _, nread, _, _, -, -, ⟨hdone, rfl, -⟩ | ⟨-, rfl, -⟩⟩
  · simp [Event.Complete, hdone]
  · simp only [List.mem_cons, List.not_mem_nil, or_false, forall_eq_or_imp, forall_eq]
    exact ⟨trivial, Or.inr ⟨congrArg _ hdone, hdone⟩⟩
  · simp [Event.Complete]

theorem Effect.complete_of_mem (heffect : Effect w c events w') : ∀ e ∈ events, e.Complete := by
  cases heffect with
  | idle hidle => exact fun e he ↦ (hidle e he).complete
  | run | schedule | complete => simp
  | create | renew | close => simp [Event.Complete]
  | sendResume _ hloop => exact sendLoop_complete hloop
  | recvResume _ hloop => exact recvLoop_complete hloop
  | sendCall _ _ hloop => exact List.forall_mem_cons.mpr ⟨trivial, sendLoop_complete hloop⟩
  | recvCall _ _ hloop => exact List.forall_mem_cons.mpr ⟨trivial, recvLoop_complete hloop⟩

theorem Reaches.complete {history : List Event} (h : Reaches w history) :
    ∀ e ∈ history, e.Complete := by
  apply h.induct (P := fun history _ ↦ ∀ e ∈ history, e.Complete)
  · exact fun _ e he ↦ (List.not_mem_nil he).elim
  · intro history events w w' c _ hcomplete _ _ heffect
    exact List.forall_mem_append.mpr ⟨hcomplete, heffect.complete_of_mem⟩

end World

/-- Delivery: along every run without negative descriptors, what a channel has handed out is a
leading part of what it has taken; with one sender and one receiver the results of the completed
receives are a leading part of the arguments of the sends; and calls that do not fail transfer all
of their bytes. -/
theorem delivery {w : World} {history : List Event} (h : World.Reaches w history)
    (hnonneg : World.NonNegative history) :
    (∀ ref, Stream.copied ref (streams history) <+: Stream.taken ref (streams history)) ∧
    (∀ ref a b, (∀ c data, .sendCall c ref data ∈ history → c = a) →
      (∀ c nbytes, .recvCall c ref nbytes ∈ history → c = b) →
      Stream.received ref (streams history) <+: Stream.arguments ref (streams history)) ∧
    (∀ c ref data (ret : ℤ), .sendRet c ref data ret ∈ history → 0 ≤ ret → ret = data.length) ∧
    (∀ c ref (nbytes : ℕ) data (ret : ℤ), .recvRet c ref nbytes data ret ∈ history → 0 ≤ ret →
      ret = nbytes ∧ data.length = nbytes) := by
  obtain ⟨s, hrun, -⟩ := h.follows hnonneg
  refine ⟨fun ref ↦ Stream.copied_isPrefix_taken hrun, fun ref a b hsend hrecv ↦ ?_, ?_, ?_⟩
  · refine Stream.received_isPrefix_arguments hrun (a := a) (b := b) (fun c data hmem ↦ ?_)
      fun c hmem ↦ ?_
    · obtain ⟨e, he, hstream⟩ := List.mem_filterMap.mp hmem
      cases e with
      | sendCall c' ref' data' =>
          cases hstream
          exact hsend _ _ he
      | sendRet c' ref' | recvRet c' ref' => cases ref' <;> cases hstream
      | _ => cases hstream
    · obtain ⟨e, he, hstream⟩ := List.mem_filterMap.mp hmem
      cases e with
      | recvCall c' ref' nbytes =>
          cases hstream
          exact hrecv _ _ he
      | sendRet c' ref' | recvRet c' ref' => cases ref' <;> cases hstream
      | _ => cases hstream
  · intro c ref data ret hmem hret
    exact (h.complete _ hmem).resolve_left (by omega)
  · intro c ref nbytes data ret hmem hret
    exact (h.complete _ hmem).resolve_left (by omega)

/-- A coroutine that reads two bytes waits twice, until the main coroutine has sent the first one,
and then two more. -/
theorem delivery_two_of_three : ∃ w history,
    World.playFromStart [.create zeros, .run, .yield, .recv 0 2, .send 0 [1], .yield, .resume,
      .send 0 [2, 3], .yield, .resume] = some (history, w) ∧
    Stream.arguments 0 (streams history) = [1, 2, 3] ∧
      Stream.received 0 (streams history) = [1, 2] ∧
    Stream.copied 0 (streams history) <+: Stream.taken 0 (streams history) ∧
    Stream.received 0 (streams history) <+: Stream.arguments 0 (streams history) := by
  have hplay : (World.playFromStart [.create zeros, .run, .yield, .recv 0 2, .send 0 [1], .yield,
      .resume, .send 0 [2, 3], .yield, .resume]).map Prod.fst =
      some [.created 0 0, .createRet 0 0, .recvCall 1 0 2, .copied 1 0 [], .sendCall 0 0 [1],
        .taken 0 0 [1], .sendRet 0 (some 0) [1] 1, .copied 1 0 [1], .sendCall 0 0 [2, 3],
        .taken 0 0 [2, 3], .sendRet 0 (some 0) [2, 3] 2, .copied 1 0 [2],
        .recvRet 1 (some 0) 2 [1, 2] 2] := by
    decide +kernel
  obtain ⟨⟨history, w⟩, hw, heq⟩ := Option.map_eq_some_iff.mp hplay
  obtain rfl : history = _ := heq
  obtain ⟨hbegins, hpair, -⟩ := delivery (World.reaches_of_play hw) (by simp [World.NonNegative])
  refine ⟨w, _, hw, rfl, rfl, hbegins 0, hpair 0 0 1 (fun c data hsend ↦ ?_)
    fun c nbytes hrecv ↦ ?_⟩
  · have hsends : c = 0 ∧ data = [1] ∨ c = 0 ∧ data = [2, 3] := by simpa using hsend
    rcases hsends with ⟨hc, -⟩ | ⟨hc, -⟩
    · exact hc
    · exact hc
  · have hrecvs : c = 1 ∧ nbytes = 2 := by simpa using hrecv
    exact hrecvs.1

end CppMtHw.NetEngine
