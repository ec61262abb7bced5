import Mathlib.Algebra.Order.BigOperators.Group.Finset
import CppMtHw.NetEngine.Delivery
import CppMtHw.NetEngine.Progress

/-!
# Dead locks and what the channels owe

Every byte that has been offered to a channel by `send_channel` is in it, has been through
it, or is still to be taken by the call; every byte asked for by `recv_channel` has been
handed out or is still to be. In a dead lock all calls on a channel are of one direction, as
it would be both empty and full otherwise. So the calls made so far on the channels that are
waited for do not match: more has been asked for than offered, or more is left over than the
buffer can hold.
-/

namespace CppMtHw.NetEngine

open Machine Coroutines

/-- The bytes for which a call on the channel asks in a direction. -/
def Event.asked (own : LockedState) (ref : ℕ) : Event → ℕ
  | .sendCall _ ref' data => if own = .lockedWrite ∧ ref' = ref then data.length else 0
  | .recvCall _ ref' nbytes => if own = .lockedRead ∧ ref' = ref then nbytes else 0
  | _ => 0

/-- The bytes that are moved into the channel or out of it. -/
def Event.moved (own : LockedState) (ref : ℕ) : Event → ℕ
  | .taken _ ref' bytes => if own = .lockedWrite ∧ ref' = ref then bytes.length else 0
  | .copied _ ref' bytes => if own = .lockedRead ∧ ref' = ref then bytes.length else 0
  | _ => 0

/-- The bytes that a call on the channel under way has still to move. -/
def Point.due (own : LockedState) (ref : ℕ) : Point → ℕ
  | .body => 0
  | .send _ ref' data written =>
      if own = .lockedWrite ∧ ref' = ref then data.length - written else 0
  | .recv _ ref' nbytes data => if own = .lockedRead ∧ ref' = ref then nbytes - data.length else 0

def bytesOffered (ref : ℕ) (history : List Event) : ℕ :=
  (history.map (Event.asked .lockedWrite ref)).sum

def bytesWanted (ref : ℕ) (history : List Event) : ℕ :=
  (history.map (Event.asked .lockedRead ref)).sum

namespace World

variable {w w' : World} {c c' : Ctx} {d : ℤ} {ref ref' written nbytes n : ℕ} {data : List UInt8}
  {act : Action} {events history : List Event} {own : LockedState} {l : List Ctx} {p : Point}

/-- What the calls under way of the first `n` contexts have still to move. -/
def due (w : World) (own : LockedState) (ref n : ℕ) : ℕ :=
  ∑ c ∈ Finset.range n, (w.point c).due own ref

theorem due_congr (hpoint : w'.point = w.point) : w'.due own ref n = w.due own ref n := by
  unfold due
  rw [hpoint]

theorem due_update (hpoint : w'.point = Function.update w.point c p) (hc : c < n) :
    w'.due own ref n + (w.point c).due own ref = w.due own ref n + p.due own ref := by
  unfold due
  rw [hpoint]
  exact sum_update_add (Finset.range n) w.point (Point.due own ref) (Finset.mem_range.mpr hc) p

/-- The events move what the point owes less than before. -/
def Pays (w : World) (c : Ctx) (p : Point) (events : List Event) (w' : World) : Prop :=
  ∃ p' : Point, w'.point = Function.update w.point c p' ∧ ∀ own ref,
    (events.map (Event.asked own ref)).sum = 0 ∧
      (events.map (Event.moved own ref)).sum + p'.due own ref = p.due own ref

theorem sendLoop_pays (hwritten : written ≤ data.length)
    (hin : ∀ node, w.nodeAt d = some node → node.channel.InBounds)
    (hloop : w.sendLoop c d ref data written = .ok (events, w')) :
    w.Pays c (.send d ref data written) events w' := by
  rcases sendLoop_ok hloop with
      ⟨hdone, rfl, rfl⟩ | ⟨-, channel, nwrite, channel', hnode, hwrite, hrest⟩
  · refine ⟨.body, rfl, fun own ref' ↦ ⟨rfl, ?_⟩⟩
    simp [Event.moved, Point.due, hdone]
  obtain ⟨c₁, hspec, -⟩ := Channel.write_spec (hin _ hnode) (data.drop written)
  obtain ⟨hnwrite, -⟩ := Prod.mk.inj (Option.some.inj (hspec.symm.trans hwrite))
  have hlength : ((data.drop written).take nwrite).length = nwrite := by
    rw [List.length_take, ← hnwrite]
    omega
  have hle : nwrite ≤ data.length - written := by
    rw [← hlength, List.length_take, List.length_drop]
    omega
  rcases hrest with ⟨hall, rfl, rfl⟩ | ⟨-, rfl, hsuspended⟩
  · refine ⟨.body, rfl, fun own ref' ↦ ⟨rfl, ?_⟩⟩
    simp only [List.map_cons, List.map_nil, List.sum_cons, List.sum_nil, Event.moved,
      Point.due, hlength]
    split <;> omega
  · refine ⟨_, hsuspended.frame.2.2, fun own ref' ↦ ⟨rfl, ?_⟩⟩
    simp only [List.map_cons, List.map_nil, List.sum_cons, List.sum_nil, Event.moved,
      Point.due, hlength]
    split <;> omega

theorem recvLoop_pays (hread : data.length ≤ nbytes)
    (hin : ∀ node, w.nodeAt d = some node → node.channel.InBounds)
    (hloop : w.recvLoop c d ref nbytes data = .ok (events, w')) :
    w.Pays c (.recv d ref nbytes data) events w' := by
  rcases recvLoop_ok hloop with
      ⟨hdone, rfl, rfl⟩ | ⟨-, channel, nread, bytes, channel', hnode, hcall, hrest⟩
  · refine ⟨.body, rfl, fun own ref' ↦ ⟨rfl, ?_⟩⟩
    simp [Event.moved, Point.due, hdone]
  rw [usub_of_le hread] at hcall
  obtain ⟨c₁, hspec, -⟩ := Channel.read_spec (hin _ hnode) (nbytes - data.length)
  obtain ⟨hnread, hpair⟩ := Prod.mk.inj (Option.some.inj (hspec.symm.trans hcall))
  obtain ⟨hbytes, -⟩ := Prod.mk.inj hpair
  have hlength : (bytes.take nread).length ≤ nbytes - data.length := by
    rw [List.length_take, ← hnread]
    omega
  rcases hrest with ⟨hall, rfl, rfl⟩ | ⟨-, rfl, hsuspended⟩
  · refine ⟨.body, rfl, fun own ref' ↦ ⟨rfl, ?_⟩⟩
    rw [List.length_append] at hall
    simp only [List.map_cons, List.map_nil, List.sum_cons, List.sum_nil, Event.moved, Point.due]
    split <;> omega
  · refine ⟨_, hsuspended.frame.2.2, fun own ref' ↦ ⟨rfl, ?_⟩⟩
    simp only [List.map_cons, List.map_nil, List.sum_cons, List.sum_nil, Event.moved, Point.due,
      List.length_append]
    split <;> omega

theorem idle_sums (hidle : ∀ e ∈ events, e.Idle) :
    (events.map (Event.asked own ref)).sum = 0 ∧ (events.map (Event.moved own ref)).sum = 0 := by
  constructor
  · apply List.sum_eq_zero
    intro k hk
    obtain ⟨e, he, rfl⟩ := List.mem_map.mp hk
    have hidle_e := hidle e he
    cases e with
    | sendCall | recvCall => exact hidle_e.elim
    | created | createRet | closeRet | taken | sendRet | copied | recvRet => rfl
  · apply List.sum_eq_zero
    intro k hk
    obtain ⟨e, he, rfl⟩ := List.mem_map.mp hk
    have hidle_e := hidle e he
    cases e with
    | taken | copied => exact hidle_e.elim
    | created | createRet | closeRet | sendCall | sendRet | recvCall | recvRet => rfl

/-- What an effect adds to the bytes asked for is moved or still due. -/
theorem Effect.balance (hmap : w.ChannelMap) (hunderway : (w.point c).Underway) (hc : c < n)
    (heffect : Effect w c events w') :
    w'.due own ref n + (events.map (Event.moved own ref)).sum =
      w.due own ref n + (events.map (Event.asked own ref)).sum := by
  have hin : ∀ d node, w.nodeAt d = some node → node.channel.InBounds := fun d node hnode ↦
    (hmap.inBounds d node hnode).1
  have hresume : ∀ {p events}, w.point c = p → w.Pays c p events w' →
      w'.due own ref n + (events.map (Event.moved own ref)).sum =
        w.due own ref n + (events.map (Event.asked own ref)).sum := by
    rintro p events hp ⟨p', hpoint, hpays⟩
    have hsum : w'.due own ref n + _ = _ := due_update hpoint hc
    obtain ⟨hasked, hmoved⟩ := hpays own ref
    rw [hp] at hsum
    omega
  have hcall : ∀ {p events} {e : Event}, w.point c = .body → w.Pays c p events w' →
      e.moved own ref = 0 → e.asked own ref = p.due own ref →
      w'.due own ref n + ((e :: events).map (Event.moved own ref)).sum =
        w.due own ref n + ((e :: events).map (Event.asked own ref)).sum := by
    rintro p events e hp ⟨p', hpoint, hpays⟩ hnone hall
    have hsum : w'.due own ref n + _ = _ := due_update hpoint hc
    obtain ⟨hasked, hmoved⟩ := hpays own ref
    have hbody : (w.point c).due own ref = 0 := by rw [hp]; rfl
    rw [List.map_cons, List.map_cons, List.sum_cons, List.sum_cons]
    omega
  cases heffect with
  | idle hidle =>
      have hsums : (events.map (Event.asked own ref)).sum = 0 ∧
          (events.map (Event.moved own ref)).sum = 0 :=
        idle_sums hidle
      rw [hsums.1, hsums.2]
  | run => rfl
  | schedule hschedule => exact congrArg (· + 0) (due_congr (schedule_frame hschedule).2.2)
  | complete _ hcomplete => exact congrArg (· + 0) (due_congr (complete_frame hcomplete).2.2)
  | create | renew | close => rfl
  | sendCall hpoint hnode hloop =>
      apply hcall hpoint (sendLoop_pays (Nat.zero_le _) (hin _) hloop) rfl
      rfl
  | recvCall hpoint hnode hloop =>
      apply hcall hpoint (recvLoop_pays (Nat.zero_le _) (hin _) hloop) rfl
      rfl
  | sendResume hpoint hloop =>
      rw [hpoint] at hunderway
      exact hresume hpoint (sendLoop_pays (Nat.le_of_lt hunderway) (hin _) hloop)
  | recvResume hpoint hloop =>
      rw [hpoint] at hunderway
      exact hresume hpoint (recvLoop_pays (Nat.le_of_lt hunderway) (hin _) hloop)

/-! ## Runs -/

theorem Effect.created_le (hl : Steady w.engine l) (hcur : w.engine.curRoutine = some c)
    (heffect : Effect w c events w') : w.engine.created ≤ w'.engine.created := by
  cases heffect with
  | idle | create | renew | close => exact Nat.le_refl _
  | run hrun =>
      rw [hl.listed.run_eq] at hrun
      obtain ⟨-, rfl⟩ := Prod.mk.inj (Except.ok.inj hrun)
      exact Nat.le_succ _
  | schedule hschedule => exact (schedule_created hl hschedule).ge
  | complete _ hcomplete => exact (complete_created hl hcur hcomplete).ge
  | sendCall _ _ hloop | sendResume _ hloop => exact ((sendLoop_passes hloop).created hl).ge
  | recvCall _ _ hloop | recvResume _ hloop => exact ((recvLoop_passes hloop).created hl).ge

/-- What the calls on a channel have asked for has been moved or is still due. -/
theorem Reaches.balance (h : Reaches w history) (own : LockedState) (ref : ℕ) :
    ∀ n, w.engine.created ≤ n →
      w.due own ref n + (history.map (Event.moved own ref)).sum =
        (history.map (Event.asked own ref)).sum := by
  apply h.induct (P := fun history w ↦ ∀ n, w.engine.created ≤ n →
    w.due own ref n + (history.map (Event.moved own ref)).sum =
      (history.map (Event.asked own ref)).sum)
  · intro w hstart n _
    obtain ⟨r, -, hschedule⟩ := ok_of_bind hstart
    have hbody : w.due own ref n = 0 := by
      apply Finset.sum_eq_zero
      intro c _
      rw [(schedule_frame hschedule).2.2]
      rfl
    rw [hbody]
    rfl
  · intro history events w w' c ht ih hcur hexited heffect n hn
    obtain ⟨l, hl⟩ := ht.steady
    obtain ⟨l', hwakeful⟩ := ht.wakeful
    have hle := (heffect.created_le hl hcur).trans hn
    have hc := hl.listed.bound c ((hl.listed.mem c).mpr (hl.current c hcur))
    have hstep : w'.due own ref n + _ = _ :=
      heffect.balance ht.channelMap (hwakeful.underway c) (Nat.lt_of_lt_of_le hc hle)
    have hbefore := ih n hle
    rw [List.map_append, List.map_append, List.sum_append, List.sum_append]
    omega

/-- A call is under way only in registered contexts. -/
theorem Reaches.registered_of_underway (h : Reaches w history) :
    ∀ c, w.point c ≠ .body → w.engine.context c ≠ none := by
  apply h.induct (P := fun _ w ↦ ∀ c, w.point c ≠ .body → w.engine.context c ≠ none)
  · intro w hstart c hc
    obtain ⟨r, -, hschedule⟩ := ok_of_bind hstart
    rw [(schedule_frame hschedule).2.2] at hc
    exact absurd rfl hc
  · intro history events w w' c ht ih hcur hexited heffect c' hc'
    obtain ⟨l, hl⟩ := ht.steady
    have hpasses : ∀ {d ref woken own}, w.Passes c d ref woken own w' →
        w'.engine.context c' ≠ none := by
      intro d ref woken own hpasses
      have hold : c' = c ∨ w.point c' ≠ .body := by
        cases hpasses with
        | done | last =>
            by_cases hne : c' = c
            · exact Or.inl hne
            · right
              intro hbody
              apply hc'
              exact (Function.update_of_ne hne _ _).trans hbody
        | wait _ _ _ hsuspended =>
            rw [hsuspended.frame.2.2] at hc'
            by_cases hne : c' = c
            · exact Or.inl hne
            · rw [Function.update_of_ne hne] at hc'
              exact Or.inr hc'
      apply ((hpasses.steady hl).listed.mem c').mp
      apply (hl.listed.mem c').mpr
      rcases hold with rfl | hbefore
      · exact hl.current c' hcur
      · exact ih c' hbefore
    cases heffect with
    | idle | create | renew | close => exact ih c' hc'
    | run hrun =>
        rw [hl.listed.run_eq] at hrun
        obtain ⟨-, rfl⟩ := Prod.mk.inj (Except.ok.inj hrun)
        apply ((hl.listed.registered LockedState.notLocked).mem c').mp
        exact List.mem_cons_of_mem _ ((hl.listed.mem c').mpr (ih c' hc'))
    | schedule hschedule =>
        rw [(schedule_frame hschedule).2.2] at hc'
        apply ((schedule_steady hl hschedule).listed.mem c').mp
        exact (hl.listed.mem c').mpr (ih c' hc')
    | complete hbody hcomplete =>
        rw [(complete_frame hcomplete).2.2] at hc'
        have hne : c' ≠ c := by
          rintro rfl
          exact hc' hbody
        apply ((complete_steady hl hcur hcomplete).listed.mem c').mp
        exact (List.mem_erase_of_ne hne).mpr ((hl.listed.mem c').mpr (ih c' hc'))
    | sendCall _ _ hloop | sendResume _ hloop => exact hpasses (sendLoop_passes hloop)
    | recvCall _ _ hloop | recvResume _ hloop => exact hpasses (recvLoop_passes hloop)

theorem schedule_exited {routine : Option Ctx} (hl : Steady w.engine l)
    (hok : w.schedule routine = .ok w') (hexited : w.exited = false) (hdead : w'.exited = true) :
    w.engine.curRoutine ≠ none ∧ w'.engine = w.engine := by
  rcases schedule_ok hok with ⟨-, rfl⟩ | ⟨e, -, rfl⟩ | ⟨hsched, rfl⟩
  · rw [hexited] at hdead
    cases hdead
  · rw [show w.exited = false from hexited] at hdead
    cases hdead
  · rcases sched_ok hl.listed hl.flat hsched with ⟨heq, -⟩ | ⟨_, _, heq⟩ | ⟨-, hcur, -⟩
    · cases heq
    · cases heq
    · exact ⟨hcur, rfl⟩

/-- The dead lock message comes while there are contexts. -/
theorem Reaches.registered_of_exited (h : Reaches w history) :
    w.exited = true → ∃ c, w.engine.context c ≠ none := by
  apply h.induct (P := fun _ w ↦ w.exited = true → ∃ c, w.engine.context c ≠ none)
  · intro w hstart hdead
    obtain ⟨⟨pc, e⟩, hrun, hschedule⟩ := ok_of_bind hstart
    rw [Engine.listed_empty.run_eq] at hrun
    obtain ⟨-, rfl⟩ := Prod.mk.inj (Except.ok.inj hrun)
    have hl : Steady { initial with engine := Engine.empty.registered .notLocked }.engine [0] :=
      steady_empty.registered
    exact absurd rfl (schedule_exited hl hschedule rfl hdead).1
  · intro history events w w' c ht _ hcur hexited heffect hdead
    obtain ⟨l, hl⟩ := ht.steady
    have hmem := (hl.listed.mem c).mpr (hl.current c hcur)
    have hstays : ∀ {l'}, Steady w'.engine l' → c ∈ l' → ∃ c, w'.engine.context c ≠ none :=
      fun hl' hmem' ↦ ⟨c, (hl'.listed.mem c).mp hmem'⟩
    cases heffect with
    | idle | create | renew | close => exact ⟨c, hl.current c hcur⟩
    | run hrun =>
        rw [hl.listed.run_eq] at hrun
        obtain ⟨-, rfl⟩ := Prod.mk.inj (Except.ok.inj hrun)
        exact hstays hl.registered (List.mem_cons_of_mem _ hmem)
    | schedule hschedule => exact hstays (schedule_steady hl hschedule) hmem
    | complete _ hcomplete =>
        -- nobody is running any more, so there is no such message
        obtain ⟨next, e, hclean, hrest⟩ := complete_ok hcomplete
        obtain ⟨x, hx, rfl⟩ := complete_eq_completed hl.listed hcur hclean
        have hl' := hl.completed hx
        rcases hrest with hidle | ⟨routine, -, ⟨e', -, rfl⟩ | ⟨hsched, -⟩⟩
        · exact absurd rfl (schedule_exited (w := { w with engine := w.engine.completed c x }) hl'
            hidle hexited hdead).1
        · exact absurd (hexited.symm.trans hdead) (by simp)
        · rcases sched_ok hl'.listed hl'.flat hsched with ⟨heq, -⟩ | ⟨_, _, heq⟩ | ⟨-, hcur', -⟩
          · cases heq
          · cases heq
          · exact absurd rfl hcur'
    | sendCall _ _ hloop | sendResume _ hloop =>
        exact hstays ((sendLoop_passes hloop).steady hl) hmem
    | recvCall _ _ hloop | recvResume _ hloop =>
        exact hstays ((recvLoop_passes hloop).steady hl) hmem

/-! ## What a channel has taken and handed out -/

theorem streams_cons (e : Event) (history : List Event) :
    streams (e :: history) = e.stream.toList ++ streams history := by
  rw [streams, List.filterMap_cons]
  cases e.stream <;> rfl

theorem length_taking (e : Event) (ref : ℕ) :
    (e.stream.toList.flatMap (Stream.Event.taking (fun _ ↦ True) ref)).length =
      e.moved .lockedWrite ref := by
  cases e with
  | taken c ref' bytes =>
      by_cases hr : ref' = ref <;> simp [Event.stream, Event.moved, Stream.Event.taking, hr]
  | sendRet c ref' | recvRet c ref' => cases ref' <;> rfl
  | copied c ref' bytes => simp [Event.stream, Event.moved, Stream.Event.taking]
  | created | createRet | closeRet | sendCall | recvCall => rfl

theorem length_copying (e : Event) (ref : ℕ) :
    (e.stream.toList.flatMap (Stream.Event.copying (fun _ ↦ True) ref)).length =
      e.moved .lockedRead ref := by
  cases e with
  | copied c ref' bytes =>
      by_cases hr : ref' = ref <;> simp [Event.stream, Event.moved, Stream.Event.copying, hr]
  | sendRet c ref' | recvRet c ref' => cases ref' <;> rfl
  | taken c ref' bytes => simp [Event.stream, Event.moved, Stream.Event.copying]
  | created | createRet | closeRet | sendCall | recvCall => rfl

theorem length_taken (ref : ℕ) (history : List Event) :
    (Stream.taken ref (streams history)).length =
      (history.map (Event.moved .lockedWrite ref)).sum := by
  induction history with
  | nil => rfl
  | cons e history ih =>
      rw [streams_cons, Stream.taken, List.flatMap_append, List.length_append, length_taking,
        List.map_cons, List.sum_cons, ← ih, Stream.taken]

theorem length_copied (ref : ℕ) (history : List Event) :
    (Stream.copied ref (streams history)).length =
      (history.map (Event.moved .lockedRead ref)).sum := by
  induction history with
  | nil => rfl
  | cons e history ih =>
      rw [streams_cons, Stream.copied, List.flatMap_append, List.length_append, length_copying,
        List.map_cons, List.sum_cons, ← ih, Stream.copied]

/-- A channel in the map holds what has been moved into it and not out of it. -/
theorem Reaches.moved_eq (h : Reaches w history) (hnonneg : NonNegative history) {node : MapNode}
    (hnode : w.nodeAt d = some node) : (history.map (Event.moved .lockedWrite node.ref)).sum =
      (history.map (Event.moved .lockedRead node.ref)).sum + node.channel.unread.length := by
  obtain ⟨s, hrun, hrep⟩ := h.follows hnonneg
  have hstream : Stream.taken node.ref (streams history) = _ := Stream.run_stream hrun
  calc
    _ = (Stream.taken node.ref (streams history)).length := (length_taken _ _).symm
    _ = (Stream.copied node.ref (streams history)).length + (s.queue node.ref).length := by
      rw [hstream, List.length_append]
    _ = _ := by rw [length_copied, hrep.queue d node hnode]

/-! ## Dead locks -/

/-- In a dead lock whoever has a call under way is stalled. -/
theorem Wakeful.stalled_of_underway {orderly : Prop} (h : w.Wakeful orderly l)
    (hdead : w.exited = true) (hc : w.engine.context c ≠ none) :
    ∃ d node reason, reason ≠ .notLocked ∧ lockOf w.engine c = some reason ∧
      w.Stalled orderly c reason d node := by
  obtain ⟨x, hx⟩ := Option.ne_none_iff_exists'.mp hc
  have hlock : lockOf w.engine c = some x.locked := lockOf_eq_some.mpr ⟨x, hx, rfl⟩
  have hlocked : x.locked ≠ .notLocked := fun hfree ↦
    h.dead hdead c ((h.listed.mem c).mpr hc) (hfree ▸ hlock)
  obtain ⟨d, node, hstalled⟩ := h.stalled c x.locked hlock hlocked
  exact ⟨d, node, x.locked, hlocked, hlock, hstalled⟩

/-- What is due in a direction of a channel is due by a call that waits for it. -/
theorem exists_awaited_of_due (hdue : p.due own ref ≠ 0) : ∃ d, p.awaited = some (d, ref, own) := by
  cases p with
  | body => exact absurd rfl hdue
  | send d ref' data written =>
      have hcond : own = .lockedWrite ∧ ref' = ref := by
        by_contra hne
        exact hdue (if_neg hne)
      obtain ⟨rfl, rfl⟩ := hcond
      exact ⟨d, rfl⟩
  | recv d ref' nbytes data =>
      have hcond : own = .lockedRead ∧ ref' = ref := by
        by_contra hne
        exact hdue (if_neg hne)
      obtain ⟨rfl, rfl⟩ := hcond
      exact ⟨d, rfl⟩

/-- In a dead lock nothing is due in the direction in which the channel could serve. -/
theorem Reaches.due_eq_zero (h : Reaches w history) (hnonneg : NonNegative history)
    (hdead : w.exited = true) {node : MapNode} (hnode : w.nodeAt d = some node)
    (hserves : ¬node.channel.Stuck own) (n : ℕ) : w.due own node.ref n = 0 := by
  obtain ⟨l, hw⟩ := h.wakeful
  apply Finset.sum_eq_zero
  intro c _
  by_contra hdue
  obtain ⟨d', hawaited⟩ := exists_awaited_of_due hdue
  have hunderway : w.point c ≠ .body := by
    intro hbody
    rw [hbody] at hawaited
    cases hawaited
  obtain ⟨j, node', reason, -, -, hstalled⟩ :=
    hw.stalled_of_underway hdead (h.registered_of_underway c hunderway)
  have hsame := hawaited.symm.trans hstalled.point
  simp only [Option.some.injEq, Prod.mk.injEq] at hsame
  obtain ⟨rfl, href, rfl⟩ := hsame
  obtain rfl := h.channelMap.ref_inj d d' node node' hnode hstalled.here href
  obtain rfl := Option.some.inj (hnode.symm.trans hstalled.here)
  exact hserves (hstalled.stuck hnonneg)

/-- A call that waits has something due. -/
theorem due_pos (hunderway : (w.point c).Underway)
    (hawaited : (w.point c).awaited = some (d, ref, own)) (hc : c < n) : 0 < w.due own ref n := by
  have hpoint : 0 < (w.point c).due own ref := by
    cases hp : w.point c with
    | body =>
        rw [hp] at hawaited
        cases hawaited
    | send d' ref' data written | recv d' ref' nbytes data =>
        rw [hp] at hawaited hunderway
        cases hawaited
        show 0 < if _ then _ else _
        rw [if_pos ⟨rfl, rfl⟩]
        exact Nat.sub_pos_of_lt hunderway
  calc
    0 < (w.point c).due own ref := hpoint
    _ ≤ w.due own ref n := by
      apply Finset.single_le_sum (f := fun c ↦ (w.point c).due own ref)
      · exact fun _ _ ↦ Nat.zero_le _
      · exact Finset.mem_range.mpr hc

end World

open World

/-- When the process has ended with the dead lock message there are contexts left, and each of them
waits for a channel on which the calls made so far do not match: a reader for one from which more
has been asked than was offered to it, a writer for one to which at least 4096 bytes more have been
offered than were asked. -/
theorem dead_lock_unbalanced {w : World} {history : List Event} (h : Reaches w history)
    (hnonneg : NonNegative history) (hdead : w.exited = true) :
    (∃ c, w.engine.context c ≠ none) ∧ ∀ c, w.engine.context c ≠ none →
      ∃ d node, w.nodeAt d = some node ∧
        (w.BlockedReader c d ∧ bytesOffered node.ref history < bytesWanted node.ref history ∨
          w.BlockedWriter c d ∧
            bytesWanted node.ref history + defaultChannelBufSize ≤
              bytesOffered node.ref history) := by
  refine ⟨h.registered_of_exited hdead, fun c hc ↦ ?_⟩
  obtain ⟨l, hw⟩ := h.wakeful
  obtain ⟨d, node, reason, hreason, hlock, hstalled⟩ := hw.stalled_of_underway hdead hc
  have hnode := hstalled.here
  have hstuck := hstalled.stuck hnonneg
  have hbound : c < w.engine.created := hw.listed.bound c ((hw.listed.mem c).mpr hc)
  have hoffered := h.balance .lockedWrite node.ref _ (Nat.le_refl _)
  have hwanted := h.balance .lockedRead node.ref _ (Nat.le_refl _)
  have hmoved := h.moved_eq hnonneg hnode
  have hpos := due_pos (hw.underway c) hstalled.point hbound
  refine ⟨d, node, hnode, ?_⟩
  cases hp : w.point c with
  | body =>
      have hawaited := hstalled.point
      rw [hp] at hawaited
      cases hawaited
  | send d' ref data written =>
      have hawaited := hstalled.point
      rw [hp] at hawaited
      cases hawaited
      have hroom : node.channel.room = 0 := hstuck
      have hserves : ¬node.channel.Stuck .lockedRead := hw.map.unread_ne_nil hnode hroom
      have hnothing := h.due_eq_zero hnonneg hdead hnode hserves w.engine.created
      obtain ⟨hin, hsize⟩ := hw.map.inBounds _ node hnode
      have hcapacity := hin.length_unread_add_room
      rw [hroom, hsize] at hcapacity
      refine Or.inr ⟨⟨hlock, _, data, written, hp⟩, ?_⟩
      show (history.map _).sum + _ ≤ (history.map _).sum
      split at hcapacity <;> omega
  | recv d' ref nbytes data =>
      have hawaited := hstalled.point
      rw [hp] at hawaited
      cases hawaited
      have hempty : node.channel.unread = [] := hstuck
      have hserves : ¬node.channel.Stuck .lockedWrite := fun hroom ↦
        hw.map.unread_ne_nil hnode hroom hempty
      have hnothing := h.due_eq_zero hnonneg hdead hnode hserves w.engine.created
      rw [hempty, List.length_nil] at hmoved
      refine Or.inl ⟨⟨hlock, _, nbytes, data, hp⟩, ?_⟩
      show (history.map _).sum < (history.map _).sum
      omega

/-- A main coroutine that asks its own empty channel for a byte. -/
theorem dead_lock_unbalanced_reader : ∃ w history, Reaches w history ∧ w.exited = true ∧ ∃ c d node,
    w.nodeAt d = some node ∧
      (w.BlockedReader c d ∧ bytesOffered node.ref history < bytesWanted node.ref history ∨
        w.BlockedWriter c d ∧
          bytesWanted node.ref history + defaultChannelBufSize ≤
            bytesOffered node.ref history) := by
  have hplay : (playFromStart [.create zeros, .recv 0 1]).map (fun r ↦ (r.1, r.2.exited)) =
      some ([.created 0 0, .createRet 0 0, .recvCall 0 0 1, .copied 0 0 []], true) := by
    decide +kernel
  obtain ⟨⟨history, w⟩, hw, heq⟩ := Option.map_eq_some_iff.mp hplay
  obtain ⟨rfl, hexited⟩ := Prod.mk.inj heq
  have hnonneg : NonNegative [.created 0 0, .createRet 0 0, .recvCall 0 0 1, .copied 0 0 []] := by
    simp [NonNegative]
  obtain ⟨⟨c, hc⟩, hall⟩ := dead_lock_unbalanced (reaches_of_play hw) hnonneg hexited
  exact ⟨w, _, reaches_of_play hw, hexited, c, hall c hc⟩

end CppMtHw.NetEngine
