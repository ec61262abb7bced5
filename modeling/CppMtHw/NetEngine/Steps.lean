import CppMtHw.Coroutines.AliveList
import CppMtHw.Machine.Fallible
import CppMtHw.NetEngine.World

/-!
# What the steps of a world do

The calls that make up a step, described by the worlds they lead to when they
succeed: which fields they assign and what the channel map and the lock table hold
afterwards. Invariants are proved from these descriptions.
-/

namespace CppMtHw.NetEngine

open Machine Coroutines

/-- The contexts of `cs` that are locked for `reason` are unlocked. -/
def unlocked (e : Engine LockedState) (reason : LockedState) (cs : List Ctx) :
    Engine LockedState :=
  { e with
    context := fun c ↦
      if c ∈ cs then
        (e.context c).map fun x ↦ if x.locked = reason then { x with locked := .notLocked } else x
      else e.context c }

theorem get_ok {e : Engine LockedState} {c : Ctx} {x : Context LockedState}
    (h : e.get c = .ok x) : e.context c = some x := by
  unfold Engine.get at h
  split at h
  · rename_i y hy
    rw [hy, Except.ok.inj h]
  · cases h

theorem modify_ok {e e' : Engine LockedState} {c : Ctx}
    {f : Context LockedState → Context LockedState} (h : e.modify c f = .ok e') :
    e.context c ≠ none ∧ e' = e.mapAt (some c) f := by
  obtain ⟨x, hx, hput⟩ := ok_of_bind h
  have hcontext : e.context c ≠ none := by simp [get_ok hx]
  have hmap := Engine.modifyOpt_eq (e := e) (c := some c) (f := f) fun c' hc ↦
    Option.some.inj hc ▸ hcontext
  rw [Engine.modifyOpt, h] at hmap
  exact ⟨hcontext, Except.ok.inj hmap⟩

theorem modifyOpt_ok {e e' : Engine LockedState} {c : Option Ctx}
    {f : Context LockedState → Context LockedState} (h : e.modifyOpt c f = .ok e') :
    (∀ c', c = some c' → e.context c' ≠ none) ∧ e' = e.mapAt c f := by
  have hne : ∀ c', c = some c' → e.context c' ≠ none := by
    rintro c' rfl
    exact (modify_ok h).1
  exact ⟨hne, Except.ok.inj (h.symm.trans (Engine.modifyOpt_eq hne))⟩

namespace World

variable {w w' : World} {c : Ctx} {d j : ℤ} {ref written nbytes : ℕ} {data : List UInt8}
  {events : List Event} {reason : LockedState}

def nodeAt (w : World) (d : ℤ) : Option MapNode := (find d w.channels).map Prod.snd

def waiting (w : World) (d : ℤ) : List Ctx := ((find d w.locksTable).map Prod.snd).getD []

theorem find_insert_snd {V : Type} {m : List (ℤ × V)} {v : V} :
    (find j (SortedMap.insert (· < ·) d v m)).map Prod.snd =
      if j = d then some v else (find j m).map Prod.snd := SortedMap.map_snd_find_insert

theorem nodeAt_setChannel {node : MapNode} :
    (w.setChannel d node).nodeAt j = if j = d then some node else w.nodeAt j := find_insert_snd

theorem nodeAt_erase (h : SortedMap.Sorted (· < ·) w.channels) :
    { w with channels := SortedMap.erase (· < ·) d w.channels }.nodeAt j =
      if j = d then none else w.nodeAt j := SortedMap.map_snd_find_erase h

theorem find_eq_some {V : Type} {m : List (ℤ × V)} {p : ℤ × V} (h : find d m = some p) :
    p ∈ m ∧ p.1 = d := SortedMap.find_eq_some_key h

theorem channelAt_ok {channel : Channel} (h : w.channelAt d ref = .ok channel) :
    w.nodeAt d = some { ref, channel } := by
  unfold channelAt at h
  split at h
  · rename_i node hfind
    split at h
    · rename_i href
      rw [nodeAt, hfind, ← Except.ok.inj h, ← href]
      rfl
    · cases h
  · cases h

theorem write_ok {channel channel' : Channel} {nwrite : ℕ}
    (h : write channel data = .ok (nwrite, channel')) :
    channel.write data = some (nwrite, channel') := by
  unfold write at h
  split at h
  · rename_i hwrite
    rw [hwrite, Except.ok.inj h]
  · cases h

theorem read_ok {channel channel' : Channel} {nread : ℕ} {bytes : List UInt8}
    (h : read channel nbytes = .ok (nread, bytes, channel')) :
    channel.read nbytes = some (nread, bytes, channel') := by
  unfold read at h
  split at h
  · rename_i hread
    rw [hread, Except.ok.inj h]
  · cases h

theorem schedule_ok {routine : Option Ctx} (h : w.schedule routine = .ok w') :
    (sched w.engine routine = .ok .returned ∧ w' = w) ∨
    (∃ e, sched w.engine routine = .ok (.switched e) ∧ w' = { w with engine := e }) ∨
    (sched w.engine routine = .ok .deadLock ∧ w' = { w with exited := true }) := by
  obtain ⟨outcome, houtcome, hw'⟩ := ok_of_bind h
  cases outcome with
  | returned => exact Or.inl ⟨houtcome, (Except.ok.inj hw').symm⟩
  | switched e => exact Or.inr (Or.inl ⟨e, houtcome, (Except.ok.inj hw').symm⟩)
  | deadLock => exact Or.inr (Or.inr ⟨houtcome, (Except.ok.inj hw').symm⟩)

theorem complete_ok (h : w.complete c = .ok w') : ∃ next e,
    w.engine.complete c = .ok (next, e) ∧
    ({ w with engine := e }.schedule none = .ok w' ∨
      ∃ routine, next = some routine ∧
        ((∃ e', sched e (some routine) = .ok (.switched e') ∧ w' = { w with engine := e' }) ∨
          (sched e (some routine) = .ok .deadLock ∧
            w' = { w with engine := e, exited := true }))) := by
  obtain ⟨⟨next, e⟩, hcomplete, hrest⟩ := ok_of_bind h
  refine ⟨next, e, hcomplete, ?_⟩
  cases next with
  | none => exact Or.inl hrest
  | some routine =>
      obtain ⟨outcome, houtcome, hw'⟩ := ok_of_bind hrest
      cases outcome with
      | returned => exact Or.inl hw'
      | switched e' =>
          exact Or.inr ⟨routine, rfl, Or.inl ⟨e', houtcome, (Except.ok.inj hw').symm⟩⟩
      | deadLock => exact Or.inr ⟨routine, rfl, Or.inr ⟨houtcome, (Except.ok.inj hw').symm⟩⟩

theorem unlockEach_ok {e e' : Engine LockedState} {cs : List Ctx}
    (h : unlockEach e reason cs = .ok e') : e' = unlocked e reason cs := by
  induction cs generalizing e with
  | nil =>
      rw [← Except.ok.inj h]
      simp [unlocked]
  | cons c cs ih =>
      obtain ⟨x, hget, hrest⟩ := ok_of_bind h
      have hx := get_ok hget
      split at hrest
      · rename_i hlocked
        rw [ih hrest]
        simp only [unlocked, Engine.put, Engine.mk.injEq, and_true]
        funext c'
        by_cases hc : c' = c
        · subst hc
          simp [hx, hlocked]
        · simp [hc]
      · rename_i hlocked
        rw [ih hrest]
        simp only [unlocked, Engine.mk.injEq, and_true]
        funext c'
        by_cases hc : c' = c
        · subst hc
          simp [hx, hlocked]
        · simp [hc]

theorem unlockAll_ok (h : w.unlockAll d reason = .ok w') :
    w' = { w with engine := unlocked w.engine reason (w.waiting d) } := by
  unfold unlockAll at h
  unfold waiting
  split at h
  · rename_i hfind
    rw [hfind, ← Except.ok.inj h]
    simp [unlocked]
  · rename_i contexts hfind
    obtain ⟨e, he, hw'⟩ := ok_of_bind h
    rw [hfind, ← Except.ok.inj hw', unlockEach_ok he]
    rfl

theorem lock_ok (h : w.lock d c reason = .ok w') :
    w.engine.context c ≠ none ∧
    w' = { w with
      engine := w.engine.mapAt (some c) fun x ↦ { x with locked := reason }
      locksTable := w'.locksTable } ∧
    ∀ j, w'.waiting j = if j = d then w.waiting d ++ [c] else w.waiting j := by
  obtain ⟨e, he, hw'⟩ := ok_of_bind h
  obtain ⟨hc, rfl⟩ := modify_ok he
  rw [← Except.ok.inj hw']
  refine ⟨hc, rfl, fun j ↦ ?_⟩
  simp only [waiting, find_insert_snd]
  cases hfind : find d w.locksTable with
  | none =>
      simp only [find_insert_snd]
      by_cases hj : j = d <;> simp [hj]
  | some p => by_cases hj : j = d <;> simp [hj, hfind]

/-! ## The loops of `send_channel` and `recv_channel` -/

/-- The world after a transfer: the channel is stored, and the contexts that wait for the other
direction are unlocked. -/
def transferred (w : World) (d : ℤ) (node : MapNode) (reason : LockedState) : World :=
  { w.setChannel d node with engine := unlocked w.engine reason (w.waiting d) }

/-- The context `c` waits for the channel under `d` at the point `p`. -/
def Suspended (w : World) (c : Ctx) (d : ℤ) (reason : LockedState) (p : Point) (w' : World) :
    Prop :=
  ∃ w₁, w.lock d c reason = .ok w₁ ∧ (w₁.at_ c p).schedule none = .ok w'

theorem schedule_frame {routine : Option Ctx} (h : w.schedule routine = .ok w') :
    w'.channels = w.channels ∧ w'.refs = w.refs ∧ w'.point = w.point := by
  rcases schedule_ok h with ⟨-, rfl⟩ | ⟨e, -, rfl⟩ | ⟨-, rfl⟩ <;> exact ⟨rfl, rfl, rfl⟩

theorem complete_frame (h : w.complete c = .ok w') :
    w'.channels = w.channels ∧ w'.refs = w.refs ∧ w'.point = w.point := by
  obtain ⟨next, e, -, hschedule | ⟨routine, -, ⟨e', -, rfl⟩ | ⟨-, rfl⟩⟩⟩ := complete_ok h
  · have hframe := schedule_frame hschedule
    exact hframe
  · exact ⟨rfl, rfl, rfl⟩
  · exact ⟨rfl, rfl, rfl⟩

theorem Suspended.frame {p : Point} (h : w.Suspended c d reason p w') :
    w'.channels = w.channels ∧ w'.refs = w.refs ∧ w'.point = Function.update w.point c p := by
  obtain ⟨w₁, hlock, hschedule⟩ := h
  obtain ⟨-, heq, -⟩ := lock_ok hlock
  obtain ⟨hchannels, hrefs, hpoint⟩ := schedule_frame hschedule
  rw [heq] at hchannels hrefs hpoint
  exact ⟨hchannels, hrefs, hpoint⟩

theorem sendLoop_ok (h : w.sendLoop c d ref data written = .ok (events, w')) :
    (written = data.length ∧ events = [.sendRet c (some ref) data written] ∧ w' = w.at_ c .body) ∨
    (written ≠ data.length ∧ ∃ channel nwrite channel',
      w.nodeAt d = some { ref, channel } ∧
      channel.write (data.drop written) = some (nwrite, channel') ∧
      ((written + nwrite = data.length ∧
          events = [.taken c ref ((data.drop written).take nwrite),
            .sendRet c (some ref) data (written + nwrite : ℕ)] ∧
          w' = (w.transferred d { ref, channel := channel' } .lockedRead).at_ c .body) ∨
        (written + nwrite ≠ data.length ∧
          events = [.taken c ref ((data.drop written).take nwrite)] ∧
          (w.transferred d { ref, channel := channel' } .lockedRead).Suspended c d .lockedWrite
            (.send d ref data (written + nwrite)) w'))) := by
  unfold sendLoop at h
  split at h
  · rename_i hdone
    obtain ⟨rfl, rfl⟩ := Prod.mk.inj (Except.ok.inj h)
    exact Or.inl ⟨hdone, rfl, rfl⟩
  · rename_i hmore
    obtain ⟨channel, hchannel, h⟩ := ok_of_bind h
    obtain ⟨⟨nwrite, channel'⟩, hwrite, h⟩ := ok_of_bind h
    obtain ⟨w₁, hunlock, h⟩ := ok_of_bind h
    have hw₁ : w₁ = w.transferred d { ref, channel := channel' } .lockedRead := unlockAll_ok hunlock
    subst hw₁
    refine Or.inr ⟨hmore, channel, nwrite, channel', channelAt_ok hchannel, write_ok hwrite, ?_⟩
    split at h
    · rename_i hcut
      obtain ⟨w₂, hlock, h⟩ := ok_of_bind h
      obtain ⟨w₃, hschedule, h⟩ := ok_of_bind h
      obtain ⟨rfl, rfl⟩ := Prod.mk.inj (Except.ok.inj h)
      exact Or.inr ⟨hcut, rfl, w₂, hlock, hschedule⟩
    · rename_i hall
      obtain ⟨rfl, rfl⟩ := Prod.mk.inj (Except.ok.inj h)
      exact Or.inl ⟨not_not.mp hall, rfl, rfl⟩

theorem recvLoop_ok (h : w.recvLoop c d ref nbytes data = .ok (events, w')) :
    (data.length = nbytes ∧ events = [.recvRet c (some ref) nbytes data data.length] ∧
      w' = w.at_ c .body) ∨
    (data.length ≠ nbytes ∧ ∃ channel nread bytes channel',
      w.nodeAt d = some { ref, channel } ∧
      channel.read (usub nbytes data.length) = some (nread, bytes, channel') ∧
      (((data ++ bytes.take nread).length = nbytes ∧
          events = [.copied c ref (bytes.take nread), .recvRet c (some ref) nbytes
            (data ++ bytes.take nread) (data ++ bytes.take nread).length] ∧
          w' = (w.transferred d { ref, channel := channel' } .lockedWrite).at_ c .body) ∨
        ((data ++ bytes.take nread).length ≠ nbytes ∧ events = [.copied c ref (bytes.take nread)] ∧
          (w.transferred d { ref, channel := channel' } .lockedWrite).Suspended c d .lockedRead
            (.recv d ref nbytes (data ++ bytes.take nread)) w'))) := by
  unfold recvLoop at h
  split at h
  · rename_i hdone
    obtain ⟨rfl, rfl⟩ := Prod.mk.inj (Except.ok.inj h)
    exact Or.inl ⟨hdone, rfl, rfl⟩
  · rename_i hmore
    obtain ⟨channel, hchannel, h⟩ := ok_of_bind h
    obtain ⟨⟨nread, bytes, channel'⟩, hread, h⟩ := ok_of_bind h
    obtain ⟨w₁, hunlock, h⟩ := ok_of_bind h
    have hw₁ : w₁ = w.transferred d { ref, channel := channel' } .lockedWrite :=
      unlockAll_ok hunlock
    subst hw₁
    refine Or.inr ⟨hmore, channel, nread, bytes, channel', channelAt_ok hchannel, read_ok hread, ?_⟩
    split at h
    · rename_i hcut
      obtain ⟨w₂, hlock, h⟩ := ok_of_bind h
      obtain ⟨w₃, hschedule, h⟩ := ok_of_bind h
      obtain ⟨rfl, rfl⟩ := Prod.mk.inj (Except.ok.inj h)
      exact Or.inr ⟨hcut, rfl, w₂, hlock, hschedule⟩
    · rename_i hall
      obtain ⟨rfl, rfl⟩ := Prod.mk.inj (Except.ok.inj h)
      exact Or.inl ⟨not_not.mp hall, rfl, rfl⟩

end World

end CppMtHw.NetEngine
