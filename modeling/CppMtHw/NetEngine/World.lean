import Mathlib.Algebra.Order.Group.Int
import CppMtHw.Machine.SortedMap
import CppMtHw.Machine.Transition
import CppMtHw.NetEngine.Channel
import CppMtHw.NetEngine.Sched

/-!
# Programs of coroutines under the net engine

`NetEngine` of `hw-net-engine/src/net-engine.cpp` together with the coroutines it
runs. `send_channel` and `recv_channel` are loops that suspend in the middle, so a
context has a `Point` at which it continues; everything between two transfers of
control is one step. The steps report what they do as events, from which the history
of a channel is read off.
-/

namespace CppMtHw.NetEngine

open Machine Coroutines

def defaultChannelBufSize : ℕ := 4096

/-- What the memory of a new channel's buffer happens to contain. -/
abbrev FreshBuffer := { buf : List UInt8 // buf.length = defaultChannelBufSize }

def zeros : FreshBuffer := ⟨List.replicate defaultChannelBufSize 0, List.length_replicate⟩

/-- A node of the map of channels; `ref` tells nodes apart that follow each other under one key. -/
structure MapNode where
  ref : ℕ
  channel : Channel

/-- Where a context continues: in the body of its coroutine, or in the loop of a call on the channel
that it has a reference to. -/
inductive Point
  | body
  | send (d : ℤ) (ref : ℕ) (data : List UInt8) (written : ℕ)
  | recv (d : ℤ) (ref : ℕ) (nbytes : ℕ) (data : List UInt8)
  deriving DecidableEq

/-- What a step does to channels, and what calls return. The channel of an event is given by its
`ref`, so channels that follow each other under one descriptor are told apart. -/
inductive Event
  | created (d : ℤ) (ref : ℕ)
  | createRet (c : Ctx) (d : ℤ)
  | closeRet (c : Ctx) (d : ℤ) (ret : ℤ)
  | sendCall (c : Ctx) (ref : ℕ) (data : List UInt8)
  | taken (c : Ctx) (ref : ℕ) (bytes : List UInt8)
  | sendRet (c : Ctx) (ref : Option ℕ) (data : List UInt8) (ret : ℤ)
  | recvCall (c : Ctx) (ref : ℕ) (nbytes : ℕ)
  | copied (c : Ctx) (ref : ℕ) (bytes : List UInt8)
  | recvRet (c : Ctx) (ref : Option ℕ) (nbytes : ℕ) (data : List UInt8) (ret : ℤ)
  deriving DecidableEq

/-- The engine, its channels and lock table, and the points of its contexts. -/
structure World where
  engine : Engine LockedState
  point : Ctx → Point
  channels : List (ℤ × MapNode)
  locksTable : List (ℤ × List Ctx)
  refs : ℕ
  exited : Bool

/-- What the running coroutine may do; `resume` goes on with a call that has been suspended. -/
inductive Action
  | run
  | yield
  | sched (routine : Ctx)
  | create (fresh : FreshBuffer)
  | createAt (d : ℤ) (fresh : FreshBuffer)
  | close (d : ℤ)
  | send (d : ℤ) (data : List UInt8)
  | recv (d : ℤ) (nbytes : ℕ)
  | ret
  | resume

abbrev find {V : Type} (d : ℤ) (m : List (ℤ × V)) : Option (ℤ × V) := SortedMap.find (· < ·) d m

namespace World

def at_ (w : World) (c : Ctx) (p : Point) : World :=
  { w with point := Function.update w.point c p }

def setChannel (w : World) (d : ℤ) (node : MapNode) : World :=
  { w with channels := SortedMap.insert (· < ·) d node w.channels }

def schedule (w : World) (routine : Option Ctx) : Except Fault World := do
  match ← sched w.engine routine with
  | .returned => .ok w
  | .switched e => .ok { w with engine := e }
  | .deadLock => .ok { w with exited := true }

def lock (w : World) (d : ℤ) (ctx : Ctx) (reason : LockedState) : Except Fault World := do
  let table := match find d w.locksTable with
    | none => SortedMap.insert (· < ·) d [] w.locksTable
    | some _ => w.locksTable
  let e ← w.engine.modify ctx fun x ↦ { x with locked := reason }
  let contexts := ((find d table).map Prod.snd).getD []
  .ok { w with engine := e, locksTable := SortedMap.insert (· < ·) d (contexts ++ [ctx]) table }

def unlockEach (e : Engine LockedState) (reason : LockedState) :
    List Ctx → Except Fault (Engine LockedState)
  | [] => .ok e
  | c :: cs => do
      let x ← e.get c
      if x.locked = reason then unlockEach (e.put c { x with locked := .notLocked }) reason cs
      else unlockEach e reason cs

def unlockAll (w : World) (d : ℤ) (reason : LockedState) : Except Fault World :=
  match find d w.locksTable with
  | none => .ok w
  | some (_, contexts) => do
      let e ← unlockEach w.engine reason contexts
      .ok { w with engine := e }

def channelAt (w : World) (d : ℤ) (ref : ℕ) : Except Fault Channel :=
  match find d w.channels with
  | some (_, node) => if node.ref = ref then .ok node.channel else .error .erasedChannel
  | none => .error .erasedChannel

def write (channel : Channel) (src : List UInt8) : Except Fault (ℕ × Channel) :=
  match channel.write src with
  | some result => .ok result
  | none => .error .outOfBounds

def read (channel : Channel) (nbytes : ℕ) : Except Fault (ℕ × List UInt8 × Channel) :=
  match channel.read nbytes with
  | some result => .ok result
  | none => .error .outOfBounds

/-- The loop of `send_channel` from its condition to the next transfer of control or the return. -/
def sendLoop (w : World) (c : Ctx) (d : ℤ) (ref : ℕ) (data : List UInt8) (written : ℕ) :
    Except Fault (List Event × World) := do
  if written = data.length then
    .ok ([.sendRet c (some ref) data written], w.at_ c .body)
  else
    let channel ← w.channelAt d ref
    let (nwrite, channel) ← write channel (data.drop written)
    let bytes := (data.drop written).take nwrite
    let written := written + nwrite
    let w ← (w.setChannel d { ref, channel }).unlockAll d .lockedRead
    if written ≠ data.length then
      let w ← w.lock d c .lockedWrite
      let w ← (w.at_ c (.send d ref data written)).schedule none
      .ok ([.taken c ref bytes], w)
    else
      .ok ([.taken c ref bytes, .sendRet c (some ref) data written], w.at_ c .body)

/-- The loop of `recv_channel` from its condition to the next transfer of control or the return;
`data` is what has been copied so far, so its length is `n_bytes_read`. -/
def recvLoop (w : World) (c : Ctx) (d : ℤ) (ref : ℕ) (nbytes : ℕ) (data : List UInt8) :
    Except Fault (List Event × World) := do
  if data.length = nbytes then
    .ok ([.recvRet c (some ref) nbytes data data.length], w.at_ c .body)
  else
    let channel ← w.channelAt d ref
    let (nread, bytes, channel) ← read channel (usub nbytes data.length)
    let bytes := bytes.take nread
    let data := data ++ bytes
    let w ← (w.setChannel d { ref, channel }).unlockAll d .lockedWrite
    if data.length ≠ nbytes then
      let w ← w.lock d c .lockedRead
      let w ← (w.at_ c (.recv d ref nbytes data)).schedule none
      .ok ([.copied c ref bytes], w)
    else
      .ok ([.copied c ref bytes, .recvRet c (some ref) nbytes data data.length], w.at_ c .body)

/-- The loop of `create_channel()` that looks for the smallest free descriptor. -/
def smallestFree (chd : ℤ) : List (ℤ × MapNode) → ℤ
  | [] => chd
  | it :: its => if it.1 ≠ chd then chd else smallestFree (chd + 1) its

/-- The node that `channels[d]` leads to. -/
def refAt (w : World) (d : ℤ) : ℕ :=
  match find d w.channels with
  | some (_, node) => node.ref
  | none => w.refs

/-- `channels[d] = Channel()`: an assignment to the node under `d`, which is made if there is
none. -/
def newChannel (w : World) (d : ℤ) (fresh : FreshBuffer) : World :=
  match find d w.channels with
  | some (_, node) => w.setChannel d { node with channel := Channel.new fresh.val }
  | none => { w.setChannel d { ref := w.refs, channel := Channel.new fresh.val } with
      refs := w.refs + 1 }

theorem newChannel_engine (w : World) (d : ℤ) (fresh : FreshBuffer) :
    (w.newChannel d fresh).engine = w.engine := by
  unfold newChannel
  split <;> rfl

/-- The branch of `start` that `idle_ctx` leads back to; after it `start` returns. -/
def idle (w : World) : Except Fault World := w.schedule none

/-- The end of a coroutine's body: its context is deleted and its caller or the idle context takes
over. -/
def complete (w : World) (pc : Ctx) : Except Fault World := do
  let (next, e) ← w.engine.complete pc
  let w := { w with engine := e }
  match next with
  | none => w.idle
  | some routine =>
      match ← sched e (some routine) with
      | .returned => w.idle
      | .switched e' => .ok { w with engine := e' }
      | .deadLock => .ok { w with exited := true }

/-- One action of the running coroutine `c`, up to the next transfer of control. -/
def exec (w : World) (c : Ctx) : Action → Except Fault (List Event × World)
  | .run => do
      let (_, e) ← w.engine.run .notLocked
      .ok ([], { w with engine := e })
  | .yield => do .ok ([], ← w.schedule none)
  | .sched routine => do .ok ([], ← w.schedule (some routine))
  | .create fresh =>
      let d := if w.channels = [] then 0 else smallestFree 0 w.channels
      .ok ([.created d (w.refAt d), .createRet c d], w.newChannel d fresh)
  | .createAt d fresh =>
      match find d w.channels with
      | none => .ok ([.created d (w.refAt d), .createRet c d], w.newChannel d fresh)
      | some _ => .ok ([.createRet c d], w)
  | .close d =>
      if ((find d w.locksTable).map Prod.snd).getD [] ≠ [] then .ok ([.closeRet c d (-1)], w)
      else .ok ([.closeRet c d 0],
        { w with channels := SortedMap.erase (· < ·) d w.channels })
  | .send d data =>
      match find d w.channels with
      | none => .ok ([.sendRet c none data (-1)], w)
      | some (_, node) => do
          let (events, w) ← w.sendLoop c d node.ref data 0
          .ok (.sendCall c node.ref data :: events, w)
  | .recv d nbytes =>
      match find d w.channels with
      | none => .ok ([.recvRet c none nbytes [] (-1)], w)
      | some (_, node) => do
          let (events, w) ← w.recvLoop c d node.ref nbytes []
          .ok (.recvCall c node.ref nbytes :: events, w)
  | .ret => do .ok ([], ← w.complete c)
  | .resume =>
      match w.point c with
      | .body => .ok ([], w)
      | .send d ref data written => w.sendLoop c d ref data written
      | .recv d ref nbytes data => w.recvLoop c d ref nbytes data

def initial : World where
  engine := Engine.empty
  point _ := .body
  channels := []
  locksTable := []
  refs := 0
  exited := false

def start : Except Fault World := do
  let (pc, e) ← (Engine.empty : Engine LockedState).run .notLocked
  { initial with engine := e }.schedule (some pc)

/-- Calls that a program makes: handles belong to coroutines that are registered and not yet
completed. -/
def Allowed (w : World) (c : Ctx) : Action → Prop
  | .resume => w.point c ≠ .body
  | .sched routine => w.point c = .body ∧ w.engine.context routine ≠ none
  | _ => w.point c = .body

/-- A step of the running coroutine and the events it causes. -/
inductive Step (w : World) (events : List Event) (w' : World) : Prop
  | exec (c : Ctx) (act : Action) (hrunning : w.engine.curRoutine = some c)
      (hexited : w.exited = false) (hallowed : w.Allowed c act)
      (hexec : w.exec c act = .ok (events, w'))

def NonNegative (history : List Event) : Prop := ∀ d ref, .created d ref ∈ history → 0 ≤ d

/-- The worlds a program reaches, with the events on the way there. -/
def Reaches (w : World) (history : List Event) : Prop :=
  ∃ w₀ labels, start = .ok w₀ ∧ Run Step w₀ labels w ∧ history = labels.flatten

instance (w : World) (c : Ctx) : (act : Action) → Decidable (w.Allowed c act)
  | .resume => inferInstanceAs (Decidable (_ ≠ _))
  | .sched _ => inferInstanceAs (Decidable (_ ∧ _))
  | .run | .yield | .create _ | .createAt _ _ | .close _ | .send _ _ | .recv _ _ | .ret =>
      inferInstanceAs (Decidable (_ = _))

/-- Take the given actions one after the other, each by the coroutine that is running then. -/
def play (w : World) : List Action → Option (List Event × World)
  | [] => some ([], w)
  | act :: acts => do
      let c ← w.engine.curRoutine
      if w.exited = false ∧ w.Allowed c act then
        match w.exec c act with
        | .ok (events, w') => do
            let (later, w'') ← w'.play acts
            some (events ++ later, w'')
        | .error _ => none
      else none

def playFromStart (acts : List Action) : Option (List Event × World) :=
  match start with
  | .ok w => w.play acts
  | .error _ => none

/-- The first of the actions played. -/
theorem play_cons {act : Action} {acts : List Action} {w w' : World} {events : List Event}
    (h : w.play (act :: acts) = some (events, w')) :
    ∃ c now w₁ later, w.engine.curRoutine = some c ∧ w.exited = false ∧ w.Allowed c act ∧
      w.exec c act = .ok (now, w₁) ∧ w₁.play acts = some (later, w') ∧ events = now ++ later := by
  obtain ⟨c, hrunning, h⟩ := Option.bind_eq_some_iff.mp h
  split at h
  · rename_i hguard
    split at h
    · rename_i now w₁ hexec
      obtain ⟨⟨later, w₂⟩, hplay, h⟩ := Option.bind_eq_some_iff.mp h
      obtain ⟨rfl, rfl⟩ := Prod.mk.inj (Option.some.inj h)
      exact ⟨c, now, w₁, later, hrunning, hguard.1, hguard.2, hexec, hplay, rfl⟩
    · cases h
  · cases h

theorem run_of_play {acts : List Action} {w w' : World} {events : List Event}
    (h : w.play acts = some (events, w')) :
    ∃ labels, Run Step w labels w' ∧ events = labels.flatten := by
  induction acts generalizing w events with
  | nil =>
      obtain ⟨rfl, rfl⟩ := Prod.mk.inj (Option.some.inj h)
      exact ⟨[], Run.nil w, rfl⟩
  | cons act acts ih =>
      obtain ⟨c, now, w₁, later, hrunning, hexited, hallowed, hexec, hplay, rfl⟩ := play_cons h
      obtain ⟨labels, hrun, rfl⟩ := ih hplay
      exact ⟨now :: labels, hrun.cons (.exec c act hrunning hexited hallowed hexec), rfl⟩

/-- Playing actions from `start` reaches a world. -/
theorem reaches_of_play {acts : List Action} {w : World} {history : List Event}
    (h : playFromStart acts = some (history, w)) : Reaches w history := by
  unfold playFromStart at h
  split at h
  · rename_i w₀ hstart
    obtain ⟨labels, hrun, rfl⟩ := run_of_play h
    exact ⟨w₀, labels, hstart, hrun, rfl⟩
  · cases h

end World

end CppMtHw.NetEngine
