import Mathlib.Algebra.Order.Group.Int
import CppMtHw.ChatServer.Client
import CppMtHw.Machine.SortedMap
import CppMtHw.Machine.Transition

/-!
# The event loop of the chat server

`main` of `hw04/chat-server.cpp` from the first `epoll_wait` on. A step takes the answer
of the kernel that the loop is waiting for: a batch of events, or what the calls made for
the first event of the batch return. The event being handled stays at the front of the
batch while its branch loops; an exception ends its branch.

The chunks read so far and, for every connection, how many there were when it was
accepted are recorded beside the state of the program.
-/

namespace CppMtHw.ChatServer

open Machine

def maxEvents : ℕ := 64

def maxMsgChunk : ℕ := 512

structure Event where
  fd : ℤ
  events : Events
  deriving DecidableEq

/-- What `read` does; the other errors come with an `errno` other than `EAGAIN`. -/
inductive ReadResult
  | data (buf : List UInt8)
  | again
  | eof
  | error

/-- What the kernel answers: `epoll_wait`, no call that matters, `write` and `epoll_ctl` in `flush`,
`accept` with `fcntl` and `epoll_ctl` in `create`, and `read` with `epoll_ctl` for every client. -/
inductive Answer
  | wait (events : List Event)
  | none
  | write (nWritten : Option ℕ) (refused : Bool)
  | accept (infd : Option ℤ) (fcntlRefused ctlRefused : Bool)
  | read (result : ReadResult) (refused : ℤ → Bool)

inductive Branch
  | error
  | flush
  | accept
  | read
  deriving DecidableEq

structure Server where
  masterSocket : ℤ
  clients : List (ℤ × Client)
  kernel : Kernel
  pending : List Event
  chunks : List (List UInt8)
  since : ℕ → ℕ

/-- `epoll` reports an event for a descriptor that is registered, and `EPOLLOUT` only if asked
to. -/
def Kernel.Reports (k : Kernel) (e : Event) : Prop :=
  match k.files e.fd with
  | some ⟨_, some interest⟩ => e.events.epollOut → interest.epollOut
  | _ => False

instance (k : Kernel) (e : Event) : Decidable (k.Reports e) := by
  unfold Kernel.Reports
  split <;> infer_instance

namespace Server

def initial (masterSocket : ℤ) : Server :=
  ⟨masterSocket, [], .boot, [], [], fun _ ↦ 0⟩

variable (s : Server)

def client (fd : ℤ) : Option Client := (SortedMap.find (· < ·) fd s.clients).map Prod.snd

def setClient (fd : ℤ) (c : Client) : Server :=
  { s with clients := SortedMap.insert (· < ·) fd c s.clients }

def next : Server := { s with pending := s.pending.tail }

def erase (fd : ℤ) : Server :=
  match s.client fd with
  | none => s
  | some c =>
      { s with clients := SortedMap.erase (· < ·) fd s.clients, kernel := c.destroy s.kernel }

def caught (ex : ChatException) : Server := { s with kernel := s.kernel.close ex.socketFd }.next

def wait (events : List Event) : Option Server :=
  if events.length ≤ maxEvents ∧ (events.map Event.fd).Nodup ∧
      ∀ e ∈ events, e.fd = s.masterSocket ∨ s.kernel.Reports e
  then some { s with pending := events }
  else none

/-- The branch of `EPOLLOUT`. There is no outcome without a client under the descriptor: the socket
of the one that `clients[fd]` creates is indeterminate. -/
def flush (fd : ℤ) (nWritten : Option ℕ) (refused : Bool) : Option Server := do
  let c ← s.client fd
  let (c', k', ex) ← c.flush s.kernel nWritten refused
  let s' := { s.setClient fd c' with kernel := k' }
  match ex with
  | none => some s'.next
  | some ex => some (s'.caught ex)

/-- A round of the loop over the incoming connections. The client is created before
`clients[infd]` is. -/
def accept (infd : Option ℤ) (fcntlRefused ctlRefused : Bool) : Option Server :=
  match infd with
  | none => some s.next
  | some fd =>
      if fd < 0 ∨ fd = s.masterSocket then none
      else do
        let k ← s.kernel.accept fd
        let s' := { s with since := Function.update s.since s.kernel.conns s.chunks.length }
        match Client.create k fd fcntlRefused ctlRefused with
        | (.error ex, k') => some ({ s' with kernel := k' }.caught ex)
        | (.ok c, k') =>
            some { s'.setClient fd (((s.client fd).getD .blank).assign c) with kernel := k' }

/-- The loop over the clients in the branch of a new message, up to the first exception. -/
def broadcast (buf : List UInt8) (chunk : ℕ) (refused : ℤ → Bool) :
    List (ℤ × Client) → Kernel → List (ℤ × Client) × Kernel × Option ChatException
  | [], k => ([], k, none)
  | (fd, c) :: rest, k =>
      match c.writeOut k buf chunk (refused fd) with
      | (c', k', some ex) => ((fd, c') :: rest, k', some ex)
      | (c', k', none) =>
          let (rest', k'', ex) := broadcast buf chunk refused rest k'
          ((fd, c') :: rest', k'', ex)

/-- A round of the loop over the chunks of a message. -/
def read (fd : ℤ) (result : ReadResult) (refused : ℤ → Bool) : Option Server :=
  match result with
  | .data buf =>
      if s.kernel.IsOpen fd ∧ 0 < buf.length ∧ buf.length ≤ maxMsgChunk then
        let (clients, kernel, ex) := broadcast buf s.chunks.length refused s.clients s.kernel
        let s' := { s with clients, kernel, chunks := s.chunks ++ [buf] }
        match ex with
        | none => some s'
        | some ex => some (s'.caught ex)
      else none
  | .again => if s.kernel.IsOpen fd then some s.next else none
  | .eof => if s.kernel.IsOpen fd then some (s.erase fd).next else none
  | .error => some (s.erase fd).next

def branch (e : Event) : Branch :=
  if e.events.epollErr || e.events.epollHup || !(e.events.epollIn || e.events.epollOut) then .error
  else if e.events.epollOut && e.fd ≠ s.masterSocket then .flush
  else if e.fd = s.masterSocket then .accept
  else .read

/-- One step of the loop; there is none if the answer is not one that the loop waits for. -/
def exec (a : Answer) : Option Server :=
  match s.pending with
  | [] =>
      match a with
      | .wait events => s.wait events
      | _ => none
  | e :: _ =>
      match s.branch e, a with
      | .error, .none => some (s.erase e.fd).next
      | .flush, .write nWritten refused => s.flush e.fd nWritten refused
      | .accept, .accept infd fcntlRefused ctlRefused => s.accept infd fcntlRefused ctlRefused
      | .read, .read result refused => s.read e.fd result refused
      | _, _ => none

def Step (s : Server) (a : Answer) (t : Server) : Prop := s.exec a = some t

end Server

end CppMtHw.ChatServer
