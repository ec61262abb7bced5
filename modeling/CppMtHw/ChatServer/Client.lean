import Mathlib.Data.Int.Notation
import Mathlib.Data.Nat.Notation
import Mathlib.Logic.Function.Basic

/-!
# Clients of the chat server

`Client` of `hw04/Client.cpp` over the part of the kernel it uses: the table of open
descriptors, what `epoll` is asked to report for each of them, and the bytes written
to each connection. What a system call answers is an argument of the call. Descriptor
numbers are reused; a connection keeps its identity. Every byte carries the number of
the chunk it comes from, which the program does not see.
-/

namespace CppMtHw.ChatServer

def voidSocket : ℤ := -1

structure Events where
  epollIn : Bool
  epollOut : Bool
  epollErr : Bool
  epollHup : Bool
  epollEt : Bool
  deriving DecidableEq

def Events.reading : Events := ⟨true, false, false, false, false⟩

def Events.edgeTriggered : Events := { Events.reading with epollEt := true }

def Events.writing : Events := { Events.reading with epollOut := true }

/-! ## The kernel -/

/-- The connection behind a descriptor, and what `epoll` reports for it once it is registered. -/
structure OpenFile where
  conn : ℕ
  interest : Option Events
  deriving DecidableEq

structure Kernel where
  files : ℤ → Option OpenFile
  conns : ℕ
  sent : ℕ → List (ℕ × UInt8)

namespace Kernel

def boot : Kernel := ⟨fun _ ↦ none, 0, fun _ ↦ []⟩

def IsOpen (k : Kernel) (fd : ℤ) : Prop := (k.files fd).isSome

instance (k : Kernel) (fd : ℤ) : Decidable (k.IsOpen fd) :=
  inferInstanceAs (Decidable (_ = true))

def setFile (k : Kernel) (fd : ℤ) (file : Option OpenFile) : Kernel :=
  { k with files := Function.update k.files fd file }

/-- `accept`: a new connection under a descriptor that is not in use. -/
def accept (k : Kernel) (fd : ℤ) : Option Kernel :=
  match k.files fd with
  | none => some { k.setFile fd (some ⟨k.conns, none⟩) with conns := k.conns + 1 }
  | some _ => none

/-- `epoll_ctl` with `EPOLL_CTL_ADD`; `none` when it returns -1. -/
def epollCtlAdd (k : Kernel) (fd : ℤ) (events : Events) (refused : Bool) : Option Kernel :=
  match k.files fd with
  | some ⟨conn, none⟩ => if refused then none else some (k.setFile fd (some ⟨conn, some events⟩))
  | _ => none

/-- `epoll_ctl` with `EPOLL_CTL_MOD`; `none` when it returns -1. -/
def epollCtlMod (k : Kernel) (fd : ℤ) (events : Events) (refused : Bool) : Option Kernel :=
  match k.files fd with
  | some ⟨conn, some _⟩ => if refused then none else some (k.setFile fd (some ⟨conn, some events⟩))
  | _ => none

def write (k : Kernel) (fd : ℤ) (bytes : List (ℕ × UInt8)) (n : ℕ) : Option Kernel :=
  match k.files fd with
  | some file =>
      if n ≤ bytes.length then
        some { k with sent := Function.update k.sent file.conn (k.sent file.conn ++ bytes.take n) }
      else none
  | none => none

/-- `close`; a descriptor that is not open stays so. -/
def close (k : Kernel) (fd : ℤ) : Kernel := k.setFile fd none

variable {k k' : Kernel} {fd fd' : ℤ} {file : Option OpenFile} {events : Events} {refused : Bool}

@[simp] theorem sent_setFile : (k.setFile fd file).sent = k.sent := rfl

@[simp] theorem conns_setFile : (k.setFile fd file).conns = k.conns := rfl

theorem files_setFile : (k.setFile fd file).files fd' = if fd' = fd then file else k.files fd' :=
  Function.update_apply _ _ _ _

@[simp] theorem files_setFile_self : (k.setFile fd file).files fd = file :=
  Function.update_self _ _ _

theorem files_setFile_of_ne (h : fd' ≠ fd) : (k.setFile fd file).files fd' = k.files fd' :=
  Function.update_of_ne h _ _

/-- A descriptor that is opened and closed again. -/
theorem close_setFile_of_eq_none (h : k.files fd = none) : (k.setFile fd file).close fd = k := by
  simp only [close, setFile, Function.update_idem]
  rw [← h, Function.update_eq_self]

theorem close_of_eq_none (h : k.files fd = none) : k.close fd = k := by
  simp only [close, setFile]
  rw [← h, Function.update_eq_self]

/-- Closing a descriptor leaves the others open. -/
theorem files_of_files_close {file : OpenFile} (h : (k.close fd).files fd' = some file) :
    k.files fd' = some file := by
  rw [close, files_setFile] at h
  split at h
  · cases h
  · exact h

theorem accept_eq_some (h : k.accept fd = some k') :
    k.files fd = none ∧ k' = { k.setFile fd (some ⟨k.conns, none⟩) with conns := k.conns + 1 } := by
  unfold accept at h
  split at h
  · exact ⟨by assumption, (Option.some.inj h).symm⟩
  · cases h

theorem epollCtlMod_eq_some (h : k.epollCtlMod fd events refused = some k') :
    ∃ conn interest, k.files fd = some ⟨conn, some interest⟩ ∧ refused = false ∧
      k' = k.setFile fd (some ⟨conn, some events⟩) := by
  unfold epollCtlMod at h
  split at h
  · split at h
    · cases h
    · rename_i hfile hrefused
      exact ⟨_, _, hfile, by simpa using hrefused, (Option.some.inj h).symm⟩
  · cases h

theorem write_eq_some {bytes : List (ℕ × UInt8)} {n : ℕ} (h : k.write fd bytes n = some k') :
    ∃ file, k.files fd = some file ∧ n ≤ bytes.length ∧
      k' = { k with
        sent := Function.update k.sent file.conn (k.sent file.conn ++ bytes.take n) } := by
  unfold write at h
  split at h
  · split at h
    · exact ⟨_, by assumption, by assumption, (Option.some.inj h).symm⟩
    · cases h
  · cases h

theorem files_write {bytes : List (ℕ × UInt8)} {n : ℕ} (h : k.write fd bytes n = some k') :
    k'.files = k.files := by
  obtain ⟨file, -, -, rfl⟩ := write_eq_some h
  rfl

end Kernel

/-! ## The members of `Client` -/

/-- `ChatException`; with `useErrno` the text of the last error follows the message. -/
structure ChatException where
  socketFd : ℤ
  message : String
  useErrno : Bool
  deriving DecidableEq

/-- `strncpy`: up to `n` bytes of the source, zeros from its first zero on. -/
def strncpy (src : List UInt8) (n : ℕ) : List UInt8 :=
  let text := (src.take n).takeWhile (· ≠ 0)
  text ++ List.replicate (n - text.length) 0

/-- `Client::WriteTask`, with the number of the chunk. -/
structure WriteTask where
  buf : List UInt8
  size : ℕ
  written : ℕ
  chunk : ℕ
  deriving DecidableEq

namespace WriteTask

def create (buf : List UInt8) (chunk : ℕ) : WriteTask :=
  { buf := strncpy buf buf.length, size := buf.length, written := 0, chunk }

def rest (t : WriteTask) : List (ℕ × UInt8) := (t.buf.drop t.written).map fun b ↦ (t.chunk, b)

/-- The buffer has the size of the task, and no more than that is written. -/
structure Ok (t : WriteTask) : Prop where
  size : t.buf.length = t.size
  written : t.written ≤ t.size

end WriteTask

theorem length_strncpy (src : List UInt8) (n : ℕ) : (strncpy src n).length = n := by
  have htext : ((src.take n).takeWhile (· ≠ 0)).length ≤ n :=
    Nat.le_trans (List.takeWhile_sublist _).length_le (List.length_take_le n src)
  unfold strncpy
  rw [List.length_append, List.length_replicate]
  omega

theorem WriteTask.ok_create (buf : List UInt8) (chunk : ℕ) : (WriteTask.create buf chunk).Ok :=
  ⟨length_strncpy _ _, Nat.zero_le _⟩

structure Client where
  socket : ℤ
  output : List WriteTask
  deriving DecidableEq

namespace Client

/-- A default-constructed client; its socket is indeterminate. -/
def blank : Client := ⟨voidSocket, []⟩

/-- Move assignment takes over the socket and leaves the queue as it is. -/
def assign (c other : Client) : Client := { c with socket := other.socket }

def destroy (c : Client) (k : Kernel) : Kernel :=
  if c.socket = voidSocket then k else k.close c.socket

/-- `Client::create`. On an exception the destructor closes the socket of the new client. -/
def create (k : Kernel) (clientSockFd : ℤ) (fcntlRefused ctlRefused : Bool) :
    Except ChatException Client × Kernel :=
  let newClient : Client := ⟨clientSockFd, []⟩
  let ex : ChatException := ⟨clientSockFd, "in Client::Client: ", true⟩
  if fcntlRefused then (.error ex, newClient.destroy k)
  else
    match k.epollCtlAdd clientSockFd .edgeTriggered ctlRefused with
    | none => (.error ex, newClient.destroy k)
    | some k' => (.ok newClient, k')

/-- `Client::write_out`: the client, the kernel and the exception it leaves. -/
def writeOut (c : Client) (k : Kernel) (buf : List UInt8) (chunk : ℕ) (refused : Bool) :
    Client × Kernel × Option ChatException :=
  if c.socket = voidSocket then
    (c, k, some ⟨c.socket, "in Client::write_out(): the socket was moved", false⟩)
  else
    let c' : Client := { c with output := c.output ++ [WriteTask.create buf chunk] }
    match k.epollCtlMod c.socket .writing refused with
    | none => (c', k, some ⟨c.socket, "epoll_ctl in Client::write_out()", true⟩)
    | some k' => (c', k', none)

/-- In `Client::flush`, the queue after `n` more bytes of its first task are written: a finished
task is popped. -/
def afterWrite (t : WriteTask) (ts : List WriteTask) (n : ℕ) : List WriteTask :=
  if t.written + n = t.size then ts else { t with written := t.written + n } :: ts

/-- The end of `Client::flush`: with nothing left to write, `EPOLLOUT` is disabled. -/
def disableOut (c : Client) (k : Kernel) (refused : Bool) :
    Client × Kernel × Option ChatException :=
  if c.output = [] then
    match k.epollCtlMod c.socket .reading refused with
    | none => (c, k, some ⟨c.socket, "epoll_ctl in Client::flush()", true⟩)
    | some k' => (c, k', none)
  else (c, k, none)

/-- `Client::flush`; `write` returns `nWritten`, or -1. There is no outcome without a first task or
when `write` cannot return so much. -/
def flush (c : Client) (k : Kernel) (nWritten : Option ℕ) (refused : Bool) :
    Option (Client × Kernel × Option ChatException) :=
  if c.socket = voidSocket then
    some (c, k, some ⟨c.socket, "in Client::write_out(): the socket was moved", false⟩)
  else
    match c.output with
    | [] => none
    | t :: ts =>
        match nWritten with
        | none => some (c, k, some ⟨c.socket, "write in Client::flush()", true⟩)
        | some n => do
            let k' ← k.write c.socket t.rest n
            some (Client.disableOut { c with output := afterWrite t ts n } k' refused)

variable {c c' : Client} {k k' : Kernel} {buf : List UInt8} {chunk : ℕ} {refused : Bool}
  {ex : Option ChatException}

/-- What `create` does with a new connection. -/
theorem create_cases {fd : ℤ} {conn : ℕ} {fcntlRefused ctlRefused : Bool}
    {out : Except ChatException Client} (hfd : fd ≠ voidSocket)
    (hfile : k.files fd = some ⟨conn, none⟩)
    (h : Client.create k fd fcntlRefused ctlRefused = (out, k')) :
    fcntlRefused = false ∧ ctlRefused = false ∧ out = .ok ⟨fd, []⟩ ∧
        k' = k.setFile fd (some ⟨conn, some .edgeTriggered⟩) ∨
      (fcntlRefused || ctlRefused) = true ∧ k' = k.close fd ∧
        ∃ exc : ChatException, out = .error exc ∧ exc.socketFd = fd := by
  have hdestroy : (Client.mk fd []).destroy k = k.close fd := if_neg hfd
  cases fcntlRefused with
  | true =>
      simp only [Client.create, if_true, hdestroy, Prod.mk.injEq] at h
      obtain ⟨rfl, rfl⟩ := h
      exact Or.inr ⟨rfl, rfl, _, rfl, rfl⟩
  | false =>
      cases ctlRefused with
      | true =>
          simp only [Client.create, Kernel.epollCtlAdd, hfile, Bool.false_eq_true, if_false,
            if_true, hdestroy, Prod.mk.injEq] at h
          obtain ⟨rfl, rfl⟩ := h
          exact Or.inr ⟨rfl, rfl, _, rfl, rfl⟩
      | false =>
          simp only [Client.create, Kernel.epollCtlAdd, hfile, Bool.false_eq_true, if_false,
            Prod.mk.injEq] at h
          obtain ⟨rfl, rfl⟩ := h
          exact Or.inl ⟨rfl, rfl, rfl, rfl⟩

/-- What a call of `write_out` on a client with a socket does. -/
theorem writeOut_cases (hsocket : c.socket ≠ voidSocket)
    (h : c.writeOut k buf chunk refused = (c', k', ex)) :
    c' = { c with output := c.output ++ [WriteTask.create buf chunk] } ∧
      (k.epollCtlMod c.socket .writing refused = none ∧ k' = k ∧
          (∃ message, ex = some ⟨c.socket, message, true⟩) ∨
        k.epollCtlMod c.socket .writing refused = some k' ∧ ex = none) := by
  unfold writeOut at h
  rw [if_neg hsocket] at h
  cases hmod : k.epollCtlMod c.socket .writing refused with
  | none =>
      simp only [hmod, Prod.mk.injEq] at h
      obtain ⟨rfl, rfl, rfl⟩ := h
      exact ⟨rfl, Or.inl ⟨rfl, rfl, _, rfl⟩⟩
  | some k₁ =>
      simp only [hmod, Prod.mk.injEq] at h
      obtain ⟨rfl, rfl, rfl⟩ := h
      exact ⟨rfl, Or.inr ⟨rfl, rfl⟩⟩

/-- What the end of `flush` does. -/
theorem disableOut_cases (h : c.disableOut k refused = (c', k', ex)) :
    c' = c ∧
      (c.output ≠ [] ∧ k' = k ∧ ex = none ∨
        c.output = [] ∧ k.epollCtlMod c.socket .reading refused = none ∧ k' = k ∧
          (∃ message, ex = some ⟨c.socket, message, true⟩) ∨
        c.output = [] ∧ k.epollCtlMod c.socket .reading refused = some k' ∧ ex = none) := by
  unfold disableOut at h
  split at h
  · rename_i hempty
    cases hmod : k.epollCtlMod c.socket .reading refused with
    | none =>
        simp only [hmod, Prod.mk.injEq] at h
        obtain ⟨rfl, rfl, rfl⟩ := h
        exact ⟨rfl, Or.inr (Or.inl ⟨hempty, rfl, rfl, _, rfl⟩)⟩
    | some k₁ =>
        simp only [hmod, Prod.mk.injEq] at h
        obtain ⟨rfl, rfl, rfl⟩ := h
        exact ⟨rfl, Or.inr (Or.inr ⟨hempty, rfl, rfl⟩)⟩
  · rename_i hmore
    simp only [Prod.mk.injEq] at h
    obtain ⟨rfl, rfl, rfl⟩ := h
    exact ⟨rfl, Or.inl ⟨hmore, rfl, rfl⟩⟩

/-- What a call of `flush` on a client with a socket does. -/
theorem flush_cases {nWritten : Option ℕ} (hsocket : c.socket ≠ voidSocket)
    (h : c.flush k nWritten refused = some (c', k', ex)) :
    ∃ t ts, c.output = t :: ts ∧
      (nWritten = none ∧ c' = c ∧ k' = k ∧ (∃ message, ex = some ⟨c.socket, message, true⟩) ∨
        ∃ n k₁, nWritten = some n ∧ k.write c.socket t.rest n = some k₁ ∧
          Client.disableOut { c with output := afterWrite t ts n } k₁ refused = (c', k', ex)) := by
  unfold flush at h
  rw [if_neg hsocket] at h
  cases houtput : c.output with
  | nil =>
      rw [houtput] at h
      cases h
  | cons t ts =>
      rw [houtput] at h
      refine ⟨t, ts, rfl, ?_⟩
      cases nWritten with
      | none =>
          simp only [Option.some.injEq, Prod.mk.injEq] at h
          obtain ⟨rfl, rfl, rfl⟩ := h
          exact Or.inl ⟨rfl, rfl, rfl, _, rfl⟩
      | some n =>
          cases hwrite : k.write c.socket t.rest n with
          | none =>
              simp [hwrite] at h
          | some k₁ =>
              simp only [hwrite, Option.bind_eq_bind, Option.bind_some, Option.some.injEq] at h
              exact Or.inr ⟨n, k₁, rfl, hwrite, h⟩

end Client

end CppMtHw.ChatServer
