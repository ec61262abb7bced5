import Mathlib.Data.List.Basic
import CppMtHw.ChatServer.Client
import CppMtHw.Machine.Fifo

/-!
# The stream of bytes to one client

Calls of `write_out` and `flush` on a client in any order, where `write` may accept any
part of what it is given. The queue of the client is a first-in first-out queue of the
bytes that `strncpy` leaves in the tasks, so what is sent is what was written out if and
only if `strncpy` copies every argument as it is.
-/

namespace CppMtHw.ChatServer

open Machine

/-! ## Copies of strings -/

/-- Nothing but zeros follows a zero. -/
def ZeroTailed (buf : List UInt8) : Prop := buf.Pairwise fun a b ↦ a = 0 → b = 0

theorem strncpy_cons (b : UInt8) (bs : List UInt8) :
    strncpy (b :: bs) (b :: bs).length =
      if b = 0 then List.replicate (b :: bs).length 0 else b :: strncpy bs bs.length := by
  unfold strncpy
  by_cases hb : b = 0
  · simp [hb]
  · simp [hb]

theorem strncpy_eq_self_iff (buf : List UInt8) : strncpy buf buf.length = buf ↔ ZeroTailed buf := by
  induction buf with
  | nil => simp [strncpy, ZeroTailed]
  | cons b bs ih =>
      rw [strncpy_cons, ZeroTailed, List.pairwise_cons]
      split
      · rename_i hb
        have htail : List.replicate (b :: bs).length 0 = b :: bs ↔ ∀ a ∈ bs, a = 0 := by
          rw [eq_comm, List.eq_replicate_iff]
          simp [hb]
        rw [htail]
        refine ⟨fun h ↦ ⟨fun a ha _ ↦ h a ha, ?_⟩, fun h a ha ↦ h.1 a ha hb⟩
        exact List.pairwise_of_forall_mem_list fun _ _ b hmem _ ↦ h b hmem
      · rename_i hb
        rw [List.cons_inj_right, ih]
        simp [hb, ZeroTailed]

/-! ## Calls on a client -/

inductive Call
  | writeOut (buf : List UInt8) (chunk : ℕ) (refused : Bool)
  | flush (n : ℕ) (refused : Bool)

namespace Call

def exec : Call → Client × Kernel → Option (Client × Kernel)
  | .writeOut buf chunk refused, (c, k) =>
      let out := c.writeOut k buf chunk refused
      some (out.1, out.2.1)
  | .flush n refused, (c, k) => (c.flush k (some n) refused).map fun out ↦ (out.1, out.2.1)

def Step (s : Client × Kernel) (call : Call) (t : Client × Kernel) : Prop := call.exec s = some t

def argument : Call → Option (List UInt8)
  | .writeOut buf _ _ => some buf
  | .flush _ _ => none

def queued : Call → List (ℕ × UInt8)
  | .writeOut buf chunk _ => (WriteTask.create buf chunk).rest
  | .flush _ _ => []

end Call

def arguments (calls : List Call) : List (List UInt8) := calls.filterMap Call.argument

def Kernel.bytes (k : Kernel) (conn : ℕ) : List UInt8 := (k.sent conn).map Prod.snd

namespace Client

def waiting (c : Client) : List (ℕ × UInt8) := c.output.flatMap WriteTask.rest

/-- The socket of the client is that of the connection. -/
structure Connected (c : Client) (k : Kernel) (conn : ℕ) : Prop where
  socket : c.socket ≠ voidSocket
  file : ∃ interest, k.files c.socket = some ⟨conn, interest⟩
  tasks : ∀ t ∈ c.output, t.Ok

structure Fresh (c : Client) (k : Kernel) (conn : ℕ) : Prop extends c.Connected k conn where
  output : c.output = []
  sent : k.sent conn = []

end Client

/-- An accepted connection gives a fresh client. -/
theorem Client.fresh_of_create {k k₁ k₂ : Kernel} {fd : ℤ} {c : Client} (hfd : fd ≠ voidSocket)
    (haccept : k.accept fd = some k₁) (hcreate : Client.create k₁ fd false false = (.ok c, k₂))
    (hsent : k.sent k.conns = []) : c.Fresh k₂ k.conns := by
  obtain ⟨-, rfl⟩ := Kernel.accept_eq_some haccept
  simp only [Client.create, Kernel.epollCtlAdd, Kernel.setFile, Function.update_self,
    Bool.false_eq_true, if_false, Prod.mk.injEq, Except.ok.injEq] at hcreate
  obtain ⟨rfl, rfl⟩ := hcreate
  exact { socket := hfd, file := ⟨_, Function.update_self _ _ _⟩, tasks := by simp, output := rfl,
          sent := hsent }

variable {c c' : Client} {k k' : Kernel} {conn : ℕ} {call : Call} {calls : List Call}

/-- `epoll_ctl` leaves the connections behind the descriptors. -/
theorem Client.Connected.of_mod (h : c.Connected k conn) {fd : ℤ} {events : Events} {refused : Bool}
    (hmod : k.epollCtlMod fd events refused = some k') : c.Connected k' conn := by
  obtain ⟨conn', interest, hfile, -, rfl⟩ := Kernel.epollCtlMod_eq_some hmod
  refine { socket := h.socket, file := ?_, tasks := h.tasks }
  by_cases hfd : c.socket = fd
  · obtain ⟨old, hold⟩ := h.file
    rw [hfd, hfile, Option.some.injEq, OpenFile.mk.injEq] at hold
    rw [hfd, Kernel.files_setFile_self, hold.1]
    exact ⟨_, rfl⟩
  · rw [Kernel.files_setFile_of_ne hfd]
    exact h.file

theorem WriteTask.length_rest (t : WriteTask) : t.rest.length = t.buf.length - t.written := by
  simp [WriteTask.rest]

/-- Writing `n` more bytes of the first task takes them from the front of what is left. -/
theorem Client.flatMap_rest_afterWrite {t : WriteTask} {ts : List WriteTask} {n : ℕ} (h : t.Ok)
    (hn : n ≤ t.rest.length) :
    (Client.afterWrite t ts n).flatMap WriteTask.rest =
      (t.rest ++ ts.flatMap WriteTask.rest).drop n := by
  rw [List.drop_append_of_le_length hn]
  have hrest : t.rest.drop n = WriteTask.rest { t with written := t.written + n } := by
    simp only [WriteTask.rest, ← List.map_drop, List.drop_drop]
  unfold Client.afterWrite
  split
  · rename_i hdone
    have hnil : t.rest.drop n = [] := by
      apply List.drop_of_length_le
      rw [t.length_rest, h.size]
      omega
    rw [hnil, List.nil_append]
  · rw [List.flatMap_cons, hrest]

theorem Client.ok_afterWrite {t : WriteTask} {ts : List WriteTask} {n : ℕ}
    (h : ∀ t' ∈ t :: ts, t'.Ok) (hn : n ≤ t.rest.length) :
    ∀ t' ∈ Client.afterWrite t ts n, t'.Ok := by
  have ht := h t List.mem_cons_self
  have hts : ∀ t' ∈ ts, t'.Ok := fun t' hmem ↦ h t' (List.mem_cons_of_mem t hmem)
  unfold Client.afterWrite
  split
  · exact hts
  · intro t' hmem
    rcases List.mem_cons.mp hmem with rfl | hmem
    · have hlength := t.length_rest
      have hsize := ht.size
      have hwritten := ht.written
      exact ⟨ht.size, show t.written + n ≤ t.size by omega⟩
    · exact hts t' hmem

section Calls

variable {refused : Bool} {ex : Option ChatException}

/-- A call of `write_out` puts the bytes of its task in the queue. -/
theorem Client.Connected.writeOut {buf : List UInt8} {chunk : ℕ} (h : c.Connected k conn)
    (hcall : c.writeOut k buf chunk refused = (c', k', ex)) :
    c'.Connected k' conn ∧ c'.waiting = c.waiting ++ (WriteTask.create buf chunk).rest ∧
      k'.sent = k.sent := by
  obtain ⟨rfl, hkernel⟩ := Client.writeOut_cases h.socket hcall
  have hwaiting : Client.waiting { c with output := c.output ++ [WriteTask.create buf chunk] } =
      c.waiting ++ (WriteTask.create buf chunk).rest := by
    simp [Client.waiting]
  have htasks : ∀ t ∈ c.output ++ [WriteTask.create buf chunk], t.Ok := by
    intro t hmem
    rcases List.mem_append.mp hmem with hmem | hmem
    · exact h.tasks t hmem
    · rw [List.mem_singleton.mp hmem]
      exact WriteTask.ok_create buf chunk
  rcases hkernel with ⟨-, rfl, -⟩ | ⟨hmod, -⟩
  · exact ⟨{ h with tasks := htasks }, hwaiting, rfl⟩
  · have hmodified := h.of_mod hmod
    obtain ⟨_, _, -, -, rfl⟩ := Kernel.epollCtlMod_eq_some hmod
    exact ⟨{ hmodified with tasks := htasks }, hwaiting, rfl⟩

theorem Client.Connected.disableOut (h : c.Connected k conn)
    (hcall : c.disableOut k refused = (c', k', ex)) :
    c' = c ∧ c.Connected k' conn ∧ k'.sent = k.sent := by
  obtain ⟨rfl, ⟨-, rfl, -⟩ | ⟨-, -, rfl, -⟩ | ⟨-, hmod, -⟩⟩ := Client.disableOut_cases hcall
  · exact ⟨rfl, h, rfl⟩
  · exact ⟨rfl, h, rfl⟩
  · have hmodified := h.of_mod hmod
    obtain ⟨_, _, -, -, rfl⟩ := Kernel.epollCtlMod_eq_some hmod
    exact ⟨rfl, hmodified, rfl⟩

/-- A call of `flush` for which `write` accepts `n` bytes sends the first `n` bytes left to
write. -/
theorem Client.Connected.flush {n : ℕ} (h : c.Connected k conn)
    (hcall : c.flush k (some n) refused = some (c', k', ex)) :
    c'.Connected k' conn ∧ c'.waiting = c.waiting.drop n ∧
      k'.sent conn = k.sent conn ++ c.waiting.take n := by
  obtain ⟨t, ts, houtput, ⟨hnone, -⟩ | ⟨m, k₁, hm, hwrite, hend⟩⟩ :=
    Client.flush_cases h.socket hcall
  · cases hnone
  · cases hm
    obtain ⟨file, hfile, hn, rfl⟩ := Kernel.write_eq_some hwrite
    have htasks : ∀ t' ∈ t :: ts, t'.Ok := houtput ▸ h.tasks
    have hconn : file.conn = conn := by
      obtain ⟨interest, hopen⟩ := h.file
      rw [hfile, Option.some.injEq] at hopen
      rw [hopen]
    have hwritten : Client.Connected { c with output := Client.afterWrite t ts n }
        { k with sent := Function.update k.sent file.conn (k.sent file.conn ++ t.rest.take n) }
          conn :=
      { socket := h.socket, file := h.file, tasks := Client.ok_afterWrite htasks hn }
    obtain ⟨rfl, hconnected, hsent⟩ := hwritten.disableOut hend
    have hwaiting : c.waiting = t.rest ++ ts.flatMap WriteTask.rest := by
      simp only [Client.waiting, houtput, List.flatMap_cons]
    refine ⟨hconnected, ?_, ?_⟩
    · rw [hwaiting]
      exact Client.flatMap_rest_afterWrite (htasks t List.mem_cons_self) hn
    · rw [hsent, hwaiting, List.take_append_of_le_length hn]
      subst hconn
      exact Function.update_self _ _ _

end Calls

/-- Every call is a call of the queue of the bytes left to write: `write_out` puts the bytes of its
task in, and what `flush` takes out is sent. -/
theorem Call.Step.fifo (h : c.Connected k conn) (hstep : call.Step (c, k) (c', k')) :
    c'.Connected k' conn ∧ ∃ fcall, Fifo.Step 0 c.waiting fcall c'.waiting ∧
      fcall.accepted = call.queued ∧ k'.sent conn = k.sent conn ++ fcall.received := by
  cases call with
  | writeOut buf chunk refused =>
      simp only [Call.Step, Call.exec, Option.some.injEq, Prod.mk.injEq] at hstep
      obtain ⟨rfl, rfl⟩ := hstep
      have hcall : c.writeOut k buf chunk refused = ((c.writeOut k buf chunk refused).1,
          (c.writeOut k buf chunk refused).2.1, (c.writeOut k buf chunk refused).2.2) := rfl
      obtain ⟨hconnected, hwaiting, hsent⟩ := h.writeOut hcall
      refine ⟨hconnected, .write (WriteTask.create buf chunk).rest
        (WriteTask.create buf chunk).rest.length, ?_, List.take_length, ?_⟩
      · have hall : Fifo.Step 0 c.waiting _
            (c.waiting ++ (WriteTask.create buf chunk).rest.take
              (WriteTask.create buf chunk).rest.length) :=
          Fifo.Step.write _ _ _ (Nat.le_refl _) fun _ ↦ Nat.zero_le _
        rwa [List.take_length, ← hwaiting] at hall
      · rw [hsent]
        exact (List.append_nil _).symm
  | flush n refused =>
      simp only [Call.Step, Call.exec, Option.map_eq_some_iff, Prod.mk.injEq] at hstep
      obtain ⟨⟨c₁, k₁, ex⟩, hflush, rfl, rfl⟩ := hstep
      obtain ⟨hconnected, hwaiting, hsent⟩ := h.flush hflush
      refine ⟨hconnected, .read n (c.waiting.take n), ?_, rfl, hsent⟩
      rw [hwaiting]
      exact Fifo.Step.read _ _

/-! ## Runs -/

/-- Along every run, what has been sent followed by what is left to write is what the calls have
put in the queue. -/
theorem sent_append_waiting (h : c.Fresh k conn) (hrun : Run Call.Step (c, k) calls (c', k')) :
    c'.Connected k' conn ∧ k'.sent conn ++ c'.waiting = calls.flatMap Call.queued := by
  refine hrun.history (P := fun calls s ↦ s.1.Connected s.2 conn ∧
    s.2.sent conn ++ s.1.waiting = calls.flatMap Call.queued) ⟨h.toConnected, ?_⟩ ?_
  · simp [h.sent, Client.waiting, h.output]
  · intro history s call t hprevious hstep
    obtain ⟨hconnected, heq⟩ := hprevious
    obtain ⟨hconnected', fcall, hfifo, haccepted, hsent⟩ := hstep.fifo hconnected
    refine ⟨hconnected', ?_⟩
    calc t.2.sent conn ++ t.1.waiting
        = s.2.sent conn ++ (fcall.received ++ t.1.waiting) := by rw [hsent, List.append_assoc]
      _ = s.2.sent conn ++ (s.1.waiting ++ call.queued) := by rw [hfifo.conserve, haccepted]
      _ = history.flatMap Call.queued ++ call.queued := by rw [← List.append_assoc, heq]
      _ = (history ++ [call]).flatMap Call.queued := by simp

theorem WriteTask.map_snd_rest_create (buf : List UInt8) (chunk : ℕ) :
    (WriteTask.create buf chunk).rest.map Prod.snd = strncpy buf buf.length := by
  simp [WriteTask.rest, WriteTask.create, Function.comp_def]

/-- The bytes that the calls put in the queue are the copies of the arguments. -/
theorem map_snd_queued (calls : List Call) : (calls.flatMap Call.queued).map Prod.snd =
    (arguments calls).flatMap fun buf ↦ strncpy buf buf.length := by
  induction calls with
  | nil => rfl
  | cons call calls ih =>
      rw [List.flatMap_cons, List.map_append, ih]
      cases call with
      | writeOut buf chunk refused =>
          rw [Call.queued, WriteTask.map_snd_rest_create]
          rfl
      | flush n refused => rfl

/-- The bytes sent and left to write are the copies of the arguments. -/
theorem bytes_append_waiting (h : c.Fresh k conn) (hrun : Run Call.Step (c, k) calls (c', k')) :
    k'.bytes conn ++ c'.waiting.map Prod.snd =
      (arguments calls).flatMap fun buf ↦ strncpy buf buf.length := by
  rw [Kernel.bytes, ← List.map_append, (sent_append_waiting h hrun).2, map_snd_queued]

/-- Every list of arguments can be written out. -/
theorem exists_written (c : Client) (k : Kernel) (bufs : List (List UInt8)) :
    ∃ calls c' k', Run Call.Step (c, k) calls (c', k') ∧ arguments calls = bufs := by
  induction bufs using List.reverseRecOn with
  | nil => exact ⟨[], c, k, Run.nil _, rfl⟩
  | append_singleton bufs buf ih =>
      obtain ⟨calls, c', k', hrun, hargs⟩ := ih
      have hstep : Call.Step (c', k') (.writeOut buf 0 false)
          ((c'.writeOut k' buf 0 false).1, (c'.writeOut k' buf 0 false).2.1) := rfl
      refine ⟨calls ++ [.writeOut buf 0 false], _, _, hrun.snoc hstep, ?_⟩
      rw [arguments, List.filterMap_append, ← arguments, hargs]
      rfl

/-- `write` may accept all that is left of the first task. -/
theorem Client.Connected.exists_flush {t : WriteTask} {ts : List WriteTask} (h : c.Connected k conn)
    (houtput : c.output = t :: ts) :
    ∃ c' k', Call.Step (c, k) (.flush t.rest.length false) (c', k') ∧ c'.output = ts := by
  obtain ⟨interest, hfile⟩ := h.file
  have hdone : Client.afterWrite t ts t.rest.length = ts := by
    have ht : t.Ok := h.tasks t (houtput ▸ List.mem_cons_self)
    have hlength := t.length_rest
    have hsize := ht.size
    have hwritten := ht.written
    exact if_pos (by omega)
  have hwrite : ∃ k₁, k.write c.socket t.rest t.rest.length = some k₁ := by
    unfold Kernel.write
    rw [hfile]
    exact ⟨_, if_pos (Nat.le_refl _)⟩
  obtain ⟨k₁, hwrite⟩ := hwrite
  have hflush : c.flush k (some t.rest.length) false =
      some (Client.disableOut { c with output := ts } k₁ false) := by
    unfold Client.flush
    rw [if_neg h.socket, houtput]
    simp only [hwrite, hdone, Option.bind_eq_bind, Option.bind_some]
  rcases hend : Client.disableOut { c with output := ts } k₁ false with ⟨c', k', ex⟩
  have hclient := (Client.disableOut_cases hend).1
  refine ⟨c', k', ?_, congrArg Client.output hclient⟩
  simp only [Call.Step, Call.exec, hflush, hend, Option.map_some]

/-- Every queue can be emptied. -/
theorem exists_drained (ts : List WriteTask) (h : c.Connected k conn) (houtput : c.output = ts) :
    ∃ calls c' k', Run Call.Step (c, k) calls (c', k') ∧ arguments calls = [] ∧ c'.output = [] := by
  induction ts generalizing c k with
  | nil => exact ⟨[], c, k, Run.nil _, rfl, houtput⟩
  | cons t ts ih =>
      obtain ⟨c₁, k₁, hstep, houtput₁⟩ := h.exists_flush houtput
      obtain ⟨calls, c', k', hrun, hargs, hempty⟩ := ih (hstep.fifo h).1 houtput₁
      refine ⟨.flush t.rest.length false :: calls, c', k', Run.cons hstep hrun, ?_, hempty⟩
      rw [arguments, List.filterMap_cons_none rfl]
      exact hargs

/-- Copies that together give the arguments are the arguments. -/
theorem forall_zeroTailed_of_flatMap_eq {bufs : List (List UInt8)}
    (h : (bufs.flatMap fun buf ↦ strncpy buf buf.length) = bufs.flatten) :
    ∀ buf ∈ bufs, ZeroTailed buf := by
  rw [List.flatMap_def] at h
  have hmap : (bufs.map fun buf ↦ strncpy buf buf.length) = bufs.map id := by
    rw [List.map_id]
    apply List.eq_iff_flatten_eq.mpr
    refine ⟨h, ?_⟩
    rw [List.map_map]
    exact List.map_congr_left fun buf _ ↦ length_strncpy buf buf.length
  intro buf hmem
  rw [← strncpy_eq_self_iff]
  exact List.map_inj_left.mp hmap buf hmem

/-- Whatever the order of the calls and however much `write` accepts, the bytes written to the
socket are a leading part of the arguments of `write_out`, and all of them when the queue is empty:
this holds if and only if no argument has a byte other than zero after a zero. -/
theorem byte_transparent_iff (h : c.Fresh k conn) (bufs : List (List UInt8)) :
    (∀ calls c' k', Run Call.Step (c, k) calls (c', k') → arguments calls = bufs →
      k'.bytes conn <+: bufs.flatten ∧ (c'.output = [] → k'.bytes conn = bufs.flatten)) ↔
    ∀ buf ∈ bufs, ZeroTailed buf := by
  constructor
  · intro hall
    obtain ⟨writes, c₁, k₁, hwrites, hargs⟩ := exists_written c k bufs
    have hconnected := (sent_append_waiting h hwrites).1
    obtain ⟨flushes, c', k', hflushes, hnone, hempty⟩ := exists_drained c₁.output hconnected rfl
    have hrun := hwrites.append hflushes
    have hargs' : arguments (writes ++ flushes) = bufs := by
      rw [arguments, List.filterMap_append, ← arguments, ← arguments, hargs, hnone, List.append_nil]
    have hbytes := bytes_append_waiting h hrun
    rw [hargs', Client.waiting, hempty, (hall _ c' k' hrun hargs').2 hempty] at hbytes
    apply forall_zeroTailed_of_flatMap_eq
    simpa using hbytes.symm
  · intro htailed calls c' k' hrun hargs
    have hmap : (bufs.map fun buf ↦ strncpy buf buf.length) = bufs.map id :=
      List.map_inj_left.mpr fun buf hmem ↦ (strncpy_eq_self_iff buf).mpr (htailed buf hmem)
    have hcopies : (bufs.flatMap fun buf ↦ strncpy buf buf.length) = bufs.flatten := by
      rw [List.flatMap_def, hmap, List.map_id]
    have hbytes := bytes_append_waiting h hrun
    rw [hargs, hcopies] at hbytes
    refine ⟨⟨_, hbytes⟩, fun hempty ↦ ?_⟩
    rwa [Client.waiting, hempty, List.flatMap_nil, List.map_nil, List.append_nil] at hbytes

def firstConnection : Kernel :=
  (Client.create { Kernel.boot.setFile 5 (some ⟨0, none⟩) with conns := 1 } 5 false false).2

theorem fresh_firstConnection : Client.Fresh ⟨5, []⟩ firstConnection 0 := by
  have haccept : Kernel.boot.accept 5 =
      some { Kernel.boot.setFile 5 (some ⟨0, none⟩) with conns := 1 } := rfl
  exact Client.fresh_of_create (by decide) haccept rfl rfl

theorem byte_transparent_text :
    (∀ calls c' k', Run Call.Step (⟨5, []⟩, firstConnection) calls (c', k') →
      arguments calls = [[104, 105], [10, 0]] →
      k'.bytes 0 <+: [104, 105, 10, 0] ∧ (c'.output = [] → k'.bytes 0 = [104, 105, 10, 0])) ↔
    ∀ buf ∈ [[104, 105], [10, 0]], ZeroTailed buf :=
  byte_transparent_iff fresh_firstConnection [[104, 105], [10, 0]]

/-- The byte behind a zero arrives as a zero. -/
theorem byte_after_zero_lost :
    ∃ calls c k, Run Call.Step (⟨5, []⟩, firstConnection) calls (c, k) ∧
      arguments calls = [[97, 0, 98]] ∧ c.output = [] ∧ k.bytes 0 = [97, 0, 0] ∧
      ¬k.bytes 0 <+: [[97, 0, 98]].flatten := by
  let queued : Client × Kernel := (⟨5, [⟨[97, 0, 0], 3, 0, 0⟩]⟩,
    firstConnection.setFile 5 (some ⟨0, some .writing⟩))
  let drained : Client × Kernel := (⟨5, []⟩,
    { queued.2.setFile 5 (some ⟨0, some .reading⟩) with
      sent := Function.update (fun _ ↦ []) 0 [(0, 97), (0, 0), (0, 0)] })
  have hwrite : Call.Step (⟨5, []⟩, firstConnection) (.writeOut [97, 0, 98] 0 false) queued := rfl
  have hflush : Call.Step queued (.flush 3 false) drained := rfl
  exact ⟨_, drained.1, drained.2, (Run.single hwrite).snoc hflush, rfl, rfl, rfl, by decide⟩

end CppMtHw.ChatServer
