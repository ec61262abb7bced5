import Mathlib.Data.List.TakeWhile
import CppMtHw.ChatServer.Broadcast
import CppMtHw.ChatServer.Stream

/-!
# Which connection the bytes go to

A client is found by its descriptor, and descriptors are reused. A connection that is
accepted while the map still has a client under its number takes over the socket of that
client but not an empty queue. As long as no such client has anything left to write, every
byte that is sent belongs to a chunk that was read after the connection was accepted.
-/

namespace CppMtHw.ChatServer

open Machine

theorem mem_strncpy {src : List UInt8} {b : UInt8} (h : b ∈ strncpy src src.length) : b ∈ src := by
  unfold strncpy at h
  rw [List.take_length] at h
  rcases List.mem_append.mp h with htext | hzeros
  · exact (List.takeWhile_sublist _).subset htext
  · -- zeros are filled in only behind a zero
    obtain ⟨hlength, rfl⟩ := List.mem_replicate.mp hzeros
    by_contra hnone
    apply hlength
    have htext : src.takeWhile (· ≠ 0) = src := by
      rw [List.takeWhile_eq_self_iff]
      intro b hmem
      exact decide_eq_true fun hb ↦ hnone (hb ▸ hmem)
    rw [htext, Nat.sub_self]

theorem mem_rest_create {buf : List UInt8} {chunk : ℕ} {x : ℕ × UInt8}
    (h : x ∈ (WriteTask.create buf chunk).rest) : x.1 = chunk ∧ x.2 ∈ buf := by
  obtain ⟨b, hmem, rfl⟩ := List.mem_map.mp h
  exact ⟨rfl, mem_strncpy hmem⟩

/-- Nothing new is left to write after a `write`. -/
theorem Client.mem_flatMap_afterWrite {task : WriteTask} {tasks : List WriteTask} {n : ℕ}
    {x : ℕ × UInt8} (h : x ∈ (Client.afterWrite task tasks n).flatMap WriteTask.rest) :
    x ∈ (task :: tasks).flatMap WriteTask.rest := by
  rw [List.flatMap_cons, List.mem_append]
  unfold Client.afterWrite at h
  split at h
  · exact Or.inr h
  · rw [List.flatMap_cons, List.mem_append] at h
    refine h.imp_left fun hmem ↦ ?_
    obtain ⟨b, hb, rfl⟩ := List.mem_map.mp hmem
    rw [← List.drop_drop] at hb
    exact List.mem_map.mpr ⟨b, List.mem_of_mem_drop hb, rfl⟩

namespace Server

variable {s t : Server} {fd : ℤ} {conn : ℕ} {x : ℕ × UInt8} {e : Event} {rest : List Event}
  {a : Answer} {masterSocket : ℤ} {answers : List Answer}

def Carried (s : Server) (x : ℕ × UInt8) : Prop :=
  ∃ chunk, s.chunks[x.1]? = some chunk ∧ x.2 ∈ chunk

/-- No connection is set up under a descriptor whose client has something left to write. -/
def Vacant (s : Server) : Answer → Prop
  | .accept (some fd) false false => ∀ c ∈ s.client fd, c.output = []
  | _ => True

instance (s : Server) (a : Answer) : Decidable (s.Vacant a) := by
  unfold Vacant
  split <;> infer_instance

/-- What is left to write for an open connection was read after the connection was accepted, and so
was what has been sent. -/
structure Isolated (s : Server) : Prop where
  carried : ∀ fd c, s.client fd = some c → ∀ x ∈ c.waiting, s.Carried x
  waiting : ∀ fd file c, s.kernel.files fd = some file → s.client fd = some c →
    ∀ x ∈ c.waiting, s.since file.conn ≤ x.1
  sent : ∀ conn, ∀ x ∈ s.kernel.sent conn, s.since conn ≤ x.1 ∧ s.Carried x
  since : ∀ conn, s.since conn ≤ s.chunks.length
  conns : ∀ fd file, s.kernel.files fd = some file → file.conn < s.kernel.conns
  unsent : ∀ conn, s.kernel.conns ≤ conn → s.kernel.sent conn = []

theorem isolated_initial (masterSocket : ℤ) : (initial masterSocket).Isolated where
  carried fd c hc := by cases hc
  waiting fd file c hfile := by cases hfile
  sent conn x hmem := absurd hmem List.not_mem_nil
  since conn := Nat.le_refl 0
  conns fd file hfile := by cases hfile
  unsent conn _ := rfl

theorem carried_congr (h : t.chunks = s.chunks) : t.Carried x ↔ s.Carried x := by
  unfold Carried
  rw [h]

theorem Carried.append (h : s.Carried x) {buf : List UInt8} (ht : t.chunks = s.chunks ++ [buf]) :
    t.Carried x := by
  obtain ⟨chunk, hchunk, hmem⟩ := h
  refine ⟨chunk, ?_, hmem⟩
  rw [ht, List.getElem?_append_left (List.getElem?_eq_some_iff.mp hchunk).1]
  exact hchunk

/-- Clients may lose what they have to write, to their own connection only. -/
theorem Isolated.lose (h : s.Isolated)
    (hclients : ∀ fd c, t.client fd = some c → ∀ x ∈ c.waiting, ∃ c₀, s.client fd = some c₀ ∧
      x ∈ c₀.waiting)
    (hfiles : ∀ fd file, t.kernel.files fd = some file →
      ∃ file₀, s.kernel.files fd = some file₀ ∧ file.conn = file₀.conn)
    (hsent : ∀ conn, ∀ x ∈ t.kernel.sent conn, x ∈ s.kernel.sent conn ∨
      ∃ fd file c, s.kernel.files fd = some file ∧ file.conn = conn ∧
      s.client fd = some c ∧ x ∈ c.waiting)
    (hconns : t.kernel.conns = s.kernel.conns) (hsince : t.since = s.since)
    (hchunks : t.chunks = s.chunks) : t.Isolated := by
  constructor
  · intro fd c hc x hx
    obtain ⟨c₀, hc₀, hx₀⟩ := hclients fd c hc x hx
    exact (carried_congr hchunks).mpr (h.carried fd c₀ hc₀ x hx₀)
  · intro fd file c hfile hc x hx
    obtain ⟨c₀, hc₀, hx₀⟩ := hclients fd c hc x hx
    obtain ⟨file₀, hfile₀, hconn⟩ := hfiles fd file hfile
    rw [hsince, hconn]
    exact h.waiting fd file₀ c₀ hfile₀ hc₀ x hx₀
  · intro conn x hx
    rw [hsince, carried_congr hchunks]
    rcases hsent conn x hx with hold | ⟨fd, file, c, hfile, rfl, hc, hx⟩
    · exact h.sent conn x hold
    · exact ⟨h.waiting fd file c hfile hc x hx, h.carried fd c hc x hx⟩
  · intro conn
    rw [hsince, hchunks]
    exact h.since conn
  · intro fd file hfile
    obtain ⟨file₀, hfile₀, hconn⟩ := hfiles fd file hfile
    rw [hconns, hconn]
    exact h.conns fd file₀ hfile₀
  · intro conn hconn
    rw [hconns] at hconn
    rw [List.eq_nil_iff_forall_not_mem]
    intro x hx
    rcases hsent conn x hx with hold | ⟨fd, file, c, hfile, rfl, -⟩
    · rw [h.unsent conn hconn] at hold
      exact List.not_mem_nil hold
    · exact absurd (h.conns fd file hfile) (not_lt.mpr hconn)

/-- A connection may be set up under a descriptor whose client has nothing left to write. -/
theorem Isolated.accept (h : s.Isolated)
    (hclients : ∀ fd c, t.client fd = some c → ∀ x ∈ c.waiting, s.client fd = some c)
    (hfiles : ∀ fd file, t.kernel.files fd = some file → s.kernel.files fd = some file ∨
      file.conn = s.kernel.conns ∧ ∀ c, t.client fd = some c → c.waiting = [])
    (hsent : t.kernel.sent = s.kernel.sent) (hconns : t.kernel.conns = s.kernel.conns + 1)
    (hsince : t.since = Function.update s.since s.kernel.conns s.chunks.length)
    (hchunks : t.chunks = s.chunks) : t.Isolated := by
  have hold : ∀ conn, conn ≠ s.kernel.conns → t.since conn = s.since conn := by
    intro conn hne
    rw [hsince, Function.update_of_ne hne]
  constructor
  · intro fd c hc x hx
    exact (carried_congr hchunks).mpr (h.carried fd c (hclients fd c hc x hx) x hx)
  · intro fd file c hfile hc x hx
    rcases hfiles fd file hfile with hfile | ⟨-, hempty⟩
    · rw [hold file.conn (ne_of_lt (h.conns fd file hfile))]
      exact h.waiting fd file c hfile (hclients fd c hc x hx) x hx
    · rw [hempty c hc] at hx
      exact absurd hx List.not_mem_nil
  · intro conn x hx
    rw [hsent] at hx
    rw [carried_congr hchunks]
    by_cases hconn : conn = s.kernel.conns
    · rw [h.unsent conn hconn.ge] at hx
      exact absurd hx List.not_mem_nil
    · rw [hold conn hconn]
      exact h.sent conn x hx
  · intro conn
    rw [hsince, hchunks, Function.update_apply]
    split
    · exact le_rfl
    · exact h.since conn
  · intro fd file hfile
    rw [hconns]
    rcases hfiles fd file hfile with hfile | ⟨hconn, -⟩
    · exact Nat.lt_succ_of_lt (h.conns fd file hfile)
    · rw [hconn]
      exact Nat.lt_succ_self _
  · intro conn hconn
    rw [hconns] at hconn
    rw [hsent]
    exact h.unsent conn (Nat.le_of_succ_le hconn)

/-- A chunk that has just been read may be queued. -/
theorem Isolated.queue (h : s.Isolated) {buf : List UInt8}
    (hclients : ∀ fd c, t.client fd = some c → ∃ c₀, s.client fd = some c₀ ∧
      ∀ x ∈ c.waiting, x ∈ c₀.waiting ∨ x.1 = s.chunks.length ∧ x.2 ∈ buf)
    (hfiles : ∀ fd file, t.kernel.files fd = some file →
      ∃ file₀, s.kernel.files fd = some file₀ ∧ file.conn = file₀.conn)
    (hsent : t.kernel.sent = s.kernel.sent) (hconns : t.kernel.conns = s.kernel.conns)
    (hsince : t.since = s.since) (hchunks : t.chunks = s.chunks ++ [buf]) : t.Isolated := by
  have hlength : t.chunks.length = s.chunks.length + 1 := by
    rw [hchunks, List.length_append, List.length_singleton]
  constructor
  · intro fd c hc x hx
    obtain ⟨c₀, hc₀, hwaiting⟩ := hclients fd c hc
    rcases hwaiting x hx with hx₀ | ⟨hchunk, hmem⟩
    · exact (h.carried fd c₀ hc₀ x hx₀).append hchunks
    · refine ⟨buf, ?_, hmem⟩
      rw [hchunks, hchunk, List.getElem?_concat_length]
  · intro fd file c hfile hc x hx
    obtain ⟨c₀, hc₀, hwaiting⟩ := hclients fd c hc
    obtain ⟨file₀, hfile₀, hconn⟩ := hfiles fd file hfile
    rw [hsince, hconn]
    rcases hwaiting x hx with hx₀ | ⟨hchunk, -⟩
    · exact h.waiting fd file₀ c₀ hfile₀ hc₀ x hx₀
    · rw [hchunk]
      exact h.since file₀.conn
  · intro conn x hx
    rw [hsent] at hx
    rw [hsince]
    exact ⟨(h.sent conn x hx).1, (h.sent conn x hx).2.append hchunks⟩
  · intro conn
    rw [hsince, hlength]
    exact Nat.le_succ_of_le (h.since conn)
  · intro fd file hfile
    obtain ⟨file₀, hfile₀, hconn⟩ := hfiles fd file hfile
    rw [hconns, hconn]
    exact h.conns fd file₀ hfile₀
  · intro conn hconn
    rw [hsent]
    exact h.unsent conn (hconns ▸ hconn)

/-! ## The steps -/

theorem Isolated.close (h : s.Isolated) (hclients : ∀ fd c, t.client fd = some c →
      s.client fd = some c)
    (hfiles : ∀ fd file, t.kernel.files fd = some file → s.kernel.files fd = some file)
    (hsent : t.kernel.sent = s.kernel.sent) (hconns : t.kernel.conns = s.kernel.conns)
    (hsince : t.since = s.since) (hchunks : t.chunks = s.chunks) : t.Isolated :=
  h.lose (fun fd c hc _ hx ↦ ⟨c, hclients fd c hc, hx⟩)
    (fun fd file hfile ↦ ⟨file, hfiles fd file hfile, rfl⟩)
    (fun _ _ hx ↦ Or.inl (hsent ▸ hx)) hconns hsince hchunks

theorem Isolated.caught (h : s.Isolated) (ex : ChatException) : (s.caught ex).Isolated := by
  refine h.close (fun _ _ hc ↦ hc) (fun fd file hfile ↦ ?_) rfl rfl rfl rfl
  exact Kernel.files_of_files_close hfile

theorem Isolated.next (h : s.Isolated) : s.next.Isolated :=
  h.close (fun _ _ hc ↦ hc) (fun _ _ hfile ↦ hfile) rfl rfl rfl rfl

theorem Isolated.erase (h : s.Isolated) (htables : s.Tables) : (s.erase fd).Isolated := by
  have hrest : (s.erase fd).kernel.sent = s.kernel.sent ∧
      (s.erase fd).kernel.conns = s.kernel.conns ∧
      (s.erase fd).since = s.since ∧ (s.erase fd).chunks = s.chunks := by
    unfold Server.erase Client.destroy
    split
    · exact ⟨rfl, rfl, rfl, rfl⟩
    · dsimp only
      split <;> exact ⟨rfl, rfl, rfl, rfl⟩
  refine h.close ?_ ?_ hrest.1 hrest.2.1 hrest.2.2.1 hrest.2.2.2
  · intro fd' c hc
    rw [client_erase htables.sorted] at hc
    split at hc
    · cases hc
    · exact hc
  · intro fd' file hfile
    rw [htables.files_erase] at hfile
    split at hfile
    · cases hfile
    · exact hfile

/-- What `write` does: bytes of the task may be sent to the connection behind the descriptor. -/
theorem sent_of_write {k k₁ : Kernel} {task : WriteTask} {n : ℕ}
    (hwrite : k.write fd task.rest n = some k₁) (hx : x ∈ k₁.sent conn) :
    x ∈ k.sent conn ∨ ∃ file, k.files fd = some file ∧ file.conn = conn ∧ x ∈ task.rest := by
  obtain ⟨file, hfile, -, rfl⟩ := Kernel.write_eq_some hwrite
  simp only [Function.update_apply] at hx
  split at hx
  · rename_i heq
    subst heq
    rcases List.mem_append.mp hx with hx | hx
    · exact Or.inl hx
    · exact Or.inr ⟨file, hfile, rfl, List.mem_of_mem_take hx⟩
  · exact Or.inl hx

/-- What `flush` does to the kernel: connections stay where they are or are closed, and bytes of the
first task may be sent to the connection of the client. -/
theorem Flushed.kernel {k k' : Kernel} {task : WriteTask} {tasks output : List WriteTask}
    (h : Flushed k fd task tasks output k') :
    (∀ fd' file, k'.files fd' = some file → ∃ file₀, k.files fd' = some file₀ ∧
      file.conn = file₀.conn) ∧
    k'.conns = k.conns ∧
    ∀ conn, ∀ x ∈ k'.sent conn,
      x ∈ k.sent conn ∨ ∃ file, k.files fd = some file ∧ file.conn = conn ∧ x ∈ task.rest := by
  have hwritten : ∀ {n : ℕ} {k₁ : Kernel}, k.write fd task.rest n = some k₁ →
      k₁.files = k.files ∧ k₁.conns = k.conns := by
    intro n k₁ hwrite
    obtain ⟨_, -, -, rfl⟩ := Kernel.write_eq_some hwrite
    exact ⟨rfl, rfl⟩
  cases h with
  | failed =>
      exact ⟨fun fd' file hfile ↦ ⟨file, Kernel.files_of_files_close hfile, rfl⟩, rfl,
        fun conn x hx ↦ Or.inl hx⟩
  | more n k₁ hwrite hmore =>
      obtain ⟨hfiles, hconns⟩ := hwritten hwrite
      exact ⟨fun fd' file hfile ↦ ⟨file, hfiles ▸ hfile, rfl⟩, hconns,
        fun conn x hx ↦ sent_of_write hwrite hx⟩
  | closed n k₁ hwrite =>
      obtain ⟨hfiles, hconns⟩ := hwritten hwrite
      exact ⟨fun fd' file hfile ↦ ⟨file, hfiles ▸ Kernel.files_of_files_close hfile, rfl⟩, hconns,
        fun conn x hx ↦ sent_of_write hwrite hx⟩
  | disabled n k₁ k₂ refusal hwrite hmod =>
      obtain ⟨hfiles, hconns⟩ := hwritten hwrite
      obtain ⟨conn, interest, hold, -, rfl⟩ := Kernel.epollCtlMod_eq_some hmod
      refine ⟨fun fd' file hfile ↦ ?_, hconns, fun conn x hx ↦ sent_of_write hwrite hx⟩
      rw [Kernel.files_setFile] at hfile
      split at hfile
      · rename_i heq
        obtain rfl := Option.some.inj hfile
        exact ⟨⟨conn, some interest⟩, by rw [heq, ← hfiles]; exact hold, rfl⟩
      · exact ⟨file, hfiles ▸ hfile, rfl⟩

/-- `flush` puts nothing in the queue. -/
theorem Flushed.mem_flatMap {k k' : Kernel} {task : WriteTask} {tasks output : List WriteTask}
    (h : Flushed k fd task tasks output k') (hx : x ∈ output.flatMap WriteTask.rest) :
    x ∈ (task :: tasks).flatMap WriteTask.rest := by
  cases h with
  | failed => exact hx
  | more n k₁ hwrite hmore => exact Client.mem_flatMap_afterWrite hx
  | closed n k₁ hwrite => exact absurd hx List.not_mem_nil
  | disabled n k₁ k₂ refusal hwrite hmod => exact absurd hx List.not_mem_nil

theorem Isolated.flush (h : s.Isolated) (htables : s.Tables) {nWritten : Option ℕ} {refusal : Bool}
    (hflush : s.flush fd nWritten refusal = some t) : t.Isolated := by
  obtain ⟨c, task, tasks, output, k', hc, houtput, rfl, hflushed⟩ :=
    flush_cases (fun c hc ↦ htables.not_void hc) hflush
  obtain ⟨hfiles, hconns, hsent⟩ := hflushed.kernel
  have hwaiting : c.waiting = (task :: tasks).flatMap WriteTask.rest := congrArg _ houtput
  refine h.lose ?_ hfiles ?_ hconns rfl rfl
  · intro fd' c' hc' x hx
    have hset : (s.setClient fd { c with output }).client fd' = some c' := hc'
    rw [client_setClient] at hset
    split at hset
    · rename_i heq
      obtain rfl := Option.some.inj hset
      refine ⟨c, heq ▸ hc, ?_⟩
      rw [hwaiting]
      exact hflushed.mem_flatMap hx
    · exact ⟨c', hset, hx⟩
  · intro conn x hx
    refine (hsent conn x hx).imp_right fun hnew ↦ ?_
    obtain ⟨file, hfile, hconn, hx⟩ := hnew
    refine ⟨fd, file, c, hfile, hconn, hc, ?_⟩
    rw [hwaiting, List.flatMap_cons]
    exact List.mem_append_left _ hx

theorem Isolated.accept_step (h : s.Isolated) {infd : Option ℤ} {fcntlRefused ctlRefused : Bool}
    (hvacant : s.Vacant (.accept infd fcntlRefused ctlRefused))
    (haccept : s.accept infd fcntlRefused ctlRefused = some t) : t.Isolated := by
  obtain ⟨-, rfl⟩ | ⟨fd, rfl, -, -, hclosed, ⟨rfl, rfl, ht⟩ | ⟨-, ht⟩⟩ := accept_cases haccept
  · exact h.next
  · have hempty : ((s.client fd).map Client.output).getD [] = [] := by
      cases hc : s.client fd with
      | none => rfl
      | some c => exact hvacant c hc
    have hclient : ∀ fd', t.client fd' = if fd' = fd then some ⟨fd, []⟩ else s.client fd' := by
      intro fd'
      rw [hempty] at ht
      have hclients : t.clients = (s.setClient fd ⟨fd, []⟩).clients := by rw [ht]
      rw [client_congr hclients, client_setClient]
    refine h.accept ?_ ?_ (by rw [ht]; rfl) (by rw [ht]) (by rw [ht]) (by rw [ht]; rfl)
    · intro fd' c hc x hx
      rw [hclient] at hc
      split at hc
      · obtain rfl := Option.some.inj hc
        exact absurd hx List.not_mem_nil
      · exact hc
    · intro fd' file hfile
      simp only [ht, Kernel.files_setFile] at hfile
      split at hfile
      · rename_i heq
        obtain rfl := Option.some.inj hfile
        refine Or.inr ⟨rfl, fun c hc ↦ ?_⟩
        rw [hclient, if_pos heq] at hc
        obtain rfl := Option.some.inj hc
        rfl
      · exact Or.inl hfile
  · refine h.accept ?_ ?_ (by rw [ht]; rfl) (by rw [ht]; rfl) (by rw [ht]; rfl) (by rw [ht]; rfl)
    · intro fd' c hc _ _
      rw [ht] at hc
      exact hc
    · intro fd' file hfile
      rw [ht] at hfile
      exact Or.inl hfile

theorem Isolated.read (h : s.Isolated) (htables : s.Tables) {result : ReadResult}
    {refused : ℤ → Bool} (hread : s.read fd result refused = some t) : t.Isolated := by
  obtain ⟨buf, clients, kernel, ex, -, -, hcall, hend⟩ | ⟨-, rfl⟩ | ⟨-, rfl⟩ := read_cases hread
  · have hbroadcast := htables.broadcast_spec hcall
    have hisolated : Isolated { s with clients, kernel, chunks := s.chunks ++ [buf] } := by
      refine h.queue ?_ ?_ hbroadcast.sent hbroadcast.conns rfl rfl
      · intro fd' c hc
        obtain ⟨c₀, hc₀, -, houtput⟩ := Broadcast.client_cases hbroadcast hc
        refine ⟨c₀, hc₀, fun x hx ↦ ?_⟩
        unfold Client.waiting at hx ⊢
        rcases houtput with hsame | hpush
        · rw [hsame] at hx
          exact Or.inl hx
        · rw [hpush, List.flatMap_append, List.mem_append, List.flatMap_singleton] at hx
          exact hx.imp_right mem_rest_create
      · intro fd' file hfile
        rcases Broadcast.file_cases hbroadcast htables.sorted hfile with hsame |
          ⟨conn, interest, hfile₀, rfl, -⟩
        · exact ⟨file, hsame, rfl⟩
        · exact ⟨_, hfile₀, rfl⟩
    rcases hend with ⟨-, rfl⟩ | ⟨exc, -, rfl⟩
    · exact hisolated
    · exact hisolated.caught exc
  · exact h.next
  · exact (h.erase htables).next

theorem Isolated.step (h : s.Isolated) (hsound : s.Sound) (hvacant : s.Vacant a)
    (hstep : Step s a t) : t.Isolated := by
  cases hstep.handles with
  | wait events hempty hwait =>
      obtain ⟨-, -, rfl⟩ := wait_cases hwait
      exact h.close (fun _ _ hc ↦ hc) (fun _ _ hfile ↦ hfile) rfl rfl rfl rfl
  | error e rest hpending hbranch ht => exact ht ▸ (h.erase hsound.toTables).next
  | flush e rest hpending hbranch nWritten refusal hflush => exact h.flush hsound.toTables hflush
  | accept e rest hpending hbranch infd fcntlRefused ctlRefused haccept =>
      exact h.accept_step hvacant haccept
  | read e rest hpending hbranch result refused hread => exact h.read hsound.toTables hread

/-- As long as no connection is set up under a descriptor whose client has something left to write,
every byte that is written to a connection belongs to a chunk that was read after the connection was
accepted. -/
theorem sent_after_accept (hrun : Run (Guarded Vacant Step) (initial masterSocket) answers s)
    (hsent : x ∈ s.kernel.sent conn) :
    s.since conn ≤ x.1 ∧ ∃ chunk, s.chunks[x.1]? = some chunk ∧ x.2 ∈ chunk := by
  have hinv : s.Sound ∧ s.Isolated := by
    refine hrun.invariant (P := fun s ↦ s.Sound ∧ s.Isolated)
      ⟨sound_initial masterSocket, isolated_initial masterSocket⟩ ?_
    intro s a t h hstep
    exact ⟨h.1.step hstep.2, h.2.step h.1 hstep.1 hstep.2⟩
  exact hinv.2.sent conn x hsent

def bothSent : List Answer :=
  twoClients ++ [.read .again fun _ ↦ false, .wait [⟨5, .writing⟩, ⟨6, .writing⟩],
    .write (some 1) false, .write (some 1) false]

/-- A new connection gets the descriptor of the first client before the next chunk is read. -/
def reusedDescriptor : List Answer :=
  failedWrite ++ [.wait [⟨3, .reading⟩], .accept (some 5) false false, .accept none false false,
    .wait [⟨6, .reading⟩], .read (.data [105]) fun _ ↦ false, .read .again fun _ ↦ false,
    .wait [⟨5, .writing⟩], .write (some 1) false]

theorem sent_after_accept_both :
    ∃ s, Run (Guarded Vacant Step) (initial 3) bothSent s ∧ (0, 104) ∈ s.kernel.sent 1 ∧
      s.since 1 ≤ 0 ∧ ∃ chunk, s.chunks[0]? = some chunk ∧ 104 ∈ chunk := by
  have hexec : ((bothSent.foldlM (fun (s : Server) a ↦ if s.Vacant a then s.exec a else none)
      (initial 3)).map fun s ↦ decide ((0, 104) ∈ s.kernel.sent 1)) = some true := by
    decide +kernel
  obtain ⟨s, hs, hsent⟩ := Option.map_eq_some_iff.mp hexec
  have hmem := of_decide_eq_true hsent
  have hrun := Run.guarded_of_foldlM hs
  exact ⟨s, hrun, hmem, sent_after_accept hrun hmem⟩

/-- The new connection is sent a byte of the chunk that was read before it was accepted. -/
theorem stale_chunk_sent :
    ∃ s, Run Step (initial 3) reusedDescriptor s ∧ (0, 104) ∈ s.kernel.sent 2 ∧ ¬s.since 2 ≤ 0 := by
  have hexec : ((reusedDescriptor.foldlM exec (initial 3)).map
      fun s ↦ decide ((0, 104) ∈ s.kernel.sent 2 ∧ ¬s.since 2 ≤ 0)) = some true := by
    decide +kernel
  obtain ⟨s, hs, hfacts⟩ := Option.map_eq_some_iff.mp hexec
  exact ⟨s, Run.of_foldlM hs, of_decide_eq_true hfacts⟩

end Server

end CppMtHw.ChatServer
