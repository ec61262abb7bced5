import CppMtHw.ChatServer.Interest
import CppMtHw.ChatServer.Isolation

/-!
# One order for all clients

The chunks that the server reads, as `strncpy` copies them, form one log. As long as no call
fails, what has been sent to an open connection and what its client has left to write are
together the log from the chunk on that was the next one when the connection was accepted.
So all clients are told the same in the same order, and a client that is behind another one
lacks only an end of what that one was sent.
-/

namespace CppMtHw.ChatServer

open Machine

/-- The bytes of the chunks from number `since` on, in order, as they are copied for the clients. -/
def log (chunks : List (List UInt8)) (since : ℕ) : List (ℕ × UInt8) :=
  (chunks.zipIdx.flatMap fun p ↦ (WriteTask.create p.1 p.2).rest).filter fun x ↦ since ≤ x.1

theorem log_length (chunks : List (List UInt8)) : log chunks chunks.length = [] := by
  unfold log
  rw [List.filter_eq_nil_iff]
  intro x hx
  obtain ⟨p, hp, hmem⟩ := List.mem_flatMap.mp hx
  have hbefore : x.1 < chunks.length := (mem_rest_create hmem).1 ▸ List.snd_lt_of_mem_zipIdx hp
  exact fun hle ↦ absurd (of_decide_eq_true hle) (not_le.mpr hbefore)

/-- A chunk that is read is the end of the log. -/
theorem log_append {chunks : List (List UInt8)} {since : ℕ} (hsince : since ≤ chunks.length)
    (buf : List UInt8) :
    log (chunks ++ [buf]) since = log chunks since ++
      (WriteTask.create buf chunks.length).rest := by
  have hall : (WriteTask.create buf chunks.length).rest.filter (fun x ↦ since ≤ x.1) =
      (WriteTask.create buf chunks.length).rest := by
    rw [List.filter_eq_self]
    intro x hx
    exact decide_eq_true ((mem_rest_create hx).1 ▸ hsince)
  unfold log
  rw [List.zipIdx_append, List.flatMap_append, List.filter_append, Nat.zero_add,
    List.zipIdx_singleton, List.flatMap_singleton, hall]

/-- Who comes later is told what the others are told from then on. -/
theorem filter_log (chunks : List (List UInt8)) {since since' : ℕ} (hle : since ≤ since') :
    (log chunks since).filter (fun x ↦ since' ≤ x.1) = log chunks since' := by
  unfold log
  rw [List.filter_filter]
  apply List.filter_congr
  intro x _
  rw [Bool.and_eq_left_iff_imp]
  intro hx
  exact decide_eq_true (hle.trans (of_decide_eq_true hx))

namespace Server

variable {s t : Server} {fd : ℤ} {c : Client} {a : Answer} {masterSocket : ℤ}
  {answers : List Answer}

structure Ordered (s : Server) : Prop where
  whole : ∀ fd file c, s.kernel.files fd = some file → s.client fd = some c →
    s.kernel.sent file.conn ++ c.waiting = log s.chunks (s.since file.conn)
  part : ∀ conn, s.kernel.sent conn <+: log s.chunks (s.since conn)
  single : ∀ fd fd' file file', s.kernel.files fd = some file → s.kernel.files fd' = some file' →
    file.conn = file'.conn → fd = fd'
  tasks : ∀ fd c, s.client fd = some c → ∀ task ∈ c.output, task.Ok

theorem ordered_initial (masterSocket : ℤ) : (initial masterSocket).Ordered where
  whole fd file c hfile := by cases hfile
  part conn := List.nil_prefix
  single fd fd' file file' hfile := by cases hfile
  tasks fd c hc := by cases hc

/-- Clients may go and descriptors be closed. -/
theorem Ordered.lose (h : s.Ordered) (hclients : ∀ fd c, t.client fd = some c →
      s.client fd = some c)
    (hfiles : ∀ fd file, t.kernel.files fd = some file → s.kernel.files fd = some file)
    (hsent : t.kernel.sent = s.kernel.sent) (hsince : t.since = s.since)
    (hchunks : t.chunks = s.chunks) :
    t.Ordered where
  whole fd file c hfile hc := by
    rw [hsent, hsince, hchunks]
    exact h.whole fd file c (hfiles fd file hfile) (hclients fd c hc)
  part conn := by
    rw [hsent, hsince, hchunks]
    exact h.part conn
  single fd fd' file file' hfile hfile' :=
    h.single fd fd' file file' (hfiles fd file hfile) (hfiles fd' file' hfile')
  tasks fd c hc := h.tasks fd c (hclients fd c hc)

/-- Files that keep their connections still have different ones. -/
theorem Ordered.single_of_files (h : s.Ordered) {files : ℤ → Option OpenFile}
    (hfiles : ∀ fd file, files fd = some file → ∃ file₀, s.kernel.files fd = some file₀ ∧
      file.conn = file₀.conn)
    (fd fd' : ℤ) (file file' : OpenFile) (hfile : files fd = some file)
      (hfile' : files fd' = some file')
    (heq : file.conn = file'.conn) : fd = fd' := by
  obtain ⟨file₀, hfile₀, hconn⟩ := hfiles fd file hfile
  obtain ⟨file₀', hfile₀', hconn'⟩ := hfiles fd' file' hfile'
  exact h.single fd fd' file₀ file₀' hfile₀ hfile₀' (hconn.symm.trans (heq.trans hconn'))

theorem Ordered.erase (h : s.Ordered) (htables : s.Tables) : (s.erase fd).next.Ordered := by
  have hrest : (s.erase fd).kernel.sent = s.kernel.sent ∧ (s.erase fd).since = s.since ∧
      (s.erase fd).chunks = s.chunks := by
    unfold Server.erase Client.destroy
    split
    · exact ⟨rfl, rfl, rfl⟩
    · dsimp only
      split <;> exact ⟨rfl, rfl, rfl⟩
  refine h.lose ?_ ?_ hrest.1 hrest.2.1 hrest.2.2
  · intro fd' c hc
    change (s.erase fd).client fd' = some c at hc
    rw [client_erase htables.sorted] at hc
    split at hc
    · cases hc
    · exact hc
  · intro fd' file hfile
    change (s.erase fd).kernel.files fd' = some file at hfile
    rw [htables.files_erase] at hfile
    split at hfile
    · cases hfile
    · exact hfile

/-- `write` takes from the front of what is left what it adds to what has been sent. -/
theorem Ordered.write (h : s.Ordered) {task : WriteTask} {tasks : List WriteTask} {n : ℕ}
    {k₁ : Kernel} (hc : s.client fd = some c) (houtput : c.output = task :: tasks)
    (hwrite : s.kernel.write fd task.rest n = some k₁)
    (hclients : t.clients =
      (s.setClient fd { c with output := Client.afterWrite task tasks n }).clients)
    (hfiles : ∀ fd file, t.kernel.files fd = some file →
      ∃ file₀, s.kernel.files fd = some file₀ ∧ file.conn = file₀.conn)
    (hsent : t.kernel.sent = k₁.sent) (hsince : t.since = s.since) (hchunks : t.chunks = s.chunks) :
      t.Ordered := by
  obtain ⟨file, hfile, hn, rfl⟩ := Kernel.write_eq_some hwrite
  replace hsent : t.kernel.sent =
    Function.update s.kernel.sent file.conn (s.kernel.sent file.conn ++ task.rest.take n) := hsent
  have hok : ∀ task' ∈ task :: tasks, task'.Ok := houtput ▸ h.tasks fd c hc
  have hwaiting : c.waiting = task.rest ++ tasks.flatMap WriteTask.rest := by
    unfold Client.waiting
    rw [houtput, List.flatMap_cons]
  have hrest : (Client.afterWrite task tasks n).flatMap WriteTask.rest = c.waiting.drop n := by
    rw [Client.flatMap_rest_afterWrite (hok task List.mem_cons_self) hn, hwaiting]
  have hwritten : task.rest.take n = c.waiting.take n := by
    rw [hwaiting, List.take_append_of_le_length hn]
  have hclient : ∀ fd', t.client fd' =
      if fd' = fd then some { c with output := Client.afterWrite task tasks n }
        else s.client fd' := by
    intro fd'
    rw [client_congr hclients, client_setClient]
  have hwhole := h.whole fd file c hfile hc
  constructor
  · intro fd' file' c' hfile' hc'
    obtain ⟨file₀, hfile₀, hconn⟩ := hfiles fd' file' hfile'
    rw [hclient] at hc'
    rw [hsent, hsince, hchunks, hconn]
    by_cases hfd : fd' = fd
    · subst hfd
      rw [if_pos rfl] at hc'
      obtain rfl := Option.some.inj hc'
      obtain rfl := Option.some.inj (hfile.symm.trans hfile₀)
      calc
        _ = s.kernel.sent file.conn ++ task.rest.take n ++
          (Client.afterWrite task tasks n).flatMap WriteTask.rest := by
          rw [Function.update_self]
          rfl
        _ = s.kernel.sent file.conn ++ c.waiting := by
          rw [hwritten, hrest, List.append_assoc, List.take_append_drop]
        _ = _ := hwhole
    · rw [if_neg hfd] at hc'
      have hne : file₀.conn ≠ file.conn :=
        fun heq ↦ hfd (h.single fd' fd file₀ file hfile₀ hfile heq)
      rw [Function.update_of_ne hne]
      exact h.whole fd' file₀ c' hfile₀ hc'
  · intro conn
    rw [hsent, hsince, hchunks]
    by_cases hconn : conn = file.conn
    · subst hconn
      rw [Function.update_self, ← hwhole, hwritten]
      exact (List.prefix_append_right_inj _).mpr (List.take_prefix n c.waiting)
    · rw [Function.update_of_ne hconn]
      exact h.part conn
  · exact h.single_of_files hfiles
  · intro fd' c' hc'
    rw [hclient] at hc'
    split at hc'
    · obtain rfl := Option.some.inj hc'
      exact Client.ok_afterWrite hok hn
    · exact h.tasks fd' c' hc'

theorem Ordered.flush (h : s.Ordered) (hregistered : s.Registered) (htables : s.Tables) {n : ℕ}
    (hflush : s.flush fd (some n) false = some t) : t.Ordered := by
  obtain ⟨c, hc, hflush⟩ := Option.bind_eq_some_iff.mp hflush
  obtain ⟨⟨c', k', ex⟩, hcall, ht⟩ := Option.bind_eq_some_iff.mp hflush
  obtain ⟨rfl, hvoid⟩ := htables.not_void hc
  obtain ⟨conn, interest, hfile, -⟩ := hregistered c.socket c hc
  obtain ⟨task, tasks, houtput, ⟨hfailed, -⟩ | ⟨n, k₁, -, hwrite, hend⟩⟩ :=
    Client.flush_cases hvoid hcall
  · cases hfailed
  have hfiles := Kernel.files_write hwrite
  obtain ⟨rfl, ⟨hmore, rfl, rfl⟩ | ⟨-, hmod, -⟩ | ⟨hempty, hmod, rfl⟩⟩ :=
    Client.disableOut_cases hend
  · obtain rfl := Option.some.inj ht
    refine h.write hc houtput hwrite rfl ?_ rfl rfl rfl
    intro fd file hfile'
    exact ⟨file, hfiles ▸ hfile', rfl⟩
  · -- the descriptor is registered, so the call does not fail
    have hmodifies : k₁.Modifies (fun _ ↦ false) c.socket :=
      ⟨conn, interest, (congrFun hfiles c.socket).trans hfile, rfl⟩
    have hsucceeds : ∃ k₂, k₁.epollCtlMod c.socket .reading false = some k₂ :=
      Kernel.modifies_iff.mp hmodifies
    obtain ⟨k₂, hk₂⟩ := hsucceeds
    rw [hk₂] at hmod
    cases hmod
  · obtain rfl := Option.some.inj ht
    obtain ⟨conn', interest', hfile', -, rfl⟩ := Kernel.epollCtlMod_eq_some hmod
    refine h.write hc houtput hwrite rfl ?_ rfl rfl rfl
    intro fd file hfile''
    change (k₁.setFile c.socket _).files fd = some file at hfile''
    rw [Kernel.files_setFile] at hfile''
    split at hfile''
    · rename_i heq
      obtain rfl := Option.some.inj hfile''
      rw [hfiles] at hfile'
      exact ⟨⟨conn', some interest'⟩, heq ▸ hfile', rfl⟩
    · exact ⟨file, hfiles ▸ hfile'', rfl⟩

/-- A number for the next connection changes nothing for the old ones, and nothing has been sent to
it. -/
theorem Ordered.part_new (h : s.Ordered) (hisolated : s.Isolated) (conn : ℕ) :
    s.kernel.sent conn <+: log s.chunks
      (Function.update s.since s.kernel.conns s.chunks.length conn) := by
  by_cases hconn : conn = s.kernel.conns
  · rw [hisolated.unsent conn hconn.ge]
    exact List.nil_prefix
  · rw [Function.update_of_ne hconn]
    exact h.part conn

theorem Ordered.whole_old (h : s.Ordered) (hisolated : s.Isolated) {file : OpenFile}
    (hfile : s.kernel.files fd = some file) (hc : s.client fd = some c) :
    s.kernel.sent file.conn ++ c.waiting =
      log s.chunks (Function.update s.since s.kernel.conns s.chunks.length file.conn) := by
  rw [Function.update_of_ne (Nat.ne_of_lt (hisolated.conns fd file hfile))]
  exact h.whole fd file c hfile hc

/-- A new connection has nothing before the next chunk. -/
theorem Ordered.connect (h : s.Ordered) (hisolated : s.Isolated)
    (hclient : ∀ fd', t.client fd' = if fd' = fd then some ⟨fd, []⟩ else s.client fd')
    (hfiles : ∀ fd', t.kernel.files fd' =
      if fd' = fd then some ⟨s.kernel.conns, some .edgeTriggered⟩ else s.kernel.files fd')
    (hsent : t.kernel.sent = s.kernel.sent)
    (hsince : t.since = Function.update s.since s.kernel.conns s.chunks.length)
    (hchunks : t.chunks = s.chunks) : t.Ordered := by
  constructor
  · intro fd' file c hfile hc
    rw [hfiles] at hfile
    rw [hclient] at hc
    rw [hsent, hsince, hchunks]
    by_cases hfd : fd' = fd
    · rw [if_pos hfd] at hfile hc
      obtain rfl := Option.some.inj hfile
      obtain rfl := Option.some.inj hc
      rw [Function.update_self, log_length, hisolated.unsent _ (Nat.le_refl _)]
      rfl
    · rw [if_neg hfd] at hfile hc
      exact h.whole_old hisolated hfile hc
  · intro conn
    rw [hsent, hsince, hchunks]
    exact h.part_new hisolated conn
  · intro fd₁ fd₂ file₁ file₂ hfile₁ hfile₂ heq
    rw [hfiles] at hfile₁ hfile₂
    split at hfile₁ <;> split at hfile₂
    · rename_i h₁ h₂
      exact h₁.trans h₂.symm
    · obtain rfl := Option.some.inj hfile₁
      exact absurd heq.symm (Nat.ne_of_lt (hisolated.conns fd₂ file₂ hfile₂))
    · obtain rfl := Option.some.inj hfile₂
      exact absurd heq (Nat.ne_of_lt (hisolated.conns fd₁ file₁ hfile₁))
    · exact h.single fd₁ fd₂ file₁ file₂ hfile₁ hfile₂ heq
  · intro fd' c hc
    rw [hclient] at hc
    split at hc
    · obtain rfl := Option.some.inj hc
      exact fun task hmem ↦ absurd hmem List.not_mem_nil
    · exact h.tasks fd' c hc

theorem Ordered.accept (h : s.Ordered) (hisolated : s.Isolated) (hregistered : s.Registered)
    {infd : Option ℤ} {fcntlRefused ctlRefused : Bool}
    (haccept : s.accept infd fcntlRefused ctlRefused = some t) : t.Ordered := by
  obtain ⟨-, rfl⟩ | ⟨fd, -, -, -, hclosed, ⟨-, -, ht⟩ | ⟨-, ht⟩⟩ := accept_cases haccept
  · exact h.lose (fun _ _ hc ↦ hc) (fun _ _ hfile ↦ hfile) rfl rfl rfl
  · have hfree : s.client fd = none := by
      cases hc : s.client fd with
      | none => rfl
      | some c =>
          obtain ⟨conn, interest, hfile, -⟩ := hregistered fd c hc
          rw [hclosed] at hfile
          cases hfile
    rw [hfree] at ht
    have hclients : t.clients = (s.setClient fd ⟨fd, []⟩).clients := by
      rw [ht]
      rfl
    have hclient : ∀ fd', t.client fd' = if fd' = fd then some ⟨fd, []⟩ else s.client fd' := by
      intro fd'
      rw [client_congr hclients, client_setClient]
    have hfiles : ∀ fd', t.kernel.files fd' =
        if fd' = fd then some ⟨s.kernel.conns, some .edgeTriggered⟩ else s.kernel.files fd' := by
      intro fd'
      rw [ht]
      exact Kernel.files_setFile
    exact h.connect hisolated hclient hfiles (by rw [ht]; rfl) (by rw [ht]) (by rw [ht]; rfl)
  · rw [ht]
    constructor
    · intro fd' file c hfile hc
      exact h.whole_old hisolated hfile hc
    · exact h.part_new hisolated
    · exact h.single
    · exact h.tasks

/-- A chunk that is read goes to all clients and is the end of the log. -/
theorem Ordered.read (h : s.Ordered) (hisolated : s.Isolated) (hregistered : s.Registered)
    (htables : s.Tables) {result : ReadResult} {refused : ℤ → Bool}
    (hrefused : ∀ fd, refused fd = false) (hread : s.read fd result refused = some t) :
    t.Ordered := by
  obtain ⟨buf, clients, kernel, ex, -, -, hcall, hend⟩ | ⟨-, rfl⟩ | ⟨-, rfl⟩ := read_cases hread
  · have hbroadcast := htables.broadcast_spec hcall
    have hnone : ex = none := (hregistered.broadcast
      (t := { s with clients, kernel, chunks := s.chunks ++ [buf] }) htables hrefused hbroadcast).1
    obtain ⟨-, rfl⟩ : ex = none ∧ t = { s with clients, kernel, chunks := s.chunks ++ [buf] } := by
      rcases hend with hreturned | ⟨exc, hexc, -⟩
      · exact hreturned
      · rw [hnone] at hexc
        cases hexc
    have hclient : ∀ fd', client { s with clients, kernel, chunks := s.chunks ++ [buf] } fd' =
        (s.client fd').map fun c ↦ c.push buf s.chunks.length := by
      intro fd'
      have hreached : Reached s.clients s.kernel refused fd' :=
        fun p hmem _ ↦ hbroadcast.returned hnone p hmem
      rw [Broadcast.client hbroadcast]
      congr 1
      funext c
      exact if_pos hreached
    have hfiles : ∀ fd' file, kernel.files fd' = some file →
        ∃ file₀, s.kernel.files fd' = some file₀ ∧ file.conn = file₀.conn := by
      intro fd' file hfile
      rcases Broadcast.file_cases
          (t := { s with clients, kernel, chunks := s.chunks ++ [buf] }) hbroadcast
        htables.sorted hfile with hsame | ⟨conn, interest, hfile₀, rfl, -⟩
      · exact ⟨file, hsame, rfl⟩
      · exact ⟨_, hfile₀, rfl⟩
    constructor
    · intro fd' file c hfile hc
      obtain ⟨file₀, hfile₀, hconn⟩ := hfiles fd' file hfile
      rw [hclient, Option.map_eq_some_iff] at hc
      obtain ⟨c₀, hc₀, rfl⟩ := hc
      have hwaiting : (c₀.push buf s.chunks.length).waiting =
          c₀.waiting ++ (WriteTask.create buf s.chunks.length).rest := by
        unfold Client.waiting Client.push
        rw [List.flatMap_append, List.flatMap_singleton]
      calc
        _ = s.kernel.sent file₀.conn ++ c₀.waiting ++
          (WriteTask.create buf s.chunks.length).rest := by
          rw [hwaiting, hconn, ← List.append_assoc]
          exact congrArg (fun sent ↦ sent file₀.conn ++ c₀.waiting ++ _) hbroadcast.sent
        _ = log s.chunks (s.since file₀.conn) ++ (WriteTask.create buf s.chunks.length).rest := by
          rw [h.whole fd' file₀ c₀ hfile₀ hc₀]
        _ = _ := by rw [hconn, log_append (hisolated.since file₀.conn)]
    · intro conn
      show kernel.sent conn <+: log (s.chunks ++ [buf]) (s.since conn)
      rw [show kernel.sent = s.kernel.sent from hbroadcast.sent, log_append (hisolated.since conn)]
      exact (h.part conn).trans (List.prefix_append _ _)
    · exact h.single_of_files hfiles
    · intro fd' c hc
      rw [hclient, Option.map_eq_some_iff] at hc
      obtain ⟨c₀, hc₀, rfl⟩ := hc
      intro task hmem
      rcases List.mem_append.mp hmem with hold | hnew
      · exact h.tasks fd' c₀ hc₀ task hold
      · rw [List.mem_singleton.mp hnew]
        exact WriteTask.ok_create buf s.chunks.length
  · exact h.lose (fun _ _ hc ↦ hc) (fun _ _ hfile ↦ hfile) rfl rfl rfl
  · exact h.erase htables

/-- A new connection is set up only under a free descriptor. -/
theorem Registered.vacant (h : s.Registered) (hstep : Step s a t) : s.Vacant a := by
  unfold Vacant
  split
  · rename_i fd
    intro c hc
    cases hstep.handles with
    | accept e rest hpending hbranch infd fcntlRefused ctlRefused haccept =>
        obtain ⟨hnone, -⟩ | ⟨fd', hfd, -, -, hclosed, -⟩ := accept_cases haccept
        · cases hnone
        · obtain rfl := Option.some.inj hfd
          obtain ⟨conn, interest, hfile, -⟩ := h fd c hc
          rw [hclosed] at hfile
          cases hfile
  · trivial

theorem Ordered.step (h : s.Ordered) (hsound : s.Sound) (hregistered : s.Registered)
    (hisolated : s.Isolated) (hok : a.Succeeds) (hstep : Step s a t) : t.Ordered := by
  cases hstep.handles with
  | wait events hempty hwait =>
      obtain ⟨-, -, rfl⟩ := wait_cases hwait
      exact h.lose (fun _ _ hc ↦ hc) (fun _ _ hfile ↦ hfile) rfl rfl rfl
  | error e rest hpending hbranch ht => exact ht ▸ h.erase hsound.toTables
  | flush e rest hpending hbranch nWritten refusal hflush =>
      obtain ⟨hwritten, rfl⟩ := hok
      obtain ⟨n, rfl⟩ := Option.ne_none_iff_exists'.mp hwritten
      exact h.flush hregistered hsound.toTables hflush
  | accept e rest hpending hbranch infd fcntlRefused ctlRefused haccept =>
      exact h.accept hisolated hregistered haccept
  | read e rest hpending hbranch result refused hread =>
      exact h.read hisolated hregistered hsound.toTables hok.2 hread

theorem ordered_of_run (hrun : Run (Guarded (fun _ a ↦ a.Succeeds) Step)
      (initial masterSocket) answers s) :
    s.Sound ∧ s.Registered ∧ s.Isolated ∧ s.Ordered := by
  apply hrun.invariant (P := fun s ↦ s.Sound ∧ s.Registered ∧ s.Isolated ∧ s.Ordered)
  · exact ⟨sound_initial masterSocket, registered_initial masterSocket,
      isolated_initial masterSocket, ordered_initial masterSocket⟩
  · intro s a t ⟨hsound, hregistered, hisolated, hordered⟩ ⟨hok, hstep⟩
    exact ⟨hsound.step hstep, hregistered.step hsound hok hstep,
      hisolated.step hsound (hregistered.vacant hstep) hstep,
      hordered.step hsound hregistered hisolated hok hstep⟩

/-- In a run in which no call fails, an open connection has been sent the log from the chunk on that
was the next one when it was accepted, less what its client has left to write; and of any two
connections, open or not, the one has been sent what the other has been sent since both were there,
or a beginning of it. -/
theorem sent_in_one_order (hrun : Run (Guarded (fun _ a ↦ a.Succeeds) Step)
      (initial masterSocket) answers s) :
    (∀ fd file, s.kernel.files fd = some file → ∃ c, s.client fd = some c ∧
      s.kernel.sent file.conn ++ c.waiting = log s.chunks (s.since file.conn)) ∧
    ∀ conn conn', s.since conn ≤ s.since conn' →
      (s.kernel.sent conn).filter (fun x ↦ s.since conn' ≤ x.1) <+: s.kernel.sent conn' ∨
        s.kernel.sent conn' <+: (s.kernel.sent conn).filter (fun x ↦ s.since conn' ≤ x.1) := by
  obtain ⟨hsound, -, -, hordered⟩ := ordered_of_run hrun
  constructor
  · intro fd file hfile
    obtain ⟨⟨c, hc⟩, -⟩ := hsound.registered fd file hfile
    exact ⟨c, hc, hordered.whole fd file c hfile hc⟩
  · intro conn conn' hle
    have hcommon : (s.kernel.sent conn).filter (fun x ↦ s.since conn' ≤ x.1) <+:
        log s.chunks (s.since conn') := by
      rw [← filter_log s.chunks hle]
      exact (hordered.part conn).filter _
    exact List.prefix_or_prefix_of_prefix hcommon (hordered.part conn')

theorem succeeds_bothSent : ∀ a ∈ bothSent, a.Succeeds := by
  simp [bothSent, twoClients, Answer.Succeeds]

/-- Both clients are sent the one chunk. -/
theorem sent_in_one_order_both :
    ∃ s, Run (Guarded (fun _ a ↦ a.Succeeds) Step) (initial 3) bothSent s ∧
    s.kernel.sent 0 = [(0, 104)] ∧
      ((s.kernel.sent 0).filter (fun x ↦ s.since 1 ≤ x.1) <+: s.kernel.sent 1 ∨
        s.kernel.sent 1 <+: (s.kernel.sent 0).filter (fun x ↦ s.since 1 ≤ x.1)) := by
  have hexec : ((bothSent.foldlM exec (initial 3)).map
      fun s ↦ decide (s.kernel.sent 0 = [(0, 104)] ∧ s.since 0 ≤ s.since 1)) = some true := by
    decide +kernel
  obtain ⟨s, hs, hfacts⟩ := Option.map_eq_some_iff.mp hexec
  obtain ⟨hsent, hle⟩ := of_decide_eq_true hfacts
  have hrun := (Run.of_foldlM hs).guarded succeeds_bothSent
  exact ⟨s, hrun, hsent, (sent_in_one_order hrun).2 0 1 hle⟩

end Server

end CppMtHw.ChatServer
