import CppMtHw.ChatServer.Loop

/-!
# Descriptors, clients and events

In every state of the loop an open descriptor is registered and has its client in the
map, and one that is asked for `EPOLLOUT`, or for which an `EPOLLOUT` is still to be
handled, has a client with something left to write. So `flush` is called only for clients
in the map with a task in their queue. The converse does not hold: the handler of the
exceptions closes descriptors and leaves their clients in the map.
-/

namespace CppMtHw.ChatServer

open Machine

namespace Server

variable {s t : Server} {fd fd' : ℤ} {c : Client} {e : Event} {rest : List Event} {a : Answer}

def HasOutput (s : Server) (fd : ℤ) : Prop := ∃ c, s.client fd = some c ∧ c.output ≠ []

structure Tables (s : Server) : Prop where
  sorted : SortedMap.Sorted (· < ·) s.clients
  socket : ∀ fd c, s.client fd = some c → c.socket = fd ∧ 0 ≤ fd ∧ fd ≠ s.masterSocket
  registered : ∀ fd file, s.kernel.files fd = some file →
    (∃ c, s.client fd = some c) ∧ ∃ interest, file.interest = some interest
  asked : ∀ fd conn interest, s.kernel.files fd = some ⟨conn, some interest⟩ →
    interest.epollOut = true → s.HasOutput fd

/-- The events still to be handled. -/
structure Batch (s : Server) : Prop where
  fds : (s.pending.map Event.fd).Nodup
  output : ∀ e ∈ s.pending, e.events.epollOut = true → e.fd ≠ s.masterSocket → s.HasOutput e.fd

structure Sound (s : Server) : Prop extends s.Tables, s.Batch

theorem Tables.not_void (h : s.Tables) (hc : s.client fd = some c) :
    c.socket = fd ∧ fd ≠ voidSocket := by
  obtain ⟨hsocket, hnonneg, -⟩ := h.socket fd c hc
  refine ⟨hsocket, fun hvoid ↦ ?_⟩
  rw [hvoid] at hnonneg
  exact absurd hnonneg (by decide)

/-- Whatever is asked for a descriptor that is open, `epoll_ctl` accepts unless it refuses. -/
theorem Tables.modifies_iff_isOpen (h : s.Tables) {refused : ℤ → Bool} :
    s.kernel.Modifies refused fd ↔ s.kernel.IsOpen fd ∧ refused fd = false := by
  constructor
  · rintro ⟨conn, interest, hfile, hrefused⟩
    exact ⟨by rw [Kernel.IsOpen, hfile]; rfl, hrefused⟩
  · rintro ⟨hopen, hrefused⟩
    obtain ⟨⟨conn, interest⟩, hfile⟩ := Option.isSome_iff_exists.mp hopen
    obtain ⟨-, interest', hinterest⟩ := h.registered fd _ hfile
    exact ⟨conn, interest', by rw [hfile]; exact congrArg some (congrArg _ hinterest), hrefused⟩

/-! ## Changes to the tables -/

theorem client_congr (h : t.clients = s.clients) (fd : ℤ) : t.client fd = s.client fd := by
  unfold client
  rw [h]

theorem hasOutput_congr (h : t.clients = s.clients) : t.HasOutput fd ↔ s.HasOutput fd := by
  unfold HasOutput
  rw [client_congr h]

/-- Descriptors may be closed. -/
theorem Tables.close (h : s.Tables) (hclients : t.clients = s.clients)
    (hmaster : t.masterSocket = s.masterSocket)
    (hfiles : ∀ fd file, t.kernel.files fd = some file → s.kernel.files fd = some file) :
    t.Tables where
  sorted := hclients ▸ h.sorted
  socket fd c hc := by
    rw [hmaster]
    rw [client_congr hclients] at hc
    exact h.socket fd c hc
  registered fd file hfile := by
    rw [client_congr hclients]
    exact h.registered fd file (hfiles fd file hfile)
  asked fd conn interest hfile hout :=
    (hasOutput_congr hclients).mpr (h.asked fd conn interest (hfiles fd _ hfile) hout)

/-- A client may be stored under its descriptor, together with a change of the descriptor. -/
theorem Tables.set (h : s.Tables) (hfd : 0 ≤ fd ∧ fd ≠ s.masterSocket) (hsocket : c.socket = fd)
    (hclients : t.clients = (s.setClient fd c).clients) (hmaster : t.masterSocket = s.masterSocket)
    (hothers : ∀ fd', fd' ≠ fd → t.kernel.files fd' = s.kernel.files fd')
    (hfile : ∀ file, t.kernel.files fd = some file →
      ∃ interest, file.interest = some interest ∧ (interest.epollOut = true → c.output ≠ [])) :
    t.Tables := by
  have hclient : ∀ fd', t.client fd' = if fd' = fd then some c else s.client fd' := by
    intro fd'
    rw [client_congr hclients, client_setClient]
  constructor
  · rw [hclients]
    exact SortedMap.sorted_insert h.sorted
  · intro fd' c' hc'
    rw [hclient] at hc'
    split at hc'
    · rename_i heq
      obtain rfl := Option.some.inj hc'
      rw [heq, hmaster]
      exact ⟨hsocket, hfd⟩
    · rw [hmaster]
      exact h.socket fd' c' hc'
  · intro fd' file hfile'
    rw [hclient]
    split
    · rename_i heq
      obtain ⟨interest, hinterest, -⟩ := hfile file (heq ▸ hfile')
      exact ⟨⟨c, rfl⟩, interest, hinterest⟩
    · rename_i hne
      exact h.registered fd' file (hothers fd' hne ▸ hfile')
  · intro fd' conn interest hfile' hout
    unfold HasOutput
    rw [hclient]
    split
    · rename_i heq
      obtain ⟨interest', hinterest, houtput⟩ := hfile _ (heq ▸ hfile')
      obtain rfl := Option.some.inj hinterest
      exact ⟨c, rfl, houtput hout⟩
    · rename_i hne
      exact h.asked fd' conn interest (hothers fd' hne ▸ hfile') hout

/-- `erase` closes the descriptor. -/
theorem Tables.files_erase (h : s.Tables) :
    (s.erase fd).kernel.files fd' = if fd' = fd then none else s.kernel.files fd' := by
  unfold erase
  split
  · rename_i hnone
    split
    · rename_i heq
      rw [heq]
      cases hfile : s.kernel.files fd with
      | none => rfl
      | some file =>
          obtain ⟨⟨c, hc⟩, -⟩ := h.registered fd file hfile
          rw [hnone] at hc
          cases hc
    · rfl
  · rename_i c hc
    obtain ⟨hsocket, hvoid⟩ := h.not_void hc
    simp only [Client.destroy, hsocket, if_neg hvoid, Kernel.close, Kernel.files_setFile]

theorem masterSocket_erase : (s.erase fd).masterSocket = s.masterSocket := by
  unfold erase
  split <;> rfl

theorem pending_erase : (s.erase fd).pending = s.pending := by
  unfold erase
  split <;> rfl

theorem hasOutput_erase (h : s.Tables) (hne : fd' ≠ fd) :
    (s.erase fd).HasOutput fd' ↔ s.HasOutput fd' := by
  unfold HasOutput
  rw [client_erase h.sorted, if_neg hne]

theorem Tables.erase (h : s.Tables) : (s.erase fd).Tables := by
  constructor
  · exact sorted_erase h.sorted
  · intro fd' c' hc'
    rw [client_erase h.sorted] at hc'
    split at hc'
    · cases hc'
    · rw [masterSocket_erase]
      exact h.socket fd' c' hc'
  · intro fd' file hfile
    rw [h.files_erase] at hfile
    split at hfile
    · cases hfile
    · rename_i hne
      rw [client_erase h.sorted, if_neg hne]
      exact h.registered fd' file hfile
  · intro fd' conn interest hfile hout
    rw [h.files_erase] at hfile
    split at hfile
    · cases hfile
    · rename_i hne
      exact (hasOutput_erase h hne).mpr (h.asked fd' conn interest hfile hout)

/-! ## Changes to the batch -/

theorem Batch.stay (h : s.Batch) (hpending : t.pending = s.pending)
    (hmaster : t.masterSocket = s.masterSocket) (hout : ∀ fd, s.HasOutput fd → t.HasOutput fd) :
    t.Batch where
  fds := hpending ▸ h.fds
  output e hmem hevent hne := by
    rw [hpending] at hmem
    rw [hmaster] at hne
    exact hout e.fd (h.output e hmem hevent hne)

/-- While the first event is handled only the client under its descriptor may run out of output. -/
theorem Batch.next (h : s.Batch) (hpending : s.pending = e :: rest) (hrest : t.pending = rest)
    (hmaster : t.masterSocket = s.masterSocket)
    (hout : ∀ fd, fd ≠ e.fd → s.HasOutput fd → t.HasOutput fd) : t.Batch := by
  have hfds := h.fds
  rw [hpending, List.map_cons, List.nodup_cons] at hfds
  constructor
  · rw [hrest]
    exact hfds.2
  · intro e' hmem hevent hne
    rw [hrest] at hmem
    rw [hmaster] at hne
    apply hout
    · intro heq
      exact hfds.1 (heq ▸ List.mem_map_of_mem hmem)
    · apply h.output e' _ hevent hne
      rw [hpending]
      exact List.mem_cons_of_mem e hmem

/-! ## The steps -/

section Broadcast

variable {buf : List UInt8} {chunk : ℕ} {refused : ℤ → Bool} {ex : Option ChatException}

theorem Tables.broadcast_spec (h : s.Tables) {clients : List (ℤ × Client)} {k : Kernel}
    (hcall : broadcast buf chunk refused s.clients s.kernel = (clients, k, ex)) :
    Broadcast buf chunk refused s.clients s.kernel clients k ex := by
  apply Server.broadcast_spec h.sorted _ hcall
  intro p hmem
  exact h.not_void ((client_eq_some_iff h.sorted).mpr hmem)

/-- The loop over the clients only adds to their queues. -/
theorem Broadcast.client_cases
    (h : Broadcast buf chunk refused s.clients s.kernel t.clients t.kernel ex)
    (hc : t.client fd = some c) : ∃ c₀, s.client fd = some c₀ ∧ c.socket = c₀.socket ∧
      (c.output = c₀.output ∨ c.output = c₀.output ++ [WriteTask.create buf chunk]) := by
  rw [h.client, Option.map_eq_some_iff] at hc
  obtain ⟨c₀, hc₀, rfl⟩ := hc
  refine ⟨c₀, hc₀, ?_⟩
  unfold served
  split
  · exact ⟨rfl, Or.inr rfl⟩
  · exact ⟨rfl, Or.inl rfl⟩

theorem Broadcast.hasOutput
    (h : Broadcast buf chunk refused s.clients s.kernel t.clients t.kernel ex)
    (hout : s.HasOutput fd) : t.HasOutput fd := by
  obtain ⟨c, hc, houtput⟩ := hout
  refine ⟨served buf chunk refused s.clients s.kernel fd c, by rw [h.client, hc]; rfl, ?_⟩
  unfold served
  split
  · exact List.append_ne_nil_of_right_ne_nil _ (List.cons_ne_nil _ _)
  · exact houtput

/-- A descriptor after the loop: it is as it was, or it is asked for `EPOLLOUT` and its client has a
new task. -/
theorem Broadcast.file_cases
    (h : Broadcast buf chunk refused s.clients s.kernel t.clients t.kernel ex)
    (hsorted : SortedMap.Sorted (· < ·) s.clients) {file : OpenFile}
    (hfile : t.kernel.files fd = some file) :
    s.kernel.files fd = some file ∨
      ∃ conn interest, s.kernel.files fd = some ⟨conn, some interest⟩ ∧
        file = ⟨conn, some .writing⟩ ∧ t.HasOutput fd := by
  by_cases hasked : ∃ p ∈ s.clients, p.1 = fd ∧ Reached s.clients s.kernel refused fd ∧
      s.kernel.Modifies refused fd
  · right
    obtain ⟨⟨fd, c⟩, hmem, rfl, hreached, hmod⟩ := hasked
    rw [h.asked _ hmem hreached hmod] at hfile
    obtain ⟨conn, interest, hfile₀, -⟩ := hmod
    rw [hfile₀] at hfile
    refine ⟨conn, interest, hfile₀, (Option.some.inj hfile).symm, ?_⟩
    refine ⟨c.push buf chunk, ?_, List.append_ne_nil_of_right_ne_nil _ (List.cons_ne_nil _ _)⟩
    rw [h.client, (client_eq_some_iff hsorted).mpr hmem]
    exact congrArg some (if_pos hreached)
  · left
    rw [← h.kept fd hasked]
    exact hfile

theorem Tables.broadcast (h : s.Tables)
    (hcall : Broadcast buf chunk refused s.clients s.kernel t.clients t.kernel ex)
    (hmaster : t.masterSocket = s.masterSocket) : t.Tables := by
  constructor
  · exact hcall.sorted h.sorted
  · intro fd c hc
    obtain ⟨c₀, hc₀, hsocket, -⟩ := hcall.client_cases hc
    rw [hsocket, hmaster]
    exact h.socket fd c₀ hc₀
  · intro fd file hfile
    have hclient : (∃ c, s.client fd = some c) → ∃ c, t.client fd = some c := by
      rintro ⟨c, hc⟩
      exact ⟨_, by rw [hcall.client, hc]; rfl⟩
    rcases hcall.file_cases h.sorted hfile with hsame | ⟨conn, interest, hfile₀, rfl, -⟩
    · obtain ⟨hc, hinterest⟩ := h.registered fd file hsame
      exact ⟨hclient hc, hinterest⟩
    · exact ⟨hclient (h.registered fd _ hfile₀).1, _, rfl⟩
  · intro fd conn interest hfile hout
    rcases hcall.file_cases h.sorted hfile with hsame | ⟨conn, interest, -, -, houtput⟩
    · exact hcall.hasOutput (h.asked fd conn interest hsame hout)
    · exact houtput

end Broadcast

theorem sound_initial (masterSocket : ℤ) : (initial masterSocket).Sound where
  sorted := List.Pairwise.nil
  socket fd c hc := by cases hc
  registered fd file hfile := by cases hfile
  asked fd conn interest hfile := by cases hfile
  fds := List.nodup_nil
  output e hmem := absurd hmem List.not_mem_nil

/-- The handler of the exceptions. -/
theorem Sound.caught (h : s.Sound) (hpending : s.pending = e :: rest) (ex : ChatException) :
    (s.caught ex).Sound := by
  have htables : (s.caught ex).Tables := by
    refine h.toTables.close rfl rfl fun fd file hfile ↦ ?_
    exact Kernel.files_of_files_close hfile
  have hbatch : (s.caught ex).Batch :=
    h.toBatch.next hpending (congrArg List.tail hpending) rfl fun _ _ hout ↦ hout
  exact { htables, hbatch with }

theorem Sound.next (h : s.Sound) (hpending : s.pending = e :: rest) : s.next.Sound := by
  have htables : s.next.Tables := h.toTables.close rfl rfl fun _ _ hfile ↦ hfile
  have hbatch : s.next.Batch :=
    h.toBatch.next hpending (congrArg List.tail hpending) rfl fun _ _ hout ↦ hout
  exact { htables, hbatch with }

theorem Sound.erase_next (h : s.Sound) (hpending : s.pending = e :: rest) :
    (s.erase e.fd).next.Sound := by
  have htables : (s.erase e.fd).next.Tables :=
    h.toTables.erase.close rfl rfl fun _ _ hfile ↦ hfile
  have hbatch : (s.erase e.fd).next.Batch := by
    refine h.toBatch.next hpending ?_ masterSocket_erase fun fd hne hout ↦ ?_
    · rw [Server.next, pending_erase, hpending]
      rfl
    · exact (hasOutput_congr rfl).mpr ((hasOutput_erase h.toTables hne).mpr hout)
  exact { htables, hbatch with }

theorem Sound.wait (h : s.Sound) {events : List Event} (hwait : s.wait events = some t) :
    t.Sound := by
  obtain ⟨hfds, hreports, rfl⟩ := wait_cases hwait
  refine { h.toTables.close rfl rfl fun _ _ hfile ↦ hfile with fds := hfds, output := ?_ }
  intro e hmem hout hne
  have hreport := (hreports e hmem).resolve_left hne
  unfold Kernel.Reports at hreport
  split at hreport
  · rename_i conn interest hfile
    exact h.asked e.fd conn interest hfile (hreport hout)
  · exact hreport.elim

/-- Only the descriptor of the client is changed by `flush`, and it is asked for `EPOLLOUT`
afterwards only with something left to write. -/
theorem Tables.flush_files (h : s.Tables) {k' : Kernel} {task : WriteTask}
    {tasks output : List WriteTask} (hflushed : Flushed s.kernel fd task tasks output k') :
    (∀ fd', fd' ≠ fd → k'.files fd' = s.kernel.files fd') ∧
      ∀ file, k'.files fd = some file →
        ∃ interest, file.interest = some interest ∧ (interest.epollOut = true → output ≠ []) := by
  have hclosed : ∀ {k : Kernel} {file : OpenFile}, (k.close fd).files fd ≠ some file := by
    intro k file hfile
    rw [Kernel.close, Kernel.files_setFile_self] at hfile
    cases hfile
  cases hflushed with
  | failed =>
      exact ⟨fun fd' hne ↦ Kernel.files_setFile_of_ne hne, fun file hfile ↦ absurd hfile hclosed⟩
  | more n k₁ hwrite hmore =>
      rw [Kernel.files_write hwrite]
      refine ⟨fun _ _ ↦ rfl, fun file hfile ↦ ?_⟩
      obtain ⟨-, interest, hinterest⟩ := h.registered fd file hfile
      exact ⟨interest, hinterest, fun _ ↦ hmore⟩
  | closed n k₁ hwrite =>
      rw [← Kernel.files_write hwrite]
      exact ⟨fun fd' hne ↦ Kernel.files_setFile_of_ne hne, fun file hfile ↦ absurd hfile hclosed⟩
  | disabled n k₁ k₂ refusal hwrite hmod =>
      rw [← Kernel.files_write hwrite]
      obtain ⟨conn, interest, -, -, rfl⟩ := Kernel.epollCtlMod_eq_some hmod
      refine ⟨fun fd' hne ↦ Kernel.files_setFile_of_ne hne, fun file hfile ↦ ?_⟩
      rw [Kernel.files_setFile_self] at hfile
      obtain rfl := Option.some.inj hfile
      exact ⟨_, rfl, fun hout ↦ by cases hout⟩

theorem hasOutput_setClient_of_ne (hne : fd' ≠ fd) :
    (s.setClient fd c).HasOutput fd' ↔ s.HasOutput fd' := by
  unfold HasOutput
  rw [client_setClient, if_neg hne]

theorem Sound.flush (h : s.Sound) (hpending : s.pending = e :: rest) {nWritten : Option ℕ}
    {refusal : Bool} (hflush : s.flush e.fd nWritten refusal = some t) : t.Sound := by
  obtain ⟨c, task, tasks, output, k', hc, houtput, rfl, hflushed⟩ :=
    flush_cases (fun c hc ↦ h.not_void hc) hflush
  obtain ⟨hothers, hfile⟩ := h.toTables.flush_files hflushed
  obtain ⟨hsocket, hfd⟩ := h.socket e.fd c hc
  have htables : Tables { s.setClient e.fd { c with output } with kernel := k' }.next :=
    h.toTables.set (c := { c with output }) hfd hsocket rfl rfl hothers hfile
  have hbatch : Batch { s.setClient e.fd { c with output } with kernel := k' }.next :=
    h.toBatch.next hpending (congrArg List.tail hpending) rfl fun fd hne hout ↦
      (hasOutput_setClient_of_ne hne).mpr hout
  exact { htables, hbatch with }

theorem Sound.accept (h : s.Sound) (hpending : s.pending = e :: rest) {infd : Option ℤ}
    {fcntlRefused ctlRefused : Bool}
    (haccept : s.accept infd fcntlRefused ctlRefused = some t) : t.Sound := by
  obtain ⟨-, rfl⟩ | ⟨fd, -, hnonneg, hmaster, hclosed, ⟨-, -, ht⟩ | ⟨-, ht⟩⟩ := accept_cases haccept
  · exact h.next hpending
  · have hclients : t.clients =
        (s.setClient fd ⟨fd, ((s.client fd).map Client.output).getD []⟩).clients := by
      rw [ht]
    have htables : t.Tables := by
      refine h.toTables.set ⟨hnonneg, hmaster⟩ rfl hclients (by rw [ht]; rfl) ?_ ?_
      · intro fd' hne
        rw [ht]
        exact Kernel.files_setFile_of_ne hne
      · intro file hfile
        rw [ht] at hfile
        obtain rfl := Option.some.inj (Kernel.files_setFile_self.symm.trans hfile)
        exact ⟨_, rfl, fun hout ↦ by cases hout⟩
    have hbatch : t.Batch := by
      refine h.toBatch.stay (by rw [ht]; rfl) (by rw [ht]; rfl) fun fd' hout ↦ ?_
      rw [hasOutput_congr hclients]
      by_cases heq : fd' = fd
      · -- the connection takes over what is left to write
        obtain ⟨c, hc, houtput⟩ := hout
        rw [← heq]
        exact ⟨_, by rw [client_setClient, if_pos rfl], by rw [hc]; exact houtput⟩
      · exact (hasOutput_setClient_of_ne heq).mpr hout
    exact { htables, hbatch with }
  · have hfiles : t.kernel.files = s.kernel.files := by
      rw [ht]
      rfl
    have htables : t.Tables := by
      refine h.toTables.close (by rw [ht]; rfl) (by rw [ht]; rfl) fun fd file hfile ↦ ?_
      rwa [hfiles] at hfile
    have hbatch : t.Batch := by
      refine h.toBatch.next hpending ?_ (by rw [ht]; rfl) fun fd _ hout ↦ ?_
      · rw [ht]
        exact congrArg List.tail hpending
      · exact (hasOutput_congr (by rw [ht]; rfl)).mpr hout
    exact { htables, hbatch with }

theorem Sound.read (h : s.Sound) (hpending : s.pending = e :: rest) {result : ReadResult}
    {refused : ℤ → Bool} (hread : s.read e.fd result refused = some t) : t.Sound := by
  obtain ⟨buf, clients, kernel, ex, -, -, hcall, hend⟩ | ⟨-, rfl⟩ | ⟨-, rfl⟩ := read_cases hread
  · have hbroadcast := h.toTables.broadcast_spec hcall
    have hsound : Sound { s with clients, kernel, chunks := s.chunks ++ [buf] } := by
      have htables : Tables { s with clients, kernel, chunks := s.chunks ++ [buf] } :=
        h.toTables.broadcast hbroadcast rfl
      have hbatch : Batch { s with clients, kernel, chunks := s.chunks ++ [buf] } :=
        h.toBatch.stay rfl rfl fun fd hout ↦ hbroadcast.hasOutput hout
      exact { htables, hbatch with }
    rcases hend with ⟨-, rfl⟩ | ⟨exc, -, rfl⟩
    · exact hsound
    · exact hsound.caught hpending exc
  · exact h.next hpending
  · exact h.erase_next hpending

theorem Sound.step (h : s.Sound) (hstep : Step s a t) : t.Sound := by
  cases hstep.handles with
  | wait events hempty hwait => exact h.wait hwait
  | error e rest hpending hbranch ht => exact ht ▸ h.erase_next hpending
  | flush e rest hpending hbranch nWritten refusal hflush => exact h.flush hpending hflush
  | accept e rest hpending hbranch infd fcntlRefused ctlRefused haccept =>
      exact h.accept hpending haccept
  | read e rest hpending hbranch result refused hread => exact h.read hpending hread

theorem sound_of_run {masterSocket : ℤ} {answers : List Answer}
    (hrun : Run Step (initial masterSocket) answers s) : s.Sound :=
  hrun.invariant (sound_initial masterSocket) fun _ _ _ h hstep ↦ h.step hstep

/-- The branch of `EPOLLOUT` finds its client in the map, with a task in the queue. -/
theorem Sound.hasOutput_of_branch (h : s.Sound) (hpending : s.pending = e :: rest)
    (hbranch : s.branch e = .flush) : s.HasOutput e.fd := by
  unfold branch at hbranch
  split at hbranch
  · cases hbranch
  · split at hbranch
    · rename_i hout
      rw [Bool.and_eq_true, decide_eq_true_eq] at hout
      exact h.output e (hpending ▸ List.mem_cons_self) hout.1 hout.2
    · split at hbranch <;> cases hbranch

end Server

end CppMtHw.ChatServer
