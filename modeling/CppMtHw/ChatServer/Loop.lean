import CppMtHw.ChatServer.Server

/-!
# What the steps of the loop do

The map of clients is seen through the client under a descriptor. Each branch of the loop
is described once, by the server it leaves.
-/

namespace CppMtHw.ChatServer

open Machine

def Kernel.Modifies (k : Kernel) (refused : ℤ → Bool) (fd : ℤ) : Prop :=
  ∃ conn interest, k.files fd = some ⟨conn, some interest⟩ ∧ refused fd = false

theorem Kernel.modifies_iff {k : Kernel} {fd : ℤ} {events : Events} {refused : ℤ → Bool} :
    k.Modifies refused fd ↔ ∃ k', k.epollCtlMod fd events (refused fd) = some k' := by
  constructor
  · intro h
    obtain ⟨conn, interest, hfile, hrefused⟩ := h
    unfold Kernel.epollCtlMod
    rw [hfile, hrefused]
    exact ⟨_, rfl⟩
  · intro h
    obtain ⟨k', hmod⟩ := h
    obtain ⟨conn, interest, hfile, hrefused, -⟩ := Kernel.epollCtlMod_eq_some hmod
    exact ⟨conn, interest, hfile, hrefused⟩

instance (k : Kernel) (refused : ℤ → Bool) (fd : ℤ) : Decidable (k.Modifies refused fd) :=
  decidable_of_iff (k.epollCtlMod fd .writing (refused fd)).isSome
    (Option.isSome_iff_exists.trans Kernel.modifies_iff.symm)

/-- A change of what is asked for under one descriptor makes no other change fail. -/
theorem Kernel.modifies_of_mod {k k' : Kernel} {fd fd' : ℤ} {events : Events} {refusal : Bool}
    {refused : ℤ → Bool} (h : k.epollCtlMod fd events refusal = some k') :
    k'.Modifies refused fd' ↔ k.Modifies refused fd' := by
  obtain ⟨conn, interest, hfile, -, rfl⟩ := Kernel.epollCtlMod_eq_some h
  unfold Kernel.Modifies
  by_cases hfd : fd' = fd
  · subst hfd
    simp [hfile]
  · rw [Kernel.files_setFile_of_ne hfd]

def Client.push (c : Client) (buf : List UInt8) (chunk : ℕ) : Client :=
  { c with output := c.output ++ [WriteTask.create buf chunk] }

namespace Server

variable {s t : Server} {fd fd' : ℤ} {c : Client} {e : Event} {refused : ℤ → Bool}

/-! ## The map of clients -/

theorem client_setClient :
    (s.setClient fd c).client fd' = if fd' = fd then some c else s.client fd' :=
  SortedMap.map_snd_find_insert

theorem client_eq_some_iff (h : SortedMap.Sorted (· < ·) s.clients) :
    s.client fd = some c ↔ (fd, c) ∈ s.clients := SortedMap.map_snd_find_eq_some_iff h

theorem client_erase (h : SortedMap.Sorted (· < ·) s.clients) :
    (s.erase fd).client fd' = if fd' = fd then none else s.client fd' := by
  unfold erase
  split
  · rename_i hnone
    split
    · rename_i heq
      rw [heq, hnone]
    · rfl
  · exact SortedMap.map_snd_find_erase h

theorem sorted_erase (h : SortedMap.Sorted (· < ·) s.clients) :
    SortedMap.Sorted (· < ·) (s.erase fd).clients := by
  unfold erase
  split
  · exact h
  · exact SortedMap.sorted_erase h

/-! ## The loop over the clients -/

section Broadcast

variable {clients clients' : List (ℤ × Client)} {k k' : Kernel} {ex : Option ChatException}
  {buf : List UInt8} {chunk : ℕ}

/-- The loop gets to the client under `fd`: no call for a client before it fails. -/
def Reached (clients : List (ℤ × Client)) (k : Kernel) (refused : ℤ → Bool) (fd : ℤ) : Prop :=
  ∀ p ∈ clients, p.1 < fd → k.Modifies refused p.1

instance (clients : List (ℤ × Client)) (k : Kernel) (refused : ℤ → Bool) (fd : ℤ) :
    Decidable (Reached clients k refused fd) :=
  inferInstanceAs (Decidable (∀ p ∈ clients, p.1 < fd → k.Modifies refused p.1))

def served (buf : List UInt8) (chunk : ℕ) (refused : ℤ → Bool) (clients : List (ℤ × Client))
    (k : Kernel) (fd : ℤ) (c : Client) : Client :=
  if Reached clients k refused fd then c.push buf chunk else c

/-- What the loop over the clients leaves. -/
structure Broadcast (buf : List UInt8) (chunk : ℕ) (refused : ℤ → Bool)
    (clients : List (ℤ × Client)) (k : Kernel) (clients' : List (ℤ × Client)) (k' : Kernel)
    (ex : Option ChatException) : Prop where
  map : clients' = clients.map fun p ↦ (p.1, served buf chunk refused clients k p.1 p.2)
  asked : ∀ p ∈ clients, Reached clients k refused p.1 → k.Modifies refused p.1 →
    k'.files p.1 = (k.files p.1).map fun file ↦ { file with interest := some .writing }
  kept : ∀ fd, ¬(∃ p ∈ clients, p.1 = fd ∧ Reached clients k refused fd ∧ k.Modifies refused fd) →
    k'.files fd = k.files fd
  conns : k'.conns = k.conns
  sent : k'.sent = k.sent
  returned : ex = none → ∀ p ∈ clients, k.Modifies refused p.1
  thrown : ∀ exc, ex = some exc → ∃ p ∈ clients, exc.socketFd = p.1 ∧ ¬k.Modifies refused p.1

theorem reached_cons {fd' : ℤ} (hlt : ∀ q ∈ clients, fd < q.1) (hle : fd ≤ fd') :
    Reached ((fd, c) :: clients) k refused fd' ↔
      fd' = fd ∨ k.Modifies refused fd ∧ Reached clients k refused fd' := by
  unfold Reached
  rcases eq_or_lt_of_le hle with rfl | hfd
  · refine iff_of_true ?_ (Or.inl rfl)
    intro p hmem hpfd
    rcases List.mem_cons.mp hmem with rfl | hmem
    · exact absurd hpfd (lt_irrefl _)
    · exact absurd hpfd (hlt p hmem).asymm
  · rw [List.forall_mem_cons, or_iff_right (ne_of_gt hfd)]
    exact and_congr_left' ⟨fun h ↦ h hfd, fun h _ ↦ h⟩

/-- The loop ends with the first call that fails. -/
theorem Broadcast.stop (hlt : ∀ q ∈ clients, fd < q.1) (hmod : ¬k.Modifies refused fd)
    {exc : ChatException} (hexc : exc.socketFd = fd) :
    Broadcast buf chunk refused ((fd, c) :: clients) k ((fd, c.push buf chunk) :: clients) k
      (some exc) := by
  have hself : Reached ((fd, c) :: clients) k refused fd :=
    (reached_cons hlt le_rfl).mpr (Or.inl rfl)
  have hbehind : ∀ q ∈ clients, ¬Reached ((fd, c) :: clients) k refused q.1 := by
    intro q hmem hreached
    exact hmod (hreached (fd, c) List.mem_cons_self (hlt q hmem))
  have hnone : ∀ fd', ¬∃ p ∈ (fd, c) :: clients, p.1 = fd' ∧
      Reached ((fd, c) :: clients) k refused fd' ∧ k.Modifies refused fd' := by
    intro fd' hexists
    obtain ⟨p, hmem, rfl, hreached, hmodifies⟩ := hexists
    rcases List.mem_cons.mp hmem with rfl | hmem
    · exact hmod hmodifies
    · exact hbehind p hmem hreached
  constructor
  · have hsame : clients.map id = clients.map fun p ↦
        (p.1, served buf chunk refused ((fd, c) :: clients) k p.1 p.2) := by
      apply List.map_congr_left
      intro q hmem
      rw [served, if_neg (hbehind q hmem), id_eq]
    rw [List.map_cons, served, if_pos hself, ← hsame, List.map_id]
  · intro p hmem hreached hmodifies
    exact absurd ⟨p, hmem, rfl, hreached, hmodifies⟩ (hnone p.1)
  · intro fd' _
    rfl
  · rfl
  · rfl
  · intro h
    cases h
  · intro exc' h
    cases h
    exact ⟨(fd, c), List.mem_cons_self, hexc, hmod⟩

/-- The loop goes on after a call that succeeds. -/
theorem Broadcast.go {k₁ : Kernel} (hlt : ∀ q ∈ clients, fd < q.1)
    (hmod : k.epollCtlMod fd .writing (refused fd) = some k₁)
    (h : Broadcast buf chunk refused clients k₁ clients' k' ex) :
    Broadcast buf chunk refused ((fd, c) :: clients) k
      ((fd, c.push buf chunk) :: clients') k' ex := by
  have hfd : k.Modifies refused fd := Kernel.modifies_iff.mpr ⟨k₁, hmod⟩
  have hmodifies : ∀ fd', k₁.Modifies refused fd' ↔ k.Modifies refused fd' :=
    fun fd' ↦ Kernel.modifies_of_mod hmod
  have hself : Reached ((fd, c) :: clients) k refused fd :=
    (reached_cons hlt le_rfl).mpr (Or.inl rfl)
  have hbehind : ∀ q ∈ clients,
      Reached ((fd, c) :: clients) k refused q.1 ↔ Reached clients k₁ refused q.1 := by
    intro q hmem
    rw [reached_cons hlt (hlt q hmem).le, or_iff_right (ne_of_gt (hlt q hmem)), and_iff_right hfd]
    simp only [Reached, hmodifies]
  have hnot : ∀ fd', fd' = fd → ¬∃ p ∈ clients, p.1 = fd' ∧ Reached clients k₁ refused fd' ∧
      k₁.Modifies refused fd' := by
    intro fd' heq hexists
    obtain ⟨p, hmem, rfl, -⟩ := hexists
    exact absurd heq (ne_of_gt (hlt p hmem))
  obtain ⟨conn, interest, hfile, -, hk₁⟩ := Kernel.epollCtlMod_eq_some hmod
  constructor
  · rw [List.map_cons, served, if_pos hself, h.map]
    congr 1
    apply List.map_congr_left
    intro q hmem
    simp only [served, hbehind q hmem]
  · intro p hmem hreached hmodp
    rcases List.mem_cons.mp hmem with rfl | hmem
    · rw [h.kept fd (hnot fd rfl), hk₁, Kernel.files_setFile_self, hfile]
      rfl
    · rw [h.asked p hmem ((hbehind p hmem).mp hreached) ((hmodifies p.1).mpr hmodp), hk₁,
        Kernel.files_setFile_of_ne (ne_of_gt (hlt p hmem))]
  · intro fd' hnone
    have hne : fd' ≠ fd := by
      rintro rfl
      exact hnone ⟨_, List.mem_cons_self, rfl, hself, hfd⟩
    rw [h.kept fd', hk₁, Kernel.files_setFile_of_ne hne]
    rintro ⟨p, hmem, rfl, hreached, hmodp⟩
    exact hnone ⟨p, List.mem_cons_of_mem _ hmem, rfl, (hbehind p hmem).mpr hreached,
      (hmodifies p.1).mp hmodp⟩
  · rw [h.conns, hk₁, Kernel.conns_setFile]
  · rw [h.sent, hk₁, Kernel.sent_setFile]
  · intro hnone p hmem
    rcases List.mem_cons.mp hmem with rfl | hmem
    · exact hfd
    · exact (hmodifies p.1).mp (h.returned hnone p hmem)
  · intro exc hexc
    obtain ⟨p, hmem, hsocket, hmodp⟩ := h.thrown exc hexc
    exact ⟨p, List.mem_cons_of_mem _ hmem, hsocket, fun hp ↦ hmodp ((hmodifies p.1).mpr hp)⟩

theorem broadcast_spec (hsorted : SortedMap.Sorted (· < ·) clients)
    (hsocket : ∀ p ∈ clients, p.2.socket = p.1 ∧ p.1 ≠ voidSocket)
    (h : broadcast buf chunk refused clients k = (clients', k', ex)) :
    Broadcast buf chunk refused clients k clients' k' ex := by
  induction clients generalizing k clients' k' ex with
  | nil =>
      simp only [broadcast, Prod.mk.injEq] at h
      obtain ⟨rfl, rfl, rfl⟩ := h
      constructor <;> simp
  | cons p rest ih =>
      obtain ⟨fd, c⟩ := p
      obtain ⟨hlt, hrest⟩ := List.pairwise_cons.mp hsorted
      obtain ⟨hc, hvoid⟩ := hsocket (fd, c) List.mem_cons_self
      have hsocket' : ∀ p ∈ rest, p.2.socket = p.1 ∧ p.1 ≠ voidSocket :=
        fun p hmem ↦ hsocket p (List.mem_cons_of_mem _ hmem)
      rcases hcall : c.writeOut k buf chunk (refused fd) with ⟨c₁, k₁, ex₁⟩
      simp only [broadcast, hcall] at h
      obtain ⟨rfl, ⟨hmod, rfl, message, rfl⟩ | ⟨hmod, rfl⟩⟩ :=
        Client.writeOut_cases (hc ▸ hvoid) hcall
      · simp only [Prod.mk.injEq] at h
        obtain ⟨rfl, rfl, rfl⟩ := h
        apply Broadcast.stop hlt
        · intro hmodifies
          obtain ⟨k₂, hmod'⟩ := Kernel.modifies_iff.mp hmodifies
          rw [hc, hmod'] at hmod
          cases hmod
        · exact hc
      · rcases hrec : broadcast buf chunk refused rest k₁ with ⟨rest', k₂, ex₂⟩
        simp only [hrec, Prod.mk.injEq] at h
        obtain ⟨rfl, rfl, rfl⟩ := h
        rw [show c.socket = fd from hc] at hmod
        exact Broadcast.go hlt hmod (ih hrest hsocket' hrec)

/-- The client under a descriptor after the loop. -/
theorem Broadcast.client (h : Broadcast buf chunk refused s.clients s.kernel t.clients k' ex) :
    t.client fd = (s.client fd).map (served buf chunk refused s.clients s.kernel fd) := by
  unfold Server.client
  rw [h.map]
  exact SortedMap.map_snd_find_map _

theorem Broadcast.sorted (h : Broadcast buf chunk refused clients k clients' k' ex)
    (hsorted : SortedMap.Sorted (· < ·) clients) : SortedMap.Sorted (· < ·) clients' := by
  rw [h.map]
  exact SortedMap.sorted_map _ hsorted

end Broadcast

/-! ## The branches -/

theorem wait_cases {events : List Event} (h : s.wait events = some t) :
    (events.map Event.fd).Nodup ∧ (∀ e ∈ events, e.fd = s.masterSocket ∨ s.kernel.Reports e) ∧
      t = { s with pending := events } := by
  unfold wait at h
  split at h
  · rename_i hbatch
    exact ⟨hbatch.2.1, hbatch.2.2, (Option.some.inj h).symm⟩
  · cases h

/-- The queue and the kernel after `flush`: `write` fails, it leaves something to write, or it
leaves nothing, in which case `EPOLLOUT` is disabled or, failing that, the socket closed. -/
inductive Flushed (k : Kernel) (fd : ℤ) (task : WriteTask) (tasks : List WriteTask) :
    List WriteTask → Kernel → Prop
  | failed : Flushed k fd task tasks (task :: tasks) (k.close fd)
  | more (n : ℕ) (k₁ : Kernel) (hwrite : k.write fd task.rest n = some k₁)
      (hmore : Client.afterWrite task tasks n ≠ []) :
      Flushed k fd task tasks (Client.afterWrite task tasks n) k₁
  | closed (n : ℕ) (k₁ : Kernel) (hwrite : k.write fd task.rest n = some k₁) :
      Flushed k fd task tasks [] (k₁.close fd)
  | disabled (n : ℕ) (k₁ k₂ : Kernel) (refusal : Bool) (hwrite : k.write fd task.rest n = some k₁)
      (hmod : k₁.epollCtlMod fd .reading refusal = some k₂) : Flushed k fd task tasks [] k₂

theorem flush_cases {nWritten : Option ℕ} {refusal : Bool}
    (hsocket : ∀ c, s.client fd = some c → c.socket = fd ∧ fd ≠ voidSocket)
    (h : s.flush fd nWritten refusal = some t) :
    ∃ c task tasks output k', s.client fd = some c ∧ c.output = task :: tasks ∧
      t = { s.setClient fd { c with output } with kernel := k' }.next ∧
      Flushed s.kernel fd task tasks output k' := by
  obtain ⟨c, hc, h⟩ := Option.bind_eq_some_iff.mp h
  obtain ⟨⟨c', k₂, ex⟩, hflush, h⟩ := Option.bind_eq_some_iff.mp h
  obtain ⟨rfl, hvoid⟩ := hsocket c hc
  obtain ⟨task, tasks, houtput, ⟨-, rfl, rfl, message, rfl⟩ | ⟨n, k₁, -, hwrite, hend⟩⟩ :=
    Client.flush_cases hvoid hflush
  · refine ⟨_, task, tasks, _, _, hc, houtput, ?_, Flushed.failed⟩
    rw [← houtput]
    exact (Option.some.inj h).symm
  · obtain ⟨rfl, ⟨hmore, rfl, rfl⟩ | ⟨hempty, -, rfl, message, rfl⟩ | ⟨hempty, hmod, rfl⟩⟩ :=
      Client.disableOut_cases hend
    · exact ⟨c, task, tasks, _, _, hc, houtput, (Option.some.inj h).symm,
        Flushed.more n _ hwrite hmore⟩
    · refine ⟨c, task, tasks, [], _, hc, houtput, ?_, Flushed.closed n _ hwrite⟩
      exact hempty ▸ (Option.some.inj h).symm
    · refine ⟨c, task, tasks, [], _, hc, houtput, ?_, Flushed.disabled n k₁ _ refusal hwrite hmod⟩
      exact hempty ▸ (Option.some.inj h).symm

/-- A connection that is accepted takes the place of the client under its descriptor and keeps the
queue; if it cannot be set up nothing but its number is left of it. -/
theorem accept_cases {infd : Option ℤ} {fcntlRefused ctlRefused : Bool}
    (h : s.accept infd fcntlRefused ctlRefused = some t) :
    infd = none ∧ t = s.next ∨
      ∃ fd, infd = some fd ∧ 0 ≤ fd ∧ fd ≠ s.masterSocket ∧ s.kernel.files fd = none ∧
        (fcntlRefused = false ∧ ctlRefused = false ∧
            t = { s.setClient fd ⟨fd, ((s.client fd).map Client.output).getD []⟩ with
              kernel := { s.kernel.setFile fd (some ⟨s.kernel.conns, some .edgeTriggered⟩) with
                conns := s.kernel.conns + 1 }
              since := Function.update s.since s.kernel.conns s.chunks.length } ∨
          (fcntlRefused || ctlRefused) = true ∧
            t = { s with
              kernel := { s.kernel with conns := s.kernel.conns + 1 }
              since := Function.update s.since s.kernel.conns s.chunks.length }.next) := by
  cases infd with
  | none => exact Or.inl ⟨rfl, (Option.some.inj h).symm⟩
  | some fd =>
      right
      simp only [accept] at h
      split at h
      · cases h
      · rename_i hfd
        obtain ⟨hneg, hmaster⟩ := not_or.mp hfd
        obtain ⟨k, hk, h⟩ := Option.bind_eq_some_iff.mp h
        obtain ⟨hclosed, rfl⟩ := Kernel.accept_eq_some hk
        refine ⟨fd, rfl, not_lt.mp hneg, hmaster, hclosed, ?_⟩
        have hvoid : fd ≠ voidSocket := fun hvoid ↦ hneg (hvoid ▸ by decide)
        have hfile : Kernel.files { s.kernel.setFile fd (some ⟨s.kernel.conns, none⟩) with
            conns := s.kernel.conns + 1 } fd = some ⟨s.kernel.conns, none⟩ :=
          Kernel.files_setFile_self
        rcases hcreate : Client.create { s.kernel.setFile fd (some ⟨s.kernel.conns, none⟩) with
            conns := s.kernel.conns + 1 } fd fcntlRefused ctlRefused with ⟨out, k'⟩
        rw [hcreate] at h
        obtain ⟨hfcntl, hctl, rfl, rfl⟩ | ⟨hrefused, rfl, exc, rfl, rfl⟩ :=
          Client.create_cases hvoid hfile hcreate
        · refine Or.inl ⟨hfcntl, hctl, (Option.some.inj h).symm.trans ?_⟩
          have hassign : ((s.client fd).getD .blank).assign ⟨fd, []⟩ =
              ⟨fd, ((s.client fd).map Client.output).getD []⟩ := by
            cases s.client fd <;> rfl
          simp only [hassign, Kernel.setFile, Function.update_idem, setClient]
        · refine Or.inr ⟨hrefused, (Option.some.inj h).symm.trans ?_⟩
          have hundone : Kernel.close
              { s.kernel.setFile exc.socketFd (some ⟨s.kernel.conns, none⟩) with
              conns := s.kernel.conns + 1 } exc.socketFd =
                { s.kernel with conns := s.kernel.conns + 1 } :=
            Kernel.close_setFile_of_eq_none
              (k := { s.kernel with conns := s.kernel.conns + 1 }) hclosed
          have hagain : Kernel.close { s.kernel with conns := s.kernel.conns + 1 } exc.socketFd =
              { s.kernel with conns := s.kernel.conns + 1 } := Kernel.close_of_eq_none hclosed
          simp only [caught, hundone, hagain]

/-- A chunk goes through the loop over the clients; the other results of `read` end the branch. -/
theorem read_cases {result : ReadResult} (h : s.read fd result refused = some t) :
    (∃ buf clients kernel ex, result = .data buf ∧ s.kernel.IsOpen fd ∧
        broadcast buf s.chunks.length refused s.clients s.kernel = (clients, kernel, ex) ∧
        (ex = none ∧ t = { s with clients, kernel, chunks := s.chunks ++ [buf] } ∨
          ∃ exc, ex = some exc ∧
            t = { s with clients, kernel, chunks := s.chunks ++ [buf] }.caught exc)) ∨
      result = .again ∧ t = s.next ∨
      (result = .eof ∨ result = .error) ∧ t = (s.erase fd).next := by
  cases result with
  | data buf =>
      simp only [read] at h
      split at h
      · rename_i hbuf
        rcases hcall : broadcast buf s.chunks.length refused s.clients s.kernel with
          ⟨clients, kernel, ex⟩
        rw [hcall] at h
        refine Or.inl ⟨buf, clients, kernel, ex, rfl, hbuf.1, hcall, ?_⟩
        cases ex with
        | none => exact Or.inl ⟨rfl, (Option.some.inj h).symm⟩
        | some exc => exact Or.inr ⟨exc, rfl, (Option.some.inj h).symm⟩
      · cases h
  | again =>
      simp only [read, Option.ite_none_right_eq_some, Option.some.injEq] at h
      exact Or.inr (Or.inl ⟨rfl, h.2.symm⟩)
  | eof =>
      simp only [read, Option.ite_none_right_eq_some, Option.some.injEq] at h
      exact Or.inr (Or.inr ⟨Or.inl rfl, h.2.symm⟩)
  | error => exact Or.inr (Or.inr ⟨Or.inr rfl, (Option.some.inj h).symm⟩)

/-- The steps by the answer: a batch when there is none, else what the branch of the first event
waits for. -/
inductive Handles (s t : Server) : Answer → Prop
  | wait (events : List Event) (hempty : s.pending = []) (hwait : s.wait events = some t) :
      Handles s t (.wait events)
  | error (e : Event) (rest : List Event) (hpending : s.pending = e :: rest)
      (hbranch : s.branch e = .error) (ht : t = (s.erase e.fd).next) : Handles s t .none
  | flush (e : Event) (rest : List Event) (hpending : s.pending = e :: rest)
      (hbranch : s.branch e = .flush) (nWritten : Option ℕ) (refusal : Bool)
      (hflush : s.flush e.fd nWritten refusal = some t) : Handles s t (.write nWritten refusal)
  | accept (e : Event) (rest : List Event) (hpending : s.pending = e :: rest)
      (hbranch : s.branch e = .accept) (infd : Option ℤ) (fcntlRefused ctlRefused : Bool)
      (haccept : s.accept infd fcntlRefused ctlRefused = some t) :
      Handles s t (.accept infd fcntlRefused ctlRefused)
  | read (e : Event) (rest : List Event) (hpending : s.pending = e :: rest)
      (hbranch : s.branch e = .read) (result : ReadResult) (refused : ℤ → Bool)
      (hread : s.read e.fd result refused = some t) : Handles s t (.read result refused)

theorem Step.handles {a : Answer} (h : Step s a t) : Handles s t a := by
  unfold Step exec at h
  split at h
  · rename_i hempty
    split at h
    · exact .wait _ hempty h
    · cases h
  · rename_i e rest hpending
    split at h
    · rename_i hbranch
      exact .error e rest hpending hbranch (Option.some.inj h).symm
    · rename_i hbranch
      exact .flush e rest hpending hbranch _ _ h
    · rename_i hbranch
      exact .accept e rest hpending hbranch _ _ _ h
    · rename_i hbranch
      exact .read e rest hpending hbranch _ _ h
    · cases h

end Server

end CppMtHw.ChatServer
