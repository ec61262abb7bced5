import CppMtHw.ChatServer.Broadcast

/-!
# What is asked for and what is left to write

A descriptor that is registered for `EPOLLOUT` belongs to a client with something left to
write, also while events of an earlier `epoll_wait` are handled, so `flush` finds a task.
As long as no call fails, no client is without its descriptor. Then the converse holds as
well: `write_out` asks for `EPOLLOUT`, and `flush` stops asking only when the queue is empty.
-/

namespace CppMtHw.ChatServer

open Machine

/-- No call fails; `EAGAIN` is no failure. -/
def Answer.Succeeds : Answer → Prop
  | .wait _ => True
  | .none => True
  | .write nWritten refused => nWritten ≠ Option.none ∧ refused = false
  | .accept _ fcntlRefused ctlRefused => fcntlRefused = false ∧ ctlRefused = false
  | .read result refused => result ≠ .error ∧ ∀ fd, refused fd = false

namespace Server

variable {s t : Server} {fd fd' : ℤ} {c : Client} {e : Event} {rest : List Event} {masterSocket : ℤ}
  {answers : List Answer} {a : Answer}

def Registered (s : Server) : Prop :=
  ∀ fd c, s.client fd = some c → ∃ conn interest, s.kernel.files fd = some ⟨conn, some interest⟩ ∧
    (c.output ≠ [] → interest = .writing)

theorem registered_initial (masterSocket : ℤ) : (initial masterSocket).Registered := by
  intro fd c hc
  cases hc

theorem Registered.congr (h : s.Registered) (hclients : t.clients = s.clients)
    (hfiles : t.kernel.files = s.kernel.files) : t.Registered := by
  intro fd c hc
  rw [client_congr hclients] at hc
  rw [hfiles]
  exact h fd c hc

theorem Registered.modifies (h : s.Registered) (hc : s.client fd = some c) {refused : ℤ → Bool}
    (hrefused : refused fd = false) : s.kernel.Modifies refused fd := by
  obtain ⟨conn, interest, hfile, -⟩ := h fd c hc
  exact ⟨conn, interest, hfile, hrefused⟩

theorem Registered.erase (h : s.Registered) (htables : s.Tables) : (s.erase fd).Registered := by
  intro fd' c hc
  rw [client_erase htables.sorted] at hc
  split at hc
  · cases hc
  · rename_i hne
    rw [htables.files_erase, if_neg hne]
    exact h fd' c hc

/-- A client is stored together with its descriptor. -/
theorem Registered.set (h : s.Registered) (hclients : t.clients = (s.setClient fd c).clients)
    (hothers : ∀ fd', fd' ≠ fd → t.kernel.files fd' = s.kernel.files fd')
    (hfile : ∃ conn interest, t.kernel.files fd = some ⟨conn, some interest⟩ ∧
      (c.output ≠ [] → interest = .writing)) : t.Registered := by
  intro fd' c' hc'
  rw [client_congr hclients, client_setClient] at hc'
  split at hc'
  · rename_i heq
    obtain rfl := Option.some.inj hc'
    exact heq ▸ hfile
  · rename_i hne
    rw [hothers fd' hne]
    exact h fd' c' hc'

/-- `flush` asks for `EPOLLOUT` no longer if nothing is left to write. -/
theorem Registered.flush (h : s.Registered) (htables : s.Tables) {n : ℕ}
    (hflush : s.flush fd (some n) false = some t) : t.Registered := by
  obtain ⟨c, hc, hflush⟩ := Option.bind_eq_some_iff.mp hflush
  obtain ⟨⟨c', k', ex⟩, hcall, ht⟩ := Option.bind_eq_some_iff.mp hflush
  obtain ⟨rfl, hvoid⟩ := htables.not_void hc
  obtain ⟨conn, interest, hfile, hasks⟩ := h c.socket c hc
  obtain ⟨task, tasks, houtput, ⟨hfailed, -⟩ | ⟨n, k₁, -, hwrite, hend⟩⟩ :=
    Client.flush_cases hvoid hcall
  · cases hfailed
  have hfiles := Kernel.files_write hwrite
  obtain ⟨rfl, ⟨hmore, rfl, rfl⟩ | ⟨-, hmod, -⟩ | ⟨hempty, hmod, rfl⟩⟩ :=
    Client.disableOut_cases hend
  · obtain rfl := Option.some.inj ht
    refine h.set rfl (fun fd' _ ↦ congrFun hfiles fd') ⟨conn, interest, ?_, fun _ ↦ hasks ?_⟩
    · exact (congrFun hfiles c.socket).trans hfile
    · exact houtput ▸ List.cons_ne_nil task tasks
  · -- the descriptor is registered, so the call does not fail
    have hmodifies : k₁.Modifies (fun _ ↦ false) c.socket :=
      ⟨conn, interest, (congrFun hfiles c.socket).trans hfile, rfl⟩
    have hsucceeds : ∃ k₂, k₁.epollCtlMod c.socket .reading false = some k₂ :=
      Kernel.modifies_iff.mp hmodifies
    obtain ⟨k₂, hk₂⟩ := hsucceeds
    rw [hk₂] at hmod
    cases hmod
  · obtain rfl := Option.some.inj ht
    obtain ⟨conn', interest', -, -, rfl⟩ := Kernel.epollCtlMod_eq_some hmod
    refine h.set rfl (fun fd' hne ↦ ?_) ⟨conn', .reading, Kernel.files_setFile_self, fun hmore ↦ ?_⟩
    · exact (Kernel.files_setFile_of_ne hne).trans (congrFun hfiles fd')
    · exact absurd hempty hmore

/-- A new connection gets a descriptor that no client has, so its queue is empty. -/
theorem Registered.accept (h : s.Registered) {infd : Option ℤ} {fcntlRefused ctlRefused : Bool}
    (haccept : s.accept infd fcntlRefused ctlRefused = some t) : t.Registered := by
  obtain ⟨-, rfl⟩ | ⟨fd, -, -, -, hclosed, ⟨-, -, ht⟩ | ⟨-, ht⟩⟩ := accept_cases haccept
  · exact h.congr rfl rfl
  · have hfree : s.client fd = none := by
      cases hc : s.client fd with
      | none => rfl
      | some c =>
          obtain ⟨conn, interest, hfile, -⟩ := h fd c hc
          rw [hclosed] at hfile
          cases hfile
    rw [hfree] at ht
    rw [ht]
    refine h.set rfl (fun fd' hne ↦ Kernel.files_setFile_of_ne hne)
      ⟨_, _, Kernel.files_setFile_self, ?_⟩
    exact fun hmore ↦ absurd rfl hmore
  · rw [ht]
    exact h.congr rfl rfl

/-- A chunk that is read goes to every client, and every client is registered for `EPOLLOUT`. -/
theorem Registered.broadcast (h : s.Registered) (htables : s.Tables) {buf : List UInt8} {chunk : ℕ}
    {refused : ℤ → Bool} {ex : Option ChatException} (hrefused : ∀ fd, refused fd = false)
    (hcall : Broadcast buf chunk refused s.clients s.kernel t.clients t.kernel ex) :
    ex = none ∧ t.Registered := by
  have hmodifies : ∀ p ∈ s.clients, s.kernel.Modifies refused p.1 := fun p hmem ↦
    h.modifies ((client_eq_some_iff htables.sorted).mpr hmem) (hrefused p.1)
  constructor
  · cases ex with
    | none => rfl
    | some exc =>
        obtain ⟨p, hmem, -, hfails⟩ := hcall.thrown exc rfl
        exact absurd (hmodifies p hmem) hfails
  · intro fd c hc
    obtain ⟨c₀, hc₀, -, -⟩ := hcall.client_cases hc
    obtain ⟨conn, interest, hfile, -⟩ := h fd c₀ hc₀
    have hmem := (client_eq_some_iff htables.sorted).mp hc₀
    have hasked := hcall.asked (fd, c₀) hmem (fun p hp _ ↦ hmodifies p hp) (hmodifies _ hmem)
    rw [hfile] at hasked
    exact ⟨conn, .writing, hasked, fun _ ↦ rfl⟩

theorem Registered.read (h : s.Registered) (htables : s.Tables) {result : ReadResult}
    {refused : ℤ → Bool} (hrefused : ∀ fd, refused fd = false)
    (hread : s.read fd result refused = some t) : t.Registered := by
  obtain ⟨buf, clients, kernel, ex, -, -, hcall, hend⟩ | ⟨-, rfl⟩ | ⟨-, rfl⟩ := read_cases hread
  · obtain ⟨rfl, hregistered⟩ :=
      h.broadcast (t := { s with clients, kernel, chunks := s.chunks ++ [buf] })
        htables hrefused (htables.broadcast_spec hcall)
    rcases hend with ⟨-, rfl⟩ | ⟨exc, hexc, -⟩
    · exact hregistered
    · cases hexc
  · exact h.congr rfl rfl
  · exact (h.erase htables).congr rfl rfl

theorem Registered.step (h : s.Registered) (hsound : s.Sound) (hok : a.Succeeds)
    (hstep : Step s a t) : t.Registered := by
  cases hstep.handles with
  | wait events hempty hwait =>
      obtain ⟨-, -, rfl⟩ := wait_cases hwait
      exact h.congr rfl rfl
  | error e rest hpending hbranch ht => exact ht ▸ (h.erase hsound.toTables).congr rfl rfl
  | flush e rest hpending hbranch nWritten refusal hflush =>
      obtain ⟨hwritten, rfl⟩ := hok
      obtain ⟨n, rfl⟩ := Option.ne_none_iff_exists'.mp hwritten
      exact h.flush hsound.toTables hflush
  | accept e rest hpending hbranch infd fcntlRefused ctlRefused haccept => exact h.accept haccept
  | read e rest hpending hbranch result refused hread => exact h.read hsound.toTables hok.2 hread

theorem registered_of_run (hrun : Run (Guarded (fun _ a ↦ a.Succeeds) Step)
      (initial masterSocket) answers s) :
    s.Registered := by
  have hinv : s.Sound ∧ s.Registered := by
    refine hrun.invariant (P := fun s ↦ s.Sound ∧ s.Registered)
      ⟨sound_initial masterSocket, registered_initial masterSocket⟩ ?_
    intro s a t h hstep
    exact ⟨h.1.step hstep.2, h.2.step h.1 hstep.1 hstep.2⟩
  exact hinv.2

/-- In every reachable state a descriptor that is registered for `EPOLLOUT` belongs to a client in
the map with something left to write, and so does one for which `flush` is called, whatever has
happened since the events were collected. In a run in which no call fails, every client with
something left to write is registered for `EPOLLOUT`, and not edge-triggered. -/
theorem epollout_tracks_output (masterSocket : ℤ) (answers : List Answer) (s : Server) :
    (Run Step (initial masterSocket) answers s →
      (∀ fd conn interest, s.kernel.files fd = some ⟨conn, some interest⟩ →
        interest.epollOut = true → ∃ c, s.client fd = some c ∧ c.socket = fd ∧ c.output ≠ []) ∧
      ∀ e rest, s.pending = e :: rest → s.branch e = .flush →
        ∃ c, s.client e.fd = some c ∧ c.socket = e.fd ∧ c.output ≠ []) ∧
    (Run (Guarded (fun _ a ↦ a.Succeeds) Step) (initial masterSocket) answers s →
      ∀ fd c, s.client fd = some c → c.output ≠ [] →
        ∃ conn, s.kernel.files fd = some ⟨conn, some .writing⟩) := by
  constructor
  · intro hrun
    have hsound := sound_of_run hrun
    have hclient : ∀ fd, s.HasOutput fd → ∃ c, s.client fd = some c ∧ c.socket = fd ∧
        c.output ≠ [] := by
      intro fd hout
      obtain ⟨c, hc, houtput⟩ := hout
      exact ⟨c, hc, (hsound.socket fd c hc).1, houtput⟩
    constructor
    · intro fd conn interest hfile hout
      exact hclient fd (hsound.asked fd conn interest hfile hout)
    · intro e rest hpending hbranch
      exact hclient e.fd (hsound.hasOutput_of_branch hpending hbranch)
  · intro hrun fd c hc houtput
    obtain ⟨conn, interest, hfile, hasks⟩ := registered_of_run hrun fd c hc
    exact ⟨conn, hasks houtput ▸ hfile⟩

def bothWritable : List Answer :=
  twoClients ++ [.read .again fun _ ↦ false, .wait [⟨5, .writing⟩, ⟨6, .writing⟩]]

theorem succeeds_bothWritable : ∀ a ∈ bothWritable, a.Succeeds := by
  simp [bothWritable, twoClients, Answer.Succeeds]

/-- `flush` is about to be called for the first client, and the second one waits for its turn. -/
theorem epollout_tracks_output_two :
    ∃ (s : Server) (e : Event) (rest : List Event), Run Step (initial 3) bothWritable s ∧
    s.pending = e :: rest ∧
      s.branch e = .flush ∧ (∃ c, s.client e.fd = some c ∧ c.socket = e.fd ∧ c.output ≠ []) ∧
      ∃ conn, s.kernel.files 6 = some ⟨conn, some .writing⟩ := by
  have hexec : ((bothWritable.foldlM exec (initial 3)).map fun s ↦ decide
      (s.pending = [⟨5, .writing⟩, ⟨6, .writing⟩] ∧ s.branch ⟨5, .writing⟩ = .flush ∧
        (s.client 6).map Client.output = some [WriteTask.create [104] 0])) = some true := by
    decide +kernel
  obtain ⟨s, hs, hfacts⟩ := Option.map_eq_some_iff.mp hexec
  obtain ⟨hpending, hbranch, hclient⟩ := of_decide_eq_true hfacts
  obtain ⟨c, hc, houtput⟩ := Option.map_eq_some_iff.mp hclient
  have hrun := Run.of_foldlM hs
  obtain ⟨htracks, hasks⟩ := epollout_tracks_output 3 bothWritable s
  refine ⟨s, ⟨5, .writing⟩, [⟨6, .writing⟩], hrun, hpending, hbranch, ?_, ?_⟩
  · exact (htracks hrun).2 _ _ hpending hbranch
  · exact hasks (hrun.guarded succeeds_bothWritable) 6 c hc (houtput ▸ List.cons_ne_nil _ _)

end Server

end CppMtHw.ChatServer
