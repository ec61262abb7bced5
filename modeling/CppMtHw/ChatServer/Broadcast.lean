import CppMtHw.ChatServer.Invariants

/-!
# Who receives a chunk

When a call fails, the handler of the exceptions closes the socket but leaves the client
in the map. The loop over the clients calls `write_out` for it like for all others, fails
there, and the clients behind it do not get the chunk.
-/

namespace CppMtHw.ChatServer

open Machine

namespace Server

variable {s t : Server} {fd : ℤ} {masterSocket : ℤ} {answers : List Answer} {buf : List UInt8}

/-- No client whose descriptor is closed comes before one whose descriptor is open. -/
def ClosedLast (s : Server) : Prop :=
  ∀ p ∈ s.clients, ¬s.kernel.IsOpen p.1 → ∀ q ∈ s.clients, s.kernel.IsOpen q.1 → q.1 < p.1

theorem Broadcast.isOpen_iff {chunk : ℕ} {refused : ℤ → Bool} {clients clients' : List (ℤ × Client)}
    {k k' : Kernel} {ex : Option ChatException}
    (h : Broadcast buf chunk refused clients k clients' k' ex) : k'.IsOpen fd ↔ k.IsOpen fd := by
  unfold Kernel.IsOpen
  by_cases hasked : ∃ p ∈ clients, p.1 = fd ∧ Reached clients k refused fd ∧ k.Modifies refused fd
  · obtain ⟨p, hmem, rfl, hreached, hmod⟩ := hasked
    rw [h.asked p hmem hreached hmod, Option.isSome_map]
  · rw [h.kept fd hasked]

/-- When `epoll_ctl` refuses nothing, a chunk goes to the clients that the loop reaches and no open
descriptor is closed. -/
theorem Sound.read_data (h : s.Sound) (hread : s.read fd (.data buf) (fun _ ↦ false) = some t) :
    (∀ fd', t.client fd' =
      (s.client fd').map (served buf s.chunks.length (fun _ ↦ false) s.clients s.kernel fd')) ∧
    ∀ fd', t.kernel.IsOpen fd' ↔ s.kernel.IsOpen fd' := by
  obtain ⟨buf', clients, kernel, ex, hbuf, -, hcall, hend⟩ | ⟨hagain, -⟩ | ⟨heof | herror, -⟩ :=
    read_cases hread
  · cases hbuf
    have hbroadcast := h.toTables.broadcast_spec hcall
    have hclient : ∀ fd', client { s with clients, kernel, chunks := s.chunks ++ [buf] } fd' =
        (s.client fd').map (served buf s.chunks.length (fun _ ↦ false) s.clients s.kernel fd') :=
      fun _ ↦ Broadcast.client hbroadcast
    rcases hend with ⟨-, rfl⟩ | ⟨exc, hexc, rfl⟩
    · exact ⟨hclient, fun _ ↦ hbroadcast.isOpen_iff⟩
    · refine ⟨fun fd' ↦ (client_congr rfl fd').trans (hclient fd'), fun fd' ↦ ?_⟩
      -- the descriptor that the handler closes is not open
      have hclosed : kernel.files exc.socketFd = none := by
        obtain ⟨p, -, hsocket, hmod⟩ := hbroadcast.thrown exc hexc
        rw [← Option.not_isSome_iff_eq_none]
        intro hopen
        apply hmod
        rw [h.modifies_iff_isOpen, ← hsocket]
        exact ⟨hbroadcast.isOpen_iff.mp hopen, rfl⟩
      simp only [Server.caught, Server.next, Kernel.close_of_eq_none hclosed]
      exact hbroadcast.isOpen_iff
  · cases hagain
  · cases heof
  · cases herror

/-- A client that gets a task is not the client it was. -/
theorem push_ne (c : Client) (chunk : ℕ) : c.push buf chunk ≠ c := by
  intro heq
  have hlength := congrArg (fun c ↦ c.output.length) heq
  simp [Client.push] at hlength

/-- When `epoll_ctl` fails for closed descriptors only, the loop reaches an open client if and only
if all clients before it are open. -/
theorem Tables.reached_iff (h : s.Tables) :
    Reached s.clients s.kernel (fun _ ↦ false) fd ↔
      ∀ p ∈ s.clients, ¬s.kernel.IsOpen p.1 → fd ≤ p.1 := by
  unfold Reached
  simp only [h.modifies_iff_isOpen, and_true]
  constructor
  · intro hreached p hmem hclosed
    by_contra hlt
    exact hclosed (hreached p hmem (not_le.mp hlt))
  · intro hclosed p hmem hlt
    by_contra hopen
    exact absurd (hclosed p hmem hopen) (not_le.mpr hlt)

/-- A chunk that is read is appended once to the queue of every client whose connection is open if
and only if no client whose descriptor is closed comes before one of them in the map. -/
theorem chunk_reaches_all_iff (hrun : Run Step (initial masterSocket) answers s)
    (hread : s.exec (.read (.data buf) fun _ ↦ false) = some t) :
    (∀ fd, t.kernel.IsOpen fd →
      ∃ c, s.client fd = some c ∧ t.client fd = some (c.push buf s.chunks.length)) ↔
    s.ClosedLast := by
  have hsound := sound_of_run hrun
  have hstep : Step s (.read (.data buf) fun _ ↦ false) t := hread
  cases hstep.handles with
  | read e rest hpending hbranch result refused hdata =>
      obtain ⟨hclient, hopen⟩ := hsound.read_data hdata
      constructor
      · intro hall p hp hclosed q hq hqopen
        obtain ⟨c, hc, hpush⟩ := hall q.1 ((hopen q.1).mpr hqopen)
        have hreached : Reached s.clients s.kernel (fun _ ↦ false) q.1 := by
          by_contra hnot
          rw [hclient, hc, Option.map_some, served, if_neg hnot] at hpush
          exact push_ne c s.chunks.length (Option.some.inj hpush).symm
        apply lt_of_le_of_ne (hsound.reached_iff.mp hreached p hp hclosed)
        intro heq
        exact hclosed (heq ▸ hqopen)
      · intro hlast fd hfd
        have hfd' := (hopen fd).mp hfd
        obtain ⟨file, hfile⟩ := Option.isSome_iff_exists.mp hfd'
        obtain ⟨⟨c, hc⟩, -⟩ := hsound.registered fd file hfile
        have hmem := (client_eq_some_iff hsound.sorted).mp hc
        have hreached : Reached s.clients s.kernel (fun _ ↦ false) fd :=
          hsound.reached_iff.mpr fun p hp hclosed ↦ (hlast p hp hclosed (fd, c) hmem hfd').le
        refine ⟨c, hc, ?_⟩
        rw [hclient, hc, Option.map_some, served, if_pos hreached]

/-- Two connections are accepted and the second client has sent a chunk. -/
def twoClients : List Answer :=
  [.wait [⟨3, .reading⟩], .accept (some 5) false false, .accept (some 6) false false,
    .accept none false false, .wait [⟨6, .reading⟩], .read (.data [104]) fun _ ↦ false]

/-- The write to the first client fails. -/
def failedWrite : List Answer :=
  twoClients ++ [.read .again fun _ ↦ false, .wait [⟨5, .writing⟩], .write none false]

/-- After that the second client has a message again. -/
def messageAgain : List Answer := failedWrite ++ [.wait [⟨6, .reading⟩]]

theorem chunk_reaches_all_two_clients :
    ∃ s t, Run Step (initial 3) twoClients s ∧
      s.exec (.read (.data [105]) fun _ ↦ false) = some t ∧
      ((∀ fd, t.kernel.IsOpen fd →
        ∃ c, s.client fd = some c ∧ t.client fd = some (c.push [105] s.chunks.length)) ↔
      s.ClosedLast) := by
  have hexec : ((twoClients.foldlM exec (initial 3)).bind
      fun s ↦ s.exec (.read (.data [105]) fun _ ↦ false)).isSome = true := by
    decide +kernel
  obtain ⟨t, ht⟩ := Option.isSome_iff_exists.mp hexec
  obtain ⟨s, hs, hread⟩ := Option.bind_eq_some_iff.mp ht
  exact ⟨s, t, Run.of_foldlM hs, hread, chunk_reaches_all_iff (Run.of_foldlM hs) hread⟩

/-- After a failed write to the first client, the second one does not get its own chunk. -/
theorem chunk_missed_after_failed_write :
    ∃ s t, Run Step (initial 3) messageAgain s ∧
      s.exec (.read (.data [105]) fun _ ↦ false) = some t ∧ t.kernel.IsOpen 6 ∧
      ¬∃ c, s.client 6 = some c ∧ t.client 6 = some (c.push [105] s.chunks.length) := by
  have hexec : ((messageAgain.foldlM exec (initial 3)).bind fun s ↦
      (s.exec (.read (.data [105]) fun _ ↦ false)).map fun t ↦
        decide (t.kernel.IsOpen 6 ∧ t.client 6 = s.client 6)) = some true := by
    decide +kernel
  obtain ⟨s, hs, hmap⟩ := Option.bind_eq_some_iff.mp hexec
  obtain ⟨t, ht, hfacts⟩ := Option.map_eq_some_iff.mp hmap
  obtain ⟨hopen, hsame⟩ := of_decide_eq_true hfacts
  refine ⟨s, t, Run.of_foldlM hs, ht, hopen, ?_⟩
  rintro ⟨c, hc, hpush⟩
  rw [hsame, hc] at hpush
  exact push_ne c s.chunks.length (Option.some.inj hpush).symm

end Server

end CppMtHw.ChatServer
