import CppMtHw.Machine.Fifo
import CppMtHw.NetEngine.Channel

/-!
# A channel is a bounded queue

The calls of a channel, seen through its unread bytes, are calls of a bounded
first-in first-out queue: the simulation holds from every state whose indices are
in bounds, and every call keeps them there.
-/

namespace CppMtHw.NetEngine

open Machine Machine.Fifo

inductive Channel.Step : Channel → Call UInt8 → Channel → Prop
  | read {c c' : Channel} {nbytes : ℕ} {bytes : List UInt8}
      (h : c.read nbytes = some (bytes.length, bytes, c')) : Step c (.read nbytes bytes) c'
  | write {c c' : Channel} {src : List UInt8} {accepted : ℕ}
      (h : c.write src = some (accepted, c')) : Step c (.write src accepted) c'

variable {c c' : Channel}

/-- A write that is cut short leaves no room. -/
theorem Channel.room_after_write (h : c.InBounds) (h' : c'.InBounds)
    (hsize : c'.bufSize = c.bufSize) (hstart : c'.start = c.start) {src : List UInt8}
    (hunread : c'.unread = c.unread ++ src.take c.room) :
    c'.room = c.room - src.length := by
  have hbefore := h.length_unread_add_room
  have hafter := h'.length_unread_add_room
  rw [hunread, List.length_append, List.length_take, hstart, hsize] at hafter
  omega

theorem Channel.Step.inBounds {call : Call UInt8} (hstep : Step c call c') (h : c.InBounds) :
    c'.InBounds ∧ c'.bufSize = c.bufSize := by
  cases hstep with
  | read hread =>
      obtain ⟨c₁, hspec, hin, hsize, -⟩ := read_spec h _
      rw [hspec, Option.some.injEq, Prod.mk.injEq, Prod.mk.injEq] at hread
      exact hread.2.2 ▸ ⟨hin, hsize⟩
  | write hwrite =>
      obtain ⟨c₁, hspec, hin, hsize, -⟩ := write_spec h _
      rw [hspec, Option.some.injEq, Prod.mk.injEq] at hwrite
      exact hwrite.2 ▸ ⟨hin, hsize⟩

/-- A write is cut short only by a buffer that is full up to one slot. -/
theorem Channel.write_short (h : c.InBounds) {src : List UInt8} {accepted : ℕ}
    (hwrite : c.write src = some (accepted, c')) (hshort : accepted < src.length) :
    c.bufSize - 1 ≤ c'.unread.length := by
  obtain ⟨c₁, hspec, hin, hsize, hstart, hunread⟩ := write_spec h src
  rw [hspec, Option.some.injEq, Prod.mk.injEq] at hwrite
  obtain ⟨rfl, rfl⟩ := hwrite
  have hroom := room_after_write h hin hsize hstart hunread
  have hfull := hin.length_unread_add_room
  split at hfull <;> omega

/-- Every completed call is a call of the bounded queue of unread bytes. -/
theorem Channel.Step.fifo {call : Call UInt8} (hstep : Step c call c') (h : c.InBounds) :
    Fifo.Step (c.bufSize - 1) c.unread call c'.unread := by
  cases hstep with
  | read hread =>
      obtain ⟨c₁, hspec, -, -, hunread⟩ := read_spec h _
      rw [hspec, Option.some.injEq, Prod.mk.injEq, Prod.mk.injEq] at hread
      obtain ⟨-, rfl, rfl⟩ := hread
      rw [hunread]
      exact Fifo.Step.read _ _
  | @write _ src accepted hwrite =>
      have hcut := write_short h hwrite
      obtain ⟨c₁, hspec, -, -, -, hunread⟩ := write_spec h src
      rw [hspec, Option.some.injEq, Prod.mk.injEq] at hwrite
      obtain ⟨rfl, rfl⟩ := hwrite
      rw [List.take_eq_take_min, Nat.min_comm] at hunread
      rw [hunread] at hcut ⊢
      exact Fifo.Step.write _ _ _ (Nat.min_le_left _ _) hcut

/-- Reachable channels have their indices in bounds. -/
theorem Channel.run_inBounds {fresh : List UInt8} {calls : List (Call UInt8)}
    (hrun : Run Step (Channel.new fresh) calls c) : c.InBounds ∧ c.bufSize = fresh.length := by
  refine hrun.invariant (P := fun c ↦ c.InBounds ∧ c.bufSize = fresh.length)
    ⟨new_inBounds fresh, rfl⟩ ?_
  rintro t call u ⟨hin, hsize⟩ hstep
  have h := hstep.inBounds hin
  exact ⟨h.1, h.2.trans hsize⟩

/-- Runs of a channel are runs of the bounded queue. -/
theorem Channel.run_fifo {fresh : List UInt8} {calls : List (Call UInt8)}
    (hrun : Run Step (Channel.new fresh) calls c) :
    Run (Fifo.Step (fresh.length - 1)) [] calls c.unread := by
  rw [← new_unread fresh]
  refine hrun.simulate (f := unread) (P := fun c ↦ c.InBounds ∧ c.bufSize = fresh.length)
    ⟨new_inBounds fresh, rfl⟩ ?_ ?_
  · rintro s call t ⟨hin, hsize⟩ hstep
    exact ⟨(hstep.inBounds hin).1, (hstep.inBounds hin).2.trans hsize⟩
  · rintro s call t ⟨hin, hsize⟩ hstep
    exact hsize ▸ hstep.fifo hin

/-- A channel refines a bounded queue: for every buffer and every sequence of calls, what the
reads returned followed by what is unread is what the writes accepted; every read then returns as
much as it can, and a write is cut short only by a buffer that is full up to one slot. -/
theorem channel_refines_bounded_fifo {fresh : List UInt8} {calls : List (Call UInt8)}
    (hrun : Run Channel.Step (Channel.new fresh) calls c) :
    received calls ++ c.unread = accepted calls ∧
    (∀ nbytes, ∃ bytes c', c.read nbytes = some (bytes.length, bytes, c') ∧
      bytes.length = min nbytes c.unread.length) ∧
    (∀ src, ∃ accepted c', c.write src = some (accepted, c') ∧ accepted ≤ src.length ∧
      (accepted < src.length → fresh.length - 1 ≤ c'.unread.length)) := by
  obtain ⟨hin, hsize⟩ := Channel.run_inBounds hrun
  refine ⟨by simpa using run_conserve (Channel.run_fifo hrun), fun nbytes ↦ ?_, fun src ↦ ?_⟩
  · obtain ⟨c', hread, -⟩ := Channel.read_spec hin nbytes
    have hlen : (c.unread.take nbytes).length = min nbytes c.unread.length := List.length_take
    exact ⟨_, c', by rw [hread, hlen], hlen⟩
  · obtain ⟨c', hwrite, -⟩ := Channel.write_spec hin src
    exact ⟨_, c', hwrite, Nat.min_le_left _ _, fun hshort ↦
      hsize ▸ Channel.write_short hin hwrite hshort⟩

/-- Four bytes through a buffer of three; the last read takes them out of two segments. -/
theorem channel_refines_bounded_fifo_wrapped :
    received [.write [1, 2, 3] 3, .read 2 [1, 2], .write [4] 1, .read 2 [3, 4]] =
      accepted ([.write [1, 2, 3] 3, .read 2 [1, 2], .write [4] 1, .read 2 [3, 4]] :
        List (Call UInt8)) := by
  have hrun : Run Channel.Step (Channel.new [0, 0, 0])
      ([] ++ [.write [1, 2, 3] 3] ++ [.read 2 [1, 2]] ++ [.write [4] 1] ++ [.read 2 [3, 4]])
      { buf := [4, 2, 3], bufSize := 3, start := 1, end_ := 1 } :=
    .snoc (.snoc (.snoc (.snoc (.nil _) (.write rfl)) (.read rfl)) (.write rfl)) (.read rfl)
  exact (List.append_nil _).symm.trans (channel_refines_bounded_fifo hrun).1

/-! ## When a channel makes progress -/

/-- A `write` of at least a byte returns 0 only on a channel that holds something, a `read` of at
least a byte only on one that holds nothing, and one of the two moves a single byte. -/
def Channel.Progresses (c : Channel) : Prop :=
  (∀ src c', src ≠ [] → c.write src = some (0, c') → c.unread ≠ []) ∧
  (∀ nbytes bytes c', nbytes ≠ 0 → c.read nbytes = some (0, bytes, c') → c.unread = []) ∧
  (∀ byte, (∃ c', c.write [byte] = some (1, c')) ∨
    ∃ byte' c', c.read 1 = some (1, [byte'], c'))

theorem Channel.InBounds.progresses_iff (h : c.InBounds) :
    c.Progresses ↔ c.unread ≠ [] ∨ 0 < c.room := by
  constructor
  · rintro ⟨hwrite, -, -⟩
    by_contra hstuck
    rw [not_or, Nat.not_lt, Nat.le_zero, not_not] at hstuck
    obtain ⟨c', hspec, -⟩ := write_spec h [0]
    rw [hstuck.2, Nat.min_zero] at hspec
    exact hwrite [0] c' (List.cons_ne_nil _ _) hspec hstuck.1
  · intro hmoves
    have hwrite (src : List UInt8) (c' : Channel) (hsrc : src ≠ [])
        (hzero : c.write src = some (0, c')) : c.unread ≠ [] := by
      obtain ⟨c₁, hspec, -⟩ := write_spec h src
      have hlen : 0 < src.length := List.length_pos_iff.mpr hsrc
      rw [hspec, Option.some.injEq, Prod.mk.injEq] at hzero
      exact hmoves.resolve_right (by omega)
    have hread (nbytes : ℕ) (bytes : List UInt8) (c' : Channel) (hpos : nbytes ≠ 0)
        (hzero : c.read nbytes = some (0, bytes, c')) : c.unread = [] := by
      obtain ⟨c₁, hspec, -⟩ := read_spec h nbytes
      rw [hspec, Option.some.injEq, Prod.mk.injEq] at hzero
      apply List.eq_nil_of_length_eq_zero
      omega
    have hmove (byte : UInt8) : (∃ c', c.write [byte] = some (1, c')) ∨
        ∃ byte' c', c.read 1 = some (1, [byte'], c') := by
      by_cases hroom : 0 < c.room
      · left
        obtain ⟨c', hspec, -⟩ := write_spec h [byte]
        rw [List.length_singleton, Nat.min_eq_left hroom] at hspec
        exact ⟨c', hspec⟩
      · right
        obtain ⟨c', hspec, -⟩ := read_spec h 1
        obtain ⟨byte', rest, hunread⟩ := List.exists_cons_of_ne_nil (hmoves.resolve_right hroom)
        rw [hunread, List.length_cons, Nat.min_eq_left (Nat.le_add_left _ _)] at hspec
        exact ⟨byte', c', hspec⟩
    exact ⟨hwrite, hread, hmove⟩

/-- `start` is 0 as long as nothing has been handed out: a read that wraps around leaves it at
what it took from the front of the buffer, and there is something, because `end` is 0 only as
long as `start` is. -/
theorem Channel.Step.start_eq_zero_iff {call : Call UInt8} (hstep : Step c call c')
    (h : c.InBounds) (hend : c.end_ = 0 → c.start = 0) :
    (c'.end_ = 0 → c'.start = 0) ∧ (c'.start = 0 ↔ c.start = 0 ∧ call.received = []) := by
  have hstart := h.start_le
  cases hstep with
  | @read _ nbytes bytes hread =>
      by_cases hpos : nbytes = 0
      · subst hpos
        rw [Channel.read, if_pos rfl, Option.some.injEq, Prod.mk.injEq, Prod.mk.injEq] at hread
        obtain ⟨-, rfl, rfl⟩ := hread
        simpa [Call.received] using hend
      by_cases hle : c.start ≤ c.end_
      · rw [read_one_segment h hle hpos, Option.some.injEq, Prod.mk.injEq, Prod.mk.injEq] at hread
        obtain ⟨hlen, rfl, rfl⟩ := hread
        have htaken : c.unread.take nbytes = [] ↔ min nbytes c.unread.length = 0 := by
          rw [hlen, List.length_eq_zero_iff]
        have hunread := h.length_unread
        rw [if_pos hle] at hunread
        simp only [Call.received, htaken]
        omega
      · rw [read_two_segments h (by omega) hpos, Option.some.injEq, Prod.mk.injEq,
          Prod.mk.injEq] at hread
        obtain ⟨-, -, rfl⟩ := hread
        simp only
        split <;> omega
  | @write _ src accepted hwrite =>
      by_cases hpos : src.length = 0
      · rw [Channel.write, if_pos hpos, Option.some.injEq, Prod.mk.injEq] at hwrite
        obtain ⟨-, rfl⟩ := hwrite
        simpa [Call.received] using hend
      by_cases hlt : c.end_ < c.start
      · rw [write_before_start h hlt hpos, Option.some.injEq, Prod.mk.injEq] at hwrite
        obtain ⟨-, rfl⟩ := hwrite
        simp only [Call.received, and_true]
        omega
      · rw [write_behind_end h (by omega) hpos, Option.some.injEq, Prod.mk.injEq] at hwrite
        obtain ⟨-, rfl⟩ := hwrite
        simp only [Call.received, and_true]
        split <;> omega

/-- Reachable channels have `start` at 0 exactly as long as nothing has been read. -/
theorem Channel.run_start_eq_zero_iff {fresh : List UInt8} {calls : List (Call UInt8)}
    (hrun : Run Step (Channel.new fresh) calls c) : c.start = 0 ↔ received calls = [] := by
  have hboth : c.InBounds ∧ (c.end_ = 0 → c.start = 0) ∧ (c.start = 0 ↔ received calls = []) := by
    refine hrun.history (P := fun calls c ↦ c.InBounds ∧ (c.end_ = 0 → c.start = 0) ∧
      (c.start = 0 ↔ received calls = [])) ⟨new_inBounds fresh, fun _ ↦ rfl, by simp [Channel.new,
        received]⟩ ?_
    rintro history t call u ⟨hin, hend, hstart⟩ hstep
    have hnext := hstep.start_eq_zero_iff hin hend
    refine ⟨(hstep.inBounds hin).1, hnext.1, hnext.2.trans ?_⟩
    rw [hstart, received, received, List.flatMap_append, List.append_eq_nil_iff,
      List.flatMap_singleton]
  exact hboth.2.2

/-- A channel with room for two bytes makes progress in every reachable state; one with room for a
single byte does so until a byte is read from it, and never again. -/
theorem channel_progresses_iff {fresh : List UInt8} {calls : List (Call UInt8)}
    (hsize : 1 ≤ fresh.length) (hrun : Run Channel.Step (Channel.new fresh) calls c) :
    c.Progresses ↔ 2 ≤ fresh.length ∨ received calls = [] := by
  obtain ⟨hin, hbuf⟩ := Channel.run_inBounds hrun
  have hsum := hin.length_unread_add_room
  rw [hin.progresses_iff, ← Channel.run_start_eq_zero_iff hrun, ← List.length_pos_iff]
  split at hsum <;> omega

theorem channel_progresses_two : ∃ c, Run Channel.Step (Channel.new [0, 0])
    ([] ++ [.write [1] 1] ++ [.read 1 [1]]) c ∧ c.Progresses := by
  have hrun : Run Channel.Step (Channel.new [0, 0]) ([] ++ [.write [1] 1] ++ [.read 1 [1]])
      { buf := [1, 0], bufSize := 2, start := 1, end_ := 1 } :=
    .snoc (.snoc (.nil _) (.write rfl)) (.read rfl)
  exact ⟨_, hrun, (channel_progresses_iff (by decide) hrun).mpr (Or.inl (by decide))⟩

/-- A buffer of one byte, written and read once: it is empty, and both calls return 0. -/
theorem channel_stuck_at_one : ∃ c, Run Channel.Step (Channel.new [0])
    ([] ++ [.write [7] 1] ++ [.read 1 [7]]) c ∧ c.unread = [] ∧
      c.write [8] = some (0, c) ∧ c.read 1 = some (0, [], c) ∧ ¬c.Progresses := by
  have hrun : Run Channel.Step (Channel.new [0]) ([] ++ [.write [7] 1] ++ [.read 1 [7]])
      { buf := [7], bufSize := 1, start := 1, end_ := 1 } :=
    .snoc (.snoc (.nil _) (.write rfl)) (.read rfl)
  refine ⟨_, hrun, rfl, rfl, rfl, ?_⟩
  intro hmoves
  exact hmoves.1 [8] _ (List.cons_ne_nil _ _) rfl rfl

end CppMtHw.NetEngine
