import CppMtHw.NetEngine.ChannelFifo

/-!
# Bulk transfer is byte-at-a-time transfer

One `write` of many bytes leaves the channel as writing them one at a time up to
the first call that returns 0 does, and the same holds of `read`: the two-segment
copies cross the end of the buffer at the same byte as the one-byte calls.
-/

namespace CppMtHw.NetEngine

open Machine

/-- `write` called with one byte of `src` at a time, until a call returns 0. -/
def Channel.writeBytewise (c : Channel) : List UInt8 → Option (ℕ × Channel)
  | [] => some (0, c)
  | byte :: rest => do
      let (nWrite, c₁) ← c.write [byte]
      if nWrite = 0 then
        some (0, c₁)
      else do
        let (count, c₂) ← c₁.writeBytewise rest
        some (nWrite + count, c₂)

/-- `read` of one byte at a time, `nbytes` times or until a call returns 0. -/
def Channel.readBytewise (c : Channel) : ℕ → Option (ℕ × List UInt8 × Channel)
  | 0 => some (0, [], c)
  | nbytes + 1 => do
      let (nRead, bytes, c₁) ← c.read 1
      if nRead = 0 then
        some (0, bytes, c₁)
      else do
        let (count, rest, c₂) ← c₁.readBytewise nbytes
        some (nRead + count, bytes ++ rest, c₂)

variable {c : Channel}

/-! ## Writing -/

theorem Channel.write_front (h : c.InBounds) (hlt : c.end_ < c.start) (src : List UInt8) :
    c.write src = some (min src.length c.room,
      { c with
        buf := overwrite c.buf c.end_ (src.take c.room)
        end_ := c.end_ + min src.length c.room }) := by
  by_cases hpos : src.length = 0
  · rw [List.length_eq_zero_iff] at hpos
    subst hpos
    simp [write]
  · exact write_before_start h hlt hpos

theorem Channel.write_behind (h : c.InBounds) (hle : c.start ≤ c.end_) (src : List UInt8) :
    c.write src = some (min src.length c.room,
      { c with
        buf := overwrite (overwrite c.buf c.end_ (src.take (c.bufSize - c.end_))) 0
          ((src.drop (c.bufSize - c.end_)).take (c.start - 1))
        end_ := if c.bufSize - c.end_ < src.length ∧ 1 < c.start then
            min (src.length - (c.bufSize - c.end_)) (c.start - 1)
          else c.end_ + min src.length (c.bufSize - c.end_) }) := by
  by_cases hpos : src.length = 0
  · rw [List.length_eq_zero_iff] at hpos
    subst hpos
    simp [write]
  · exact write_behind_end h hle hpos

theorem take_cons_of_pos {α : Type*} {a : α} {as : List α} {n : ℕ} (h : 0 < n) :
    (a :: as).take n = a :: as.take (n - 1) := by
  obtain ⟨m, rfl⟩ := Nat.exists_eq_succ_of_ne_zero (Nat.ne_of_gt h)
  rfl

theorem take_singleton_of_pos {α : Type*} {a : α} {n : ℕ} (h : 0 < n) : [a].take n = [a] := by
  rw [take_cons_of_pos h, List.take_nil]

/-- A full channel takes nothing. -/
theorem Channel.write_full (h : c.InBounds) (hfull : c.room = 0) (src : List UInt8) :
    c.write src = some (0, c) := by
  by_cases hlt : c.end_ < c.start
  · rw [write_front h hlt, hfull]
    simp
  · have hroom : c.room = (c.bufSize - c.end_) + (c.start - 1) := if_neg hlt
    have hrest : c.bufSize - c.end_ = 0 := by omega
    have hslot : c.start - 1 = 0 := by omega
    rw [write_behind h (by omega), hfull, hrest, hslot]
    simp only [Nat.min_zero, List.take_zero, overwrite_nil, Nat.add_zero]
    rw [if_neg (by omega)]

/-- The first byte of a write, and then the others. -/
theorem Channel.write_cons (h : c.InBounds) (hroom : 0 < c.room) (byte : UInt8) :
    ∃ c₁, c₁.InBounds ∧ c.write [byte] = some (1, c₁) ∧
      ∀ rest count c₂, c₁.write rest = some (count, c₂) →
        c.write (byte :: rest) = some (1 + count, c₂) := by
  have hbuf := h.length_buf
  have hstart := h.start_le
  have hend := h.end_le
  obtain ⟨c₁, hwrite, hin, -⟩ := write_spec h [byte]
  rw [List.length_singleton, Nat.min_eq_left hroom] at hwrite
  refine ⟨c₁, hin, hwrite, ?_⟩
  intro rest count c₂ hrest
  by_cases hlt : c.end_ < c.start
  · -- the gap in front of `start` takes the first byte and the others
    have hgap : c.room = c.start - c.end_ - 1 := if_pos hlt
    rw [write_front h hlt, List.length_singleton, Nat.min_eq_left hroom,
      take_singleton_of_pos hroom, Option.some.injEq, Prod.mk.injEq] at hwrite
    obtain ⟨-, rfl⟩ := hwrite
    have hlt₁ : c.end_ + 1 < c.start := by omega
    have hroom₁ : Channel.room { c with buf := overwrite c.buf c.end_ [byte], end_ := c.end_ + 1 } =
        c.room - 1 := by
      rw [Channel.room, if_pos hlt₁, hgap]
      simp only
      omega
    rw [write_front hin hlt₁, hroom₁, Option.some.injEq, Prod.mk.injEq] at hrest
    obtain ⟨rfl, rfl⟩ := hrest
    rw [write_front h hlt, List.length_cons, take_cons_of_pos hroom]
    simp only [Option.some.injEq, Prod.mk.injEq, Channel.mk.injEq, true_and]
    refine ⟨by omega, ?_, by omega⟩
    rw [← List.singleton_append, ← overwrite_overwrite (by omega), List.length_singleton]
  have hle : c.start ≤ c.end_ := by omega
  have hsum : c.room = (c.bufSize - c.end_) + (c.start - 1) := if_neg hlt
  by_cases hspace : c.end_ < c.bufSize
  · -- the first byte goes behind `end`, which stays behind `start`
    rw [write_behind h hle, List.length_singleton, Nat.min_eq_left hroom,
      take_singleton_of_pos (Nat.sub_pos_of_lt hspace),
      List.drop_of_length_le (by rw [List.length_singleton]; omega),
      List.take_nil, overwrite_nil, if_neg (by omega), Nat.min_eq_left (by omega),
      Option.some.injEq, Prod.mk.injEq] at hwrite
    obtain ⟨-, rfl⟩ := hwrite
    have hlt₁ : ¬c.end_ + 1 < c.start := by omega
    have hroom₁ : Channel.room { c with buf := overwrite c.buf c.end_ [byte], end_ := c.end_ + 1 } =
        c.room - 1 := by
      rw [Channel.room, if_neg hlt₁, hsum]
      simp only
      omega
    rw [write_behind hin (Nat.le_of_not_lt hlt₁), hroom₁, Option.some.injEq, Prod.mk.injEq] at hrest
    obtain ⟨rfl, rfl⟩ := hrest
    have hsplit : c.bufSize - c.end_ = c.bufSize - (c.end_ + 1) + 1 := by omega
    rw [write_behind h hle, List.length_cons, hsplit, List.take_succ_cons, List.drop_succ_cons]
    simp only [Option.some.injEq, Prod.mk.injEq, Channel.mk.injEq, true_and]
    refine ⟨by omega, ?_, ?_⟩
    · rw [← List.singleton_append, ← overwrite_overwrite (by omega), List.length_singleton]
    · split <;> split <;> omega
  · -- the first byte goes to the start of the buffer
    have hrest₀ : c.bufSize - c.end_ = 0 := by omega
    have hslot : 0 < c.start - 1 := by omega
    rw [write_behind h hle, List.length_singleton, Nat.min_eq_left hroom, hrest₀, List.take_zero,
      overwrite_nil, List.drop_zero, take_singleton_of_pos hslot,
      if_pos (by omega), Nat.min_eq_left (by omega), Option.some.injEq, Prod.mk.injEq] at hwrite
    obtain ⟨-, rfl⟩ := hwrite
    have hlt₁ : 1 < c.start := by omega
    have hroom₁ : Channel.room { c with buf := overwrite c.buf 0 [byte], end_ := 1 } =
        c.room - 1 := by
      rw [Channel.room, if_pos hlt₁, hsum]
      simp only
      omega
    rw [write_front hin hlt₁, hroom₁, Option.some.injEq, Prod.mk.injEq] at hrest
    obtain ⟨rfl, rfl⟩ := hrest
    have hroom₀ : c.room = c.start - 1 := by omega
    rw [write_behind h hle, List.length_cons, hrest₀, List.take_zero, overwrite_nil,
      List.drop_zero, if_pos (by omega), take_cons_of_pos hslot]
    simp only [Option.some.injEq, Prod.mk.injEq, Channel.mk.injEq, true_and]
    refine ⟨by omega, ?_, by omega⟩
    rw [hroom₀]
    rw [← List.singleton_append, ← overwrite_overwrite (Nat.zero_le _), List.length_singleton]

theorem Channel.writeBytewise_eq (h : c.InBounds) (src : List UInt8) :
    c.writeBytewise src = c.write src := by
  induction src generalizing c with
  | nil => rfl
  | cons byte rest ih =>
      rw [writeBytewise]
      rcases Nat.eq_zero_or_pos c.room with hfull | hroom
      · rw [write_full h hfull, write_full h hfull]
        rfl
      · obtain ⟨c₁, hin, hbyte, hrest⟩ := write_cons h hroom byte
        obtain ⟨c₂, hspec, -⟩ := write_spec hin rest
        rw [hbyte, hrest rest _ c₂ hspec]
        simp only [Option.bind_eq_bind, Option.bind_some, ih hin, hspec]
        rw [if_neg Nat.one_ne_zero]

/-! ## Reading -/

theorem Channel.read_one (h : c.InBounds) (hle : c.start ≤ c.end_) (nbytes : ℕ) :
    c.read nbytes = some (min nbytes c.unread.length, c.unread.take nbytes,
      { c with start := c.start + min nbytes c.unread.length }) := by
  by_cases hpos : nbytes = 0
  · subst hpos
    simp [read]
  · exact read_one_segment h hle hpos

theorem Channel.read_two (h : c.InBounds) (hlt : c.end_ < c.start) (nbytes : ℕ) :
    c.read nbytes = some (min nbytes c.unread.length, c.unread.take nbytes,
      { c with
        start := if c.bufSize - c.start < nbytes then min (nbytes - (c.bufSize - c.start)) c.end_
          else c.start + nbytes }) := by
  by_cases hpos : nbytes = 0
  · subst hpos
    simp [read]
  · exact read_two_segments h hlt hpos

/-- An empty channel hands out nothing, however much is asked for. -/
theorem Channel.read_empty (h : c.InBounds) (hempty : c.unread = []) (nbytes : ℕ) :
    ∃ c₁, c.read 1 = some (0, [], c₁) ∧ c.read (nbytes + 1) = some (0, [], c₁) := by
  have hlen := h.length_unread
  rw [hempty, List.length_nil] at hlen
  by_cases hle : c.start ≤ c.end_
  · refine ⟨c, ?_, ?_⟩ <;> (rw [read_one h hle, hempty]; simp)
  · rw [if_neg hle] at hlen
    refine ⟨{ c with start := 0 }, ?_, ?_⟩
    · rw [read_two h (by omega), hempty, if_pos (by omega)]
      simp only [List.length_nil, Nat.min_zero, List.take_nil]
      rw [Nat.min_eq_right (by omega), show c.end_ = 0 by omega]
    · rw [read_two h (by omega), hempty, if_pos (by omega)]
      simp only [List.length_nil, Nat.min_zero, List.take_nil]
      rw [Nat.min_eq_right (by omega), show c.end_ = 0 by omega]

/-- The first byte of a read, and then the others. -/
theorem Channel.read_succ (h : c.InBounds) (hsome : c.unread ≠ []) :
    ∃ byte c₁, c₁.InBounds ∧ c.read 1 = some (1, [byte], c₁) ∧
      ∀ nbytes count rest c₂, c₁.read nbytes = some (count, rest, c₂) →
        c.read (nbytes + 1) = some (1 + count, [byte] ++ rest, c₂) := by
  have hstart := h.start_le
  have hend := h.end_le
  have hlen := h.length_unread
  obtain ⟨byte, tail, hunread⟩ := List.exists_cons_of_ne_nil hsome
  obtain ⟨c₁, hread, hin, -, hunread₁⟩ := read_spec h 1
  rw [hunread, List.drop_succ_cons, List.drop_zero] at hunread₁
  rw [hunread, List.length_cons] at hlen
  rw [hunread, List.length_cons, Nat.min_eq_left (Nat.le_add_left _ _), List.take_succ_cons,
    List.take_zero] at hread
  refine ⟨byte, c₁, hin, hread, ?_⟩
  intro nbytes count rest c₂ hrest
  by_cases hle : c.start ≤ c.end_
  · rw [if_pos hle] at hlen
    rw [read_one h hle, hunread, List.length_cons, Nat.min_eq_left (Nat.le_add_left _ _),
      Option.some.injEq, Prod.mk.injEq, Prod.mk.injEq] at hread
    obtain ⟨-, -, rfl⟩ := hread
    rw [read_one hin (by simp only; omega), hunread₁, Option.some.injEq, Prod.mk.injEq,
      Prod.mk.injEq] at hrest
    obtain ⟨rfl, rfl, rfl⟩ := hrest
    rw [read_one h hle, hunread, List.length_cons, List.take_succ_cons]
    simp only [Option.some.injEq, Prod.mk.injEq, Channel.mk.injEq, List.singleton_append, true_and,
      and_true]
    omega
  rw [if_neg hle] at hlen
  have hlt : c.end_ < c.start := by omega
  rw [read_two h hlt, hunread, List.length_cons, Nat.min_eq_left (Nat.le_add_left _ _),
    Option.some.injEq, Prod.mk.injEq, Prod.mk.injEq] at hread
  obtain ⟨-, -, rfl⟩ := hread
  by_cases hspace : c.start < c.bufSize
  · -- the first byte comes from behind `start`, and more of them may
    rw [if_neg (by omega)] at hunread₁ hrest
    have hin₁ : Channel.InBounds { c with start := c.start + 1 } := ⟨h.length_buf, hspace, hend⟩
    rw [read_two hin₁ (by simp only; omega), hunread₁, Option.some.injEq, Prod.mk.injEq,
      Prod.mk.injEq] at hrest
    obtain ⟨rfl, rfl, rfl⟩ := hrest
    rw [read_two h hlt, hunread, List.length_cons, List.take_succ_cons]
    simp only [Option.some.injEq, Prod.mk.injEq, Channel.mk.injEq, List.singleton_append, true_and,
      and_true]
    refine ⟨by omega, ?_⟩
    split <;> split <;> omega
  · -- the first byte comes from the start of the buffer
    rw [if_pos (by omega), Nat.min_eq_left (by omega)] at hunread₁ hrest
    have hin₁ : Channel.InBounds { c with start := 1 - (c.bufSize - c.start) } :=
      ⟨h.length_buf, by simp only; omega, hend⟩
    rw [read_one hin₁ (by simp only; omega), hunread₁, Option.some.injEq, Prod.mk.injEq,
      Prod.mk.injEq] at hrest
    obtain ⟨rfl, rfl, rfl⟩ := hrest
    rw [read_two h hlt, hunread, List.length_cons, List.take_succ_cons]
    simp only [Option.some.injEq, Prod.mk.injEq, Channel.mk.injEq, List.singleton_append, true_and,
      and_true]
    refine ⟨by omega, ?_⟩
    rw [if_pos (by omega)]
    omega

theorem Channel.readBytewise_eq (h : c.InBounds) (nbytes : ℕ) :
    c.readBytewise nbytes = c.read nbytes := by
  induction nbytes generalizing c with
  | zero => rfl
  | succ nbytes ih =>
      rw [readBytewise]
      by_cases hempty : c.unread = []
      · obtain ⟨c₁, hone, hmany⟩ := read_empty h hempty nbytes
        rw [hone, hmany]
        rfl
      · obtain ⟨byte, c₁, hin, hone, hmany⟩ := read_succ h hempty
        obtain ⟨c₂, hspec, -⟩ := read_spec hin nbytes
        rw [hone, hmany nbytes _ _ c₂ hspec]
        simp only [Option.bind_eq_bind, Option.bind_some, ih hin, hspec]
        rw [if_neg Nat.one_ne_zero]

/-- In every reachable channel one `write` and one `read` have the count, the bytes, the indices
and the buffer that the byte-at-a-time calls have. -/
theorem bulk_eq_bytewise {fresh : List UInt8} {calls : List (Fifo.Call UInt8)}
    (hrun : Run Channel.Step (Channel.new fresh) calls c) :
    (∀ src, ∃ count c', c.write src = some (count, c') ∧
      c.writeBytewise src = some (count, c')) ∧
    (∀ nbytes, ∃ count bytes c', c.read nbytes = some (count, bytes, c') ∧
      c.readBytewise nbytes = some (count, bytes, c')) := by
  have hin := (Channel.run_inBounds hrun).1
  constructor
  · intro src
    obtain ⟨c', hspec, -⟩ := Channel.write_spec hin src
    exact ⟨_, c', hspec, (Channel.writeBytewise_eq hin src).trans hspec⟩
  · intro nbytes
    obtain ⟨c', hspec, -⟩ := Channel.read_spec hin nbytes
    exact ⟨_, _, c', hspec, (Channel.readBytewise_eq hin nbytes).trans hspec⟩

/-- Two bytes written across the end of a buffer of three. -/
theorem bulk_eq_bytewise_wrapped :
    ∃ c, Run Channel.Step (Channel.new [0, 0, 0]) ([] ++ [.write [1, 2] 2] ++ [.read 2 [1, 2]]) c ∧
      c.write [3, 4] = c.writeBytewise [3, 4] := by
  have hrun : Run Channel.Step (Channel.new [0, 0, 0])
      ([] ++ [.write [1, 2] 2] ++ [.read 2 [1, 2]])
      { buf := [1, 2, 0], bufSize := 3, start := 2, end_ := 2 } :=
    .snoc (.snoc (.nil _) (.write rfl)) (.read rfl)
  obtain ⟨count, c', hbulk, hbytes⟩ := (bulk_eq_bytewise hrun).1 [3, 4]
  exact ⟨_, hrun, hbulk.trans hbytes.symm⟩

end CppMtHw.NetEngine
