import CppMtHw.Machine.Buffer

/-!
# The ring buffer behind a channel

`Channel` of `hw-net-engine/src/channel.cpp`. The data lie in one segment while
`start ≤ end` and in two once `end` has wrapped, `bufSize` itself being a legal
value of both indices. A `memcpy` that left `buf` would have no result, so the
totality of `read` and `write` includes that every copy stays inside the buffer.
-/

namespace CppMtHw.NetEngine

open Machine

structure Channel where
  buf : List UInt8
  bufSize : ℕ
  start : ℕ
  end_ : ℕ
  deriving DecidableEq

/-- `Channel(size_t buf_sz)`; `fresh` is what `new char[buf_sz]` happens to contain. -/
def Channel.new (fresh : List UInt8) : Channel where
  buf := fresh
  bufSize := fresh.length
  start := 0
  end_ := 0

/-- `read(to, nbytes)`: the count returned, the bytes copied to `to`, and the channel afterwards. -/
def Channel.read (c : Channel) (nbytes : ℕ) : Option (ℕ × List UInt8 × Channel) :=
  if nbytes = 0 then
    some (0, [], c)
  else if c.start ≤ c.end_ then do
    let sz := usub c.end_ c.start
    let nRead := if nbytes ≤ sz then nbytes else sz
    let bytes ← copyOut c.buf c.start nRead
    some (nRead, bytes, { c with start := c.start + nRead })
  else do
    let sz1 := usub c.bufSize c.start
    let nRead1 := if nbytes ≤ sz1 then nbytes else sz1
    let bytes1 ← copyOut c.buf c.start nRead1
    let remaining := usub nbytes nRead1
    if 0 < remaining then do
      let nRead2 := if remaining ≤ c.end_ then remaining else c.end_
      let bytes2 ← copyOut c.buf 0 nRead2
      some (nRead1 + nRead2, bytes1 ++ bytes2, { c with start := nRead2 })
    else
      some (nRead1, bytes1, { c with start := c.start + nRead1 })

/-- `write(from, nbytes)`: the count returned and the channel afterwards; `src` is the `nbytes`
bytes at `from`. -/
def Channel.write (c : Channel) (src : List UInt8) : Option (ℕ × Channel) :=
  let nbytes := src.length
  if nbytes = 0 then
    some (0, c)
  else if c.end_ < c.start then do
    let sz := usub (usub c.start c.end_) 1
    let nWrite := if nbytes ≤ sz then nbytes else sz
    let buf ← copyIn c.buf c.end_ (src.take nWrite)
    some (nWrite, { c with buf, end_ := c.end_ + nWrite })
  else do
    let sz1 := usub c.bufSize c.end_
    let nWrite1 := if nbytes ≤ sz1 then nbytes else sz1
    let buf ← copyIn c.buf c.end_ (src.take nWrite1)
    let end1 := c.end_ + nWrite1
    let remaining := usub nbytes nWrite1
    if 0 < remaining ∧ 0 < c.start then do
      let sz2 := usub c.start 1
      let nWrite2 := if remaining ≤ sz2 then remaining else sz2
      let buf2 ← copyIn buf 0 ((src.drop nWrite1).take nWrite2)
      some (nWrite1 + nWrite2,
        { c with buf := buf2, end_ := if nWrite2 ≠ 0 then nWrite2 else end1 })
    else
      some (nWrite1, { c with buf, end_ := end1 })

/-! ## The bounds every operation relies on -/

/-- Both indices lie in the buffer or just behind it. -/
structure Channel.InBounds (c : Channel) : Prop where
  length_buf : c.buf.length = c.bufSize
  start_le : c.start ≤ c.bufSize
  end_le : c.end_ ≤ c.bufSize

def Channel.unread (c : Channel) : List UInt8 :=
  if c.start ≤ c.end_ then segment c.buf c.start c.end_
  else segment c.buf c.start c.bufSize ++ segment c.buf 0 c.end_

/-- How many bytes a single `write` can take. -/
def Channel.room (c : Channel) : ℕ :=
  if c.end_ < c.start then c.start - c.end_ - 1
  else (c.bufSize - c.end_) + (c.start - 1)

theorem Channel.new_inBounds (fresh : List UInt8) : (Channel.new fresh).InBounds :=
  ⟨rfl, Nat.zero_le _, Nat.zero_le _⟩

@[simp] theorem Channel.new_unread (fresh : List UInt8) : (Channel.new fresh).unread = [] := by
  simp [Channel.new, Channel.unread]

variable {c : Channel}

theorem Channel.InBounds.length_unread (h : c.InBounds) :
    c.unread.length =
      if c.start ≤ c.end_ then c.end_ - c.start else (c.bufSize - c.start) + c.end_ := by
  have hbuf := h.length_buf
  have hend := h.end_le
  unfold unread
  split
  · exact segment_length (by omega)
  · rw [List.length_append, segment_length (by omega), segment_length (by omega)]
    omega

/-- What is unread and what still fits add up to the capacity, less one slot once the head has
moved off the start of the buffer. -/
theorem Channel.InBounds.length_unread_add_room (h : c.InBounds) :
    c.unread.length + c.room + (if 0 < c.start then 1 else 0) = c.bufSize := by
  have hstart := h.start_le
  have hend := h.end_le
  rw [h.length_unread]
  unfold room
  split <;> split <;> split <;> omega

/-- Reading from a single segment. -/
theorem Channel.read_one_segment (h : c.InBounds) (hle : c.start ≤ c.end_) {nbytes : ℕ}
    (hpos : nbytes ≠ 0) :
    c.read nbytes = some (min nbytes c.unread.length, c.unread.take nbytes,
      { c with start := c.start + min nbytes c.unread.length }) := by
  have hbuf := h.length_buf
  have hend := h.end_le
  have hlen := h.length_unread
  have hunread : c.unread = segment c.buf c.start c.end_ := if_pos hle
  rw [if_pos hle] at hlen
  rw [List.take_eq_take_min (i := nbytes)]
  set count := min nbytes c.unread.length with hcount
  have hchoice : (if nbytes ≤ c.end_ - c.start then nbytes else c.end_ - c.start) = count := by
    split <;> omega
  simp only [read, if_neg hpos, if_pos hle, usub_of_le hle, hchoice]
  rw [copyOut_eq_segment (by omega), hunread, take_segment (by omega)]
  rfl

/-- Reading from two segments: the second one is touched only once the first is used up. -/
theorem Channel.read_two_segments (h : c.InBounds) (hlt : c.end_ < c.start) {nbytes : ℕ}
    (hpos : nbytes ≠ 0) :
    c.read nbytes = some (min nbytes c.unread.length, c.unread.take nbytes,
      { c with
        start := if c.bufSize - c.start < nbytes then min (nbytes - (c.bufSize - c.start)) c.end_
          else c.start + nbytes }) := by
  have hbuf := h.length_buf
  have hstart := h.start_le
  have hend := h.end_le
  have hlen := h.length_unread
  have hle : ¬c.start ≤ c.end_ := by omega
  have hunread : c.unread = segment c.buf c.start c.bufSize ++ segment c.buf 0 c.end_ :=
    if_neg hle
  rw [if_neg hle] at hlen
  have hfirst : (segment c.buf c.start c.bufSize).length = c.bufSize - c.start :=
    segment_length (by omega)
  set nRead1 := min nbytes (c.bufSize - c.start) with hn1
  have hchoice1 : (if nbytes ≤ c.bufSize - c.start then nbytes else c.bufSize - c.start) =
      nRead1 := by split <;> omega
  have hcopy1 : copyOut c.buf c.start nRead1 =
      some ((segment c.buf c.start c.bufSize).take nRead1) := by
    rw [copyOut_eq_segment (by omega), take_segment (by omega)]
  simp only [read, if_neg hpos, if_neg hle, usub_of_le hstart, hchoice1, hcopy1,
    Option.bind_eq_bind, Option.bind_some, usub_of_le (show nRead1 ≤ nbytes by omega)]
  by_cases hwrap : c.bufSize - c.start < nbytes
  · have hn1' : nRead1 = c.bufSize - c.start := by omega
    set nRead2 := min (nbytes - nRead1) c.end_ with hn2
    have hchoice2 : (if nbytes - nRead1 ≤ c.end_ then nbytes - nRead1 else c.end_) =
        nRead2 := by split <;> omega
    have hcopy2 : copyOut c.buf 0 nRead2 = some ((segment c.buf 0 c.end_).take nRead2) := by
      rw [copyOut_eq_segment (by omega), take_segment (by omega)]
    have hbytes : (segment c.buf c.start c.bufSize).take nRead1 ++
        (segment c.buf 0 c.end_).take nRead2 = c.unread.take nbytes := by
      have hall (i : ℕ) (hi : c.bufSize - c.start ≤ i) :
          (segment c.buf c.start c.bufSize).take i = segment c.buf c.start c.bufSize :=
        List.take_of_length_le (by omega)
      rw [hunread, List.take_append, hfirst, hall _ (by omega), hall _ (by omega),
        List.take_eq_take_min (i := nbytes - _), segment_length (by omega), hn2, hn1',
        Nat.sub_zero]
    rw [if_pos (show 0 < nbytes - nRead1 by omega), if_pos hwrap, hchoice2, hcopy2,
      Option.bind_some, hbytes]
    congr 2
    · omega
    · rw [hn2, hn1']
  · have hbytes : (segment c.buf c.start c.bufSize).take nRead1 = c.unread.take nbytes := by
      rw [hunread, List.take_append_of_le_length (by omega)]
      congr 1
      omega
    rw [if_neg (show ¬0 < nbytes - nRead1 by omega), if_neg hwrap, hbytes]
    congr 2
    · omega
    · congr 2
      omega

/-- A `read` hands out the oldest unread bytes, as many as asked for and there are. -/
theorem Channel.read_spec (h : c.InBounds) (nbytes : ℕ) :
    ∃ c', c.read nbytes = some (min nbytes c.unread.length, c.unread.take nbytes, c') ∧
      c'.InBounds ∧ c'.bufSize = c.bufSize ∧ c'.unread = c.unread.drop nbytes := by
  have hbuf := h.length_buf
  have hstart := h.start_le
  have hend := h.end_le
  have hlen := h.length_unread
  by_cases hpos : nbytes = 0
  · subst hpos
    exact ⟨c, by simp [read], h, rfl, by simp⟩
  by_cases hle : c.start ≤ c.end_
  · refine ⟨_, read_one_segment h hle hpos, ⟨hbuf, ?_, hend⟩, rfl, ?_⟩
    · rw [if_pos hle] at hlen
      simp only
      omega
    · rw [if_pos hle] at hlen
      rw [unread, if_pos (by simp only; omega), List.drop_eq_drop_min, unread, if_pos hle,
        drop_segment, segment_length (by omega)]
  · refine ⟨_, read_two_segments h (by omega) hpos, ⟨hbuf, ?_, hend⟩, rfl, ?_⟩
    · simp only
      split <;> omega
    · have hfirst : (segment c.buf c.start c.bufSize).length = c.bufSize - c.start :=
        segment_length (by omega)
      conv_rhs => rw [unread, if_neg hle, List.drop_append, hfirst]
      by_cases hwrap : c.bufSize - c.start < nbytes
      · rw [unread, if_pos (by simp only [if_pos hwrap]; omega),
          List.drop_of_length_le (by omega), List.nil_append, List.drop_eq_drop_min,
          drop_segment, segment_length (by omega), if_pos hwrap]
        simp
      · rw [unread, if_neg (by simp only [if_neg hwrap]; omega), if_neg hwrap, drop_segment,
          Nat.sub_eq_zero_of_le (by omega), List.drop_zero]

/-- Writing in front of the unread data: one copy, one slot kept free. -/
theorem Channel.write_before_start (h : c.InBounds) (hlt : c.end_ < c.start) {src : List UInt8}
    (hpos : src.length ≠ 0) :
    c.write src = some (min src.length c.room,
      { c with
        buf := overwrite c.buf c.end_ (src.take c.room)
        end_ := c.end_ + min src.length c.room }) := by
  have hbuf := h.length_buf
  have hstart := h.start_le
  have hroom : c.room = c.start - c.end_ - 1 := if_pos hlt
  have hsz : usub (usub c.start c.end_) 1 = c.room := by
    rw [usub_of_le (Nat.le_of_lt hlt), usub_of_le (by omega), hroom]
  have hchoice : (if src.length ≤ c.room then src.length else c.room) = min src.length c.room := by
    split <;> omega
  have htake : src.take (min src.length c.room) = src.take c.room := by
    rw [Nat.min_comm, ← List.take_eq_take_min]
  have hlen : (src.take c.room).length ≤ c.room := List.length_take_le _ _
  simp only [write, if_neg hpos, if_pos hlt, hsz, hchoice, htake]
  rw [copyIn_eq_overwrite (by omega)]
  rfl

/-- Writing behind the unread data: the rest of the buffer first, then the start of it. -/
theorem Channel.write_behind_end (h : c.InBounds) (hle : c.start ≤ c.end_) {src : List UInt8}
    (hpos : src.length ≠ 0) :
    c.write src = some (min src.length c.room,
      { c with
        buf := overwrite (overwrite c.buf c.end_ (src.take (c.bufSize - c.end_))) 0
          ((src.drop (c.bufSize - c.end_)).take (c.start - 1))
        end_ := if c.bufSize - c.end_ < src.length ∧ 1 < c.start then
            min (src.length - (c.bufSize - c.end_)) (c.start - 1)
          else c.end_ + min src.length (c.bufSize - c.end_) }) := by
  have hbuf := h.length_buf
  have hend := h.end_le
  have hlt : ¬c.end_ < c.start := by omega
  have hroom : c.room = (c.bufSize - c.end_) + (c.start - 1) := if_neg hlt
  set nWrite1 := min src.length (c.bufSize - c.end_) with hn1
  have hchoice1 : (if src.length ≤ c.bufSize - c.end_ then src.length else c.bufSize - c.end_) =
      nWrite1 := by split <;> omega
  have htake1 : src.take nWrite1 = src.take (c.bufSize - c.end_) := by
    rw [hn1, Nat.min_comm, ← List.take_eq_take_min]
  have hlen1 : (src.take (c.bufSize - c.end_)).length = nWrite1 := by
    rw [List.length_take]
    omega
  have hcopy1 : copyIn c.buf c.end_ (src.take nWrite1) =
      some (overwrite c.buf c.end_ (src.take (c.bufSize - c.end_))) := by
    rw [htake1, copyIn_eq_overwrite (by omega)]
  have hlength1 : (overwrite c.buf c.end_ (src.take (c.bufSize - c.end_))).length = c.bufSize := by
    rw [overwrite_length (by omega), hbuf]
  simp only [write, if_neg hpos, if_neg hlt, usub_of_le hend, hchoice1, hcopy1,
    Option.bind_eq_bind, Option.bind_some, usub_of_le (show nWrite1 ≤ src.length by omega)]
  by_cases hwrap : 0 < src.length - nWrite1 ∧ 0 < c.start
  · set nWrite2 := min (src.length - nWrite1) (c.start - 1) with hn2
    have hn1' : nWrite1 = c.bufSize - c.end_ := by omega
    have hchoice2 : (if src.length - nWrite1 ≤ c.start - 1 then src.length - nWrite1
        else c.start - 1) = nWrite2 := by split <;> omega
    have htake2 : (src.drop nWrite1).take nWrite2 =
        (src.drop (c.bufSize - c.end_)).take (c.start - 1) := by
      rw [hn2, hn1', Nat.min_comm, List.take_eq_take_min (i := c.start - 1), List.length_drop]
    rw [if_pos hwrap, usub_of_le (by omega), hchoice2, htake2,
      copyIn_eq_overwrite (by rw [List.length_take]; omega)]
    simp only [Option.bind_some]
    congr 2
    · omega
    · congr 1
      split <;> split <;> omega
  · rw [if_neg hwrap, if_neg (by omega)]
    have hnil : (src.drop (c.bufSize - c.end_)).take (c.start - 1) = [] := by
      rcases Nat.eq_zero_or_pos c.start with hzero | hstart
      · simp [hzero]
      · rw [List.drop_of_length_le (by omega), List.take_nil]
    rw [hnil]
    congr 2
    omega

/-- A `write` appends the leading bytes of its argument, as many as there is room for. -/
theorem Channel.write_spec (h : c.InBounds) (src : List UInt8) :
    ∃ c', c.write src = some (min src.length c.room, c') ∧ c'.InBounds ∧
      c'.bufSize = c.bufSize ∧ c'.start = c.start ∧
      c'.unread = c.unread ++ src.take c.room := by
  have hbuf := h.length_buf
  have hstart := h.start_le
  have hend := h.end_le
  by_cases hpos : src.length = 0
  · rw [List.length_eq_zero_iff] at hpos
    subst hpos
    exact ⟨c, by simp [write], h, rfl, rfl, by simp⟩
  by_cases hlt : c.end_ < c.start
  · have hroom : c.room = c.start - c.end_ - 1 := if_pos hlt
    have hlen : (src.take c.room).length = min src.length c.room := by
      rw [List.length_take, Nat.min_comm]
    refine ⟨_, write_before_start h hlt hpos, ⟨?_, hstart, ?_⟩, rfl, rfl, ?_⟩
    · simp only
      rw [overwrite_length (by omega), hbuf]
    · simp only
      omega
    · simp only [unread, if_neg (show ¬c.start ≤ c.end_ + min src.length c.room by omega),
        if_neg (show ¬c.start ≤ c.end_ by omega)]
      rw [segment_overwrite_after (by omega) (by omega), List.append_assoc,
        ← segment_append (Nat.zero_le c.end_) (Nat.le_add_right _ _),
        segment_overwrite_before (Nat.le_refl _) (by omega), ← hlen,
        segment_overwrite_self (by omega)]
  · have hroom : c.room = (c.bufSize - c.end_) + (c.start - 1) := if_neg hlt
    have hle : c.start ≤ c.end_ := by omega
    set first := src.take (c.bufSize - c.end_) with hfirst
    set second := (src.drop (c.bufSize - c.end_)).take (c.start - 1) with hsecond
    have hsrc : src.take c.room = first ++ second := by
      rw [hroom, List.take_add]
    have hlen1 : first.length = min (c.bufSize - c.end_) src.length := List.length_take
    have hlen2 : second.length = min (c.start - 1) (src.length - (c.bufSize - c.end_)) := by
      rw [hsecond, List.length_take, List.length_drop]
    have hbuf1 : (overwrite c.buf c.end_ first).length = c.bufSize := by
      rw [overwrite_length (by omega), hbuf]
    have hbuf2 : (overwrite (overwrite c.buf c.end_ first) 0 second).length = c.bufSize := by
      rw [overwrite_length (by omega), hbuf1]
    -- the old data and the first copy, seen through the second copy
    have hold : segment (overwrite (overwrite c.buf c.end_ first) 0 second) c.start
        (c.end_ + first.length) = segment c.buf c.start c.end_ ++ first := by
      rw [segment_overwrite_after (by omega) (by omega),
        ← segment_append hle (Nat.le_add_right _ _),
        segment_overwrite_before (Nat.le_refl _) (by omega), segment_overwrite_self (by omega)]
    refine ⟨_, write_behind_end h hle hpos, ⟨hbuf2, hstart, ?_⟩, rfl, rfl, ?_⟩
    · simp only
      split <;> omega
    · rw [hsrc, ← List.append_assoc, show c.unread = segment c.buf c.start c.end_ from if_pos hle,
        ← hold]
      by_cases hwrap : c.bufSize - c.end_ < src.length ∧ 1 < c.start
      · have hend2 : min (src.length - (c.bufSize - c.end_)) (c.start - 1) = second.length := by
          omega
        simp only [unread, if_pos hwrap, hend2]
        rw [if_neg (by omega), show c.end_ + first.length = c.bufSize by omega]
        conv_lhs => rw [← Nat.zero_add second.length, segment_overwrite_self (by omega)]
      · have hnil : second = [] := List.eq_nil_of_length_eq_zero (by omega)
        simp only [unread, if_neg hwrap]
        rw [if_pos (by omega), Nat.min_comm src.length, ← hlen1]
        exact (List.append_nil _).symm.trans (congrArg _ hnil.symm)

end CppMtHw.NetEngine
