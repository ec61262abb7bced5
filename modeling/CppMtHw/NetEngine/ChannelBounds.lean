import CppMtHw.NetEngine.ChannelFifo

/-!
# Every access of a channel is in range

`checkedRead` and `checkedWrite` run the code of `read` and `write` with every
unsigned subtraction, every index stored and every `memcpy` checked: a check that
fails has no result. In a reachable channel they never fail and compute what the
code computes.
-/

namespace CppMtHw.NetEngine

open Machine

/-- A `size_t` subtraction that does not wrap. -/
def checkedSub (a b : ℕ) : Option ℕ := if b ≤ a then some (a - b) else none

/-- A value stored in `start` or `end`. -/
def Channel.checkedIndex (c : Channel) (index : ℕ) : Option ℕ :=
  if index ≤ c.bufSize then some index else none

def Channel.unreadIndices (c : Channel) : List ℕ :=
  if c.start ≤ c.end_ then List.range' c.start (c.end_ - c.start)
  else List.range' c.start (c.bufSize - c.start) ++ List.range' 0 c.end_

/-- A `memcpy` into `buf` that spares every unread byte. -/
def Channel.checkedCopyIn (c : Channel) (index : ℕ) (src : List UInt8) : Option (List UInt8) :=
  if ∀ i ∈ c.unreadIndices, i < index ∨ index + src.length ≤ i then copyIn c.buf index src else none

def Channel.checkedRead (c : Channel) (nbytes : ℕ) : Option (ℕ × List UInt8 × Channel) :=
  if nbytes = 0 then
    some (0, [], c)
  else if c.start ≤ c.end_ then do
    let sz ← checkedSub c.end_ c.start
    let nRead := if nbytes ≤ sz then nbytes else sz
    let bytes ← copyOut c.buf c.start nRead
    let start ← c.checkedIndex (c.start + nRead)
    some (nRead, bytes, { c with start })
  else do
    let sz1 ← checkedSub c.bufSize c.start
    let nRead1 := if nbytes ≤ sz1 then nbytes else sz1
    let bytes1 ← copyOut c.buf c.start nRead1
    let start1 ← c.checkedIndex (c.start + nRead1)
    let remaining ← checkedSub nbytes nRead1
    if 0 < remaining then do
      let nRead2 := if remaining ≤ c.end_ then remaining else c.end_
      let bytes2 ← copyOut c.buf 0 nRead2
      let start ← c.checkedIndex nRead2
      some (nRead1 + nRead2, bytes1 ++ bytes2, { c with start })
    else
      some (nRead1, bytes1, { c with start := start1 })

def Channel.checkedWrite (c : Channel) (src : List UInt8) : Option (ℕ × Channel) :=
  let nbytes := src.length
  if nbytes = 0 then
    some (0, c)
  else if c.end_ < c.start then do
    let gap ← checkedSub c.start c.end_
    let sz ← checkedSub gap 1
    let nWrite := if nbytes ≤ sz then nbytes else sz
    let buf ← c.checkedCopyIn c.end_ (src.take nWrite)
    let end_ ← c.checkedIndex (c.end_ + nWrite)
    some (nWrite, { c with buf, end_ })
  else do
    let sz1 ← checkedSub c.bufSize c.end_
    let nWrite1 := if nbytes ≤ sz1 then nbytes else sz1
    let buf ← c.checkedCopyIn c.end_ (src.take nWrite1)
    let end1 ← c.checkedIndex (c.end_ + nWrite1)
    let remaining ← checkedSub nbytes nWrite1
    if 0 < remaining ∧ 0 < c.start then do
      let sz2 ← checkedSub c.start 1
      let nWrite2 := if remaining ≤ sz2 then remaining else sz2
      -- what the first copy wrote is unread by now as well
      let buf2 ← { c with buf, end_ := end1 }.checkedCopyIn 0 ((src.drop nWrite1).take nWrite2)
      let end_ ← c.checkedIndex (if nWrite2 ≠ 0 then nWrite2 else end1)
      some (nWrite1 + nWrite2, { c with buf := buf2, end_ })
    else
      some (nWrite1, { c with buf, end_ := end1 })

@[simp] theorem checkedSub_of_le {a b : ℕ} (h : b ≤ a) : checkedSub a b = some (a - b) := if_pos h

variable {c : Channel}

@[simp] theorem Channel.checkedIndex_of_le {index : ℕ} (h : index ≤ c.bufSize) :
    c.checkedIndex index = some index := if_pos h

theorem Channel.mem_unreadIndices {i : ℕ} :
    i ∈ c.unreadIndices ↔
      if c.start ≤ c.end_ then c.start ≤ i ∧ i < c.end_
      else (c.start ≤ i ∧ i < c.start + (c.bufSize - c.start)) ∨ i < c.end_ := by
  unfold unreadIndices
  split
  · rw [List.mem_range'_1]
    omega
  · rw [List.mem_append, List.mem_range'_1, List.mem_range'_1]
    omega

theorem getElem?_segment {buf : List UInt8} {first last : ℕ} (h : last ≤ buf.length) :
    (segment buf first last).map some = (List.range' first (last - first)).map (buf[·]?) := by
  apply List.ext_getElem
  · rw [List.length_map, List.length_map, segment_length h, List.length_range']
  · intro i hleft hright
    rw [List.length_map, List.length_range'] at hright
    have hi : first + i < buf.length := by omega
    simp only [List.getElem_map, List.getElem_range', Nat.one_mul, Machine.segment,
      List.getElem_take, List.getElem_drop]
    exact (List.getElem?_eq_getElem hi).symm

/-- The unread bytes are those at the unread positions. -/
theorem Channel.InBounds.unread_eq_map (h : c.InBounds) :
    c.unread.map some = c.unreadIndices.map (c.buf[·]?) := by
  have hbuf := h.length_buf
  have hend := h.end_le
  unfold unread unreadIndices
  split
  · exact getElem?_segment (by omega)
  · rw [List.map_append, List.map_append, getElem?_segment (by omega),
      getElem?_segment (by omega), Nat.sub_zero]

/-- A copy that meets no unread position goes through. -/
theorem Channel.checkedCopyIn_eq {index : ℕ} {src : List UInt8}
    (hdisjoint : ∀ i ∈ c.unreadIndices, i < index ∨ index + src.length ≤ i) :
    c.checkedCopyIn index src = copyIn c.buf index src := if_pos hdisjoint

theorem Channel.InBounds.checkedRead_eq (h : c.InBounds) (nbytes : ℕ) :
    c.checkedRead nbytes = c.read nbytes := by
  have hbuf := h.length_buf
  have hstart := h.start_le
  have hend := h.end_le
  by_cases hpos : nbytes = 0
  · rw [checkedRead, read, if_pos hpos, if_pos hpos]
  by_cases hle : c.start ≤ c.end_
  · set count := if nbytes ≤ c.end_ - c.start then nbytes else c.end_ - c.start with hcount
    have hbound : c.start + count ≤ c.bufSize := by split at hcount <;> omega
    simp only [checkedRead, read, if_neg hpos, if_pos hle, checkedSub_of_le hle, usub_of_le hle,
      Option.bind_eq_bind, Option.bind_some, ← hcount, checkedIndex_of_le hbound]
  · set count := if nbytes ≤ c.bufSize - c.start then nbytes else c.bufSize - c.start with hcount
    have hbound : c.start + count ≤ c.bufSize := by split at hcount <;> omega
    have hcut : count ≤ nbytes := by split at hcount <;> omega
    set rest := if nbytes - count ≤ c.end_ then nbytes - count else c.end_ with hrest
    have hwrap : rest ≤ c.bufSize := by split at hrest <;> omega
    simp only [checkedRead, read, if_neg hpos, if_neg hle, checkedSub_of_le hstart,
      usub_of_le hstart, Option.bind_eq_bind, Option.bind_some, ← hcount,
      checkedIndex_of_le hbound, checkedSub_of_le hcut, usub_of_le hcut, ← hrest,
      checkedIndex_of_le hwrap]

theorem Channel.InBounds.checkedWrite_eq (h : c.InBounds) (src : List UInt8) :
    c.checkedWrite src = c.write src := by
  have hbuf := h.length_buf
  have hstart := h.start_le
  have hend := h.end_le
  by_cases hpos : src.length = 0
  · simp only [checkedWrite, write, if_pos hpos]
  by_cases hlt : c.end_ < c.start
  · have hle : c.end_ ≤ c.start := Nat.le_of_lt hlt
    have hgap : 1 ≤ c.start - c.end_ := by omega
    set count := if src.length ≤ c.start - c.end_ - 1 then src.length
      else c.start - c.end_ - 1 with hcount
    have hfits : c.end_ + count < c.start := by split at hcount <;> omega
    have hbound : c.end_ + count ≤ c.bufSize := by omega
    have hcopy : c.checkedCopyIn c.end_ (src.take count) = copyIn c.buf c.end_
        (src.take count) := by
      apply checkedCopyIn_eq
      intro i hi
      rw [mem_unreadIndices, if_neg (by omega)] at hi
      rw [List.length_take]
      omega
    simp only [checkedWrite, write, if_neg hpos, if_pos hlt, checkedSub_of_le hle,
      usub_of_le hle, Option.bind_eq_bind, Option.bind_some, checkedSub_of_le hgap,
      usub_of_le hgap, ← hcount, hcopy, checkedIndex_of_le hbound]
  · set count := if src.length ≤ c.bufSize - c.end_ then src.length else c.bufSize - c.end_
      with hcount
    have hbound : c.end_ + count ≤ c.bufSize := by split at hcount <;> omega
    have hcut : count ≤ src.length := by split at hcount <;> omega
    have hcopy : c.checkedCopyIn c.end_ (src.take count) = copyIn c.buf c.end_
        (src.take count) := by
      apply checkedCopyIn_eq
      intro i hi
      rw [mem_unreadIndices, if_pos (by omega)] at hi
      omega
    simp only [checkedWrite, write, if_neg hpos, if_neg hlt, checkedSub_of_le hend,
      usub_of_le hend, Option.bind_eq_bind, Option.bind_some, ← hcount, hcopy,
      checkedIndex_of_le hbound, checkedSub_of_le hcut, usub_of_le hcut]
    apply congrArg (Option.bind _)
    funext buf
    by_cases hwrap : 0 < src.length - count ∧ 0 < c.start
    · have hfirst : 1 ≤ c.start := hwrap.2
      set rest := if src.length - count ≤ c.start - 1 then src.length - count else c.start - 1
        with hrest
      have hrestLe : rest ≤ c.start - 1 := by split at hrest <;> omega
      have hlast : (if rest ≠ 0 then rest else c.end_ + count) ≤ c.bufSize := by split <;> omega
      have hcopy2 : Channel.checkedCopyIn { c with buf, end_ := c.end_ + count } 0
          ((src.drop count).take rest) = copyIn buf 0 ((src.drop count).take rest) := by
        apply checkedCopyIn_eq
        intro i hi
        rw [mem_unreadIndices, if_pos (by simp only; omega)] at hi
        rw [List.length_take, List.length_drop]
        simp only at hi
        omega
      simp only [if_pos hwrap, checkedSub_of_le hfirst, usub_of_le hfirst, Option.bind_some,
        ← hrest, hcopy2, checkedIndex_of_le hlast]
    · rw [if_neg hwrap, if_neg hwrap]

/-- In every reachable channel both indices are in range, and every `read` and every `write` goes
through with each subtraction, index and copy checked, with the result the code gives. -/
theorem channel_accesses_in_range {fresh : List UInt8} {calls : List (Fifo.Call UInt8)}
    (hrun : Run Channel.Step (Channel.new fresh) calls c) :
    (c.buf.length = c.bufSize ∧ c.bufSize = fresh.length ∧ c.start ≤ c.bufSize ∧
      c.end_ ≤ c.bufSize) ∧
    (∀ nbytes, ∃ result, c.checkedRead nbytes = some result ∧ c.read nbytes = some result) ∧
    (∀ src, ∃ result, c.checkedWrite src = some result ∧ c.write src = some result) := by
  obtain ⟨hin, hsize⟩ := Channel.run_inBounds hrun
  have hread (nbytes : ℕ) : ∃ result, c.checkedRead nbytes = some result ∧
      c.read nbytes = some result := by
    obtain ⟨c', hspec, -⟩ := Channel.read_spec hin nbytes
    exact ⟨_, (hin.checkedRead_eq nbytes).trans hspec, hspec⟩
  have hwrite (src : List UInt8) : ∃ result, c.checkedWrite src = some result ∧
      c.write src = some result := by
    obtain ⟨c', hspec, -⟩ := Channel.write_spec hin src
    exact ⟨_, (hin.checkedWrite_eq src).trans hspec, hspec⟩
  exact ⟨⟨hin.length_buf, hsize, hin.start_le, hin.end_le⟩, hread, hwrite⟩

/-- After a wrap both indices are in the buffer and a two-segment read goes through. -/
theorem channel_accesses_in_range_wrapped :
    ∃ c, Run Channel.Step (Channel.new [0, 0, 0])
        ([] ++ [.write [1, 2, 3] 3] ++ [.read 2 [1, 2]] ++ [.write [4] 1]) c ∧
      c.start ≤ c.bufSize ∧ c.end_ ≤ c.bufSize ∧
      ∃ result, c.checkedRead 2 = some result ∧ c.read 2 = some result := by
  have hrun : Run Channel.Step (Channel.new [0, 0, 0])
      ([] ++ [.write [1, 2, 3] 3] ++ [.read 2 [1, 2]] ++ [.write [4] 1])
      { buf := [4, 2, 3], bufSize := 3, start := 2, end_ := 1 } :=
    .snoc (.snoc (.snoc (.nil _) (.write rfl)) (.read rfl)) (.write rfl)
  have hrange := channel_accesses_in_range hrun
  exact ⟨_, hrun, hrange.1.2.2.1, hrange.1.2.2.2, hrange.2.1 2⟩

end CppMtHw.NetEngine
