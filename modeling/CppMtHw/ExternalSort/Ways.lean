import CppMtHw.ExternalSort.Files
import CppMtHw.Machine.Buffer

/-!
# Input and output ways

`InputWay` and `OutputWay` of `hw03`: buffered reading and writing of a file through a
slice of the shared buffer. An input way stands for the entries it has still to
deliver, an output way for those it has been given; refilling and flushing change
neither, and both stay inside their slice.
-/

namespace CppMtHw.ExternalSort

open Machine Memory

/-- The fields of `class InputWay`; a way that has been moved from has no descriptor and no
buffer. -/
structure InputWay where
  fd : Option Descriptor
  buf : Option ℕ
  pos : ℕ
  size : ℕ
  remain : ℕ
  filename : ℕ

namespace InputWay

/-- `InputWay(file_name, buffer, buf_size)`; `none` if the file is not there. -/
def new (disk : Disk) (fileName buffer bufSize : ℕ) : Option InputWay := do
  let remain ← disk.stat fileName
  let fd ← disk.openFile fileName
  some { fd := some fd, buf := some buffer, pos := bufSize, size := bufSize, remain,
         filename := fileName }

/-- `InputWay(InputWay&&)`: the new way and what is left of the other one. -/
def move (other : InputWay) : InputWay × InputWay := (other, { other with fd := none, buf := none })

def destroy (disk : Disk) (way : InputWay) : Disk := disk.unlink way.filename

def empty (way : InputWay) : Bool := way.pos = way.size ∧ way.remain = 0

def loadChunk (disk : Disk) (mem : Memory) (way : InputWay) : Option (Memory × InputWay) :=
  if way.remain = 0 then
    some (mem, way)
  else do
    let size := if way.size < way.remain then way.size else way.remain
    let fd ← way.fd
    let buf ← way.buf
    let (data, fd) := disk.read fd size
    let mem ← mem.put buf data
    some (mem, { way with fd := some fd, size, remain := usub way.remain size, pos := 0 })

def top (disk : Disk) (mem : Memory) (way : InputWay) : Option (Data × Memory × InputWay) :=
  if way.empty then
    some (0, mem, way)
  else do
    let (mem, way) ← if way.pos = way.size then way.loadChunk disk mem else some (mem, way)
    let buf ← way.buf
    let number ← mem.get (buf + way.pos)
    some (number, mem, way)

def get (disk : Disk) (mem : Memory) (way : InputWay) : Option (Data × Memory × InputWay) := do
  let (topNumber, mem, way) ← way.top disk mem
  some (topNumber, mem, { way with pos := way.pos + 1 })

end InputWay

structure OutputWay where
  fd : ℕ
  buf : ℕ
  pos : ℕ
  size : ℕ
  fileName : ℕ

namespace OutputWay

def new (disk : Disk) (buffer bufSize : ℕ) : OutputWay × Disk :=
  let (name, disk) := disk.mkstemp
  ({ fd := name, buf := buffer, pos := 0, size := bufSize, fileName := name }, disk)

def put (disk : Disk) (mem : Memory) (out : OutputWay) (data : Data) :
    Option (Disk × Memory × OutputWay) := do
  let mem ← mem.put (out.buf + out.pos) [data]
  let out := { out with pos := out.pos + 1 }
  if out.pos = out.size then
    let chunk ← mem.getSlice out.buf out.size
    some (disk.write out.fd chunk, mem, { out with pos := 0 })
  else
    some (disk, mem, out)

def destroy (disk : Disk) (mem : Memory) (out : OutputWay) : Option Disk := do
  let chunk ← mem.getSlice out.buf out.pos
  some (disk.write out.fd chunk)

end OutputWay

variable {disk disk' : Disk} {mem mem' : Memory} {way : InputWay} {out : OutputWay}
  {base waySize : ℕ} {rest written : List Data} {x : Data}

/-! ## What an input way has still to deliver -/

/-- The way reads its file through the slice of `waySize` entries at `base`, and `rest` is what it
has still to deliver. -/
structure InputWay.Reads (way : InputWay) (disk : Disk) (mem : Memory) (base waySize : ℕ)
    (rest : List Data) : Prop where
  inside : base + waySize ≤ mem.size
  buf : way.buf = some base
  pos_le : way.pos ≤ way.size
  size_pos : 0 < way.size
  size_le : way.size ≤ waySize
  unread : ∃ offset, way.fd = some { file := way.filename, offset } ∧
    way.remain = ((disk.content way.filename).drop offset).length ∧
    rest = mem.slice (base + way.pos) (way.size - way.pos) ++
      (disk.content way.filename).drop offset

/-- A way that has just been opened has the whole file to deliver. -/
theorem InputWay.new_reads {name : ℕ} (hlinked : disk.linked name = true)
    (hinside : base + waySize ≤ mem.size) (hpos : 0 < waySize) :
    ∃ way, InputWay.new disk name base waySize = some way ∧ way.filename = name ∧
      way.Reads disk mem base waySize (disk.content name) := by
  refine ⟨_, by simp only [new, Disk.stat, Disk.openFile, hlinked, if_true]; rfl, rfl, ?_⟩
  exact {
    inside := hinside
    buf := rfl
    pos_le := Nat.le_refl _
    size_pos := hpos
    size_le := Nat.le_refl _
    unread := ⟨0, rfl, by simp, by simp⟩ }

theorem InputWay.Reads.empty_iff (h : way.Reads disk mem base waySize rest) :
    way.empty = true ↔ rest = [] := by
  obtain ⟨offset, -, hremain, hrest⟩ := h.unread
  have hpos := h.pos_le
  have hlength := congrArg List.length hrest
  rw [List.length_append, length_slice, ← hremain] at hlength
  rw [← List.length_eq_zero_iff, hlength, InputWay.empty, decide_eq_true_iff]
  omega

/-- The slice and the file decide what is read. -/
theorem InputWay.Reads.congr (h : way.Reads disk mem base waySize rest)
    (hmem : mem'.size = mem.size)
    (hslice : ∀ j, base ≤ j → j < base + waySize → mem'.entry j = mem.entry j)
    (hdisk : disk'.content way.filename = disk.content way.filename) :
    way.Reads disk' mem' base waySize rest where
  inside := hmem ▸ h.inside
  buf := h.buf
  pos_le := h.pos_le
  size_pos := h.size_pos
  size_le := h.size_le
  unread := by
    obtain ⟨offset, hfd, hremain, hrest⟩ := h.unread
    refine ⟨offset, hfd, hdisk ▸ hremain, ?_⟩
    have hle := h.size_le
    have hsame : mem'.slice (base + way.pos) (way.size - way.pos) =
        mem.slice (base + way.pos) (way.size - way.pos) := by
      apply List.map_congr_left
      intro k hk
      rw [List.mem_range] at hk
      exact hslice _ (by omega) (by omega)
    rw [hdisk, hsame, ← hrest]

/-- Refilling an exhausted slice changes nothing about what is to be delivered. -/
theorem InputWay.Reads.loadChunk (h : way.Reads disk mem base waySize rest)
    (hpos : way.pos = way.size) (hremain : way.remain ≠ 0) :
    ∃ mem' way', way.loadChunk disk mem = some (mem', way') ∧ way'.filename = way.filename ∧
      way'.Reads disk mem' base waySize rest ∧ AgreeOutside base (base + waySize) mem mem' ∧
      way'.pos < way'.size := by
  obtain ⟨offset, hfd, hlength, hrest⟩ := h.unread
  have hinside := h.inside
  have hsizePos := h.size_pos
  have hsizeLe := h.size_le
  set left := (disk.content way.filename).drop offset with hleft
  set size := if way.size < way.remain then way.size else way.remain with hsize
  have hsizeBound : size ≤ way.size ∧ size ≤ way.remain ∧ 0 < size := by
    rw [hsize]
    split <;> omega
  have hdata : (left.take size).length = size := by
    rw [List.length_take]
    omega
  obtain ⟨mem', hput, hagree, hslice⟩ :=
    put_spec mem base (left.take size) (by omega)
  rw [hdata] at hagree hslice
  refine ⟨mem', { way with
      fd := some { file := way.filename, offset := offset + size }
      size := size, remain := way.remain - size, pos := 0 },
    ?_, rfl, ?_, hagree.mono (Nat.le_refl _) (by omega), hsizeBound.2.2⟩
  · simp only [InputWay.loadChunk, if_neg hremain, ← hsize, hfd, h.buf, Option.bind_eq_bind,
      Option.bind_some, Disk.read, ← hleft, hput, usub_of_le hsizeBound.2.1]
  · refine ⟨?_, h.buf, Nat.zero_le _, hsizeBound.2.2, Nat.le_trans hsizeBound.1 hsizeLe,
      offset + size, rfl, ?_, ?_⟩
    · have hsame := hagree.size
      omega
    · rw [← List.drop_drop, ← hleft, List.length_drop, ← hlength]
    · -- the exhausted slice held nothing, and the new one holds what the file loses
      have hold : rest = left := by
        rw [hrest, hpos, Nat.sub_self, slice_zero, List.nil_append]
      rw [← List.drop_drop, ← hleft, hold, Nat.add_zero, Nat.sub_zero, hslice,
        List.take_append_drop]

/-- `top()` delivers the next entry without using it up. -/
theorem InputWay.Reads.top (h : way.Reads disk mem base waySize rest) :
    ∃ mem' way', way.top disk mem = some (rest.headD 0, mem', way') ∧
      way'.filename = way.filename ∧ way'.Reads disk mem' base waySize rest ∧
      AgreeOutside base (base + waySize) mem mem' ∧ (rest ≠ [] → way'.pos < way'.size) := by
  by_cases hempty : way.empty = true
  · have hrest := h.empty_iff.mp hempty
    refine ⟨mem, way, ?_, rfl, h, AgreeOutside.refl _ _ _, fun hne ↦ absurd hrest hne⟩
    simp only [InputWay.top, if_pos hempty, hrest, List.headD_nil]
  · -- either way there is an entry in the slice
    have hloaded : ∃ mem' way', (if way.pos = way.size then way.loadChunk disk mem
        else some (mem, way)) = some (mem', way') ∧ way'.filename = way.filename ∧
        way'.Reads disk mem' base waySize rest ∧ AgreeOutside base (base + waySize) mem mem' ∧
        way'.pos < way'.size := by
      by_cases hpos : way.pos = way.size
      · rw [if_pos hpos]
        refine h.loadChunk hpos fun hremain ↦ hempty ?_
        exact decide_eq_true ⟨hpos, hremain⟩
      · rw [if_neg hpos]
        have hle := h.pos_le
        exact ⟨mem, way, rfl, rfl, h, AgreeOutside.refl _ _ _, by omega⟩
    obtain ⟨mem', way', hload, hname, hreads, hagree, hlt⟩ := hloaded
    refine ⟨mem', way', ?_, hname, hreads, hagree, fun _ ↦ hlt⟩
    obtain ⟨offset, -, -, hrest⟩ := hreads.unread
    have hsucc : way'.size - way'.pos = (way'.size - way'.pos - 1) + 1 := by omega
    have hhead : rest.headD 0 = mem'.entry (base + way'.pos) := by
      rw [hrest, hsucc, slice_succ]
      rfl
    have hinside := hreads.inside
    have hsize := hreads.size_le
    have hget : mem'.get (base + way'.pos) = some (mem'.entry (base + way'.pos)) :=
      if_pos (by omega)
    simp only [InputWay.top, if_neg hempty, Option.bind_eq_bind, hhead]
    by_cases hpos : way.pos = way.size
    · rw [if_pos hpos] at hload ⊢
      simp only [hload, Option.bind_some, hreads.buf, hget]
    · rw [if_neg hpos] at hload ⊢
      obtain ⟨rfl, rfl⟩ := Prod.mk.inj (Option.some.inj hload)
      simp only [Option.bind_some, hreads.buf, hget]

/-- `get()` delivers the next entry and uses it up. -/
theorem InputWay.Reads.get (h : way.Reads disk mem base waySize (x :: rest)) :
    ∃ mem' way', way.get disk mem = some (x, mem', way') ∧ way'.filename = way.filename ∧
      way'.Reads disk mem' base waySize rest ∧ AgreeOutside base (base + waySize) mem mem' := by
  obtain ⟨mem', way', htop, hname, hreads, hagree, hlt⟩ := h.top
  have hlt := hlt (by simp)
  refine ⟨mem', { way' with pos := way'.pos + 1 }, ?_, hname, ?_, hagree⟩
  · simp only [InputWay.get, htop, Option.bind_eq_bind, Option.bind_some, List.headD_cons]
  · obtain ⟨offset, hfd, hremain, hrest⟩ := hreads.unread
    refine ⟨hreads.inside, hreads.buf, hlt, hreads.size_pos, hreads.size_le, offset,
      hfd, hremain, ?_⟩
    have hsucc : way'.size - way'.pos = (way'.size - (way'.pos + 1)) + 1 := by omega
    rw [hsucc, slice_succ, List.cons_append] at hrest
    exact (List.cons.inj hrest).2

/-! ## What an output way has been given -/

/-- The way writes its file through the slice of `waySize` entries at `base`, and `written` is what
it has been given. -/
structure OutputWay.Writes (out : OutputWay) (disk : Disk) (mem : Memory) (base waySize : ℕ)
    (written : List Data) : Prop where
  inside : base + waySize ≤ mem.size
  buf : out.buf = base
  size : out.size = waySize
  pos_lt : out.pos < waySize
  name : out.fd = out.fileName
  given : written = disk.content out.fd ++ mem.slice base out.pos

theorem OutputWay.Writes.congr (h : out.Writes disk mem base waySize written)
    (hmem : mem'.size = mem.size)
    (hslice : ∀ j, base ≤ j → j < base + waySize → mem'.entry j = mem.entry j) :
    out.Writes disk mem' base waySize written where
  inside := hmem ▸ h.inside
  buf := h.buf
  size := h.size
  pos_lt := h.pos_lt
  name := h.name
  given := by
    have hlt := h.pos_lt
    have hsame : mem'.slice base out.pos = mem.slice base out.pos := by
      apply List.map_congr_left
      intro k hk
      rw [List.mem_range] at hk
      exact hslice _ (by omega) (by omega)
    rw [hsame, ← h.given]

theorem content_write_self {file : ℕ} {data : List Data} :
    (disk.write file data).content file = disk.content file ++ data := Function.update_self _ _ _

theorem content_write {name file : ℕ} {data : List Data} (h : name ≠ file) :
    (disk.write file data).content name = disk.content name := Function.update_of_ne h _ _

/-- `put` appends an entry to what the way has been given, and touches no other file. -/
theorem OutputWay.Writes.put (h : out.Writes disk mem base waySize written) (x : Data) :
    ∃ disk' mem' out', out.put disk mem x = some (disk', mem', out') ∧ out'.fd = out.fd ∧
      out'.Writes disk' mem' base waySize (written ++ [x]) ∧
      AgreeOutside base (base + waySize) mem mem' ∧ disk'.linked = disk.linked ∧
      disk'.created = disk.created ∧
      ∀ name, name ≠ out.fd → disk'.content name = disk.content name := by
  have hinside := h.inside
  have hlt := h.pos_lt
  obtain ⟨mem', hput, hagree, hslice⟩ :=
    put_spec mem (base + out.pos) [x] (by simpa using (by omega))
  have hentry : mem'.slice base (out.pos + 1) = mem.slice base out.pos ++ [x] := by
    have hbefore : mem'.slice base out.pos = mem.slice base out.pos :=
      hagree.slice_eq (Or.inl (Nat.le_refl _))
    have hlast : mem'.entry (base + out.pos) = x := by
      simpa [slice_succ] using hslice
    rw [slice_append_last, hbefore, hlast]
  have hinside' : base + waySize ≤ mem'.size := hagree.size ▸ hinside
  have hwide : AgreeOutside base (base + waySize) mem mem' :=
    hagree.mono (Nat.le_add_right _ _) (by simp only [List.length_singleton]; omega)
  by_cases hfull : out.pos + 1 = waySize
  · have hchunk : mem'.getSlice base waySize = some (mem.slice base out.pos ++ [x]) := by
      rw [getSlice_eq hinside', ← hfull, hentry]
    refine ⟨disk.write out.fd (mem.slice base out.pos ++ [x]), mem', { out with pos := 0 }, ?_, rfl,
      ?_, hwide, rfl, rfl, fun name hname ↦ content_write hname⟩
    · simp only [OutputWay.put, h.buf, hput, Option.bind_eq_bind, Option.bind_some, h.size, hfull,
        if_true, hchunk]
    · refine ⟨hinside', h.buf, h.size, Nat.lt_of_le_of_lt (Nat.zero_le _) hlt, h.name, ?_⟩
      rw [h.given, slice_zero, List.append_nil, content_write_self, List.append_assoc]
  · have hroom : out.pos + 1 < waySize := by omega
    refine ⟨disk, mem', { out with pos := out.pos + 1 }, ?_, rfl, ?_, hwide, rfl, rfl,
      fun _ _ ↦ rfl⟩
    · simp only [OutputWay.put, h.buf, hput, Option.bind_eq_bind, Option.bind_some, h.size,
        if_neg hfull]
    · refine ⟨hinside', h.buf, h.size, hroom, h.name, ?_⟩
      rw [hentry, h.given, List.append_assoc]

/-- Destruction leaves everything the way has been given in its file. -/
theorem OutputWay.Writes.destroy (h : out.Writes disk mem base waySize written) :
    ∃ disk', out.destroy disk mem = some disk' ∧ disk'.content out.fd = written ∧
      disk'.linked = disk.linked ∧ disk'.created = disk.created ∧
      ∀ name, name ≠ out.fd → disk'.content name = disk.content name := by
  have hinside := h.inside
  have hlt := h.pos_lt
  refine ⟨disk.write out.fd (mem.slice base out.pos), ?_, ?_, rfl, rfl,
    fun name hname ↦ content_write hname⟩
  · simp only [OutputWay.destroy, h.buf, getSlice_eq (show base + out.pos ≤ mem.size by omega),
      Option.bind_eq_bind, Option.bind_some]
  · rw [content_write_self, ← h.given]

/-- A new way has been given nothing. -/
theorem OutputWay.new_writes (disk : Disk) (hinside : base + waySize ≤ mem.size)
    (hpos : 0 < waySize) :
    (OutputWay.new disk base waySize).1.Writes (OutputWay.new disk base waySize).2 mem base waySize
      [] where
  inside := hinside
  buf := rfl
  size := rfl
  pos_lt := hpos
  name := rfl
  given := by simp [OutputWay.new, Disk.mkstemp]

end CppMtHw.ExternalSort
