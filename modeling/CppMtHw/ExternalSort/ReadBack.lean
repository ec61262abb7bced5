import CppMtHw.ExternalSort.Ways

/-!
# Reading back what was written

A file written through an output way and read through an input way, with buffers of
independent sizes. Between two calls of `get()` the reader may look at the next entry
and move the way, and the ways it has moved from may be destroyed at any time, which
removes the name of the file. None of this changes what is read.
-/

namespace CppMtHw.ExternalSort

open Machine Memory

/-! ## The writer -/

def OutputWay.putAll : Disk → Memory → OutputWay → List Data → Option (Disk × Memory × OutputWay)
  | disk, mem, out, [] => some (disk, mem, out)
  | disk, mem, out, x :: xs => do
      let (disk, mem, out) ← out.put disk mem x
      putAll disk mem out xs

/-- An output way from its construction to its destruction, and the name of its file. -/
def writeFile (disk : Disk) (mem : Memory) (buffer bufSize : ℕ) (entries : List Data) :
    Option (ℕ × Disk × Memory) := do
  let (out, disk) := OutputWay.new disk buffer bufSize
  let (disk, mem, out) ← out.putAll disk mem entries
  let disk ← out.destroy disk mem
  some (out.fileName, disk, mem)

/-! ## The reader -/

/-- The way that is read, and the ways that have been moved from and still exist. -/
structure Reader where
  disk : Disk
  mem : Memory
  way : InputWay
  movedFrom : List InputWay

/-- What a reader may do beside `get()` and `empty()`: call `top()`, move the way, or destroy a way
that has been moved from. -/
inductive Aside
  | top
  | move
  | destroy
  deriving DecidableEq

namespace Reader

def aside (r : Reader) : Aside → Option Reader
  | .top => do
      let (_, mem, way) ← r.way.top r.disk r.mem
      some { r with mem, way }
  | .move =>
      let (way, other) := r.way.move
      some { r with way, movedFrom := other :: r.movedFrom }
  | .destroy =>
      match r.movedFrom with
      | [] => some r
      | other :: movedFrom => some { r with disk := other.destroy r.disk, movedFrom }

/-- `get()` until `empty()`. The `i`-th round does `before i` before the call of `empty()`, and
`after i` between it and the call of `get()`. -/
def readLoop (before after : ℕ → List Aside) : ℕ → ℕ → Reader → Option (List Data × Reader)
  | 0, _, _ => none
  | fuel + 1, i, r => do
      let r ← (before i).foldlM aside r
      if r.way.empty then
        some ([], r)
      else do
        let r ← (after i).foldlM aside r
        let (x, mem, way) ← r.way.get r.disk r.mem
        let (entries, r) ← readLoop before after fuel (i + 1) { r with mem, way }
        some (x :: entries, r)

end Reader

variable {disk : Disk} {mem : Memory} {out : OutputWay} {r : Reader} {base waySize : ℕ}
  {written rest : List Data}

/-! ## What is written -/

theorem OutputWay.Writes.putAll (h : out.Writes disk mem base waySize written)
    (entries : List Data) :
    ∃ disk' mem' out', out.putAll disk mem entries = some (disk', mem', out') ∧ out'.fd = out.fd ∧
      out'.Writes disk' mem' base waySize (written ++ entries) ∧ disk'.linked = disk.linked := by
  induction entries generalizing disk mem out written with
  | nil => exact ⟨disk, mem, out, rfl, rfl, (List.append_nil written).symm ▸ h, rfl⟩
  | cons x xs ih =>
      obtain ⟨disk₁, mem₁, out₁, hput, hfd₁, hwrites₁, -, hlinked₁, -⟩ := h.put x
      obtain ⟨disk', mem', out', hall, hfd', hwrites', hlinked'⟩ := ih hwrites₁
      refine ⟨disk', mem', out', ?_, hfd'.trans hfd₁, ?_, hlinked'.trans hlinked₁⟩
      · simp only [OutputWay.putAll, hput, Option.bind_eq_bind, Option.bind_some, hall]
      · rwa [List.append_assoc, List.singleton_append] at hwrites'

/-- The new file holds the entries, and its name is in the directory. -/
theorem writeFile_spec (disk : Disk) (hinside : base + waySize ≤ mem.size) (hpos : 0 < waySize)
    (entries : List Data) :
    ∃ disk' mem', writeFile disk mem base waySize entries = some (disk.created, disk', mem') ∧
      disk'.linked disk.created = true ∧ disk'.content disk.created = entries := by
  have hnew := OutputWay.new_writes disk hinside hpos
  obtain ⟨disk₁, mem₁, out₁, hall, hfd₁, hwrites₁, hlinked₁⟩ := hnew.putAll entries
  obtain ⟨disk₂, hdestroy, hcontent, hlinked₂, -⟩ := hwrites₁.destroy
  have hfd : out₁.fd = disk.created := hfd₁
  have hname : out₁.fileName = disk.created := hwrites₁.name.symm.trans hfd
  refine ⟨disk₂, mem₁, ?_, ?_, ?_⟩
  · simp only [writeFile, hall, Option.bind_eq_bind, Option.bind_some, hdestroy, hname]
  · rw [hlinked₂, hlinked₁]
    exact Function.update_self _ _ _
  · rwa [hfd, List.nil_append] at hcontent

/-! ## What is read -/

/-- What the way of the reader has still to deliver. -/
def Reader.Delivers (r : Reader) (base waySize : ℕ) (rest : List Data) : Prop :=
  r.way.Reads r.disk r.mem base waySize rest

theorem Reader.Delivers.aside (h : r.Delivers base waySize rest) (a : Aside) :
    ∃ r', r.aside a = some r' ∧ r'.Delivers base waySize rest := by
  cases a with
  | top =>
      obtain ⟨mem', way', htop, -, hreads, -, -⟩ := InputWay.Reads.top h
      refine ⟨{ r with mem := mem', way := way' }, ?_, hreads⟩
      simp only [Reader.aside, htop, Option.bind_eq_bind, Option.bind_some]
  | move => exact ⟨_, rfl, h⟩
  | destroy =>
      cases hmoved : r.movedFrom with
      | nil => exact ⟨r, by simp only [Reader.aside, hmoved], h⟩
      | cons other movedFrom =>
          refine ⟨{ r with disk := other.destroy r.disk, movedFrom }, ?_, ?_⟩
          · simp only [Reader.aside, hmoved]
          · -- removing a name leaves the content to the open descriptor
            exact InputWay.Reads.congr h rfl (fun _ _ _ ↦ rfl) rfl

theorem Reader.Delivers.asides (h : r.Delivers base waySize rest) (asides : List Aside) :
    ∃ r', asides.foldlM Reader.aside r = some r' ∧ r'.Delivers base waySize rest := by
  induction asides generalizing r with
  | nil => exact ⟨r, rfl, h⟩
  | cons a asides ih =>
      obtain ⟨r₁, haside, hr₁⟩ := h.aside a
      obtain ⟨r', hasides, hr'⟩ := ih hr₁
      refine ⟨r', ?_, hr'⟩
      rw [List.foldlM_cons, haside]
      exact hasides

/-- The loop reads what is left, and ends. -/
theorem Reader.Delivers.readLoop (h : r.Delivers base waySize rest) (before after : ℕ → List Aside)
    {fuel : ℕ} (hfuel : rest.length < fuel) (i : ℕ) :
    ∃ r', Reader.readLoop before after fuel i r = some (rest, r') := by
  induction fuel generalizing r rest i with
  | zero => cases hfuel
  | succ fuel ih =>
      obtain ⟨r₁, hbefore, hr₁⟩ := h.asides (before i)
      cases rest with
      | nil =>
          have hempty : r₁.way.empty = true := (InputWay.Reads.empty_iff hr₁).mpr rfl
          refine ⟨r₁, ?_⟩
          simp only [Reader.readLoop, hbefore, Option.bind_eq_bind,
            Option.bind_some, hempty, if_true]
      | cons x rest =>
          have hempty : ¬r₁.way.empty = true := by
            rw [InputWay.Reads.empty_iff hr₁]
            exact List.cons_ne_nil x rest
          obtain ⟨r₂, hafter, hr₂⟩ := hr₁.asides (after i)
          obtain ⟨mem', way', hget, -, hreads, -⟩ := InputWay.Reads.get hr₂
          have hr₃ : ({ r₂ with mem := mem', way := way' } : Reader).Delivers base waySize rest :=
            hreads
          obtain ⟨r', hloop⟩ := ih hr₃ (Nat.lt_of_succ_lt_succ hfuel) (i + 1)
          refine ⟨r', ?_⟩
          simp only [Reader.readLoop, hbefore, Option.bind_eq_bind, Option.bind_some, if_neg hempty,
            hafter, hget, hloop]

/-- Whatever the sizes of the two buffers, and whatever is done between the calls of `get()`, the
reader gets the entries that the writer has put. -/
theorem read_back (entries : List Data) (disk : Disk) {mem mem' : Memory}
    {base base' bufSize bufSize' : ℕ} (hpos : 1 ≤ bufSize) (hinside : base + bufSize ≤ mem.size)
    (hpos' : 1 ≤ bufSize') (hinside' : base' + bufSize' ≤ mem'.size) :
    ∃ name disk' written way, writeFile disk mem base bufSize entries =
      some (name, disk', written) ∧ InputWay.new disk' name base' bufSize' = some way ∧
      ∀ (before after : ℕ → List Aside) (fuel : ℕ), entries.length < fuel →
        ∃ r, Reader.readLoop before after fuel 0
          { disk := disk', mem := mem', way, movedFrom := [] } = some (entries, r) := by
  obtain ⟨disk', written, hwrite, hlinked, hcontent⟩ := writeFile_spec disk hinside hpos entries
  obtain ⟨way, hnew, -, hreads⟩ := InputWay.new_reads hlinked hinside' hpos'
  rw [hcontent] at hreads
  refine ⟨disk.created, disk', written, way, hwrite, hnew, fun before after fuel hfuel ↦ ?_⟩
  have hdelivers : ({ disk := disk', mem := mem', way, movedFrom := [] } : Reader).Delivers base'
      bufSize' entries := hreads
  exact hdelivers.readLoop before after hfuel 0

/-- Five entries, written in twos and read in threes by a way that is moved again and again. -/
theorem read_back_five : ∃ name disk' written way r,
    writeFile (Disk.mk (fun _ ↦ []) (fun _ ↦ false) 0) { entry := fun _ ↦ 0, size := 5 } 0 2
      [9, 7, 7, 0, 1] = some (name, disk', written) ∧
    InputWay.new disk' name 2 3 = some way ∧
    Reader.readLoop (fun _ ↦ [.top, .move]) (fun _ ↦ [.destroy, .top]) 6 0
      { disk := disk', mem := { entry := fun _ ↦ 0, size := 5 }, way, movedFrom := [] } =
        some ([9, 7, 7, 0, 1], r) := by
  have hinside : 0 + 2 ≤ ({ entry := fun _ ↦ 0, size := 5 } : Memory).size := by decide
  have hinside' : 2 + 3 ≤ ({ entry := fun _ ↦ 0, size := 5 } : Memory).size := by decide
  obtain ⟨name, disk', written, way, hwrite, hnew, hread⟩ :=
    read_back [9, 7, 7, 0, 1] (Disk.mk (fun _ ↦ []) (fun _ ↦ false) 0) (by decide) hinside
      (by decide) hinside'
  obtain ⟨r, hloop⟩ := hread (fun _ ↦ [.top, .move]) (fun _ ↦ [.destroy, .top]) 6 (by decide)
  exact ⟨name, disk', written, way, r, hwrite, hnew, hloop⟩

end CppMtHw.ExternalSort
