import Mathlib.Data.List.GetD
import Mathlib.Logic.Function.Basic
import Mathlib.Order.Defs.LinearOrder
import Mathlib.Data.Nat.Notation

/-!
# Files and the shared buffer

The system calls that `hw03` makes, on files of 32-bit entries. A file is named by the
number of files created before it, so a new file never takes the name of another one;
removing a name leaves the content to the descriptors that are open. Every call
transfers all that it is asked for. The buffer of the merge stage is one array that is
read and written only inside its bounds; a step outside them has no result.
-/

namespace CppMtHw.ExternalSort

abbrev Data := UInt32

instance : LinearOrder Data where
  le_refl _ := UInt32.le_refl _
  le_trans _ _ _ := UInt32.le_trans
  le_antisymm _ _ := UInt32.le_antisymm
  le_total _ _ := UInt32.le_total _ _
  lt_iff_le_not_ge _ _ := by
    simp only [UInt32.le_iff_toNat_le, UInt32.lt_iff_toNat_lt]
    omega
  toDecidableLE := inferInstance

/-- The files created so far: their contents, and whether their names are still in the directory. -/
structure Disk where
  content : ℕ → List Data
  linked : ℕ → Bool
  created : ℕ

/-- An open file and the position in it. -/
structure Descriptor where
  file : ℕ
  offset : ℕ

namespace Disk

/-- `mkstemp`: the name of a new, empty file. -/
def mkstemp (disk : Disk) : ℕ × Disk :=
  (disk.created,
    { content := Function.update disk.content disk.created []
      linked := Function.update disk.linked disk.created true
      created := disk.created + 1 })

/-- `stat`: the number of entries, if there is such a file. -/
def stat (disk : Disk) (name : ℕ) : Option ℕ :=
  if disk.linked name then some (disk.content name).length else none

def openFile (disk : Disk) (name : ℕ) : Option Descriptor :=
  if disk.linked name then some { file := name, offset := 0 } else none

def read (disk : Disk) (fd : Descriptor) (count : ℕ) : List Data × Descriptor :=
  (((disk.content fd.file).drop fd.offset).take count, { fd with offset := fd.offset + count })

/-- `write` behind what has been written to the file before. -/
def write (disk : Disk) (file : ℕ) (data : List Data) : Disk :=
  { disk with content := Function.update disk.content file (disk.content file ++ data) }

def unlink (disk : Disk) (name : ℕ) : Disk :=
  { disk with linked := Function.update disk.linked name false }

end Disk

structure Memory where
  entry : ℕ → Data
  size : ℕ

namespace Memory

def get (mem : Memory) (i : ℕ) : Option Data := if i < mem.size then some (mem.entry i) else none

def put (mem : Memory) (i : ℕ) (data : List Data) : Option Memory :=
  if i + data.length ≤ mem.size then
    some { mem with
      entry := fun j ↦ if i ≤ j then data.getD (j - i) (mem.entry j) else mem.entry j }
  else none

def slice (mem : Memory) (i count : ℕ) : List Data :=
  (List.range count).map fun j ↦ mem.entry (i + j)

/-- `count` entries from index `i` on, for a `write`. -/
def getSlice (mem : Memory) (i count : ℕ) : Option (List Data) :=
  if i + count ≤ mem.size then some (mem.slice i count) else none

variable {mem mem' : Memory} {i j count : ℕ} {data : List Data}

@[simp] theorem length_slice : (mem.slice i count).length = count := by simp [slice]

@[simp] theorem slice_zero : mem.slice i 0 = [] := rfl

theorem slice_succ : mem.slice i (count + 1) = mem.entry i :: mem.slice (i + 1) count := by
  simp only [slice, List.range_succ_eq_map, List.map_cons, List.map_map, Nat.add_zero]
  congr 1
  apply List.map_congr_left
  intro k _
  show mem.entry (i + (k + 1)) = mem.entry (i + 1 + k)
  congr 1
  omega

theorem slice_append_last : mem.slice i (count + 1) = mem.slice i count ++
    [mem.entry (i + count)] := by
  simp [slice, List.range_succ]

/-- Two arrays of the same size that agree except from `lo` up to `hi`. -/
structure AgreeOutside (lo hi : ℕ) (mem mem' : Memory) : Prop where
  size : mem'.size = mem.size
  entry : ∀ j, j < lo ∨ hi ≤ j → mem'.entry j = mem.entry j

theorem AgreeOutside.refl (lo hi : ℕ) (mem : Memory) : AgreeOutside lo hi mem mem :=
  ⟨rfl, fun _ _ ↦ rfl⟩

theorem AgreeOutside.trans {lo hi : ℕ} {mem'' : Memory} (h : AgreeOutside lo hi mem mem')
    (h' : AgreeOutside lo hi mem' mem'') : AgreeOutside lo hi mem mem'' :=
  ⟨h'.size.trans h.size, fun j hj ↦ (h'.entry j hj).trans (h.entry j hj)⟩

theorem AgreeOutside.mono {lo hi lo' hi' : ℕ} (h : AgreeOutside lo hi mem mem') (hlo : lo' ≤ lo)
    (hhi : hi ≤ hi') : AgreeOutside lo' hi' mem mem' :=
  ⟨h.size, fun j hj ↦ h.entry j (hj.imp (by omega) (by omega))⟩

theorem AgreeOutside.slice_eq {lo hi : ℕ} (h : AgreeOutside lo hi mem mem')
    (hout : i + count ≤ lo ∨ hi ≤ i) : mem'.slice i count = mem.slice i count := by
  apply List.map_congr_left
  intro k hk
  rw [List.mem_range] at hk
  exact h.entry (i + k) (by omega)

/-- What `put` does inside the bounds. -/
theorem put_spec (mem : Memory) (i : ℕ) (data : List Data) (h : i + data.length ≤ mem.size) :
    ∃ mem', mem.put i data = some mem' ∧
    AgreeOutside i (i + data.length) mem mem' ∧ mem'.slice i data.length = data := by
  refine ⟨_, if_pos h, ⟨rfl, fun j hj ↦ ?_⟩, ?_⟩
  · simp only
    split
    · exact List.getD_eq_default _ _ (by omega)
    · rfl
  · refine List.ext_getElem (by simp) fun k hk hk' ↦ ?_
    simp only [slice, List.getElem_map, List.getElem_range]
    rw [if_pos (Nat.le_add_right i k), Nat.add_sub_cancel_left, List.getD_eq_getElem _ _ hk']

theorem getSlice_eq (h : i + count ≤ mem.size) : mem.getSlice i count = some (mem.slice i count) :=
  if_pos h

end Memory

end CppMtHw.ExternalSort
