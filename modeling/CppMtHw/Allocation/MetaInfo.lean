import CppMtHw.Machine.Bytes

/-!
# Meta-information objects

The fields of an `Allocator` and the methods of `Allocator::MetaInfo` of `hw01`. The
buffer, the array of `MetaInfo` objects at its end and the object `head` share one byte
memory. Pointers are addresses; `next` and `prev` are null or addresses of `MetaInfo`
objects, and a `MetaInfo` takes 32 bytes.
-/

namespace CppMtHw.Allocation

open Machine

/-- The fields of `Allocator`. `head` is the `MetaInfo` at `head`, and `metas` is the field
`meta`. -/
structure Allocator where
  mem : Bytes
  head : ℕ
  metas : ℕ
  buf : ℕ
  bufsize : ℕ

/-- Addresses and `size_t` values have 64 bits. -/
def wrap (x : ℕ) : ℕ := x % 2 ^ 64

def signMask : ℕ := 2 ^ 63

namespace Allocator

/-! ## Fields -/

def next (s : Allocator) (m : ℕ) : ℕ := s.mem.load m

def prev (s : Allocator) (m : ℕ) : ℕ := s.mem.load (m + 8)

def offs (s : Allocator) (m : ℕ) : ℕ := s.mem.load (m + 16)

/-- The private field `size`, with the sign bit. -/
def size (s : Allocator) (m : ℕ) : ℕ := s.mem.load (m + 24)

/-- The word in front of the payload of a block. -/
def header (s : Allocator) (t : ℕ) : ℕ := s.mem.load t

def store (s : Allocator) (a w : ℕ) : Allocator := { s with mem := s.mem.store a w }

def setNext (s : Allocator) (m w : ℕ) : Allocator := s.store m w

def setPrev (s : Allocator) (m w : ℕ) : Allocator := s.store (m + 8) w

def setOffs (s : Allocator) (m w : ℕ) : Allocator := s.store (m + 16) w

def setHeader (s : Allocator) (t w : ℕ) : Allocator := s.store t w

/-! ## Methods -/

def isOccupied (s : Allocator) (m : ℕ) : Prop := signMask ≤ s.size m

instance (s : Allocator) (m : ℕ) : Decidable (s.isOccupied m) :=
  inferInstanceAs (Decidable (_ ≤ _))

def isUsed (s : Allocator) (m : ℕ) : Prop := s.isOccupied m ∨ s.next m ≠ 0 ∨ s.prev m ≠ 0

instance (s : Allocator) (m : ℕ) : Decidable (s.isUsed m) :=
  inferInstanceAs (Decidable (_ ∨ _ ∨ _))

def getSize (s : Allocator) (m : ℕ) : ℕ := s.size m % signMask

def setOccupied (s : Allocator) (m : ℕ) (occ : Bool) : Allocator :=
  s.store (m + 24) (if occ then s.size m % signMask + signMask else s.size m % signMask)

def setSize (s : Allocator) (m sz : ℕ) : Allocator :=
  (s.store (m + 24) sz).setOccupied m (s.isOccupied m)

section Fields

variable (s : Allocator) (m w : ℕ)

@[simp] theorem setOffs_metas : (s.setOffs m w).metas = s.metas := rfl

@[simp] theorem setSize_metas : (s.setSize m w).metas = s.metas := rfl

@[simp] theorem setHeader_metas : (s.setHeader m w).metas = s.metas := rfl

@[simp] theorem setSize_buf : (s.setSize m w).buf = s.buf := rfl

end Fields

/-! ## The array -/

def bufEnd (s : Allocator) : ℕ := wrap (s.buf + s.bufsize)

def getMeta (s : Allocator) (idx : ℕ) : ℕ := usub s.bufEnd (wrap (32 * (idx + 1)))

def indexOfInfo (s : Allocator) (info : ℕ) : ℕ := usub s.bufEnd info / 32 - 1

def get (s : Allocator) (idx : ℕ) : ℕ := wrap (s.buf + s.offs (s.getMeta idx) + 8)

/-! ## The list of free blocks -/

def unlinkFree (s : Allocator) (info : ℕ) : Allocator :=
  let s := if s.prev info ≠ 0 then (s.setNext (s.prev info) (s.next info)).setPrev info 0 else s
  if s.next info ≠ 0 then (s.setPrev (s.next info) (s.prev info)).setNext info 0 else s

def insertFree (s : Allocator) (info : ℕ) : Allocator :=
  let s := if s.next s.head ≠ 0 then s.setPrev (s.next s.head) info else s
  let s := s.setNext info (s.next s.head)
  let s := s.setPrev info s.head
  s.setNext s.head info

end Allocator

end CppMtHw.Allocation
