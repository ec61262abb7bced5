import CppMtHw.Allocation.Completeness
import CppMtHw.Allocation.Reallocation

/-!
# A store of arrays

What an allocator is for: every held `Pointer` stands for an array of bytes that nobody else
changes. Sessions of careful calls are runs of such a store. `alloc` makes an array, `free` gives
one up, `realloc` makes a new one that begins like the old one, `defrag` does nothing, and a write
changes one byte of one array.
-/

namespace CppMtHw.Allocation

open Machine Allocator

namespace Allocator

variable {s s' : Allocator} {blocks frees : List ℕ} {m mi n p x : ℕ} {q : Pointer}

/-! ## Bytes of other blocks -/

end Allocator

/-! ## Arrays -/

/-- An array of bytes for each index in use. -/
abbrev Arrays := ℕ → Option (List UInt8)

namespace Arrays

def Has (arrays : Arrays) (p : Pointer) : Prop := p = .null ∨ arrays p.idx ≠ none

def drop (arrays : Arrays) (p : Pointer) : Arrays := Function.update arrays p.idx none

/-- A new array with room for `N` bytes; the largest sizes get no room. -/
structure New (arrays : Arrays) (N i : ℕ) (bytes : List UInt8) : Prop where
  fresh : arrays i = none
  room : N + 7 < 2 ^ 64 → N ≤ bytes.length

inductive Step : Arrays → Call → Arrays → Prop
  | alloc {arrays : Arrays} {N i : ℕ} {bytes : List UInt8} : arrays.New N i bytes →
      Step arrays (.alloc N) (Function.update arrays i (some bytes))
  | alloc_threw {arrays : Arrays} {N : ℕ} : Step arrays (.alloc N) arrays
  | free {arrays : Arrays} {p : Pointer} : arrays.Has p → Step arrays (.free p) (arrays.drop p)
  | realloc {arrays : Arrays} {p : Pointer} {N i : ℕ} {bytes : List UInt8} : arrays.Has p →
      (arrays.drop p).New N i bytes →
      (∀ old, arrays p.idx = some old → bytes.take old.length = old.take bytes.length) →
      Step arrays (.realloc p N) (Function.update (arrays.drop p) i (some bytes))
  | realloc_threw {arrays : Arrays} {p : Pointer} {N : ℕ} : arrays.Has p →
      Step arrays (.realloc p N) (arrays.drop p)
  | defrag {arrays : Arrays} : Step arrays .defrag arrays
  | write {arrays : Arrays} {i j : ℕ} {value : UInt8} {bytes : List UInt8} : arrays i = some bytes →
      j < bytes.length → Step arrays (.write i j value)
        (Function.update arrays i (some (bytes.set j value)))

end Arrays

namespace Session

variable {σ τ : Session} {s s' : Allocator} {mem : Bytes} {object base size : ℕ} {calls : List Call}
  {call : Call} {blocks frees : List ℕ} {p q : Pointer} {i N : ℕ}

def array (σ : Session) (i : ℕ) : List UInt8 :=
  σ.allocator.mem.block (σ.allocator.get i) (8 * (σ.allocator.getSize (σ.allocator.getMeta i) - 1))

def arrays (σ : Session) : Arrays := fun i ↦ if i ∈ σ.live then some (σ.array i) else none

namespace Holds

end Holds

end Session

end CppMtHw.Allocation
