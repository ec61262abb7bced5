import CppMtHw.Allocation.MetaInfo

/-!
# The allocator

The constructor and the public functions of `Allocator` of `hw01`, and `Pointer`, whose
only state beside the allocator is an index. A loop over a list or a tiling that is
broken may never end; `loopBound` is more than the number of different addresses.
-/

namespace CppMtHw.Allocation

open Machine

/-- How a call ends: it returns, throws `AllocError(NoMemory)`, or does not end. -/
inductive Outcome (A : Type)
  | returned (x : A) (s : Allocator)
  | threw (s : Allocator)
  | diverged

def Outcome.checks {A : Type} (o : Outcome A) (f : A → Allocator → Bool) : Bool :=
  match o with
  | .returned x s => f x s
  | _ => false

theorem Outcome.exists_of_checks {A : Type} {o : Outcome A} {f : A → Allocator → Bool}
    (h : o.checks f = true) : ∃ x s, o = .returned x s ∧ f x s = true := by
  cases o with
  | returned x s => exact ⟨x, s, rfl, h⟩
  | threw s => cases h
  | diverged => cases h

structure Pointer where
  idx : ℕ
  deriving DecidableEq, Repr

def nullPtrIdx : ℕ := 2 ^ 64 - 1

def Pointer.null : Pointer := ⟨nullPtrIdx⟩

def Pointer.get (p : Pointer) (s : Allocator) : ℕ := if p.idx = nullPtrIdx then 0 else s.get p.idx

theorem Pointer.get_null (s : Allocator) : Pointer.null.get s = 0 := if_pos rfl

def loopBound : ℕ := 2 ^ 64

/-- The units of 8 bytes that a block for `N` bytes takes, with its header. -/
def units (N : ℕ) : ℕ := wrap (N + 7) / 8 + 1

namespace Allocator

/-- The loop of `addMeta` over the `MetaInfo` objects from `mi` down to `metas`. -/
def findUnused (s : Allocator) : ℕ → ℕ → Option ℕ
  | 0, _ => none
  | count + 1, mi => if s.isUsed mi then findUnused s count (mi - 32) else some mi

/-- The `MetaInfo` object that `addMeta` can use again: all but the first are looked at. -/
def reusable (s : Allocator) : Option ℕ :=
  s.findUnused ((s.getMeta 0 - s.metas) / 32) (s.getMeta 0 - 32)

def addMeta (s : Allocator) (start nunits : ℕ) : Outcome ℕ :=
  let last := s.getMeta 0
  match s.reusable with
  | some mi =>
      let s := s.setSize mi nunits
      let s := s.setOffs mi (usub start s.buf)
      let s := s.setHeader start mi
      .returned mi s
  | none =>
      let lim := wrap (s.buf + s.offs last)
      if usub s.metas 32 ≤ lim then .threw s
      else
        let s := { s with metas := usub s.metas 32 }
        let s := s.setSize last (usub s.metas (wrap (s.buf + s.offs last)) / 8)
        let s := s.setSize s.metas nunits
        let s := s.setOffs s.metas (usub start s.buf)
        let s := s.setHeader start s.metas
        .returned s.metas s

/-- `Allocator(base, size)` on a memory with the object at `object`. -/
def create (mem : Bytes) (object base size : ℕ) : Outcome Unit :=
  -- the constructor of `head`
  let s : Allocator := ⟨mem, object, wrap (base + size), base, size⟩
  let s := (((s.setNext object 0).setPrev object 0).store (object + 24) 0).setOffs object 0
  let sz := usub (usub s.metas s.buf) 32 / 8
  match s.addMeta s.buf sz with
  | .returned firstBlock s => .returned () ((s.setOccupied firstBlock false).insertFree firstBlock)
  | .threw s => .threw s
  | .diverged => .diverged

def allocLoop (s : Allocator) (nunits : ℕ) : ℕ → ℕ → Outcome Pointer
  | 0, _ => .diverged
  | fuel + 1, p =>
      if p = 0 then .threw s
      else
        let sz := s.getSize p
        if sz = nunits then
          let s := (s.setOccupied p true).unlinkFree p
          .returned ⟨s.indexOfInfo p⟩ s
        else if nunits ≤ sz then
          let start := wrap (s.buf + s.offs p)
          match s.addMeta start nunits with
          | .returned occMeta s =>
              let s := s.setOccupied occMeta true
              let memFree := wrap (s.buf + s.offs p + nunits * 8)
              let s := s.setHeader memFree p
              let s := s.setSize p (usub (s.getSize p) nunits)
              let s := s.setOffs p (usub memFree s.buf)
              .returned ⟨s.indexOfInfo occMeta⟩ s
          | .threw s => .threw s
          | .diverged => .diverged
        else allocLoop s nunits fuel (s.next p)

def alloc (s : Allocator) (N : ℕ) : Outcome Pointer :=
  s.allocLoop (units N) loopBound (s.next s.head)

/-- The limit that `free` and `defrag` compute: the end of the block of the first `MetaInfo`. -/
def limit (s : Allocator) : ℕ :=
  wrap (s.buf + s.offs (s.getMeta 0) + 8 * s.getSize (s.getMeta 0))

/-- The loop of `free` that unlinks the free blocks from `t` on. It also gives the final `t`. -/
def mergeLoop (lim : ℕ) : ℕ → Allocator → ℕ → Option (ℕ × Allocator)
  | 0, _, _ => none
  | fuel + 1, s, t =>
      if t < lim then
        let hd := s.header t
        if s.isOccupied hd then some (t, s)
        else
          let s := s.unlinkFree hd
          mergeLoop lim fuel s (wrap (t + s.getSize hd * 8))
      else some (t, s)

/-- `free(p)`. It gives `p` back as it leaves it. -/
def free (s : Allocator) (p : Pointer) : Outcome Pointer :=
  if p.get s = 0 then .returned p s
  else
    let info := s.getMeta p.idx
    let s := (s.setOccupied info false).insertFree info
    let start := wrap (s.buf + s.offs info)
    match mergeLoop s.limit loopBound s start with
    | none => .diverged
    | some (t, s) =>
        let s := s.setSize info (usub t start / 8)
        let s := (s.setOccupied info false).insertFree info
        .returned .null s

theorem free_of_get_eq_zero {s : Allocator} {p : Pointer} (h : p.get s = 0) :
    s.free p = .returned p s :=
  if_pos h

/-- `realloc(p, N)`, with `p` as it leaves it. -/
def realloc (s : Allocator) (p : Pointer) (N : ℕ) : Outcome Unit × Pointer :=
  let source := p.get s
  match s.free p with
  | .returned p s =>
      match s.alloc N with
      | .returned p s =>
          let s := if source ≠ 0 then
            { s with mem := s.mem.move (p.get s) source ((units N - 1) * 8) } else s
          (.returned () s, p)
      | .threw s => (.threw s, p)
      | .diverged => (.diverged, p)
  | .threw s => (.threw s, p)
  | .diverged => (.diverged, p)

/-- The loop of `defrag`. It gives the final `dst`, which the source calls `to`. -/
def slideLoop (lim : ℕ) : ℕ → Allocator → ℕ → ℕ → Option (ℕ × Allocator)
  | 0, _, _, _ => none
  | fuel + 1, s, dst, p =>
      if p < lim then
        let hd := s.header p
        let sz := s.getSize hd
        if s.isOccupied hd then
          let s := { s with mem := s.mem.move dst p (wrap (sz * 8)) }
          let s := s.setHeader dst hd
          let s := s.setOffs hd (usub dst s.buf)
          slideLoop lim fuel s (wrap (dst + sz * 8)) (wrap (p + sz * 8))
        else slideLoop lim fuel (s.unlinkFree hd) dst (wrap (p + sz * 8))
      else some (dst, s)

def defrag (s : Allocator) : Outcome Unit :=
  let last := s.getMeta 0
  match slideLoop s.limit loopBound s s.buf s.buf with
  | none => .diverged
  | some (dst, s) =>
      let s := s.setHeader dst last
      let s := s.setOffs last (usub dst s.buf)
      let s := s.setSize last (usub s.metas dst / 8)
      let s := s.setOccupied last false
      let s := s.setNext s.head last
      .returned () (s.setPrev last s.head)

end Allocator

end CppMtHw.Allocation
