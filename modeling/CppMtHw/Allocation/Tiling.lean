import Mathlib.Algebra.GroupWithZero.Nat
import CppMtHw.Allocation.Records
import CppMtHw.Machine.LinkedList

/-!
# Blocks and the list of free blocks

The blocks lie one behind the other from the start of the buffer to the end of its data
part, each under a header that leads to its `MetaInfo`. The free list starts at `head`
and goes through the free blocks; a backward link is null or leads to the node in front.
While a call is at work, some free blocks may be on no list (`loose`), and one object may
be about to describe a new block (`spare`).
-/

namespace CppMtHw.Allocation

open Machine

def link (w : ℕ) : Option ℕ := if w = 0 then none else some w

@[simp] theorem link_zero : link 0 = none := rfl

theorem link_of_ne {w : ℕ} (h : w ≠ 0) : link w = some w := if_neg h

theorem link_eq_some {w x : ℕ} : link w = some x ↔ w = x ∧ x ≠ 0 := by
  rw [link]
  split
  · rename_i h
    simp only [reduceCtorEq, false_iff, not_and]
    rintro rfl hx
    exact hx h
  · rename_i h
    rw [Option.some.injEq]
    exact ⟨fun heq ↦ ⟨heq, heq ▸ h⟩, And.left⟩

theorem link_eq_none {w : ℕ} : link w = none ↔ w = 0 := by
  rw [link]
  split
  · rename_i h
    simp [h]
  · rename_i h
    simp [h]

/-- A backward link is null or leads to the node in front. -/
def BackOk (back before : Option ℕ) : Prop := back = none ∨ back = before

namespace Allocator

variable {s s' : Allocator} {blocks frees loose front rest : List ℕ} {spare : Option ℕ}
  {b m o e mid : ℕ}

def nextLink (s : Allocator) (m : ℕ) : Option ℕ := link (s.next m)

def prevLink (s : Allocator) (m : ℕ) : Option ℕ := link (s.prev m)

/-- The first object of the array, which describes the last free block. -/
def lastFree (s : Allocator) : ℕ := s.buf + s.bufsize - 32

def dataEnd (s : Allocator) : ℕ := 8 * ((s.metas - s.buf) / 8)

theorem lastFree_congr (hbuf : s'.buf = s.buf) (hbufsize : s'.bufsize = s.bufsize) :
    s'.lastFree = s.lastFree := by
  rw [lastFree, lastFree, hbuf, hbufsize]

theorem Frame.lastFree {R : ℕ → Prop} (h : Frame R s s') : s'.lastFree = s.lastFree :=
  lastFree_congr h.buf h.bufsize

theorem Frame.dataEnd {R : ℕ → Prop} (h : Frame R s s') : s'.dataEnd = s.dataEnd := by
  rw [Allocator.dataEnd, Allocator.dataEnd, h.buf, h.metas]

/-- Blocks one behind the other from offset `o` to offset `e`, each under its header. -/
def Tiles (s : Allocator) : ℕ → List ℕ → ℕ → Prop
  | o, [], e => o = e
  | o, b :: bs, e => s.offs b = o ∧ 0 < s.getSize b ∧ s.header (s.buf + o) = b ∧
      Tiles s (o + 8 * s.getSize b) bs e

@[simp] theorem tiles_nil : s.Tiles o [] e ↔ o = e := Iff.rfl

@[simp] theorem tiles_cons : s.Tiles o (b :: rest) e ↔ s.offs b = o ∧ 0 < s.getSize b ∧
    s.header (s.buf + o) = b ∧ s.Tiles (o + 8 * s.getSize b) rest e := Iff.rfl

theorem tiles_append : s.Tiles o (front ++ rest) e ↔ ∃ mid, s.Tiles o front mid ∧
    s.Tiles mid rest e := by
  induction front generalizing o with
  | nil => exact ⟨fun h ↦ ⟨o, rfl, h⟩, fun ⟨_, hmid, h⟩ ↦ hmid ▸ h⟩
  | cons b bs ih =>
      rw [List.cons_append, tiles_cons, ih]
      exact ⟨fun ⟨ho, hsize, hheader, mid, hfront, hrest⟩ ↦
        ⟨mid, ⟨ho, hsize, hheader, hfront⟩, hrest⟩,
        fun ⟨mid, ⟨ho, hsize, hheader, hfront⟩, hrest⟩ ↦ ⟨ho, hsize, hheader, mid, hfront, hrest⟩⟩

theorem Tiles.congr (h : s.Tiles o blocks e) (hbuf : s'.buf = s.buf)
    (hsame : ∀ b ∈ blocks, s'.offs b = s.offs b ∧ s'.getSize b = s.getSize b ∧
      s'.header (s.buf + s.offs b) = s.header (s.buf + s.offs b)) : s'.Tiles o blocks e := by
  induction blocks generalizing o with
  | nil => exact h
  | cons b bs ih =>
      obtain ⟨rfl, hsize, hheader, hrest⟩ := h
      obtain ⟨hoffs, hsizes, hheaders⟩ := hsame b List.mem_cons_self
      refine ⟨hoffs, by rwa [hsizes], by rwa [hbuf, hheaders], ?_⟩
      rw [hsizes]
      exact ih hrest fun c hc ↦ hsame c (List.mem_cons_of_mem b hc)

theorem Tiles.le (h : s.Tiles o blocks e) : o ≤ e := by
  induction blocks generalizing o with
  | nil => exact Nat.le_of_eq h
  | cons b bs ih =>
      have := ih h.2.2.2
      omega

/-- Where a block of a tiling is. -/
theorem Tiles.bounds (h : s.Tiles o blocks e) (hb : b ∈ blocks) :
    o ≤ s.offs b ∧ 0 < s.getSize b ∧ s.offs b + 8 * s.getSize b ≤ e ∧
      s.header (s.buf + s.offs b) = b ∧ 8 ∣ s.offs b - o := by
  induction blocks generalizing o with
  | nil => cases hb
  | cons c cs ih =>
      obtain ⟨rfl, hsize, hheader, hrest⟩ := h
      rcases List.mem_cons.mp hb with rfl | hb
      · have := hrest.le
        exact ⟨Nat.le_refl _, hsize, by omega, hheader, by simp⟩
      · obtain ⟨hle, hsizeb, hend, hheaderb, hdvd⟩ := ih hrest hb
        exact ⟨by omega, hsizeb, hend, hheaderb, by omega⟩

theorem Tiles.length_le (h : s.Tiles o blocks e) : o + 8 * blocks.length ≤ e := by
  induction blocks generalizing o with
  | nil => exact Nat.le_of_eq h
  | cons b bs ih =>
      obtain ⟨-, hsize, -, hrest⟩ := h
      have := ih hrest
      rw [List.length_cons]
      omega

theorem Tiles.dvd (h : s.Tiles o blocks e) : 8 ∣ e - o := by
  induction blocks generalizing o with
  | nil =>
      rw [show o = e from h, Nat.sub_self]
      exact Nat.dvd_zero 8
  | cons b bs ih =>
      have hle := h.2.2.2.le
      have hdvd := ih h.2.2.2
      omega

theorem Tiles.end_unique {e' : ℕ} (h : s.Tiles o blocks e) (h' : s.Tiles o blocks e') : e = e' := by
  induction blocks generalizing o with
  | nil => exact (show o = e from h).symm.trans h'
  | cons b bs ih => exact ih h.2.2.2 h'.2.2.2

theorem Tiles.end_eq (h : s.Tiles o blocks e) : e = o + 8 * (blocks.map s.getSize).sum := by
  induction blocks generalizing o with
  | nil => exact (show o = e from h).symm
  | cons b bs ih =>
      have hrest := ih h.2.2.2
      rw [List.map_cons, List.sum_cons]
      omega

/-- Two tilings from the same offset on begin with the same blocks. -/
theorem Tiles.starts {d : ℕ} (h : s.Tiles o front e) (hle : e ≤ d) (hall : s.Tiles o blocks d) :
    front <+: blocks := by
  induction front generalizing o blocks with
  | nil => exact List.nil_prefix
  | cons b bs ih =>
      have hend := h.2.2.2.le
      have hpos := h.2.1
      cases blocks with
      | nil =>
          have hempty : o = d := hall
          omega
      | cons c cs =>
          obtain rfl : b = c := h.2.2.1.symm.trans hall.2.2.1
          exact List.cons_prefix_cons.mpr ⟨rfl, ih h.2.2.2 hall.2.2.2⟩

/-- The blocks of a tiling do not overlap. -/
theorem Tiles.pairwise (h : s.Tiles o blocks e) :
    blocks.Pairwise fun b c ↦ s.offs b + 8 * s.getSize b ≤ s.offs c := by
  induction blocks generalizing o with
  | nil => exact List.Pairwise.nil
  | cons b bs ih =>
      obtain ⟨rfl, -, -, hrest⟩ := h
      exact List.pairwise_cons.mpr ⟨fun c hc ↦ (hrest.bounds hc).1, ih hrest⟩

theorem Tiles.nodup (h : s.Tiles o blocks e) : blocks.Nodup := by
  refine h.pairwise.imp_of_mem fun {b c} hb _ hbc heq ↦ ?_
  have := (h.bounds hb).2.1
  rw [heq] at hbc this
  omega

structure Shape (s : Allocator) (blocks frees loose : List ℕ) (spare : Option ℕ) : Prop where
  placed : s.Placed
  tiles : s.Tiles 0 blocks s.dataEnd
  slots : ∀ b ∈ blocks, s.MetaSlot b
  chain : Chain s.nextLink (s.nextLink s.head) frees
  back : BackLinked BackOk s.prevLink (some s.head) frees
  free_iff : ∀ b, b ∈ frees ↔ b ∈ blocks ∧ ¬s.isOccupied b ∧ b ∉ loose
  loose : ∀ b ∈ loose, b ∈ blocks ∧ ¬s.isOccupied b ∧ s.next b = 0 ∧ s.prev b = 0
  unused : ∀ b, s.MetaSlot b → b ∉ blocks → some b ≠ spare → ¬s.isUsed b
  last : s.offs s.lastFree + 8 * s.getSize s.lastFree = s.dataEnd

/-- Between two calls no block is loose and no object spare. -/
abbrev WellFormed (s : Allocator) (blocks frees : List ℕ) : Prop := s.Shape blocks frees [] none

/-! ## Consequences -/

theorem Placed.dataEnd_le (hp : s.Placed) : s.buf + s.dataEnd ≤ s.metas := by
  have := hp.buf_le
  rw [dataEnd]
  omega

theorem Placed.metas_lt (hp : s.Placed) : s.metas < s.dataEnd + s.buf + 8 := by
  have := hp.buf_le
  rw [dataEnd]
  omega

theorem Placed.getMeta_eq (hp : s.Placed) {idx : ℕ} (hidx : 32 * (idx + 1) ≤ s.bufsize) :
    s.getMeta idx = s.buf + s.bufsize - 32 * (idx + 1) := by
  have hend := hp.buf_end
  have hmeta : wrap (32 * (idx + 1)) = 32 * (idx + 1) := Nat.mod_eq_of_lt (by omega)
  rw [getMeta, bufEnd, hmeta, wrap, Nat.mod_eq_of_lt hend, usub_of_le (by omega)]

theorem Placed.lastFree_eq (hp : s.Placed) : s.getMeta 0 = s.lastFree := by
  obtain ⟨count, hcount⟩ := hp.array
  have := hp.buf_le
  exact hp.getMeta_eq (by omega)

theorem Placed.lastFree_slot (hp : s.Placed) : s.MetaSlot s.lastFree := by
  obtain ⟨count, hcount⟩ := hp.array
  rw [lastFree]
  exact ⟨by omega, 0, by omega⟩

theorem Placed.head_not_metaSlot (hp : s.Placed) : ¬s.MetaSlot s.head := by
  rintro ⟨hle, i, hi⟩
  have := hp.head_apart
  have := hp.buf_le
  omega

/-- Two objects of the array with the same index are the same. -/
theorem Placed.indexOfInfo_getMeta (hp : s.Placed) (hm : s.MetaSlot m) :
    s.getMeta (s.indexOfInfo m) = m ∧ 32 * (s.indexOfInfo m + 1) ≤ s.bufsize := by
  obtain ⟨hle, i, hi⟩ := hm
  have hend := hp.buf_end
  have := hp.buf_le
  have hindex : s.indexOfInfo m = i := by
    rw [indexOfInfo, bufEnd, wrap, Nat.mod_eq_of_lt hend, usub_of_le (by omega)]
    omega
  rw [hindex]
  have hbound : 32 * (i + 1) ≤ s.bufsize := by omega
  refine ⟨?_, hbound⟩
  rw [hp.getMeta_eq hbound]
  omega

namespace Shape

theorem limit_eq (h : s.Shape blocks frees loose spare) : s.limit = s.buf + s.dataEnd := by
  have hlast := h.last
  have hle := h.placed.dataEnd_le
  have hend := h.placed.buf_end
  obtain ⟨count, hcount⟩ := h.placed.array
  rw [limit, h.placed.lastFree_eq, wrap, Nat.mod_eq_of_lt (by omega)]
  omega

theorem bounds (h : s.Shape blocks frees loose spare) (hb : b ∈ blocks) :
    0 < s.getSize b ∧ s.offs b + 8 * s.getSize b ≤ s.dataEnd ∧
      s.header (s.buf + s.offs b) = b ∧ 8 ∣ s.offs b := by
  obtain ⟨-, hsize, hend, hheader, hdvd⟩ := h.tiles.bounds hb
  exact ⟨hsize, hend, hheader, by simpa using hdvd⟩

theorem dataWord (h : s.Shape blocks frees loose spare) (hb : b ∈ blocks) :
    s.DataWord (s.buf + s.offs b) := by
  obtain ⟨hsize, hend, -, -⟩ := h.bounds hb
  have := h.placed.dataEnd_le
  exact ⟨Nat.le_add_right _ _, by omega⟩

theorem slot (h : s.Shape blocks frees loose spare) (hb : b ∈ blocks) : s.Slot b :=
  Or.inr (h.slots b hb)

theorem block_of_free (h : s.Shape blocks frees loose spare) (hb : b ∈ frees) : b ∈ blocks :=
  ((h.free_iff b).mp hb).1

/-- A link of the free list is null or leads to a free block. -/
theorem mem_of_link (h : s.Shape blocks frees loose spare) (hm : m = s.head ∨ m ∈ frees)
    (hne : s.next m ≠ 0) : s.next m ∈ frees := by
  have hlink : s.nextLink m = some (s.next m) := link_of_ne hne
  have hchain : Chain s.nextLink (some s.head) ([] ++ s.head :: frees) := ⟨rfl, h.chain⟩
  rcases hm with rfl | hm
  · cases frees with
    | nil => exact absurd (hlink.symm.trans h.chain) (Option.some_ne_none _)
    | cons x xs =>
        have hx : s.next s.head = x := Option.some.inj (hlink.symm.trans h.chain.1)
        rw [hx]
        exact List.mem_cons_self
  · obtain ⟨front, back, rfl⟩ := List.append_of_mem hm
    have hnext := h.chain.next_eq
    rw [hlink] at hnext
    exact List.mem_append_right _ (List.mem_cons_of_mem _ (List.mem_of_mem_head? hnext.symm))

end Shape

end Allocator

end CppMtHw.Allocation
