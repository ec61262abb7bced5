import CppMtHw.Allocation.Creation
import CppMtHw.Allocation.Defragmentation
import CppMtHw.Machine.Transition

/-!
# Clients of an allocator

A client allocates, reallocates, frees, defragments and writes into the payloads of its
own blocks. It holds one `Pointer` for each allocation that has not been freed. As long as
every call meets the conditions of the functions, the held pointers are the live blocks.
-/

namespace CppMtHw.Allocation

open Machine Allocator

/-- An allocator, and the indices of the `Pointer`s that were allocated and not freed since. -/
structure Session where
  allocator : Allocator
  live : List ℕ

inductive Call
  | alloc (N : ℕ)
  | free (p : Pointer)
  | realloc (p : Pointer) (N : ℕ)
  | defrag
  | write (i j : ℕ) (value : UInt8)

def Pointer.held (p : Pointer) : List ℕ := if p.idx = nullPtrIdx then [] else [p.idx]

theorem held_of_ne {p : Pointer} (h : p.idx ≠ nullPtrIdx) : p.held = [p.idx] := if_neg h

theorem held_null : Pointer.held .null = [] := if_pos rfl

def Session.Owned (σ : Session) (p : Pointer) : Prop := p = .null ∨ p.idx ∈ σ.live

/-- A call that ends, by a return or by an exception. -/
inductive Step : Session → Call → Session → Prop
  | alloc {σ : Session} {N : ℕ} {p : Pointer} {s : Allocator} :
      σ.allocator.alloc N = .returned p s → Step σ (.alloc N) ⟨s, σ.live ++ p.held⟩
  | alloc_threw {σ : Session} {N : ℕ} {s : Allocator} :
      σ.allocator.alloc N = .threw s → Step σ (.alloc N) ⟨s, σ.live⟩
  | free {σ : Session} {p q : Pointer} {s : Allocator} : σ.Owned p →
      σ.allocator.free p = .returned q s → Step σ (.free p) ⟨s, σ.live.erase p.idx ++ q.held⟩
  | realloc {σ : Session} {p q : Pointer} {N : ℕ} {s : Allocator} : σ.Owned p →
      σ.allocator.realloc p N = (.returned () s, q) →
      Step σ (.realloc p N) ⟨s, σ.live.erase p.idx ++ q.held⟩
  | realloc_threw {σ : Session} {p q : Pointer} {N : ℕ} {s : Allocator} : σ.Owned p →
      σ.allocator.realloc p N = (.threw s, q) →
      Step σ (.realloc p N) ⟨s, σ.live.erase p.idx ++ q.held⟩
  | defrag {σ : Session} {s : Allocator} :
      σ.allocator.defrag = .returned () s → Step σ .defrag ⟨s, σ.live⟩
  | write {σ : Session} {i j : ℕ} {value : UInt8} : i ∈ σ.live →
      j + 8 < 8 * σ.allocator.getSize (σ.allocator.getMeta i) →
      Step σ (.write i j value)
        ⟨{ σ.allocator with mem := Function.update σ.allocator.mem (σ.allocator.get i + j) value },
          σ.live⟩

instance (σ : Session) (p : Pointer) : Decidable (σ.Owned p) := inferInstanceAs (Decidable (_ ∨ _))

def Session.exec (σ : Session) : Call → Option Session
  | .alloc N =>
      match σ.allocator.alloc N with
      | .returned p s => some ⟨s, σ.live ++ p.held⟩
      | .threw s => some ⟨s, σ.live⟩
      | .diverged => none
  | .free p =>
      match σ.allocator.free p with
      | .returned q s => if σ.Owned p then some ⟨s, σ.live.erase p.idx ++ q.held⟩ else none
      | _ => none
  | .realloc p N =>
      match σ.allocator.realloc p N with
      | (.returned () s, q) => if σ.Owned p then some ⟨s, σ.live.erase p.idx ++ q.held⟩ else none
      | (.threw s, q) => if σ.Owned p then some ⟨s, σ.live.erase p.idx ++ q.held⟩ else none
      | (.diverged, _) => none
  | .defrag =>
      match σ.allocator.defrag with
      | .returned () s => some ⟨s, σ.live⟩
      | _ => none
  | .write i j value =>
      if i ∈ σ.live ∧ j + 8 < 8 * σ.allocator.getSize (σ.allocator.getMeta i) then
        some ⟨{ σ.allocator with
          mem := Function.update σ.allocator.mem (σ.allocator.get i + j) value }, σ.live⟩
      else none

theorem step_of_exec {σ τ : Session} {call : Call} (h : σ.exec call = some τ) : Step σ call τ := by
  cases call with
  | alloc N =>
      rw [Session.exec] at h
      split at h
      · rename_i halloc
        cases h
        exact Step.alloc halloc
      · rename_i hthrew
        cases h
        exact Step.alloc_threw hthrew
      · cases h
  | free p =>
      rw [Session.exec] at h
      split at h
      · rename_i hfree
        obtain ⟨howned, heq⟩ := Option.ite_none_right_eq_some.mp h
        cases heq
        exact Step.free howned hfree
      · cases h
  | realloc p N =>
      rw [Session.exec] at h
      split at h
      · rename_i hrealloc
        obtain ⟨howned, heq⟩ := Option.ite_none_right_eq_some.mp h
        cases heq
        exact Step.realloc howned hrealloc
      · rename_i hthrew
        obtain ⟨howned, heq⟩ := Option.ite_none_right_eq_some.mp h
        cases heq
        exact Step.realloc_threw howned hthrew
      · cases h
  | defrag =>
      rw [Session.exec] at h
      split at h
      · rename_i hdefrag
        cases h
        exact Step.defrag hdefrag
      · cases h
  | write i j value =>
      obtain ⟨⟨hi, hj⟩, heq⟩ := Option.ite_none_right_eq_some.mp h
      cases heq
      exact Step.write hi hj

/-- The functions that a call is made of can do what they should. -/
def Session.Careful (σ : Session) : Call → Prop
  | .alloc N => σ.allocator.Allocatable (units N)
  | .free p => p = .null ∨ σ.allocator.Mergeable (σ.allocator.getMeta p.idx)
  | .realloc p N => (p = .null ∨ σ.allocator.Mergeable (σ.allocator.getMeta p.idx)) ∧
      ∀ q s, σ.allocator.free p = .returned q s → s.Allocatable (units N)
  | .defrag => σ.allocator.Defragmentable
  | .write .. => True

/-! ## Payloads -/

namespace Allocator

variable {s s' : Allocator} {blocks frees loose : List ℕ} {spare : Option ℕ} {b m : ℕ}

/-- Where the records and the headers are kept, the structure is kept. -/
theorem Shape.congr {R : ℕ → Prop} (h : s.Shape blocks frees loose spare) (hframe : Frame R s s')
    (hinfo : ∀ m, s.Slot m → s'.info m = s.info m)
    (hheader : ∀ b ∈ blocks, s'.header (s.buf + s.offs b) = s.header (s.buf + s.offs b)) :
    s'.Shape blocks frees loose spare := by
  have hnext : ∀ m, s.Slot m → s'.next m = s.next m := fun m hm ↦ congrArg Info.next (hinfo m hm)
  have hprev : ∀ m, s.Slot m → s'.prev m = s.prev m := fun m hm ↦ congrArg Info.prev (hinfo m hm)
  have hoffs : ∀ m, s.Slot m → s'.offs m = s.offs m := fun m hm ↦ congrArg Info.offs (hinfo m hm)
  have hsize : ∀ m, s.Slot m → s'.size m = s.size m := fun m hm ↦ congrArg Info.size (hinfo m hm)
  have hgetSize : ∀ m, s.Slot m → s'.getSize m = s.getSize m := fun m hm ↦ by
    rw [getSize, hsize m hm, getSize]
  have hocc : ∀ m, s.Slot m → (s'.isOccupied m ↔ s.isOccupied m) := fun m hm ↦ by
    rw [isOccupied, hsize m hm, isOccupied]
  have hfree : ∀ m ∈ frees, s.Slot m := fun m hm ↦ h.slot (h.block_of_free hm)
  refine ⟨hframe.placed h.placed, ?_, fun m hm ↦ hframe.metaSlot.mpr (h.slots m hm), ?_, ?_,
    fun m ↦ ?_, fun m hm ↦ ?_, fun m hm hblock hspare ↦ ?_, ?_⟩
  · rw [hframe.dataEnd]
    exact h.tiles.congr hframe.buf fun m hm ↦
      ⟨hoffs m (h.slot hm), hgetSize m (h.slot hm), hheader m hm⟩
  · rw [hframe.head, nextLink, hnext s.head (Or.inl rfl)]
    exact h.chain.congr fun m hm ↦ by rw [nextLink, hnext m (hfree m hm), nextLink]
  · rw [hframe.head]
    exact h.back.congr fun m hm ↦ by rw [prevLink, hprev m (hfree m hm), prevLink]
  · rw [h.free_iff]
    exact and_congr_right fun hm ↦ by rw [hocc m (h.slot hm)]
  · obtain ⟨hblock, hmocc, hnull⟩ := h.loose m hm
    rw [hocc m (h.slot hblock), hnext m (h.slot hblock), hprev m (h.slot hblock)]
    exact ⟨hblock, hmocc, hnull⟩
  · rw [hframe.metaSlot] at hm
    rw [isUsed, hocc m (Or.inr hm), hnext m (Or.inr hm), hprev m (Or.inr hm)]
    exact h.unused m hm hblock hspare
  · have hlast : s.Slot s.lastFree := Or.inr h.placed.lastFree_slot
    rw [hframe.lastFree, hframe.dataEnd, hoffs _ hlast, hgetSize _ hlast]
    exact h.last

def Payload (s : Allocator) (b x : ℕ) : Prop :=
  s.buf + s.offs b + 8 ≤ x ∧ x < s.buf + s.offs b + 8 * s.getSize b

/-- Two blocks of the structure do not overlap. -/
theorem Shape.blocks_apart (h : s.Shape blocks frees loose spare) (hb : b ∈ blocks)
    (hm : m ∈ blocks) (hne : b ≠ m) :
    s.offs b + 8 * s.getSize b ≤ s.offs m ∨ s.offs m + 8 * s.getSize m ≤ s.offs b := by
  have hpairwise := h.tiles.pairwise
  obtain ⟨front, back, rfl⟩ := List.append_of_mem hb
  rw [List.pairwise_append, List.pairwise_cons] at hpairwise
  rcases List.mem_append.mp hm with hm | hm
  · exact Or.inr (hpairwise.2.2 m hm b List.mem_cons_self)
  · rcases List.mem_cons.mp hm with heq | hm
    · exact absurd heq.symm hne
    · exact Or.inl (hpairwise.2.1.1 m hm)

/-- Bytes of payloads are nothing to the structure. -/
theorem Shape.payload (h : s.WellFormed blocks frees) (hb : b ∈ blocks)
    (hframe : Frame (s.Payload b) s s') :
    s'.WellFormed blocks frees ∧ ∀ m, s.Slot m → s'.info m = s.info m := by
  have hinfo : ∀ m, s.Slot m → s'.info m = s.info m := fun m hm ↦ by
    refine info_congr fun x hx hlt ↦ hframe.mem x fun hpayload ↦ ?_
    obtain ⟨hlow, hhigh⟩ := hpayload
    exact h.not_managed hb (by omega) hhigh (slot_managed hm hx hlt)
  refine ⟨h.congr hframe hinfo fun m hm ↦ ?_, hinfo⟩
  refine hframe.mem.load_eq fun x hx hlt hpayload ↦ ?_
  have hpos := (h.bounds hm).1
  obtain ⟨hlow, hhigh⟩ := hpayload
  by_cases hbm : b = m
  · rw [hbm] at hlow
    omega
  · have := h.blocks_apart hb hm hbm
    omega

end Allocator

namespace Session

variable {σ τ : Session} {s' : Allocator} {blocks frees blocks' frees' : List ℕ} {b i j k n : ℕ}
  {p q : Pointer} {call : Call}

/-! ## The held pointers -/

/-- The structure is in order, and the pointers held are those of the live blocks, one each. -/
structure Holds (σ : Session) (blocks frees : List ℕ) : Prop where
  shape : σ.allocator.WellFormed blocks frees
  nodup : σ.live.Nodup
  bound : ∀ i ∈ σ.live, 32 * (i + 1) ≤ σ.allocator.bufsize
  live : ∀ m, m ∈ blocks ∧ σ.allocator.isOccupied m ↔ ∃ i ∈ σ.live, σ.allocator.getMeta i = m

def Invariant (σ : Session) : Prop := ∃ blocks frees, σ.Holds blocks frees

theorem getMeta_inj {s : Allocator} (hp : s.Placed) (hi : 32 * (i + 1) ≤ s.bufsize)
    (hj : 32 * (j + 1) ≤ s.bufsize) (heq : s.getMeta i = s.getMeta j) : i = j := by
  rw [hp.getMeta_eq hi, hp.getMeta_eq hj] at heq
  omega

theorem ne_nullPtrIdx {s : Allocator} (hp : s.Placed) (hi : 32 * (i + 1) ≤ s.bufsize) :
    i ≠ nullPtrIdx := by
  have hend := hp.buf_end
  rw [nullPtrIdx]
  omega

namespace Holds

theorem block (h : σ.Holds blocks frees) (hi : i ∈ σ.live) :
    σ.allocator.getMeta i ∈ blocks ∧ σ.allocator.isOccupied (σ.allocator.getMeta i) :=
  (h.live _).mpr ⟨i, hi, rfl⟩

theorem ne_null (h : σ.Holds blocks frees) (hi : i ∈ σ.live) : i ≠ nullPtrIdx :=
  ne_nullPtrIdx h.shape.placed (h.bound i hi)

/-- Where a held pointer leads to. -/
theorem get_eq (h : σ.Holds blocks frees) (hi : i ∈ σ.live) :
    σ.allocator.get i = σ.allocator.buf + σ.allocator.offs (σ.allocator.getMeta i) + 8 := by
  have hget := (h.shape.get_ne_zero (p := ⟨i⟩) (h.block hi).1 (h.ne_null hi) rfl).1
  rwa [Pointer.get, if_neg (h.ne_null hi)] at hget

theorem erase_null (h : σ.Holds blocks frees) : σ.live.erase nullPtrIdx = σ.live :=
  List.erase_of_not_mem fun hmem ↦ h.ne_null hmem rfl

/-- A block that `alloc` makes live is held under a new index. -/
theorem alloc (h : σ.Holds blocks frees) (hshape : s'.WellFormed blocks' frees')
    (hbound : 32 * (i + 1) ≤ σ.allocator.bufsize)
    (hallocated : σ.allocator.Allocated s' blocks blocks' (σ.allocator.getMeta i) n) :
    Holds ⟨s', σ.live ++ [i]⟩ blocks' frees' := by
  have hmeta : ∀ k, s'.getMeta k = σ.allocator.getMeta k :=
    getMeta_congr hallocated.buf hallocated.bufsize
  have hnew : i ∉ σ.live := fun hi ↦ hallocated.fresh (h.block hi)
  refine ⟨hshape, List.Nodup.append h.nodup (List.nodup_singleton i) (by simpa using hnew),
    fun k hk ↦ ?_, fun m ↦ ?_⟩
  · rw [hallocated.bufsize]
    rcases List.mem_append.mp hk with hk | hk
    · exact h.bound k hk
    · rw [List.mem_singleton.mp hk]
      exact hbound
  · rw [hallocated.live, h.live]
    simp only [hmeta, List.mem_append, List.mem_singleton, or_and_right, exists_or, exists_eq_left]
    exact or_congr_right eq_comm

/-- The pointer that is freed is no longer held. -/
theorem free (h : σ.Holds blocks frees) (hi : i ∈ σ.live) (hshape : s'.WellFormed blocks' frees')
    (hframe : Frame σ.allocator.Managed σ.allocator s')
    (hlive : ∀ m, m ∈ blocks' ∧ s'.isOccupied m ↔
      (m ∈ blocks ∧ σ.allocator.isOccupied m) ∧ m ≠ σ.allocator.getMeta i) :
    Holds ⟨s', σ.live.erase i⟩ blocks' frees' := by
  have hmeta : ∀ k, s'.getMeta k = σ.allocator.getMeta k := getMeta_congr hframe.buf hframe.bufsize
  refine ⟨hshape, h.nodup.erase i, fun k hk ↦ ?_, fun m ↦ ?_⟩
  · rw [hframe.bufsize]
    exact h.bound k (List.mem_of_mem_erase hk)
  · rw [hlive, h.live]
    simp only [hmeta, h.nodup.mem_erase_iff]
    constructor
    · rintro ⟨⟨k, hk, rfl⟩, hne⟩
      exact ⟨k, ⟨fun heq ↦ hne (heq ▸ rfl), hk⟩, rfl⟩
    · rintro ⟨k, ⟨hne, hk⟩, rfl⟩
      exact ⟨⟨k, hk, rfl⟩, fun heq ↦ hne
        (getMeta_inj h.shape.placed (h.bound k hk) (h.bound i hi) heq)⟩

/-- `defrag` keeps the live blocks. -/
theorem defrag (h : σ.Holds blocks frees)
    (hshape : s'.WellFormed
      ((blocks.filter fun b ↦ σ.allocator.isOccupied b) ++ [σ.allocator.lastFree]) frees')
    (hlast : ¬s'.isOccupied σ.allocator.lastFree)
      (hdefragmented : σ.allocator.Defragmented s' blocks) :
    Holds ⟨s', σ.live⟩ ((blocks.filter fun b ↦ σ.allocator.isOccupied b) ++
      [σ.allocator.lastFree]) frees' := by
  have hmeta : ∀ k, s'.getMeta k = σ.allocator.getMeta k :=
    getMeta_congr hdefragmented.buf hdefragmented.bufsize
  refine ⟨hshape, h.nodup, fun k hk ↦ ?_, fun m ↦ ?_⟩
  · rw [hdefragmented.bufsize]
    exact h.bound k hk
  · simp only [hmeta, ← h.live, List.mem_append, List.mem_filter, decide_eq_true_iff,
      List.mem_singleton]
    constructor
    · rintro ⟨hm | rfl, hocc⟩
      · exact hm
      · exact absurd hocc hlast
    · rintro ⟨hm, hocc⟩
      exact ⟨Or.inl ⟨hm, hocc⟩, (hdefragmented.size m hm hocc).2⟩

/-- A payload may change. -/
theorem payload (h : σ.Holds blocks frees) (hb : b ∈ blocks)
    (hframe : Frame (σ.allocator.Payload b) σ.allocator s') : Holds ⟨s', σ.live⟩ blocks frees := by
  obtain ⟨hshape, hinfo⟩ := h.shape.payload hb hframe
  have hmeta : ∀ k, s'.getMeta k = σ.allocator.getMeta k := getMeta_congr hframe.buf hframe.bufsize
  refine ⟨hshape, h.nodup, fun k hk ↦ ?_, fun m ↦ ?_⟩
  · rw [hframe.bufsize]
    exact h.bound k hk
  · simp only [hmeta, ← h.live]
    refine and_congr_right fun hm ↦ ?_
    have hsize : s'.size m = σ.allocator.size m := congrArg Info.size (hinfo m (h.shape.slot hm))
    rw [isOccupied, hsize, isOccupied]

end Holds

/-! ## Calls -/

/-- A held pointer leads to the same place, and the bytes of its block are the same. -/
structure Undisturbed (σ τ : Session) (i : ℕ) : Prop where
  address : τ.allocator.get i = σ.allocator.get i
  size : τ.allocator.getSize (τ.allocator.getMeta i) = σ.allocator.getSize (σ.allocator.getMeta i)
  payload : ∀ j, j + 8 < 8 * σ.allocator.getSize (σ.allocator.getMeta i) →
    τ.allocator.mem (τ.allocator.get i + j) = σ.allocator.mem (σ.allocator.get i + j)

theorem Undisturbed.trans {υ : Session} (h : Undisturbed σ τ i) (h' : Undisturbed τ υ i) :
    Undisturbed σ υ i := by
  refine ⟨h'.address.trans h.address, h'.size.trans h.size, fun j hj ↦ ?_⟩
  rw [h'.payload j (by rwa [h.size]), h.payload j hj]

theorem undisturbed_of_block {live : List ℕ} (hbuf : s'.buf = σ.allocator.buf)
    (hmeta : s'.getMeta i = σ.allocator.getMeta i) (h : σ.Holds blocks frees) (hi : i ∈ σ.live)
    (hoffs : s'.offs (σ.allocator.getMeta i) = σ.allocator.offs (σ.allocator.getMeta i))
    (hsize : s'.getSize (σ.allocator.getMeta i) = σ.allocator.getSize (σ.allocator.getMeta i))
    (hbytes : ∀ x, σ.allocator.buf + σ.allocator.offs (σ.allocator.getMeta i) ≤ x →
      x < σ.allocator.buf + σ.allocator.offs (σ.allocator.getMeta i) +
        8 * σ.allocator.getSize (σ.allocator.getMeta i) → s'.mem x = σ.allocator.mem x) :
    Undisturbed σ ⟨s', live⟩ i := by
  have hget : s'.get i = σ.allocator.get i := by
    rw [Allocator.get, Allocator.get, hmeta, hoffs, hbuf]
  refine ⟨hget, by rw [hmeta, hsize], fun j hj ↦ ?_⟩
  have haddress := h.get_eq hi
  show s'.mem (s'.get i + j) = _
  rw [hget]
  exact hbytes _ (by omega) (by omega)

namespace Holds

/-- The pointer that `alloc` returns is held from then on. -/
theorem alloc_block (h : σ.Holds blocks frees) {N : ℕ}
    (hcareful : σ.allocator.Allocatable (units N)) :
    σ.allocator.alloc N = .threw σ.allocator ∨
      ∃ p s' blocks' frees' q, σ.allocator.alloc N = .returned p s' ∧ p.held = [p.idx] ∧
        Holds ⟨s', σ.live ++ p.held⟩ blocks' frees' ∧ s'.getSize (s'.getMeta p.idx) = units N ∧
        (∀ live, ∀ i ∈ σ.live, Undisturbed σ ⟨s', live⟩ i) ∧ σ.allocator.FirstFit (units N) q ∧
        σ.allocator.Carved s' frees frees' q (s'.getMeta p.idx) (units N) := by
  rcases alloc_spec h.shape N hcareful with
    hthrew | ⟨p, s', blocks', frees', q, hreturned, hshape, hbound, hallocated, hfit, hcarved⟩
  · exact Or.inl hthrew
  · have hheld : p.held = [p.idx] := held_of_ne (ne_nullPtrIdx h.shape.placed hbound)
    have hmeta : ∀ k, s'.getMeta k = σ.allocator.getMeta k :=
      getMeta_congr hallocated.buf hallocated.bufsize
    refine Or.inr ⟨p, s', blocks', frees', q, hreturned, hheld, ?_, by rw [hmeta, hallocated.size],
      fun live i hi ↦ ?_, hfit, by rwa [hmeta]⟩
    · rw [hheld]
      exact h.alloc hshape hbound hallocated
    · obtain ⟨hblock, hocc⟩ := h.block hi
      obtain ⟨hoffs, hsize, hbytes⟩ := hallocated.kept _ hblock hocc
      exact undisturbed_of_block hallocated.buf (hmeta i) h hi hoffs hsize hbytes

theorem alloc_call (h : σ.Holds blocks frees) {N : ℕ}
    (hcareful : σ.allocator.Allocatable (units N)) :
    σ.allocator.alloc N = .threw σ.allocator ∨
      ∃ p s', σ.allocator.alloc N = .returned p s' ∧ p.held = [p.idx] ∧
        Invariant ⟨s', σ.live ++ p.held⟩ ∧ s'.getSize (s'.getMeta p.idx) = units N ∧
        ∀ live, ∀ i ∈ σ.live, Undisturbed σ ⟨s', live⟩ i := by
  rcases h.alloc_block hcareful with
    hthrew | ⟨p, s', blocks', frees', q, hreturned, hheld, hholds, hsize, hkept, -⟩
  · exact Or.inl hthrew
  · exact Or.inr ⟨p, s', hreturned, hheld, ⟨blocks', frees', hholds⟩, hsize, hkept⟩

/-- The pointer that `free` is given is no longer held. -/
theorem free_block (h : σ.Holds blocks frees) (hi : p.idx ∈ σ.live)
    (hmergeable : σ.allocator.Mergeable (σ.allocator.getMeta p.idx)) :
    ∃ s' blocks' run, σ.allocator.free p = .returned .null s' ∧
      Holds ⟨s', σ.live.erase p.idx⟩ blocks'
        (σ.allocator.getMeta p.idx :: frees.filter fun c ↦ c ∉ run) ∧
      Frame σ.allocator.Managed σ.allocator s' ∧
      (∀ live, ∀ i ∈ σ.live.erase p.idx, Undisturbed σ ⟨s', live⟩ i) ∧
      σ.allocator.Freed s' frees (σ.allocator.getMeta p.idx) run := by
  obtain ⟨hblock, hocc⟩ := h.block hi
  obtain ⟨s', blocks', run, hreturned, hshape, hframe, hlive, hkept, hfreed⟩ :=
    free_spec h.shape hblock hocc (h.ne_null hi) rfl hmergeable
  have hmeta : ∀ k, s'.getMeta k = σ.allocator.getMeta k := getMeta_congr hframe.buf hframe.bufsize
  refine ⟨s', blocks', run, hreturned, h.free hi hshape hframe hlive, hframe,
    fun live k hk ↦ ?_, hfreed⟩
  obtain ⟨hne, hk⟩ := h.nodup.mem_erase_iff.mp hk
  obtain ⟨hkblock, hkocc⟩ := h.block hk
  have hmetane : σ.allocator.getMeta k ≠ σ.allocator.getMeta p.idx := fun heq ↦
    hne (getMeta_inj h.shape.placed (h.bound k hk) (h.bound _ hi) heq)
  obtain ⟨hoffs, hsize⟩ := hkept _ (h.shape.slot hkblock) hmetane
  exact undisturbed_of_block hframe.buf (hmeta k) h hk hoffs hsize
    fun x hx hlt ↦ hframe.mem x (h.shape.not_managed hkblock hx hlt)

theorem free_null (h : σ.Holds blocks frees) :
    σ.allocator.free .null = .returned .null σ.allocator ∧
      Holds ⟨σ.allocator, σ.live.erase nullPtrIdx⟩ blocks frees := by
  refine ⟨free_of_get_eq_zero (Pointer.get_null _), ?_⟩
  rw [h.erase_null]
  exact h

theorem free_call (h : σ.Holds blocks frees) (howned : σ.Owned p)
    (hcareful : p = .null ∨ σ.allocator.Mergeable (σ.allocator.getMeta p.idx)) :
    ∃ s', σ.allocator.free p = .returned .null s' ∧ Invariant ⟨s', σ.live.erase p.idx⟩ ∧
      ∀ live, ∀ i ∈ σ.live.erase p.idx, Undisturbed σ ⟨s', live⟩ i := by
  by_cases hnull : p = .null
  · subst hnull
    obtain ⟨hreturned, hholds⟩ := h.free_null
    exact ⟨σ.allocator, hreturned, ⟨blocks, frees, hholds⟩, fun _ _ _ ↦ ⟨rfl, rfl, fun _ _ ↦ rfl⟩⟩
  · obtain ⟨s', blocks', run, hreturned, hholds, -, hkept, -⟩ :=
      h.free_block (howned.resolve_left hnull) (hcareful.resolve_left hnull)
    exact ⟨s', hreturned, ⟨blocks', _, hholds⟩, hkept⟩

/-- What `memmove` fills is the payload of the block. -/
theorem frame_move (h : σ.Holds blocks frees) (hi : q.idx ∈ σ.live) {N : ℕ} (source : ℕ)
    (hsize : σ.allocator.getSize (σ.allocator.getMeta q.idx) = units N) :
    Frame (σ.allocator.Payload (σ.allocator.getMeta q.idx)) σ.allocator { σ.allocator with
      mem := σ.allocator.mem.move (q.get σ.allocator) source ((units N - 1) * 8) } := by
  have haddress : q.get σ.allocator = σ.allocator.buf + σ.allocator.offs
      (σ.allocator.getMeta q.idx) + 8 := by
    rw [Pointer.get, if_neg (h.ne_null hi)]
    exact h.get_eq hi
  refine ⟨rfl, rfl, rfl, rfl, Bytes.sameOutside_move fun x hx hlt ↦ ?_⟩
  have hpos := units_pos N
  rw [haddress] at hx hlt
  refine ⟨hx, ?_⟩
  rw [hsize]
  omega

/-- `defrag` keeps the sizes and the payloads. -/
theorem defrag_call (h : σ.Holds blocks frees) (hcareful : σ.allocator.Defragmentable) :
    ∃ s', σ.allocator.defrag = .returned () s' ∧ σ.allocator.Defragmented s' blocks ∧
      Holds ⟨s', σ.live⟩ ((blocks.filter fun b ↦ σ.allocator.isOccupied b) ++
        [σ.allocator.lastFree])
        [σ.allocator.lastFree] ∧ s'.prev σ.allocator.lastFree = σ.allocator.head := by
  obtain ⟨s', hreturned, hshape, hdefragmented, hprev⟩ := defrag_spec h.shape hcareful
  have hlast : ¬s'.isOccupied σ.allocator.lastFree :=
    ((hshape.free_iff _).mp (List.mem_singleton.mpr rfl)).2.1
  exact ⟨s', hreturned, hdefragmented, h.defrag hshape hlast hdefragmented, hprev⟩

/-- A byte written into the payload of a held block. -/
theorem frame_write (h : σ.Holds blocks frees) (hi : i ∈ σ.live) (value : UInt8)
    (hj : j + 8 < 8 * σ.allocator.getSize (σ.allocator.getMeta i)) :
    Frame (σ.allocator.Payload (σ.allocator.getMeta i)) σ.allocator { σ.allocator with
      mem := Function.update σ.allocator.mem (σ.allocator.get i + j) value } := by
  refine ⟨rfl, rfl, rfl, rfl, fun x hx ↦ Function.update_of_ne ?_ _ _⟩
  rintro rfl
  have haddress := h.get_eq hi
  exact hx ⟨by omega, by omega⟩

end Holds

/-! ## Runs -/

/-- A condition `P` on `alloc` and a condition `Q` on `free`, in the states in which a call makes
them. -/
def Meets (P Q : Allocator → ℕ → Prop) (σ : Session) : Call → Prop
  | .alloc N => P σ.allocator (units N)
  | .free p => p = .null ∨ Q σ.allocator (σ.allocator.getMeta p.idx)
  | .realloc p N => (p = .null ∨ Q σ.allocator (σ.allocator.getMeta p.idx)) ∧
      ∀ q s, σ.allocator.free p = .returned q s → P s (units N)
  | .defrag => True
  | .write .. => True

/-- A property of the free list that the functions keep, if `P` holds of the units that `alloc` is
to take, and `Q` of the block that `free` is given. -/
structure Maintained (P Q : Allocator → ℕ → Prop) (I : Allocator → List ℕ → Prop) : Prop where
  alloc : ∀ {s s' : Allocator} {blocks blocks' frees frees' : List ℕ} {p b n : ℕ},
    s.WellFormed blocks frees →
    I s frees → P s n → s.Allocatable n → s.FirstFit n p → s'.WellFormed blocks' frees' →
    s.Carved s' frees frees' p b n → I s' frees'
  free : ∀ {s s' : Allocator} {blocks blocks' frees run : List ℕ} {b : ℕ},
    s.WellFormed blocks frees →
    I s frees → Q s b → s.Mergeable b → s'.WellFormed blocks' (b :: frees.filter fun c ↦ c ∉ run) →
    Frame s.Managed s s' → s.Freed s' frees b run → I s' (b :: frees.filter fun c ↦ c ∉ run)
  payload : ∀ {s s' : Allocator} {blocks frees : List ℕ} {b : ℕ}, s.WellFormed blocks frees →
    I s frees → Frame (s.Payload b) s s' → (∀ m, s.Slot m → s'.info m = s.info m) → I s' frees
  single : ∀ {s : Allocator} {blocks : List ℕ}, s.WellFormed blocks [s.lastFree] →
    s.prev s.lastFree = s.head → I s [s.lastFree]

def Listing (I : Allocator → List ℕ → Prop) (σ : Session) : Prop :=
  ∃ blocks frees, σ.Holds blocks frees ∧ I σ.allocator frees

namespace Maintained

variable {P Q : Allocator → ℕ → Prop} {I : Allocator → List ℕ → Prop}

theorem alloc_call (hI : Maintained P Q I) (h : σ.Holds blocks frees) (hlist : I σ.allocator frees)
    {N : ℕ} (hcareful : σ.allocator.Allocatable (units N)) (hP : P σ.allocator (units N)) :
    σ.allocator.alloc N = .threw σ.allocator ∨
      ∃ p s' blocks' frees', σ.allocator.alloc N = .returned p s' ∧ p.held = [p.idx] ∧
        Holds ⟨s', σ.live ++ p.held⟩ blocks' frees' ∧ I s' frees' ∧
        s'.getSize (s'.getMeta p.idx) = units N := by
  rcases h.alloc_block hcareful with
    hthrew | ⟨p, s', blocks', frees', q, hreturned, hheld, hholds, hsize, -, hfit, hcarved⟩
  · exact Or.inl hthrew
  · exact Or.inr ⟨p, s', blocks', frees', hreturned, hheld, hholds,
      hI.alloc h.shape hlist hP hcareful hfit hholds.shape hcarved, hsize⟩

theorem free_call (hI : Maintained P Q I) (h : σ.Holds blocks frees) (hlist : I σ.allocator frees)
    (howned : σ.Owned p) (hcareful : p = .null ∨ σ.allocator.Mergeable (σ.allocator.getMeta p.idx))
    (hQ : p = .null ∨ Q σ.allocator (σ.allocator.getMeta p.idx)) :
    ∃ s' blocks' frees', σ.allocator.free p = .returned .null s' ∧
      Holds ⟨s', σ.live.erase p.idx⟩ blocks' frees' ∧ I s' frees' := by
  by_cases hnull : p = .null
  · subst hnull
    obtain ⟨hreturned, hholds⟩ := h.free_null
    exact ⟨σ.allocator, blocks, frees, hreturned, hholds, hlist⟩
  · have hmergeable := hcareful.resolve_left hnull
    obtain ⟨s', blocks', run, hreturned, hholds, hframe, -, hfreed⟩ :=
      h.free_block (howned.resolve_left hnull) hmergeable
    exact ⟨s', blocks', _, hreturned, hholds,
      hI.free h.shape hlist (hQ.resolve_left hnull) hmergeable hholds.shape hframe hfreed⟩

/-- `realloc` frees, allocates and fills the payload of the new block. -/
theorem realloc_call (hI : Maintained P Q I) (h : σ.Holds blocks frees)
    (hlist : I σ.allocator frees) (howned : σ.Owned p) {N : ℕ} (hcareful : σ.Careful (.realloc p N))
    (hmeets : σ.Meets P Q (.realloc p N)) :
    (∃ s', σ.allocator.realloc p N = (.threw s', .null) ∧ Listing I ⟨s', σ.live.erase p.idx⟩) ∨
      ∃ s' q, σ.allocator.realloc p N = (.returned () s', q) ∧
        Listing I ⟨s', σ.live.erase p.idx ++ q.held⟩ := by
  obtain ⟨s₁, blocks₁, frees₁, hfree, hholds₁, hlist₁⟩ :=
    hI.free_call h hlist howned hcareful.1 hmeets.1
  have hallocatable := hcareful.2 _ _ hfree
  have hP := hmeets.2 _ _ hfree
  rw [Allocator.realloc, hfree]
  rcases hI.alloc_call hholds₁ hlist₁ hallocatable hP with
    hthrew | ⟨q, s₂, blocks₂, frees₂, halloc, hheld, hholds₂, hlist₂, hsize⟩
  · refine Or.inl ⟨s₁, ?_, blocks₁, frees₁, hholds₁, hlist₁⟩
    simp only [hthrew]
  · simp only [halloc]
    refine Or.inr ⟨_, q, rfl, blocks₂, frees₂, ?_⟩
    have hq : q.idx ∈ σ.live.erase p.idx ++ q.held := by
      rw [hheld]
      simp
    by_cases hsource : p.get σ.allocator = 0
    · rw [if_neg (not_not.mpr hsource)]
      exact ⟨hholds₂, hlist₂⟩
    · rw [if_pos hsource]
      have hblock := (hholds₂.block hq).1
      have hframe := hholds₂.frame_move hq (p.get σ.allocator) hsize
      exact ⟨hholds₂.payload hblock hframe,
        hI.payload hholds₂.shape hlist₂ hframe (hholds₂.shape.payload hblock hframe).2⟩

/-- Every careful call that meets the conditions keeps the property. -/
theorem step (hI : Maintained P Q I) (h : σ.Listing I) (hcareful : σ.Careful call)
    (hmeets : σ.Meets P Q call) (hstep : Step σ call τ) : τ.Listing I := by
  obtain ⟨blocks, frees, h, hlist⟩ := h
  cases hstep with
  | alloc hreturned =>
      rcases hI.alloc_call h hlist hcareful hmeets with
        hthrew | ⟨p, s', blocks', frees', hreturned', -, hholds, hlist', -⟩
      · cases hreturned.symm.trans hthrew
      · cases hreturned.symm.trans hreturned'
        exact ⟨blocks', frees', hholds, hlist'⟩
  | alloc_threw hthrew =>
      rcases hI.alloc_call h hlist hcareful hmeets with
          hthrew' | ⟨p, s', blocks', frees', hreturned, -⟩
      · cases hthrew.symm.trans hthrew'
        exact ⟨blocks, frees, h, hlist⟩
      · cases hthrew.symm.trans hreturned
  | free howned hreturned =>
      obtain ⟨s', blocks', frees', hreturned', hholds, hlist'⟩ :=
        hI.free_call h hlist howned hcareful hmeets
      cases hreturned.symm.trans hreturned'
      rw [held_null, List.append_nil]
      exact ⟨blocks', frees', hholds, hlist'⟩
  | realloc howned hreturned =>
      rcases hI.realloc_call h hlist howned hcareful hmeets with
          ⟨s', hthrew, -⟩ | ⟨s', q, hreturned', hlisting⟩
      · cases hreturned.symm.trans hthrew
      · cases hreturned.symm.trans hreturned'
        exact hlisting
  | realloc_threw howned hthrew =>
      rcases hI.realloc_call h hlist howned hcareful hmeets with
          ⟨s', hthrew', hlisting⟩ | ⟨s', q, hreturned, -⟩
      · cases hthrew.symm.trans hthrew'
        rw [held_null, List.append_nil]
        exact hlisting
      · cases hthrew.symm.trans hreturned
  | defrag hreturned =>
      obtain ⟨s', hreturned', hdefragmented, hholds, hprev⟩ := h.defrag_call hcareful
      have hlast : σ.allocator.lastFree = s'.lastFree :=
        (lastFree_congr hdefragmented.buf hdefragmented.bufsize).symm
      rw [← hdefragmented.object, hlast] at hprev
      rw [hlast] at hholds
      cases hreturned.symm.trans hreturned'
      exact ⟨_, _, hholds, hI.single hholds.shape hprev⟩
  | @write i j value hi hj =>
      have hframe := h.frame_write hi value hj
      have hblock := (h.block hi).1
      exact ⟨blocks, frees, h.payload hblock hframe,
        hI.payload h.shape hlist hframe (h.shape.payload hblock hframe).2⟩

/-- A new allocator, of which nothing is held. -/
theorem create {mem : Bytes} {object base size : ℕ} (hI : Maintained P Q I)
    (h : Suitable object base size) (hcreate : create mem object base size = .returned () s') :
    Listing I ⟨s', []⟩ := by
  obtain ⟨hshape, hprev⟩ := create_spec h hcreate
  refine ⟨_, _, ⟨hshape, List.nodup_nil, fun i hi ↦ (List.not_mem_nil hi).elim, fun m ↦ ?_⟩,
    hI.single hshape hprev⟩
  have hfree := hshape.free_iff m
  constructor
  · rintro ⟨hm, hocc⟩
    exact absurd hocc (hfree.mp hm).2.1
  · rintro ⟨i, hi, -⟩
    exact (List.not_mem_nil hi).elim

/-- Every session all of whose calls are careful and meet the conditions has the property. -/
theorem run {mem : Bytes} {object base size : ℕ} {calls : List Call} (hI : Maintained P Q I)
    (h : Suitable object base size)
    (hcreate : Allocator.create mem object base size = .returned () s')
    (hrun : Run (Guarded (fun σ call ↦ σ.Careful call ∧ σ.Meets P Q call) Step) ⟨s', []⟩ calls σ) :
    σ.Listing I :=
  hrun.invariant (hI.create h hcreate) fun _ _ _ hlisting hstep ↦
    hI.step hlisting hstep.1.1 hstep.1.2 hstep.2

end Maintained

/-- The order of the structure alone needs no condition but care. -/
theorem maintained_holds : Maintained (fun _ _ ↦ True) (fun _ _ ↦ True) fun _ _ ↦ True :=
  ⟨fun _ _ _ _ _ _ _ ↦ trivial, fun _ _ _ _ _ _ _ ↦ trivial, fun _ _ _ _ ↦ trivial,
    fun _ _ ↦ trivial⟩

/-- A careful call keeps the structure in order. -/
theorem Invariant.step (h : σ.Invariant) (hcareful : σ.Careful call) (hstep : Step σ call τ) :
    τ.Invariant := by
  have hmeets : Meets (fun _ _ ↦ True) (fun _ _ ↦ True) σ call := by
    cases call with
    | alloc N => trivial
    | free p => exact Or.inr trivial
    | realloc p N => exact ⟨Or.inr trivial, fun _ _ _ ↦ trivial⟩
    | defrag => trivial
    | write i j value => trivial
  obtain ⟨blocks, frees, h⟩ := h
  obtain ⟨blocks', frees', hholds, -⟩ :=
    maintained_holds.step ⟨blocks, frees, h, trivial⟩ hcareful hmeets hstep
  exact ⟨blocks', frees', hholds⟩

/-- A new session is in order. -/
theorem Invariant.create {mem : Bytes} {object base size : ℕ} (h : Suitable object base size)
    (hcreate : Allocator.create mem object base size = .returned () s') : Invariant ⟨s', []⟩ := by
  obtain ⟨blocks, frees, hholds, -⟩ := maintained_holds.create h hcreate
  exact ⟨blocks, frees, hholds⟩

/-- Every session all of whose calls are careful is in order. -/
theorem Invariant.run {mem : Bytes} {object base size : ℕ} {calls : List Call}
    (h : Suitable object base size)
    (hcreate : Allocator.create mem object base size = .returned () s')
    (hrun : Run (Guarded Careful Step) ⟨s', []⟩ calls σ) : σ.Invariant :=
  hrun.invariant (Invariant.create h hcreate) fun _ _ _ h hstep ↦ h.step hstep.1 hstep.2

end Session

end CppMtHw.Allocation
