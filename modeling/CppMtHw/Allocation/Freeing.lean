import CppMtHw.Allocation.FreeList
import Mathlib.Tactic.Tauto

/-!
# Freeing a block

`free` takes the free blocks behind the block out of the list and adds them to it. This
goes well if none of them has a null backward link or is the first of the list, and none
is directly behind an earlier one in the list: `unlinkFree` leaves the list as it is in
front of an element with a null backward link, and makes the backward link of the next
element null.
-/

namespace CppMtHw.Allocation

open Machine

namespace Allocator

variable {s s' s'' : Allocator} {blocks frees loose front rest run : List ℕ}
  {b m n o e x t fuel : ℕ} {spare : Option ℕ}

/-- Free blocks one behind the other, the first directly behind the block. -/
def FreeRun (s : Allocator) (b : ℕ) (run : List ℕ) : Prop :=
  ∃ e ≤ s.dataEnd, s.Tiles (s.offs b + 8 * s.getSize b) run e ∧ ∀ c ∈ run, ¬s.isOccupied c

/-- Every free block that `free` will add to the block can be unlinked. -/
def Mergeable (s : Allocator) (b : ℕ) : Prop :=
  ∀ run, s.FreeRun b run →
    (∀ c ∈ run, s.prev c ≠ 0 ∧ s.prev c ≠ s.head) ∧ run.Pairwise fun c d ↦ s.prev d ≠ c

/-- The free blocks that `free` adds to the block: those up to the next live one, or the end. -/
def Absorbs (s : Allocator) (b : ℕ) (run : List ℕ) : Prop :=
  s.FreeRun b run ∧ ∀ c, ¬s.FreeRun b (run ++ [c])

structure Relinked (s s' : Allocator) : Prop where
  frame : Frame s.Managed s s'
  offs : ∀ m, s.Slot m → s'.offs m = s.offs m
  size : ∀ m, s.Slot m → s'.size m = s.size m

theorem Frame.then {R : ℕ → Prop} (h : Frame s.Managed s s') (h' : Frame s'.Managed s' s'')
    (hsub : ∀ x, s.Managed x → R x) : Frame R s s'' :=
  (h.trans (h'.mono fun _ hx ↦ h.managed.mp hx)).mono hsub

namespace Relinked

theorem refl (s : Allocator) : Relinked s s := ⟨Frame.refl _ s, fun _ _ ↦ rfl, fun _ _ ↦ rfl⟩

theorem trans (h : Relinked s s') (h' : Relinked s' s'') : Relinked s s'' :=
  ⟨h.frame.then h'.frame fun _ hx ↦ hx,
    fun m hm ↦ (h'.offs m (h.frame.slot.mpr hm)).trans (h.offs m hm),
    fun m hm ↦ (h'.size m (h.frame.slot.mpr hm)).trans (h.size m hm)⟩

theorem getSize (h : Relinked s s') (hm : s.Slot m) : s'.getSize m = s.getSize m := by
  rw [Allocator.getSize, h.size m hm, Allocator.getSize]

theorem occupied (h : Relinked s s') (hm : s.Slot m) : s'.isOccupied m ↔ s.isOccupied m := by
  rw [isOccupied, h.size m hm, isOccupied]

end Relinked

/-- `unlinkFree` alone changes only links. -/
theorem unlinkFree_spec (h : s.Shape blocks (front ++ x :: rest) loose none) (hprev : s.prev x ≠ 0)
    (hocc : ¬s.isOccupied x) :
    s.Unlinked (s.unlinkFree x) x (s.size x) ∧ s.Relinked (s.unlinkFree x) ∧
      (s.unlinkFree x).Shape blocks (front ++ rest) (x :: loose) none := by
  have hset : Records s s fun m ↦ if m = x then { s.info x with size := s.size x }
      else s.info m := by
    refine (Records.refl s).congr fun m _ ↦ ?_
    split
    · rename_i heq
      rw [heq]
      rfl
    · rfl
  have hunlinked := unlinked_unlinkFree h hprev hset rfl
  have hsize : ∀ m, s.Slot m → (s.unlinkFree x).size m = s.size m := fun m hm ↦ by
    by_cases heq : m = x
    · rw [heq, hunlinked.word]
    · exact hunlinked.size m hm heq
  have hoccx : ¬(s.unlinkFree x).isOccupied x := by rwa [isOccupied, hunlinked.word]
  refine ⟨hunlinked, ⟨hunlinked.frame, hunlinked.offs, hsize⟩,
    h.unlink hprev hunlinked _ fun b ↦ ?_⟩
  rw [List.mem_cons, or_comm]
  simp only [hoccx, not_false_eq_true, and_true]

/-- Taking `c` and then the elements of `run` out of a list. -/
theorem filter_cons_notMem {before behind : List ℕ} {c : ℕ} (hc : c ∉ before ++ behind) :
    (before ++ behind).filter (fun d ↦ d ∉ run) = (before ++ c :: behind).filter fun d ↦
      d ∉ c :: run := by
  have hkept : (before ++ c :: behind).filter (fun d ↦ d ∉ c :: run) =
      (before ++ behind).filter fun d ↦ d ∉ c :: run := by
    simp
  rw [hkept]
  apply List.filter_congr
  intro d hd
  have hne : d ≠ c := fun heq ↦ hc (heq ▸ hd)
  simp [hne]

/-- A backward link that does not lead to the element stays. -/
theorem Shape.prev_kept {w : ℕ} {spare : Option ℕ}
    (h : s.Shape blocks (front ++ x :: rest) loose spare) (hunlinked : s.Unlinked s' x w)
    (hm : s.Slot m) (hmx : m ≠ x) (hnull : s.prev m ≠ 0) (hne : s.prev m ≠ x) :
    s'.prev m = s.prev m := by
  apply hunlinked.prev m hm hmx
  intro heq
  have hpos := h.placed.slot_pos hm
  rcases h.prev_next (by omega) with hnull' | hx
  · exact hnull (heq ▸ hnull')
  · exact hne (heq ▸ hx)

/-- The free blocks at the start of the rest have links that lead away from those in front of
them. -/
def Unlinkable (s : Allocator) (rest : List ℕ) : Prop :=
  ∀ run, run <+: rest → (∀ c ∈ run, ¬s.isOccupied c) →
    (∀ c ∈ run, s.prev c ≠ 0) ∧ run.Pairwise fun c d ↦ s.prev d ≠ c

/-- They still do when the first of them is unlinked. -/
theorem Unlinkable.unlink {c w : ℕ} {back : List ℕ} {spare : Option ℕ}
    (hclean : s.Unlinkable (c :: rest)) (h : s.Shape blocks (front ++ c :: back) loose spare)
    (hunlinked : s.Unlinked s' c w) (hocc : ¬s.isOccupied c) (hnot : c ∉ rest)
    (hslots : ∀ d ∈ rest, s.Slot d) : s'.Unlinkable rest := by
  intro run hrun hfree
  have hne : ∀ d ∈ run, d ≠ c := fun d hd heq ↦ hnot (heq ▸ hrun.subset hd)
  have hfree' : ∀ d ∈ c :: run, ¬s.isOccupied d := by
    intro d hd hdocc
    rcases List.mem_cons.mp hd with rfl | hd
    · exact hocc hdocc
    · exact hfree d hd ((hunlinked.occupied (hslots d (hrun.subset hd)) (hne d hd)).mpr hdocc)
  obtain ⟨hprevs, hpairs⟩ := hclean (c :: run) (List.cons_prefix_cons.mpr ⟨rfl, hrun⟩) hfree'
  rw [List.pairwise_cons] at hpairs
  have hsame : ∀ d ∈ run, s'.prev d = s.prev d := fun d hd ↦
    h.prev_kept hunlinked (hslots d (hrun.subset hd)) (hne d hd)
      (hprevs d (List.mem_cons_of_mem c hd)) (hpairs.1 d hd)
  refine ⟨fun d hd ↦ ?_, hpairs.2.imp_of_mem fun {d d'} _ hd' hne ↦ ?_⟩
  · rw [hsame d hd]
    exact hprevs d (List.mem_cons_of_mem c hd)
  · rw [hsame d' hd']
    exact hne

/-- The loop unlinks the free blocks at the start of the rest, one after the other. A backward link
that leads to none of them stays. -/
theorem mergeLoop_spec (h : s.Shape blocks frees loose none) (htiles : s.Tiles o rest s.dataEnd)
    (hblocks : ∀ c ∈ rest, c ∈ blocks ∧ c ∉ loose)
    (hclean : s.Unlinkable rest) (hfuel : rest.length < fuel) :
    ∃ run back t s' frees', rest = run ++ back ∧ s.Tiles o run t ∧ s.Tiles t back s.dataEnd ∧
      mergeLoop (s.buf + s.dataEnd) fuel s (s.buf + o) = some (s.buf + t, s') ∧ s.Relinked s' ∧
      s'.Shape blocks frees' (run.reverse ++ loose) none ∧ (∀ c ∈ run, ¬s.isOccupied c) ∧
      (∀ c, back.head? = some c → s.isOccupied c) ∧ frees' = frees.filter (fun c ↦ c ∉ run) ∧
      s' = run.foldl unlinkFree s ∧
      ∀ m, s.Slot m → m ∉ run → s.prev m ≠ 0 → s.prev m ∉ run → s'.prev m = s.prev m := by
  induction rest generalizing s frees loose o fuel with
  | nil =>
      obtain ⟨fuel, rfl⟩ := Nat.exists_eq_succ_of_ne_zero (Nat.ne_of_gt hfuel)
      have ho : o = s.dataEnd := htiles
      refine ⟨[], [], o, s, frees, rfl, rfl, htiles, ?_, Relinked.refl s, h,
        fun c hc ↦ (List.not_mem_nil hc).elim, fun c hc ↦ (Option.some_ne_none c hc.symm).elim,
        by simp, rfl, fun _ _ _ _ _ ↦ rfl⟩
      rw [mergeLoop, if_neg (by omega)]
  | cons c rest ih =>
      obtain ⟨fuel, rfl⟩ := Nat.exists_eq_succ_of_ne_zero (Nat.ne_of_gt (Nat.zero_lt_of_lt hfuel))
      have hnodup := htiles.nodup
      obtain ⟨hoffs, hsize, hheader, hrest⟩ := htiles
      obtain ⟨hcblock, hcloose⟩ := hblocks c List.mem_cons_self
      have hcslot := h.slot hcblock
      have hend := hrest.le
      have hlt : s.buf + o < s.buf + s.dataEnd := by omega
      by_cases hocc : s.isOccupied c
      · refine ⟨[], c :: rest, o, s, frees, rfl, rfl, ⟨hoffs, hsize, hheader, hrest⟩, ?_,
          Relinked.refl s, h,
          fun c hc ↦ (List.not_mem_nil hc).elim, fun d hd ↦ Option.some.inj hd ▸ hocc, by simp,
          rfl, fun _ _ _ _ _ ↦ rfl⟩
        rw [mergeLoop, if_pos hlt, hheader, if_pos hocc]
      · have hfree : c ∈ frees := (h.free_iff c).mpr ⟨hcblock, hocc, hcloose⟩
        obtain ⟨before, behind, rfl⟩ := List.append_of_mem hfree
        have hsingle := hclean [c] (by simp) (by simpa using hocc)
        obtain ⟨hunlinked, hrelinked, hshape⟩ := unlinkFree_spec h (hsingle.1 c (by simp)) hocc
        have hframe := hrelinked.frame
        have htiles' : (s.unlinkFree c).Tiles (o + 8 * s.getSize c) rest
            (s.unlinkFree c).dataEnd := by
          rw [hframe.dataEnd]
          exact hrest.congr hframe.buf fun d hd ↦ by
            have hdblock := (hblocks d (List.mem_cons_of_mem c hd)).1
            exact ⟨hrelinked.offs d (h.slot hdblock), hrelinked.getSize (h.slot hdblock),
              hframe.header_eq h.placed (h.dataWord hdblock)⟩
        have hnot : c ∉ rest := (List.nodup_cons.mp hnodup).1
        have hfuel' : rest.length < fuel := by simpa using hfuel
        obtain ⟨run, back, t, s', frees', rfl, hrun, hback, hloop, hrelinked', hshape', hfreerun,
            hstop, hlist, hunlinks, hlinks⟩ :=
          ih hshape htiles' (fun d hd ↦ by
              obtain ⟨hdblock, hdloose⟩ := hblocks d (List.mem_cons_of_mem c hd)
              refine ⟨hdblock, fun hmem ↦ ?_⟩
              rcases List.mem_cons.mp hmem with rfl | hmem
              · exact hnot hd
              · exact hdloose hmem)
            (hclean.unlink h hunlinked hocc hnot fun d hd ↦
              h.slot (hblocks d (List.mem_cons_of_mem c hd)).1)
            hfuel'
        have hsame : ∀ d ∈ run ++ back, s.Slot d ∧ (s.unlinkFree c).header (s.buf + s.offs d) =
            s.header (s.buf + s.offs d) := fun d hd ↦ by
          have hdblock := (hblocks d (List.mem_cons_of_mem c hd)).1
          exact ⟨h.slot hdblock, hframe.header_eq h.placed (h.dataWord hdblock)⟩
        obtain ⟨mid, hrun₀, hback₀⟩ := tiles_append.mp hrest
        have hmid : mid = t := by
          have hrun₁ := hrun₀.congr hframe.buf fun d hd ↦ by
            obtain ⟨hd, hheaderd⟩ := hsame d (List.mem_append_left _ hd)
            exact ⟨hrelinked.offs d hd, hrelinked.getSize hd, hheaderd⟩
          exact hrun₁.end_unique hrun
        subst hmid
        refine ⟨c :: run, back, mid, s', frees', rfl, ⟨hoffs, hsize, hheader, hrun₀⟩, hback₀, ?_,
          hrelinked.trans hrelinked', by simpa using hshape', ?_, fun d hd ↦ ?_,
          hlist.trans (filter_cons_notMem h.not_mem_rest), hunlinks,
            fun m hm hmrun hprev hprevrun ↦ ?_⟩
        · have hbufend := h.placed.buf_end
          have hdataEnd := h.placed.dataEnd_le
          obtain ⟨count, hcount⟩ := h.placed.array
          have hstep : wrap (s.buf + o + (s.unlinkFree c).getSize c * 8) =
              s.buf + (o + 8 * s.getSize c) := by
            rw [hrelinked.getSize hcslot, wrap, Nat.mod_eq_of_lt (by omega)]
            omega
          rw [mergeLoop, if_pos hlt, hheader, if_neg hocc]
          simp only [hstep]
          rwa [hframe.buf, hframe.dataEnd] at hloop
        · intro d hd
          rcases List.mem_cons.mp hd with rfl | hd
          · exact hocc
          · have hdslot := (hsame d (List.mem_append_left _ hd)).1
            exact fun hd' ↦ hfreerun d hd ((hrelinked.occupied hdslot).mpr hd')
        · have hdslot := (hsame d (List.mem_append_right _ (List.mem_of_mem_head? hd))).1
          exact (hrelinked.occupied hdslot).mp (hstop d hd)
        · rw [List.mem_cons, not_or] at hmrun hprevrun
          have hsame := h.prev_kept hunlinked hm hmrun.1 hprev hprevrun.1
          rw [hlinks m (hframe.slot.mpr hm) hmrun.2 (hsame ▸ hprev) (hsame ▸ hprevrun.2), hsame]

/-- The blocks before and after some of them are taken over by the one in front. -/
theorem mem_absorbed {back : List ℕ} {c : ℕ} :
    c ∈ front ++ (b :: run) ++ back ↔ c ∈ front ++ b :: back ∨ c ∈ run := by
  simp only [List.mem_append, List.mem_cons]
  tauto

theorem nodup_absorbed {back : List ℕ} (h : (front ++ (b :: run) ++ back).Nodup) :
    b ∉ front ∧ b ∉ back ∧ ∀ c ∈ run, c ∉ front ++ b :: back := by
  rw [List.append_assoc, List.cons_append, List.nodup_append, List.nodup_cons, List.nodup_append]
    at h
  obtain ⟨-, ⟨hb, -, -, hrun⟩, hfront⟩ := h
  rw [List.mem_append, not_or] at hb
  refine ⟨fun hmem ↦ hfront b hmem b List.mem_cons_self rfl, hb.2, fun c hc hmem ↦ ?_⟩
  rw [List.mem_append, List.mem_cons] at hmem
  rcases hmem with hmem | rfl | hmem
  · exact hfront c hmem c (by simp [hc]) rfl
  · exact hb.1 hc
  · exact hrun c hc c hmem rfl

/-- Where a block grows over the blocks behind it, the buffer is still tiled. -/
theorem Tiles.absorb (h : s.Tiles o (front ++ (b :: run) ++ rest) e)
    (htiles : s.Tiles (s.offs b) (b :: run) t) (hbuf : s'.buf = s.buf)
    (hkept : ∀ c ∈ front ++ (b :: run) ++ rest, c ≠ b → s'.offs c = s.offs c ∧
      s'.getSize c = s.getSize c ∧ s'.header (s.buf + s.offs c) = s.header (s.buf + s.offs c))
    (hoffs : s'.offs b = s.offs b) (hheader : s'.header (s.buf + s.offs b) = b)
    (hpos : 0 < s'.getSize b) (hend : s.offs b + 8 * s'.getSize b = t) :
    s'.Tiles o (front ++ b :: rest) e := by
  obtain ⟨hfrontb, hrestb, -⟩ := nodup_absorbed h.nodup
  obtain ⟨mid, hleft, hback⟩ := tiles_append.mp h
  obtain ⟨mid', hfront, hmiddle⟩ := tiles_append.mp hleft
  obtain rfl : s.offs b = mid' := hmiddle.1
  obtain rfl : mid = t := hmiddle.end_unique htiles
  apply tiles_append.mpr
  refine ⟨s.offs b, hfront.congr hbuf fun c hc ↦ ?_, hoffs, hpos, hbuf ▸ hheader, ?_⟩
  · exact hkept c (by simp [hc]) fun heq ↦ hfrontb (heq ▸ hc)
  · rw [hend]
    exact hback.congr hbuf fun c hc ↦ hkept c (by simp [hc]) fun heq ↦ hrestb (heq ▸ hc)

/-- A free block takes over the free blocks behind it, whose objects are no longer used. -/
theorem Shape.absorb (h : s.Shape (front ++ (b :: run) ++ rest) frees loose none)
    (hloose : ∀ c, c ∈ loose ↔ c ∈ b :: run) (htiles : s.Tiles (s.offs b) (b :: run) t) :
    (s.setSize b ((t - s.offs b) / 8)).Shape (front ++ b :: rest) frees [b] none := by
  have hp := h.placed
  have hbmem : b ∈ front ++ (b :: run) ++ rest := by simp
  have hbslot := h.slot hbmem
  have hbounds := h.bounds hbmem
  have hdvd := htiles.dvd
  have hle := htiles.2.2.2.le
  have hend : t ≤ s.dataEnd := by
    obtain ⟨mid, hleft, hback⟩ := tiles_append.mp h.tiles
    obtain ⟨mid', -, hmiddle⟩ := tiles_append.mp hleft
    obtain rfl : s.offs b = mid' := hmiddle.1
    obtain rfl : mid = t := hmiddle.end_unique htiles
    exact hback.le
  have hdataEnd := hp.dataEnd_le
  have hbufend := hp.buf_end
  obtain ⟨count, hcount⟩ := hp.array
  have hsz : (t - s.offs b) / 8 < 2 ^ 63 := by omega
  have hframe : Frame s.Managed s (s.setSize b ((t - s.offs b) / 8)) := frame_setSize hbslot
  have hresized := resized_setSize hp hbslot hsz
  generalize s.setSize b ((t - s.offs b) / 8) = s' at hframe hresized ⊢
  have hgetSize := hresized.getSize
  have hoffsb := hresized.offs b hbslot
  have hnext := hresized.next
  have hprev := hresized.prev
  have hocc : ¬s.isOccupied b := (h.loose b ((hloose b).mpr List.mem_cons_self)).2.1
  have hoccb : ¬s'.isOccupied b := fun hoccb ↦ hocc ((hresized.occupied b hbslot).mp hoccb)
  have hkept : ∀ m ∈ front ++ (b :: run) ++ rest, m ≠ b → s'.offs m = s.offs m ∧
      s'.getSize m = s.getSize m ∧ s'.header (s.buf + s.offs m) = s.header (s.buf + s.offs m) := by
    intro m hm hne
    exact ⟨hresized.offs m (h.slot hm), hresized.getSize_of_ne (h.slot hm) hne,
      hframe.header_eq hp (h.dataWord hm)⟩
  have hslotfree : ∀ c ∈ frees, s.Slot c := fun c hc ↦ h.slot (h.block_of_free hc)
  have hsub : ∀ c, c ∈ front ++ b :: rest → c ∈ front ++ (b :: run) ++ rest := fun c hc ↦
    mem_absorbed.mpr (Or.inl hc)
  have hrun := (nodup_absorbed h.tiles.nodup).2.2
  refine ⟨hframe.placed hp, ?_, fun c hc ↦ hframe.metaSlot.mpr (h.slots c (hsub c hc)), ?_, ?_,
    fun c ↦ ?_, fun c hc ↦ ?_, fun c hcslot hc _ ↦ ?_, ?_⟩
  · rw [hframe.dataEnd]
    have hheader : s'.header (s.buf + s.offs b) = b :=
      (hframe.header_eq hp (h.dataWord hbmem)).trans hbounds.2.2.1
    exact h.tiles.absorb htiles hframe.buf hkept hoffsb hheader (by omega) (by omega)
  · rw [hframe.head, nextLink, hnext s.head (Or.inl rfl)]
    exact h.chain.congr fun c hc ↦ by rw [nextLink, hnext c (hslotfree c hc), nextLink]
  · rw [hframe.head]
    exact h.back.congr fun c hc ↦ by rw [prevLink, hprev c (hslotfree c hc), prevLink]
  · rw [h.free_iff, hloose]
    constructor
    · rintro ⟨hc, hcocc, hcrun⟩
      rw [List.mem_cons, not_or] at hcrun
      refine ⟨?_, fun hcocc' ↦ hcocc ((hresized.occupied c (h.slot hc)).mp hcocc'), by
        simpa using hcrun.1⟩
      exact (mem_absorbed.mp hc).resolve_right hcrun.2
    · rintro ⟨hc, hcocc, hcb⟩
      have hcb' : c ≠ b := by simpa using hcb
      refine ⟨hsub c hc, fun hcocc' ↦ hcocc
        ((hresized.occupied c (h.slot (hsub c hc))).mpr hcocc'), ?_⟩
      rw [List.mem_cons, not_or]
      exact ⟨hcb', fun hmem ↦ hrun c hmem hc⟩
  · rw [List.mem_singleton] at hc
    rw [hc, hnext b hbslot, hprev b hbslot]
    exact ⟨by simp, hoccb, (h.loose b ((hloose b).mpr List.mem_cons_self)).2.2⟩
  · rw [hframe.metaSlot] at hcslot
    rw [isUsed, hresized.occupied c (Or.inr hcslot), hnext c (Or.inr hcslot),
      hprev c (Or.inr hcslot)]
    by_cases hmem : c ∈ b :: run
    · obtain ⟨-, hcocc, hcnext, hcprev⟩ := h.loose c ((hloose c).mpr hmem)
      simp [hcocc, hcnext, hcprev]
    · refine h.unused c hcslot (fun hblocks ↦ hc ?_) (by simp)
      exact (mem_absorbed.mp hblocks).resolve_right fun hcrun ↦ hmem (List.mem_cons_of_mem b hcrun)
  · have hlast := h.last
    rw [hframe.lastFree, hframe.dataEnd]
    by_cases heq : s.lastFree = b
    · rw [heq] at hlast ⊢
      rw [hoffsb, hgetSize]
      omega
    · have hlastslot : s.Slot s.lastFree := Or.inr hp.lastFree_slot
      rw [hresized.offs _ hlastslot, hresized.getSize_of_ne hlastslot heq]
      exact hlast

/-! ## The call -/

theorem Shape.get_ne_zero (h : s.Shape blocks frees loose none) (hb : b ∈ blocks) {p : Pointer}
    (hp : p.idx ≠ nullPtrIdx) (hidx : s.getMeta p.idx = b) :
    p.get s = s.buf + s.offs b + 8 ∧ p.get s ≠ 0 := by
  have hbounds := h.bounds hb
  have hdataEnd := h.placed.dataEnd_le
  have hbufend := h.placed.buf_end
  obtain ⟨count, hcount⟩ := h.placed.array
  have hget : p.get s = s.buf + s.offs b + 8 := by
    rw [Pointer.get, if_neg hp, get, hidx, wrap, Nat.mod_eq_of_lt (by omega)]
  exact ⟨hget, by omega⟩

/-- The blocks that the loop of `free` meets can be unlinked when the block is in front of the
list. -/
theorem Shape.mergeable_inserted (h : s.WellFormed blocks frees) (hb : b ∈ blocks)
    (hocc : s.isOccupied b) (hmergeable : s.Mergeable b) (hinserted : s.Inserted s' b)
    (htiles : s.Tiles (s.offs b) (b :: rest) s.dataEnd) (hrest : ∀ c ∈ rest, c ∈ blocks)
    (hrun : run <+: b :: rest) (hfreerun : ∀ c ∈ run, ¬s'.isOccupied c) :
    (∀ c ∈ run, s'.prev c ≠ 0) ∧ run.Pairwise fun c d ↦ s'.prev d ≠ c := by
  cases run with
  | nil => exact ⟨fun c hc ↦ (List.not_mem_nil hc).elim, List.Pairwise.nil⟩
  | cons c run =>
      obtain ⟨rfl, behind, rfl⟩ := List.cons_prefix_cons.mp hrun
      have hnot := (List.nodup_cons.mp htiles.nodup).1
      have hmem : ∀ d ∈ run, d ∈ blocks ∧ d ≠ c := fun d hd ↦
        ⟨hrest d (List.mem_append_left _ hd), fun heq ↦ hnot (heq ▸ List.mem_append_left _ hd)⟩
      have hfree : ∀ d ∈ run, ¬s.isOccupied d := fun d hd hdocc ↦ by
        obtain ⟨hdblock, hdne⟩ := hmem d hd
        exact hfreerun d (List.mem_cons_of_mem c hd)
          ((hinserted.occupied d (h.slot hdblock) hdne).mpr hdocc)
      obtain ⟨e, htilesrun, htilesbehind⟩ := tiles_append.mp htiles.2.2.2
      obtain ⟨hprevs, hpairs⟩ := hmergeable run ⟨e, htilesbehind.le, htilesrun, hfree⟩
      have hnotfree : c ∉ frees := fun hc ↦ ((h.free_iff c).mp hc).2.1 hocc
      -- the run does not start the list, so it keeps its backward links
      have hsame : ∀ d ∈ run, s'.prev d = s.prev d ∧ s.prev d ≠ c := fun d hd ↦ by
        obtain ⟨hdblock, hdne⟩ := hmem d hd
        have hdfree : d ∈ frees := (h.free_iff d).mpr ⟨hdblock, hfree d hd, List.not_mem_nil⟩
        obtain ⟨before, after, rfl⟩ := List.append_of_mem hdfree
        obtain ⟨hprev, hprevhead⟩ := hprevs d hd
        refine ⟨hinserted.prev d (h.slot hdblock) hdne fun heq ↦ hprevhead ?_, fun heq ↦ ?_⟩
        · have hpos := h.placed.slot_pos (h.slot hdblock)
          have hhead := h.head_next
          rw [← heq, link_of_ne (Nat.ne_of_gt hpos)] at hhead
          have hbefore : before = [] := by
            cases before with
            | nil => rfl
            | cons y ys =>
                have hnodup := h.chain.nodup
                obtain rfl : d = y := Option.some.inj hhead
                exact absurd (List.mem_append_right ys List.mem_cons_self)
                  (List.nodup_cons.mp hnodup).1
          rw [hbefore] at h
          exact Option.some.inj (h.prev_eq hprev)
        · rcases h.prev_mem hprev with hhead | hbefore
          · exact hprevhead hhead
          · exact hnotfree (heq ▸ List.mem_append_left _ hbefore)
      have hheadpos := h.placed.head_pos
      refine ⟨fun d hd ↦ ?_, List.pairwise_cons.mpr
        ⟨fun d hd ↦ ?_, hpairs.imp_of_mem fun {d d'} _ hd' hne ↦ ?_⟩⟩
      · rcases List.mem_cons.mp hd with rfl | hd
        · rw [hinserted.element.2]
          exact Nat.ne_of_gt hheadpos
        · rw [(hsame d hd).1]
          exact (hprevs d hd).1
      · rw [(hsame d hd).1]
        exact (hsame d hd).2
      · rw [(hsame d' hd').1]
        exact hne

/-- What `free` does to the block, and to the backward links of others. -/
structure Freed (s s' : Allocator) (frees : List ℕ) (b : ℕ) (run : List ℕ) : Prop where
  absorbs : s.Absorbs b run
  offs : s'.offs b = s.offs b
  size : s.getSize b ≤ s'.getSize b
  element : s'.prev b = s.head
  second : ∀ y, (frees.filter fun c ↦ c ∉ run).head? = some y → s'.prev y = b
  prev : ∀ m, s.Slot m → m ∉ b :: run → s.prev m ≠ 0 → s.prev m ≠ s.head → s.prev m ∉ b :: run →
    s'.prev m = s.prev m

/-- The loop has stopped where the free blocks end. -/
theorem absorbs_of_tiles {back : List ℕ} (hle : e ≤ s.dataEnd)
    (htiles : s.Tiles (s.offs b + 8 * s.getSize b) run e) (hback : s.Tiles e back s.dataEnd)
    (hfree : ∀ c ∈ run, ¬s.isOccupied c) (hstop : ∀ c, back.head? = some c → s.isOccupied c) :
    s.Absorbs b run := by
  refine ⟨⟨e, hle, htiles, hfree⟩, ?_⟩
  rintro c ⟨e', hle', htiles', hfree'⟩
  obtain ⟨mid, hrun, -, hsize, hheader, hend⟩ := tiles_append.mp htiles'
  obtain rfl := hrun.end_unique htiles
  have hend' : mid + 8 * s.getSize c = e' := hend
  cases back with
  | nil =>
      have hdataEnd : mid = s.dataEnd := hback
      omega
  | cons d back =>
      obtain rfl : c = d := hheader.symm.trans hback.2.2.1
      exact hfree' c (by simp) (hstop c rfl)

/-- The backward link of the first element. -/
theorem Shape.first_prev (h : s.Shape blocks (x :: rest) loose spare) :
    s.prev x = 0 ∨ s.prev x = s.head := by
  rcases h.back.1 with hnull | hhead
  · exact Or.inl (link_eq_none.mp hnull)
  · exact Or.inr (link_eq_some.mp hhead).1

/-- The first element of the list is not added to the block, so it stays the first. -/
theorem Shape.first_kept (h : s.WellFormed blocks frees) (hmergeable : s.Mergeable b)
    (hrun : s.FreeRun b run) : (frees.filter fun c ↦ c ∉ run).head? = frees.head? := by
  cases frees with
  | nil => rfl
  | cons f rest =>
      have hnot : f ∉ run := by
        intro hmem
        obtain ⟨hnull, hhead⟩ := (hmergeable run hrun).1 f hmem
        exact h.first_prev.elim hnull hhead
      simp [hnot]

/-- The steps of `free` one after the other. -/
theorem Shape.freed {s₁ s₂ s₃ : Allocator} (h : s.WellFormed blocks frees) (hb : b ∈ blocks)
    (hmergeable : s.Mergeable b) (habsorbs : s.Absorbs b run) (hinserted : s.Inserted s₁ b)
    (hrelinked : s₁.Relinked s₂)
    (hlinks : ∀ m, s₁.Slot m → m ∉ b :: run → s₁.prev m ≠ 0 → s₁.prev m ∉ b :: run →
      s₂.prev m = s₁.prev m)
    (hresized : s₂.Resized s₃ b n) (hsize : s.getSize b ≤ n) (hframe : Frame s₂.Managed s₂ s₃)
    (hhead : link (s₃.next s₃.head) = (frees.filter fun c ↦ c ∉ run).head?)
    (hinserted₄ : s₃.Inserted s' b) : s.Freed s' frees b run := by
  have hslot₁ : ∀ m, s.Slot m → s₁.Slot m := fun m hm ↦ hinserted.frame.slot.mpr hm
  have hslot₂ : ∀ m, s.Slot m → s₂.Slot m := fun m hm ↦ hrelinked.frame.slot.mpr (hslot₁ m hm)
  have hslot₃ : ∀ m, s.Slot m → s₃.Slot m := fun m hm ↦ hframe.slot.mpr (hslot₂ m hm)
  have hbslot := h.slot hb
  have hheads : s₃.head = s.head := by rw [hframe.head, hrelinked.frame.head, hinserted.frame.head]
  refine ⟨habsorbs, ?_, ?_, ?_, fun y hy ↦ ?_, fun m hm hmrun hnull hfirst hprev ↦ ?_⟩
  · rw [hinserted₄.offs b (hslot₃ b hbslot), hresized.offs b (hslot₂ b hbslot),
      hrelinked.offs b (hslot₁ b hbslot), hinserted.offs b hbslot]
  · rwa [hinserted₄.getSize b (hslot₃ b hbslot), hresized.getSize]
  · rw [hinserted₄.element.2, hheads]
  · rw [← hhead] at hy
    obtain ⟨rfl, hne⟩ := link_eq_some.mp hy
    exact hinserted₄.second hne
  · have hnotfirst : link (s.next s.head) ≠ some m := by
      intro hm
      rw [h.head_next] at hm
      cases frees with
      | nil => cases hm
      | cons f rest =>
          obtain rfl := Option.some.inj hm
          exact h.first_prev.elim hnull hfirst
    have hmne : m ≠ 0 := Nat.ne_of_gt (h.placed.slot_pos hm)
    have hmb : m ≠ b := fun heq ↦ hmrun (heq ▸ List.mem_cons_self)
    have hprev₁ : s₁.prev m = s.prev m := by
      apply hinserted.prev m hm hmb
      intro heq
      exact hnotfirst (by rw [← heq]; exact link_of_ne hmne)
    have hprev₂ : s₂.prev m = s.prev m := by
      rw [hlinks m (hslot₁ m hm) hmrun (hprev₁ ▸ hnull) (hprev₁ ▸ hprev), hprev₁]
    have hprev₃ : s₃.prev m = s.prev m := (hresized.prev m (hslot₂ m hm)).trans hprev₂
    rw [← hprev₃]
    apply hinserted₄.prev m (hslot₃ m hm) hmb
    intro heq
    rw [← heq, link_of_ne hmne, h.first_kept hmergeable habsorbs.1, ← h.head_next] at hhead
    exact hnotfirst hhead.symm

/-- The loop goes from the block, which is in the list already, to the end of the free blocks behind
it, and takes all of them out of the list. -/
theorem Shape.merged {s₁ : Allocator} (h : s.WellFormed (front ++ b :: rest) frees)
    (hocc : s.isOccupied b) (hmergeable : s.Mergeable b) (hinserted : s.Inserted s₁ b)
    (hshape : s₁.WellFormed (front ++ b :: rest) (b :: frees)) :
    ∃ run back t s₂ frees₂, rest = run ++ back ∧
      mergeLoop s₁.limit loopBound s₁ (wrap (s₁.buf + s₁.offs b)) = some (s.buf + t, s₂) ∧
      s₁.Relinked s₂ ∧
      s₂.Shape (front ++ (b :: run) ++ back) frees₂ ((b :: run).reverse ++ []) none ∧
      s₂.Tiles (s₂.offs b) (b :: run) t ∧ s.offs b + 8 * s.getSize b ≤ t ∧ t ≤ s.dataEnd ∧
      (∀ c ∈ b :: run, ¬s₁.isOccupied c) ∧ s.Absorbs b run ∧
      frees₂ = frees.filter (fun c ↦ c ∉ run) ∧
      (∀ c, back.head? = some c → s.isOccupied c) ∧ s₂ = (b :: run).foldl unlinkFree s₁ ∧
      ∀ m, s₁.Slot m → m ∉ b :: run → s₁.prev m ≠ 0 → s₁.prev m ∉ b :: run →
        s₂.prev m = s₁.prev m := by
  have hb : b ∈ front ++ b :: rest := List.mem_append_right front List.mem_cons_self
  have hbslot := h.slot hb
  have hnotfree : b ∉ frees := fun hmem ↦ ((h.free_iff b).mp hmem).2.1 hocc
  have hframe := hinserted.frame
  obtain ⟨mid, -, htiles⟩ := tiles_append.mp h.tiles
  rw [← htiles.1] at htiles
  have hrest : ∀ c ∈ rest, c ∈ front ++ b :: rest := fun c hc ↦
    List.mem_append_right _ (List.mem_cons_of_mem b hc)
  have hend := (h.bounds hb).2.1
  have hdataEnd := h.placed.dataEnd_le
  have hbufend := h.placed.buf_end
  obtain ⟨count, hcount⟩ := h.placed.array
  have hlength := htiles.length_le
  have htiles₁ : s₁.Tiles (s.offs b) (b :: rest) s₁.dataEnd := by
    rw [hframe.dataEnd]
    refine htiles.congr hframe.buf fun c hc ↦ ?_
    have hcblock : c ∈ front ++ b :: rest := List.mem_append_right _ hc
    exact ⟨hinserted.offs c (h.slot hcblock), hinserted.getSize c (h.slot hcblock),
      hframe.header_eq h.placed (h.dataWord hcblock)⟩
  obtain ⟨run, back, t, s₂, frees₂, hsplit, hrunTiles, hbackTiles, hloop, hrelinked, hshape₂,
      hrunfree, hstop, hlist, hunlinks, hlinks⟩ :=
    mergeLoop_spec hshape htiles₁ (fun c hc ↦ ⟨List.mem_append_right _ hc, List.not_mem_nil⟩)
      (fun run hrun ↦ h.mergeable_inserted hb hocc hmergeable hinserted htiles hrest hrun)
      (show (b :: rest).length < loopBound by rw [loopBound]; omega)
  obtain ⟨run, rfl, rfl⟩ : ∃ run', run = b :: run' ∧ rest = run' ++ back := by
    cases run with
    | nil => exact absurd (hstop b (by rw [← List.nil_append back, ← hsplit]; rfl)) hinserted.free
    | cons c run =>
        obtain ⟨rfl, hrest'⟩ := List.cons.inj hsplit
        exact ⟨run, rfl, hrest'⟩
  have hoffs₁ : s₁.offs b = s.offs b := hinserted.offs b hbslot
  have hblocks : front ++ b :: (run ++ back) = front ++ (b :: run) ++ back := by simp
  rw [hblocks] at hshape₂
  -- the blocks behind it before the block was in the list
  have hnot := (List.nodup_cons.mp htiles.nodup).1
  have hocc₁ : ∀ c ∈ run ++ back, s₁.isOccupied c ↔ s.isOccupied c := fun c hc ↦
    hinserted.occupied c (h.slot (hrest c hc)) fun heq ↦ hnot (heq ▸ hc)
  have hend₁ : ∀ c, back.head? = some c → s.isOccupied c := fun c hc ↦
    (hocc₁ c (List.mem_append_right _ (List.mem_of_mem_head? hc))).mp (hstop c hc)
  refine ⟨run, back, t, s₂, frees₂, rfl, ?_, hrelinked, hshape₂, ?_, ?_, ?_, hrunfree, ?_, ?_,
    hend₁, hunlinks, hlinks⟩
  · have hstart : wrap (s₁.buf + s₁.offs b) = s.buf + s.offs b := by
      rw [hoffs₁, hframe.buf, wrap, Nat.mod_eq_of_lt (by omega)]
    rw [hframe.buf] at hloop
    rw [hstart, hshape.limit_eq, hframe.buf, hloop]
  · rw [hrelinked.offs b (hshape.slot hb), hoffs₁]
    refine hrunTiles.congr hrelinked.frame.buf fun c hc ↦ ?_
    have hcblock : c ∈ front ++ b :: (run ++ back) :=
      List.mem_append_right front (List.mem_append_left back hc)
    exact ⟨hrelinked.offs c (hshape.slot hcblock), hrelinked.getSize (hshape.slot hcblock),
      hrelinked.frame.header_eq hshape.placed (hshape.dataWord hcblock)⟩
  · rw [← hinserted.getSize b hbslot]
    exact hrunTiles.2.2.2.le
  · rw [← hframe.dataEnd]
    exact hbackTiles.le
  · obtain ⟨e, hrun₀, hback₀⟩ := tiles_append.mp htiles.2.2.2
    refine absorbs_of_tiles hback₀.le hrun₀ hback₀ (fun c hc hcocc ↦ ?_) hend₁
    exact hrunfree c (List.mem_cons_of_mem b hc) ((hocc₁ c (List.mem_append_left _ hc)).mpr hcocc)
  · have hfilter : ([] ++ frees).filter (fun c ↦ c ∉ run) = ([] ++ b :: frees).filter fun c ↦
        c ∉ b :: run :=
      filter_cons_notMem hnotfree
    exact hlist.trans hfilter.symm

/-- What `free` does when its loop has ended at offset `t`. -/
theorem Shape.free_unfold (h : s.WellFormed blocks frees) (hb : b ∈ blocks) {p : Pointer}
    (hp : p.idx ≠ nullPtrIdx) (hidx : s.getMeta p.idx = b) (t : ℕ) (s' : Allocator)
    (hbuf : ((s.setOccupied b false).insertFree b).buf = s.buf)
    (hoffs : ((s.setOccupied b false).insertFree b).offs b = s.offs b) (hle : s.offs b ≤ t)
    (hloop : mergeLoop ((s.setOccupied b false).insertFree b).limit loopBound
      ((s.setOccupied b false).insertFree b)
      (wrap (((s.setOccupied b false).insertFree b).buf +
        ((s.setOccupied b false).insertFree b).offs b)) = some (s.buf + t, s')) :
    s.free p = .returned .null
      (((s'.setSize b ((t - s.offs b) / 8)).setOccupied b false).insertFree b) := by
  have hget := h.get_ne_zero hb hp hidx
  have hend := (h.bounds hb).2.1
  have hdataEnd := h.placed.dataEnd_le
  have hbufend := h.placed.buf_end
  obtain ⟨count, hcount⟩ := h.placed.array
  rw [free, if_neg hget.2]
  simp only [hidx]
  generalize (s.setOccupied b false).insertFree b = s₁ at hbuf hoffs hloop ⊢
  have hstart : wrap (s₁.buf + s₁.offs b) = s.buf + s.offs b := by
    rw [hbuf, hoffs, wrap, Nat.mod_eq_of_lt (by omega)]
  have hsize : usub (s.buf + t) (s.buf + s.offs b) / 8 = (t - s.offs b) / 8 := by
    rw [usub_of_le (by omega)]
    congr 1
    omega
  rw [hloop]
  simp only [hstart, hsize]

/-- `free` makes the block and the free blocks behind it one free block in front of the list, and
writes only to `MetaInfo` objects. -/
theorem free_spec (h : s.WellFormed blocks frees) (hb : b ∈ blocks) (hocc : s.isOccupied b)
    {p : Pointer} (hp : p.idx ≠ nullPtrIdx) (hidx : s.getMeta p.idx = b)
    (hmergeable : s.Mergeable b) :
    ∃ s' blocks' run, s.free p = .returned .null s' ∧
      s'.WellFormed blocks' (b :: frees.filter fun c ↦ c ∉ run) ∧ Frame s.Managed s s' ∧
      (∀ m, m ∈ blocks' ∧ s'.isOccupied m ↔ (m ∈ blocks ∧ s.isOccupied m) ∧ m ≠ b) ∧
      (∀ m, s.Slot m → m ≠ b → s'.offs m = s.offs m ∧ s'.getSize m = s.getSize m) ∧
      s.Freed s' frees b run := by
  have hbslot := h.slot hb
  have hnotfree : b ∉ frees := fun hmem ↦ ((h.free_iff b).mp hmem).2.1 hocc
  have hinserted := inserted_insertFree h hb hnotfree
  have hshape₁ := h.insert hb hnotfree hinserted [] (by simp)
  have hframe₁ := hinserted.frame
  have hfree := h.free_unfold hb hp hidx
  obtain ⟨front, rest, rfl⟩ := List.append_of_mem hb
  have hdataEnd := h.placed.dataEnd_le
  have hbufend := h.placed.buf_end
  obtain ⟨count, hcount⟩ := h.placed.array
  generalize (s.setOccupied b false).insertFree b = s₁ at hinserted hshape₁ hframe₁ hfree
  obtain ⟨run, back, t, s₂, frees₂, rfl, hloop, hrelinked, hshape₂, htiles₂, hle, hlast, hrunfree,
      habsorbs, hlist,
    -, -, hlinks⟩ := h.merged hocc hmergeable hinserted hshape₁
  -- the block takes the others over
  have hoffs₂ : s₂.offs b = s.offs b :=
    (hrelinked.offs b (hshape₁.slot hb)).trans (hinserted.offs b hbslot)
  have hshape₃ := hshape₂.absorb (fun c ↦ by rw [List.append_nil, List.mem_reverse]) htiles₂
  have hsz : (t - s₂.offs b) / 8 < 2 ^ 63 := by omega
  rw [hfree t s₂ hframe₁.buf (hinserted.offs b hbslot) (by omega) hloop, ← hoffs₂]
  have hslot₂ : ∀ m, s.Slot m → s₂.Slot m := fun m hm ↦
    hrelinked.frame.slot.mpr (hframe₁.slot.mpr hm)
  have hframe₃ : Frame s₂.Managed s₂ (s₂.setSize b ((t - s₂.offs b) / 8)) :=
    frame_setSize (hslot₂ b hbslot)
  have hresized := resized_setSize hshape₂.placed (hslot₂ b hbslot) hsz
  generalize s₂.setSize b ((t - s₂.offs b) / 8) = s₃ at hshape₃ hframe₃ hresized ⊢
  have hb₃ : b ∈ front ++ b :: back := by simp
  have hnotfree₃ : b ∉ frees₂ := fun hmem ↦ ((hshape₃.free_iff b).mp hmem).2.2 (by simp)
  have hinserted₄ := inserted_insertFree hshape₃ hb₃ hnotfree₃
  have hshape₄ := hshape₃.insert hb₃ hnotfree₃ hinserted₄ [] (by simp)
  -- the other blocks
  have hframe₂ : Frame s.Managed s s₂ := hframe₁.then hrelinked.frame fun _ hx ↦ hx
  have hframe₃' : Frame s.Managed s s₃ := hframe₂.then hframe₃ fun _ hx ↦ hx
  have hother : ∀ m, s.Slot m → m ≠ b →
      ((s₃.setOccupied b false).insertFree b).offs m = s.offs m ∧
      ((s₃.setOccupied b false).insertFree b).getSize m = s.getSize m ∧
      (((s₃.setOccupied b false).insertFree b).isOccupied m ↔ s.isOccupied m) := by
    intro m hm hne
    have hm₁ := hframe₁.slot.mpr hm
    have hm₃ := hframe₃'.slot.mpr hm
    have hsize₃ := hresized.size (hslot₂ m hm) hne
    refine ⟨?_, ?_, ?_⟩
    · rw [hinserted₄.offs m hm₃, hresized.offs m (hslot₂ m hm), hrelinked.offs m hm₁,
        hinserted.offs m hm]
    · rw [hinserted₄.getSize m hm₃, getSize, hsize₃, hrelinked.size m hm₁]
      exact hinserted.getSize m hm
    · rw [hinserted₄.occupied m hm₃ hne, isOccupied, hsize₃, hrelinked.size m hm₁]
      exact hinserted.occupied m hm hne
  have hblocks : front ++ b :: (run ++ back) = front ++ (b :: run) ++ back := by simp
  refine ⟨_, _, run, rfl, hlist ▸ hshape₄, hframe₃'.then hinserted₄.frame fun _ hx ↦ hx, fun m ↦ ?_,
    fun m hm hne ↦ ⟨(hother m hm hne).1, (hother m hm hne).2.1⟩, ?_⟩
  · constructor
    · rintro ⟨hm, hmocc⟩
      have hne : m ≠ b := fun heq ↦ hinserted₄.free (heq ▸ hmocc)
      have hmblock : m ∈ front ++ b :: (run ++ back) := by
        rw [hblocks]
        exact mem_absorbed.mpr (Or.inl hm)
      exact ⟨⟨hmblock, (hother m (h.slot hmblock) hne).2.2.mp hmocc⟩, hne⟩
    · rintro ⟨⟨hm, hmocc⟩, hne⟩
      have hmrun : m ∉ run := fun hmem ↦ hrunfree m (List.mem_cons_of_mem b hmem)
        ((hinserted.occupied m (h.slot hm) hne).mpr hmocc)
      refine ⟨?_, (hother m (h.slot hm) hne).2.2.mpr hmocc⟩
      rw [hblocks] at hm
      exact (mem_absorbed.mp hm).resolve_right hmrun
  · refine h.freed hb hmergeable habsorbs hinserted hrelinked hlinks hresized ?_
      hframe₃ ?_ hinserted₄
    · omega
    · rw [← hlist]
      exact hshape₃.head_next

/-- What `free` makes of a block and the free blocks behind it. -/
def released (s : Allocator) (b : ℕ) (run : List ℕ) : Allocator :=
  ((((b :: run).foldl unlinkFree ((s.setOccupied b false).insertFree b)).setSize b
    ((b :: run).map s.getSize).sum).setOccupied b false).insertFree b

/-- The loop takes the free blocks up to the first live one. -/
theorem Shape.free_eq (h : s.WellFormed (front ++ b :: rest) frees) (hocc : s.isOccupied b)
    {p : Pointer} (hp : p.idx ≠ nullPtrIdx) (hidx : s.getMeta p.idx = b)
    (hmergeable : s.Mergeable b) :
    s.free p = .returned .null (s.released b (rest.takeWhile fun c ↦ ¬s.isOccupied c)) := by
  have hb : b ∈ front ++ b :: rest := List.mem_append_right front List.mem_cons_self
  have hnotfree : b ∉ frees := fun hmem ↦ ((h.free_iff b).mp hmem).2.1 hocc
  have hinserted := inserted_insertFree h hb hnotfree
  have hshape₁ := h.insert hb hnotfree hinserted [] (by simp)
  obtain ⟨run, back, t, s₂, frees₂, rfl, hloop, hrelinked, hshape₂, htiles₂, hle, -, -,
      habsorbs, -, hend,
    hunlinks, -⟩ := h.merged hocc hmergeable hinserted hshape₁
  have hslot : ∀ c ∈ b :: run, s.Slot c := fun c hc ↦
    h.slot (List.mem_append_right front (List.mem_append_left back hc))
  have hbslot := hslot b List.mem_cons_self
  have hoffs : s₂.offs b = s.offs b :=
    (hrelinked.offs b (hshape₁.slot hb)).trans (hinserted.offs b hbslot)
  have hsizes : (b :: run).map s₂.getSize = (b :: run).map s.getSize := by
    apply List.map_congr_left
    intro c hc
    rw [hrelinked.getSize (hinserted.frame.slot.mpr (hslot c hc)), hinserted.getSize c (hslot c hc)]
  have hsum : (t - s.offs b) / 8 = ((b :: run).map s.getSize).sum := by
    rw [htiles₂.end_eq, hoffs, hsizes]
    omega
  have hrun : (run ++ back).takeWhile (fun c ↦ ¬s.isOccupied c) = run := by
    rw [List.takeWhile_append_of_pos fun c hc ↦ by simpa using habsorbs.1.choose_spec.2.2 c hc]
    cases back with
    | nil => rw [List.takeWhile_nil, List.append_nil]
    | cons c back => rw [List.takeWhile_cons_of_neg (by simpa using hend c rfl), List.append_nil]
  rw [h.free_unfold hb hp hidx t s₂ hinserted.frame.buf (hinserted.offs b hbslot) (by omega) hloop,
    hrun, hsum, released, hunlinks]

end Allocator

end CppMtHw.Allocation
