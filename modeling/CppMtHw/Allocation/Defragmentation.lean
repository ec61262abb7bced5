import CppMtHw.Allocation.Freeing
import CppMtHw.Allocation.Splitting

/-!
# Defragmentation

The loop of `defrag` walks over the blocks. It moves a live block down to the end of the
live blocks moved so far and unlinks a free one, also when its backward link is null.
After that, everything behind the live blocks becomes the block of the first `MetaInfo`,
which must not be live, and there must be room for its header.
-/

namespace CppMtHw.Allocation

open Machine

namespace Allocator

variable {s₀ s s' : Allocator} {blocks frees done rest front : List ℕ} {b m n o p t x y fuel : ℕ}

/-- What `defrag` relies on: the first `MetaInfo` is not live, and some block is free. -/
def Defragmentable (s : Allocator) : Prop := ¬s.isOccupied s.lastFree ∧ s.next s.head ≠ 0

/-! ## Links -/

/-- The links of a list that is taken apart: a backward link is null or is answered by the
forward link, forward links lead to later elements, and the objects that are neither live nor
still in the list have none. -/
structure Unthreaded (s₀ s : Allocator) (frees rest : List ℕ) : Prop where
  prev : ∀ y ∈ frees, s.prev y ≠ 0 →
    (s.prev y = s₀.head ∨ s.prev y ∈ frees) ∧ s.next (s.prev y) = y
  next : ∀ y ∈ frees, s.next y ≠ 0 → s.next y ∈ frees ∧ frees.idxOf y < frees.idxOf (s.next y)
  null : ∀ m, s₀.MetaSlot m → ¬s₀.isOccupied m → m ∉ rest → s.next m = 0 ∧ s.prev m = 0

theorem Shape.unthreaded (h : s.WellFormed blocks frees) : s.Unthreaded s frees blocks := by
  refine ⟨fun y hy hprev ↦ ?_, fun y hy hnext ↦ ?_, fun m hm hocc hmem ↦ ?_⟩
  · obtain ⟨front, rest, rfl⟩ := List.append_of_mem hy
    refine ⟨(h.prev_mem hprev).imp_right (List.mem_append_left _), ?_⟩
    have hbefore := h.prev_eq hprev
    cases hlast : front.getLast? with
    | none =>
        rw [hlast] at hbefore
        have hhead : s.prev y = s.head := Option.some.inj hbefore
        have hfront : front = [] := List.getLast?_eq_none_iff.mp hlast
        have hfirst := h.head_next
        rw [hfront] at hfirst
        rw [hhead]
        exact (link_eq_some.mp hfirst).1
    | some z =>
        rw [hlast] at hbefore
        have hz : s.prev y = z := Option.some.inj hbefore
        obtain ⟨front', rfl⟩ := List.getLast?_eq_some_iff.mp hlast
        have hchain := h.chain
        rw [List.append_assoc] at hchain
        have hnext : link (s.next z) = some y := hchain.next_eq
        rw [hz]
        exact (link_eq_some.mp hnext).1
  · obtain ⟨front, rest, rfl⟩ := List.append_of_mem hy
    have hmem := h.next_mem hnext
    have hnodup := h.chain.nodup
    rw [List.nodup_append, List.nodup_cons] at hnodup
    have hyfront : y ∉ front := fun hmem ↦ hnodup.2.2 y hmem y List.mem_cons_self rfl
    have hnextfront : s.next y ∉ front := fun hmem' ↦
      hnodup.2.2 _ hmem' _ (List.mem_cons_of_mem y hmem) rfl
    have hne : y ≠ s.next y := fun heq ↦ hnodup.2.1.1 (heq ▸ hmem)
    refine ⟨List.mem_append_right _ (List.mem_cons_of_mem y hmem), ?_⟩
    rw [List.idxOf_append_of_notMem hyfront, List.idxOf_append_of_notMem hnextfront,
      List.idxOf_cons_self, List.idxOf_cons_ne _ hne]
    omega
  · have hunused := h.unused m hm hmem (by simp)
    rw [isUsed, not_or, not_or, not_not, not_not] at hunused
    exact hunused.2

namespace Unthreaded

/-- What the links of an element that is unlinked lead to. -/
theorem apart (h : s₀.Unthreaded s frees rest) (hp : s₀.Placed)
    (hfrees : ∀ y ∈ frees, s₀.MetaSlot y) (hx : x ∈ frees) : (s.prev x ≠ 0 → s₀.Slot (s.prev x)) ∧
    (s.next x ≠ 0 → s₀.Slot (s.next x)) ∧ s.prev x ≠ x ∧
      s.next x ≠ x ∧ (s.prev x ≠ 0 → s.prev x ≠ s.next x) := by
  have hpos := hp.slot_pos (Or.inr (hfrees x hx))
  have hnotself : s.next x ≠ x := fun heq ↦ by
    have hlt := (h.next x hx (by omega)).2
    rw [heq] at hlt
    exact Nat.lt_irrefl _ hlt
  refine ⟨fun hne ↦ ?_, fun hne ↦ Or.inr (hfrees _ (h.next x hx hne).1), fun heq ↦ ?_, hnotself,
    fun hne heq ↦ ?_⟩
  · rcases (h.prev x hx hne).1 with hhead | hmem
    · exact Or.inl hhead
    · exact Or.inr (hfrees _ hmem)
  · have hback := (h.prev x hx (by omega)).2
    rw [heq] at hback
    exact hnotself hback
  · have hback := (h.prev x hx hne).2
    rw [heq] at hne hback
    obtain ⟨hmem, hlt⟩ := h.next x hx hne
    have hlt' := (h.next (s.next x) hmem (by omega)).2
    rw [hback] at hlt'
    omega

theorem records (h : s₀.Unthreaded s frees rest) {R : ℕ → Prop} (hframe : Frame R s₀ s)
    (hp : s₀.Placed) (hfrees : ∀ y ∈ frees, s₀.MetaSlot y) (hx : x ∈ frees) :
    Records s (s.unlinkFree x) (fun m ↦
      if m = x then { s.info x with next := 0, prev := 0 }
      else if m = s.prev x then { s.info m with next := s.next x }
      else if m = s.next x then { s.info m with prev := 0 } else s.info m) := by
  obtain ⟨hprev, hnext, hself, hself', hne⟩ := h.apart hp hfrees hx
  exact records_unlinkFree (hframe.placed hp) (hframe.slot.mpr (Or.inr (hfrees x hx)))
    (fun hzero ↦ hframe.slot.mpr (hprev hzero))
      (fun hzero ↦ hframe.slot.mpr (hnext hzero)) hself hself' hne

/-- Unlinking an element leaves no link that leads to it from a backward link. -/
theorem unlink (h : s₀.Unthreaded s frees (x :: rest)) {R : ℕ → Prop} (hframe : Frame R s₀ s)
    (hp : s₀.Placed) (hfrees : ∀ y ∈ frees, s₀.MetaSlot y) (hx : x ∈ frees) :
    s₀.Unthreaded (s.unlinkFree x) frees rest := by
  have hrecords := h.records hframe hp hfrees hx
  have hslot : ∀ m, s₀.Slot m → s.Slot m := fun m hm ↦ hframe.slot.mpr hm
  have hxslot := hslot x (Or.inr (hfrees x hx))
  have hxpos := hp.slot_pos (Or.inr (hfrees x hx))
  generalize s.unlinkFree x = s' at hrecords ⊢
  have hatx : s'.info x = { s.info x with next := 0, prev := 0 } := by
    rw [hrecords.info x hxslot, if_pos rfl]
  have hat : ∀ m, s₀.Slot m → m ≠ x →
      s'.info m = if m = s.prev x then { s.info m with next := s.next x }
      else if m = s.next x then { s.info m with prev := 0 } else s.info m := fun m hm hne ↦ by
    rw [hrecords.info m (hslot m hm), if_neg hne]
  have hnext : ∀ m, s₀.Slot m → m ≠ x → m ≠ s.prev x → s'.next m = s.next m :=
    fun m hm hne hprev ↦ by
    have hfields := congrArg Info.next (hat m hm hne)
    rw [if_neg hprev] at hfields
    split_ifs at hfields <;> exact hfields
  have hprev : ∀ m, s₀.Slot m → m ≠ x → m ≠ s.next x → s'.prev m = s.prev m :=
    fun m hm hne hnext ↦ by
    have hfields := congrArg Info.prev (hat m hm hne)
    rw [if_neg hnext] at hfields
    split_ifs at hfields <;> exact hfields
  have hprevnext : ∀ m, s₀.Slot m → m ≠ x → m = s.next x → m ≠ s.prev x → s'.prev m = 0 :=
    fun m hm hne hnext hprev ↦ by
      have hfields := congrArg Info.prev (hat m hm hne)
      rwa [if_neg hprev, if_pos hnext] at hfields
  have hnextx : s'.next x = 0 := congrArg Info.next hatx
  have hprevx : s'.prev x = 0 := congrArg Info.prev hatx
  obtain ⟨hprevslot, -, -, -, hprevne⟩ := h.apart hp hfrees hx
  have hdistinct : ∀ y, s₀.Slot y → y = s.next x → y ≠ s.prev x := fun y hy hnext heq ↦ by
    have hpos := hp.slot_pos hy
    exact hprevne (by omega) (heq.symm.trans hnext)
  refine ⟨fun y hy hne ↦ ?_, fun y hy hne ↦ ?_, fun m hm hocc hmem ↦ ?_⟩
  · have hyslot : s₀.Slot y := Or.inr (hfrees y hy)
    have hyx : y ≠ x := fun heq ↦ hne (heq ▸ hprevx)
    have hynext : y ≠ s.next x :=
      fun heq ↦ hne (hprevnext y hyslot hyx heq (hdistinct y hyslot heq))
    rw [hprev y hyslot hyx hynext] at hne ⊢
    obtain ⟨hmem, hback⟩ := h.prev y hy hne
    have hslotprev : s₀.Slot (s.prev y) := by
      rcases hmem with hhead | hmem
      · exact Or.inl hhead
      · exact Or.inr (hfrees _ hmem)
    refine ⟨hmem, ?_⟩
    rw [hnext _ hslotprev]
    · exact hback
    · intro heq
      rw [heq] at hback
      exact hynext hback.symm
    · intro heq
      have hxprev : s.prev x ≠ 0 := heq ▸ hne
      have hxback := (h.prev x hx hxprev).2
      rw [← heq, hback] at hxback
      exact hyx hxback
  · have hyslot : s₀.Slot y := Or.inr (hfrees y hy)
    have hyx : y ≠ x := fun heq ↦ hne (heq ▸ hnextx)
    by_cases hyprev : y = s.prev x
    · have hpos := hp.slot_pos hyslot
      have hynext : s'.next y = s.next x := by
        have hfields := congrArg Info.next (hat y hyslot hyx)
        rwa [if_pos hyprev] at hfields
      have hback := (h.prev x hx (by omega)).2
      rw [← hyprev] at hback
      rw [hynext] at hne ⊢
      obtain ⟨hmem, hlt⟩ := h.next x hx hne
      have hlt' := (h.next y hy (by omega)).2
      rw [hback] at hlt'
      exact ⟨hmem, Nat.lt_trans hlt' hlt⟩
    · rw [hnext y hyslot hyx hyprev] at hne ⊢
      exact h.next y hy hne
  · by_cases hmx : m = x
    · rw [hmx]
      exact ⟨hnextx, hprevx⟩
    · obtain ⟨hmnext, hmprev⟩ := h.null m hm hocc fun hmem' ↦ by
        rcases List.mem_cons.mp hmem' with heq | hmem'
        · exact hmx heq
        · exact hmem hmem'
      have hmslot : s₀.Slot m := Or.inr hm
      have hpos := hp.slot_pos hmslot
      have hmback : m ≠ s.prev x := fun heq ↦ by
        have hback := (h.prev x hx (by omega)).2
        rw [← heq, hmnext] at hback
        omega
      refine ⟨(hnext m hmslot hmx hmback).trans hmnext, ?_⟩
      by_cases hmfront : m = s.next x
      · exact hprevnext m hmslot hmx hmfront hmback
      · exact (hprev m hmslot hmx hmfront).trans hmprev

/-- The walk passes an object that is live. -/
theorem skip (h : s₀.Unthreaded s frees (x :: rest)) (hfrees : ∀ y ∈ frees, s₀.MetaSlot y)
    (hocc : s₀.isOccupied x) (hlinks : ∀ m, s₀.Slot m → s'.next m = s.next m ∧
      s'.prev m = s.prev m) :
    s₀.Unthreaded s' frees rest := by
  refine ⟨fun y hy hne ↦ ?_, fun y hy hne ↦ ?_, fun m hm hmocc hmrest ↦ ?_⟩
  · obtain ⟨-, hprev⟩ := hlinks y (Or.inr (hfrees y hy))
    rw [hprev] at hne ⊢
    obtain ⟨hmem, hback⟩ := h.prev y hy hne
    have hslot : s₀.Slot (s.prev y) := hmem.imp id (hfrees _)
    exact ⟨hmem, (hlinks _ hslot).1.trans hback⟩
  · obtain ⟨hnext, -⟩ := hlinks y (Or.inr (hfrees y hy))
    rw [hnext] at hne ⊢
    exact h.next y hy hne
  · obtain ⟨hnext, hprev⟩ := hlinks m (Or.inr hm)
    rw [hnext, hprev]
    refine h.null m hm hmocc fun hmem ↦ ?_
    rcases List.mem_cons.mp hmem with heq | hmem
    · exact hmocc (heq ▸ hocc)
    · exact hmrest hmem

end Unthreaded

/-! ## Moving a block -/

/-- The assignments that move the block of `hd` from `p` to `dst`. -/
def slide (s : Allocator) (dst p hd sz : ℕ) : Allocator :=
  let s := { s with mem := s.mem.move dst p (sz * 8) }
  let s := s.setHeader dst hd
  s.setOffs hd (usub dst s.buf)

theorem slide_spec (hp : s.Placed) (hx : s.Slot x) (hn : 0 < n)
    (hend : s.buf + o + 8 * n ≤ s.metas) :
    Frame (fun y ↦ s.Managed y ∨ s.buf + o ≤ y ∧ y < s.buf + o + 8 * n) s
      (s.slide (s.buf + o) t x n) ∧ (∀ m, s.Slot m → (s.slide (s.buf + o) t x n).info m =
        if m = x then { s.info x with offs := o } else s.info m) ∧
      (s.slide (s.buf + o) t x n).header (s.buf + o) = x ∧
      ∀ j, 8 ≤ j → j < 8 * n → (s.slide (s.buf + o) t x n).mem (s.buf + o + j) = s.mem (t + j) := by
  have hxend := hp.slot_end hx
  have hbufend := hp.buf_end
  have hapart := hp.head_apart
  obtain ⟨count, hcount⟩ := hp.array
  have hdata : ∀ y, s.Managed y → y < s.buf + o ∨ s.buf + o + 8 * n ≤ y := by
    rintro y (⟨hle, hy⟩ | ⟨hle, hy⟩) <;> omega
  have hoffs : usub (s.buf + o) s.buf = o := by
    rw [usub_of_le (Nat.le_add_right _ _), Nat.add_sub_cancel_left]
  have hslide : s.slide (s.buf + o) t x n =
      ({ s with mem := s.mem.move (s.buf + o) t (n * 8) }.setHeader
      (s.buf + o) x).setOffs x o := congrArg (setOffs _ x) hoffs
  rw [hslide]
  -- the bytes
  have hframe₁ : Frame (fun y ↦ s.Managed y ∨ s.buf + o ≤ y ∧ y < s.buf + o + 8 * n) s
      { s with mem := s.mem.move (s.buf + o) t (n * 8) } :=
    ⟨rfl, rfl, rfl, rfl, Bytes.sameOutside_move fun y hy hlt ↦ Or.inr ⟨hy, by omega⟩⟩
  have hinfo₁ : ∀ m, s.Slot m →
      { s with mem := s.mem.move (s.buf + o) t (n * 8) }.info m = s.info m :=
    fun m hm ↦ info_congr fun y hy hlt ↦ by
      have hmanaged := hdata y (slot_managed hm hy hlt)
      exact Bytes.move_of_not_mem (by omega)
  have hbytes₁ : ∀ j, 8 ≤ j → j < 8 * n →
      (s.mem.move (s.buf + o) t (n * 8)) (s.buf + o + j) = s.mem (t + j) := fun j hj hjlt ↦ by
    rw [Bytes.move_of_mem (Nat.le_add_right _ _) (by omega), Nat.add_sub_cancel_left]
  generalize hs₁ : { s with mem := s.mem.move (s.buf + o) t (n * 8) } = s₁ at hframe₁ hinfo₁ ⊢
  have hmem₁ : s₁.mem = s.mem.move (s.buf + o) t (n * 8) := by rw [← hs₁]
  rw [← hmem₁] at hbytes₁
  have hp₁ := hframe₁.placed hp
  -- the header
  have hword : s₁.DataWord (s.buf + o) := by
    rw [DataWord, hframe₁.buf, hframe₁.metas]
    exact ⟨Nat.le_add_right _ _, by omega⟩
  have hframe₂ : Frame (fun y ↦ s.Managed y ∨ s.buf + o ≤ y ∧ y < s.buf + o + 8 * n) s
      (s₁.setHeader (s.buf + o) x) :=
    hframe₁.trans (frame_setHeader.mono fun y hy ↦ Or.inr ⟨hy.1, by omega⟩)
  have hinfo₂ : ∀ m, s.Slot m → (s₁.setHeader (s.buf + o) x).info m = s.info m := fun m hm ↦
    (info_setHeader hp₁ hword (hframe₁.slot.mpr hm)).trans (hinfo₁ m hm)
  have hheader₂ : (s₁.setHeader (s.buf + o) x).header (s.buf + o) = x := header_setHeader (by omega)
  have hbytes₂ : ∀ j, 8 ≤ j → j < 8 * n →
      (s₁.setHeader (s.buf + o) x).mem (s.buf + o + j) = s.mem (t + j) := fun j hj hjlt ↦
    (Bytes.store_of_not_mem (by omega)).trans (hbytes₁ j hj hjlt)
  generalize s₁.setHeader (s.buf + o) x = s₂ at hframe₂ hinfo₂ hheader₂ hbytes₂ ⊢
  have hp₂ := hframe₂.placed hp
  have hx₂ := hframe₂.slot.mpr hx
  -- the offset
  have hset := (Records.refl s₂).setOffs (w := o) hp₂ hx₂ (by omega)
  refine ⟨hframe₂.trans (hset.frame.mono fun y hy ↦ Or.inl (hframe₂.managed.mp hy)), fun m hm ↦ ?_,
    ?_, fun j hj hjlt ↦ ?_⟩
  · rw [hset.info m (hframe₂.slot.mpr hm), hinfo₂ x hx, hinfo₂ m hm]
  · refine (hset.frame.header_eq hp₂ ?_).trans hheader₂
    rw [DataWord, hframe₂.buf, hframe₂.metas]
    exact ⟨Nat.le_add_right _ _, by omega⟩
  · rw [hset.frame.mem _ fun hmanaged ↦ ?_]
    · exact hbytes₂ j hj hjlt
    · have := hdata _ (hframe₂.managed.mp hmanaged)
      omega

/-! ## The loop -/

/-- The state of the loop: the live blocks in `done` have been moved to the start of the buffer,
up to offset `o`, and the blocks in `rest` are still where they were, from offset `p` on. -/
structure Sliding (s₀ s : Allocator) (frees done rest : List ℕ) (o p : ℕ) : Prop where
  frame : Frame (fun x ↦ s₀.Managed x ∨ s₀.buf ≤ x ∧ x < s₀.buf + o) s₀ s
  moved : s.Tiles 0 done o
  ahead : s.Tiles p rest s₀.dataEnd
  le : o ≤ p
  gap : o = p → ∀ b ∈ frees, b ∈ rest
  size : ∀ m, s₀.Slot m → s.size m = s₀.size m
  offs : ∀ m, s₀.Slot m → m ∉ done → s.offs m = s₀.offs m
  bytes : ∀ m ∈ done, ∀ j, 8 ≤ j → j < 8 * s₀.getSize m →
    s.mem (s₀.buf + s.offs m + j) = s₀.mem (s₀.buf + s₀.offs m + j)
  links : s₀.Unthreaded s frees rest

namespace Sliding

theorem getSize (h : s₀.Sliding s frees done rest o p) (hm : s₀.Slot m) :
    s.getSize m = s₀.getSize m := by
  rw [Allocator.getSize, h.size m hm, Allocator.getSize]

theorem occupied (h : s₀.Sliding s frees done rest o p) (hm : s₀.Slot m) :
    s.isOccupied m ↔ s₀.isOccupied m := by
  rw [isOccupied, h.size m hm, isOccupied]

/-- A byte behind the blocks moved so far and below the array is as it was. -/
theorem ahead_byte (h : s₀.Sliding s frees done rest o p) (hp : s₀.Placed) (hx : s₀.buf + o ≤ x)
    (hlt : x < s₀.metas) : s.mem x = s₀.mem x := by
  refine h.frame.mem x ?_
  have hapart := hp.head_apart
  obtain ⟨count, hcount⟩ := hp.array
  rintro ((⟨hle, hx'⟩ | ⟨hle, hx'⟩) | ⟨hle, hx'⟩) <;> omega

theorem start (h : s₀.WellFormed blocks frees) : s₀.Sliding s₀ frees [] blocks 0 0 :=
  ⟨Frame.refl _ s₀, rfl, h.tiles, Nat.le_refl 0, fun _ _ hb ↦ h.block_of_free hb, fun _ _ ↦ rfl,
    fun _ _ _ ↦ rfl, fun _ hm ↦ (List.not_mem_nil hm).elim, h.unthreaded⟩

/-- The walk passes a free block. -/
theorem unlink (h : s₀.Sliding s frees done (x :: rest) o p) (h₀ : s₀.WellFormed blocks frees)
    (hdone : ∀ b ∈ done, b ∈ blocks) (hrest : ∀ b ∈ x :: rest, b ∈ blocks) (hx : x ∈ frees) :
    s₀.Sliding (s.unlinkFree x) frees done rest o (p + 8 * s₀.getSize x) := by
  have hp := h₀.placed
  have hfrees : ∀ y ∈ frees, s₀.MetaSlot y := fun y hy ↦ h₀.slots y (h₀.block_of_free hy)
  have hrecords := h.links.records h.frame hp hfrees hx
  have hlinks := h.links.unlink h.frame hp hfrees hx
  have hslot : ∀ m, s₀.Slot m → s.Slot m := fun m hm ↦ h.frame.slot.mpr hm
  obtain ⟨hoffsx, hsizex, hheaderx, hahead⟩ := h.ahead
  have hxslot : s₀.Slot x := h₀.slot (hrest x List.mem_cons_self)
  rw [h.getSize hxslot] at hsizex hahead
  have hdataEnd := hp.dataEnd_le
  have haheadle := hahead.le
  generalize s.unlinkFree x = s' at hrecords hlinks ⊢
  have hframe := hrecords.frame
  have hkept : ∀ m, s₀.Slot m → s'.offs m = s.offs m ∧ s'.size m = s.size m := fun m hm ↦ by
    have hinfo := hrecords.info m (hslot m hm)
    by_cases hmx : m = x
    · rw [if_pos hmx] at hinfo
      exact ⟨(congrArg Info.offs hinfo).trans (hmx ▸ rfl),
        (congrArg Info.size hinfo).trans (hmx ▸ rfl)⟩
    · rw [if_neg hmx] at hinfo
      have hoffs := congrArg Info.offs hinfo
      have hsize := congrArg Info.size hinfo
      split_ifs at hoffs hsize <;> exact ⟨hoffs, hsize⟩
  have hmanaged : ∀ y, s₀.DataWord y → s'.header y = s.header y := fun y hy ↦ by
    refine hframe.header_eq (h.frame.placed hp) ?_
    rw [DataWord, h.frame.buf, h.frame.metas]
    exact hy
  have hsame : ∀ b ∈ blocks, s.offs b + 8 * s.getSize b ≤ s₀.dataEnd → 0 < s.getSize b →
      s'.offs b = s.offs b ∧ s'.getSize b = s.getSize b ∧
        s'.header (s.buf + s.offs b) = s.header (s.buf + s.offs b) := by
    intro b hb hle hpos
    obtain ⟨hoffs, hsize⟩ := hkept b (h₀.slot hb)
    refine ⟨hoffs, by rw [Allocator.getSize, hsize, Allocator.getSize], hmanaged _ ⟨?_, ?_⟩⟩
    · rw [h.frame.buf]
      exact Nat.le_add_right _ _
    · rw [h.frame.buf]
      omega
  have hole := h.le
  refine ⟨h.frame.trans (hframe.mono fun y hy ↦ Or.inl (h.frame.managed.mp hy)),
    h.moved.congr hframe.buf fun b hb ↦ ?_, hahead.congr hframe.buf fun b hb ↦ ?_, by
  omega, by omega,
    fun m hm ↦ (hkept m hm).2.trans (h.size m hm),
    fun m hm hmdone ↦ (hkept m hm).1.trans (h.offs m hm hmdone), fun m hm j hj hjlt ↦ ?_, hlinks⟩
  · obtain ⟨-, hpos, hle, -⟩ := h.moved.bounds hb
    exact hsame b (hdone b hb) (by omega) hpos
  · obtain ⟨-, hpos, hle, -⟩ := hahead.bounds hb
    exact hsame b (hrest b (List.mem_cons_of_mem x hb)) hle hpos
  · have hmslot := h₀.slot (hdone m hm)
    obtain ⟨-, hpos, hle, -⟩ := h.moved.bounds hm
    rw [h.getSize hmslot] at hle
    rw [(hkept m hmslot).1, hframe.mem _ ?_]
    · exact h.bytes m hm j hj hjlt
    · rw [h.frame.managed]
      have hapart := hp.head_apart
      obtain ⟨count, hcount⟩ := hp.array
      rintro (⟨hlow, hx'⟩ | ⟨hlow, hx'⟩) <;> omega

/-- The walk moves a live block. -/
theorem move (h : s₀.Sliding s frees done (x :: rest) o p) (h₀ : s₀.WellFormed blocks frees)
    (hdone : ∀ b ∈ done, b ∈ blocks) (hrest : ∀ b ∈ x :: rest, b ∈ blocks)
    (hnodup : (done ++ x :: rest).Nodup) (hocc : s₀.isOccupied x) :
    s₀.Sliding (s.slide (s₀.buf + o) (s₀.buf + p) x (s₀.getSize x)) frees (done ++ [x]) rest
      (o + 8 * s₀.getSize x) (p + 8 * s₀.getSize x) := by
  have hp := h₀.placed
  have hslot : ∀ m, s₀.Slot m → s.Slot m := fun m hm ↦ h.frame.slot.mpr hm
  have hxblock := hrest x List.mem_cons_self
  have hxslot : s₀.Slot x := h₀.slot hxblock
  obtain ⟨hoffsx, hsizex, hheaderx, hahead⟩ := h.ahead
  rw [h.getSize hxslot] at hsizex hahead
  have hdataEnd := hp.dataEnd_le
  have haheadle := hahead.le
  have hole := h.le
  obtain ⟨hframe, hinfo, hheader, hbytes⟩ :=
    slide_spec (t := s₀.buf + p) (o := o) (h.frame.placed hp)
      (hslot x hxslot) hsizex (by rw [h.frame.buf, h.frame.metas]; omega)
  rw [h.frame.buf] at hframe hinfo hheader hbytes
  generalize s.slide (s₀.buf + o) (s₀.buf + p) x (s₀.getSize x) =
    s' at hframe hinfo hheader hbytes ⊢
  have hatx : s'.info x = { s.info x with offs := o } :=
    (hinfo x (hslot x hxslot)).trans (if_pos rfl)
  have hat : ∀ m, s₀.Slot m → m ≠ x → s'.info m = s.info m := fun m hm hne ↦
    (hinfo m (hslot m hm)).trans (if_neg hne)
  have hfields : ∀ m, s₀.Slot m → s'.next m = s.next m ∧ s'.prev m = s.prev m ∧
      s'.size m = s.size m := by
    intro m hm
    by_cases hmx : m = x
    · rw [hmx]
      exact ⟨congrArg Info.next hatx, congrArg Info.prev hatx, congrArg Info.size hatx⟩
    · exact ⟨congrArg Info.next (hat m hm hmx), congrArg Info.prev (hat m hm hmx),
        congrArg Info.size (hat m hm hmx)⟩
  have hgetSize : ∀ m, s₀.Slot m → s'.getSize m = s.getSize m := fun m hm ↦ by
    rw [Allocator.getSize, (hfields m hm).2.2, Allocator.getSize]
  -- the bytes outside the place the block moves to
  have hmem : ∀ y, s₀.buf ≤ y → y < s₀.metas → y < s₀.buf + o ∨ s₀.buf + o + 8 * s₀.getSize x ≤ y →
      s'.mem y = s.mem y := fun y hlow hhigh hy ↦ by
    refine hframe.mem y ?_
    rw [h.frame.managed]
    have hapart := hp.head_apart
    obtain ⟨count, hcount⟩ := hp.array
    rintro ((⟨hle, hx'⟩ | ⟨hle, hx'⟩) | ⟨hle, hx'⟩) <;> omega
  have hdonex : x ∉ done := fun hmem ↦ by
    rw [List.nodup_append] at hnodup
    exact hnodup.2.2 x hmem x List.mem_cons_self rfl
  have hrestx : x ∉ rest := (List.nodup_cons.mp (List.nodup_append.mp hnodup).2.1).1
  have hoffs : ∀ m, s₀.Slot m → m ≠ x → s'.offs m = s.offs m := fun m hm hne ↦
    congrArg Info.offs (hat m hm hne)
  have hoffsx' : s'.offs x = o := congrArg Info.offs hatx
  have hframe' : Frame (fun y ↦ s₀.Managed y ∨ s₀.buf ≤ y ∧
      y < s₀.buf + (o + 8 * s₀.getSize x)) s₀ s' := by
    refine (h.frame.mono fun y hy ↦ ?_).trans (hframe.mono fun y hy ↦ ?_)
    · exact hy.imp_right fun hy ↦ ⟨hy.1, by omega⟩
    · exact hy.imp (fun hy ↦ h.frame.managed.mp hy) fun hy ↦ ⟨by omega, by omega⟩
  refine ⟨hframe', ?_, hahead.congr hframe.buf fun b hb ↦ ?_, by omega, fun heq b hb ↦ ?_,
    fun m hm ↦ (hfields m hm).2.2.trans (h.size m hm), fun m hm hmdone ↦ ?_,
      fun m hm j hj hjlt ↦ ?_, ?_⟩
  · refine tiles_append.mpr ⟨o, h.moved.congr hframe.buf fun b hb ↦ ?_, hoffsx', ?_, ?_, ?_⟩
    · obtain ⟨-, hpos, hle, -⟩ := h.moved.bounds hb
      have hbslot := h₀.slot (hdone b hb)
      refine ⟨hoffs b hbslot fun heq ↦ hdonex (heq ▸ hb), hgetSize b hbslot, ?_⟩
      rw [h.frame.buf]
      exact Bytes.load_congr fun y hy hlt ↦ hmem y (by omega) (by omega) (by omega)
    · rw [hgetSize x hxslot, h.getSize hxslot]
      exact hsizex
    · rw [hframe'.buf]
      exact hheader
    · rw [hgetSize x hxslot, h.getSize hxslot]
      rfl
  · obtain ⟨hlow, hpos, hle, -⟩ := hahead.bounds hb
    have hbslot := h₀.slot (hrest b (List.mem_cons_of_mem x hb))
    refine ⟨hoffs b hbslot fun heq ↦ hrestx (heq ▸ hb), hgetSize b hbslot, ?_⟩
    rw [h.frame.buf]
    exact Bytes.load_congr fun y hy hlt ↦ hmem y (by omega) (by omega) (by omega)
  · have hbx : b ≠ x := fun heq ↦ ((h₀.free_iff b).mp hb).2.1 (heq ▸ hocc)
    rcases List.mem_cons.mp (h.gap (by omega) b hb) with heq | hb'
    · exact absurd heq hbx
    · exact hb'
  · rw [List.mem_append, List.mem_singleton, not_or] at hmdone
    exact (hoffs m hm hmdone.2).trans (h.offs m hm hmdone.1)
  · rcases List.mem_append.mp hm with hm | hm
    · have hmslot := h₀.slot (hdone m hm)
      obtain ⟨-, hpos, hle, -⟩ := h.moved.bounds hm
      rw [h.getSize hmslot] at hle
      rw [hoffs m hmslot fun heq ↦ hdonex (heq ▸ hm), hmem _ (by omega) (by omega) (by omega)]
      exact h.bytes m hm j hj hjlt
    · rw [List.mem_singleton.mp hm] at hjlt ⊢
      have hoffs₀ := h.offs x hxslot hdonex
      rw [hoffsx', hbytes j hj hjlt, ← hoffs₀, hoffsx]
      exact h.ahead_byte hp (by omega) (by omega)
  · have hfrees : ∀ y ∈ frees, s₀.MetaSlot y := fun y hy ↦ h₀.slots y (h₀.block_of_free hy)
    exact h.links.skip hfrees hocc fun m hm ↦ ⟨(hfields m hm).1, (hfields m hm).2.1⟩

end Sliding

/-- One round of the loop. -/
theorem slideLoop_cons (h₀ : s₀.WellFormed blocks frees)
    (h : s₀.Sliding s frees done (x :: rest) o p) (hx : x ∈ blocks) (fuel : ℕ) :
    slideLoop (s₀.buf + s₀.dataEnd) (fuel + 1) s (s₀.buf + o) (s₀.buf + p) =
      if s₀.isOccupied x then slideLoop (s₀.buf + s₀.dataEnd) fuel
        (s.slide (s₀.buf + o) (s₀.buf + p) x (s₀.getSize x)) (s₀.buf + (o + 8 * s₀.getSize x))
        (s₀.buf + (p + 8 * s₀.getSize x))
      else slideLoop (s₀.buf + s₀.dataEnd) fuel (s.unlinkFree x) (s₀.buf + o)
        (s₀.buf + (p + 8 * s₀.getSize x)) := by
  have hxslot := h₀.slot hx
  obtain ⟨hoffs, hsize, hheader, hahead⟩ := h.ahead
  rw [h.frame.buf] at hheader
  rw [h.getSize hxslot] at hsize hahead
  have haheadle := hahead.le
  have hole := h.le
  have hdataEnd := h₀.placed.dataEnd_le
  have hbufend := h₀.placed.buf_end
  obtain ⟨count, hcount⟩ := h₀.placed.array
  have hlt : s₀.buf + p < s₀.buf + s₀.dataEnd := by omega
  have hstep : ∀ t, t ≤ p → wrap (s₀.buf + t + s₀.getSize x * 8) =
      s₀.buf + (t + 8 * s₀.getSize x) :=
    fun t ht ↦ by
      rw [wrap, Nat.mod_eq_of_lt (by omega)]
      omega
  have hlength : wrap (s₀.getSize x * 8) = s₀.getSize x * 8 := Nat.mod_eq_of_lt (by omega)
  rw [slideLoop, if_pos hlt]
  simp only [hheader, h.getSize hxslot, h.occupied hxslot, hstep p (Nat.le_refl p),
    hstep o hole, hlength]
  rfl

/-- The loop moves the live blocks and unlinks the free ones. -/
theorem slideLoop_spec (h₀ : s₀.WellFormed blocks frees) (h : s₀.Sliding s frees done rest o p)
    (hdone : ∀ b ∈ done, b ∈ blocks) (hrest : ∀ b ∈ rest, b ∈ blocks)
    (hnodup : (done ++ rest).Nodup) (hfuel : rest.length < fuel) :
    ∃ s' o', slideLoop (s₀.buf + s₀.dataEnd) fuel s (s₀.buf + o) (s₀.buf + p) =
      some (s₀.buf + o', s') ∧
      s₀.Sliding s' frees (done ++ rest.filter fun b ↦ s₀.isOccupied b) [] o' s₀.dataEnd := by
  induction rest generalizing s done o p fuel with
  | nil =>
      obtain ⟨fuel, rfl⟩ := Nat.exists_eq_succ_of_ne_zero (Nat.ne_of_gt hfuel)
      have hp : p = s₀.dataEnd := h.ahead
      refine ⟨s, o, ?_, ?_⟩
      · rw [slideLoop, if_neg (by omega)]
      · rw [List.filter_nil, List.append_nil, ← hp]
        exact h
  | cons x rest ih =>
      obtain ⟨fuel, rfl⟩ := Nat.exists_eq_succ_of_ne_zero (Nat.ne_of_gt (Nat.zero_lt_of_lt hfuel))
      have hfuel' : rest.length < fuel := by simpa using hfuel
      have hrest' : ∀ b ∈ rest, b ∈ blocks := fun b hb ↦ hrest b (List.mem_cons_of_mem x hb)
      rw [slideLoop_cons h₀ h (hrest x List.mem_cons_self)]
      by_cases hocc : s₀.isOccupied x
      · have hmoved := h.move h₀ hdone hrest hnodup hocc
        rw [if_pos hocc]
        rw [List.append_cons] at hnodup
        obtain ⟨s', o', hloop, hsliding⟩ := ih hmoved (fun b hb ↦ by
          rcases List.mem_append.mp hb with hb | hb
          · exact hdone b hb
          · exact List.mem_singleton.mp hb ▸ hrest x List.mem_cons_self) hrest' hnodup hfuel'
        refine ⟨s', o', hloop, ?_⟩
        rw [List.filter_cons_of_pos (by simpa using hocc), List.append_cons]
        exact hsliding
      · have hfree : x ∈ frees :=
          (h₀.free_iff x).mpr ⟨hrest x List.mem_cons_self, hocc, List.not_mem_nil⟩
        have hunlinked := h.unlink h₀ hdone hrest hfree
        rw [if_neg hocc]
        rw [List.nodup_middle, List.nodup_cons] at hnodup
        obtain ⟨s', o', hloop, hsliding⟩ := ih hunlinked hdone hrest' hnodup.2 hfuel'
        refine ⟨s', o', hloop, ?_⟩
        rw [List.filter_cons_of_neg (by simpa using hocc)]
        exact hsliding

/-! ## The call -/

def finish (s : Allocator) (dst last : ℕ) : Allocator :=
  let s := s.setHeader dst last
  let s := s.setOffs last (usub dst s.buf)
  let s := s.setSize last (usub s.metas dst / 8)
  let s := s.setOccupied last false
  let s := s.setNext s.head last
  s.setPrev last s.head

theorem finish_spec (hp : s.Placed) (hdvd : 8 ∣ o) (hroom : o < s.dataEnd) :
    Frame (fun y ↦ s.Managed y ∨ s.buf + o ≤ y ∧ y < s.buf + o + 8) s
      (s.finish (s.buf + o) s.lastFree) ∧
      (∀ m, s.Slot m → (s.finish (s.buf + o) s.lastFree).info m =
        if m = s.lastFree then ⟨s.next s.lastFree, s.head, o, sizeWord ((s.dataEnd - o) / 8) false⟩
        else if m = s.head then { s.info s.head with next := s.lastFree } else s.info m) ∧
      (s.finish (s.buf + o) s.lastFree).header (s.buf + o) = s.lastFree := by
  have hlast : s.Slot s.lastFree := Or.inr hp.lastFree_slot
  have hlastend := hp.slot_end hlast
  have hhead : s.Slot s.head := Or.inl rfl
  have hheadend := hp.head_end
  have hheadlast : s.head ≠ s.lastFree := fun heq ↦ hp.head_not_metaSlot (heq ▸ hp.lastFree_slot)
  have hbufend := hp.buf_end
  have hdataEnd := hp.dataEnd_le
  have hmetas := hp.metas_lt
  have hdataEndDvd : 8 ∣ s.dataEnd := ⟨_, rfl⟩
  obtain ⟨count, hcount⟩ := hp.array
  have hword : s.DataWord (s.buf + o) := ⟨Nat.le_add_right _ _, by omega⟩
  have hoffs : usub (s.buf + o) s.buf = o := by
    rw [usub_of_le (Nat.le_add_right _ _), Nat.add_sub_cancel_left]
  have hsize : usub s.metas (s.buf + o) / 8 = (s.dataEnd - o) / 8 := by
    rw [usub_of_le (by omega)]
    omega
  have hframe₁ : Frame (fun y ↦ s.buf + o ≤ y ∧ y < s.buf + o + 8) s
      (s.setHeader (s.buf + o) s.lastFree) :=
    frame_setHeader
  have hinfo₁ : ∀ m, s.Slot m → (s.setHeader (s.buf + o) s.lastFree).info m = s.info m :=
    fun m hm ↦ info_setHeader hp hword hm
  have hheader₁ : (s.setHeader (s.buf + o) s.lastFree).header (s.buf + o) = s.lastFree :=
    header_setHeader (by omega)
  have hfinish : s.finish (s.buf + o) s.lastFree =
      (((((s.setHeader (s.buf + o) s.lastFree).setOffs s.lastFree
      o).setSize s.lastFree ((s.dataEnd - o) / 8)).setOccupied s.lastFree false).setNext s.head
        s.lastFree).setPrev s.lastFree s.head := by
    rw [← hsize]
    exact congrArg (fun w ↦ ((((((s.setHeader (s.buf + o) s.lastFree).setOffs s.lastFree
      w).setSize s.lastFree (usub s.metas (s.buf + o) / 8)).setOccupied s.lastFree false).setNext
        s.head s.lastFree).setPrev s.lastFree s.head)) hoffs
  rw [hfinish]
  generalize s.setHeader (s.buf + o) s.lastFree = s₁ at hframe₁ hinfo₁ hheader₁ ⊢
  have hp₁ := hframe₁.placed hp
  have hlast₁ := hframe₁.slot.mpr hlast
  have hrecords := ((((((Records.refl s₁).setOffs (w := o) hp₁ hlast₁ (by omega)).setSize hp₁ hlast₁
    (show (s.dataEnd - o) / 8 < 2 ^ 63 by omega)).setOccupied hp₁ hlast₁ false).setNext (w :=
      s.lastFree) hp₁
      (hframe₁.slot.mpr hhead) (by omega)).setPrev (w := s.head) hp₁ hlast₁ (by omega))
  refine ⟨(hframe₁.mono fun y hy ↦ Or.inr hy).trans
    (hrecords.frame.mono fun y hy ↦ Or.inl (hframe₁.managed.mp hy)), fun m hm ↦ ?_, ?_⟩
  · rw [hrecords.info m (hframe₁.slot.mpr hm)]
    by_cases hmlast : m = s.lastFree
    · rw [if_pos hmlast, if_pos hmlast]
      simp only [if_neg hheadlast.symm, if_pos, hinfo₁ s.lastFree hlast]
      have hword : sizeWord ((s.dataEnd - o) / 8) (signMask ≤ s.size s.lastFree) % signMask =
          (s.dataEnd - o) / 8 := getSize_sizeWord (by rw [signMask]; omega)
      exact congrArg (fun w ↦ (⟨s.next s.lastFree, s.head, o, sizeWord w false⟩ : Info)) hword
    · by_cases hmhead : m = s.head
      · simp only [if_neg hmlast, if_pos hmhead, if_neg hheadlast, hinfo₁ s.head hhead]
      · simp only [if_neg hmlast, if_neg hmhead, hinfo₁ m hm]
  · refine (hrecords.frame.header_eq hp₁ ?_).trans hheader₁
    rw [DataWord, hframe₁.buf, hframe₁.metas]
    exact hword

structure Defragmented (s s' : Allocator) (blocks : List ℕ) : Prop where
  object : s'.head = s.head
  metas : s'.metas = s.metas
  buf : s'.buf = s.buf
  bufsize : s'.bufsize = s.bufsize
  size : ∀ m ∈ blocks, s.isOccupied m → s'.getSize m = s.getSize m ∧ s'.isOccupied m
  bytes : ∀ m ∈ blocks, s.isOccupied m → ∀ j, 8 ≤ j → j < 8 * s.getSize m →
    s'.mem (s.buf + s'.offs m + j) = s.mem (s.buf + s.offs m + j)

/-- What `finish` makes of the state `s` behind the loop: the rest of the data part from offset `o`
on is the only free block. -/
structure Finished (s₀ s s' : Allocator) (o : ℕ) : Prop where
  frame : Frame (fun y ↦ s₀.Managed y ∨ s₀.buf ≤ y ∧ y < s₀.buf + (o + 8)) s₀ s'
  below : ∀ y, s₀.buf ≤ y → y < s₀.buf + o → s'.mem y = s.mem y
  start : s'.offs s₀.lastFree = o
  units : s'.getSize s₀.lastFree = (s₀.dataEnd - o) / 8
  header : s'.header (s₀.buf + o) = s₀.lastFree
  free : ¬s'.isOccupied s₀.lastFree
  first : s'.next s₀.head = s₀.lastFree
  element : s'.next s₀.lastFree = s.next s₀.lastFree ∧ s'.prev s₀.lastFree = s₀.head
  others : ∀ m, s₀.MetaSlot m → m ≠ s₀.lastFree → s'.info m = s.info m

theorem Sliding.finished (hp₀ : s₀.Placed) (h : s₀.Sliding s frees done rest o p) (hdvd : 8 ∣ o)
    (hroom : o < s₀.dataEnd) : s₀.Finished s (s.finish (s₀.buf + o) s₀.lastFree) o := by
  have hlastslot := hp₀.lastFree_slot
  have hdataEnd := hp₀.dataEnd_le
  obtain ⟨count, hcount⟩ := hp₀.array
  have hbufend := hp₀.buf_end
  obtain ⟨hframe, hinfo, hheader⟩ :=
    finish_spec (h.frame.placed hp₀) hdvd (by rw [h.frame.dataEnd]; exact hroom)
  rw [h.frame.buf, h.frame.lastFree] at hframe hinfo hheader
  rw [h.frame.dataEnd, h.frame.head] at hinfo
  have hheadlast : s₀.head ≠ s₀.lastFree := fun heq ↦ hp₀.head_not_metaSlot (heq ▸ hlastslot)
  have hatlast := (hinfo s₀.lastFree (h.frame.slot.mpr (Or.inr hlastslot))).trans (if_pos rfl)
  have hathead := (hinfo s₀.head (h.frame.slot.mpr (Or.inl rfl))).trans
    ((if_neg hheadlast).trans (if_pos rfl))
  have hsz : (s₀.dataEnd - o) / 8 < signMask := by
    rw [signMask]
    omega
  have hsizelast : (s.finish (s₀.buf + o) s₀.lastFree).size s₀.lastFree =
      sizeWord ((s₀.dataEnd - o) / 8) false := congrArg Info.size hatlast
  refine ⟨?_, fun y hlow hhigh ↦ ?_, congrArg Info.offs hatlast, ?_, hheader, ?_,
    congrArg Info.next hathead,
    ⟨congrArg Info.next hatlast, congrArg Info.prev hatlast⟩, fun m hm hne ↦ ?_⟩
  · refine (h.frame.mono fun y hy ↦ ?_).trans (hframe.mono fun y hy ↦ ?_)
    · exact hy.imp_right fun hy ↦ ⟨hy.1, by omega⟩
    · exact hy.imp (fun hy ↦ h.frame.managed.mp hy) fun hy ↦ ⟨by omega, by omega⟩
  · refine hframe.mem y ?_
    rw [h.frame.managed]
    have hapart := hp₀.head_apart
    rintro ((⟨hle, hy⟩ | ⟨hle, hy⟩) | ⟨hle, hy⟩) <;> omega
  · rw [Allocator.getSize, hsizelast, getSize_sizeWord hsz]
  · rw [isOccupied, hsizelast, signMask_le_sizeWord hsz]
    exact Bool.false_ne_true
  · have hmhead : m ≠ s₀.head := fun heq ↦ hp₀.head_not_metaSlot (heq ▸ hm)
    rw [hinfo m (h.frame.slot.mpr (Or.inr hm)), if_neg hne, if_neg hmhead]

theorem Sliding.room (h : s₀.Sliding s frees done [] o s₀.dataEnd) (hfree : frees ≠ []) :
    o < s₀.dataEnd := by
  refine Nat.lt_of_le_of_ne h.le fun heq ↦ ?_
  obtain ⟨b, hb⟩ := List.exists_mem_of_ne_nil frees hfree
  exact List.not_mem_nil (h.gap heq b hb)

theorem Finished.size (hfinished : s₀.Finished s s' o) (h : s₀.Sliding s frees done rest o p)
    (hm : s₀.MetaSlot m) (hne : m ≠ s₀.lastFree) : s'.size m = s₀.size m :=
  (congrArg Info.size (hfinished.others m hm hne)).trans (h.size m (Or.inr hm))

section Finish

variable (h₀ : s₀.WellFormed blocks frees) (hlastocc : ¬s₀.isOccupied s₀.lastFree)
  (h : s₀.Sliding s frees (blocks.filter fun b ↦ s₀.isOccupied b) [] o s₀.dataEnd)
  (hfinished : s₀.Finished s s' o)

include h₀ hlastocc h hfinished

theorem Finished.kept (hb : b ∈ blocks) (hocc : s₀.isOccupied b) :
    s'.offs b = s.offs b ∧ s'.getSize b = s₀.getSize b ∧ s'.isOccupied b := by
  have hne : b ≠ s₀.lastFree := fun heq ↦ hlastocc (heq ▸ hocc)
  have hsize := hfinished.size h (h₀.slots b hb) hne
  refine ⟨congrArg Info.offs (hfinished.others b (h₀.slots b hb) hne), ?_, ?_⟩
  · rw [getSize, hsize, getSize]
  · rwa [isOccupied, hsize, ← isOccupied]

/-- The live blocks and the free one behind them tile the data part, and the free one is the
list. -/
theorem Finished.wellFormed (hroom : o < s₀.dataEnd) :
    s'.WellFormed ((blocks.filter fun b ↦ s₀.isOccupied b) ++ [s₀.lastFree]) [s₀.lastFree] := by
  have hp₀ := h₀.placed
  have hframe := hfinished.frame
  have hlastslot := hp₀.lastFree_slot
  have hlastpos := hp₀.slot_pos (Or.inr hlastslot)
  have hdvd : 8 ∣ o := by simpa using h.moved.dvd
  have hdataEndDvd : 8 ∣ s₀.dataEnd := ⟨_, rfl⟩
  have hunits := hfinished.units
  have hmemlive : ∀ b, b ∈ blocks.filter (fun b ↦ s₀.isOccupied b) ↔ b ∈ blocks ∧
      s₀.isOccupied b := by
    simp
  refine ⟨hframe.placed hp₀, ?_, fun b hb ↦ ?_, ?_, ?_, fun b ↦ ?_,
    fun b hb ↦ (List.not_mem_nil hb).elim, fun b hb hnot _ ↦ ?_, ?_⟩
  · rw [hframe.dataEnd]
    refine tiles_append.mpr ⟨o, h.moved.congr (hframe.buf.trans h.frame.buf.symm) fun b hb ↦ ?_,
      hfinished.start, ?_, ?_, ?_⟩
    · obtain ⟨-, hpos, hle, -⟩ := h.moved.bounds hb
      obtain ⟨hblock, hocc⟩ := (hmemlive b).mp hb
      obtain ⟨hoffs, hsize, -⟩ := hfinished.kept h₀ hlastocc h hblock hocc
      refine ⟨hoffs, hsize.trans (h.getSize (h₀.slot hblock)).symm, ?_⟩
      rw [h.frame.buf]
      exact Bytes.load_congr fun y hy hlt ↦ hfinished.below y (by omega) (by omega)
    · omega
    · rw [hframe.buf]
      exact hfinished.header
    · show o + 8 * s'.getSize s₀.lastFree = s₀.dataEnd
      omega
  · apply hframe.metaSlot.mpr
    rcases List.mem_append.mp hb with hb | hb
    · exact h₀.slots b ((hmemlive b).mp hb).1
    · exact List.mem_singleton.mp hb ▸ hlastslot
  · have hnull := (h.links.null _ hlastslot hlastocc List.not_mem_nil).1
    rw [hframe.head, nextLink, hfinished.first]
    exact ⟨link_of_ne (Nat.ne_of_gt hlastpos), by rw [nextLink, hfinished.element.1, hnull]; rfl⟩
  · rw [hframe.head]
    refine ⟨Or.inr ?_, trivial⟩
    rw [prevLink, hfinished.element.2]
    exact link_of_ne (Nat.ne_of_gt hp₀.head_pos)
  · rw [List.mem_append, hmemlive, List.mem_singleton]
    constructor
    · rintro rfl
      exact ⟨Or.inr rfl, hfinished.free, List.not_mem_nil⟩
    · rintro ⟨⟨hb, hocc⟩ | heq, hnotocc, -⟩
      · exact absurd (hfinished.kept h₀ hlastocc h hb hocc).2.2 hnotocc
      · exact heq
  · rw [hframe.metaSlot] at hb
    rw [List.mem_append, hmemlive, List.mem_singleton, not_or] at hnot
    have hocc : ¬s₀.isOccupied b := fun hocc ↦ by
      by_cases hblock : b ∈ blocks
      · exact hnot.1 ⟨hblock, hocc⟩
      · exact h₀.unused b hb hblock (by simp) (Or.inl hocc)
    obtain ⟨hnext, hprev⟩ := h.links.null b hb hocc List.not_mem_nil
    have hinfo := hfinished.others b hb hnot.2
    have hnext' : s'.next b = 0 := (congrArg Info.next hinfo).trans hnext
    have hprev' : s'.prev b = 0 := (congrArg Info.prev hinfo).trans hprev
    have hnotocc : ¬s'.isOccupied b := by rwa [isOccupied, hfinished.size h hb hnot.2, ← isOccupied]
    rw [isUsed, hnext', hprev']
    simp [hnotocc]
  · rw [hframe.lastFree, hframe.dataEnd, hfinished.start, hunits]
    omega

theorem Finished.defragmented : s₀.Defragmented s' blocks := by
  have hframe := hfinished.frame
  refine ⟨hframe.head, hframe.metas, hframe.buf, hframe.bufsize, fun b hb hocc ↦ ?_,
    fun b hb hocc j hj hjlt ↦ ?_⟩
  · exact (hfinished.kept h₀ hlastocc h hb hocc).2
  · have hmem : b ∈ blocks.filter fun b ↦ s₀.isOccupied b := by simp [hb, hocc]
    obtain ⟨-, hpos, hle, -⟩ := h.moved.bounds hmem
    rw [h.getSize (h₀.slot hb)] at hle
    rw [(hfinished.kept h₀ hlastocc h hb hocc).1, hfinished.below _ (by omega) (by omega)]
    exact h.bytes b hmem j hj hjlt

end Finish

/-- `defrag` packs the live blocks at the start of the buffer, in their order, and makes the rest
one free block. -/
theorem defrag_spec (h : s.WellFormed blocks frees) (hclean : s.Defragmentable) :
    ∃ s', s.defrag = .returned () s' ∧
      s'.WellFormed ((blocks.filter fun b ↦ s.isOccupied b) ++ [s.lastFree]) [s.lastFree] ∧
      s.Defragmented s' blocks ∧ s'.prev s.lastFree = s.head := by
  obtain ⟨hlastocc, hnext⟩ := hclean
  have hlength := h.tiles.length_le
  have hdataEnd := h.placed.dataEnd_le
  have hbufend := h.placed.buf_end
  obtain ⟨count, hcount⟩ := h.placed.array
  have hfree : frees ≠ [] := fun hempty ↦ by
    have hhead := h.head_next
    rw [hempty, link_of_ne hnext] at hhead
    exact Option.some_ne_none _ hhead
  obtain ⟨s₁, o, hloop, hsliding⟩ :=
    slideLoop_spec h (Sliding.start h) (fun b hb ↦ (List.not_mem_nil hb).elim)
      (fun b hb ↦ hb) h.tiles.nodup (show blocks.length < loopBound by rw [loopBound]; omega)
  rw [List.nil_append] at hsliding
  have hroom := hsliding.room hfree
  have hfinished := hsliding.finished h.placed (by simpa using hsliding.moved.dvd) hroom
  refine ⟨_, ?_, hfinished.wellFormed h hlastocc hsliding hroom,
    hfinished.defragmented h hlastocc hsliding, hfinished.element.2⟩
  rw [defrag, h.placed.lastFree_eq, h.limit_eq]
  simp only [Nat.add_zero] at hloop
  rw [hloop]
  rfl

end Allocator

end CppMtHw.Allocation
