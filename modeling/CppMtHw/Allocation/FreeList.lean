import CppMtHw.Allocation.Tiling
import Mathlib.Tactic.SplitIfs

/-!
# The list of free blocks

What the list functions do to the data structure. `unlinkFree` takes an element out of
the list if its backward link is not null; a null backward link would leave the element
reachable from the one in front of it.
-/

namespace CppMtHw.Allocation

open Machine

namespace Allocator

variable {s s' : Allocator} {blocks frees loose front rest : List ℕ} {spare : Option ℕ}
  {b m x : ℕ}

/-- The object is out of its list; its size word is `w`, which may differ in the sign bit. -/
structure Unlinked (s s' : Allocator) (x w : ℕ) : Prop where
  frame : Frame s.Managed s s'
  offs : ∀ m, s.Slot m → s'.offs m = s.offs m
  getSize : ∀ m, s.Slot m → s'.getSize m = s.getSize m
  size : ∀ m, s.Slot m → m ≠ x → s'.size m = s.size m
  word : s'.size x = w
  cleared : s'.next x = 0 ∧ s'.prev x = 0
  skipped : s.Slot (s.prev x) → s'.next (s.prev x) = s.next x
  next : ∀ m, s.Slot m → m ≠ x → m ≠ s.prev x → s'.next m = s.next m
  front : s.Slot (s.next x) → s'.prev (s.next x) = 0
  prev : ∀ m, s.Slot m → m ≠ x → m ≠ s.next x → s'.prev m = s.prev m

theorem Unlinked.occupied {w : ℕ} (h : s.Unlinked s' x w) (hm : s.Slot m) (hne : m ≠ x) :
    s'.isOccupied m ↔ s.isOccupied m := by
  rw [isOccupied, h.size m hm hne, isOccupied]

theorem getSize_lt (s : Allocator) (m : ℕ) : s.getSize m < signMask := Nat.mod_lt _ (by decide)

/-! ## Taking an element out -/

namespace Shape

theorem head_not_free (h : s.Shape blocks frees loose spare) : s.head ∉ frees := fun hmem ↦
  h.placed.head_not_metaSlot (h.slots _ (h.block_of_free hmem))

/-- An element with a backward link has the node in front of it there. -/
theorem prev_eq (h : s.Shape blocks (front ++ x :: rest) loose spare) (hprev : s.prev x ≠ 0) :
    some (s.prev x) = front.getLast?.or (some s.head) := by
  rcases h.back.prev_ok with hnull | hbefore
  · exact absurd (link_eq_none.mp hnull) hprev
  · rw [← hbefore]
    exact (link_of_ne hprev).symm

theorem prev_mem (h : s.Shape blocks (front ++ x :: rest) loose spare) (hprev : s.prev x ≠ 0) :
    s.prev x = s.head ∨ s.prev x ∈ front := by
  have hbefore := h.prev_eq hprev
  cases hlast : front.getLast? with
  | none =>
      rw [hlast] at hbefore
      exact Or.inl (Option.some.inj hbefore)
  | some y =>
      rw [hlast] at hbefore
      have hy : s.prev x = y := Option.some.inj hbefore
      exact Or.inr (hy ▸ List.mem_of_getLast? hlast)

theorem next_mem (h : s.Shape blocks (front ++ x :: rest) loose spare) (hnext : s.next x ≠ 0) :
    s.next x ∈ rest := by
  have hafter : link (s.next x) = rest.head? := h.chain.next_eq
  rw [link_of_ne hnext] at hafter
  exact List.mem_of_mem_head? hafter.symm

theorem prev_next (h : s.Shape blocks (front ++ x :: rest) loose spare) (hnext : s.next x ≠ 0) :
    s.prev (s.next x) = 0 ∨ s.prev (s.next x) = x := by
  have hback := h.back
  have hafter : link (s.next x) = rest.head? := h.chain.next_eq
  rw [link_of_ne hnext] at hafter
  cases rest with
  | nil => cases hafter
  | cons y ys =>
      rw [Option.some.inj hafter]
      rw [List.append_cons] at hback
      have hy := hback.prev_ok
      rw [List.getLast?_concat] at hy
      rcases hy with hnull | hbefore
      · exact Or.inl (link_eq_none.mp hnull)
      · exact Or.inr (link_eq_some.mp hbefore).1

/-- Nothing stands at two places of the list. -/
theorem prev_not_mem (h : s.Shape blocks (front ++ x :: rest) loose spare) (hprev : s.prev x ≠ 0) :
    s.prev x ∉ x :: rest := by
  intro hmem
  rcases h.prev_mem hprev with heq | hfront
  · exact h.head_not_free (heq ▸ List.mem_append_right _ hmem)
  · exact (List.nodup_append.mp h.chain.nodup).2.2 _ hfront _ hmem rfl

theorem not_mem_rest (h : s.Shape blocks (front ++ x :: rest) loose spare) : x ∉ front ++ rest :=
  (List.nodup_cons.mp (List.nodup_middle.mp h.chain.nodup)).1

end Shape

/-- `unlinkFree` on an element with neighbours; the size word may be set in front of it. -/
theorem unlinked_unlinkFree {s₁ : Allocator} {w : ℕ}
    (h : s.Shape blocks (front ++ x :: rest) loose spare) (hprev : s.prev x ≠ 0)
    (hset : Records s s₁ fun m ↦ if m = x then { s.info x with size := w } else s.info m)
    (hw : w % signMask = s.getSize x) : s.Unlinked (s₁.unlinkFree x) x w := by
  have hp := h.placed
  have hslot : ∀ y ∈ front ++ x :: rest, s.Slot y := fun y hy ↦ h.slot (h.block_of_free hy)
  have hx : s.Slot x := hslot x (by simp)
  have hprevslot : s.Slot (s.prev x) := by
    rcases h.prev_mem hprev with heq | hmem
    · exact Or.inl heq
    · exact hslot _ (List.mem_append_left _ hmem)
  have hnextslot : s.next x ≠ 0 → s.Slot (s.next x) := fun hne ↦
    hslot _ (List.mem_append_right _ (List.mem_cons_of_mem x (h.next_mem hne)))
  have hnot := h.prev_not_mem hprev
  have hself : s.prev x ≠ x := fun heq ↦ hnot (List.mem_cons.mpr (Or.inl heq))
  have hself' : s.next x ≠ x := fun heq ↦ by
    have hpos := hp.slot_pos hx
    have hmem := h.next_mem (by omega)
    rw [heq] at hmem
    exact h.not_mem_rest (List.mem_append_right _ hmem)
  have hne : s.prev x ≠ s.next x := fun heq ↦ by
    have hmem := h.next_mem (heq ▸ hprev)
    exact hnot (heq ▸ List.mem_cons_of_mem x hmem)
  have hinfo : s₁.info x = { s.info x with size := w } := by
    rw [hset.info x hx, if_pos rfl]
  have hnext₁ : s₁.next x = s.next x := congrArg Info.next hinfo
  have hprev₁ : s₁.prev x = s.prev x := congrArg Info.prev hinfo
  have hunlink : Records s (s₁.unlinkFree x) (fun m ↦
      if m = x then { s.info x with next := 0, prev := 0, size := w }
      else if m = s.prev x then { s.info m with next := s.next x }
      else if m = s.next x then { s.info m with prev := 0 } else s.info m) := by
    have hsecond := records_unlinkFree (s := s₁) (m := x) (hset.frame.placed hp)
      (hset.frame.slot.mpr hx) (by rw [hprev₁]; exact fun _ ↦ hset.frame.slot.mpr hprevslot)
      (by rw [hnext₁]; exact fun hne ↦ hset.frame.slot.mpr (hnextslot hne)) (hprev₁ ▸ hself)
      (hnext₁ ▸ hself') (by rw [hprev₁, hnext₁]; exact fun _ ↦ hne)
    refine (hset.trans hsecond).congr fun m hm ↦ ?_
    rw [hinfo, hprev₁, hnext₁]
    by_cases heq : m = x
    · rw [if_pos heq, if_pos heq]
    · rw [if_neg heq, if_neg heq, hset.info m hm, if_neg heq]
  have hat : ∀ m, s.Slot m → m ≠ x → (s₁.unlinkFree x).info m =
      if m = s.prev x then { s.info m with next := s.next x }
      else if m = s.next x then { s.info m with prev := 0 } else s.info m := fun m hm heq ↦ by
    rw [hunlink.info m hm, if_neg heq]
  have hatx : (s₁.unlinkFree x).info x = { s.info x with next := 0, prev := 0, size := w } := by
    rw [hunlink.info x hx, if_pos rfl]
  have hsize : ∀ m, s.Slot m → m ≠ x → (s₁.unlinkFree x).size m = s.size m := fun m hm heq ↦ by
    have hfields := congrArg Info.size (hat m hm heq)
    split_ifs at hfields <;> exact hfields
  refine ⟨hunlink.frame, fun m hm ↦ ?_, fun m hm ↦ ?_, hsize, congrArg Info.size hatx,
    ⟨congrArg Info.next hatx,
    congrArg Info.prev hatx⟩, fun _ ↦ ?_, fun m hm heq hfront ↦ ?_, fun hback ↦ ?_,
    fun m hm heq hback ↦ ?_⟩
  · by_cases heq : m = x
    · rw [heq]
      exact congrArg Info.offs hatx
    · have hfields := congrArg Info.offs (hat m hm heq)
      split_ifs at hfields <;> exact hfields
  · by_cases heq : m = x
    · have hsizex : (s₁.unlinkFree x).size x = w := congrArg Info.size hatx
      rw [heq, getSize, hsizex, hw]
    · rw [getSize, hsize m hm heq, getSize]
  · have hfields := congrArg Info.next (hat _ hprevslot hself)
    rwa [if_pos rfl] at hfields
  · have hfields := congrArg Info.next (hat m hm heq)
    rw [if_neg hfront] at hfields
    split_ifs at hfields <;> exact hfields
  · have hfields := congrArg Info.prev (hat _ hback hself')
    rwa [if_neg hne.symm, if_pos rfl] at hfields
  · have hfields := congrArg Info.prev (hat m hm heq)
    rw [if_neg hback] at hfields
    split_ifs at hfields <;> exact hfields

section Unlink

variable {w : ℕ} (h : s.Shape blocks (front ++ x :: rest) loose spare) (hprev : s.prev x ≠ 0)
  (hunlinked : s.Unlinked s' x w)

include h hprev

theorem Shape.prev_slot : s.Slot (s.prev x) := by
  rcases h.prev_mem hprev with heq | hmem
  · exact Or.inl heq
  · exact h.slot (h.block_of_free (List.mem_append_left _ hmem))

include hunlinked

theorem Unlinked.chain : Chain s'.nextLink (s'.nextLink s'.head) (front ++ rest) := by
  have hbefore := h.prev_eq hprev
  have hprevslot := h.prev_slot hprev
  have hheadfree := h.head_not_free
  have hxfree : x ∈ front ++ x :: rest := by simp
  refine h.chain.unlink ?_ (fun y hy ↦ ?_) (fun y hy hlast ↦ ?_) h.chain.nodup
  · rw [hunlinked.frame.head]
    by_cases hempty : front = []
    · subst hempty
      have hheadprev : s.prev x = s.head := by simpa using hbefore
      rw [if_pos rfl, nextLink, ← hheadprev, hunlinked.skipped hprevslot]
      rfl
    · rw [if_neg hempty, nextLink, hunlinked.next s.head (Or.inl rfl)]
      · rfl
      · rintro heq
        exact hheadfree (heq ▸ hxfree)
      · intro heq
        rw [List.getLast?_eq_some_getLast hempty] at hbefore
        have hlast : s.head = front.getLast hempty := heq.trans (Option.some.inj hbefore)
        exact hheadfree (List.mem_append_left _ (hlast ▸ List.getLast_mem hempty))
  · rw [hy] at hbefore
    obtain rfl : s.prev x = y := Option.some.inj hbefore
    rw [nextLink, hunlinked.skipped hprevslot]
    rfl
  · have hyfree : y ∈ front ++ x :: rest := by
      rw [List.mem_append] at hy ⊢
      exact hy.imp_right (List.mem_cons_of_mem x)
    rw [nextLink, hunlinked.next y (h.slot (h.block_of_free hyfree))
      fun heq ↦ h.not_mem_rest (heq ▸ hy)]
    · rfl
    · rintro rfl
      cases hfront : front.getLast? with
      | none =>
          rw [hfront] at hbefore
          exact hheadfree (Option.some.inj hbefore ▸ hyfree)
      | some z =>
          rw [hfront] at hbefore hlast
          exact hlast (by rw [Option.some.inj hbefore])

omit hprev in
/-- The next element has lost its backward link. -/
theorem Unlinked.back : BackLinked BackOk s'.prevLink (some s'.head) (front ++ rest) := by
  have hafter : link (s.next x) = rest.head? := h.chain.next_eq
  have hslot : ∀ y ∈ front ++ x :: rest, s.Slot y := fun y hy ↦ h.slot (h.block_of_free hy)
  rw [hunlinked.frame.head]
  refine h.back.unlink none (fun _ _ ↦ Or.inl rfl) (fun y hy ↦ ?_) (fun y hy hne ↦ ?_) h.chain.nodup
  · rw [hy] at hafter
    obtain ⟨rfl, -⟩ := link_eq_some.mp hafter
    have hyslot := hslot _ (List.mem_append_right _
      (List.mem_cons_of_mem x (List.mem_of_mem_head? hy)))
    rw [prevLink, hunlinked.front hyslot]
    rfl
  · have hyfree : y ∈ front ++ x :: rest := by
      rw [List.mem_append] at hy ⊢
      exact hy.imp_right (List.mem_cons_of_mem x)
    rw [prevLink, hunlinked.prev y (hslot y hyfree) fun heq ↦ h.not_mem_rest (heq ▸ hy)]
    · rfl
    · rintro rfl
      rw [link_of_ne (Nat.ne_of_gt (h.placed.slot_pos (hslot _ hyfree)))] at hafter
      exact hne hafter.symm

/-- Objects outside the list keep their links. -/
theorem Unlinked.others {y : ℕ} (hy : s.MetaSlot y) (hyfree : y ∉ front ++ x :: rest) :
    s'.next y = s.next y ∧ s'.prev y = s.prev y := by
  have hxfree : x ∈ front ++ x :: rest := by simp
  have hyx : y ≠ x := by rintro rfl; exact hyfree hxfree
  refine ⟨hunlinked.next y (Or.inr hy) hyx ?_, hunlinked.prev y (Or.inr hy) hyx ?_⟩
  · rintro rfl
    rcases h.prev_mem hprev with hhead | hmem
    · exact h.placed.head_not_metaSlot (hhead ▸ hy)
    · exact hyfree (List.mem_append_left _ hmem)
  · rintro rfl
    have hne := Nat.ne_of_gt (h.placed.slot_pos (Or.inr hy))
    exact hyfree (List.mem_append_right _ (List.mem_cons_of_mem x (h.next_mem hne)))

/-- `unlinkFree` takes an element with a backward link out of the list. -/
theorem Shape.unlink (loose' : List ℕ) (hloose : ∀ b, b ∈ loose' ↔ b ∈ loose ∨ b = x ∧
      ¬s'.isOccupied x) :
    s'.Shape blocks (front ++ rest) loose' spare := by
  have hxfree : x ∈ front ++ x :: rest := by simp
  have hxblock := h.block_of_free hxfree
  refine ⟨hunlinked.frame.placed h.placed, ?_, fun b hb ↦ hunlinked.frame.metaSlot.mpr
    (h.slots b hb),
    hunlinked.chain h hprev, hunlinked.back h, fun b ↦ ?_, fun b hb ↦ ?_,
      fun b hslotb hb hspare ↦ ?_, ?_⟩
  · rw [hunlinked.frame.dataEnd]
    exact h.tiles.congr hunlinked.frame.buf fun b hb ↦ ⟨hunlinked.offs b (h.slot hb),
      hunlinked.getSize b (h.slot hb), hunlinked.frame.header_eq h.placed (h.dataWord hb)⟩
  · by_cases hbx : b = x
    · rw [hbx, hloose]
      simp only [h.not_mem_rest, false_iff, not_and, not_not]
      exact fun _ hocc ↦ Or.inr ⟨trivial, hocc⟩
    · have hmem : b ∈ front ++ rest ↔ b ∈ front ++ x :: rest := by
        simp only [List.mem_append, List.mem_cons, hbx, false_or]
      rw [hmem, h.free_iff, hloose]
      simp only [hbx, false_and, or_false]
      refine and_congr_right fun hb ↦ ?_
      rw [hunlinked.occupied (h.slot hb) hbx]
  · rcases (hloose b).mp hb with hb | ⟨rfl, hocc⟩
    · obtain ⟨hblock, hocc, hnull⟩ := h.loose b hb
      have hfree : b ∉ front ++ x :: rest := fun hfree ↦ ((h.free_iff b).mp hfree).2.2 hb
      have hbx : b ≠ x := fun heq ↦ hfree (heq ▸ hxfree)
      obtain ⟨hnext', hprev'⟩ := hunlinked.others h hprev (h.slots b hblock) hfree
      rw [hnext', hprev', hunlinked.occupied (h.slot hblock) hbx]
      exact ⟨hblock, hocc, hnull⟩
    · exact ⟨hxblock, hocc, hunlinked.cleared⟩
  · rw [hunlinked.frame.metaSlot] at hslotb
    have hbx : b ≠ x := fun heq ↦ hb (heq ▸ hxblock)
    obtain ⟨hnext', hprev'⟩ := hunlinked.others h hprev hslotb fun hfree ↦
      hb (h.block_of_free hfree)
    rw [isUsed, hunlinked.occupied (Or.inr hslotb) hbx, hnext', hprev']
    exact h.unused b hslotb hb hspare
  · have hlast : s.Slot s.lastFree := Or.inr h.placed.lastFree_slot
    rw [hunlinked.frame.lastFree, hunlinked.frame.dataEnd, hunlinked.offs _ hlast,
      hunlinked.getSize _ hlast]
    exact h.last

end Unlink

/-! ## Putting an element in -/

/-- The object is a free block in front of its list. -/
structure Inserted (s s' : Allocator) (x : ℕ) : Prop where
  frame : Frame s.Managed s s'
  offs : ∀ m, s.Slot m → s'.offs m = s.offs m
  getSize : ∀ m, s.Slot m → s'.getSize m = s.getSize m
  occupied : ∀ m, s.Slot m → m ≠ x → (s'.isOccupied m ↔ s.isOccupied m)
  free : ¬s'.isOccupied x
  head : s'.next s.head = x
  element : s'.next x = s.next s.head ∧ s'.prev x = s.head
  next : ∀ m, s.Slot m → m ≠ s.head → m ≠ x → s'.next m = s.next m
  second : s.next s.head ≠ 0 → s'.prev (s.next s.head) = x
  prev : ∀ m, s.Slot m → m ≠ x → m ≠ s.next s.head → s'.prev m = s.prev m

theorem Shape.head_next (h : s.Shape blocks frees loose spare) :
    link (s.next s.head) = frees.head? := by
  cases frees with
  | nil => exact h.chain
  | cons y ys => exact h.chain.1

/-- `setOccupied(false)` and `insertFree` on a block that is not in the list. -/
theorem inserted_insertFree (h : s.Shape blocks frees loose spare) (hx : x ∈ blocks)
    (hfree : x ∉ frees) : s.Inserted ((s.setOccupied x false).insertFree x) x := by
  have hp := h.placed
  have hslotx := h.slot hx
  have hnextmem : s.next s.head ≠ 0 → s.next s.head ∈ frees := h.mem_of_link (Or.inl rfl)
  have hheadx : s.head ≠ x := fun heq ↦ hp.head_not_metaSlot (heq ▸ h.slots x hx)
  have hnextx : s.next s.head ≠ x := fun heq ↦ by
    have hpos := hp.slot_pos hslotx
    exact hfree (heq ▸ hnextmem (by omega))
  have hnexthead : s.next s.head ≠ s.head := fun heq ↦ by
    have hpos := hp.head_pos
    have hmem := hnextmem (by omega)
    exact h.head_not_free (heq ▸ hmem)
  have hset := (Records.refl s).setOccupied hp hslotx false
  have hsetat : ∀ m, s.Slot m → m ≠ x → (s.setOccupied x false).info m = s.info m :=
    fun m hm hne ↦ by
    rw [hset.info m hm, if_neg hne]
  have hhead₁ : (s.setOccupied x false).head = s.head := rfl
  have hnext₁ : (s.setOccupied x false).next s.head = s.next s.head :=
    congrArg Info.next (hsetat s.head (Or.inl rfl) hheadx)
  have hnextslot : s.next s.head ≠ 0 → s.Slot (s.next s.head) := fun hne ↦
    h.slot (h.block_of_free (hnextmem hne))
  have hinsert := records_insertFree (hset.frame.placed hp) (hset.frame.metaSlot.mpr (h.slots x hx))
    (by rw [hhead₁, hnext₁]; exact fun hne ↦ hset.frame.slot.mpr (hnextslot hne))
    (by rw [hhead₁, hnext₁]; exact hnexthead) (by rw [hhead₁, hnext₁]; exact hnextx)
  rw [hhead₁, hnext₁] at hinsert
  have hall := hset.trans hinsert
  generalize (s.setOccupied x false).insertFree x = s' at hall ⊢
  have hathead : s'.info s.head = { s.info s.head with next := x } := by
    rw [hall.info s.head (Or.inl rfl), if_pos rfl, hsetat s.head (Or.inl rfl) hheadx]
  have hatx : s'.info x = ⟨s.next s.head, s.head, s.offs x, sizeWord (s.getSize x) false⟩ := by
    rw [hall.info x hslotx, if_neg hheadx.symm, if_pos rfl, hset.info x hslotx, if_pos rfl]
    rfl
  have hat : ∀ m, s.Slot m → m ≠ s.head → m ≠ x →
      s'.info m = if m = s.next s.head then { s.info m with prev := x } else s.info m := by
    intro m hm hhead hne
    rw [hall.info m hm, if_neg hhead, if_neg hne, hsetat m hm hne]
  have hsize : ∀ m, s.Slot m → m ≠ x → s'.size m = s.size m := fun m hm hne ↦ by
    by_cases hhead : m = s.head
    · rw [hhead]
      exact congrArg Info.size hathead
    · have hfields := congrArg Info.size (hat m hm hhead hne)
      split_ifs at hfields <;> exact hfields
  have hsizex : s'.size x = sizeWord (s.getSize x) false := congrArg Info.size hatx
  have hlt := getSize_lt s x
  refine ⟨hall.frame, fun m hm ↦ ?_, fun m hm ↦ ?_, fun m hm hne ↦ ?_, ?_,
    congrArg Info.next hathead,
    ⟨congrArg Info.next hatx, congrArg Info.prev hatx⟩, fun m hm hhead hne ↦ ?_, fun hne ↦ ?_,
    fun m hm hne hsecond ↦ ?_⟩
  · by_cases hhead : m = s.head
    · rw [hhead]
      exact congrArg Info.offs hathead
    · by_cases hne : m = x
      · rw [hne]
        exact congrArg Info.offs hatx
      · have hfields := congrArg Info.offs (hat m hm hhead hne)
        split_ifs at hfields <;> exact hfields
  · by_cases hne : m = x
    · rw [hne, getSize, hsizex, getSize_sizeWord hlt]
    · rw [getSize, hsize m hm hne, getSize]
  · rw [isOccupied, hsize m hm hne, isOccupied]
  · rw [isOccupied, hsizex, signMask_le_sizeWord hlt]
    exact Bool.false_ne_true
  · have hfields := congrArg Info.next (hat m hm hhead hne)
    split_ifs at hfields <;> exact hfields
  · have hfields := congrArg Info.prev (hat _ (hnextslot hne) hnexthead hnextx)
    rwa [if_pos rfl] at hfields
  · by_cases hhead : m = s.head
    · rw [hhead]
      exact congrArg Info.prev hathead
    · have hfields := congrArg Info.prev (hat m hm hhead hne)
      rwa [if_neg hsecond] at hfields

/-- The block is the first of the list. -/
theorem Shape.insert (h : s.Shape blocks frees loose spare) (hx : x ∈ blocks) (hfree : x ∉ frees)
    (hinserted : s.Inserted s' x) (loose' : List ℕ) (hloose : ∀ b, b ∈ loose' ↔ b ∈ loose ∧ b ≠ x) :
    s'.Shape blocks (x :: frees) loose' spare := by
  have hframe := hinserted.frame
  have hxhead : x ≠ s.head := fun heq ↦ h.placed.head_not_metaSlot (heq ▸ h.slots x hx)
  have hpos := h.placed.slot_pos (h.slot hx)
  have hnotfree : ∀ b ∈ frees, b ≠ x := fun b hb heq ↦ hfree (heq ▸ hb)
  have hhead := h.head_next
  -- blocks outside the list keep their links
  have hother : ∀ b, s.MetaSlot b → b ∉ frees → b ≠ x → s'.next b = s.next b ∧
      s'.prev b = s.prev b := by
    intro b hb hbfree hbx
    have hbhead : b ≠ s.head := fun heq ↦ h.placed.head_not_metaSlot (heq ▸ hb)
    refine ⟨hinserted.next b (Or.inr hb) hbhead hbx, hinserted.prev b (Or.inr hb) hbx
      fun heq ↦ hbfree ?_⟩
    rw [heq]
    refine h.mem_of_link (Or.inl rfl) ?_
    rw [← heq]
    exact Nat.ne_of_gt (h.placed.slot_pos (Or.inr hb))
  have hchain : Chain s'.nextLink (s'.nextLink s'.head) (x :: frees) := by
    rw [hframe.head, nextLink, hinserted.head]
    refine ⟨link_of_ne (Nat.ne_of_gt hpos), ?_⟩
    rw [nextLink, hinserted.element.1]
    refine h.chain.congr fun b hb ↦ ?_
    have hbhead : b ≠ s.head := fun heq ↦ h.head_not_free (heq ▸ hb)
    rw [nextLink, hinserted.next b (h.slot (h.block_of_free hb)) hbhead (hnotfree b hb)]
    rfl
  have hback : BackLinked BackOk s'.prevLink (some s'.head) (x :: frees) := by
    have hheadpos := h.placed.head_pos
    rw [hframe.head]
    refine ⟨Or.inr ?_, ?_⟩
    · rw [prevLink, hinserted.element.2]
      exact link_of_ne (Nat.ne_of_gt hheadpos)
    · have hnodup := h.chain.nodup
      have hback := h.back
      cases frees with
      | nil => trivial
      | cons y ys =>
          obtain ⟨hy, hy0⟩ := link_eq_some.mp hhead
          refine ⟨Or.inr ?_, hback.2.congr fun b hb ↦ ?_⟩
          · rw [prevLink, ← hy, hinserted.second (by rw [hy]; exact hy0)]
            exact link_of_ne (Nat.ne_of_gt hpos)
          · have hb' := List.mem_cons_of_mem y hb
            rw [prevLink, hinserted.prev b (h.slot (h.block_of_free hb')) (hnotfree b hb')]
            · rfl
            · rw [hy]
              rintro rfl
              exact (List.nodup_cons.mp hnodup).1 hb
  refine ⟨hframe.placed h.placed, ?_, fun b hb ↦ hframe.metaSlot.mpr (h.slots b hb), hchain, hback,
    fun b ↦ ?_, fun b hb ↦ ?_, fun b hslotb hb hspare ↦ ?_, ?_⟩
  · rw [hframe.dataEnd]
    exact h.tiles.congr hframe.buf fun b hb ↦ ⟨hinserted.offs b (h.slot hb),
      hinserted.getSize b (h.slot hb), hframe.header_eq h.placed (h.dataWord hb)⟩
  · rw [List.mem_cons, hloose]
    by_cases hbx : b = x
    · rw [hbx]
      simp only [true_or, hx, hinserted.free, not_false_eq_true, ne_eq, not_true_eq_false,
        and_false, and_self]
    · simp only [hbx, false_or, ne_eq, not_false_eq_true, and_true]
      rw [h.free_iff]
      exact and_congr_right fun hb ↦ by rw [hinserted.occupied b (h.slot hb) hbx]
  · obtain ⟨hb, hbx⟩ := (hloose b).mp hb
    obtain ⟨hblock, hocc, hnull⟩ := h.loose b hb
    have hbfree : b ∉ frees := fun hmem ↦ ((h.free_iff b).mp hmem).2.2 hb
    obtain ⟨hnext', hprev'⟩ := hother b (h.slots b hblock) hbfree hbx
    rw [hinserted.occupied b (h.slot hblock) hbx, hnext', hprev']
    exact ⟨hblock, hocc, hnull⟩
  · rw [hframe.metaSlot] at hslotb
    have hbx : b ≠ x := fun heq ↦ hb (heq ▸ hx)
    obtain ⟨hnext', hprev'⟩ := hother b hslotb (fun hmem ↦ hb (h.block_of_free hmem)) hbx
    rw [isUsed, hinserted.occupied b (Or.inr hslotb) hbx, hnext', hprev']
    exact h.unused b hslotb hb hspare
  · have hlast : s.Slot s.lastFree := Or.inr h.placed.lastFree_slot
    rw [hframe.lastFree, hframe.dataEnd, hinserted.offs _ hlast, hinserted.getSize _ hlast]
    exact h.last

end Allocator

end CppMtHw.Allocation
