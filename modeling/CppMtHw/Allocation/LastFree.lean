import CppMtHw.Allocation.Integrity

/-!
# The first `MetaInfo`

`addMeta`, `free` and `defrag` take the first `MetaInfo` for that of the last block, which
is free. It stays so until an exact fit occupies the block or `free` adds it to another one.
An object without links is taken for unused, so the last element of the list has to keep
its backward link.
-/

namespace CppMtHw.Allocation

open Machine Allocator

namespace Allocator

variable {s s' : Allocator} {blocks blocks' frees frees' front rest run : List ℕ} {b m n p x : ℕ}

/-- The walk from the start of the buffer goes through blocks with `MetaInfo` objects of their own
to the limit of `free` and `defrag`. The last one is free and that of the first `MetaInfo`. An
unused object describes none of them. -/
structure TiledToLimit (s : Allocator) (blocks : List ℕ) : Prop where
  walk : ∃ e, s.Tiles 0 blocks e ∧ s.limit = s.buf + e
  objects : ∀ b ∈ blocks, s.MetaSlot b
  distinct : blocks.Nodup
  last : s.getSize (s.getMeta 0) ≠ 0 →
    blocks.getLast? = some (s.getMeta 0) ∧ ¬s.isOccupied (s.getMeta 0)
  unused : ∀ m, s.MetaSlot m → ¬s.isUsed m → m ∉ blocks

/-- An exact fit is not the block of the first `MetaInfo`, and the element that is the last of the
list without it has a backward link. -/
def FitsBefore (s : Allocator) (n : ℕ) : Prop :=
  ∀ p, s.FirstFit n p → s.getSize p = n → p ≠ s.lastFree ∧
    if s.next p = 0 then s.prev p = s.head ∨ s.prev (s.prev p) ≠ 0 else s.next (s.next p) ≠ 0

/-- `free` does not add the block of the first `MetaInfo`. The last element of the list that it does
not add is the first one, or has a backward link to one that it does not add. -/
def AbsorbsBefore (s : Allocator) (b : ℕ) : Prop :=
  ∀ run, s.Absorbs b run → s.lastFree ∉ run ∧ (run = [] ∨ ∀ front m back,
    Chain s.nextLink (s.nextLink s.head) (front ++ m :: back) → m ∉ run → (∀ c ∈ back, c ∈ run) →
      front = [] ∨ s.prev m ≠ 0 ∧ s.prev m ∉ run)

/-- The first `MetaInfo` is in the list, and the last element has a backward link. -/
structure EndsFree (s : Allocator) (frees : List ℕ) : Prop where
  first : s.lastFree ∈ frees
  linked : ∀ m, frees.getLast? = some m → s.prev m ≠ 0

/-! ## What is kept -/

theorem Shape.next_last (h : s.WellFormed blocks frees) (hm : frees.getLast? = some m) :
    s.next m = 0 := by
  obtain ⟨front, rfl⟩ := List.getLast?_eq_some_iff.mp hm
  exact link_eq_none.mp h.chain.next_eq

/-- The last element behind an exact fit, or in front of it, keeps its link. -/
theorem Carved.endsFree (h : s.WellFormed blocks frees) (hends : s.EndsFree frees)
    (hbefore : s.FitsBefore n) (hclean : s.Allocatable n) (hfit : s.FirstFit n p)
    (hcarved : s.Carved s' frees frees' p b n) : s'.EndsFree frees' := by
  have hslot : ∀ m ∈ frees, s.Slot m := fun m hm ↦ h.slot (h.block_of_free hm)
  have hlastFree := lastFree_congr hcarved.buf hcarved.bufsize
  rw [hcarved.list]
  by_cases hsize : s.getSize p = n
  · have hp := h.firstFit_mem hfit
    obtain ⟨hne, hlinks⟩ := hbefore p hfit hsize
    have hprev := hclean.whole p hfit hsize
    obtain ⟨front, rest, rfl⟩ := List.append_of_mem hp
    rw [if_pos hsize, h.erase_eq]
    have hnot := h.not_mem_rest
    have hmem : ∀ m ∈ front ++ rest, m ∈ front ++ p :: rest := fun m hm ↦ by
      rw [List.mem_append] at hm ⊢
      exact hm.imp_right (List.mem_cons_of_mem p)
    have hnext : link (s.next p) = rest.head? := h.chain.next_eq
    refine ⟨?_, fun m hm ↦ ?_⟩
    · have hfirst := hends.first
      rw [hlastFree]
      simp only [List.mem_append, List.mem_cons, hne.symm, false_or] at hfirst ⊢
      exact hfirst
    · have hmfree : m ∈ front ++ rest := List.mem_of_getLast? hm
      have hmslot := hslot m (hmem m hmfree)
      have hpos := h.placed.slot_pos hmslot
      have hmp : m ≠ p := fun heq ↦ hnot (heq ▸ hmfree)
      cases rest with
      | nil =>
          -- the element in front of the exact fit
          rw [List.append_nil] at hm
          have hnull : s.next p = 0 := link_eq_none.mp hnext
          rw [if_pos hnull] at hlinks
          have hbehind := h.prev_eq hprev
          rw [hm] at hbehind
          obtain rfl : s.prev p = m := Option.some.inj hbehind
          have hhead : s.prev p ≠ s.head := fun heq ↦ h.head_not_free (heq ▸ hmem _ hmfree)
          rw [hcarved.prev _ hmslot fun _ ↦ ⟨hmp, by omega⟩]
          exact hlinks.resolve_left hhead
      | cons y ys =>
          obtain ⟨hy, hy0⟩ := link_eq_some.mp hnext
          rw [if_neg (by omega), hy] at hlinks
          have hlast : (front ++ p :: y :: ys).getLast? = some m := by
            rw [List.getLast?_append_cons] at hm ⊢
            rwa [List.getLast?_cons_cons]
          have hmy : m ≠ y := fun heq ↦ hlinks (heq ▸ h.next_last hlast)
          rw [hcarved.prev m hmslot fun _ ↦ ⟨hmp, by omega⟩]
          exact hends.linked m hlast
  · rw [if_neg hsize]
    refine ⟨by rw [hlastFree]; exact hends.first, fun m hm ↦ ?_⟩
    rw [hcarved.prev m (hslot m (List.mem_of_getLast? hm)) fun heq ↦ absurd heq hsize]
    exact hends.linked m hm

/-- The last element that is not added to the block keeps its link. -/
theorem Freed.endsFree (h : s.WellFormed blocks frees) (hends : s.EndsFree frees)
    (hbefore : s.AbsorbsBefore b) (h' : s'.WellFormed blocks' (b :: frees.filter fun c ↦ c ∉ run))
    (hframe : Frame s.Managed s s') (hfreed : s.Freed s' frees b run) :
    s'.EndsFree (b :: frees.filter fun c ↦ c ∉ run) := by
  obtain ⟨hfirst, hkept⟩ := hbefore run hfreed.absorbs
  have hb := (List.nodup_cons.mp h'.chain.nodup).1
  have hbpos := h'.placed.slot_pos (h'.slot (h'.block_of_free List.mem_cons_self))
  have hlast : s.lastFree ∈ frees.filter fun c ↦ c ∉ run :=
    List.mem_filter.mpr ⟨hends.first, decide_eq_true hfirst⟩
  refine ⟨by rw [hframe.lastFree]; exact List.mem_cons_of_mem b hlast, fun m hm ↦ ?_⟩
  have hm' : (frees.filter fun c ↦ c ∉ run).getLast? = some m := by
    cases hfilter : frees.filter fun c ↦ c ∉ run with
    | nil =>
        rw [hfilter] at hlast
        exact (List.not_mem_nil hlast).elim
    | cons y ys =>
        rw [hfilter, List.getLast?_cons_cons] at hm
        exact hm
  have hmem := List.mem_of_getLast? hm'
  have hmb : m ≠ b := fun heq ↦ hb (heq ▸ hmem)
  have hmrun : m ∉ run := of_decide_eq_true (List.mem_filter.mp hmem).2
  obtain ⟨front, back, rfl, hback⟩ : ∃ front back, frees = front ++ m :: back ∧
      ∀ c ∈ back, c ∈ run := by
    obtain ⟨init, hinit⟩ := List.getLast?_eq_some_iff.mp hm'
    obtain ⟨front, tail, hfrees, -, htail⟩ := List.filter_eq_append_iff.mp hinit
    obtain ⟨gone, back, rfl, -, -, hback⟩ := List.filter_eq_cons_iff.mp htail
    rw [List.filter_eq_nil_iff] at hback
    exact ⟨front ++ gone, back, by
      rw [hfrees, List.append_assoc], fun c hc ↦ by simpa using hback c hc⟩
  have hlinks : front = [] ∨ s.prev m ≠ 0 ∧ s.prev m ∉ run := by
    rcases hkept with rfl | hkept
    · refine Or.inr ⟨hends.linked m ?_, List.not_mem_nil⟩
      simpa using hm'
    · exact hkept front m back h.chain hmrun hback
  by_cases hempty : front = []
  · -- it is the first of those that are left
    subst hempty
    have hsecond : (([] ++ m :: back).filter fun c ↦ c ∉ run).head? = some m := by
      simp [hmrun]
    rw [hfreed.second m hsecond]
    exact Nat.ne_of_gt hbpos
  · obtain ⟨hprev, hprevrun⟩ := hlinks.resolve_left hempty
    have hbehind := h.prev_eq hprev
    rw [List.getLast?_eq_some_getLast hempty] at hbehind
    have hfront : s.prev m ∈ front := by
      rw [show s.prev m = front.getLast hempty from Option.some.inj hbehind]
      exact List.getLast_mem hempty
    have hprevfree : s.prev m ∈ front ++ m :: back := List.mem_append_left _ hfront
    have hprevb : s.prev m ≠ b := by
      intro heq
      apply hb
      rw [← heq]
      exact List.mem_filter.mpr ⟨hprevfree, decide_eq_true hprevrun⟩
    have hprevhead : s.prev m ≠ s.head := fun heq ↦ h.head_not_free (heq ▸ hprevfree)
    have hslot := h.slot (h.block_of_free (List.mem_append_right front List.mem_cons_self))
    rw [hfreed.prev m hslot (by simp [hmb, hmrun]) hprev hprevhead (by simp [hprevb, hprevrun])]
    exact hprev

theorem maintained_endsFree : Session.Maintained FitsBefore AbsorbsBefore EndsFree := by
  refine ⟨fun h hends hbefore hclean hfit _ hcarved ↦ hcarved.endsFree h hends hbefore hclean hfit,
    fun h hends hbefore _ h' hframe hfreed ↦ hfreed.endsFree h hends hbefore h' hframe,
    fun {s s' blocks frees b} h hends hframe hinfo ↦ ⟨?_, fun m hm ↦ ?_⟩,
    fun {s blocks} h hprev ↦ ⟨List.mem_singleton.mpr rfl, fun m hm ↦ ?_⟩⟩
  · rw [hframe.lastFree]
    exact hends.first
  · have hmem := List.mem_of_getLast? hm
    have hprev : s'.prev m = s.prev m :=
      congrArg Info.prev (hinfo m (h.slot (h.block_of_free hmem)))
    rw [hprev]
    exact hends.linked m hm
  · have hlast : s.lastFree = m := Option.some.inj hm
    rw [← hlast, hprev]
    exact Nat.ne_of_gt h.placed.head_pos

/-- The structure with the first `MetaInfo` in its list and no unlinked element. -/
theorem EndsFree.tiledToLimit (h : s.WellFormed blocks frees) (hends : s.EndsFree frees) :
    s.TiledToLimit blocks := by
  have hlast := h.placed.lastFree_eq
  refine ⟨⟨_, h.tiles, h.limit_eq⟩, h.slots, h.tiles.nodup, fun _ ↦ ?_, fun m _ hunused hmem ↦ ?_⟩
  · rw [hlast]
    obtain ⟨front, hblocks⟩ := h.eq_concat (h.block_of_free hends.first) h.last
    refine ⟨?_, ((h.free_iff _).mp hends.first).2.1⟩
    rw [hblocks, List.getLast?_concat]
  · apply hunused
    by_cases hocc : s.isOccupied m
    · exact Or.inl hocc
    · have hfree := (h.free_iff m).mpr ⟨hmem, hocc, List.not_mem_nil⟩
      by_cases hnext : s.next m = 0
      · obtain ⟨front, rest, rfl⟩ := List.append_of_mem hfree
        have hrest : link (s.next m) = rest.head? := h.chain.next_eq
        rw [hnext, link_zero, eq_comm, List.head?_eq_none_iff] at hrest
        refine Or.inr (Or.inr (hends.linked m ?_))
        rw [hrest, List.getLast?_concat]
      · exact Or.inr (Or.inl hnext)

end Allocator

namespace Session

variable {σ : Session} {s : Allocator} {mem : Bytes} {object base size : ℕ} {calls : List Call}

/-- The first `MetaInfo` describes the last free block in every session whose calls are careful and
leave it, and the backward link of the last element of the list, alone. -/
theorem blocks_tiled (h : Suitable object base size)
    (hcreate : create mem object base size = .returned () s)
    (hrun : Run (Guarded (fun σ call ↦ σ.Careful call ∧ σ.Meets FitsBefore AbsorbsBefore call) Step)
      ⟨s, []⟩ calls σ) : ∃ blocks, σ.allocator.TiledToLimit blocks := by
  obtain ⟨blocks, frees, hholds, hends⟩ := maintained_endsFree.run h hcreate hrun
  exact ⟨blocks, hends.tiledToLimit hholds.shape⟩

theorem blocks_tiled_freed : ∃ s s₁ s₂ s₃, create (fun _ ↦ 0) 4096 8192 256 = .returned () s ∧
    s.alloc 24 = .returned ⟨1⟩ s₁ ∧ s₁.alloc 24 = .returned ⟨2⟩ s₂ ∧
    s₂.free ⟨1⟩ = .returned .null s₃ ∧ ∃ blocks, s₃.TiledToLimit blocks := by
  obtain ⟨s, s₁, s₂, s₃, hcreate, hs, halloc, hs₁, halloc', hocc, hfree⟩ := two_blocks
  have hrun : Run (Guarded (fun σ call ↦ σ.Careful call ∧ σ.Meets FitsBefore AbsorbsBefore call)
      Step) ⟨s, []⟩ [.alloc 24, .alloc 24] ⟨s₂, [1, 2]⟩ :=
    run_two (fun σ hσ ↦ ⟨allocatable_of_servesLast hσ,
      fun p hp hsize ↦ absurd hsize (Nat.ne_of_gt ((firstFit_of_servesLast hσ).mp hp).2)⟩) hs
        halloc hs₁ halloc'
  have hstep : Step ⟨s₂, [1, 2]⟩ (.free ⟨1⟩) ⟨s₃, [1, 2].erase 1 ++ Pointer.held .null⟩ :=
    Step.free (Or.inr List.mem_cons_self) hfree
  have hmeets : Meets FitsBefore AbsorbsBefore ⟨s₂, [1, 2]⟩ (.free ⟨1⟩) := by
    refine Or.inr fun run habsorbs ↦ ?_
    rw [freeRun_of_occupied hocc habsorbs.1]
    exact ⟨List.not_mem_nil, Or.inl rfl⟩
  have hcareful : Careful ⟨s₂, [1, 2]⟩ (.free ⟨1⟩) := Or.inr (mergeable_of_occupied hocc)
  exact ⟨s, s₁, s₂, s₃, hcreate, halloc, halloc', hfree,
    blocks_tiled (suitable_example 256 (by decide) (by decide)) hcreate
      (hrun.snoc ⟨⟨hcareful, hmeets⟩, hstep⟩)⟩

/-- An exact fit occupies the block of the first `MetaInfo`. -/
theorem exact_fit_occupies_last : ∃ s σ, create (fun _ ↦ 0) 4096 8192 160 = .returned () s ∧
    Run Step ⟨s, []⟩ [.alloc 120] σ ∧ ¬∃ blocks, σ.allocator.TiledToLimit blocks := by
  have hcheck : checksRun 160 [.alloc 120]
      (fun σ ↦ decide (σ.allocator.getSize (σ.allocator.getMeta 0) ≠ 0 ∧
      σ.allocator.isOccupied (σ.allocator.getMeta 0))) = true := by decide +kernel
  obtain ⟨s, σ, hcreate, hrun, hσ⟩ := exists_of_checksRun hcheck
  obtain ⟨hsize, hocc⟩ := of_decide_eq_true hσ
  refine ⟨s, σ, hcreate, hrun, ?_⟩
  rintro ⟨blocks, htiled⟩
  exact (htiled.last hsize).2 hocc

end Session

end CppMtHw.Allocation
