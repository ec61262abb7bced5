import CppMtHw.Allocation.Completeness

/-!
# Room after defragmentation

After `defrag` all that is not held is one block, so `alloc` is limited by the amount of memory
alone. Five units more than the request are always enough: four for another `MetaInfo`, and one
that stays free.
-/

namespace CppMtHw.Allocation

open Machine Allocator

namespace Allocator

variable {s s' : Allocator} {blocks : List ℕ} {n o e : ℕ}

/-- The blocks of a tiling fill it. -/
theorem Tiles.sum (h : s.Tiles o blocks e) : o + 8 * (blocks.map s.getSize).sum = e := by
  induction blocks generalizing o with
  | nil => simpa using h
  | cons b blocks ih =>
      obtain ⟨-, -, -, hrest⟩ := h
      have hsum := ih hrest
      rw [List.map_cons, List.sum_cons]
      omega

/-- A list of the last free block alone serves what leaves four units and one more. -/
theorem Shape.serves (h : s.WellFormed blocks [s.lastFree]) (hprev : s.prev s.lastFree ≠ 0)
    (hroom : n + 5 ≤ s.getSize s.lastFree) : s.Allocatable n ∧ ¬s.MetaFull := by
  have hfirst : ∀ p, s.FirstFit n p → p = s.lastFree :=
    fun p hp ↦ ((Session.firstFit_single h.chain).mp hp).1
  have hend := h.last
  have hdataEnd := h.placed.dataEnd_le
  have hbufend := h.placed.buf_end
  have hmetas := h.placed.buf_le
  obtain ⟨count, hcount⟩ := h.placed.array
  constructor
  · refine ⟨fun p hp _ ↦ ?_, fun p mi _ _ hreuse ↦ ?_, fun p hp _ _ _ ↦ ?_⟩
    · rwa [hfirst p hp]
    · obtain ⟨-, hne, -⟩ := h.placed.reusable_spec hreuse
      rw [h.listed_iff, List.mem_singleton]
      exact hne
    · rw [if_pos (hfirst p hp), h.listed_iff, List.mem_singleton]
      exact ⟨rfl, by omega⟩
  · rintro ⟨-, hfull⟩
    have hstart : wrap (s.buf + s.offs s.lastFree) = s.buf + s.offs s.lastFree :=
      Nat.mod_eq_of_lt (by omega)
    rw [h.placed.lastFree_eq, hstart, usub_of_le (by omega)] at hfull
    omega

end Allocator

namespace Session

variable {σ τ : Session} {s : Allocator} {mem : Bytes} {object base size N : ℕ} {calls : List Call}
  {blocks frees : List ℕ}

/-- The units of the blocks that are held, with their headers. -/
def heldUnits (σ : Session) : ℕ :=
  (σ.live.map fun i ↦ σ.allocator.getSize (σ.allocator.getMeta i)).sum

/-- They are the units of the occupied blocks. -/
theorem Holds.heldUnits_eq (h : σ.Holds blocks frees) :
    σ.heldUnits = ((blocks.filter fun b ↦ σ.allocator.isOccupied b).map
      σ.allocator.getSize).sum := by
  obtain ⟨order, hperm, -, hmap⟩ := h.order
  calc σ.heldUnits = (order.map fun i ↦ σ.allocator.getSize (σ.allocator.getMeta i)).sum :=
        (hperm.map _).sum_nat.symm
    _ = ((order.map σ.allocator.getMeta).map σ.allocator.getSize).sum := by rw [List.map_map]; rfl
    _ = _ := by rw [hmap]

/-- After a careful `defrag` a request is served if the memory that is not held has five units more
than it takes, and only if it has that many. -/
theorem defrag_makes_room (h : Suitable object base size)
    (hcreate : create mem object base size = .returned () s)
    (hrun : Run (Guarded Careful Step) ⟨s, []⟩ calls σ) (hstep : Guarded Careful Step σ .defrag τ)
    (N : ℕ) : (8 * (σ.heldUnits + units N + 5) ≤ σ.allocator.dataEnd →
      τ.Careful (.alloc N) ∧ ∃ p s', τ.allocator.alloc N = .returned p s') ∧
    ∀ p s', τ.allocator.alloc N = .returned p s' →
      8 * (σ.heldUnits + units N) ≤ σ.allocator.dataEnd := by
  obtain ⟨blocks, frees, hholds⟩ := Invariant.run h hcreate hrun
  obtain ⟨hcareful, hstep⟩ := hstep
  obtain ⟨s', hreturned, hdefragmented, hholds', hprev⟩ := hholds.defrag_call hcareful
  cases hstep with
  | defrag hreturned' =>
      cases hreturned'.symm.trans hreturned
      have hlast : σ.allocator.lastFree = s'.lastFree :=
        (lastFree_congr hdefragmented.buf hdefragmented.bufsize).symm
      have hdataEnd : s'.dataEnd = σ.allocator.dataEnd := by
        rw [dataEnd, dataEnd, hdefragmented.buf, hdefragmented.metas]
      rw [hlast] at hholds'
      have hshape : s'.WellFormed _ [s'.lastFree] := hholds'.shape
      -- what is not held is the last block
      have hsum : 8 * (σ.heldUnits + s'.getSize s'.lastFree) = σ.allocator.dataEnd := by
        have htiles := hshape.tiles.sum
        have hkept : ((blocks.filter fun b ↦ σ.allocator.isOccupied b).map s'.getSize) =
            (blocks.filter fun b ↦ σ.allocator.isOccupied b).map σ.allocator.getSize := by
          apply List.map_congr_left
          intro b hb
          obtain ⟨hb, hocc⟩ := List.mem_filter.mp hb
          exact (hdefragmented.size b hb (of_decide_eq_true hocc)).1
        rw [List.map_append, List.sum_append_nat, hkept, ← hholds.heldUnits_eq, hdataEnd] at htiles
        simpa using htiles
      constructor
      · intro hroom
        have hprev' : s'.prev s'.lastFree ≠ 0 := by
          rw [← hlast, hprev]
          exact Nat.ne_of_gt hholds.shape.placed.head_pos
        have hserved : s'.Allocatable (units N) ∧ ¬s'.MetaFull := hshape.serves hprev' (by omega)
        obtain ⟨hallocatable, hfull⟩ := hserved
        have hfit : s'.FirstFit (units N) s'.lastFree :=
          (firstFit_single hshape.chain).mpr ⟨rfl, by omega⟩
        have hplace := s'.place_outcome (units N) s'.lastFree
        rw [if_neg (fun h ↦ hfull h.2), ← hfit.alloc_eq] at hplace
        exact ⟨hallocatable, hplace⟩
      · intro p t halloc
        rcases hshape.alloc_eq N with hthrew | ⟨q, hfit, -⟩
        · cases halloc.symm.trans hthrew
        · have hle := ((firstFit_single hshape.chain).mp hfit)
          rw [hle.1] at hle
          omega

/-- Eight of 20 units are held, so there is room for a request of six. -/
theorem defrag_makes_room_two : ∃ s s₁ s₂ τ, create (fun _ ↦ 0) 4096 8192 256 = .returned () s ∧
    s.alloc 24 = .returned ⟨1⟩ s₁ ∧ s₁.alloc 24 = .returned ⟨2⟩ s₂ ∧ Step ⟨s₂, [1, 2]⟩ .defrag τ ∧
    ∃ p s', τ.allocator.alloc 40 = .returned p s' := by
  have hcheck : (create (fun _ ↦ 0) 4096 8192 256).checks (fun _ s ↦ servesLast s (units 24) &&
      (s.alloc 24).checks fun p s₁ ↦ decide (p = ⟨1⟩) && (servesLast s₁ (units 24) &&
        (s₁.alloc 24).checks fun q s₂ ↦
          decide (q = ⟨2⟩ ∧ ¬s₂.isOccupied s₂.lastFree ∧ s₂.next s₂.head ≠ 0 ∧
          8 * (heldUnits ⟨s₂, [1, 2]⟩ + units 40 + 5) ≤ s₂.dataEnd) && s₂.defrag.checks
            fun _ _ ↦ true)) =
      true := by decide +kernel
  obtain ⟨⟨⟩, s, hcreate, hs⟩ := Outcome.exists_of_checks hcheck
  rw [Bool.and_eq_true] at hs
  obtain ⟨p, s₁, halloc, hs₁⟩ := Outcome.exists_of_checks hs.2
  rw [Bool.and_eq_true, Bool.and_eq_true, decide_eq_true_iff] at hs₁
  obtain ⟨rfl, hserves, hsecond⟩ := hs₁
  obtain ⟨q, s₂, halloc', hs₂⟩ := Outcome.exists_of_checks hsecond
  rw [Bool.and_eq_true, decide_eq_true_iff] at hs₂
  obtain ⟨⟨rfl, hclean, hlist, hroom⟩, hdefrag⟩ := hs₂
  obtain ⟨⟨⟩, s₃, hdefrag, -⟩ := Outcome.exists_of_checks hdefrag
  have hrun : Run (Guarded Careful Step) ⟨s, []⟩ [.alloc 24, .alloc 24] ⟨s₂, [1, 2]⟩ :=
    run_two (fun _ ↦ allocatable_of_servesLast) hs.1 halloc hserves halloc'
  have hstep : Guarded Careful Step ⟨s₂, [1, 2]⟩ .defrag ⟨s₃, [1, 2]⟩ :=
    ⟨⟨hclean, hlist⟩, Step.defrag hdefrag⟩
  have hmakes := defrag_makes_room
    (suitable_example 256 (by decide) (by decide)) hcreate hrun hstep 40
  exact ⟨s, s₁, s₂, _, hcreate, halloc, halloc', hstep.2, (hmakes.1 hroom).2⟩

end Session

end CppMtHw.Allocation
