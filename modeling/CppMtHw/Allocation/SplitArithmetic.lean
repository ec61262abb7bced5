import CppMtHw.Allocation.Completeness

/-!
# The arithmetic of a split

`alloc` tests that the block is larger than the request before `addMeta` takes a
`MetaInfo` from the end of the last free block, which may be the same block. Without room
for both, the size of the remainder wraps, or its header is written into the array.
-/

namespace CppMtHw.Allocation

open Machine Allocator

namespace Allocator

variable {s s₁ : Allocator} {blocks frees : List ℕ} {mi n p start t : ℕ}

/-- Where `alloc` writes the header of the remainder, after `addMeta`. -/
def remainderStart (s : Allocator) (occMeta p n : ℕ) : ℕ :=
  wrap ((s.setOccupied occMeta true).buf + (s.setOccupied occMeta true).offs p + n * 8)

def remainderSize (s : Allocator) (occMeta p n : ℕ) : ℕ :=
  ((s.setOccupied occMeta true).setHeader (s.remainderStart occMeta p n) p).getSize p

/-- These are the values in the assignments of `alloc`. -/
theorem cutOff_eq (s : Allocator) (occMeta p n : ℕ) : s.cutOff occMeta p n =
    (((s.setOccupied occMeta true).setHeader (s.remainderStart occMeta p n) p).setSize p
      (usub (s.remainderSize occMeta p n) n)).setOffs p
        (usub (s.remainderStart occMeta p n) s.buf) := rfl

structure SplitFits (s : Allocator) (occMeta p n : ℕ) : Prop where
  size : n ≤ s.remainderSize occMeta p n
  low : s.buf ≤ s.remainderStart occMeta p n
  high : s.remainderStart occMeta p n + 8 ≤ s.metas

/-! ## Before the subtraction -/

theorem describe_setOccupied_mem (s : Allocator) (mi start n : ℕ) :
    Bytes.SameOutside (fun x ↦ mi ≤ x ∧ x < mi + 32 ∨ start ≤ x ∧ x < start + 8) s.mem
      ((s.describe mi start n).setOccupied mi true).mem := by
  have hsize : Bytes.SameOutside (fun x ↦ mi ≤ x ∧ x < mi + 32 ∨ start ≤ x ∧ x < start + 8) s.mem
      (s.setSize mi n).mem := (setSize_mem s mi n).mono fun x hx ↦ Or.inl hx
  have hoffs := hsize.trans (Bytes.sameOutside_store (a := mi + 16) (w := usub start s.buf)
    fun x hx hlt ↦ Or.inl ⟨by omega, by omega⟩)
  have hheader := hoffs.trans (Bytes.sameOutside_store (a := start) (w := mi)
    fun x hx hlt ↦ Or.inr ⟨hx, hlt⟩)
  exact hheader.trans (Bytes.sameOutside_store (a := mi + 24) fun x hx hlt ↦ Or.inl
    ⟨by omega, by omega⟩)

/-- The new `MetaInfo` and the headers are below the object of the block. -/
theorem splitFits_describe (hmi : mi + 32 ≤ p ∨ p + 32 ≤ mi) (hstart : start + 8 ≤ p)
    (hlt : s.buf + s.offs p + n * 8 < 2 ^ 64) (hbelow : s.buf + s.offs p + n * 8 + 8 ≤ p) :
    (s.describe mi start n).SplitFits mi p n ↔ n ≤ s.getSize p ∧
    s.buf + s.offs p + n * 8 + 8 ≤ s.metas := by
  have hinfo : ((s.describe mi start n).setOccupied mi true).info p = s.info p := by
    apply info_congr
    intro x hx hxlt
    apply describe_setOccupied_mem
    omega
  have hoffs : ((s.describe mi start n).setOccupied mi true).offs p = s.offs p :=
    congrArg Info.offs hinfo
  have hbegin : (s.describe mi start n).remainderStart mi p n = s.buf + s.offs p + n * 8 := by
    rw [remainderStart, hoffs]
    exact Nat.mod_eq_of_lt hlt
  have hsize : (s.describe mi start n).remainderSize mi p n = s.getSize p := by
    have hword : ((((s.describe mi start n).setOccupied mi true).setHeader
        (s.buf + s.offs p + n * 8) p)).info p = s.info p := by
      rw [← hinfo]
      exact info_congr fun x hx hxlt ↦ Bytes.store_of_not_mem (by omega)
    have hsize := congrArg Info.size hword
    rw [remainderSize, hbegin, getSize]
    exact congrArg (· % signMask) hsize
  have hmetas : (s.describe mi start n).metas = s.metas := rfl
  constructor
  · rintro ⟨hle, -, hhigh⟩
    rw [hsize] at hle
    rw [hbegin, hmetas] at hhigh
    exact ⟨hle, hhigh⟩
  · rintro ⟨hle, hhigh⟩
    refine ⟨by rw [hsize]; exact hle, ?_, by rw [hbegin, hmetas]; exact hhigh⟩
    rw [hbegin]
    show s.buf ≤ _
    omega

/-- A free block whose own object counts as unused becomes the request. -/
theorem splitFits_describe_self (hp : s.Placed) (hpslot : s.MetaSlot p) (hn : n < 2 ^ 63)
    (hend : s.buf + s.offs p + n * 8 + 8 ≤ s.metas) :
    (s.describe p (s.buf + s.offs p) n).SplitFits p p n := by
  have hslot : s.Slot p := Or.inr hpslot
  have hbufend := hp.buf_end
  have hle := hpslot.1
  obtain ⟨count, hcount⟩ := hp.array
  obtain ⟨hframe, hinfo, -⟩ :=
    describe_spec (n := n) (t := s.offs p) hp hslot hn ⟨Nat.le_add_right _ _, by omega⟩
  have hmetas : (s.describe p (s.buf + s.offs p) n).metas = s.metas := rfl
  have hdescribed := hinfo p hslot
  rw [if_pos rfl] at hdescribed
  have hset := info_setOccupied (hframe.placed hp) (hframe.slot.mpr hslot)
    (hframe.slot.mpr hslot) true
  rw [if_pos rfl, hdescribed] at hset
  have hoffs : ((s.describe p (s.buf + s.offs p) n).setOccupied p true).offs p = s.offs p :=
    congrArg Info.offs hset
  have hbegin : (s.describe p (s.buf + s.offs p) n).remainderStart p p n =
      s.buf + s.offs p + n * 8 := by
    rw [remainderStart, hoffs]
    exact Nat.mod_eq_of_lt (by show s.buf + s.offs p + n * 8 < 2 ^ 64; omega)
  have hgetSize : (s.describe p (s.buf + s.offs p) n).getSize p = n := by
    have hword : (s.describe p (s.buf + s.offs p) n).size p = sizeWord n (s.isOccupied p) :=
      congrArg Info.size hdescribed
    rw [getSize, hword]
    exact getSize_sizeWord hn
  have hsize : (s.describe p (s.buf + s.offs p) n).remainderSize p p n = n := by
    have hword : (((s.describe p (s.buf + s.offs p) n).setOccupied p true).setHeader
        (s.buf + s.offs p + n * 8) p).size p = sizeWord n true := by
      refine Eq.trans (Bytes.load_store_of_disjoint (Or.inr (by omega))) ?_
      rw [hgetSize] at hset
      exact congrArg Info.size hset
    rw [remainderSize, hbegin, getSize, hword]
    exact getSize_sizeWord hn
  refine ⟨Nat.le_of_eq hsize.symm, ?_, by rw [hbegin, hmetas]; exact hend⟩
  rw [hbegin]
  show s.buf ≤ _
  omega

/-! ## The state of the split -/

/-- With a `MetaInfo` to use again the block is as large as it was. -/
theorem Shape.splitFits_reuse (h : s.WellFormed blocks frees) (hp : p ∈ blocks)
    (hlt : n < s.getSize p) (hreusable : s.reusable = some mi) :
    (s.describe mi (s.buf + s.offs p) n).SplitFits mi p n := by
  have hend := (h.bounds hp).2.1
  have hdataEnd := h.placed.dataEnd_le
  have hbufend := h.placed.buf_end
  have hpslot := h.slots p hp
  have hle := hpslot.1
  obtain ⟨count, hcount⟩ := h.placed.array
  have hmi := (h.placed.reusable_spec hreusable).1
  by_cases hmip : mi = p
  · rw [hmip]
    exact splitFits_describe_self h.placed hpslot (by omega) (by omega)
  · have hapart := h.placed.slot_apart (Or.inr hmi) (Or.inr hpslot) hmip
    exact (splitFits_describe hapart (by omega) (by omega) (by omega)).mpr
      ⟨Nat.le_of_lt hlt, by omega⟩

/-- A new `MetaInfo` may take what the remainder needs. -/
theorem Shape.splitFits_new (h : s.WellFormed blocks frees) (hp : p ∈ blocks)
    (hlt : n < s.getSize p) (hroom : s.buf + 32 ≤ s.metas) :
    (s.grow.describe (s.metas - 32) (s.buf + s.offs p) n).SplitFits (s.metas - 32) p n ↔
      s.buf + s.offs p + 8 * n + 8 ≤ s.metas - 32 := by
  have hend := (h.bounds hp).2.1
  have hdataEnd := h.placed.dataEnd_le
  have hbufend := h.placed.buf_end
  have hpslot := h.slots p hp
  have hle := hpslot.1
  obtain ⟨count, hcount⟩ := h.placed.array
  have hresized := h.placed.resized_grow hroom
  have hoffs : s.grow.offs p = s.offs p := hresized.offs p (h.slot hp)
  have hbuf : s.grow.buf = s.buf := rfl
  have hmetas : s.grow.metas = s.metas - 32 := rfl
  rw [splitFits_describe (Or.inl (by omega)) (by omega) (by omega) (by omega), hoffs, hbuf, hmetas]
  constructor
  · rintro ⟨-, hhigh⟩
    omega
  · intro hhigh
    refine ⟨?_, by omega⟩
    by_cases hlast : p = s.lastFree
    · rw [hlast, hresized.getSize, ← hlast]
      omega
    · rw [hresized.getSize_of_ne (h.slot hp) hlast]
      exact Nat.le_of_lt hlt

end Allocator

namespace Session

variable {σ : Session} {s s₁ : Allocator} {mem : Bytes} {object base size N mi p : ℕ}
  {calls : List Call}

/-- After careful calls a split fits if `addMeta` uses a `MetaInfo` again, or if there is room for a
new one besides the request and the header of the remainder. -/
theorem split_fits_iff (h : Suitable object base size)
    (hcreate : create mem object base size = .returned () s)
    (hrun : Run (Guarded Careful Step) ⟨s, []⟩ calls σ) (hfit : σ.allocator.FirstFit (units N) p)
    (hlarger : units N < σ.allocator.getSize p)
    (hadd : σ.allocator.addMeta (wrap (σ.allocator.buf + σ.allocator.offs p)) (units N) =
      .returned mi s₁) :
    σ.allocator.alloc N = .returned ⟨(s₁.cutOff mi p (units N)).indexOfInfo mi⟩
      (s₁.cutOff mi p (units N)) ∧ (s₁.SplitFits mi p (units N) ↔ σ.allocator.reusable ≠ none ∨
        σ.allocator.buf + σ.allocator.offs p + 8 * units N + 8 ≤ σ.allocator.metas - 32) := by
  obtain ⟨blocks, frees, hholds⟩ := Invariant.run h hcreate hrun
  have hshape := hholds.shape
  have hp := hshape.block_of_free (hshape.firstFit_mem hfit)
  have hend := (hshape.bounds hp).2.1
  have hdataEnd := hshape.placed.dataEnd_le
  have hbufend := hshape.placed.buf_end
  obtain ⟨count, hcount⟩ := hshape.placed.array
  constructor
  · rw [hfit.alloc_eq, place, if_neg (Nat.ne_of_gt hlarger), hadd]
  · have hstart : wrap (σ.allocator.buf + σ.allocator.offs p) =
        σ.allocator.buf + σ.allocator.offs p :=
      Nat.mod_eq_of_lt (by omega)
    rw [hstart] at hadd
    cases hreusable : σ.allocator.reusable with
    | some m =>
        rw [addMeta_reuse _ _ hreusable] at hadd
        cases hadd
        exact iff_of_true (hshape.splitFits_reuse hp hlarger hreusable)
          (Or.inl (Option.some_ne_none _))
    | none =>
        have hlast := hshape.last
        have hlow := hshape.placed.buf_low
        rw [addMeta_new hshape.placed _ _ hreusable (by omega)] at hadd
        by_cases hfull : σ.allocator.metas - 32 ≤ σ.allocator.buf + σ.allocator.offs
          σ.allocator.lastFree
        · rw [if_pos hfull] at hadd
          cases hadd
        · rw [if_neg hfull] at hadd
          cases hadd
          rw [hshape.splitFits_new hp hlarger (by omega)]
          simp

theorem split_fits_roomy : ∃ s s₁ s₂ mi, create (fun _ ↦ 0) 4096 8192 256 = .returned () s ∧
    s.alloc 24 = .returned ⟨1⟩ s₁ ∧
    s₁.addMeta (wrap (s₁.buf + s₁.offs s₁.lastFree)) (units 24) = .returned mi s₂ ∧
    s₂.SplitFits mi s₁.lastFree (units 24) := by
  have hcheck : (create (fun _ ↦ 0) 4096 8192 256).checks (fun _ s ↦ servesLast s (units 24) &&
      (s.alloc 24).checks fun p s₁ ↦ decide (p = ⟨1⟩ ∧ servesLast s₁ (units 24) = true ∧
          units 24 < s₁.getSize s₁.lastFree ∧
          s₁.buf + s₁.offs s₁.lastFree + 8 * units 24 + 8 ≤ s₁.metas - 32) &&
        (s₁.addMeta (wrap (s₁.buf + s₁.offs s₁.lastFree)) (units 24)).checks fun _ _ ↦ true) =
          true := by
    decide +kernel
  obtain ⟨⟨⟩, s, hcreate, hs⟩ := Outcome.exists_of_checks hcheck
  rw [Bool.and_eq_true] at hs
  obtain ⟨p, s₁, halloc, hs₁⟩ := Outcome.exists_of_checks hs.2
  rw [Bool.and_eq_true, decide_eq_true_iff] at hs₁
  obtain ⟨⟨rfl, hserves, hlarger, hroom⟩, hadd⟩ := hs₁
  obtain ⟨mi, s₂, hadd, -⟩ := Outcome.exists_of_checks hadd
  have hstep : Step ⟨s, []⟩ (.alloc 24) ⟨s₁, [] ++ Pointer.held ⟨1⟩⟩ := Step.alloc halloc
  rw [held_of_ne (by decide)] at hstep
  have hrun : Run (Guarded Careful Step) ⟨s, []⟩ [.alloc 24] ⟨s₁, [1]⟩ :=
    Run.single ⟨allocatable_of_servesLast hs.1, hstep⟩
  have hfit : s₁.FirstFit (units 24) s₁.lastFree :=
    (firstFit_of_servesLast hserves).mpr ⟨rfl, hlarger⟩
  exact ⟨s, s₁, s₂, mi, hcreate, halloc, hadd,
    (split_fits_iff (suitable_example 256 (by decide) (by decide)) hcreate hrun hfit hlarger
      hadd).2.mpr (Or.inr hroom)⟩

/-- Eight units serve a request for seven before `addMeta` takes four of them. -/
theorem split_wraps : ∃ s mi s₁, create (fun _ ↦ 0) 4096 8192 96 = .returned () s ∧
    s.FirstFit (units 48) s.lastFree ∧ units 48 < s.getSize s.lastFree ∧
    s.addMeta (wrap (s.buf + s.offs s.lastFree)) (units 48) = .returned mi s₁ ∧
    ¬s₁.SplitFits mi s.lastFree (units 48) := by
  have hcheck : (create (fun _ ↦ 0) 4096 8192 96).checks
      (fun _ s ↦ decide (s.next s.head = s.lastFree ∧
      s.lastFree ≠ 0 ∧ s.next s.lastFree = 0 ∧ units 48 < s.getSize s.lastFree) &&
        (s.addMeta (wrap (s.buf + s.offs s.lastFree)) (units 48)).checks fun mi s₁ ↦
          decide (s₁.remainderSize mi s.lastFree (units 48) < units 48)) = true := by decide +kernel
  obtain ⟨⟨⟩, s, hcreate, hs⟩ := Outcome.exists_of_checks hcheck
  rw [Bool.and_eq_true, decide_eq_true_iff] at hs
  obtain ⟨⟨hhead, hpos, hnext, hlarger⟩, hadd⟩ := hs
  obtain ⟨mi, s₁, hadd, hwraps⟩ := Outcome.exists_of_checks hadd
  have hfit := (firstFit_single (chain_lastFree hhead hpos hnext)).mpr ⟨rfl, Nat.le_of_lt hlarger⟩
  refine ⟨s, mi, s₁, hcreate, hfit, hlarger, hadd, fun hfits ↦ ?_⟩
  exact Nat.lt_irrefl _ (Nat.lt_of_lt_of_le (of_decide_eq_true hwraps) hfits.size)

end Session

end CppMtHw.Allocation
