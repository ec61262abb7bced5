import CppMtHw.Allocation.Integrity

/-!
# Reallocating a block

`realloc` frees the block before it allocates the new one, and then copies as many bytes
as the new payload has. A block that does not grow stays where it is and keeps its bytes.
For a block that grows, `memmove` reads behind the old one. The block has room for the
request, except for the largest sizes, for which the number of units wraps.
-/

namespace CppMtHw.Allocation

open Machine Allocator

def Pointer.payloadSize (p : Pointer) (s : Allocator) : ℕ :=
  if p.get s = 0 then 0 else 8 * (s.getSize (s.getMeta p.idx) - 1)

/-- The addresses from which the `memmove` in `realloc(p, N)` reads. -/
def Allocator.MoveReads (s : Allocator) (p : Pointer) (N x : ℕ) : Prop :=
  p.get s ≠ 0 ∧ p.get s ≤ x ∧ x < p.get s + (units N - 1) * 8

namespace Allocator

variable {s s' : Allocator} {p q : Pointer} {N : ℕ}

/-- The steps of a `realloc` that returns. -/
theorem realloc_returned (h : s.realloc p N = (.returned () s', q)) :
    ∃ r s₁ s₂, s.free p = .returned r s₁ ∧ s₁.alloc N = .returned q s₂ ∧
      s' = if p.get s ≠ 0 then
          { s₂ with mem := s₂.mem.move (q.get s₂) (p.get s) ((units N - 1) * 8) }
        else s₂ := by
  rw [realloc] at h
  cases hfree : s.free p with
  | returned r s₁ =>
      simp only [hfree] at h
      cases halloc : s₁.alloc N with
      | returned t s₂ =>
          simp only [halloc] at h
          cases h
          exact ⟨r, s₁, s₂, rfl, halloc, rfl⟩
      | threw s₂ =>
          simp only [halloc] at h
          cases h
      | diverged =>
          simp only [halloc] at h
          cases h
  | threw s₁ =>
      simp only [hfree] at h
      cases h
  | diverged =>
      simp only [hfree] at h
      cases h

/-- A block for `N` bytes has room for them, unless `N` is so large that the number of units
wraps. -/
theorem le_units (hN : N + 7 < 2 ^ 64) : N ≤ 8 * (units N - 1) := by
  rw [units, wrap, Nat.mod_eq_of_lt hN]
  omega

/-- The largest sizes get one unit, which is the header. -/
theorem le_units_iff (hN : N < 2 ^ 64) : N ≤ 8 * (units N - 1) ↔ N + 7 < 2 ^ 64 := by
  refine ⟨fun hle ↦ ?_, le_units⟩
  by_contra hlarge
  have hsmall : wrap (N + 7) < 8 := by
    rw [wrap]
    omega
  have hone : units N = 1 := by
    rw [units, Nat.div_eq_of_lt hsmall]
  rw [hone] at hle
  omega

end Allocator

namespace Session

variable {σ : Session} {s s' : Allocator} {mem : Bytes} {object base size : ℕ} {calls : List Call}
  {blocks frees : List ℕ} {p q : Pointer} {N : ℕ}

/-- The payload is kept as far as both blocks go, the other held blocks are left alone, and
`memmove` reads bytes of the old block only. -/
structure PreservesData (σ : Session) (s' : Allocator) (p q : Pointer) (N : ℕ) : Prop where
  payload : ∀ j, j < min (p.payloadSize σ.allocator) N →
    s'.mem (q.get s' + j) = σ.allocator.mem (p.get σ.allocator + j)
  others : ∀ i ∈ σ.live, i ≠ p.idx → Undisturbed σ ⟨s', σ.live.erase p.idx ++ q.held⟩ i
  reads : ∀ x, σ.allocator.MoveReads p N x →
    p.get σ.allocator ≤ x ∧ x < p.get σ.allocator + p.payloadSize σ.allocator

namespace Holds

/-- With nothing to copy, `realloc` is `alloc`. -/
theorem realloc_empty (h : σ.Holds blocks frees) (hcareful : σ.Careful (.realloc .null N))
    (hreturned : σ.allocator.realloc .null N = (.returned () s', q)) :
    ∀ live, ∀ i ∈ σ.live, Undisturbed σ ⟨s', live⟩ i := by
  obtain ⟨hfree, -⟩ := h.free_null
  obtain ⟨r, s₁, s₂, hfree', halloc, hmove⟩ := realloc_returned hreturned
  cases hfree'.symm.trans hfree
  rw [Pointer.get_null, if_neg (not_not.mpr rfl)] at hmove
  rw [hmove]
  rcases h.alloc_call (hcareful.2 _ _ hfree) with hthrew | ⟨t, s₃, halloc', -, -, -, hkept⟩
  · cases halloc.symm.trans hthrew
  · cases halloc.symm.trans halloc'
    exact hkept

/-- A block that does not grow is the first fit for itself. -/
theorem realloc_in_place (h : σ.Holds blocks frees) (hi : p.idx ∈ σ.live)
    (hcareful : σ.Careful (.realloc p N))
    (hreturned : σ.allocator.realloc p N = (.returned () s', q))
    (hle : units N ≤ σ.allocator.getSize (σ.allocator.getMeta p.idx)) :
    q.get s' = p.get σ.allocator ∧
      (∀ j < 8 * (units N - 1), s'.mem (p.get σ.allocator + j) = σ.allocator.mem
        (p.get σ.allocator + j)) ∧
      ∀ live, ∀ i ∈ σ.live.erase p.idx, Undisturbed σ ⟨s', live⟩ i := by
  obtain ⟨hblock, hocc⟩ := h.block hi
  have hne := h.ne_null hi
  obtain ⟨hsource, hsource0⟩ := h.shape.get_ne_zero hblock hne rfl
  obtain ⟨r, s₁, s₂, hfree, halloc, rfl⟩ := realloc_returned hreturned
  obtain ⟨s₁', blocks₁, run, hfree', hholds₁, hframe, hkept, hfreed⟩ :=
    h.free_block hi (hcareful.1.resolve_left fun hnull ↦ hne (hnull ▸ rfl))
  cases hfree.symm.trans hfree'
  rcases hholds₁.alloc_block (hcareful.2 _ _ hfree) with
    hthrew | ⟨t, s₂', blocks₂, frees₂, b, halloc', hheld, hholds₂, -, hkept', hfit, hcarved⟩
  · cases halloc.symm.trans hthrew
  · cases halloc.symm.trans halloc'
    -- the freed block is in front of the list, and no smaller than it was
    obtain rfl := hfit.eq_first hholds₁.shape.chain.1 (Nat.le_trans hle hfreed.size)
    have hq : q.idx ∈ σ.live.erase p.idx ++ q.held := by
      rw [hheld]
      simp
    have hget : q.get s₂ = p.get σ.allocator := by
      rw [Pointer.get, if_neg (hholds₂.ne_null hq), hholds₂.get_eq hq, hsource]
      show s₂.buf + s₂.offs (s₂.getMeta q.idx) + 8 = _
      rw [hcarved.origin, hfreed.offs, hcarved.buf, hframe.buf]
    rw [if_pos hsource0, hget, Bytes.move_self]
    refine ⟨hget, fun j hj ↦ ?_, fun live i hi ↦ (hkept _ i hi).trans (hkept' live i hi)⟩
    have hstart : s₁.buf + s₁.offs (σ.allocator.getMeta p.idx) =
        σ.allocator.buf + σ.allocator.offs (σ.allocator.getMeta p.idx) := by
      rw [hframe.buf, hfreed.offs]
    have hpayload : ∀ x, s₁.buf + s₁.offs (σ.allocator.getMeta p.idx) + 8 ≤ x →
        x < s₁.buf + s₁.offs (σ.allocator.getMeta p.idx) + 8 * units N → s₂.mem x = s₁.mem x :=
          hcarved.payload
    have hpos := units_pos N
    calc s₂.mem (p.get σ.allocator + j) = s₁.mem (p.get σ.allocator + j) :=
          hpayload _ (by omega) (by omega)
      _ = σ.allocator.mem (p.get σ.allocator + j) :=
          hframe.mem _ (h.shape.not_managed hblock (by omega) (by omega))

end Holds

/-- What `memmove` reads is as long as the new payload. -/
theorem Holds.reads_iff (h : σ.Holds blocks frees) (howned : σ.Owned p) :
    (∀ x, σ.allocator.MoveReads p N x →
      p.get σ.allocator ≤ x ∧ x < p.get σ.allocator + p.payloadSize σ.allocator) ↔
    p.get σ.allocator = 0 ∨ units N ≤ σ.allocator.getSize (σ.allocator.getMeta p.idx) := by
  by_cases hnull : p.get σ.allocator = 0
  · simp [hnull, Allocator.MoveReads]
  · have hi : p.idx ∈ σ.live := by
      apply howned.resolve_left
      rintro rfl
      exact hnull (Pointer.get_null _)
    have hsize := (h.shape.bounds (h.block hi).1).1
    rw [Pointer.payloadSize, if_neg hnull]
    simp only [hnull, false_or]
    constructor
    · intro hreads
      by_contra hgrow
      have hlast := hreads (p.get σ.allocator +
        8 * (σ.allocator.getSize (σ.allocator.getMeta p.idx) - 1))
        ⟨hnull, Nat.le_add_right _ _, by omega⟩
      exact Nat.lt_irrefl _ hlast.2
    · rintro hle x ⟨-, hx, hlt⟩
      exact ⟨hx, by omega⟩

/-- After careful calls, a careful `realloc` that returns preserves the data if the block does not
grow, and reads foreign bytes if it does. -/
theorem realloc_preserves_data (h : Suitable object base size)
    (hcreate : create mem object base size = .returned () s)
    (hrun : Run (Guarded Careful Step) ⟨s, []⟩ calls σ) (howned : σ.Owned p)
    (hcareful : σ.Careful (.realloc p N))
    (hreturned : σ.allocator.realloc p N = (.returned () s', q)) :
    (p.get σ.allocator = 0 ∨ units N ≤ σ.allocator.getSize (σ.allocator.getMeta p.idx) ∧
      (N + 7 < 2 ^ 64 ∨ p.payloadSize σ.allocator = 0) → σ.PreservesData s' p q N) ∧
    (σ.PreservesData s' p q N →
      p.get σ.allocator = 0 ∨ units N ≤ σ.allocator.getSize (σ.allocator.getMeta p.idx)) := by
  obtain ⟨blocks, frees, hholds⟩ := Invariant.run h hcreate hrun
  refine ⟨fun hcond ↦ ?_, fun hpreserves ↦ (hholds.reads_iff howned).mp hpreserves.reads⟩
  have hreads := (hholds.reads_iff (N := N) howned).mpr (hcond.imp_right And.left)
  rcases howned with rfl | hi
  · have hkept := hholds.realloc_empty hcareful hreturned
    refine ⟨fun j hj ↦ ?_, fun i hi _ ↦ hkept _ i hi, hreads⟩
    rw [Pointer.payloadSize, if_pos (Pointer.get_null _), Nat.zero_min] at hj
    exact absurd hj (Nat.not_lt_zero j)
  · have hsource := (hholds.shape.get_ne_zero (hholds.block hi).1 (hholds.ne_null hi) rfl).2
    obtain ⟨hle, hsmall⟩ := hcond.resolve_left hsource
    obtain ⟨hget, hbytes, hkept⟩ := hholds.realloc_in_place hi hcareful hreturned hle
    refine ⟨fun j hj ↦ ?_,
      fun i hi' hne ↦ hkept _ i (hholds.nodup.mem_erase_iff.mpr ⟨hne, hi'⟩), hreads⟩
    have hN : j < 8 * (units N - 1) := by
      rcases hsmall with hN | hempty
      · have := le_units hN
        omega
      · omega
    rw [hget]
    exact hbytes j hN

theorem realloc_preserves_data_smaller :
    ∃ s s₁ s₂ s₃, create (fun _ ↦ 0) 4096 8192 256 = .returned () s ∧
    s.alloc 24 = .returned ⟨1⟩ s₁ ∧ s₁.alloc 24 = .returned ⟨2⟩ s₂ ∧
    s₂.realloc ⟨1⟩ 20 = (.returned () s₃, ⟨1⟩) ∧ PreservesData ⟨s₂, [1, 2]⟩ s₃ ⟨1⟩ ⟨1⟩ 20 := by
  have hcheck : (create (fun _ ↦ 0) 4096 8192 256).checks (fun _ s ↦ servesLast s (units 24) &&
      (s.alloc 24).checks fun p s₁ ↦ decide (p = ⟨1⟩) && (servesLast s₁ (units 24) &&
        (s₁.alloc 24).checks fun q s₂ ↦ decide (q = ⟨2⟩ ∧ s₂.isOccupied
            (s₂.header (s₂.buf + (s₂.offs (s₂.getMeta 1) + 8 * s₂.getSize (s₂.getMeta 1)))) ∧
            units 20 ≤ s₂.getSize (s₂.getMeta 1) ∧ (s₂.realloc ⟨1⟩ 20).2 = ⟨1⟩) &&
          ((s₂.realloc ⟨1⟩ 20).1.checks fun _ _ ↦ true) && (s₂.free ⟨1⟩).checks fun _ s ↦
            decide (s.next s.head ≠ 0 ∧ s.getSize (s.next s.head) = units 20 ∧
              s.prev (s.next s.head) ≠ 0))) =
      true := by decide +kernel
  obtain ⟨⟨⟩, s, hcreate, hs⟩ := Outcome.exists_of_checks hcheck
  rw [Bool.and_eq_true] at hs
  obtain ⟨p, s₁, halloc, hs₁⟩ := Outcome.exists_of_checks hs.2
  rw [Bool.and_eq_true, Bool.and_eq_true, decide_eq_true_iff] at hs₁
  obtain ⟨rfl, hserves, hsecond⟩ := hs₁
  obtain ⟨q, s₂, halloc', hs₂⟩ := Outcome.exists_of_checks hsecond
  rw [Bool.and_eq_true, Bool.and_eq_true, decide_eq_true_iff] at hs₂
  obtain ⟨⟨⟨rfl, hocc, hle, hpointer⟩, hrealloc⟩, hfree⟩ := hs₂
  obtain ⟨⟨⟩, s₃, hrealloc, -⟩ := Outcome.exists_of_checks hrealloc
  obtain ⟨r, s', hfree, hs'⟩ := Outcome.exists_of_checks hfree
  obtain ⟨hhead, hsize, hprev⟩ := of_decide_eq_true hs'
  have hreturned : s₂.realloc ⟨1⟩ 20 = (.returned () s₃, ⟨1⟩) := Prod.ext hrealloc hpointer
  have hrun : Run (Guarded Careful Step) ⟨s, []⟩ [.alloc 24, .alloc 24] ⟨s₂, [1, 2]⟩ :=
    run_two (fun _ ↦ allocatable_of_servesLast) hs.1 halloc hserves halloc'
  have hcareful : Careful ⟨s₂, [1, 2]⟩ (.realloc ⟨1⟩ 20) := by
    refine ⟨Or.inr (mergeable_of_occupied hocc), fun q t hreturned' ↦ ?_⟩
    cases hfree.symm.trans hreturned'
    exact allocatable_of_exact hhead hsize hprev
  exact ⟨s, s₁, s₂, s₃, hcreate, halloc, halloc', hreturned,
    (realloc_preserves_data (suitable_example 256 (by decide) (by decide)) hcreate hrun
      (Or.inr List.mem_cons_self) hcareful hreturned).1 (Or.inr ⟨hle, Or.inl (by decide)⟩)⟩

/-- The copy for a block that grows is longer than the old payload. -/
theorem realloc_reads_foreign_bytes :
    ∃ s σ s' q, create (fun _ ↦ 0) 4096 8192 256 = .returned () s ∧
    Run Step ⟨s, []⟩ [.alloc 8] σ ∧ 1 ∈ σ.live ∧ σ.allocator.realloc ⟨1⟩ 24 = (.returned () s', q) ∧
    ¬PreservesData σ s' ⟨1⟩ q 24 := by
  have hcheck : checksRun 256 [.alloc 8]
      (fun σ ↦ decide (1 ∈ σ.live ∧ Pointer.get ⟨1⟩ σ.allocator ≠ 0 ∧
      Pointer.payloadSize ⟨1⟩ σ.allocator = 8) && (σ.allocator.realloc ⟨1⟩ 24).1.checks
        fun _ _ ↦ true) =
      true := by decide +kernel
  obtain ⟨s, σ, hcreate, hrun, hσ⟩ := exists_of_checksRun hcheck
  rw [Bool.and_eq_true, decide_eq_true_iff] at hσ
  obtain ⟨⟨hlive, hget, hpayload⟩, hrealloc⟩ := hσ
  obtain ⟨⟨⟩, s', hrealloc, -⟩ := Outcome.exists_of_checks hrealloc
  refine ⟨s, σ, s', _, hcreate, hrun, hlive, Prod.ext hrealloc rfl, fun hpreserves ↦ ?_⟩
  have hread : σ.allocator.MoveReads ⟨1⟩ 24 (Pointer.get ⟨1⟩ σ.allocator + 8) := by
    refine ⟨hget, Nat.le_add_right _ _, Nat.add_lt_add_left ?_ _⟩
    decide
  have hinside := (hpreserves.reads _ hread).2
  omega

/-! ## Room for the request -/

/-- The payload of a block of as many units as `alloc(N)` asks for. -/
theorem Holds.payloadSize_eq (h : Holds ⟨s', σ.live⟩ blocks frees) (hq : q.idx ∈ σ.live)
    (hsize : s'.getSize (s'.getMeta q.idx) = units N) : q.payloadSize s' = 8 * (units N - 1) := by
  have hne := (h.shape.get_ne_zero (p := q) (h.block hq).1 (h.ne_null hq) rfl).2
  rw [Pointer.payloadSize, if_neg hne]
  exact congrArg (fun n ↦ 8 * (n - 1)) hsize

/-- The block that `alloc` returns has the units asked for. -/
theorem Invariant.alloc_payloadSize (h : σ.Invariant) (hcareful : σ.Careful (.alloc N))
    (hreturned : σ.allocator.alloc N = .returned q s') : q.payloadSize s' = 8 * (units N - 1) := by
  obtain ⟨blocks, frees, hholds⟩ := h
  rcases hholds.alloc_block hcareful with
    hthrew | ⟨t, s₁, blocks₁, frees₁, b, hreturned', hheld, hholds₁, hsize, -⟩
  · cases hreturned.symm.trans hthrew
  · cases hreturned.symm.trans hreturned'
    have hq : q.idx ∈ σ.live ++ q.held := by
      rw [hheld]
      simp
    exact Holds.payloadSize_eq (σ := ⟨s', σ.live ++ q.held⟩) hholds₁ hq hsize

/-- The copy of `realloc` leaves the size of the new block alone. -/
theorem Invariant.realloc_payloadSize (h : σ.Invariant) (howned : σ.Owned p)
    (hcareful : σ.Careful (.realloc p N))
    (hreturned : σ.allocator.realloc p N = (.returned () s', q)) :
    q.payloadSize s' = 8 * (units N - 1) := by
  obtain ⟨blocks, frees, hholds⟩ := h
  obtain ⟨r, s₁, s₂, hfree, halloc, hmove⟩ := realloc_returned hreturned
  obtain ⟨s₁', hfree', hinvariant, -⟩ := hholds.free_call howned hcareful.1
  cases hfree.symm.trans hfree'
  obtain ⟨blocks₁, frees₁, hholds₁⟩ := hinvariant
  rcases hholds₁.alloc_block (hcareful.2 _ _ hfree) with
    hthrew | ⟨t, s₂', blocks₂, frees₂, b, halloc', hheld, hholds₂, hsize, -⟩
  · cases halloc.symm.trans hthrew
  · cases halloc.symm.trans halloc'
    have hq : q.idx ∈ σ.live.erase p.idx ++ q.held := by
      rw [hheld]
      simp
    by_cases hsource : p.get σ.allocator = 0
    · rw [hmove, if_neg (not_not.mpr hsource)]
      exact Holds.payloadSize_eq (σ := ⟨s₂, σ.live.erase p.idx ++ q.held⟩) hholds₂ hq hsize
    · rw [hmove, if_pos hsource]
      have hblock := (hholds₂.block hq).1
      have hframe := hholds₂.frame_move hq (p.get σ.allocator) hsize
      have hinfo := (hholds₂.shape.payload hblock hframe).2 _ (hholds₂.shape.slot hblock)
      have hkept := congrArg (fun info : Info ↦ info.size % signMask) hinfo
      exact Holds.payloadSize_eq (σ := ⟨_, σ.live.erase p.idx ++ q.held⟩)
        (hholds₂.payload hblock hframe) hq (hkept.trans hsize)

/-- After careful calls, the block that a careful `alloc` or `realloc` returns has room for the
request exactly if the request is at most `2 ^ 64 - 8`. -/
theorem payload_fits_iff (h : Suitable object base size)
    (hcreate : create mem object base size = .returned () s)
    (hrun : Run (Guarded Careful Step) ⟨s, []⟩ calls σ) (hN : N < 2 ^ 64) :
    (σ.Careful (.alloc N) → ∀ q s', σ.allocator.alloc N = .returned q s' →
      (N ≤ q.payloadSize s' ↔ N + 7 < 2 ^ 64)) ∧
    ∀ p, σ.Owned p → σ.Careful (.realloc p N) →
      ∀ q s', σ.allocator.realloc p N = (.returned () s', q) →
      (N ≤ q.payloadSize s' ↔ N + 7 < 2 ^ 64) := by
  have hinvariant := Invariant.run h hcreate hrun
  constructor
  · intro hcareful q s' hreturned
    rw [hinvariant.alloc_payloadSize hcareful hreturned]
    exact le_units_iff hN
  · intro p howned hcareful q s' hreturned
    rw [hinvariant.realloc_payloadSize howned hcareful hreturned]
    exact le_units_iff hN

theorem payload_fits_one : ∃ s q s', create (fun _ ↦ 0) 4096 8192 256 = .returned () s ∧
    s.alloc 24 = .returned q s' ∧ 24 ≤ q.payloadSize s' := by
  have hcheck : (create (fun _ ↦ 0) 4096 8192 256).checks (fun _ s ↦
      servesLast s (units 24) && (s.alloc 24).checks fun _ _ ↦ true) = true := by decide +kernel
  obtain ⟨⟨⟩, s, hcreate, hs⟩ := Outcome.exists_of_checks hcheck
  rw [Bool.and_eq_true] at hs
  obtain ⟨q, s', halloc, -⟩ := Outcome.exists_of_checks hs.2
  have hrun : Run (Guarded Careful Step) ⟨s, []⟩ [] ⟨s, []⟩ := Run.nil _
  have hN : 24 < 2 ^ 64 := by decide
  have hfits := payload_fits_iff (suitable_example 256 (by decide) (by decide)) hcreate hrun hN
  exact ⟨s, q, s', hcreate, halloc,
    (hfits.1 (allocatable_of_servesLast hs.1) q s' halloc).mpr (by decide)⟩

/-- The number of units for the largest size wraps, and the block has no payload. -/
theorem payload_empty : ∃ s q s', create (fun _ ↦ 0) 4096 8192 256 = .returned () s ∧
    s.alloc (2 ^ 64 - 1) = .returned q s' ∧ q.payloadSize s' < 2 ^ 64 - 1 := by
  have hcheck : (create (fun _ ↦ 0) 4096 8192 256).checks (fun _ s ↦
      (s.alloc (2 ^ 64 - 1)).checks fun q s' ↦ decide (q.payloadSize s' = 0)) = true := by
        decide +kernel
  obtain ⟨⟨⟩, s, hcreate, hs⟩ := Outcome.exists_of_checks hcheck
  obtain ⟨q, s', halloc, hempty⟩ := Outcome.exists_of_checks hs
  refine ⟨s, q, s', hcreate, halloc, ?_⟩
  rw [of_decide_eq_true hempty]
  decide

end Session

end CppMtHw.Allocation
