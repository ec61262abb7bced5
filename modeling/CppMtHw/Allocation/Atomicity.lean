import CppMtHw.Allocation.Allocator
import Mathlib.Tactic.SplitIfs

/-!
# Failed allocations

`alloc` throws before it assigns anything. `realloc` frees first, so when its allocation
throws, a block it was given is gone.
-/

namespace CppMtHw.Allocation

open Machine

namespace Allocator

variable {s s' : Allocator} {n N p start fuel : ℕ}

theorem addMeta_threw (h : s.addMeta start n = .threw s') : s' = s := by
  rw [addMeta] at h
  cases hreusable : s.reusable with
  | some mi =>
      rw [hreusable] at h
      cases h
  | none =>
      rw [hreusable] at h
      by_cases hfull : usub s.metas 32 ≤ wrap (s.buf + s.offs (s.getMeta 0))
      · simp only [if_pos hfull] at h
        cases h
        rfl
      · simp only [if_neg hfull] at h
        cases h

theorem allocLoop_threw (h : s.allocLoop n fuel p = .threw s') : s' = s := by
  induction fuel generalizing p with
  | zero => cases h
  | succ fuel ih =>
      rw [allocLoop] at h
      by_cases hnull : p = 0
      · rw [if_pos hnull] at h
        cases h
        rfl
      · rw [if_neg hnull] at h
        by_cases hexact : s.getSize p = n
        · simp only [if_pos hexact] at h
          cases h
        · by_cases hfit : n ≤ s.getSize p
          · simp only [if_neg hexact, if_pos hfit] at h
            cases hadd : s.addMeta (wrap (s.buf + s.offs p)) n with
            | returned mi s₁ =>
                rw [hadd] at h
                cases h
            | threw s₁ =>
                rw [hadd] at h
                cases h
                exact addMeta_threw hadd
            | diverged =>
                rw [hadd] at h
                cases h
          · simp only [if_neg hexact, if_neg hfit] at h
            exact ih h

/-- `alloc` that throws leaves everything as it was. -/
theorem alloc_threw (h : s.alloc N = .threw s') : s' = s := allocLoop_threw h

/-- `free` of a `Pointer` to a block that returns has reset it. -/
theorem free_returned {p q : Pointer} (hget : p.get s ≠ 0) (h : s.free p = .returned q s') :
    q = .null := by
  rw [free, if_neg hget] at h
  simp only [] at h
  split at h
  · cases h
  · cases h
    rfl

/-- A failed allocation changes nothing, except that `realloc` loses a block that it was given. -/
theorem failed_allocation_atomic_iff (s : Allocator) (p : Pointer) (N : ℕ) :
    (∀ s', s.alloc N = .threw s' → s' = s) ∧
      ∀ s' q, s.realloc p N = (.threw s', q) → (s' = s ∧ q = p ↔ p.get s = 0) := by
  refine ⟨fun s' h ↦ alloc_threw h, fun s' q h ↦ ?_⟩
  rw [realloc] at h
  cases hfree : s.free p with
  | returned r s₁ =>
      simp only [hfree] at h
      cases halloc : s₁.alloc N with
      | returned t s₂ =>
          simp only [halloc] at h
          cases h
      | threw s₂ =>
          simp only [halloc] at h
          cases h
          have hsame := alloc_threw halloc
          constructor
          · rintro ⟨-, hkept⟩
            by_contra hget
            have hnull : q = .null := free_returned hget hfree
            exact hget (hkept ▸ hnull ▸ Pointer.get_null s)
          · intro hget
            rw [free_of_get_eq_zero hget] at hfree
            cases hfree
            exact ⟨hsame, rfl⟩
      | diverged =>
          simp only [halloc] at h
          cases h
  | threw s₁ =>
      rw [free] at hfree
      by_cases hget : p.get s = 0
      · rw [if_pos hget] at hfree
        cases hfree
      · rw [if_neg hget] at hfree
        simp only [] at hfree
        split at hfree <;> cases hfree
  | diverged =>
      simp only [hfree] at h
      cases h

theorem failed_allocation_atomic_empty :
    ∃ s s' q, create (fun _ ↦ 0) 4096 8192 256 = .returned () s ∧
    s.realloc .null 1000 = (.threw s', q) ∧ s' = s ∧ q = .null := by
  have hcheck : (create (fun _ ↦ 0) 4096 8192 256).checks (fun _ s ↦
      match s.realloc .null 1000 with | (.threw _, _) => true | _ => false) = true := by
        decide +kernel
  obtain ⟨⟨⟩, s, hcreate, hs⟩ := Outcome.exists_of_checks hcheck
  split at hs
  · rename_i s' q hrealloc
    exact ⟨s, s', q, hcreate, hrealloc,
      ((failed_allocation_atomic_iff s .null 1000).2 s' q hrealloc).mpr (Pointer.get_null s)⟩
  · cases hs

/-- A request that is too large costs `realloc` the block. -/
theorem realloc_loses_block : ∃ s s₁, create (fun _ ↦ 0) 4096 8192 256 = .returned () s ∧
    s.alloc 24 = .returned ⟨1⟩ s₁ ∧
    ¬∀ s' q, s₁.realloc ⟨1⟩ 1000 = (.threw s', q) → s' = s₁ ∧ q = ⟨1⟩ := by
  have hcheck : (create (fun _ ↦ 0) 4096 8192 256).checks (fun _ s ↦ (s.alloc 24).checks fun p s₁ ↦
      decide (p = ⟨1⟩) && match s₁.realloc ⟨1⟩ 1000 with
        | (.threw _, q) => decide (q = .null)
        | _ => false) = true := by decide +kernel
  obtain ⟨⟨⟩, s, hcreate, hs⟩ := Outcome.exists_of_checks hcheck
  obtain ⟨p, s₁, halloc, hs₁⟩ := Outcome.exists_of_checks hs
  rw [Bool.and_eq_true, decide_eq_true_iff] at hs₁
  obtain ⟨rfl, hs₁⟩ := hs₁
  refine ⟨s, s₁, hcreate, halloc, fun hatomic ↦ ?_⟩
  split at hs₁
  · rename_i s' q hrealloc
    have hkept := (hatomic s' q hrealloc).2
    rw [of_decide_eq_true hs₁] at hkept
    exact absurd hkept (by decide)
  · cases hs₁

end Allocator

end CppMtHw.Allocation
