import Mathlib.Algebra.BigOperators.Group.Finset.Basic
import Mathlib.Algebra.BigOperators.Ring.List
import Mathlib.Algebra.GroupWithZero.Nat
import Mathlib.Algebra.Ring.Nat
import Mathlib.Data.Nat.Cast.Basic
import CppMtHw.Machine.Transition

/-!
# Runs paid for in advance

A label brings a budget, a potential says how much of what has been brought is left, and
every step is paid for from the two. So a run is no longer than what was there at its
beginning and has been brought on the way. A step that takes nothing from the potential
may be paid for by a second, bounded quantity, which the other steps fill up again.
-/

namespace CppMtHw.Machine

variable {S L : Type*} {step : S → L → S → Prop} {P : S → Prop} {s t : S} {labels : List L}

/-- If every step costs no more than it takes from the potential and its label brings, so does a
run. -/
theorem Run.amortized {potential : S → ℕ} {cost budget : L → ℕ} (hrun : Run step s labels t)
    (hinit : P s) (hkept : ∀ s label t, P s → step s label t → P t)
    (hpaid : ∀ s label t, P s → step s label t →
      cost label + potential t ≤ potential s + budget label) :
    (labels.map cost).sum + potential t ≤ potential s + (labels.map budget).sum := by
  induction hrun with
  | nil => simp
  | snoc hrun hlast ih =>
      have hstep := hpaid _ _ _ (hrun.invariant hinit hkept) hlast
      simp only [List.map_append, List.sum_append, List.map_singleton, List.sum_singleton]
      omega

/-- Every step takes from the potential and the budget of its label, or leaves them and takes from a
second quantity, which is at most `bound`. -/
theorem Run.length_le {potential credit : S → ℕ} {budget : L → ℕ} {bound : ℕ}
    (hrun : Run step s labels t) (hinit : P s) (hkept : ∀ s label t, P s → step s label t → P t)
    (hbound : ∀ s, P s → credit s ≤ bound) (hpaid : ∀ s label t, P s → step s label t →
      potential t < potential s + budget label ∨
      (potential t ≤ potential s ∧ credit t < credit s)) :
    labels.length ≤ (bound + 1) * (potential s + (labels.map budget).sum) + credit s := by
  let total : S → ℕ := fun s ↦ (bound + 1) * potential s + credit s
  have hsum : (labels.map fun _ ↦ 1).sum + total t ≤
      total s + (labels.map fun label ↦ (bound + 1) * budget label).sum := by
    apply hrun.amortized hinit hkept
    intro s label t hs hstep
    have ht := hbound t (hkept s label t hs hstep)
    rcases hpaid s label t hs hstep with hfirst | ⟨hfirst, hsecond⟩
    · have hscaled : (bound + 1) * (potential t + 1) ≤ (bound + 1) * (potential s + budget label) :=
        Nat.mul_le_mul_left _ hfirst
      rw [Nat.mul_add, Nat.mul_add, Nat.mul_one] at hscaled
      show 1 + ((bound + 1) * potential t + credit t) ≤
        (bound + 1) * potential s + credit s + (bound + 1) * budget label
      omega
    · have hscaled : (bound + 1) * potential t ≤ (bound + 1) * potential s :=
        Nat.mul_le_mul_left _ hfirst
      show 1 + ((bound + 1) * potential t + credit t) ≤
        (bound + 1) * potential s + credit s + (bound + 1) * budget label
      omega
  have hlength : (labels.map fun _ ↦ 1).sum = labels.length := by simp
  rw [List.sum_map_mul_left, hlength] at hsum
  calc
    labels.length ≤ total s + (bound + 1) * (labels.map budget).sum := by omega
    _ = (bound + 1) * potential s + credit s + (bound + 1) * (labels.map budget).sum := rfl
    _ = (bound + 1) * (potential s + (labels.map budget).sum) + credit s := by
      rw [Nat.mul_add]
      omega

/-- One of the places that contribute to a sum is assigned. -/
theorem sum_update_add {ι α : Type*} [DecidableEq ι] (places : Finset ι) (f : ι → α)
    (weight : α → ℕ) {i : ι} (hi : i ∈ places) (x : α) :
    ∑ j ∈ places, weight (Function.update f i x j) + weight (f i) = ∑ j ∈ places,
    weight (f j) + weight x := by
  have hothers : ∑ j ∈ places.erase i, weight (Function.update f i x j) = ∑ j ∈ places.erase i,
      weight (f j) := by
    apply Finset.sum_congr rfl
    intro j hj
    rw [Function.update_of_ne (Finset.ne_of_mem_erase hj)]
  calc
    _ = weight x + ∑ j ∈ places.erase i, weight (f j) + weight (f i) := by
      rw [← Finset.add_sum_erase places _ hi, hothers, Function.update_self]
    _ = weight (f i) + ∑ j ∈ places.erase i, weight (f j) + weight x := by omega
    _ = _ := by rw [Finset.add_sum_erase places (fun j ↦ weight (f j)) hi]

/-- A quantity that no step lowers is bounded along a run by what it is at the end. -/
theorem Run.bounded {f : S → ℕ} {bound : ℕ} (hrun : Run step s labels t) (hinit : P s)
    (hkept : ∀ s label t, P s → step s label t → P t)
    (hmono : ∀ s label t, P s → step s label t → f s ≤ f t) (hbound : f t ≤ bound) :
    f s ≤ bound ∧ Run (fun s label t ↦ step s label t ∧ f t ≤ bound) s labels t := by
  induction hrun with
  | nil => exact ⟨hbound, Run.nil _⟩
  | snoc hrun hlast ih =>
      have hle := hmono _ _ _ (hrun.invariant hinit hkept) hlast
      obtain ⟨hfirst, hbefore⟩ := ih (hle.trans hbound)
      exact ⟨hfirst, hbefore.snoc ⟨hlast, hbound⟩⟩

end CppMtHw.Machine
