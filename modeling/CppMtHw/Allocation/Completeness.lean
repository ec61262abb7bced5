import CppMtHw.Allocation.Integrity

/-!
# Completeness of allocation

`alloc` serves a request if the free list has an element of the right size, or a larger
one and room for another `MetaInfo`, with one exception: `addMeta` throws for the first
element that is large enough, and one of the right size is behind it. All of this holds
in every state, also where the list has no end.
-/

namespace CppMtHw.Allocation

open Machine Allocator

namespace Allocator

variable {s s' : Allocator} {front : List ℕ} {m n p fuel start : ℕ}

/-- The walk from `head` through the free list comes to the object, perhaps more than once. -/
def OnList (s : Allocator) (m : ℕ) : Prop :=
  ∃ front, Walk s.nextLink (s.nextLink s.head) (front ++ [m])

/-- No `MetaInfo` can be used again, and the last free block has no room for a new one. -/
def MetaFull (s : Allocator) : Prop :=
  s.reusable = none ∧ usub s.metas 32 ≤ wrap (s.buf + s.offs (s.getMeta 0))

instance (s : Allocator) : Decidable s.MetaFull := inferInstanceAs (Decidable (_ ∧ _))

/-- The units of the block when `addMeta` has found or made an object. -/
def sizeAfterMeta (s : Allocator) (p : ℕ) : ℕ :=
  if s.reusable = none ∧ p = s.getMeta 0 then
    usub (usub s.metas 32) (wrap (s.buf + s.offs p)) / 8 else s.getSize p

/-- The block is larger than `n` units, there is an object for a second block, and room for one. -/
structure Splittable (s : Allocator) (n p : ℕ) : Prop where
  larger : n < s.getSize p
  object : ¬s.MetaFull
  room : n < s.sizeAfterMeta p

structure Complete (s : Allocator) (N : ℕ) : Prop where
  threw : ∀ s', s.alloc N = .threw s' → ∀ m, s.OnList m → s.getSize m ≠ units N ∧
    ¬s.Splittable (units N) m
  returned : (∃ m, s.OnList m ∧ (s.getSize m = units N ∨ s.Splittable (units N) m)) →
    ∃ p s', s.alloc N = .returned p s'

def LargerFirst (s : Allocator) (n : ℕ) : Prop :=
  ∃ front p, Walk s.nextLink (s.nextLink s.head) (front ++ [p]) ∧ (∀ q ∈ front, s.getSize q < n) ∧
    n < s.getSize p

/-! ## The walk -/

/-- The loop comes to the first element that is large enough. -/
theorem allocLoop_walk {q : ℕ} (h : Walk s.nextLink (link q) (front ++ [p]))
    (hsmall : ∀ r ∈ front, s.getSize r < n) (hle : n ≤ s.getSize p) (hfuel : front.length < fuel) :
    s.allocLoop n fuel q = s.place n p := by
  induction front generalizing q fuel with
  | nil =>
      obtain ⟨fuel, rfl⟩ := Nat.exists_eq_succ_of_ne_zero (Nat.ne_of_gt hfuel)
      obtain ⟨rfl, hq⟩ := link_eq_some.mp h.1
      rw [allocLoop_succ, if_neg hq, if_pos hle]
  | cons r front ih =>
      obtain ⟨fuel, rfl⟩ := Nat.exists_eq_succ_of_ne_zero (Nat.ne_of_gt (Nat.zero_lt_of_lt hfuel))
      obtain ⟨rfl, hq⟩ := link_eq_some.mp h.1
      have hlt := hsmall q List.mem_cons_self
      rw [allocLoop_succ, if_neg hq, if_neg (by omega)]
      exact ih h.2 (fun r hr ↦ hsmall r (List.mem_cons_of_mem q hr)) (Nat.lt_of_succ_lt_succ hfuel)

theorem lt_of_walk {q : ℕ} {l : List ℕ} (hq : q < 2 ^ 64) (h : Walk s.nextLink (link q) l) :
    ∀ x ∈ l, x < 2 ^ 64 := by
  induction l generalizing q with
  | nil => exact fun x hx ↦ (List.not_mem_nil hx).elim
  | cons y ys ih =>
      obtain ⟨rfl, -⟩ := link_eq_some.mp h.1
      intro x hx
      rcases List.mem_cons.mp hx with rfl | hx
      · exact hq
      · exact ih (next_lt s q) h.2 x hx

/-- There are fewer elements in front of it than addresses. -/
theorem alloc_walk {N : ℕ} (h : Walk s.nextLink (s.nextLink s.head) (front ++ [p]))
    (hsmall : ∀ q ∈ front, s.getSize q < units N) (hle : units N ≤ s.getSize p) :
    s.alloc N = s.place (units N) p := by
  have hnot : p ∉ front := fun hmem ↦ Nat.not_lt.mpr hle (hsmall p hmem)
  have hlength : (front ++ [p]).length ≤ (List.range (2 ^ 64)).length :=
    ((h.nodup hnot).subperm fun x hx ↦ List.mem_range.mpr
      (lt_of_walk (next_lt s s.head) h x hx)).length_le
  rw [List.length_range, List.length_append, List.length_singleton] at hlength
  exact allocLoop_walk h hsmall hle hlength

theorem FirstFit.alloc_eq {N : ℕ} (h : s.FirstFit (units N) p) :
    s.alloc N = s.place (units N) p := by
  obtain ⟨before, after, hchain, hsmall, hle⟩ := h
  exact alloc_walk hchain.walk hsmall hle

/-! ## The element -/

theorem addMeta_outcome (s : Allocator) (start n : ℕ) :
    if s.MetaFull then s.addMeta start n = .threw s else ∃ mi s', s.addMeta start n =
      .returned mi s' := by
  cases hreusable : s.reusable with
  | some mi =>
      rw [if_neg fun hfull ↦ by rw [MetaFull, hreusable] at hfull; cases hfull.1]
      exact ⟨mi, _, addMeta_reuse start n hreusable⟩
  | none =>
      rw [addMeta_none start n hreusable]
      by_cases hroom : usub s.metas 32 ≤ wrap (s.buf + s.offs (s.getMeta 0))
      · rw [if_pos ⟨hreusable, hroom⟩, if_pos hroom]
      · rw [if_neg fun hfull ↦ hroom hfull.2, if_neg hroom]
        exact ⟨_, _, rfl⟩

/-- Only a larger element needs an object. -/
theorem place_outcome (s : Allocator) (n p : ℕ) :
    if s.getSize p ≠ n ∧ s.MetaFull then s.place n p = .threw s else ∃ q s',
      s.place n p = .returned q s' := by
  have hadd := s.addMeta_outcome (wrap (s.buf + s.offs p)) n
  rw [place]
  by_cases hsize : s.getSize p = n
  · rw [if_neg (fun h ↦ h.1 hsize), if_pos hsize]
    exact ⟨_, _, rfl⟩
  · rw [if_neg hsize]
    by_cases hfull : s.MetaFull
    · rw [if_pos hfull] at hadd
      rw [if_pos ⟨hsize, hfull⟩, hadd]
    · rw [if_neg hfull] at hadd
      obtain ⟨mi, s', hadd⟩ := hadd
      rw [if_neg (fun h ↦ hfull h.2), hadd]
      exact ⟨_, _, rfl⟩

/-! ## Completeness -/

/-- `alloc` is complete unless it meets a larger element first, cannot split it, and one of the
right size is in the list. -/
theorem alloc_complete_iff (s : Allocator) (N : ℕ) :
    s.Complete N ↔ ¬(s.LargerFirst (units N) ∧ s.MetaFull ∧ ∃ m, s.OnList m ∧
      s.getSize m = units N) := by
  constructor
  · rintro hcomplete ⟨⟨front, p, hwalk, hsmall, hlt⟩, hfull, m, hm, hsize⟩
    have hplace := s.place_outcome (units N) p
    rw [if_pos ⟨by omega, hfull⟩, ← alloc_walk hwalk hsmall (Nat.le_of_lt hlt)] at hplace
    exact (hcomplete.threw s hplace m hm).1 hsize
  · intro hnot
    have hreturned : ∀ m, s.OnList m → s.getSize m = units N ∨ s.Splittable (units N) m →
        ∃ p s', s.alloc N = .returned p s' := by
      rintro m ⟨front, hwalk⟩ hserves
      have hle : units N ≤ s.getSize m := hserves.elim (fun h ↦ Nat.le_of_eq h.symm) fun h ↦
        Nat.le_of_lt h.larger
      obtain ⟨before, p, hfirst, hsmall, hfit⟩ :=
        hwalk.exists_first (q := fun x ↦ units N ≤ s.getSize x) hle
      have hsmall' : ∀ q ∈ before, s.getSize q < units N := fun q hq ↦ Nat.not_le.mp (hsmall q hq)
      have hplace := s.place_outcome (units N) p
      rw [← alloc_walk hfirst hsmall' hfit] at hplace
      rwa [if_neg] at hplace
      rintro ⟨hne, hfull⟩
      have hexact : s.getSize m = units N := hserves.resolve_right fun h ↦ h.object hfull
      exact hnot ⟨⟨before, p, hfirst, hsmall', by omega⟩, hfull, m, ⟨front, hwalk⟩, hexact⟩
    refine ⟨fun s' hthrew m hm ↦ ⟨fun hsize ↦ ?_, fun hsplit ↦ ?_⟩, ?_⟩
    · obtain ⟨p, t, halloc⟩ := hreturned m hm (Or.inl hsize)
      cases hthrew.symm.trans halloc
    · obtain ⟨p, t, halloc⟩ := hreturned m hm (Or.inr hsplit)
      cases hthrew.symm.trans halloc
    · rintro ⟨m, hm, hserves⟩
      exact hreturned m hm hserves

end Allocator

namespace Session

/-- The `MetaInfo` objects are in use, there is no room for another, and the block of the right size
is behind a larger one in the list. -/
theorem alloc_misses_exact_fit : ∃ s σ, create (fun _ ↦ 0) 4096 8192 256 = .returned () s ∧
    Run Step ⟨s, []⟩ [.alloc 16, .alloc 0, .alloc 32, .alloc 0, .free ⟨1⟩, .free ⟨3⟩] σ ∧
    ¬σ.allocator.Complete 16 := by
  have hcheck : checksRun 256
      [.alloc 16, .alloc 0, .alloc 32, .alloc 0, .free ⟨1⟩, .free ⟨3⟩] (fun σ ↦
      (match σ.allocator.alloc 16 with | .threw _ => true | _ => false) &&
        decide (σ.allocator.next σ.allocator.head ≠ 0 ∧
          σ.allocator.next (σ.allocator.next σ.allocator.head) ≠ 0 ∧
          σ.allocator.getSize (σ.allocator.next (σ.allocator.next σ.allocator.head)) = units 16)) =
      true := by decide +kernel
  obtain ⟨s, σ, hcreate, hrun, hσ⟩ := exists_of_checksRun hcheck
  rw [Bool.and_eq_true, decide_eq_true_iff] at hσ
  obtain ⟨hthrew, hfirst, hsecond, hsize⟩ := hσ
  refine ⟨s, σ, hcreate, hrun, fun hcomplete ↦ ?_⟩
  have honList : σ.allocator.OnList (σ.allocator.next (σ.allocator.next σ.allocator.head)) :=
    ⟨[σ.allocator.next σ.allocator.head], link_of_ne hfirst, link_of_ne hsecond, trivial⟩
  split at hthrew
  · rename_i s' halloc
    exact (hcomplete.threw s' halloc _ honList).1 hsize
  · cases hthrew

end Session

end CppMtHw.Allocation
