import CppMtHw.Allocation.Integrity

/-!
# Backward links of the free list

`unlinkFree` sets `info->prev` to null before it copies it to the next element, so only the
last element can be taken out without damage. The list stays doubly linked as long as
`alloc` takes an exact fit from its end only, and `free` adds to the block the last elements
of the list and no others.
-/

namespace CppMtHw.Allocation

open Machine Allocator

namespace Allocator

variable {s s' : Allocator} {blocks blocks' frees frees' front rest run : List ℕ} {b m n p x : ℕ}

structure Linked (s : Allocator) (frees : List ℕ) : Prop where
  forward : Chain s.nextLink (s.nextLink s.head) frees
  backward : BackLinked Eq s.prevLink (some s.head) frees

/-- The list is doubly linked and has every free block of the buffer once. -/
structure ListExact (s : Allocator) (blocks frees : List ℕ) : Prop extends s.Linked frees where
  walk : ∃ e, s.Tiles 0 blocks e ∧ s.limit = s.buf + e
  once : frees.Nodup
  free_iff : ∀ b, b ∈ frees ↔ b ∈ blocks ∧ ¬s.isOccupied b

def ExactFitLast (s : Allocator) (n : ℕ) : Prop :=
  ∀ p, s.FirstFit n p → s.getSize p = n → s.next p = 0

/-- Behind a block that `free` adds there are only such blocks in the list. -/
def AbsorbsTail (s : Allocator) (b : ℕ) : Prop :=
  ∀ run, s.Absorbs b run → ∀ c ∈ run, s.next c = 0 ∨ s.next c ∈ run

/-! ## What is kept -/

theorem Shape.eq_concat_of_next (h : s.WellFormed blocks frees) (hp : p ∈ frees)
    (hnext : s.next p = 0) : ∃ front, frees = front ++ [p] := by
  obtain ⟨front, rest, rfl⟩ := List.append_of_mem hp
  have hrest : link (s.next p) = rest.head? := h.chain.next_eq
  rw [hnext, link_zero, eq_comm, List.head?_eq_none_iff] at hrest
  exact ⟨front, by rw [hrest]⟩

/-- Taking the last element out does not touch the other backward links. -/
theorem Carved.backLinked (h : s.WellFormed blocks frees)
    (hback : BackLinked Eq s.prevLink (some s.head) frees) (hlast : s.ExactFitLast n)
    (hfit : s.FirstFit n p) (hcarved : s.Carved s' frees frees' p b n) :
    BackLinked Eq s'.prevLink (some s'.head) frees' := by
  have hslot : ∀ m ∈ frees, s.Slot m := fun m hm ↦ h.slot (h.block_of_free hm)
  rw [hcarved.object, hcarved.list]
  by_cases hsize : s.getSize p = n
  · have hp := h.firstFit_mem hfit
    have hnext := hlast p hfit hsize
    obtain ⟨front, rfl⟩ := h.eq_concat_of_next hp hnext
    have hnot : p ∉ front := fun hmem ↦ h.not_mem_rest (List.mem_append_left [] hmem)
    rw [if_pos hsize, h.erase_eq, List.append_nil]
    refine hback.of_append.congr fun m hm ↦ ?_
    have hm' := hslot m (List.mem_append_left [p] hm)
    have hpos := h.placed.slot_pos hm'
    have hne : m ≠ p := fun heq ↦ hnot (heq ▸ hm)
    rw [prevLink, hcarved.prev m hm' fun _ ↦ ⟨hne, by omega⟩, prevLink]
  · rw [if_neg hsize]
    refine hback.congr fun m hm ↦ ?_
    rw [prevLink, hcarved.prev m (hslot m hm) fun heq ↦ absurd heq hsize, prevLink]

/-- Without its last elements the list is linked as it was, behind the new first one. -/
theorem Freed.backLinked (h : s.WellFormed blocks frees)
    (hback : BackLinked Eq s.prevLink (some s.head) frees) (htail : s.AbsorbsTail b)
    (h' : s'.WellFormed blocks' (b :: frees.filter fun c ↦ c ∉ run)) (hframe : Frame s.Managed s s')
    (hfreed : s.Freed s' frees b run) :
    BackLinked Eq s'.prevLink (some s'.head) (b :: frees.filter fun c ↦ c ∉ run) := by
  obtain ⟨front, back, rfl, hfront, hrun⟩ :=
    h.chain.exists_append_of_closed (q := fun c ↦ c ∈ run) fun c _ hc d hd ↦ by
      obtain ⟨rfl, hne⟩ := link_eq_some.mp hd
      exact (htail run hfreed.absorbs c hc).resolve_left hne
  have hfilter : (front ++ back).filter (fun c ↦ c ∉ run) = front := by
    have hkept : front.filter (fun c ↦ c ∉ run) = front :=
      List.filter_eq_self.mpr fun c hc ↦ decide_eq_true (hfront c hc)
    have hgone : back.filter (fun c ↦ c ∉ run) = [] :=
      List.filter_eq_nil_iff.mpr fun c hc ↦ by simpa using hrun c hc
    rw [List.filter_append, hkept, hgone, List.append_nil]
  have hsecond := hfreed.second
  rw [hfilter] at h' hsecond ⊢
  have hslot : ∀ m ∈ front, s.Slot m :=
    fun m hm ↦ h.slot (h.block_of_free (List.mem_append_left back hm))
  have hb := (List.nodup_cons.mp h'.chain.nodup).1
  have hbpos := h'.placed.slot_pos (h'.slot (h'.block_of_free List.mem_cons_self))
  refine ⟨?_, ?_⟩
  · rw [prevLink, hfreed.element, hframe.head]
    exact link_of_ne (Nat.ne_of_gt h.placed.head_pos)
  · have hprefix := hback.of_append
    cases front with
    | nil => trivial
    | cons y ys =>
        refine ⟨?_, hprefix.2.congr fun m hm ↦ ?_⟩
        · rw [prevLink, hsecond y rfl]
          exact link_of_ne (Nat.ne_of_gt hbpos)
        · -- the element in front of `m` stays
          have hmem : m ∈ y :: ys := List.mem_cons_of_mem y hm
          obtain ⟨z, hz, hprev⟩ := hprefix.2.prev_mem hm
          obtain ⟨hzeq, hz0⟩ := link_eq_some.mp hprev
          have hzslot := hslot z hz
          have hzhead : z ≠ s.head := fun heq ↦ h.head_not_free (heq ▸ List.mem_append_left back hz)
          rw [← hzeq] at hz0 hzhead
          have hout : ∀ c ∈ y :: ys, c ∉ b :: run := fun c hc hmem ↦ by
            rcases List.mem_cons.mp hmem with rfl | hmem
            · exact hb hc
            · exact hfront c hc hmem
          rw [prevLink, hfreed.prev m (hslot m hmem) (hout m hmem) hz0 hzhead
            (by rw [hzeq]; exact hout z hz), prevLink]

theorem maintained_backLinked : Session.Maintained ExactFitLast AbsorbsTail fun s frees ↦
    BackLinked Eq s.prevLink (some s.head) frees := by
  refine ⟨fun h hback hlast _ hfit _ hcarved ↦ hcarved.backLinked h hback hlast hfit,
    fun h hback htail _ h' hframe hfreed ↦ hfreed.backLinked h hback htail h' hframe,
    fun {s s' blocks frees b} h hback hframe hinfo ↦ ?_, fun {s blocks} h hprev ↦ ⟨?_, trivial⟩⟩
  · rw [hframe.head]
    refine hback.congr fun m hm ↦ ?_
    have hprev : s'.prev m = s.prev m := congrArg Info.prev (hinfo m (h.slot (h.block_of_free hm)))
    rw [prevLink, hprev, prevLink]
  · rw [prevLink, hprev]
    exact link_of_ne (Nat.ne_of_gt h.placed.head_pos)

/-! ## Taking an element out -/

/-- Only the last element leaves its neighbours linked to each other. -/
theorem Shape.unlinkFree_linked_iff (h : s.WellFormed blocks (front ++ x :: rest))
    (hback : BackLinked Eq s.prevLink (some s.head) (front ++ x :: rest)) :
    (s.unlinkFree x).Linked (front ++ rest) ↔ rest = [] := by
  have hx : x ∈ front ++ x :: rest := by simp
  have hprev : s.prev x ≠ 0 := fun hnull ↦ by
    have hlink := hback.prev_ok
    rw [prevLink, hnull, link_zero, eq_comm, Option.or_eq_none_iff] at hlink
    exact Option.some_ne_none _ hlink.2
  obtain ⟨hunlinked, -, hshape⟩ := unlinkFree_spec h hprev ((h.free_iff x).mp hx).2.1
  constructor
  · -- the element behind has lost its backward link
    intro hlinked
    cases rest with
    | nil => rfl
    | cons y ys =>
        have hy : y ∈ front ++ x :: y :: ys := by simp
        have hnext : link (s.next x) = some y := h.chain.next_eq
        obtain ⟨rfl, -⟩ := link_eq_some.mp hnext
        have hlost := hunlinked.front (h.slot (h.block_of_free hy))
        have hlink := hlinked.backward.prev_ok
        rw [prevLink, hlost, link_zero, eq_comm, Option.or_eq_none_iff] at hlink
        exact absurd hlink.2 (Option.some_ne_none _)
  · rintro rfl
    rw [List.append_nil] at hshape ⊢
    refine ⟨hshape.chain, ?_⟩
    rw [hunlinked.frame.head]
    refine hback.of_append.congr fun m hm ↦ ?_
    have hm' := h.slot (h.block_of_free (List.mem_append_left [x] hm))
    have hne : m ≠ x := fun heq ↦ h.not_mem_rest (heq ▸ List.mem_append_left [] hm)
    have hnext : link (s.next x) = none := h.chain.next_eq
    have hpos := h.placed.slot_pos hm'
    rw [link_eq_none] at hnext
    rw [prevLink, hunlinked.prev m hm' hne (by omega), prevLink]

end Allocator

namespace Session

variable {σ : Session} {s : Allocator} {mem : Bytes} {object base size : ℕ} {calls : List Call}

/-- The free list is exact in every session whose calls are careful and take elements only from its
end. -/
theorem list_exact (h : Suitable object base size)
    (hcreate : create mem object base size = .returned () s)
    (hrun : Run (Guarded (fun σ call ↦ σ.Careful call ∧ σ.Meets ExactFitLast AbsorbsTail call) Step)
      ⟨s, []⟩ calls σ) :
    ∃ blocks frees, σ.allocator.ListExact blocks frees ∧
      ∀ front x rest, frees = front ++ x :: rest →
      ((σ.allocator.unlinkFree x).Linked (front ++ rest) ↔ rest = []) := by
  obtain ⟨blocks, frees, hholds, hback⟩ := maintained_backLinked.run h hcreate hrun
  have hshape := hholds.shape
  refine ⟨blocks, frees, ⟨⟨hshape.chain, hback⟩, ⟨_, hshape.tiles, hshape.limit_eq⟩,
    hshape.chain.nodup, fun b ↦ ?_⟩, ?_⟩
  · rw [hshape.free_iff]
    simp only [List.not_mem_nil, not_false_eq_true, and_true]
  · rintro front x rest rfl
    exact hshape.unlinkFree_linked_iff hback

theorem list_exact_freed : ∃ s s₁ s₂ s₃, create (fun _ ↦ 0) 4096 8192 256 = .returned () s ∧
    s.alloc 24 = .returned ⟨1⟩ s₁ ∧ s₁.alloc 24 = .returned ⟨2⟩ s₂ ∧
    s₂.free ⟨1⟩ = .returned .null s₃ ∧ ∃ blocks frees, s₃.ListExact blocks frees := by
  obtain ⟨s, s₁, s₂, s₃, hcreate, hs, halloc, hs₁, halloc', hocc, hfree⟩ := two_blocks
  have hrun : Run (Guarded (fun σ call ↦ σ.Careful call ∧ σ.Meets ExactFitLast AbsorbsTail call)
      Step) ⟨s, []⟩ [.alloc 24, .alloc 24] ⟨s₂, [1, 2]⟩ :=
    run_two (fun σ hσ ↦ ⟨allocatable_of_servesLast hσ,
      fun p hp hsize ↦ absurd hsize (Nat.ne_of_gt ((firstFit_of_servesLast hσ).mp hp).2)⟩) hs
        halloc hs₁ halloc'
  have hstep : Step ⟨s₂, [1, 2]⟩ (.free ⟨1⟩) ⟨s₃, [1, 2].erase 1 ++ Pointer.held .null⟩ :=
    Step.free (Or.inr List.mem_cons_self) hfree
  have hmeets : Meets ExactFitLast AbsorbsTail ⟨s₂, [1, 2]⟩ (.free ⟨1⟩) := by
    refine Or.inr fun run habsorbs ↦ ?_
    rw [freeRun_of_occupied hocc habsorbs.1]
    exact fun c hc ↦ (List.not_mem_nil hc).elim
  have hcareful : Careful ⟨s₂, [1, 2]⟩ (.free ⟨1⟩) := Or.inr (mergeable_of_occupied hocc)
  obtain ⟨blocks, frees, hexact, -⟩ :=
    list_exact (suitable_example 256 (by decide) (by decide)) hcreate
      (hrun.snoc ⟨⟨hcareful, hmeets⟩, hstep⟩)
  exact ⟨s, s₁, s₂, s₃, hcreate, halloc, halloc', hfree, blocks, frees, hexact⟩

/-- An exact fit in front of another element: that element loses its backward link. -/
theorem exact_fit_clears_link : ∃ s σ, create (fun _ ↦ 0) 4096 8192 256 = .returned () s ∧
    Run Step ⟨s, []⟩ [.alloc 8, .alloc 8, .free ⟨1⟩, .alloc 8] σ ∧
    ¬∃ blocks frees, σ.allocator.ListExact blocks frees := by
  have hcheck : checksRun 256 [.alloc 8, .alloc 8, .free ⟨1⟩, .alloc 8] (fun σ ↦
      decide (σ.allocator.next σ.allocator.head ≠ 0 ∧
        σ.allocator.prev (σ.allocator.next σ.allocator.head) = 0)) = true := by decide +kernel
  obtain ⟨s, σ, hcreate, hrun, hσ⟩ := exists_of_checksRun hcheck
  obtain ⟨hnext, hprev⟩ := of_decide_eq_true hσ
  refine ⟨s, σ, hcreate, hrun, ?_⟩
  rintro ⟨blocks, frees, hexact⟩
  have hforward := hexact.forward
  have hbackward := hexact.backward
  rw [nextLink, link_of_ne hnext] at hforward
  cases frees with
  | nil => exact Option.some_ne_none _ hforward
  | cons x xs =>
      obtain rfl := Option.some.inj hforward.1
      have hlink := hbackward.1
      rw [prevLink, hprev] at hlink
      exact Option.some_ne_none _ hlink.symm

end Session

end CppMtHw.Allocation
