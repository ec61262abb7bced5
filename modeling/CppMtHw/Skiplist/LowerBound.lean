import CppMtHw.Skiplist.Refinement

/-!
# Iteration from a key

`cfind` is documented as the iterator on the first key that is not less than the given
one. It is that for a key of the list and for a key above all of them; for every other key
`find` finds nothing and the iterator stands on the end.
-/

namespace CppMtHw.Skiplist

open Machine

variable {K V : Type} {cmpLess : K → K → Prop} [DecidableRel cmpLess] {s : SkipList K V}
  {cells : Cells K V} {level : ℕ → Level K} {m : Assoc K V} {min : K} {it : DataPtr}

/-- The comment on `cfind`: the iterator stands on the least key that is not less than `min`, it is
`cend()` if and only if every key is less, and it reads the keys that are not less. -/
structure SkipList.LowerBound (cmpLess : K → K → Prop) [DecidableRel cmpLess] (s : SkipList K V)
    (entries : List (K × V)) (min : K) (it : DataPtr) : Prop where
  least : it ≠ s.cend → ∃ p ∈ entries, s.heap.dataKey (some it) = .ok p.1 ∧ ¬cmpLess p.1 min ∧
    ∀ q ∈ entries, ¬cmpLess q.1 min → ¬cmpLess q.1 p.1
  atEnd : it = s.cend ↔ ∀ p ∈ entries, cmpLess p.1 min
  rest : s.iterate s.steps it = .ok (entries.filter fun p ↦ ¬cmpLess p.1 min)

/-- An iterator on the end reads nothing. -/
theorem SkipList.iterate_cend (s : SkipList K V) : s.iterate s.steps s.cend = .ok [] := by
  rw [SkipList.steps, SkipList.iterate, if_neg (by simp)]
  rfl

/-- On the end the iterator is the lower bound of the keys above all others. -/
theorem SkipList.lowerBound_cend_iff {entries : List (K × V)} :
    s.LowerBound cmpLess entries min s.cend ↔ ∀ p ∈ entries, cmpLess p.1 min := by
  constructor
  · intro h
    exact h.atEnd.mp rfl
  · intro hbelow
    refine ⟨fun hne ↦ absurd rfl hne, ⟨fun _ ↦ hbelow, fun _ ↦ rfl⟩, ?_⟩
    have hnone : (entries.filter fun p ↦ ¬cmpLess p.1 min) = [] := by
      rw [List.filter_eq_nil_iff]
      intro p hp
      simpa using hbelow p hp
    rw [hnone]
    exact s.iterate_cend

variable [IsStrictWeakOrder K cmpLess]

/-- On the node of a key the iterator is its lower bound. -/
theorem Shaped.lowerBound_of_find (hs : Shaped cmpLess s cells level) {c : K × DataPtr × V}
    (hc : SortedMap.find cmpLess min cells = some c) :
    s.LowerBound cmpLess (cells.map fun c ↦ (c.1, c.2.2)) min c.2.1 := by
  obtain ⟨front, back, rfl, hfront, hback⟩ := SortedMap.exists_place cmpLess min hs.sortedCells
  obtain ⟨hmem, hsame⟩ := SortedMap.mem_of_find_eq_some hc
  rw [SortedMap.find_append hfront] at hc
  obtain ⟨rest, rfl, -, -⟩ := SortedMap.cons_of_find_eq_some hback hc
  have hbody := hs.cell c hmem
  have hne : c.2.1 ≠ s.cend := by
    intro heq
    rw [heq, SkipList.cend, hs.tail] at hbody
    cases hbody
  have hentry : (c.1, c.2.2) ∈ (front ++ c :: rest).map fun c ↦ (c.1, c.2.2) :=
    List.mem_map_of_mem hmem
  refine ⟨fun _ ↦ ⟨_, hentry, Heap.dataKey_ok hbody, hsame.1, ?_⟩, ?_, ?_⟩
  · intro q _ hq hqc
    exact hq (SortedMap.lt_of_lt_of_same hqc hsame)
  · exact iff_of_false hne fun hbelow ↦ hsame.1 (hbelow _ hentry)
  · have hlength := hs.length_lt_steps
    rw [List.length_append] at hlength
    have hfuel : (c :: rest).length < s.steps := by omega
    have hread := hs.iterate_ok front (c :: rest) rfl rfl hfuel
    have hfilter : ((front ++ c :: rest).map fun c ↦ (c.1, c.2.2)).filter
        (fun p ↦ ¬cmpLess p.1 min) = (c :: rest).map fun c ↦ (c.1, c.2.2) := by
      rw [List.filter_map]
      exact congrArg _ (SortedMap.filter_place hfront hback)
    rw [hread, hfilter]

/-- Where `cfind` stands, and when that is the place it promises. -/
theorem Represents.cfind (h : Represents cmpLess s m) (min : K) :
    ∃ entries it, s.entries = .ok entries ∧ entries.Pairwise (fun p q ↦ cmpLess p.1 q.1) ∧
      s.cfind cmpLess min = .ok it ∧ (s.LowerBound cmpLess entries min it ↔
        (∃ p ∈ entries, SortedMap.Same cmpLess p.1 min) ∨ ∀ p ∈ entries, cmpLess p.1 min) := by
  obtain ⟨cells, level, hs, hcomplete, -⟩ := h
  have hcfind : s.cfind cmpLess min =
      .ok (((SortedMap.find cmpLess min cells).map fun c ↦ c.2.1).getD s.cend) := by
    rw [SkipList.cfind, hs.find_eq hcomplete, ok_bind]
    cases SortedMap.find cmpLess min cells with
    | none => rfl
    | some c => rfl
  refine ⟨_, _, hs.entries_ok, List.pairwise_map.mpr hs.sortedCells, hcfind, ?_⟩
  cases hfind : SortedMap.find cmpLess min cells with
  | none =>
      have hother : ¬∃ p ∈ cells.map (fun c ↦ (c.1, c.2.2)), SortedMap.Same cmpLess p.1 min := by
        rintro ⟨p, hp, hsame⟩
        obtain ⟨c, hc, rfl⟩ := List.mem_map.mp hp
        have hsome := hs.sortedCells.find_eq_some_iff.mpr ⟨hc, hsame⟩
        rw [hfind] at hsome
        cases hsome
      rw [or_iff_right hother]
      exact SkipList.lowerBound_cend_iff
  | some c =>
      obtain ⟨hmem, hsame⟩ := SortedMap.mem_of_find_eq_some hfind
      apply iff_of_true
      · exact hs.lowerBound_of_find hfind
      · exact Or.inl ⟨_, List.mem_map_of_mem hmem, hsame⟩

/-- Whatever calls were made and whatever `rand()` gave, `cfind(min)` is the lower bound of `min` if
and only if the list has that key or only smaller ones. -/
theorem cfind_lower_bound_iff (rand : ℕ → ℕ) {maxHeight : ℕ} (hpositive : 0 < maxHeight)
    (cs : List (Call K V)) (min : K) :
    ∃ s₀ results s entries it, create maxHeight = .ok s₀ ∧
      s₀.calls cmpLess rand cs = .ok (results, s) ∧ s.entries = .ok entries ∧
      entries.Pairwise (fun p q ↦ cmpLess p.1 q.1) ∧ s.cfind cmpLess min = .ok it ∧
      (s.LowerBound cmpLess entries min it ↔
        (∃ p ∈ entries, SortedMap.Same cmpLess p.1 min) ∨ ∀ p ∈ entries, cmpLess p.1 min) := by
  obtain ⟨s₀, hcreate, hs₀⟩ : ∃ s : SkipList K V, create maxHeight = .ok s ∧
      Represents cmpLess s Assoc.empty := create_represents hpositive
  obtain ⟨s, hcalls, hs⟩ := hs₀.calls rand cs
  obtain ⟨entries, it, hentries, hsorted, hcfind, hbound⟩ := hs.cfind min
  exact ⟨s₀, _, s, entries, it, hcreate, hcalls, hentries, hsorted, hcfind, hbound⟩

/-- Two keys on two levels, and a key of the list. -/
theorem cfind_lower_bound_nine : 0 < 2 ∧ ∃ s₀ results s entries it, create 2 = .ok s₀ ∧
    s₀.calls (· < ·) (fun n ↦ n) [.put 9 90, .put (3 : ℕ) (30 : ℕ)] = .ok (results, s) ∧
    s.entries = .ok entries ∧ entries.Pairwise (fun p q ↦ p.1 < q.1) ∧ s.cfind (· < ·) 9 = .ok it ∧
    (s.LowerBound (· < ·) entries 9 it ↔
      (∃ p ∈ entries, SortedMap.Same (· < ·) p.1 9) ∨ ∀ p ∈ entries, p.1 < 9) :=
  ⟨by decide, cfind_lower_bound_iff (fun n ↦ n) (by decide) _ 9⟩

/-- The list has a key that is not less than 5, but `cfind(5)` stands on the end. -/
theorem cfind_misses_nine : ∃ s₀ results s entries it, create 2 = .ok s₀ ∧
    s₀.calls (· < ·) (fun n ↦ n) [.put 9 90, .put (3 : ℕ) (30 : ℕ)] = .ok (results, s) ∧
    s.entries = .ok entries ∧ s.cfind (· < ·) 5 = .ok it ∧ ¬s.LowerBound (· < ·) entries 5 it := by
  have hrun : (do
      let s₀ : SkipList ℕ ℕ ← create 2
      let (_, s) ← s₀.calls (· < ·) (fun n ↦ n) [.put 9 90, .put 3 30]
      let entries ← s.entries
      let it ← s.cfind (· < ·) 5
      return (entries, decide (it = s.cend))) = Except.ok ([(3, 30), (9, 90)], true) := by
    decide +kernel
  obtain ⟨s₀, hcreate, hrun⟩ := ok_of_bind hrun
  obtain ⟨⟨results, s⟩, hcalls, hrun⟩ := ok_of_bind hrun
  obtain ⟨entries, hentries, hrun⟩ := ok_of_bind hrun
  obtain ⟨it, hcfind, hrun⟩ := ok_of_bind hrun
  obtain ⟨rfl, hend⟩ := Prod.mk.inj (Except.ok.inj hrun)
  refine ⟨s₀, results, s, _, it, hcreate, hcalls, hentries, hcfind, fun hbound ↦ ?_⟩
  have hbelow := hbound.atEnd.mp (of_decide_eq_true hend) (9, 90) (by simp)
  exact absurd hbelow (by decide)

end CppMtHw.Skiplist
