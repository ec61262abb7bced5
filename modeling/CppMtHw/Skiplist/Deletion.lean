import CppMtHw.Skiplist.Insertion

/-!
# Deletions

`Delete` takes the tower of a key out of its levels, from the top down, moving on each of
them to the node in front of it, and then takes out the data node. The levels above the
tower do not hold the key, so in the end no level does.
-/

namespace CppMtHw.Skiplist

open Machine

variable {K V : Type} {cmpLess : K → K → Prop} {s : SkipList K V} {cells : Cells K V}
  {level : ℕ → Level K} {heap : Heap K V} {i todo : ℕ} {x ix : IndexPtr} {key : K}

variable [DecidableRel cmpLess] [IsStrictWeakOrder K cmpLess]

/-- The rungs once level `i` has lost a key. -/
theorem Shaped.mem_update_erase (hs : Shaped cmpLess s cells level) (hi : i < s.maxHeight) {j : ℕ}
    {q : K × IndexPtr × DataPtr} :
    q ∈ Function.update level i (SortedMap.erase cmpLess key (level i)) j ↔
      q ∈ level j ∧ (j = i → ¬SortedMap.Same cmpLess q.1 key) := by
  by_cases hji : j = i
  · subst hji
    rw [Function.update_self, (hs.sortedLevel j hi).mem_erase_iff]
    simp
  · rw [Function.update_of_ne hji]
    simp [hji]

/-- The index node of a key is skipped and deleted on the level where the tower now ends. -/
theorem Shaped.eraseRung (hs : Shaped cmpLess s cells level) (hi : i < s.maxHeight)
    {r : K × IndexPtr × DataPtr} (harrived : Arrived cmpLess key (s.headIdx i) (level i) x)
    (hfind : SortedMap.find cmpLess key (level i) = some r)
    (habove : ∀ j, i < j → j < s.maxHeight → SortedMap.find cmpLess key (level j) = none)
    (hdata : heap.data = s.heap.data) (hfresh : heap.fresh = s.heap.fresh)
    (hskip : SkippedOver s.heap.indexBody heap.indexBody s.heap.indexLink heap.indexLink x r.2.1) :
    Shaped cmpLess { s with heap } cells
      (Function.update level i (SortedMap.erase cmpLess key (level i))) := by
  have hdbody : heap.dataBody = s.heap.dataBody := Heap.dataBody_congr hdata
  have hdlink : heap.dataLink = s.heap.dataLink := Heap.dataLink_congr hdata
  obtain ⟨hr, hsame⟩ := SortedMap.mem_of_find_eq_some hfind
  have hxrow : x ∈ s.headIdx i :: nodes (level i) := harrived.mem_row
  have hrrow : r.2.1 ∈ s.headIdx i :: nodes (level i) :=
    List.mem_cons_of_mem _ (mem_nodes_of_mem hr)
  have hold : ∀ p b, s.heap.indexBody p = some b → p ≠ r.2.1 → heap.indexBody p = some b := by
    intro p b hp hne
    rw [hskip.body, if_neg hne, hp]
  have hheadne : ∀ j < s.maxHeight, s.headIdx j ≠ r.2.1 := by
    intro j hj heq
    have hjrow : r.2.1 ∈ s.headIdx j :: nodes (level j) := heq ▸ List.mem_cons_self
    obtain rfl := hs.level_unique hj hi hjrow hrrow
    exact (hs.linkedLevel j hj).head_notMem (heq ▸ mem_nodes_of_mem hr)
  have hne : ∀ j < s.maxHeight, ∀ q ∈ level j, (j = i → ¬SortedMap.Same cmpLess q.1 key) →
      q.2.1 ≠ r.2.1 := by
    intro j hj q hq hdiff heq
    have hjrow : r.2.1 ∈ s.headIdx j :: nodes (level j) :=
      List.mem_cons_of_mem _ (heq ▸ mem_nodes_of_mem hq)
    obtain rfl := hs.level_unique hj hi hjrow hrrow
    obtain rfl := (hs.linkedLevel j hj).eq_of_node_eq hq hr heq
    exact hdiff rfl hsame
  exact
    { positive := hs.positive
      sortedCells := hs.sortedCells
      sortedLevel := hs.sortedLevel_update (SortedMap.sorted_erase (hs.sortedLevel i hi))
      linkedCells := hdlink ▸ hs.linkedCells
      linkedLevel := by
        apply hs.linkedLevel_update
        · exact (hs.linkedLevel i hi).skip harrived hfind hskip.behind hskip.same
        · intro j hj hji z hz
          apply hskip.same
          · exact fun hzx ↦ hs.not_mem_row hi hj hji hxrow (hzx ▸ hz)
          · exact fun hzr ↦ hs.not_mem_row hi hj hji hrrow (hzr ▸ hz)
      head := hdbody ▸ hs.head
      tail := hdbody ▸ hs.tail
      cell := fun c hc ↦ hdbody ▸ hs.cell c hc
      tailIdx := hold _ _ hs.tailIdx (hs.ne_tailIdx hi hrrow).symm
      headIdx := fun j hj ↦ hold (s.headIdx j) _ (hs.headIdx j hj) (hheadne j hj)
      rung := fun j hj q hq ↦ by
        obtain ⟨hqmem, hdiff⟩ := (hs.mem_update_erase hi).mp hq
        obtain ⟨target, hbody, hlower⟩ := hs.rung j hj q hqmem
        refine ⟨target, hold _ _ hbody (hne j hj q hqmem hdiff), ?_⟩
        cases j with
        | zero => exact hlower
        | succ j =>
            have hj' : j < s.maxHeight := Nat.lt_of_succ_lt hj
            obtain ⟨below, hbelow, hkey, hroot, hdown⟩ := hs.exists_lower hj hqmem
            rw [hbody] at hdown
            obtain rfl : target = .index below.2.1 :=
              Option.some.inj (Prod.mk.inj (Option.some.inj hdown)).1
            refine ⟨below, (hs.mem_update_erase hi).mpr
              ⟨hbelow, fun hji hbelowSame ↦ ?_⟩, hroot, rfl⟩
            -- the levels above the end of the tower do not hold the key
            subst hji
            have hnone := habove (j + 1) (Nat.lt_succ_self j) hj
            rw [(hs.sortedLevel (j + 1) hj).find_eq_some_iff.mpr ⟨hqmem, hkey ▸ hbelowSame⟩]
              at hnone
            cases hnone
      rooted := fun j hj q hq ↦ hs.rooted j hj q ((hs.mem_update_erase hi).mp hq).1
      dataNodes := fun p hp ↦ hs.dataNodes p (by rwa [← hdbody])
      indexNodes := fun p hp ↦ by
        have hp : heap.indexBody p ≠ none := hp
        rw [hskip.body] at hp
        split at hp
        · exact absurd rfl hp
        · rename_i hpr
          refine (hs.indexNodes p hp).imp_right fun ⟨j, hj, hrow⟩ ↦ ⟨j, hj, ?_⟩
          rw [List.mem_cons] at hrow ⊢
          refine hrow.imp_right fun hrow ↦ ?_
          obtain ⟨q, hq, rfl⟩ := mem_nodes.mp hrow
          refine mem_nodes_of_mem ((hs.mem_update_erase hi).mpr ⟨hq, fun hji hqsame ↦ hpr ?_⟩)
          subst hji
          have hqfind := (hs.sortedLevel j hj).find_eq_some_iff.mpr ⟨hq, hqsame⟩
          obtain rfl : r = q := Option.some.inj (hfind.symm.trans hqfind)
          rfl
      fresh := fun p hp ↦ by
        have hp : s.heap.fresh ≤ p := hfresh ▸ hp
        refine ⟨(congrFun hdbody p).trans (hs.fresh p hp).1, (hskip.body p).trans ?_⟩
        split
        · rfl
        · exact (hs.fresh p hp).2 }

/-- The data node of a key that no level holds any more is skipped and deleted. -/
theorem Shaped.eraseCell (hs : Shaped cmpLess s cells level) {c : K × DataPtr × V} {d : DataPtr}
    (harrived : Arrived cmpLess key s.pHead cells d)
    (hfind : SortedMap.find cmpLess key cells = some c)
    (hgone : ∀ j < s.maxHeight, SortedMap.find cmpLess key (level j) = none)
    (hindex : heap.index = s.heap.index) (hfresh : heap.fresh = s.heap.fresh)
    (hskip : SkippedOver s.heap.dataBody heap.dataBody s.heap.dataLink heap.dataLink d c.2.1) :
    Shaped cmpLess { s with heap } (SortedMap.erase cmpLess key cells) level := by
  have hibody : heap.indexBody = s.heap.indexBody := Heap.indexBody_congr hindex
  have hilink : heap.indexLink = s.heap.indexLink := Heap.indexLink_congr hindex
  obtain ⟨hc, hsame⟩ := SortedMap.mem_of_find_eq_some hfind
  have hold : ∀ p b, s.heap.dataBody p = some b → p ≠ c.2.1 → heap.dataBody p = some b := by
    intro p b hp hne
    rw [hskip.body, if_neg hne, hp]
  have hsentinel : ∀ p, s.heap.dataBody p = some (none, none) → p ≠ c.2.1 := by
    rintro p hp rfl
    rw [hs.cell c hc] at hp
    cases hp
  have hmem : ∀ q, q ∈ SortedMap.erase cmpLess key cells ↔
      q ∈ cells ∧ ¬SortedMap.Same cmpLess q.1 key := fun q ↦ hs.sortedCells.mem_erase_iff
  exact
    { positive := hs.positive
      sortedCells := SortedMap.sorted_erase hs.sortedCells
      sortedLevel := hs.sortedLevel
      linkedCells := hs.linkedCells.skip harrived hfind hskip.behind hskip.same
      linkedLevel := fun i hi ↦ hilink ▸ hs.linkedLevel i hi
      head := hold _ _ hs.head (hsentinel _ hs.head)
      tail := hold _ _ hs.tail (hsentinel _ hs.tail)
      cell := fun q hq ↦ by
        obtain ⟨hqmem, hdiff⟩ := (hmem q).mp hq
        refine hold _ _ (hs.cell q hqmem) fun heq ↦ ?_
        obtain rfl := hs.linkedCells.eq_of_node_eq hqmem hc heq
        exact hdiff hsame
      tailIdx := hibody ▸ hs.tailIdx
      headIdx := fun i hi ↦ hibody ▸ hs.headIdx i hi
      rung := fun i hi r hr ↦ hibody ▸ hs.rung i hi r hr
      rooted := fun i hi r hr ↦ by
        obtain ⟨q, hq, hkey, hroot⟩ := hs.rooted i hi r hr
        refine ⟨q, (hmem q).mpr ⟨hq, fun hqsame ↦ ?_⟩, hkey, hroot⟩
        have hnone := hgone i hi
        rw [(hs.sortedLevel i hi).find_eq_some_iff.mpr ⟨hr, hkey ▸ hqsame⟩] at hnone
        cases hnone
      dataNodes := fun p hp ↦ by
        have hp : heap.dataBody p ≠ none := hp
        rw [hskip.body] at hp
        split at hp
        · exact absurd rfl hp
        · rename_i hpc
          have hrow := hs.dataNodes p hp
          rw [List.mem_cons, List.mem_append] at hrow ⊢
          refine hrow.imp_right (Or.imp_left fun hrow ↦ ?_)
          obtain ⟨q, hq, rfl⟩ := mem_nodes.mp hrow
          refine mem_nodes_of_mem ((hmem q).mpr ⟨hq, fun hqsame ↦ hpc ?_⟩)
          have hqfind := hs.sortedCells.find_eq_some_iff.mpr ⟨hq, hqsame⟩
          obtain rfl : c = q := Option.some.inj (hfind.symm.trans hqfind)
          rfl
      indexNodes := fun p hp ↦ hs.indexNodes p (by rwa [← hibody])
      fresh := fun p hp ↦ by
        have hp : s.heap.fresh ≤ p := hfresh ▸ hp
        refine ⟨(hskip.body p).trans ?_, (congrFun hibody p).trans (hs.fresh p hp).2⟩
        split
        · rfl
        · exact (hs.fresh p hp).1 }

/-! ## The tower -/

/-- The inner loop of `Delete` ends in front of the node to be deleted. -/
theorem Shaped.moveClose_ok (hs : Shaped cmpLess s cells level) (hi : i < s.maxHeight) {walk : ℕ}
    {r : K × IndexPtr × DataPtr}
    (hposition : Position cmpLess key (s.headIdx i) (level i) ix todo)
    (hfind : SortedMap.find cmpLess key (level i) = some r) (hwalk : todo < walk) :
    ∃ x, SkipList.moveClose s.heap (some r.2.1) walk (some ix) = .ok (some x) ∧
      Arrived cmpLess key (s.headIdx i) (level i) x := by
  induction walk generalizing ix todo with
  | zero => omega
  | succ walk ih =>
      obtain ⟨hr, hsame⟩ := SortedMap.mem_of_find_eq_some hfind
      rcases hposition.advance (hs.sortedLevel i hi) (hs.linkedLevel i hi) with
        ⟨-, -, hnone⟩ | ⟨q, hq, hnext, hbelow, habove, hqsame⟩
      · rw [hfind] at hnone
        cases hnone
      · rw [SkipList.moveClose, Heap.next_ok hnext, ok_bind]
        by_cases hqr : q = r
        · subst hqr
          rw [if_neg (by simp)]
          exact ⟨ix, rfl, (hqsame hsame).1⟩
        · have hlt : cmpLess q.1 key := by
            by_contra hnlt
            by_cases hgt : cmpLess key q.1
            · have hnone := (hbelow hgt).2
              rw [hfind] at hnone
              cases hnone
            · have hqfind := (hqsame ⟨hnlt, hgt⟩).2
              exact hqr (Option.some.inj (hqfind.symm.trans hfind))
          obtain ⟨rest, hrest, hnextPosition⟩ := habove hlt
          have hne : some q.2.1 ≠ some r.2.1 := fun heq ↦
            hqr ((hs.linkedLevel i hi).eq_of_node_eq hq hr (Option.some.inj heq))
          rw [if_pos hne]
          exact ih hnextPosition (by omega)

/-- One level of a tower: `x` in front of the node, what both lead down to, and the list without
it. -/
theorem Shaped.unlinkLevel (hs : Shaped cmpLess s cells level) {walk : ℕ} (fuel : ℕ)
    {r : K × IndexPtr × DataPtr} {below belowNxt : Option IndexPtr} {dataCurr : Option DataPtr}
    (hc : Cursor cmpLess s level key i ix todo)
    (hfind : SortedMap.find cmpLess key (level i) = some r)
    (hmove : SkipList.moveClose s.heap (some r.2.1) walk (some ix) = .ok (some x))
    (harrived : Arrived cmpLess key (s.headIdx i) (level i) x)
    (hdown : s.heap.down (some x) = .ok below)
    (hdownNxt : s.heap.down (some r.2.1) = .ok belowNxt) :
    ∃ heap root, s.heap.root (some x) = .ok (some root) ∧
      SkipList.unlinkTower walk (fuel + 1) (some ix) (some r.2.1) dataCurr s.heap =
        SkipList.unlinkTower walk fuel below belowNxt (some root) heap ∧
      Shaped cmpLess { s with heap } cells
        (Function.update level i (SortedMap.erase cmpLess key (level i))) := by
  have hi := hc.level_lt
  have hr := (SortedMap.mem_of_find_eq_some hfind).1
  have hne : x ≠ r.2.1 := harrived.ne (hs.linkedLevel i hi) hfind
  obtain ⟨target, hrbody, -⟩ := hs.rung i hi r hr
  obtain ⟨after, hafter⟩ :=
    (hs.linkedLevel i hi).exists_next (List.mem_cons_of_mem _ (mem_nodes_of_mem hr))
  obtain ⟨b, root, hxbody⟩ : ∃ b root, s.heap.indexBody x = some (b, some root) := by
    rcases List.mem_cons.mp harrived.mem_row with rfl | hmem
    · exact ⟨_, _, hs.headIdx i hi⟩
    · obtain ⟨q, hq, rfl⟩ := mem_nodes.mp hmem
      obtain ⟨target', hqbody, -⟩ := hs.rung i hi q hq
      exact ⟨_, _, hqbody⟩
  obtain ⟨h₁, hset, hdata₁, hfresh₁, hbody₁, hlink₁⟩ := Heap.setNext_ok (n := after) hxbody
  obtain ⟨h₂, hdelete, hdata₂, hfresh₂, hbody₂, hlink₂⟩ :=
    Heap.deleteIndex_ok ((hbody₁ r.2.1).trans hrbody)
  refine ⟨h₂, root, Heap.root_ok hxbody, ?_, ?_⟩
  · rw [SkipList.unlinkTower, if_pos (Option.some_ne_none ix), Heap.next_ok hafter]
    simp only [ok_bind, hmove, hset, Heap.root_ok ((hbody₁ x).trans hxbody),
      Heap.down_congr hdata₁ hbody₁, hdown, hdownNxt, hdelete]
  · refine hs.eraseRung hi harrived hfind hc.above (hdata₂.trans hdata₁) (hfresh₂.trans hfresh₁)
      ⟨fun p ↦ ?_, ?_, fun z hzx hzr ↦ ?_⟩
    · rw [hbody₂, hbody₁]
    · rw [hlink₂ x hne, hlink₁, if_pos rfl, hafter]
    · rw [hlink₂ z hzr, hlink₁, if_neg hzx]

/-- Once the key is gone from level `i`, it is on no level from there up. -/
theorem Cursor.find_erased (hs : Shaped cmpLess s cells level)
    (hc : Cursor cmpLess s level key i ix todo) {j : ℕ} (hj : j < s.maxHeight) (hij : i ≤ j) :
    SortedMap.find cmpLess key
      (Function.update level i (SortedMap.erase cmpLess key (level i)) j) = none := by
  rcases Nat.lt_or_eq_of_le hij with hlt | rfl
  · rw [Function.update_of_ne (Nat.ne_of_gt hlt)]
    exact hc.above j hlt hj
  · rw [Function.update_self, (hs.sortedLevel i hj).find_erase, if_pos (SortedMap.same_refl key)]

/-- The levels without the key up to level `i`. -/
def eraseUpTo (cmpLess : K → K → Prop) [DecidableRel cmpLess] (key : K) (i : ℕ)
    (level : ℕ → Level K) :
    ℕ → Level K := fun j ↦ if j ≤ i then SortedMap.erase cmpLess key (level j) else level j

omit [IsStrictWeakOrder K cmpLess] in
theorem eraseUpTo_zero : eraseUpTo cmpLess key 0 level =
    Function.update level 0 (SortedMap.erase cmpLess key (level 0)) := by
  funext j
  rw [eraseUpTo, Function.update_apply]
  by_cases hj : j = 0
  · subst hj
    rw [if_pos le_rfl, if_pos rfl]
  · rw [if_neg (by omega), if_neg hj]

omit [IsStrictWeakOrder K cmpLess] in
theorem eraseUpTo_update : eraseUpTo cmpLess key i (Function.update level (i + 1)
    (SortedMap.erase cmpLess key (level (i + 1)))) = eraseUpTo cmpLess key (i + 1) level := by
  funext j
  simp only [eraseUpTo, Function.update_apply]
  by_cases hj : j = i + 1
  · subst hj
    rw [if_neg (by omega), if_pos rfl, if_pos le_rfl]
  · rw [if_neg hj]
    by_cases hji : j ≤ i
    · rw [if_pos hji, if_pos (Nat.le_succ_of_le hji)]
    · rw [if_neg hji, if_neg (by omega)]

/-- After the loop over the levels those up to `i` are without the key, and `data_curr` is the data
node in front of the one to be deleted. -/
theorem Shaped.unlinkTower_ok (hs : Shaped cmpLess s cells level) (hcomplete : Complete cells level)
    {walk fuel : ℕ} {r : K × IndexPtr × DataPtr} (dataCurr : Option DataPtr)
    (hc : Cursor cmpLess s level key i ix todo)
    (hfind : SortedMap.find cmpLess key (level i) = some r)
    (hwalk : ∀ j ≤ i, (level j).length < walk) (hfuel : i + 2 ≤ fuel) :
    ∃ heap d, SkipList.unlinkTower walk fuel (some ix) (some r.2.1) dataCurr s.heap =
        .ok (some d, heap) ∧
      Shaped cmpLess { s with heap } cells (eraseUpTo cmpLess key i level) ∧
      Arrived cmpLess key s.pHead cells d := by
  induction i generalizing s level ix todo r fuel dataCurr with
  | zero =>
      obtain ⟨fuel, rfl⟩ : ∃ n, fuel = n + 2 := ⟨fuel - 2, by omega⟩
      have htodo : todo < walk := hc.position.todo_le.trans_lt (hwalk 0 le_rfl)
      have hr := (SortedMap.mem_of_find_eq_some hfind).1
      obtain ⟨x, hmove, harrived⟩ := hs.moveClose_ok hc.level_lt hc.position hfind htodo
      have hrrow := List.mem_cons_of_mem (s.headIdx 0) (mem_nodes_of_mem hr)
      obtain ⟨heap, root, hroot, hunlink, hs'⟩ := hs.unlinkLevel (fuel + 1) hc hfind hmove
        harrived (hs.down_zero harrived.mem_row) (hs.down_zero hrrow)
      obtain ⟨b, root', hbody, hcells⟩ := hs.arrived_cells hcomplete harrived
      rw [Heap.root_ok hbody] at hroot
      cases hroot
      refine ⟨heap, root, ?_, ?_, hcells⟩
      · rw [hunlink]
        rfl
      · rw [eraseUpTo_zero]
        exact hs'
  | succ i ih =>
      obtain ⟨fuel, rfl⟩ : ∃ n, fuel = n + 1 := ⟨fuel - 1, by omega⟩
      have hi : i < s.maxHeight := Nat.lt_of_succ_lt hc.level_lt
      have htodo : todo < walk := hc.position.todo_le.trans_lt (hwalk (i + 1) le_rfl)
      obtain ⟨hr, hsame⟩ := SortedMap.mem_of_find_eq_some hfind
      obtain ⟨x, hmove, harrived⟩ := hs.moveClose_ok hc.level_lt hc.position hfind htodo
      obtain ⟨todo', hposition⟩ := harrived.position
      have hx : Cursor cmpLess s level key (i + 1) x todo' := ⟨hc.level_lt, hposition, hc.above⟩
      obtain ⟨below, rest, hdown, hbelow⟩ := hx.down hs
      obtain ⟨q, hq, hkey, -, hdownNxt⟩ := hs.down_rung hc.level_lt hr
      obtain ⟨heap, root, -, hunlink, hs'⟩ := hs.unlinkLevel fuel hc hfind hmove harrived
        hdown hdownNxt
      have hunchanged : ∀ j ≤ i, Function.update level (i + 1)
          (SortedMap.erase cmpLess key (level (i + 1))) j = level j := fun j hj ↦
        Function.update_of_ne (by omega) _ _
      have hcursor : Cursor cmpLess { s with heap } (Function.update level (i + 1)
          (SortedMap.erase cmpLess key (level (i + 1)))) key i below rest := by
        refine ⟨hi, ?_, fun j hj hjlt ↦ hc.find_erased hs hjlt hj⟩
        rw [hunchanged i le_rfl]
        exact hbelow
      have hfindBelow : SortedMap.find cmpLess key (Function.update level (i + 1)
          (SortedMap.erase cmpLess key (level (i + 1))) i) = some q := by
        rw [hunchanged i le_rfl]
        exact (hs.sortedLevel i hi).find_eq_some_iff.mpr ⟨hq, hkey ▸ hsame⟩
      have hcomplete' : Complete cells (Function.update level (i + 1)
          (SortedMap.erase cmpLess key (level (i + 1)))) := by
        intro c hcell
        rw [hunchanged 0 (Nat.zero_le i)]
        exact hcomplete c hcell
      obtain ⟨heap', d, hloop, hshaped, hd⟩ := ih hs'
        hcomplete' (some root) hcursor hfindBelow (fun j hj ↦ by
          rw [hunchanged j hj]
          exact hwalk j (Nat.le_succ_of_le hj)) (by omega : i + 2 ≤ fuel)
      rw [eraseUpTo_update] at hshaped
      exact ⟨heap', d, hunlink.trans hloop, hshaped, hd⟩

/-! ## `Delete` -/

/-- `Delete` in front of a node with the key: it returns the value and the list is without the
key. -/
theorem Shaped.unlink_ok (hs : Shaped cmpLess s cells level) (hcomplete : Complete cells level)
    {r : K × IndexPtr × DataPtr} (hc : Cursor cmpLess s level key i ix todo)
    (hfind : SortedMap.find cmpLess key (level i) = some r) :
    ∃ heap, s.unlink (some ix) r.2.1 =
        .ok ((SortedMap.find cmpLess key cells).map fun c ↦ c.2.2, { s with heap }) ∧
      Shaped cmpLess { s with heap } (SortedMap.erase cmpLess key cells)
        (eraseUpTo cmpLess key i level) ∧
      Complete (SortedMap.erase cmpLess key cells) (eraseUpTo cmpLess key i level) := by
  obtain ⟨hr, hsame⟩ := SortedMap.mem_of_find_eq_some hfind
  obtain ⟨target, hbody, -⟩ := hs.rung i hc.level_lt r hr
  obtain ⟨v, hcells, hroot⟩ := hs.find_cells_of_level hc.level_lt hfind
  have hfresh : s.heap.fresh < s.steps := by
    rw [SkipList.steps]
    have hmul : 1 * (s.heap.fresh + 1) ≤ s.maxHeight * (s.heap.fresh + 1) :=
      Nat.mul_le_mul_right _ hs.positive
    omega
  have hlevels : i + 2 ≤ s.steps := by
    have hi := hc.level_lt
    have hmul : s.maxHeight ≤ s.maxHeight * (s.heap.fresh + 1) :=
      Nat.le_mul_of_pos_right _ (Nat.succ_pos _)
    rw [SkipList.steps]
    omega
  obtain ⟨heap, d, hloop, hs', hd⟩ := hs.unlinkTower_ok hcomplete none hc hfind
    (fun j hj ↦ (hs.length_level_le (hj.trans_lt hc.level_lt)).trans_lt hfresh) hlevels
  have hgone : ∀ j < s.maxHeight,
      SortedMap.find cmpLess key (eraseUpTo cmpLess key i level j) = none := by
    intro j hj
    rw [eraseUpTo]
    split
    · rw [(hs.sortedLevel j hj).find_erase, if_pos (SortedMap.same_refl key)]
    · exact hc.above j (by omega) hj
  obtain ⟨hcell, -⟩ := SortedMap.mem_of_find_eq_some hcells
  have hdbody : heap.dataBody r.2.2 = some (some r.1, some v) := hs'.cell _ hcell
  have hdmem : d ∈ s.pHead :: (nodes cells ++ [s.pTail]) := by
    rw [← List.cons_append]
    exact List.mem_append_left _ hd.mem_row
  obtain ⟨b, hb⟩ := Option.ne_none_iff_exists'.mp (hs'.dataBody_ne_none hdmem)
  have hne : d ≠ r.2.2 := hd.ne hs'.linkedCells hcells
  obtain ⟨after, hafter⟩ :=
    hs'.linkedCells.exists_next (List.mem_cons_of_mem _ (mem_nodes_of_mem hcell))
  obtain ⟨h₁, h₂, hnext, hset, hdelete, hindex, hfresh₂, hskip⟩ :=
    Heap.unlinkData_ok hb hdbody hne.symm hafter
  have hs'' := hs'.eraseCell hd hcells hgone hindex hfresh₂ hskip
  refine ⟨h₂, ?_, hs'', fun c hc ↦ ?_⟩
  · simp only [SkipList.unlink, Heap.value_ok hbody hroot, Heap.root_ok hbody, hloop, hnext, hset,
      hdelete, ok_bind, hcells]
    rfl
  · obtain ⟨hcmem, hdiff⟩ := hs.sortedCells.mem_erase_iff.mp hc
    obtain ⟨q, hq, hqroot⟩ := hcomplete c hcmem
    refine ⟨q, ?_, hqroot⟩
    rw [eraseUpTo, if_pos (Nat.zero_le i), (hs.sortedLevel 0 hs.positive).mem_erase_iff]
    refine ⟨hq, fun hqsame ↦ hdiff ?_⟩
    obtain ⟨w, hqcell, -⟩ := hs.rootBody hs.positive hq
    obtain rfl := hs.linkedCells.eq_of_node_eq hcmem hqcell hqroot.symm
    exact hqsame

theorem Shaped.deleteLoop_ok (hs : Shaped cmpLess s cells level) (hcomplete : Complete cells level)
    {fuel : ℕ} (hc : Cursor cmpLess s level key i ix todo)
    (hfuel : i * (s.heap.fresh + 1) + todo + 2 ≤ fuel) :
    ∃ heap level', s.deleteLoop cmpLess key fuel (some ix) =
        .ok ((SortedMap.find cmpLess key cells).map fun c ↦ c.2.2, { s with heap }) ∧
      Shaped cmpLess { s with heap } (SortedMap.erase cmpLess key cells) level' ∧
      Complete (SortedMap.erase cmpLess key cells) level' ∧
      ∀ j < s.maxHeight, level' j = SortedMap.erase cmpLess key (level j) := by
  induction fuel generalizing i ix todo with
  | zero => omega
  | succ fuel ih =>
      obtain ⟨nxt, turn, hnext, hturn, hspec⟩ := hc.turn hs
      rw [SkipList.deleteLoop, if_pos (Option.some_ne_none ix), hnext, ok_bind, hturn, ok_bind]
      cases turn with
      | descent =>
          cases i with
          | zero =>
              have hdown : s.heap.down (some ix) = .ok none := hc.down hs
              have hnone := hs.find_cells_eq_none hcomplete hspec.2
              have herase := hs.sortedCells.erase_of_find_eq_none hnone
              refine ⟨s.heap, level, ?_, by rwa [herase], by rwa [herase], fun j hj ↦ ?_⟩
              · obtain ⟨fuel, rfl⟩ : ∃ n, fuel = n + 1 := ⟨fuel - 1, by omega⟩
                simp only [hdown, ok_bind, hnone]
                rfl
              · -- the key is not on level 0, and so on no level
                have habsent : SortedMap.find cmpLess key (level j) = none := by
                  rcases Nat.eq_zero_or_pos j with rfl | hpos
                  · exact hspec.2
                  · exact hc.above j hpos hj
                exact ((hs.sortedLevel j hj).erase_of_find_eq_none habsent).symm
          | succ j =>
              obtain ⟨below, todo', hdown, hbelow, htodo⟩ := hc.descend hs hspec.2
              simp only [hdown, ok_bind]
              refine ih hbelow ?_
              rw [Nat.succ_mul] at hfuel
              omega
      | right =>
          obtain ⟨rest, rfl, hright⟩ := hspec
          exact ih hright (by omega)
      | found =>
          obtain ⟨r, hr, rfl⟩ := hspec
          obtain ⟨heap, hunlink, hs', hcomplete'⟩ := hs.unlink_ok hcomplete hc hr
          refine ⟨heap, _, hunlink, hs', hcomplete', fun j hj ↦ ?_⟩
          rw [eraseUpTo]
          split
          · rfl
          · exact ((hs.sortedLevel j hj).erase_of_find_eq_none (hc.above j (by omega) hj)).symm

/-- `Delete` returns the value stored under the key, if any, and removes it from the data nodes and
from every level. -/
theorem Shaped.delete_ok (hs : Shaped cmpLess s cells level) (hcomplete : Complete cells level)
    (key : K) : ∃ heap level', s.delete cmpLess key =
        .ok ((SortedMap.find cmpLess key cells).map fun c ↦ c.2.2, { s with heap }) ∧
      Shaped cmpLess { s with heap } (SortedMap.erase cmpLess key cells) level' ∧
      Complete (SortedMap.erase cmpLess key cells) level' ∧
      ∀ j < s.maxHeight, level' j = SortedMap.erase cmpLess key (level j) := by
  obtain ⟨ix, htop, hc⟩ := hs.start key
  rw [SkipList.delete, htop]
  exact hs.deleteLoop_ok hcomplete hc hs.fuel_le_steps

end CppMtHw.Skiplist
