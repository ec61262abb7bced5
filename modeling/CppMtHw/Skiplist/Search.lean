import CppMtHw.Skiplist.Shape

/-!
# Searches

A search descends through the levels. On each it stands on the sentinel or on a node with
a smaller key, and the key sought is on no level above. `find`, `insert_pair` and
`Delete` take the same steps, and all of them end after `steps` steps.
-/

namespace CppMtHw.Skiplist

open Machine

variable {K V : Type} {cmpLess : K → K → Prop} {s : SkipList K V} {cells : Cells K V}
  {level : ℕ → Level K} {i todo : ℕ} {ix : IndexPtr} {key : K}

/-! ## What the nodes of a level have in common -/

namespace Shaped

theorem rootBody (hs : Shaped cmpLess s cells level) (hi : i < s.maxHeight)
    {r : K × IndexPtr × DataPtr} (hr : r ∈ level i) : ∃ v, (r.1, r.2.2, v) ∈ cells ∧
      s.heap.dataBody r.2.2 = some (some r.1, some v) := by
  obtain ⟨⟨k, d, v⟩, hc, rfl, rfl⟩ := hs.rooted i hi r hr
  exact ⟨v, hc, hs.cell _ hc⟩

theorem ne_tailIdx (hs : Shaped cmpLess s cells level) (hi : i < s.maxHeight) {p : IndexPtr}
    (hp : p ∈ s.headIdx i :: nodes (level i)) : p ≠ s.pTailIdx := by
  rintro rfl
  have hrow := (hs.linkedLevel i hi).nodup
  rw [← List.cons_append, List.nodup_append] at hrow
  exact hrow.2.2 _ hp _ (List.mem_singleton.mpr rfl) rfl

/-- The node below a node of level `i + 1` belongs to the same key. -/
theorem exists_lower (hs : Shaped cmpLess s cells level) (hi : i + 1 < s.maxHeight)
    {r : K × IndexPtr × DataPtr} (hr : r ∈ level (i + 1)) :
    ∃ q ∈ level i, q.1 = r.1 ∧ q.2.2 = r.2.2 ∧
      s.heap.indexBody r.2.1 = some (some (.index q.2.1), some r.2.2) := by
  obtain ⟨target, hbody, q, hq, hroot, rfl⟩ := hs.rung (i + 1) hi r hr
  obtain ⟨v, -, hrkey⟩ := hs.rootBody hi hr
  obtain ⟨w, -, hqkey⟩ := hs.rootBody (Nat.lt_of_succ_lt hi) hq
  rw [hroot, hrkey] at hqkey
  refine ⟨q, hq, ?_, hroot, hbody⟩
  have hkeys := (Prod.mk.inj (Option.some.inj hqkey)).1
  exact (Option.some.inj hkeys).symm

theorem indexBody_ne_none (hs : Shaped cmpLess s cells level) (hi : i < s.maxHeight)
    {p : IndexPtr} (hp : p ∈ s.headIdx i :: nodes (level i)) : s.heap.indexBody p ≠ none := by
  rcases List.mem_cons.mp hp with rfl | hp
  · rw [hs.headIdx i hi]
    exact Option.some_ne_none _
  · obtain ⟨r, hr, rfl⟩ := mem_nodes.mp hp
    obtain ⟨target, hbody, -⟩ := hs.rung i hi r hr
    rw [hbody]
    exact Option.some_ne_none _

theorem down_zero (hs : Shaped cmpLess s cells level) {p : IndexPtr}
    (hp : p ∈ s.headIdx 0 :: nodes (level 0)) : s.heap.down (some p) = .ok none := by
  rcases List.mem_cons.mp hp with rfl | hp
  · exact Heap.down_ok (hs.headIdx 0 hs.positive) (by simp [SkipList.headDown])
  · obtain ⟨r, hr, rfl⟩ := mem_nodes.mp hp
    obtain ⟨target, hbody, rfl⟩ := hs.rung 0 hs.positive r hr
    obtain ⟨v, -, hroot⟩ := hs.rootBody hs.positive hr
    refine Heap.down_ok hbody fun target htarget ↦ ?_
    cases htarget
    rw [Heap.Exists, hroot]
    exact Option.some_ne_none _

theorem down_head (hs : Shaped cmpLess s cells level) (hi : i + 1 < s.maxHeight) :
    s.heap.down (some (s.headIdx (i + 1))) = .ok (some (s.headIdx i)) := by
  refine Heap.down_ok (hs.headIdx (i + 1) hi) fun target htarget ↦ ?_
  cases htarget
  exact hs.indexBody_ne_none (Nat.lt_of_succ_lt hi) List.mem_cons_self

theorem down_rung (hs : Shaped cmpLess s cells level) (hi : i + 1 < s.maxHeight)
    {r : K × IndexPtr × DataPtr} (hr : r ∈ level (i + 1)) :
    ∃ q ∈ level i, q.1 = r.1 ∧ q.2.2 = r.2.2 ∧ s.heap.down (some r.2.1) = .ok (some q.2.1) := by
  obtain ⟨q, hq, hkey, hroot, hbody⟩ := hs.exists_lower hi hr
  refine ⟨q, hq, hkey, hroot, Heap.down_ok hbody fun target htarget ↦ ?_⟩
  cases htarget
  exact hs.indexBody_ne_none (Nat.lt_of_succ_lt hi) (List.mem_cons_of_mem _ (mem_nodes_of_mem hq))

theorem dataBody_ne_none (hs : Shaped cmpLess s cells level) {p : DataPtr}
    (hp : p ∈ s.pHead :: (nodes cells ++ [s.pTail])) : s.heap.dataBody p ≠ none := by
  rcases List.mem_cons.mp hp with rfl | hp
  · rw [hs.head]
    exact Option.some_ne_none _
  rcases List.mem_append.mp hp with hp | hp
  · obtain ⟨c, hc, rfl⟩ := mem_nodes.mp hp
    rw [hs.cell c hc]
    exact Option.some_ne_none _
  · rw [List.mem_singleton.mp hp, hs.tail]
    exact Option.some_ne_none _

/-- Below the nodes of the lowest level there are no index nodes. -/
theorem below_lowest (hs : Shaped cmpLess s cells level) (hpos : 0 < s.maxHeight) {p : IndexPtr}
    (hp : p ∈ s.headIdx 0 :: nodes (level 0)) :
    ∃ down root, s.heap.indexBody p = some (down, root) ∧ ∀ y, down ≠ some (.index y) := by
  rcases List.mem_cons.mp hp with rfl | hp
  · refine ⟨_, _, hs.headIdx 0 hpos, ?_⟩
    simp [SkipList.headDown]
  · obtain ⟨r, hr, rfl⟩ := mem_nodes.mp hp
    obtain ⟨target, hbody, hlower⟩ := hs.rung 0 hpos r hr
    refine ⟨_, _, hbody, ?_⟩
    rw [Lower] at hlower
    simp [hlower]

/-- Below a node of a higher level there is one of the next lower level. -/
theorem below_upper (hs : Shaped cmpLess s cells level) (hi : i + 1 < s.maxHeight) {p : IndexPtr}
    (hp : p ∈ s.headIdx (i + 1) :: nodes (level (i + 1))) :
    ∃ y root, s.heap.indexBody p = some (some (.index y), root) ∧
    y ∈ s.headIdx i :: nodes (level i) := by
  rcases List.mem_cons.mp hp with rfl | hp
  · exact ⟨s.headIdx i, _, hs.headIdx (i + 1) hi, List.mem_cons_self⟩
  · obtain ⟨r, hr, rfl⟩ := mem_nodes.mp hp
    obtain ⟨target, hbody, hlower⟩ := hs.rung (i + 1) hi r hr
    obtain ⟨below, hmem, -, rfl⟩ := hlower
    exact ⟨below.2.1, _, hbody, List.mem_cons_of_mem _ (mem_nodes_of_mem hmem)⟩

/-- No index node is on two levels: the nodes below it tell on which it is. -/
theorem level_unique (hs : Shaped cmpLess s cells level) {j : ℕ} {p : IndexPtr}
    (hi : i < s.maxHeight) (hj : j < s.maxHeight) (hpi : p ∈ s.headIdx i :: nodes (level i))
    (hpj : p ∈ s.headIdx j :: nodes (level j)) : i = j := by
  induction i generalizing j p with
  | zero =>
      cases j with
      | zero => rfl
      | succ j =>
          obtain ⟨down, root, hbody, hnone⟩ := hs.below_lowest hi hpi
          obtain ⟨y, root', hbody', -⟩ := hs.below_upper hj hpj
          rw [hbody'] at hbody
          cases hbody
          exact absurd rfl (hnone y)
  | succ i ih =>
      cases j with
      | zero =>
          obtain ⟨down, root, hbody, hnone⟩ := hs.below_lowest hj hpj
          obtain ⟨y, root', hbody', -⟩ := hs.below_upper hi hpi
          rw [hbody'] at hbody
          cases hbody
          exact absurd rfl (hnone y)
      | succ j =>
          obtain ⟨y, root, hbody, hmem⟩ := hs.below_upper hi hpi
          obtain ⟨z, root', hbody', hmem'⟩ := hs.below_upper hj hpj
          rw [hbody'] at hbody
          cases hbody
          rw [ih (Nat.lt_of_succ_lt hi) (Nat.lt_of_succ_lt hj) hmem hmem']

theorem not_mem_row (hs : Shaped cmpLess s cells level) {j : ℕ} {p : IndexPtr}
    (hi : i < s.maxHeight) (hj : j < s.maxHeight) (hij : j ≠ i)
    (hp : p ∈ s.headIdx i :: nodes (level i)) :
    p ∉ s.headIdx j :: (nodes (level j) ++ [s.pTailIdx]) := by
  intro hrow
  rw [← List.cons_append, List.mem_append, List.mem_singleton] at hrow
  exact hrow.elim (fun hpj ↦ hij (hs.level_unique hj hi hpj hp)) (hs.ne_tailIdx hi hp)

theorem sortedLevel_update (hs : Shaped cmpLess s cells level) {row : Level K}
    (hrow : SortedMap.Sorted cmpLess row) :
    ∀ j < s.maxHeight, SortedMap.Sorted cmpLess (Function.update level i row j) := by
  intro j hj
  rw [Function.update_apply]
  split
  · exact hrow
  · exact hs.sortedLevel j hj

/-- Links that differ only on level `i`, which they link anew. -/
theorem linkedLevel_update (hs : Shaped cmpLess s cells level) {row : Level K}
    {next : IndexPtr → Option IndexPtr}
    (hrow : Linked next (s.headIdx i) s.pTailIdx row)
    (hsame : ∀ j < s.maxHeight, j ≠ i → ∀ z ∈ s.headIdx j :: (nodes (level j) ++ [s.pTailIdx]),
      next z = s.heap.indexLink z) :
    ∀ j < s.maxHeight, Linked next (s.headIdx j) s.pTailIdx (Function.update level i row j) := by
  intro j hj
  by_cases hji : j = i
  · subst hji
    rwa [Function.update_self]
  · rw [Function.update_of_ne hji]
    exact (hs.linkedLevel j hj).congr (hsame j hj hji)

theorem length_level_le (hs : Shaped cmpLess s cells level) (hi : i < s.maxHeight) :
    (level i).length ≤ s.heap.fresh := by
  have hnodup := (hs.linkedLevel i hi).nodup_nodes
  have hsub : nodes (level i) ⊆ List.range s.heap.fresh := by
    intro p hp
    rw [List.mem_range]
    by_contra hfresh
    exact hs.indexBody_ne_none hi (List.mem_cons_of_mem _ hp)
      (hs.fresh p (Nat.le_of_not_lt hfresh)).2
  simpa using hnodup.length_le_of_subset hsub

/-- The fuel is enough for a search from the top. -/
theorem fuel_le_steps (hs : Shaped cmpLess s cells level) :
    (s.maxHeight - 1) * (s.heap.fresh + 1) + (level (s.maxHeight - 1)).length + 2 ≤ s.steps := by
  have hpositive := hs.positive
  have hlength := hs.length_level_le (Nat.sub_one_lt_of_lt hpositive)
  have hmul : s.maxHeight * (s.heap.fresh + 1) =
      (s.maxHeight - 1) * (s.heap.fresh + 1) + (s.heap.fresh + 1) := by
    rw [← Nat.succ_mul, Nat.succ_eq_add_one, Nat.sub_add_cancel hpositive]
  rw [SkipList.steps, hmul]
  omega

end Shaped

/-! ## One step of a search -/

/-- A search for `key` stands on `ix`, on level `i`, with `todo` nodes of the level in front of
it. -/
structure Cursor (cmpLess : K → K → Prop) [DecidableRel cmpLess] (s : SkipList K V)
    (level : ℕ → Level K) (key : K) (i : ℕ) (ix : IndexPtr) (todo : ℕ) : Prop where
  level_lt : i < s.maxHeight
  position : Position cmpLess key (s.headIdx i) (level i) ix todo
  above : ∀ j, i < j → j < s.maxHeight → SortedMap.find cmpLess key (level j) = none

section Position

variable [DecidableRel cmpLess]

theorem Shaped.start (hs : Shaped cmpLess s cells level) (key : K) :
    ∃ ix, s.top = some ix ∧
      Cursor cmpLess s level key (s.maxHeight - 1) ix (level (s.maxHeight - 1)).length := by
  have hpositive := hs.positive
  have hlt : s.maxHeight - 1 < s.aHeadIdx.length := by
    rw [SkipList.maxHeight] at hpositive ⊢
    omega
  have hhead : s.headIdx (s.maxHeight - 1) = s.aHeadIdx[s.maxHeight - 1] := by
    simp only [SkipList.headIdx, List.getD_eq_getElem?_getD, List.getElem?_eq_getElem hlt,
      Option.getD_some]
  refine ⟨s.headIdx (s.maxHeight - 1), ?_, by omega, Position.start, fun j hj hjlt ↦ by omega⟩
  rw [hhead]
  exact List.getElem?_eq_getElem hlt

theorem Cursor.mem_row (hc : Cursor cmpLess s level key i ix todo) :
    ix ∈ s.headIdx i :: nodes (level i) := by
  rcases hc.position.head_or_mem with rfl | ⟨r, hr, rfl, -⟩
  · exact List.mem_cons_self
  · exact List.mem_cons_of_mem _ (mem_nodes_of_mem hr)

theorem Cursor.ne_tailIdx (hs : Shaped cmpLess s cells level)
    (hc : Cursor cmpLess s level key i ix todo) : ix ≠ s.pTailIdx :=
  hs.ne_tailIdx hc.level_lt hc.mem_row

end Position

variable [DecidableRel cmpLess] [IsStrictWeakOrder K cmpLess]

/-- The comparisons of a search, and what each of their outcomes says. -/
theorem Cursor.turn (hs : Shaped cmpLess s cells level)
    (hc : Cursor cmpLess s level key i ix todo) :
    ∃ nxt turn, s.heap.next (some ix) = .ok nxt ∧ s.turn cmpLess key nxt = .ok turn ∧
      match turn with
      | .descent => Arrived cmpLess key (s.headIdx i) (level i) ix ∧
          SortedMap.find cmpLess key (level i) = none
      | .right => ∃ rest, rest + 1 = todo ∧ Cursor cmpLess s level key i nxt rest
      | .found => ∃ r, SortedMap.find cmpLess key (level i) = some r ∧ nxt = r.2.1 := by
  have hi := hc.level_lt
  rcases hc.position.advance (hs.sortedLevel i hi) (hs.linkedLevel i hi) with
    ⟨hnext, hend⟩ | ⟨r, hr, hnext, hbelow, habove, hsame⟩
  · refine ⟨s.pTailIdx, .descent, Heap.next_ok hnext, ?_, hend⟩
    rw [SkipList.turn, if_pos rfl]
    rfl
  · obtain ⟨target, hbody, -⟩ := hs.rung i hi r hr
    obtain ⟨v, -, hroot⟩ := hs.rootBody hi hr
    have hkey : s.heap.key (some r.2.1) = .ok r.1 := Heap.key_ok hbody hroot
    have hmem : r.2.1 ∈ s.headIdx i :: nodes (level i) :=
      List.mem_cons_of_mem _ (mem_nodes_of_mem hr)
    have hturn : s.turn cmpLess key r.2.1 = .ok (if cmpLess key r.1 then .descent
        else if cmpLess r.1 key then .right else .found) := by
      rw [SkipList.turn, if_neg (hs.ne_tailIdx hi hmem), hkey]
      rfl
    refine ⟨r.2.1, _, Heap.next_ok hnext, hturn, ?_⟩
    by_cases hlt : cmpLess key r.1
    · rw [if_pos hlt]
      exact hbelow hlt
    · rw [if_neg hlt]
      by_cases hgt : cmpLess r.1 key
      · rw [if_pos hgt]
        obtain ⟨rest, hrest, hposition⟩ := habove hgt
        exact ⟨rest, hrest, hi, hposition, hc.above⟩
      · rw [if_neg hgt]
        exact ⟨r, (hsame ⟨hgt, hlt⟩).2, rfl⟩

/-- The way down: from level 0 to nowhere, and from every other level to a node with the same
key. -/
theorem Cursor.down (hs : Shaped cmpLess s cells level)
    (hc : Cursor cmpLess s level key i ix todo) :
    match i with
    | 0 => s.heap.down (some ix) = .ok none
    | j + 1 => ∃ below todo', s.heap.down (some ix) = .ok (some below) ∧
        Position cmpLess key (s.headIdx j) (level j) below todo' := by
  cases i with
  | zero => exact hs.down_zero hc.mem_row
  | succ j =>
      have hj : j < s.maxHeight := Nat.lt_of_succ_lt hc.level_lt
      rcases hc.position.head_or_mem with rfl | ⟨r, hr, rfl, hlt⟩
      · exact ⟨s.headIdx j, _, hs.down_head hc.level_lt, Position.start⟩
      · obtain ⟨q, hq, hkey, -, hdown⟩ := hs.down_rung hc.level_lt hr
        obtain ⟨todo', hposition⟩ := Position.of_mem (hs.sortedLevel j hj) hq (hkey ▸ hlt)
        exact ⟨q.2.1, todo', hdown, hposition⟩

/-- A search that finds nothing on its level goes on one level below. -/
theorem Cursor.descend (hs : Shaped cmpLess s cells level)
    (hc : Cursor cmpLess s level key (i + 1) ix todo)
    (hnone : SortedMap.find cmpLess key (level (i + 1)) = none) :
    ∃ below todo', s.heap.down (some ix) = .ok (some below) ∧
      Cursor cmpLess s level key i below todo' ∧ todo' ≤ s.heap.fresh := by
  obtain ⟨below, todo', hdown, hposition⟩ := hc.down hs
  have hi : i < s.maxHeight := Nat.lt_of_succ_lt hc.level_lt
  refine ⟨below, todo', hdown, ⟨hi, hposition, fun j hij hj ↦ ?_⟩,
    hposition.todo_le.trans (hs.length_level_le hi)⟩
  rcases Nat.lt_or_eq_of_le (Nat.succ_le_of_lt hij) with hlt | rfl
  · exact hc.above j hlt hj
  · exact hnone

/-! ## `find` -/

theorem Shaped.find_cells_of_level (hs : Shaped cmpLess s cells level) (hi : i < s.maxHeight)
    {r : K × IndexPtr × DataPtr} (hr : SortedMap.find cmpLess key (level i) = some r) :
    ∃ v, SortedMap.find cmpLess key cells = some (r.1, r.2.2, v) ∧
      s.heap.dataBody r.2.2 = some (some r.1, some v) := by
  obtain ⟨hmem, hsame⟩ := SortedMap.mem_of_find_eq_some hr
  obtain ⟨v, hcell, hbody⟩ := hs.rootBody hi hmem
  exact ⟨v, hs.sortedCells.find_eq_some_iff.mpr ⟨hcell, hsame⟩, hbody⟩

theorem Shaped.find_level_zero (hs : Shaped cmpLess s cells level)
    (hcomplete : Complete cells level) {c : K × DataPtr × V}
    (hc : SortedMap.find cmpLess key cells = some c) :
    ∃ r, SortedMap.find cmpLess key (level 0) = some r ∧ r.1 = c.1 ∧ r.2.2 = c.2.1 := by
  obtain ⟨hmem, hsame⟩ := SortedMap.mem_of_find_eq_some hc
  obtain ⟨r, hr, hroot⟩ := hcomplete c hmem
  obtain ⟨v, -, hbody⟩ := hs.rootBody hs.positive hr
  rw [hroot, hs.cell c hmem] at hbody
  have hkey : r.1 = c.1 := by
    have hkeys := (Prod.mk.inj (Option.some.inj hbody)).1
    exact (Option.some.inj hkeys).symm
  refine ⟨r, (hs.sortedLevel 0 hs.positive).find_eq_some_iff.mpr ⟨hr, ?_⟩, hkey, hroot⟩
  rw [hkey]
  exact hsame

theorem Shaped.find_cells_eq_none (hs : Shaped cmpLess s cells level)
    (hcomplete : Complete cells level) (hnone : SortedMap.find cmpLess key (level 0) = none) :
    SortedMap.find cmpLess key cells = none := by
  rw [Option.eq_none_iff_forall_ne_some]
  intro c hc
  obtain ⟨r, hr, -⟩ := hs.find_level_zero hcomplete hc
  rw [hnone] at hr
  cases hr

theorem Shaped.findLoop_eq (hs : Shaped cmpLess s cells level) (hcomplete : Complete cells level)
    {fuel : ℕ} (hc : Cursor cmpLess s level key i ix todo)
    (hfuel : i * (s.heap.fresh + 1) + todo + 2 ≤ fuel) :
    s.findLoop cmpLess key fuel i (some ix) =
      .ok ((SortedMap.find cmpLess key cells).map fun c ↦ c.2.1) := by
  induction fuel generalizing i ix todo with
  | zero => omega
  | succ fuel ih =>
      obtain ⟨nxt, turn, hnext, hturn, hspec⟩ := hc.turn hs
      rw [SkipList.findLoop, if_pos (Int.natCast_nonneg i), hnext, ok_bind, hturn, ok_bind]
      cases turn with
      | descent =>
          cases i with
          | zero =>
              have hdown : s.heap.down (some ix) = .ok none := hc.down hs
              rw [hs.find_cells_eq_none hcomplete hspec.2]
              simp only [hdown, ok_bind]
              cases fuel with
              | zero => omega
              | succ fuel => rfl
          | succ j =>
              obtain ⟨below, todo', hdown, hbelow, htodo⟩ := hc.descend hs hspec.2
              have hlevel : ((j + 1 : ℕ) : ℤ) - 1 = (j : ℕ) := by omega
              simp only [hdown, ok_bind, hlevel]
              refine ih hbelow ?_
              rw [Nat.succ_mul] at hfuel
              omega
      | right =>
          obtain ⟨rest, rfl, hright⟩ := hspec
          exact ih hright (by omega)
      | found =>
          obtain ⟨r, hr, rfl⟩ := hspec
          obtain ⟨v, hfind, -⟩ := hs.find_cells_of_level hc.level_lt hr
          obtain ⟨target, hbody, -⟩ :=
            hs.rung i hc.level_lt r (SortedMap.mem_of_find_eq_some hr).1
          rw [hfind]
          exact Heap.root_ok hbody

theorem Shaped.find_eq (hs : Shaped cmpLess s cells level) (hcomplete : Complete cells level)
    (key : K) : s.find cmpLess key =
      .ok ((SortedMap.find cmpLess key cells).map fun c ↦ c.2.1) := by
  obtain ⟨ix, htop, hc⟩ := hs.start key
  have hlast : (s.maxHeight : ℤ) - 1 = ((s.maxHeight - 1 : ℕ) : ℤ) := by
    have hpositive := hs.positive
    omega
  rw [SkipList.find, htop, hlast]
  exact hs.findLoop_eq hcomplete hc hs.fuel_le_steps

theorem Shaped.get_eq (hs : Shaped cmpLess s cells level) (hcomplete : Complete cells level)
    (key : K) : s.get cmpLess key =
      .ok ((SortedMap.find cmpLess key cells).map fun c ↦ c.2.2) := by
  rw [SkipList.get, hs.find_eq hcomplete, ok_bind]
  cases hfind : SortedMap.find cmpLess key cells with
  | none => rfl
  | some c =>
      have hcell := hs.cell c (SortedMap.mem_of_find_eq_some hfind).1
      simp only [Option.map_some, Heap.dataValue_ok hcell, ok_bind]
      rfl

end CppMtHw.Skiplist
