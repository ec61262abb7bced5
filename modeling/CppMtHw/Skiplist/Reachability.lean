import CppMtHw.Skiplist.Refinement

/-!
# The nodes of a skip list

The shape of a skip list in terms of its links. The nodes that exist are those that the
links lead to from `pHead` and `aHeadIdx`, so nothing is leaked and no link leads to a
node that has been deleted; `Delete` removes the tower of a key and its data node, each of
them once, because deleting a node that does not exist is a fault.
-/

namespace CppMtHw.Skiplist

open Machine

variable {K V : Type} {cmpLess : K → K → Prop} {s s' : SkipList K V} {cells : Cells K V}
  {level : ℕ → Level K} {h heap : Heap K V} {i : ℕ} {p q : NodePtr} {key : K}

/-- A node holds a pointer to another one: its `pNext`, `pDown` or `pRoot`. -/
inductive Heap.Leads (h : Heap K V) : NodePtr → NodePtr → Prop
  | dataNext {p q : DataPtr} (hnext : h.dataLink p = some q) : Leads h (.data p) (.data q)
  | indexNext {p q : IndexPtr} (hnext : h.indexLink p = some q) : Leads h (.index p) (.index q)
  | down {p : IndexPtr} {target : NodePtr} {root : Option DataPtr}
      (hbody : h.indexBody p = some (some target, root)) : Leads h (.index p) target
  | root {p : IndexPtr} {down : Option NodePtr} {r : DataPtr}
      (hbody : h.indexBody p = some (down, some r)) : Leads h (.index p) (.data r)

/-- The pointers that the list itself holds to nodes from which it works. -/
def SkipList.Anchor (s : SkipList K V) (p : NodePtr) : Prop :=
  p = .data s.pHead ∨ ∃ i < s.maxHeight, p = .index (s.headIdx i)

/-- The node can be reached from `pHead` or `aHeadIdx`. -/
def SkipList.Reached (s : SkipList K V) (p : NodePtr) : Prop :=
  ∃ anchor, s.Anchor anchor ∧ Relation.ReflTransGen s.heap.Leads anchor p

/-- The node belongs to the key of the data node `d`: that node or an index node above it. -/
def SkipList.InTower (s : SkipList K V) (d : DataPtr) : NodePtr → Prop
  | .data p => p = d
  | .index p => ∃ down, s.heap.indexBody p = some (down, some d)

/-- The shape of a skip list: the data list and the index levels are strictly increasing and end at
`pTail` and `pTailIdx`, level 0 indexes every data node, the index nodes lead down to the node with
the same root and from level 0 to the data node, and the nodes that exist are those that can be
reached. -/
structure SkipList.InShape (cmpLess : K → K → Prop) (s : SkipList K V) (cells : Cells K V)
    (level : ℕ → Level K) : Prop where
  sortedCells : SortedMap.Sorted cmpLess cells
  linkedCells : Linked s.heap.dataLink s.pHead s.pTail cells
  cell : ∀ c ∈ cells, s.heap.dataBody c.2.1 = some (some c.1, some c.2.2)
  sortedLevel : ∀ i < s.maxHeight, SortedMap.Sorted cmpLess (level i)
  linkedLevel : ∀ i < s.maxHeight, Linked s.heap.indexLink (s.headIdx i) s.pTailIdx (level i)
  keyed : ∀ i < s.maxHeight, ∀ r ∈ level i, ∃ v down, (r.1, r.2.2, v) ∈ cells ∧
    s.heap.indexBody r.2.1 = some (down, some r.2.2)
  complete : Complete cells level
  down : ∀ i, i + 1 < s.maxHeight → ∀ p ∈ s.headIdx (i + 1) :: nodes (level (i + 1)),
    ∃ q ∈ s.headIdx i :: nodes (level i), ∃ root below,
      s.heap.indexBody p = some (some (.index q), some root) ∧
      s.heap.indexBody q = some (below, some root)
  bottom : ∀ p ∈ nodes (level 0), ∃ root, s.heap.indexBody p = some (some (.data root), some root)
  allocated : ∀ p, s.heap.Exists p ↔ s.Reached p

/-! ## What exists is what can be reached -/

/-- A node that holds a pointer exists. -/
theorem Heap.Leads.exists_left (hleads : h.Leads p q) : h.Exists p := by
  cases hleads with
  | dataNext hnext =>
      obtain ⟨node, hnode, -⟩ := Option.bind_eq_some_iff.mp hnext
      simp [Heap.Exists, Heap.dataBody, hnode]
  | indexNext hnext =>
      obtain ⟨node, hnode, -⟩ := Option.bind_eq_some_iff.mp hnext
      simp [Heap.Exists, Heap.indexBody, hnode]
  | down hbody | root hbody =>
      rw [Heap.Exists, hbody]
      exact Option.some_ne_none _

namespace Shaped

theorem exists_data_iff (hs : Shaped cmpLess s cells level) {p : DataPtr} :
    s.heap.Exists (.data p) ↔ p ∈ s.pHead :: (nodes cells ++ [s.pTail]) :=
  ⟨hs.dataNodes p, hs.dataBody_ne_none⟩

theorem exists_index_iff (hs : Shaped cmpLess s cells level) {p : IndexPtr} :
    s.heap.Exists (.index p) ↔
      p = s.pTailIdx ∨ ∃ i < s.maxHeight, p ∈ s.headIdx i :: nodes (level i) := by
  constructor
  · exact hs.indexNodes p
  · rintro (rfl | ⟨i, hi, hp⟩)
    · rw [Heap.Exists, hs.tailIdx]
      exact Option.some_ne_none _
    · exact hs.indexBody_ne_none hi hp

theorem exists_root (hs : Shaped cmpLess s cells level) (hi : i < s.maxHeight)
    {r : K × IndexPtr × DataPtr} (hr : r ∈ level i) : s.heap.Exists (.data r.2.2) := by
  obtain ⟨v, -, hbody⟩ := hs.rootBody hi hr
  rw [Heap.Exists, hbody]
  exact Option.some_ne_none _

/-- The row of a level, its sentinels included, exists. -/
theorem exists_row (hs : Shaped cmpLess s cells level) (hi : i < s.maxHeight) {p : IndexPtr}
    (hp : p ∈ s.headIdx i :: (nodes (level i) ++ [s.pTailIdx])) : s.heap.Exists (.index p) := by
  rw [hs.exists_index_iff]
  rw [← List.cons_append, List.mem_append, List.mem_singleton] at hp
  rcases hp with hp | rfl
  · exact Or.inr ⟨i, hi, hp⟩
  · exact Or.inl rfl

/-- Links lead to nodes that exist. -/
theorem exists_of_leads (hs : Shaped cmpLess s cells level) (hleads : s.heap.Leads p q)
    (hp : s.heap.Exists p) : s.heap.Exists q := by
  cases hleads with
  | dataNext hnext =>
      exact hs.exists_data_iff.mpr (hs.linkedCells.next_mem (hs.exists_data_iff.mp hp) hnext)
  | indexNext hnext =>
      rcases hs.exists_index_iff.mp hp with rfl | ⟨i, hi, hrow⟩
      · have hlast := hs.linkedLevel 0 hs.positive
        rw [Linked, ← List.cons_append] at hlast
        rw [hlast.next_eq] at hnext
        cases hnext
      · have hmem := List.mem_append_left [s.pTailIdx] hrow
        exact hs.exists_row hi ((hs.linkedLevel i hi).next_mem hmem hnext)
  | down hbody =>
      rcases hs.exists_index_iff.mp hp with rfl | ⟨i, hi, hrow⟩
      · rw [hs.tailIdx] at hbody
        cases hbody
        exact hs.exists_data_iff.mpr (by simp)
      rcases List.mem_cons.mp hrow with rfl | hrow
      · rw [hs.headIdx i hi] at hbody
        cases i with
        | zero => cases hbody
        | succ i =>
            cases hbody
            exact hs.indexBody_ne_none (Nat.lt_of_succ_lt hi) List.mem_cons_self
      · obtain ⟨r, hr, rfl⟩ := mem_nodes.mp hrow
        cases i with
        | zero =>
            obtain ⟨target, htarget, rfl⟩ := hs.rung 0 hi r hr
            rw [htarget] at hbody
            cases hbody
            exact hs.exists_root hi hr
        | succ i =>
            obtain ⟨below, hbelow, -, -, hdown⟩ := hs.exists_lower hi hr
            rw [hdown] at hbody
            cases hbody
            exact hs.indexBody_ne_none (Nat.lt_of_succ_lt hi)
              (List.mem_cons_of_mem _ (mem_nodes_of_mem hbelow))
  | root hbody =>
      rcases hs.exists_index_iff.mp hp with rfl | ⟨i, hi, hrow⟩
      · rw [hs.tailIdx] at hbody
        cases hbody
        exact hs.exists_data_iff.mpr (by simp)
      rcases List.mem_cons.mp hrow with rfl | hrow
      · rw [hs.headIdx i hi] at hbody
        cases hbody
        exact hs.exists_data_iff.mpr (by simp)
      · obtain ⟨r, hr, rfl⟩ := mem_nodes.mp hrow
        obtain ⟨target, htarget, -⟩ := hs.rung i hi r hr
        rw [htarget] at hbody
        cases hbody
        exact hs.exists_root hi hr

/-- Every node that exists can be reached, and nothing else can. -/
theorem exists_iff_reached (hs : Shaped cmpLess s cells level) (p : NodePtr) :
    s.heap.Exists p ↔ s.Reached p := by
  constructor
  · intro hp
    cases p with
    | data p =>
        have hrow := hs.exists_data_iff.mp hp
        refine ⟨_, Or.inl rfl, ?_⟩
        exact (hs.linkedCells.reaches hrow).lift NodePtr.data fun _ _ hnext ↦ .dataNext hnext
    | index p =>
        obtain ⟨i, hi, hrow⟩ : ∃ i < s.maxHeight,
            p ∈ s.headIdx i :: (nodes (level i) ++ [s.pTailIdx]) := by
          rcases hs.exists_index_iff.mp hp with rfl | ⟨i, hi, hrow⟩
          · exact ⟨0, hs.positive, by simp⟩
          · exact ⟨i, hi, List.mem_append_left [s.pTailIdx] hrow⟩
        refine ⟨_, Or.inr ⟨i, hi, rfl⟩, ?_⟩
        exact ((hs.linkedLevel i hi).reaches hrow).lift NodePtr.index fun _ _ hnext ↦
          .indexNext hnext
  · rintro ⟨anchor, hanchor, hpath⟩
    induction hpath with
    | refl =>
        rcases hanchor with rfl | ⟨i, hi, rfl⟩
        · exact hs.exists_data_iff.mpr List.mem_cons_self
        · exact hs.indexBody_ne_none hi List.mem_cons_self
    | tail _ hleads ih => exact hs.exists_of_leads hleads ih

theorem inShape (hs : Shaped cmpLess s cells level) (hcomplete : Complete cells level) :
    s.InShape cmpLess cells level where
  sortedCells := hs.sortedCells
  linkedCells := hs.linkedCells
  cell := hs.cell
  sortedLevel := hs.sortedLevel
  linkedLevel := hs.linkedLevel
  keyed i hi r hr := by
    obtain ⟨v, hcell, -⟩ := hs.rootBody hi hr
    obtain ⟨target, hbody, -⟩ := hs.rung i hi r hr
    exact ⟨v, _, hcell, hbody⟩
  complete := hcomplete
  down i hi p hp := by
    have hi' : i < s.maxHeight := Nat.lt_of_succ_lt hi
    rcases List.mem_cons.mp hp with rfl | hp
    · exact ⟨s.headIdx i, List.mem_cons_self, _, _, hs.headIdx (i + 1) hi, hs.headIdx i hi'⟩
    · obtain ⟨r, hr, rfl⟩ := mem_nodes.mp hp
      obtain ⟨below, hbelow, -, hroot, hbody⟩ := hs.exists_lower hi hr
      obtain ⟨target, hbelowBody, -⟩ := hs.rung i hi' below hbelow
      exact ⟨below.2.1, List.mem_cons_of_mem _ (mem_nodes_of_mem hbelow), _, _, hbody,
        hroot ▸ hbelowBody⟩
  bottom p hp := by
    obtain ⟨r, hr, rfl⟩ := mem_nodes.mp hp
    obtain ⟨target, hbody, rfl⟩ := hs.rung 0 hs.positive r hr
    exact ⟨r.2.2, hbody⟩
  allocated := hs.exists_iff_reached

end Shaped

/-! ## The levels are those of the constructor -/

section Frame

variable [DecidableRel cmpLess] {rand : ℕ → ℕ} {result : Option V} {results : List (Option V)}
  {trace : List (Option IndexPtr)} {down : NodePtr} {data : DataPtr} {value : V} {substitute : Bool}
  {fuel : ℕ} {lvl : ℤ} {ix : Option IndexPtr}

theorem createHeads_length {pHead : DataPtr} {pTailIdx : IndexPtr} {levels : ℕ}
    {prev : Option NodePtr} {heads : List IndexPtr}
    (hcreate : createHeads pHead pTailIdx levels prev h = .ok (heads, heap)) :
    heads.length = levels := by
  obtain ⟨heap', hspec, -⟩ := createHeads_ok pHead pTailIdx levels prev h
  rw [hspec] at hcreate
  rw [← (Prod.mk.inj (Except.ok.inj hcreate)).1, List.length_range']

theorem create_maxHeight {maxHeight : ℕ} (hcreate : create maxHeight = .ok s) :
    s.maxHeight = maxHeight := by
  obtain ⟨heap, -, hcreate⟩ := ok_of_bind hcreate
  obtain ⟨⟨heads, heap'⟩, hheads, hcreate⟩ := ok_of_bind hcreate
  rw [← Except.ok.inj hcreate]
  exact createHeads_length hheads

namespace SkipList

theorem raiseTower_aHeadIdx (hraise : s.raiseTower rand data i trace down = .ok s') :
    s'.aHeadIdx = s.aHeadIdx := by
  induction trace generalizing i down s with
  | nil => rw [← Except.ok.inj hraise]
  | cons prev trace ih =>
      rw [raiseTower] at hraise
      split at hraise
      · rw [← Except.ok.inj hraise]
      · obtain ⟨⟨node, heap⟩, -, hraise⟩ := ok_of_bind hraise
        have hrest := ih hraise
        split at hrest <;> exact hrest

theorem splice_aHeadIdx (hsplice : s.splice rand key value trace = .ok s') :
    s'.aHeadIdx = s.aHeadIdx := by
  obtain ⟨currData, -, hsplice⟩ := ok_of_bind hsplice
  obtain ⟨⟨data, heap⟩, -, hsplice⟩ := ok_of_bind hsplice
  exact raiseTower_aHeadIdx (s := { s with heap }) hsplice

theorem insertLoop_aHeadIdx
    (hinsert : s.insertLoop cmpLess rand key value substitute fuel lvl trace ix =
      .ok (result, s')) :
    s'.aHeadIdx = s.aHeadIdx := by
  induction fuel generalizing lvl trace ix with
  | zero => cases hinsert
  | succ fuel ih =>
      rw [insertLoop] at hinsert
      split at hinsert
      · cases hinsert
      obtain ⟨nxt, -, hinsert⟩ := ok_of_bind hinsert
      obtain ⟨turn, -, hinsert⟩ := ok_of_bind hinsert
      cases turn with
      | right => exact ih hinsert
      | found =>
          simp only at hinsert
          split at hinsert
          · obtain ⟨⟨old, heap⟩, -, hinsert⟩ := ok_of_bind hinsert
            rw [← (Prod.mk.inj (Except.ok.inj hinsert)).2]
          · obtain ⟨existing, -, hinsert⟩ := ok_of_bind hinsert
            rw [← (Prod.mk.inj (Except.ok.inj hinsert)).2]
      | descent =>
          obtain ⟨trace', -, hinsert⟩ := ok_of_bind hinsert
          obtain ⟨below, -, hinsert⟩ := ok_of_bind hinsert
          split at hinsert
          · obtain ⟨t, hsplice, hinsert⟩ := ok_of_bind hinsert
            rw [← (Prod.mk.inj (Except.ok.inj hinsert)).2]
            exact splice_aHeadIdx hsplice
          · exact ih hinsert

theorem deleteLoop_aHeadIdx (hdelete : s.deleteLoop cmpLess key fuel ix = .ok (result, s')) :
    s'.aHeadIdx = s.aHeadIdx := by
  induction fuel generalizing ix with
  | zero => cases hdelete
  | succ fuel ih =>
      rw [deleteLoop] at hdelete
      split at hdelete
      · obtain ⟨nxt, -, hdelete⟩ := ok_of_bind hdelete
        obtain ⟨turn, -, hdelete⟩ := ok_of_bind hdelete
        cases turn with
        | right => exact ih hdelete
        | descent =>
            obtain ⟨below, -, hdelete⟩ := ok_of_bind hdelete
            exact ih hdelete
        | found =>
            obtain ⟨retVal, -, hdelete⟩ := ok_of_bind hdelete
            obtain ⟨dataDel, -, hdelete⟩ := ok_of_bind hdelete
            obtain ⟨⟨dataCurr, heap⟩, -, hdelete⟩ := ok_of_bind hdelete
            obtain ⟨next, -, hdelete⟩ := ok_of_bind hdelete
            obtain ⟨heap₁, -, hdelete⟩ := ok_of_bind hdelete
            obtain ⟨heap₂, -, hdelete⟩ := ok_of_bind hdelete
            rw [← (Prod.mk.inj (Except.ok.inj hdelete)).2]
      · rw [← (Prod.mk.inj (Except.ok.inj hdelete)).2]

theorem call_aHeadIdx {c : Call K V} (hcall : s.call cmpLess rand c = .ok (result, s')) :
    s'.aHeadIdx = s.aHeadIdx := by
  cases c with
  | put key value | putIfAbsent key value => exact insertLoop_aHeadIdx hcall
  | get key =>
      obtain ⟨found, -, hcall⟩ := ok_of_bind hcall
      rw [← (Prod.mk.inj (Except.ok.inj hcall)).2]
  | delete key => exact deleteLoop_aHeadIdx hcall

theorem calls_aHeadIdx {cs : List (Call K V)}
    (hcalls : s.calls cmpLess rand cs = .ok (results, s')) : s'.aHeadIdx = s.aHeadIdx := by
  induction cs generalizing s results with
  | nil => rw [← (Prod.mk.inj (Except.ok.inj hcalls)).2]
  | cons c cs ih =>
      obtain ⟨⟨first, t⟩, hcall, hcalls⟩ := ok_of_bind hcalls
      obtain ⟨⟨rest, u⟩, hrest, hcalls⟩ := ok_of_bind hcalls
      obtain ⟨-, rfl⟩ := Prod.mk.inj (Except.ok.inj hcalls)
      exact (ih hrest).trans (call_aHeadIdx hcall)

end SkipList

end Frame

/-! ## What `Delete` removes -/

theorem Shaped.cell_ne_sentinel (hs : Shaped cmpLess s cells level) {c : K × DataPtr × V}
    (hc : c ∈ cells) {p : DataPtr} (hp : s.heap.dataBody p = some (none, none)) : c.2.1 ≠ p := by
  rintro rfl
  rw [hs.cell c hc] at hp
  cases hp

variable [DecidableRel cmpLess] [IsStrictWeakOrder K cmpLess]

/-- On a level the entries of a key are the index nodes above its data node. -/
theorem Shaped.same_iff_root (hs : Shaped cmpLess s cells level) {c : K × DataPtr × V}
    (hc : SortedMap.find cmpLess key cells = some c) (hi : i < s.maxHeight)
    {r : K × IndexPtr × DataPtr} (hr : r ∈ level i) :
    SortedMap.Same cmpLess r.1 key ↔ r.2.2 = c.2.1 := by
  obtain ⟨hmem, hsame⟩ := SortedMap.mem_of_find_eq_some hc
  obtain ⟨v, hcell, -⟩ := hs.rootBody hi hr
  constructor
  · intro hrsame
    have hfind := hs.sortedCells.find_eq_some_iff.mpr ⟨hcell, hrsame⟩
    rw [← Option.some.inj (hfind.symm.trans hc)]
  · intro hroot
    have hcells := hs.linkedCells.eq_of_node_eq hcell hmem hroot
    rw [← hcells] at hsame
    exact hsame

/-- The index nodes above the data node of a key are the entries of the key on the levels. -/
theorem Shaped.inTower_index_iff (hs : Shaped cmpLess s cells level) {c : K × DataPtr × V}
    (hc : SortedMap.find cmpLess key cells = some c) {p : IndexPtr} :
    s.heap.Exists (.index p) ∧ s.InTower c.2.1 (.index p) ↔
      ∃ i < s.maxHeight, ∃ r ∈ level i, r.2.1 = p ∧ SortedMap.Same cmpLess r.1 key := by
  have hcell := (SortedMap.mem_of_find_eq_some hc).1
  constructor
  · rintro ⟨hp, down, hdown⟩
    rcases hs.exists_index_iff.mp hp with rfl | ⟨i, hi, hrow⟩
    · rw [hs.tailIdx] at hdown
      have hroot := (Prod.mk.inj (Option.some.inj hdown)).2
      exact absurd (Option.some.inj hroot).symm (hs.cell_ne_sentinel hcell hs.tail)
    rcases List.mem_cons.mp hrow with rfl | hrow
    · rw [hs.headIdx i hi] at hdown
      have hroot := (Prod.mk.inj (Option.some.inj hdown)).2
      exact absurd (Option.some.inj hroot).symm (hs.cell_ne_sentinel hcell hs.head)
    · obtain ⟨r, hr, rfl⟩ := mem_nodes.mp hrow
      obtain ⟨target, hrbody, -⟩ := hs.rung i hi r hr
      rw [hrbody] at hdown
      have hroot := (Prod.mk.inj (Option.some.inj hdown)).2
      exact ⟨i, hi, r, hr, rfl, (hs.same_iff_root hc hi hr).mpr (Option.some.inj hroot)⟩
  · rintro ⟨i, hi, r, hr, rfl, hsame⟩
    obtain ⟨target, hrbody, -⟩ := hs.rung i hi r hr
    refine ⟨hs.indexBody_ne_none hi (List.mem_cons_of_mem _ (mem_nodes_of_mem hr)), some target, ?_⟩
    rw [← (hs.same_iff_root hc hi hr).mp hsame]
    exact hrbody

/-- The data nodes without the one of a key. -/
theorem Shaped.mem_nodes_erase_iff (hs : Shaped cmpLess s cells level) {c : K × DataPtr × V}
    (hc : SortedMap.find cmpLess key cells = some c) {p : DataPtr} :
    p ∈ nodes (SortedMap.erase cmpLess key cells) ↔ p ∈ nodes cells ∧ p ≠ c.2.1 := by
  obtain ⟨hcell, hsame⟩ := SortedMap.mem_of_find_eq_some hc
  constructor
  · intro hp
    obtain ⟨q, hq, rfl⟩ := mem_nodes.mp hp
    obtain ⟨hqmem, hdiff⟩ := hs.sortedCells.mem_erase_iff.mp hq
    refine ⟨mem_nodes_of_mem hqmem, fun heq ↦ ?_⟩
    obtain rfl := hs.linkedCells.eq_of_node_eq hqmem hcell heq
    exact hdiff hsame
  · rintro ⟨hp, hne⟩
    obtain ⟨q, hq, rfl⟩ := mem_nodes.mp hp
    refine mem_nodes_of_mem (hs.sortedCells.mem_erase_iff.mpr ⟨hq, fun hqsame ↦ hne ?_⟩)
    have hfind := hs.sortedCells.find_eq_some_iff.mpr ⟨hq, hqsame⟩
    rw [Option.some.inj (hfind.symm.trans hc)]

/-- Without the cell, the data nodes outside its tower are left. -/
theorem Shaped.data_erased {heap : Heap K V} {level' : ℕ → Level K}
    (hs : Shaped cmpLess s cells level) {c : K × DataPtr × V}
    (hc : SortedMap.find cmpLess key cells = some c)
    (hs' : Shaped cmpLess { s with heap } (SortedMap.erase cmpLess key cells) level')
    (p : DataPtr) :
    heap.Exists (.data p) ↔ s.heap.Exists (.data p) ∧ ¬s.InTower c.2.1 (.data p) := by
  have hcell := (SortedMap.mem_of_find_eq_some hc).1
  have hexists : heap.Exists (.data p) ↔
      p ∈ s.pHead :: (nodes (SortedMap.erase cmpLess key cells) ++ [s.pTail]) := hs'.exists_data_iff
  have hmem := hs.mem_nodes_erase_iff hc (p := p)
  have hhead : s.pHead ≠ c.2.1 := (hs.cell_ne_sentinel hcell hs.head).symm
  have htail : s.pTail ≠ c.2.1 := (hs.cell_ne_sentinel hcell hs.tail).symm
  rw [hexists, hs.exists_data_iff]
  simp only [List.mem_cons, List.mem_append, List.not_mem_nil, or_false, hmem, SkipList.InTower]
  constructor
  · rintro (rfl | ⟨hp, hne⟩ | rfl)
    · exact ⟨Or.inl rfl, hhead⟩
    · exact ⟨Or.inr (Or.inl hp), hne⟩
    · exact ⟨Or.inr (Or.inr rfl), htail⟩
  · rintro ⟨rfl | hp | rfl, hne⟩
    · exact Or.inl rfl
    · exact Or.inr (Or.inl ⟨hp, hne⟩)
    · exact Or.inr (Or.inr rfl)

/-- Without the entries of the key on each level, the index nodes outside its tower are left. -/
theorem Shaped.index_erased {heap : Heap K V} {level' : ℕ → Level K}
    (hs : Shaped cmpLess s cells level) {c : K × DataPtr × V}
    (hc : SortedMap.find cmpLess key cells = some c)
    (hs' : Shaped cmpLess { s with heap } (SortedMap.erase cmpLess key cells) level')
    (hlevel : ∀ i < s.maxHeight, level' i = SortedMap.erase cmpLess key (level i)) (p : IndexPtr) :
    heap.Exists (.index p) ↔ s.heap.Exists (.index p) ∧ ¬s.InTower c.2.1 (.index p) := by
  have hexists : heap.Exists (.index p) ↔
      p = s.pTailIdx ∨ ∃ i < s.maxHeight, p ∈ s.headIdx i :: nodes (level' i) :=
        hs'.exists_index_iff
  have htower := hs.inTower_index_iff hc (p := p)
  rw [hexists]
  -- two entries with the same node are on the same level
  have hlevels {i j : ℕ} (hi : i < s.maxHeight) (hj : j < s.maxHeight) {r : K × IndexPtr × DataPtr}
      (hr : r ∈ level j) (hrow : r.2.1 ∈ s.headIdx i :: nodes (level i)) : j = i :=
    hs.level_unique hj hi (List.mem_cons_of_mem _ (mem_nodes_of_mem hr)) hrow
  constructor
  · rintro (rfl | ⟨i, hi, hrow⟩)
    · have hp := hs.exists_index_iff.mpr (Or.inl rfl)
      refine ⟨hp, fun hin ↦ ?_⟩
      obtain ⟨j, hj, r, hr, heq, -⟩ := htower.mp ⟨hp, hin⟩
      exact hs.ne_tailIdx hj (List.mem_cons_of_mem _ (mem_nodes_of_mem hr)) heq
    rcases List.mem_cons.mp hrow with rfl | hrow
    · have hp := hs.exists_index_iff.mpr (Or.inr ⟨i, hi, List.mem_cons_self⟩)
      refine ⟨hp, fun hin ↦ ?_⟩
      obtain ⟨j, hj, r, hr, heq, -⟩ := htower.mp ⟨hp, hin⟩
      obtain rfl := hlevels hi hj hr (heq ▸ List.mem_cons_self)
      exact (hs.linkedLevel j hj).head_notMem (heq ▸ mem_nodes_of_mem hr)
    · rw [hlevel i hi] at hrow
      obtain ⟨q, hq, rfl⟩ := mem_nodes.mp hrow
      obtain ⟨hqmem, hdiff⟩ := (hs.sortedLevel i hi).mem_erase_iff.mp hq
      have hqrow : q.2.1 ∈ s.headIdx i :: nodes (level i) :=
        List.mem_cons_of_mem _ (mem_nodes_of_mem hqmem)
      have hp := hs.exists_index_iff.mpr (Or.inr ⟨i, hi, hqrow⟩)
      refine ⟨hp, fun hin ↦ hdiff ?_⟩
      obtain ⟨j, hj, r, hr, heq, hrsame⟩ := htower.mp ⟨hp, hin⟩
      obtain rfl := hlevels hi hj hr (heq ▸ hqrow)
      rwa [← (hs.linkedLevel j hj).eq_of_node_eq hr hqmem heq]
  · rintro ⟨hp, hout⟩
    rcases hs.exists_index_iff.mp hp with rfl | ⟨i, hi, hrow⟩
    · exact Or.inl rfl
    refine Or.inr ⟨i, hi, ?_⟩
    rcases List.mem_cons.mp hrow with rfl | hrow
    · exact List.mem_cons_self
    obtain ⟨r, hr, rfl⟩ := mem_nodes.mp hrow
    refine List.mem_cons_of_mem _ (mem_nodes_of_mem ?_)
    rw [hlevel i hi, (hs.sortedLevel i hi).mem_erase_iff]
    exact ⟨hr, fun hrsame ↦ hout (htower.mpr ⟨i, hi, r, hr, rfl, hrsame⟩).2⟩

/-- `Delete` of a key that is present removes its data node and the index nodes above it, and leaves
no link to one of them. -/
theorem Shaped.delete_frees (hs : Shaped cmpLess s cells level) (hcomplete : Complete cells level)
    {c : K × DataPtr × V} (hc : SortedMap.find cmpLess key cells = some c) :
    ∃ heap, s.delete cmpLess key = .ok (some c.2.2, { s with heap }) ∧
      (∀ p, heap.Exists p ↔ s.heap.Exists p ∧ ¬s.InTower c.2.1 p) ∧
      ∀ p q, heap.Leads p q → heap.Exists p ∧ heap.Exists q := by
  obtain ⟨heap, level', hdelete, hs', -, hlevel⟩ := hs.delete_ok hcomplete key
  rw [hc] at hdelete
  refine ⟨heap, hdelete, fun p ↦ ?_, fun p q hleads ↦ ?_⟩
  · cases p with
    | data p => exact hs.data_erased hc hs' p
    | index p => exact hs.index_erased hc hs' hlevel p
  · have hp := hleads.exists_left
    exact ⟨hp, hs'.exists_of_leads hleads hp⟩

/-- Whatever calls were made and whatever `rand()` gave, the list is in shape, and `Delete` of a key
frees exactly its tower and its data node, none of which is linked to afterwards. -/
theorem skip_list_in_shape (rand : ℕ → ℕ) {maxHeight : ℕ} (hpositive : 0 < maxHeight)
    (cs : List (Call K V)) :
    ∃ s₀ results s cells level, create maxHeight = .ok s₀ ∧
      s₀.calls cmpLess rand cs = .ok (results, s) ∧ s.maxHeight = maxHeight ∧
      s.InShape cmpLess cells level ∧
      ∀ key c, SortedMap.find cmpLess key cells = some c →
        ∃ heap, s.delete cmpLess key = .ok (some c.2.2, { s with heap }) ∧
          (∀ p, heap.Exists p ↔ s.heap.Exists p ∧ ¬s.InTower c.2.1 p) ∧
          ∀ p q, heap.Leads p q → heap.Exists p ∧ heap.Exists q := by
  obtain ⟨s₀, hcreate, hs₀⟩ : ∃ s : SkipList K V, create maxHeight = .ok s ∧
      Represents cmpLess s Assoc.empty := create_represents hpositive
  obtain ⟨s, hcalls, cells, level, hs, hcomplete, -⟩ := hs₀.calls rand cs
  have hheight : s.maxHeight = maxHeight := by
    rw [SkipList.maxHeight, SkipList.calls_aHeadIdx hcalls]
    exact create_maxHeight hcreate
  exact ⟨s₀, _, s, cells, level, hcreate, hcalls, hheight, hs.inShape hcomplete,
    fun key c hc ↦ hs.delete_frees hcomplete hc⟩

/-- Three keys on two levels, one of them replaced and one deleted. -/
theorem skip_list_in_shape_three_keys : 0 < 2 ∧
    ∃ (s₀ : SkipList ℕ ℕ) (results : List (Option ℕ)) (s : SkipList ℕ ℕ) (cells : Cells ℕ ℕ)
      (level : ℕ → Level ℕ), create 2 = .ok s₀ ∧
      s₀.calls (· < ·) (fun n ↦ n) [.put 5 50, .put 3 30, .put 9 90, .put 3 31, .delete 5] =
        .ok (results, s) ∧ s.maxHeight = 2 ∧ s.InShape (· < ·) cells level ∧
      ∀ key c, SortedMap.find (· < ·) key cells = some c →
        ∃ heap, s.delete (· < ·) key = .ok (some c.2.2, { s with heap }) ∧
          (∀ p, heap.Exists p ↔ s.heap.Exists p ∧ ¬s.InTower c.2.1 p) ∧
          ∀ p q, heap.Leads p q → heap.Exists p ∧ heap.Exists q :=
  ⟨by decide, skip_list_in_shape (fun n ↦ n) (by decide) _⟩

end CppMtHw.Skiplist
