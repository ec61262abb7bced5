import CppMtHw.Skiplist.Refinement

/-!
# The destructor

`~SkipList` deletes the index nodes level by level and then the data nodes with their keys
and values. Deleting or reading a node that is gone is a fault, so a destructor that ends
has deleted no node twice. A ledger of the value objects says where each of them went: a
caller got it from `Put` or `Delete`, or the destructor deleted it.
-/

namespace CppMtHw.Skiplist

open Machine

variable {K V : Type} {cmpLess : K → K → Prop} {s : SkipList K V} {cells : Cells K V}
  {level : ℕ → Level K} {heap : Heap K V} {fuel : ℕ}

namespace Heap

/-- `delete` of a data node; its key and its value are not touched. -/
def freeData (h : Heap K V) (p : Option DataPtr) : Except Fault (Heap K V) := do
  let _ ← deref h.data p
  return h.putData p none

def withoutData (h : Heap K V) (ps : List DataPtr) : Heap K V :=
  { h with data := fun q ↦ if q ∈ ps then none else h.data q }

def withoutIndex (h : Heap K V) (ps : List IndexPtr) : Heap K V :=
  { h with index := fun q ↦ if q ∈ ps then none else h.index q }

end Heap

namespace SkipList

/-- The loop of the destructor over the index nodes of one level. -/
def deleteLevel (pTailIdx : IndexPtr) : ℕ → IndexPtr → Heap K V → Except Fault (Heap K V)
  | 0, _, _ => .error .outOfFuel
  | fuel + 1, ix, heap =>
      if ix ≠ pTailIdx then do
        let nxt ← heap.next (some ix)
        let heap ← heap.deleteIndex (some ix)
        deleteLevel pTailIdx fuel nxt heap
      else return heap

/-- The loop of the destructor over `aHeadIdx`. -/
def deleteLevels (pTailIdx : IndexPtr) (fuel : ℕ) : List IndexPtr → Heap K V →
    Except Fault (Heap K V)
  | [], heap => return heap
  | ix :: rest, heap => do
      let heap ← deleteLevel pTailIdx fuel ix heap
      deleteLevels pTailIdx fuel rest heap

/-- The loop of the destructor over the data nodes. It returns the values that are deleted. -/
def deleteCells (pTail : DataPtr) : ℕ → DataPtr → Heap K V → Except Fault (List V × Heap K V)
  | 0, _, _ => .error .outOfFuel
  | fuel + 1, p, heap =>
      if p ≠ pTail then do
        let nxt ← heap.dataNext (some p)
        let _ ← heap.dataKey (some p)
        let value ← heap.dataValue (some p)
        let heap ← heap.freeData (some p)
        let (values, heap) ← deleteCells pTail fuel nxt heap
        return (value :: values, heap)
      else return ([], heap)

/-- `~SkipList()`: the values that are deleted, and the heap that is left. -/
def destroy (s : SkipList K V) : Except Fault (List V × Heap K V) := do
  let heap ← deleteLevels s.pTailIdx s.steps s.aHeadIdx s.heap
  let heap ← heap.deleteIndex (some s.pTailIdx)
  let (values, heap) ← deleteCells s.pTail s.steps (← heap.dataNext (some s.pHead)) heap
  let heap ← heap.freeData (some s.pHead)
  let heap ← heap.freeData (some s.pTail)
  return (values, heap)

end SkipList

/-! ## Nodes that are gone -/

namespace Heap

variable {ps qs : List ℕ} {p : ℕ}

@[simp] theorem withoutIndex_nil : heap.withoutIndex [] = heap := by
  simp [withoutIndex]

@[simp] theorem withoutData_nil : heap.withoutData [] = heap := by
  simp [withoutData]

theorem withoutIndex_withoutIndex :
    (heap.withoutIndex ps).withoutIndex qs = heap.withoutIndex (ps ++ qs) := by
  unfold withoutIndex
  congr 1
  funext q
  by_cases hp : q ∈ ps <;> by_cases hq : q ∈ qs <;> simp [hp, hq]

theorem withoutData_withoutData :
    (heap.withoutData ps).withoutData qs = heap.withoutData (ps ++ qs) := by
  unfold withoutData
  congr 1
  funext q
  by_cases hp : q ∈ ps <;> by_cases hq : q ∈ qs <;> simp [hp, hq]

theorem withoutIndex_link (hp : p ∉ ps) :
    (heap.withoutIndex ps).indexLink p = heap.indexLink p := by
  simp [withoutIndex, indexLink, hp]

theorem withoutIndex_body (hp : p ∉ ps) :
    (heap.withoutIndex ps).indexBody p = heap.indexBody p := by
  simp [withoutIndex, indexBody, hp]

theorem withoutData_link (hp : p ∉ ps) : (heap.withoutData ps).dataLink p = heap.dataLink p := by
  simp [withoutData, dataLink, hp]

theorem withoutData_body (hp : p ∉ ps) : (heap.withoutData ps).dataBody p = heap.dataBody p := by
  simp [withoutData, dataBody, hp]

theorem deleteIndex_eq (hp : heap.indexBody p ≠ none) :
    heap.deleteIndex (some p) = .ok (heap.withoutIndex [p]) := by
  obtain ⟨b, hb⟩ := Option.ne_none_iff_exists'.mp hp
  obtain ⟨node, hnode, -⟩ := deref_of_map hb
  have hput : heap.putIndex (some p) none = heap.withoutIndex [p] := by
    unfold putIndex withoutIndex
    congr 1
    funext q
    simp [assign, eq_comm]
  rw [deleteIndex, hnode, ← hput]
  rfl

theorem freeData_eq (hp : heap.dataBody p ≠ none) :
    heap.freeData (some p) = .ok (heap.withoutData [p]) := by
  obtain ⟨b, hb⟩ := Option.ne_none_iff_exists'.mp hp
  obtain ⟨node, hnode, -⟩ := deref_of_map hb
  have hput : heap.putData (some p) none = heap.withoutData [p] := by
    unfold putData withoutData
    congr 1
    funext q
    simp [assign, eq_comm]
  rw [freeData, hnode, ← hput]
  rfl

end Heap

/-! ## The loops -/

namespace SkipList

/-- The nodes of a level are deleted, one after the other, up to the tail. -/
theorem deleteLevel_ok {pTailIdx ix : IndexPtr} {row : List IndexPtr}
    (hchain : Chain heap.indexLink (some ix) (row ++ [pTailIdx]))
    (hrow : ∀ p ∈ row, heap.indexBody p ≠ none) (hfuel : row.length < fuel) :
    deleteLevel pTailIdx fuel ix heap = .ok (heap.withoutIndex row) := by
  induction row generalizing ix heap fuel with
  | nil =>
      obtain ⟨fuel, rfl⟩ := Nat.exists_eq_add_one_of_ne_zero (Nat.ne_of_gt hfuel)
      have hix : ix = pTailIdx := Option.some.inj hchain.1
      rw [deleteLevel, if_neg (not_not.mpr hix), Heap.withoutIndex_nil]
      rfl
  | cons p row ih =>
      obtain ⟨fuel, rfl⟩ := Nat.exists_eq_add_one_of_ne_zero
        (Nat.ne_of_gt (Nat.zero_lt_of_lt hfuel))
      obtain ⟨hp, hnotMem, n, hn, hrest⟩ := hchain.advance
      obtain rfl := Option.some.inj hp
      have hne : ix ≠ pTailIdx := fun heq ↦ hnotMem (by simp [heq])
      have hothers : ∀ q ∈ row ++ [pTailIdx], q ∉ [ix] := by
        intro q hq hmem
        exact hnotMem (List.mem_singleton.mp hmem ▸ hq)
      have hchain' : Chain (heap.withoutIndex [ix]).indexLink (some n) (row ++ [pTailIdx]) := by
        apply hrest.congr
        intro q hq
        exact Heap.withoutIndex_link (hothers q hq)
      have hrow' : ∀ q ∈ row, (heap.withoutIndex [ix]).indexBody q ≠ none := by
        intro q hq
        rw [Heap.withoutIndex_body (hothers q (List.mem_append_left _ hq))]
        exact hrow q (List.mem_cons_of_mem _ hq)
      rw [deleteLevel, if_pos hne, Heap.next_ok hn, ok_bind,
        Heap.deleteIndex_eq (hrow ix List.mem_cons_self), ok_bind,
        ih hchain' hrow' (Nat.lt_of_succ_lt_succ hfuel), Heap.withoutIndex_withoutIndex]
      rfl

/-- The levels share no node, so each is still whole when its turn comes. -/
theorem deleteLevels_ok {pTailIdx : IndexPtr} {is : List ℕ} {head : ℕ → IndexPtr}
    {row : ℕ → List IndexPtr}
    (hchain : ∀ i ∈ is, Chain heap.indexLink (some (head i)) (row i ++ [pTailIdx]))
    (hrow : ∀ i ∈ is, ∀ p ∈ row i, heap.indexBody p ≠ none)
    (hdisjoint : is.Pairwise fun i j ↦ ∀ p ∈ row j, p ∉ row i)
    (hfuel : ∀ i ∈ is, (row i).length < fuel) :
    deleteLevels pTailIdx fuel (is.map head) heap = .ok (heap.withoutIndex (is.flatMap row)) := by
  induction is generalizing heap with
  | nil =>
      rw [List.flatMap_nil, Heap.withoutIndex_nil]
      rfl
  | cons i is ih =>
      have hfirst := hchain i List.mem_cons_self
      have htail : pTailIdx ∉ row i := by
        intro hmem
        have hnodup := hfirst.nodup
        rw [List.nodup_append] at hnodup
        exact hnodup.2.2 pTailIdx hmem pTailIdx (List.mem_singleton.mpr rfl) rfl
      obtain ⟨hothers, hpairwise⟩ := List.pairwise_cons.mp hdisjoint
      have hchain' : ∀ j ∈ is, Chain (heap.withoutIndex (row i)).indexLink (some (head j))
          (row j ++ [pTailIdx]) := by
        intro j hj
        apply (hchain j (List.mem_cons_of_mem _ hj)).congr
        intro p hp
        apply Heap.withoutIndex_link
        rcases List.mem_append.mp hp with hp | hp
        · exact hothers j hj p hp
        · exact List.mem_singleton.mp hp ▸ htail
      have hrow' : ∀ j ∈ is, ∀ p ∈ row j, (heap.withoutIndex (row i)).indexBody p ≠ none := by
        intro j hj p hp
        rw [Heap.withoutIndex_body (hothers j hj p hp)]
        exact hrow j (List.mem_cons_of_mem _ hj) p hp
      rw [List.map_cons, deleteLevels,
        deleteLevel_ok hfirst (hrow i List.mem_cons_self) (hfuel i List.mem_cons_self), ok_bind,
        ih hchain' hrow' hpairwise fun j hj ↦ hfuel j (List.mem_cons_of_mem _ hj),
        Heap.withoutIndex_withoutIndex, List.flatMap_cons]

/-- The data nodes are deleted with their keys and values, up to the tail. -/
theorem deleteCells_ok {pTail p : DataPtr}
    (hchain : Chain heap.dataLink (some p) (nodes cells ++ [pTail]))
    (hcells : ∀ c ∈ cells, heap.dataBody c.2.1 = some (some c.1, some c.2.2))
    (hfuel : cells.length < fuel) :
    deleteCells pTail fuel p heap =
      .ok (cells.map fun c ↦ c.2.2, heap.withoutData (nodes cells)) := by
  induction cells generalizing p heap fuel with
  | nil =>
      obtain ⟨fuel, rfl⟩ := Nat.exists_eq_add_one_of_ne_zero (Nat.ne_of_gt hfuel)
      have hp : p = pTail := Option.some.inj hchain.1
      rw [deleteCells, if_neg (not_not.mpr hp), nodes_nil, Heap.withoutData_nil]
      rfl
  | cons c cells ih =>
      obtain ⟨fuel, rfl⟩ := Nat.exists_eq_add_one_of_ne_zero
        (Nat.ne_of_gt (Nat.zero_lt_of_lt hfuel))
      replace hchain : Chain heap.dataLink (some p) (c.2.1 :: (nodes cells ++ [pTail])) := hchain
      obtain ⟨hc, hnotMem, n, hn, hrest⟩ := hchain.advance
      obtain rfl := Option.some.inj hc
      have hbody := hcells c List.mem_cons_self
      have hne : c.2.1 ≠ pTail := fun heq ↦ hnotMem (by simp [heq])
      have hothers : ∀ q ∈ nodes cells ++ [pTail], q ∉ [c.2.1] := by
        intro q hq hmem
        exact hnotMem (List.mem_singleton.mp hmem ▸ hq)
      have hchain' : Chain (heap.withoutData [c.2.1]).dataLink (some n)
          (nodes cells ++ [pTail]) := by
        apply hrest.congr
        intro q hq
        exact Heap.withoutData_link (hothers q hq)
      have hcells' : ∀ q ∈ cells, (heap.withoutData [c.2.1]).dataBody q.2.1 =
          some (some q.1, some q.2.2) := by
        intro q hq
        rw [Heap.withoutData_body (hothers q.2.1 (List.mem_append_left _ (mem_nodes_of_mem hq)))]
        exact hcells q (List.mem_cons_of_mem _ hq)
      have hexists : heap.dataBody c.2.1 ≠ none := by
        rw [hbody]
        exact Option.some_ne_none _
      rw [deleteCells, if_pos hne]
      simp only [Heap.dataNext_ok hn, Heap.dataKey_ok hbody, Heap.dataValue_ok hbody,
        Heap.freeData_eq hexists,
        ih hchain' hcells' (Nat.lt_of_succ_lt_succ hfuel), ok_bind, Heap.withoutData_withoutData]
      rfl

end SkipList

/-! ## The destructor of a list in order -/

theorem Shaped.aHeadIdx_eq (s : SkipList K V) :
    s.aHeadIdx = (List.range s.maxHeight).map s.headIdx := by
  apply List.ext_getElem
  · rw [List.length_map, List.length_range]
    rfl
  · intro i hi _
    rw [List.getElem_map, List.getElem_range, SkipList.headIdx, List.getD_eq_getElem?_getD,
      List.getElem?_eq_getElem hi]
    rfl

/-- The data nodes that the destructor comes by are all of them. -/
theorem Shaped.data_gone (hs : Shaped cmpLess s cells level) (hdata : heap.data = s.heap.data)
    (p : DataPtr) : (heap.withoutData (nodes cells ++ [s.pHead] ++ [s.pTail])).data p = none := by
  unfold Heap.withoutData
  dsimp only
  split
  · rfl
  · rename_i hp
    by_contra hexists
    have hbody : s.heap.dataBody p ≠ none := by
      rw [Heap.dataBody, Ne, Option.map_eq_none_iff, ← hdata]
      exact hexists
    have hmem := hs.dataNodes p hbody
    simp only [List.mem_cons, List.mem_append, List.not_mem_nil, or_false, not_or] at hp hmem
    rcases hmem with hhead | hcell | htail
    · exact hp.1.2 hhead
    · exact hp.1.1 hcell
    · exact hp.2 htail

/-- The index nodes that the destructor comes by are all of them. -/
theorem Shaped.index_gone (hs : Shaped cmpLess s cells level) (p : IndexPtr) :
    (s.heap.withoutIndex
      ((List.range s.maxHeight).flatMap (fun i ↦ s.headIdx i :: nodes (level i)) ++
      [s.pTailIdx])).index p = none := by
  unfold Heap.withoutIndex
  dsimp only
  split
  · rfl
  · rename_i hp
    by_contra hexists
    have hbody : s.heap.indexBody p ≠ none := by
      rw [Heap.indexBody, Ne, Option.map_eq_none_iff]
      exact hexists
    apply hp
    rcases hs.indexNodes p hbody with rfl | ⟨i, hi, hmem⟩
    · exact List.mem_append_right _ (List.mem_singleton.mpr rfl)
    · exact List.mem_append_left _ (List.mem_flatMap.mpr ⟨i, List.mem_range.mpr hi, hmem⟩)

/-- The index nodes are deleted, the tail after all others. -/
theorem Shaped.deleteIndexes_ok (hs : Shaped cmpLess s cells level) :
    ∃ heap₁ heap₂, SkipList.deleteLevels s.pTailIdx s.steps s.aHeadIdx s.heap = .ok heap₁ ∧
      heap₁.deleteIndex (some s.pTailIdx) = .ok heap₂ ∧ heap₂.data = s.heap.data ∧
      ∀ p, heap₂.index p = none := by
  have hfresh : s.heap.fresh + 1 < s.steps := by
    have hmul : 1 * (s.heap.fresh + 1) ≤ s.maxHeight * (s.heap.fresh + 1) :=
      Nat.mul_le_mul_right _ hs.positive
    rw [SkipList.steps]
    omega
  have hrow : ∀ i ∈ List.range s.maxHeight, ∀ p ∈ s.headIdx i :: nodes (level i),
      s.heap.indexBody p ≠ none :=
    fun i hi p hp ↦ hs.indexBody_ne_none (List.mem_range.mp hi) hp
  have hdisjoint : (List.range s.maxHeight).Pairwise fun i j ↦
      ∀ p ∈ s.headIdx j :: nodes (level j), p ∉ s.headIdx i :: nodes (level i) := by
    apply List.nodup_range.imp_of_mem
    intro i j hi hj hne p hpj hpi
    exact hne (hs.level_unique (List.mem_range.mp hi) (List.mem_range.mp hj) hpi hpj)
  have hlength : ∀ i ∈ List.range s.maxHeight,
      (s.headIdx i :: nodes (level i)).length < s.steps := by
    intro i hi
    have hlevel := hs.length_level_le (List.mem_range.mp hi)
    rw [List.length_cons, length_nodes]
    omega
  have hlevels : SkipList.deleteLevels s.pTailIdx s.steps
      ((List.range s.maxHeight).map s.headIdx) s.heap =
      .ok (s.heap.withoutIndex
        ((List.range s.maxHeight).flatMap fun i ↦ s.headIdx i :: nodes (level i))) :=
    SkipList.deleteLevels_ok
      (fun i hi ↦ hs.linkedLevel i (List.mem_range.mp hi)) hrow hdisjoint hlength
  rw [← Shaped.aHeadIdx_eq] at hlevels
  have hindexGone := hs.index_gone
  generalize hrows : (List.range s.maxHeight).flatMap (fun i ↦ s.headIdx i :: nodes (level i)) =
    rows at hlevels hindexGone
  have htailIdx : s.pTailIdx ∉ rows := by
    rw [← hrows, List.mem_flatMap]
    rintro ⟨i, hi, hmem⟩
    exact hs.ne_tailIdx (List.mem_range.mp hi) hmem rfl
  have htailBody : (s.heap.withoutIndex rows).indexBody s.pTailIdx ≠ none := by
    rw [Heap.withoutIndex_body htailIdx, hs.tailIdx]
    exact Option.some_ne_none _
  have hdelete := Heap.deleteIndex_eq htailBody
  rw [Heap.withoutIndex_withoutIndex] at hdelete
  exact ⟨_, _, hlevels, hdelete, rfl, hindexGone⟩

/-- The data nodes are deleted, the two sentinels after all others. -/
theorem Shaped.deleteData_ok (hs : Shaped cmpLess s cells level) (hdata : heap.data = s.heap.data) :
    ∃ first heap₁ heap₂ heap₃, heap.dataNext (some s.pHead) = .ok first ∧
      SkipList.deleteCells s.pTail s.steps first heap = .ok (cells.map fun c ↦ c.2.2, heap₁) ∧
      heap₁.freeData (some s.pHead) = .ok heap₂ ∧ heap₂.freeData (some s.pTail) = .ok heap₃ ∧
      heap₃.index = heap.index ∧ ∀ p, heap₃.data p = none := by
  obtain ⟨first, hfirst⟩ := hs.linkedCells.exists_next List.mem_cons_self
  have hchain : Chain heap.dataLink (some first) (nodes cells ++ [s.pTail]) := by
    rw [Heap.dataLink_congr hdata, ← hfirst]
    exact hs.linkedCells.2
  have hcells : ∀ c ∈ cells, heap.dataBody c.2.1 = some (some c.1, some c.2.2) := by
    rw [Heap.dataBody_congr hdata]
    exact hs.cell
  have hnext : heap.dataNext (some s.pHead) = .ok first := by
    apply Heap.dataNext_ok
    rw [Heap.dataLink_congr hdata, hfirst]
  have hloop := SkipList.deleteCells_ok hchain hcells hs.length_lt_steps
  have hnodup := hs.linkedCells.nodup
  rw [List.nodup_cons, List.nodup_append] at hnodup
  have hhead : (heap.withoutData (nodes cells)).dataBody s.pHead ≠ none := by
    rw [Heap.withoutData_body hs.linkedCells.head_notMem, Heap.dataBody_congr hdata, hs.head]
    exact Option.some_ne_none _
  have htail : (heap.withoutData (nodes cells ++ [s.pHead])).dataBody s.pTail ≠ none := by
    have hnotMem : s.pTail ∉ nodes cells ++ [s.pHead] := by
      intro hmem
      rcases List.mem_append.mp hmem with hmem | hmem
      · exact hnodup.2.2.2 s.pTail hmem s.pTail (List.mem_singleton.mpr rfl) rfl
      · exact hnodup.1 (List.mem_append_right _
          (List.mem_singleton.mpr (List.mem_singleton.mp hmem).symm))
    rw [Heap.withoutData_body hnotMem, Heap.dataBody_congr hdata, hs.tail]
    exact Option.some_ne_none _
  have hfreeHead := Heap.freeData_eq hhead
  rw [Heap.withoutData_withoutData] at hfreeHead
  have hfreeTail := Heap.freeData_eq htail
  rw [Heap.withoutData_withoutData] at hfreeTail
  exact ⟨first, _, _, _, hnext, hloop, hfreeHead, hfreeTail, rfl, hs.data_gone hdata⟩

/-- Nothing is left of a list in order. -/
theorem Shaped.destroy_ok (hs : Shaped cmpLess s cells level) :
    ∃ heap, s.destroy = .ok (cells.map fun c ↦ c.2.2, heap) ∧ ∀ p, heap.data p = none ∧
    heap.index p = none := by
  obtain ⟨heap₁, heap₂, hlevels, hdelete, hdata, hindexGone⟩ := hs.deleteIndexes_ok
  obtain ⟨first, heap₃, heap₄, heap₅, hnext, hloop, hfreeHead, hfreeTail, hindex, hdataGone⟩ :=
    hs.deleteData_ok hdata
  refine ⟨heap₅, ?_, fun p ↦ ⟨hdataGone p, ?_⟩⟩
  · simp only [SkipList.destroy, hlevels, hdelete, hnext, hloop, hfreeHead, hfreeTail, ok_bind]
    rfl
  · rw [hindex]
    exact hindexGone p

/-! ## The ledger of the values -/

/-- The value object that a call with this result has made. -/
def Call.made : Call K V → Option V → List V
  | .put _ value, _ => [value]
  | .putIfAbsent _ value, none => [value]
  | _, _ => []

/-- The value object that a call with this result has taken out of the list and given to its
caller. -/
def Call.released : Call K V → Option V → List V
  | .put _ _, result => result.toList
  | .delete _, result => result.toList
  | _, _ => []

def values (cells : Cells K V) : List V := cells.map fun c ↦ c.2.2

variable [DecidableRel cmpLess] [IsStrictWeakOrder K cmpLess]

/-- What an insertion makes it puts into the list, and what it replaces was there. -/
theorem values_putCells (hsorted : SortedMap.Sorted cmpLess cells) (fresh : DataPtr)
    (key : K) (value : V) :
    (value :: values cells).Perm (((SortedMap.find cmpLess key cells).map fun c ↦ c.2.2).toList ++
      values (putCells cmpLess fresh key value true cells)) := by
  cases hfind : SortedMap.find cmpLess key cells with
  | none =>
      have hcells : putCells cmpLess fresh key value true cells =
          SortedMap.insert cmpLess key (fresh, value) cells := by
        simp only [putCells, hfind]
      have hinsert : (values (SortedMap.insert cmpLess key (fresh, value) cells)).Perm
          (value :: values cells) :=
        (hsorted.perm_insert_of_none hfind (fresh, value)).map _
      rw [hcells]
      exact hinsert.symm
  | some c =>
      have hcells : putCells cmpLess fresh key value true cells =
          SortedMap.insert cmpLess key (c.2.1, value) cells := by
        simp only [putCells, hfind, if_true]
      have herase : (values cells).Perm (c.2.2 :: values (SortedMap.erase cmpLess key cells)) :=
        (hsorted.perm_erase hfind).map _
      have hinsert : (values (SortedMap.insert cmpLess key (c.2.1, value) cells)).Perm
          (value :: values (SortedMap.erase cmpLess key cells)) :=
        (hsorted.perm_insert_of_some hfind (c.2.1, value)).map _
      rw [hcells]
      exact (herase.cons value).trans ((List.Perm.swap _ _ _).trans (hinsert.symm.cons c.2.2))

/-- What a call makes it puts into the list, and what it releases was there. -/
theorem values_callCells (hsorted : SortedMap.Sorted cmpLess cells) (fresh : DataPtr)
    (c : Call K V) :
    (c.made ((SortedMap.find cmpLess c.key cells).map fun c ↦ c.2.2) ++ values cells).Perm
      (c.released ((SortedMap.find cmpLess c.key cells).map fun c ↦ c.2.2) ++
        values (callCells cmpLess fresh cells c)) := by
  cases c with
  | put key value => exact values_putCells hsorted fresh key value
  | putIfAbsent key value =>
      rw [Call.key, callCells]
      cases hfind : SortedMap.find cmpLess key cells with
      | none =>
          have hput := values_putCells hsorted fresh key value
          simp only [putCells, hfind] at hput ⊢
          exact hput
      | some c =>
          simp only [putCells, hfind]
          exact List.Perm.refl _
  | get key => exact List.Perm.refl _
  | delete key =>
      rw [Call.key, callCells]
      cases hfind : SortedMap.find cmpLess key cells with
      | none =>
          rw [hsorted.erase_of_find_eq_none hfind]
          exact List.Perm.refl _
      | some c => exact (hsorted.perm_erase hfind).map _

/-- The value objects that a sequence of calls has made are those it has released and those in the
list. -/
theorem Shaped.calls_ledger (rand : ℕ → ℕ) (hs : Shaped cmpLess s cells level)
    (hcomplete : Complete cells level) (cs : List (Call K V)) :
    ∃ results s' cells' level', s.calls cmpLess rand cs = .ok (results, s') ∧
    Shaped cmpLess s' cells' level' ∧
      ((cs.zip results).flatMap (fun c ↦ c.1.made c.2) ++ values cells).Perm
        ((cs.zip results).flatMap (fun c ↦ c.1.released c.2) ++ values cells') := by
  induction cs generalizing s cells level with
  | nil => exact ⟨[], s, cells, level, rfl, hs, List.Perm.refl _⟩
  | cons c cs ih =>
      obtain ⟨s₁, level₁, hcall, hs₁, hcomplete₁⟩ := hs.call_ok rand hcomplete c
      obtain ⟨results, s', cells', level', hcalls, hs', hrest⟩ := ih hs₁ hcomplete₁
      have hstep := values_callCells hs.sortedCells s.heap.fresh c
      generalize hresult : (SortedMap.find cmpLess c.key cells).map (fun c ↦ c.2.2) =
        result at hcall hstep
      refine ⟨result :: results, s', cells', level', ?_, hs', ?_⟩
      · rw [SkipList.calls, hcall, ok_bind]
        simp only [hcalls, ok_bind]
        rfl
      · rw [List.zip_cons_cons, List.flatMap_cons, List.flatMap_cons]
        generalize (cs.zip results).flatMap (fun c ↦ c.1.made c.2) = made at hrest ⊢
        calc
          c.made result ++ made ++ values cells
          List.Perm _ (made ++ (c.made result ++ values cells)) := by
            rw [← List.append_assoc]
            exact List.perm_append_comm.append_right _
          List.Perm _ (made ++
            (c.released result ++ values (callCells cmpLess s.heap.fresh cells c))) :=
            hstep.append_left made
          List.Perm _ (c.released result ++
            (made ++ values (callCells cmpLess s.heap.fresh cells c))) := by
            rw [← List.append_assoc, ← List.append_assoc]
            exact List.perm_append_comm.append_right _
          List.Perm _ _ := by
            rw [List.append_assoc]
            exact hrest.append_left _

/-- Whatever calls were made and whatever `rand()` gave: the destructor deletes every node that
exists, once, and the value objects that were ever made are those that callers have got and those
that it deletes. -/
theorem destructor_leaves_nothing (rand : ℕ → ℕ) {maxHeight : ℕ} (hpositive : 0 < maxHeight)
    (cs : List (Call K V)) :
    ∃ s₀ results s deleted heap, create maxHeight = .ok s₀ ∧
    s₀.calls cmpLess rand cs = .ok (results, s) ∧
      s.destroy = .ok (deleted, heap) ∧ (∀ p, heap.data p = none ∧ heap.index p = none) ∧
      ((cs.zip results).flatMap fun c ↦ c.1.made c.2).Perm
        ((cs.zip results).flatMap (fun c ↦ c.1.released c.2) ++ deleted) := by
  obtain ⟨s₀, hcreate, hs₀⟩ : ∃ s : SkipList K V, create maxHeight = .ok s ∧
      Shaped cmpLess s [] (fun _ ↦ []) := create_ok hpositive
  obtain ⟨results, s, cells, level, hcalls, hs, hledger⟩ :=
    hs₀.calls_ledger rand (by simp [Complete]) cs
  obtain ⟨heap, hdestroy, hgone⟩ := hs.destroy_ok
  refine ⟨s₀, results, s, _, heap, hcreate, hcalls, hdestroy, hgone, ?_⟩
  simpa [values] using hledger

def threeKeys : List (Call ℕ ℕ) := [.put 5 50, .put 3 30, .put 9 90, .put 3 31, .delete 5]

/-- Three keys on two levels: one value is replaced, one is deleted, two are left to the
destructor. -/
theorem destructor_leaves_nothing_three_keys : 0 < 2 ∧
    ∃ (s₀ : SkipList ℕ ℕ) (results : List (Option ℕ)) (s : SkipList ℕ ℕ) (deleted : List ℕ)
    (heap : Heap ℕ ℕ),
      create 2 = .ok s₀ ∧ s₀.calls (· < ·) (fun n ↦ n) threeKeys = .ok (results, s) ∧
      s.destroy = .ok (deleted, heap) ∧ (∀ p, heap.data p = none ∧ heap.index p = none) ∧
      ((threeKeys.zip results).flatMap fun c ↦ c.1.made c.2).Perm
        ((threeKeys.zip results).flatMap (fun c ↦ c.1.released c.2) ++ deleted) :=
  ⟨by decide, destructor_leaves_nothing (fun n ↦ n) (by decide) threeKeys⟩

end CppMtHw.Skiplist
