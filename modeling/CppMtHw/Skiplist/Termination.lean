import CppMtHw.Skiplist.Refinement

/-!
# Searches of a skip list end

Every loop of a list that is in shape ends within `steps` rounds and without a fault: no
null pointer is followed, no key of a sentinel is read, `trace` is written within its
bounds and `insert_pair` leaves through a `return`. The inner loop of `Delete` has no test
for the tail. The checked `Delete` below has one and stops with a fault there; since the
tail has no next node, a `Delete` that ends at all has passed every such test.
-/

namespace CppMtHw.Skiplist

open Machine

variable {K V : Type} {cmpLess : K → K → Prop} {s s' : SkipList K V} {cells : Cells K V}
  {level : ℕ → Level K} {heap heap' : Heap K V} {tail : IndexPtr} {nxt ix ix' : Option IndexPtr}
  {dataCurr dataCurr' : Option DataPtr} {walk fuel : ℕ} {key : K}

namespace SkipList

/-- `moveClose` with a test: it is a fault to go on from `tail`. -/
def moveCloseChecked (tail : IndexPtr) (heap : Heap K V) (nxt : Option IndexPtr) :
    ℕ → Option IndexPtr → Except Fault (Option IndexPtr)
  | 0, _ => .error .outOfFuel
  | fuel + 1, ix => do
      let next ← heap.next ix
      if some next ≠ nxt then
        if next = tail then .error .sentinel
        else moveCloseChecked tail heap nxt fuel (some next)
      else return ix

def unlinkTowerChecked (tail : IndexPtr) (walk : ℕ) :
    ℕ → Option IndexPtr → Option IndexPtr → Option DataPtr → Heap K V →
    Except Fault (Option DataPtr × Heap K V)
  | 0, _, _, _, _ => .error .outOfFuel
  | fuel + 1, ix, nxt, dataCurr, heap =>
      if ix ≠ none then do
        let nxt2 ← heap.next nxt
        let idxDel := nxt
        let ix ← moveCloseChecked tail heap nxt walk ix
        let heap ← heap.setNext ix nxt2
        let dataCurr ← heap.root ix
        let ix ← heap.down ix
        let nxt ← heap.down nxt
        let heap ← heap.deleteIndex idxDel
        unlinkTowerChecked tail walk fuel ix nxt dataCurr heap
      else return (dataCurr, heap)

def unlinkChecked (s : SkipList K V) (ix : Option IndexPtr) (nxt : IndexPtr) :
    Except Fault (Option V × SkipList K V) := do
  let retVal ← s.heap.value (some nxt)
  let dataDel ← s.heap.root (some nxt)
  let (dataCurr, heap) ← unlinkTowerChecked s.pTailIdx s.steps s.steps ix (some nxt) none s.heap
  let heap ← heap.setDataNext dataCurr (← heap.dataNext dataDel)
  let heap ← heap.deleteData dataDel
  return (some retVal, { s with heap })

variable (cmpLess : K → K → Prop) [DecidableRel cmpLess]

def deleteLoopChecked (s : SkipList K V) (key : K) :
    ℕ → Option IndexPtr → Except Fault (Option V × SkipList K V)
  | 0, _ => .error .outOfFuel
  | fuel + 1, ix =>
      if ix ≠ none then do
        let nxt ← s.heap.next ix
        match ← s.turn cmpLess key nxt with
        | .descent => deleteLoopChecked s key fuel (← s.heap.down ix)
        | .right => deleteLoopChecked s key fuel (some nxt)
        | .found => s.unlinkChecked ix nxt
      else return (none, s)

/-- `Delete(key)`, where it is a fault that the inner loop comes to the tail. -/
def deleteChecked (s : SkipList K V) (key : K) : Except Fault (Option V × SkipList K V) :=
  s.deleteLoopChecked cmpLess key s.steps s.top

end SkipList

/-! ## The end of a level -/

/-- Nothing can be reached from the node: it is gone or has no next node. -/
def Heap.Last (heap : Heap K V) (tail : IndexPtr) : Prop :=
  ∀ n, heap.next (some tail) ≠ .ok n

theorem Heap.Last.of_index_eq (hlast : heap.Last tail) (heq : heap'.index tail = heap.index tail) :
    heap'.Last tail := by
  intro n hn
  rw [Heap.next, deref, heq] at hn
  exact hlast n hn

/-- The next node of another one is set. -/
theorem Heap.Last.setNext {n : IndexPtr} (hlast : heap.Last tail) (hne : ix ≠ some tail)
    (hset : heap.setNext ix n = .ok heap') : heap'.Last tail := by
  obtain ⟨node, -, hput⟩ := ok_of_bind hset
  rw [← Except.ok.inj hput]
  apply hlast.of_index_eq
  exact if_neg hne

theorem Heap.Last.deleteIndex (hlast : heap.Last tail) (hdelete : heap.deleteIndex ix = .ok heap') :
    heap'.Last tail := by
  obtain ⟨node, -, hput⟩ := ok_of_bind hdelete
  have hheap' : heap' = heap.putIndex ix none := (Except.ok.inj hput).symm
  by_cases hne : ix = some tail
  · intro n hn
    have hgone : heap'.index tail = none := by
      rw [hheap']
      exact if_pos hne
    rw [Heap.next, deref, hgone] at hn
    cases hn
  · apply hlast.of_index_eq
    rw [hheap']
    exact if_neg hne

/-- A loop that ends does not end on the tail and has not come by it. -/
theorem moveCloseChecked_eq (hlast : heap.Last tail)
    (hmove : SkipList.moveClose heap nxt walk ix = .ok ix') :
    SkipList.moveCloseChecked tail heap nxt walk ix = .ok ix' ∧ ix' ≠ some tail := by
  induction walk generalizing ix with
  | zero => cases hmove
  | succ walk ih =>
      obtain ⟨next, hnext, hrest⟩ := ok_of_bind hmove
      rw [SkipList.moveCloseChecked, hnext, ok_bind]
      by_cases hne : some next ≠ nxt
      · rw [if_pos hne] at hrest ⊢
        have htail : next ≠ tail := by
          rintro rfl
          -- the next round would follow the null pointer of the tail
          cases walk with
          | zero => cases hrest
          | succ walk =>
              obtain ⟨after, hafter, -⟩ := ok_of_bind hrest
              exact hlast after hafter
        rw [if_neg htail]
        exact ih hrest
      · rw [if_neg hne] at hrest ⊢
        have hstay : ix = ix' := Except.ok.inj hrest
        refine ⟨hrest, ?_⟩
        rintro rfl
        rw [hstay] at hnext
        exact hlast next hnext

theorem unlinkTowerChecked_eq (hlast : heap.Last tail)
    (hunlink : SkipList.unlinkTower walk fuel ix nxt dataCurr heap = .ok (dataCurr', heap')) :
    SkipList.unlinkTowerChecked tail walk fuel ix nxt dataCurr heap = .ok (dataCurr', heap') := by
  induction fuel generalizing ix nxt dataCurr heap with
  | zero => cases hunlink
  | succ fuel ih =>
      rw [SkipList.unlinkTower] at hunlink
      rw [SkipList.unlinkTowerChecked]
      by_cases hix : ix ≠ none
      · rw [if_pos hix] at hunlink ⊢
        obtain ⟨nxt2, hnxt2, hunlink⟩ := ok_of_bind hunlink
        obtain ⟨x, hmove, hunlink⟩ := ok_of_bind hunlink
        obtain ⟨heap₁, hset, hunlink⟩ := ok_of_bind hunlink
        obtain ⟨root, hroot, hunlink⟩ := ok_of_bind hunlink
        obtain ⟨below, hbelow, hunlink⟩ := ok_of_bind hunlink
        obtain ⟨belowNxt, hbelowNxt, hunlink⟩ := ok_of_bind hunlink
        obtain ⟨heap₂, hdelete, hunlink⟩ := ok_of_bind hunlink
        obtain ⟨hchecked, hne⟩ := moveCloseChecked_eq hlast hmove
        have hlast₂ : heap₂.Last tail := (hlast.setNext hne hset).deleteIndex hdelete
        simp only [hnxt2, hchecked, hset, hroot, hbelow, hbelowNxt, hdelete, ok_bind]
        exact ih hlast₂ hunlink
      · rw [if_neg hix] at hunlink ⊢
        exact hunlink

theorem unlinkChecked_eq {nxt : IndexPtr} {result : Option V} (hlast : s.heap.Last s.pTailIdx)
    (hunlink : s.unlink ix nxt = .ok (result, s')) : s.unlinkChecked ix nxt = .ok (result, s') := by
  obtain ⟨retVal, hvalue, hunlink⟩ := ok_of_bind hunlink
  obtain ⟨dataDel, hroot, hunlink⟩ := ok_of_bind hunlink
  obtain ⟨⟨dataCurr, heap⟩, htower, hunlink⟩ := ok_of_bind hunlink
  rw [SkipList.unlinkChecked]
  simp only [hvalue, hroot, unlinkTowerChecked_eq hlast htower, ok_bind]
  exact hunlink

section Order

variable [DecidableRel cmpLess]

theorem deleteLoopChecked_eq {result : Option V} (hlast : s.heap.Last s.pTailIdx)
    (hdelete : s.deleteLoop cmpLess key fuel ix = .ok (result, s')) :
    s.deleteLoopChecked cmpLess key fuel ix = .ok (result, s') := by
  induction fuel generalizing ix with
  | zero => cases hdelete
  | succ fuel ih =>
      rw [SkipList.deleteLoop] at hdelete
      rw [SkipList.deleteLoopChecked]
      by_cases hix : ix ≠ none
      · rw [if_pos hix] at hdelete ⊢
        obtain ⟨nxt, hnext, hdelete⟩ := ok_of_bind hdelete
        obtain ⟨turn, hturn, hdelete⟩ := ok_of_bind hdelete
        simp only [hnext, hturn, ok_bind]
        cases turn with
        | descent =>
            obtain ⟨below, hdown, hdelete⟩ := ok_of_bind hdelete
            simp only [hdown, ok_bind]
            exact ih hdelete
        | right => exact ih hdelete
        | found => exact unlinkChecked_eq hlast hdelete
      · rw [if_neg hix] at hdelete ⊢
        exact hdelete

/-- A `Delete` that ends has never come to the tail in its inner loop. -/
theorem deleteChecked_eq {result : Option V} (hlast : s.heap.Last s.pTailIdx)
    (hdelete : s.delete cmpLess key = .ok (result, s')) :
    s.deleteChecked cmpLess key = .ok (result, s') :=
  deleteLoopChecked_eq hlast hdelete

omit [DecidableRel cmpLess] in
/-- `pTailIdx` is the last node of its level. -/
theorem Shaped.last (hs : Shaped cmpLess s cells level) : s.heap.Last s.pTailIdx := by
  have hchain := hs.linkedLevel 0 hs.positive
  rw [Linked, ← List.cons_append] at hchain
  have hnone : s.heap.indexLink s.pTailIdx = none := hchain.next_eq
  intro n hn
  obtain ⟨node, hnode, hreference⟩ := ok_of_bind hn
  rw [Heap.indexLink] at hnone
  cases hindex : s.heap.index s.pTailIdx with
  | none =>
      rw [deref, hindex] at hnode
      cases hnode
  | some object =>
      rw [deref, hindex] at hnode
      rw [hindex, Option.bind_some, Except.ok.inj hnode] at hnone
      rw [hnone] at hreference
      cases hreference

variable [IsStrictWeakOrder K cmpLess]

/-- Whatever calls were made and whatever `rand()` gave: `find`, `insert_pair` and `Delete` of any
key end without a fault, and the inner loop of `Delete` stops in front of the tail. -/
theorem searches_end (rand : ℕ → ℕ) {maxHeight : ℕ} (hpositive : 0 < maxHeight)
    (cs : List (Call K V)) :
    ∃ s₀ results s, create maxHeight = .ok s₀ ∧ s₀.calls cmpLess rand cs = .ok (results, s) ∧
      ∀ key, (∃ node, s.find cmpLess key = .ok node) ∧
        (∀ value substitute, ∃ result,
          s.insertPair cmpLess rand key value substitute = .ok result) ∧
        ∃ result, s.delete cmpLess key = .ok result ∧ s.deleteChecked cmpLess key = .ok result := by
  obtain ⟨s₀, hcreate, hs₀⟩ : ∃ s : SkipList K V, create maxHeight = .ok s ∧
      Represents cmpLess s Assoc.empty := create_represents hpositive
  obtain ⟨s, hcalls, cells, level, hs, hcomplete, -⟩ := hs₀.calls rand cs
  refine ⟨s₀, _, s, hcreate, hcalls, ?_⟩
  intro key
  obtain ⟨heap, level', hdelete, -⟩ := hs.delete_ok hcomplete key
  refine ⟨⟨_, hs.find_eq hcomplete key⟩, ?_, ⟨_, hdelete, deleteChecked_eq hs.last hdelete⟩⟩
  intro value substitute
  obtain ⟨s', level', hinsert, -⟩ := hs.insertPair_ok rand hcomplete key value substitute
  exact ⟨_, hinsert⟩

end Order

/-- Three keys on two levels, one of them replaced and one deleted. -/
theorem searches_end_three_keys : 0 < 2 ∧
    ∃ (s₀ : SkipList ℕ ℕ) (results : List (Option ℕ)) (s : SkipList ℕ ℕ), create 2 = .ok s₀ ∧
      s₀.calls (· < ·) (fun n ↦ n) [.put 5 50, .put 3 30, .put 9 90, .put 3 31, .delete 5] =
        .ok (results, s) ∧
      ∀ key, (∃ node, s.find (· < ·) key = .ok node) ∧
        (∀ value substitute, ∃ result,
          s.insertPair (· < ·) (fun n ↦ n) key value substitute = .ok result) ∧
        ∃ result, s.delete (· < ·) key = .ok result ∧ s.deleteChecked (· < ·) key = .ok result :=
  ⟨by decide, searches_end (fun n ↦ n) (by decide) _⟩

end CppMtHw.Skiplist
