import CppMtHw.Skiplist.Deletion

/-!
# A skip list is an ordered map

An association of keys with entries that looks at keys up to the order says what the
member functions are for. Whatever `rand()` gives and however many levels there are, a
sequence of calls on a new list returns what the association says, and an iteration
reads its entries in strictly increasing order of the keys.
-/

namespace CppMtHw.Skiplist

open Machine

variable {K V : Type} {cmpLess : K → K → Prop} {s : SkipList K V} {cells : Cells K V}
  {level : ℕ → Level K}

/-! ## The constructor -/

/-- The sentinels of the levels, made one after the other. -/
theorem createHeads_ok (pHead : DataPtr) (pTailIdx : IndexPtr) (levels : ℕ) (prev : Option NodePtr)
    (heap : Heap K V) : ∃ heap', createHeads pHead pTailIdx levels prev heap =
        .ok (List.range' heap.fresh levels, heap') ∧
      heap'.data = heap.data ∧ heap'.fresh = heap.fresh + levels ∧
      ∀ p : ℕ, heap'.index p = if heap.fresh ≤ p ∧ p < heap.fresh + levels then
          some ⟨if p = heap.fresh then prev else some (.index (p - 1)), some pHead, some pTailIdx⟩
        else heap.index p := by
  induction levels generalizing prev heap with
  | zero => exact ⟨heap, rfl, rfl, rfl, fun p ↦ (if_neg (by omega)).symm⟩
  | succ levels ih =>
      -- the first sentinel
      have hfirst : (heap.newIndex prev (some pHead)).2.setNext (some heap.fresh) pTailIdx =
          .ok ((heap.newIndex prev (some pHead)).2.putIndex (some heap.fresh)
            (some ⟨prev, some pHead, some pTailIdx⟩)) := by
        simp [Heap.newIndex, Heap.setNext, Heap.putIndex, deref, assign, pure, Except.pure]
      obtain ⟨heap', hrest, hdata, hfresh, hindex⟩ := ih (some (.index heap.fresh))
        ((heap.newIndex prev (some pHead)).2.putIndex (some heap.fresh)
            (some ⟨prev, some pHead, some pTailIdx⟩))
      refine ⟨heap', ?_, hdata, ?_, fun p ↦ ?_⟩
      · rw [createHeads]
        show ((heap.newIndex prev (some pHead)).2.setNext (some heap.fresh) pTailIdx >>= _) = _
        rw [hfirst, ok_bind]
        show (createHeads pHead pTailIdx levels (some (.index heap.fresh)) _ >>= _) = _
        rw [hrest]
        rfl
      · rw [hfresh]
        show heap.fresh + 1 + levels = _
        omega
      · rw [hindex]
        have hstart : ((heap.newIndex prev (some pHead)).2.putIndex (some heap.fresh)
            (some ⟨prev, some pHead, some pTailIdx⟩)).fresh = heap.fresh + 1 := rfl
        have hput : ((heap.newIndex prev (some pHead)).2.putIndex (some heap.fresh)
            (some ⟨prev, some pHead, some pTailIdx⟩)).index p =
              if p = heap.fresh then some ⟨prev, some pHead, some pTailIdx⟩ else heap.index p := by
          simp only [Heap.newIndex, Heap.putIndex, assign, Option.some.injEq, eq_comm]
          split <;> rfl
        rw [hstart, hput]
        by_cases hp : p = heap.fresh
        · subst hp
          rw [if_neg (by omega), if_pos rfl, if_pos (by omega), if_pos rfl]
        · rw [if_neg hp]
          by_cases hrange : heap.fresh + 1 ≤ p ∧ p < heap.fresh + 1 + levels
          · have hlater : heap.fresh ≤ p ∧ p < heap.fresh + (levels + 1) := by omega
            rw [if_pos hrange, if_pos hlater, if_neg hp]
            by_cases hsecond : p = heap.fresh + 1
            · rw [if_pos hsecond, hsecond, Nat.add_sub_cancel]
            · rw [if_neg hsecond]
          · rw [if_neg hrange, if_neg (by omega)]

def startHeap : Heap K V where
  data := assign (assign (assign (Heap.empty : Heap K V).data (some 0) (some ⟨none, none, none⟩))
    (some 1) (some ⟨none, none, none⟩)) (some 0) (some ⟨none, none, some 1⟩)
  index := assign (Heap.empty : Heap K V).index (some 2) (some ⟨some (.data 1), some 1, none⟩)
  fresh := 3

/-- A new list is in order and empty. -/
theorem create_ok {maxHeight : ℕ} (hpositive : 0 < maxHeight) :
    ∃ s : SkipList K V, create maxHeight = .ok s ∧ Shaped cmpLess s [] (fun _ ↦ []) := by
  obtain ⟨heap', hheads, hdata, hfresh, hindex⟩ :=
    createHeads_ok 0 2 maxHeight none (startHeap : Heap K V)
  have hnodes : ∀ p, heap'.data p = if p = 0 then some ⟨none, none, some 1⟩
      else if p = 1 then some ⟨none, none, none⟩ else none := by
    intro p
    rw [hdata]
    match p with
    | 0 => rfl
    | 1 => rfl
    | p + 2 => rfl
  have hrows : ∀ p : ℕ, heap'.index p = if 3 ≤ p ∧ p < 3 + maxHeight then
      some ⟨if p = 3 then none else some (.index (p - 1)), some 0, some 2⟩
      else if p = 2 then some ⟨some (.data 1), some 1, none⟩ else none := by
    intro p
    have hstart : (startHeap : Heap K V).fresh = 3 := rfl
    rw [hindex, hstart]
    split
    · rfl
    · simp only [startHeap, assign, Heap.empty, Option.some.injEq, eq_comm]
  have hhead : ∀ i < maxHeight, (List.range' 3 maxHeight).getD i 0 = 3 + i := by
    intro i hi
    simp [List.getD_eq_getElem?_getD, hi]
  have hcreate : create maxHeight =
      .ok (⟨heap', 0, 1, 2, List.range' 3 maxHeight, 0⟩ : SkipList K V) := by
    have hcreated : (create maxHeight : Except Fault (SkipList K V)) =
        (createHeads 0 2 maxHeight none startHeap >>= fun p ↦ pure ⟨p.2, 0, 1, 2, p.1, 0⟩) := rfl
    rw [hcreated, hheads]
    rfl
  have hheight : ∀ i, i < (⟨heap', 0, 1, 2, List.range' 3 maxHeight, 0⟩ : SkipList K V).maxHeight →
      i < maxHeight := by
    intro i hi
    rwa [SkipList.maxHeight, List.length_range'] at hi
  refine ⟨_, hcreate, ?_⟩
  exact
    { positive := by rw [SkipList.maxHeight, List.length_range']; exact hpositive
      sortedCells := List.Pairwise.nil
      sortedLevel := fun _ _ ↦ List.Pairwise.nil
      linkedCells := by
        simp [Linked, Heap.dataLink, hnodes]
      linkedLevel := fun i hi ↦ by
        have hi := hheight i hi
        simp [Linked, Heap.indexLink, hrows, SkipList.headIdx, hi]
      head := by simp [Heap.dataBody, hnodes]
      tail := by simp [Heap.dataBody, hnodes]
      cell := fun c hc ↦ absurd hc (List.not_mem_nil)
      tailIdx := by simp [Heap.indexBody, hrows]
      headIdx := fun i hi ↦ by
        have hi := hheight i hi
        simp only [Heap.indexBody, SkipList.headIdx, hhead i hi, hrows]
        rw [if_pos (by omega)]
        cases i with
        | zero => rfl
        | succ i =>
            simp only [SkipList.headDown, SkipList.headIdx, hhead i (Nat.lt_of_succ_lt hi)]
            rw [if_neg (by omega)]
            rfl
      rung := fun i hi r hr ↦ absurd hr (List.not_mem_nil)
      rooted := fun i hi r hr ↦ absurd hr (List.not_mem_nil)
      dataNodes := fun p hp ↦ by
        simp only [Heap.dataBody, hnodes] at hp
        split at hp
        · rename_i h0
          simp [h0]
        · split at hp
          · rename_i h1
            simp [h1]
          · exact absurd rfl hp
      indexNodes := fun (p : ℕ) hp ↦ by
        simp only [Heap.indexBody, hrows] at hp
        split at hp
        · rename_i hrange
          refine Or.inr ⟨p - 3, ?_, ?_⟩
          · rw [SkipList.maxHeight, List.length_range']
            omega
          · have hlevel : p - 3 < maxHeight := by omega
            rw [SkipList.headIdx, hhead (p - 3) hlevel]
            exact List.mem_cons.mpr (Or.inl (Nat.add_sub_cancel' hrange.1).symm)
        · split at hp
          · exact Or.inl ‹_›
          · exact absurd rfl hp
      fresh := fun (p : ℕ) hp ↦ by
        have hp : heap'.fresh ≤ p := hp
        have hstart : (startHeap : Heap K V).fresh = 3 := rfl
        rw [hfresh, hstart] at hp
        have h0 : p ≠ 0 := by omega
        have h1 : p ≠ 1 := by omega
        have h2 : p ≠ 2 := by omega
        have hlate : ¬(3 ≤ p ∧ p < 3 + maxHeight) := by omega
        simp only [Heap.dataBody, Heap.indexBody, hnodes, hrows, if_neg h0, if_neg h1, if_neg h2,
          if_neg hlate]
        exact ⟨rfl, rfl⟩ }

/-! ## Iteration -/

theorem Shaped.iterate_ok (hs : Shaped cmpLess s cells level) (front back : Cells K V) {fuel : ℕ}
    {p : DataPtr}
    (hsplit : cells = front ++ back) (hp : (nodes back ++ [s.pTail]).head? = some p)
    (hfuel : back.length < fuel) :
    s.iterate fuel p = .ok (back.map fun c ↦ (c.1, c.2.2)) := by
  induction fuel generalizing front back p with
  | zero => omega
  | succ fuel ih =>
      cases back with
      | nil =>
          obtain rfl : s.pTail = p := by simpa using hp
          rw [SkipList.iterate, SkipList.cend, if_neg (by simp)]
          rfl
      | cons c cs =>
          obtain rfl : c.2.1 = p := by simpa using hp
          have hc : c ∈ cells := by rw [hsplit]; simp
          have hbody := hs.cell c hc
          have hne : c.2.1 ≠ s.cend := by
            intro heq
            rw [heq, SkipList.cend, hs.tail] at hbody
            cases hbody
          have hlink : s.heap.dataLink c.2.1 = (nodes cs ++ [s.pTail]).head? := by
            have hchain := hs.linkedCells
            have hrow : s.pHead :: (nodes cells ++ [s.pTail]) =
                (s.pHead :: nodes front) ++ c.2.1 :: (nodes cs ++ [s.pTail]) := by
              rw [hsplit]
              simp
            rw [Linked, hrow] at hchain
            exact hchain.next_eq
          obtain ⟨n, hn⟩ : ∃ n, (nodes cs ++ [s.pTail]).head? = some n := by
            cases cs with
            | nil => exact ⟨s.pTail, rfl⟩
            | cons q qs => exact ⟨q.2.1, rfl⟩
          have hrest := ih (front ++ [c]) cs (by rw [hsplit]; simp) hn
            (Nat.lt_of_succ_lt_succ hfuel)
          rw [SkipList.iterate, if_pos hne]
          simp only [Heap.dataKey_ok hbody, Heap.dataValue_ok hbody,
            Heap.dataNext_ok (hlink.trans hn), hrest, ok_bind]
          rfl

theorem Shaped.length_lt_steps (hs : Shaped cmpLess s cells level) : cells.length < s.steps := by
  have hsub : nodes cells ⊆ List.range s.heap.fresh := by
    intro p hp
    rw [List.mem_range]
    by_contra hfresh
    have hrow : p ∈ s.pHead :: (nodes cells ++ [s.pTail]) := by simp [hp]
    exact hs.dataBody_ne_none hrow (hs.fresh p (Nat.le_of_not_lt hfresh)).1
  have hlength : cells.length ≤ s.heap.fresh := by
    simpa using hs.linkedCells.nodup_nodes.length_le_of_subset hsub
  have hmul : 1 * (s.heap.fresh + 1) ≤ s.maxHeight * (s.heap.fresh + 1) :=
    Nat.mul_le_mul_right _ hs.positive
  rw [SkipList.steps]
  omega

theorem Shaped.entries_ok (hs : Shaped cmpLess s cells level) :
    s.entries = .ok (cells.map fun c ↦ (c.1, c.2.2)) := by
  obtain ⟨first, hfirst⟩ := hs.linkedCells.exists_next List.mem_cons_self
  have hhead : (nodes cells ++ [s.pTail]).head? = some first := by
    have hchain := hs.linkedCells
    rw [Linked, ← List.nil_append (s.pHead :: _)] at hchain
    rw [← hchain.next_eq, hfirst]
  rw [SkipList.entries, SkipList.cbegin, Heap.dataNext_ok hfirst, ok_bind]
  exact hs.iterate_ok [] cells rfl hhead hs.length_lt_steps

/-! ## Associations -/

/-- What is stored under each key: the key that was stored first, and the value. -/
abbrev Assoc (K V : Type) := K → Option (K × V)

namespace Assoc

variable (cmpLess) [DecidableRel cmpLess]

def empty : Assoc K V := fun _ ↦ none

def value (m : Assoc K V) (key : K) : Option V := (m key).map Prod.snd

/-- Store a value under a key and all keys that the order does not separate from it. -/
def store (m : Assoc K V) (key : K) (value : V) : Assoc K V := fun j ↦
  if SortedMap.Same cmpLess j key then some (((m key).map Prod.fst).getD key, value) else m j

def remove (m : Assoc K V) (key : K) : Assoc K V := fun j ↦
  if SortedMap.Same cmpLess j key then none else m j

/-- What a call returns, and the association after it. -/
def call (m : Assoc K V) : Call K V → Option V × Assoc K V
  | .put key value => (m.value key, m.store cmpLess key value)
  | .putIfAbsent key value =>
      (m.value key, if (m key).isNone then m.store cmpLess key value else m)
  | .get key => (m.value key, m)
  | .delete key => (m.value key, m.remove cmpLess key)

def calls : List (Call K V) → Assoc K V → List (Option V) × Assoc K V
  | [], m => ([], m)
  | c :: cs, m =>
      let (result, m) := m.call cmpLess c
      let (results, m) := calls cs m
      (result :: results, m)

end Assoc

/-- The list is in order and holds the entries of the association. -/
def Represents (cmpLess : K → K → Prop) [DecidableRel cmpLess] (s : SkipList K V)
    (m : Assoc K V) : Prop :=
  ∃ cells level, Shaped cmpLess s cells level ∧ Complete cells level ∧
    ∀ j, m j = (SortedMap.find cmpLess j cells).map fun c ↦ (c.1, c.2.2)

/-- A new list holds nothing. -/
theorem create_represents [DecidableRel cmpLess] {maxHeight : ℕ} (hpositive : 0 < maxHeight) :
    ∃ s : SkipList K V, create maxHeight = .ok s ∧ Represents cmpLess s Assoc.empty := by
  obtain ⟨s, hcreate, hs⟩ : ∃ s : SkipList K V, create maxHeight = .ok s ∧
      Shaped cmpLess s [] (fun _ ↦ []) := create_ok hpositive
  exact ⟨s, hcreate, [], _, hs, by simp [Complete], fun _ ↦ rfl⟩

variable [DecidableRel cmpLess] [IsStrictWeakOrder K cmpLess] {m : Assoc K V}

theorem Assoc.store_of_find {key : K} {value : V} {p : DataPtr}
    (hm : ∀ j, m j = (SortedMap.find cmpLess j cells).map fun c ↦ (c.1, c.2.2)) (j : K) :
    m.store cmpLess key value j =
      (SortedMap.find cmpLess j (SortedMap.insert cmpLess key (p, value) cells)).map
        fun c ↦ (c.1, c.2.2) := by
  rw [Assoc.store, SortedMap.find_insert]
  split
  · simp only [hm, Option.map_map, Option.map_some]
    rfl
  · exact hm j

def Call.key : Call K V → K
  | .put key _ => key
  | .putIfAbsent key _ => key
  | .get key => key
  | .delete key => key

def callCells (cmpLess : K → K → Prop) [DecidableRel cmpLess] (fresh : DataPtr)
    (cells : Cells K V) :
    Call K V → Cells K V
  | .put key value => putCells cmpLess fresh key value true cells
  | .putIfAbsent key value => putCells cmpLess fresh key value false cells
  | .get _ => cells
  | .delete key => SortedMap.erase cmpLess key cells

/-- A call returns the value stored under its key and keeps the list in order. -/
theorem Shaped.call_ok (rand : ℕ → ℕ) (hs : Shaped cmpLess s cells level)
    (hcomplete : Complete cells level) (c : Call K V) :
    ∃ s' level', s.call cmpLess rand c =
        .ok ((SortedMap.find cmpLess c.key cells).map fun c ↦ c.2.2, s') ∧
      Shaped cmpLess s' (callCells cmpLess s.heap.fresh cells c) level' ∧
      Complete (callCells cmpLess s.heap.fresh cells c) level' := by
  cases c with
  | put key value => exact hs.insertPair_ok rand hcomplete key value true
  | putIfAbsent key value => exact hs.insertPair_ok rand hcomplete key value false
  | get key =>
      refine ⟨s, level, ?_, hs, hcomplete⟩
      rw [SkipList.call, hs.get_eq hcomplete, ok_bind]
      rfl
  | delete key =>
      obtain ⟨heap, level', hcall, hs', hcomplete', -⟩ := hs.delete_ok hcomplete key
      exact ⟨{ s with heap }, level', hcall, hs', hcomplete'⟩

/-- The association after a call is that of the data nodes after it. -/
theorem Assoc.call_of_find (hsorted : SortedMap.Sorted cmpLess cells)
    (hm : ∀ j, m j = (SortedMap.find cmpLess j cells).map fun c ↦ (c.1, c.2.2)) (fresh : DataPtr)
    (c : Call K V) :
    (m.call cmpLess c).1 = ((SortedMap.find cmpLess c.key cells).map fun c ↦ c.2.2) ∧
    ∀ j, (m.call cmpLess c).2 j =
      (SortedMap.find cmpLess j (callCells cmpLess fresh cells c)).map fun c ↦ (c.1, c.2.2) := by
  have hvalue : ∀ key, m.value key = (SortedMap.find cmpLess key cells).map fun c ↦ c.2.2 := by
    intro key
    rw [Assoc.value, hm, Option.map_map]
    rfl
  cases c with
  | put key value =>
      refine ⟨hvalue key, fun j ↦ ?_⟩
      rw [callCells, putCells]
      split
      · exact Assoc.store_of_find hm j
      · exact Assoc.store_of_find hm j
  | putIfAbsent key value =>
      refine ⟨hvalue key, fun j ↦ ?_⟩
      rw [callCells, putCells, Assoc.call]
      cases hfind : SortedMap.find cmpLess key cells with
      | none =>
          have hnone : (m key).isNone := by rw [hm, hfind]; rfl
          rw [if_pos hnone]
          exact Assoc.store_of_find hm j
      | some c =>
          have hsome : ¬(m key).isNone := by rw [hm, hfind]; simp
          rw [if_neg hsome]
          exact hm j
  | get key => exact ⟨hvalue key, hm⟩
  | delete key =>
      refine ⟨hvalue key, fun j ↦ ?_⟩
      rw [callCells, Assoc.call, hsorted.find_erase]
      show (if _ then none else m j) = _
      split
      · rfl
      · exact hm j

/-- A call returns what the association says, and the list holds the new association. -/
theorem Represents.call (rand : ℕ → ℕ) (h : Represents cmpLess s m) (c : Call K V) :
    ∃ s', s.call cmpLess rand c = .ok ((m.call cmpLess c).1, s') ∧
      Represents cmpLess s' (m.call cmpLess c).2 := by
  obtain ⟨cells, level, hs, hcomplete, hm⟩ := h
  obtain ⟨s', level', hcall, hs', hcomplete'⟩ := hs.call_ok rand hcomplete c
  obtain ⟨hresult, hassoc⟩ := Assoc.call_of_find hs.sortedCells hm s.heap.fresh c
  exact ⟨s', by rw [hresult, hcall], _, level', hs', hcomplete', hassoc⟩

theorem Represents.calls (rand : ℕ → ℕ) (h : Represents cmpLess s m) (cs : List (Call K V)) :
    ∃ s', s.calls cmpLess rand cs = .ok ((m.calls cmpLess cs).1, s') ∧
      Represents cmpLess s' (m.calls cmpLess cs).2 := by
  induction cs generalizing s m with
  | nil => exact ⟨s, rfl, h⟩
  | cons c cs ih =>
      obtain ⟨t, hcall, ht⟩ := h.call rand c
      obtain ⟨u, hcalls, hu⟩ := ih ht
      refine ⟨u, ?_, hu⟩
      rw [SkipList.calls, hcall, ok_bind]
      simp only [hcalls, ok_bind]
      rfl

theorem Represents.entries (h : Represents cmpLess s m) :
    ∃ entries, s.entries = .ok entries ∧ entries.Pairwise (fun p q ↦ cmpLess p.1 q.1) ∧
      ∀ p, p ∈ entries ↔ m p.1 = some p := by
  obtain ⟨cells, level, hs, -, hm⟩ := h
  refine ⟨_, hs.entries_ok, List.pairwise_map.mpr hs.sortedCells, fun p ↦ ?_⟩
  rw [hm, Option.map_eq_some_iff, List.mem_map]
  refine ⟨fun ⟨c, hc, heq⟩ ↦ ⟨c, ?_, heq⟩, fun ⟨c, hc, heq⟩ ↦
    ⟨c, (SortedMap.mem_of_find_eq_some hc).1, heq⟩⟩
  rw [← heq]
  exact hs.sortedCells.mem_iff_find.mp hc

/-- A skip list is an ordered map. -/
theorem refines_ordered_map (rand : ℕ → ℕ) {maxHeight : ℕ} (hpositive : 0 < maxHeight)
    (cs : List (Call K V)) :
    ∃ s₀ s entries, create maxHeight = .ok s₀ ∧
      s₀.calls cmpLess rand cs = .ok ((Assoc.empty.calls cmpLess cs).1, s) ∧
      s.entries = .ok entries ∧ entries.Pairwise (fun p q ↦ cmpLess p.1 q.1) ∧
      ∀ p, p ∈ entries ↔ (Assoc.empty.calls cmpLess cs).2 p.1 = some p := by
  obtain ⟨s₀, hcreate, hs₀⟩ : ∃ s : SkipList K V, create maxHeight = .ok s ∧
      Represents cmpLess s Assoc.empty := create_represents hpositive
  obtain ⟨s, hcalls, hs⟩ := hs₀.calls rand cs
  obtain ⟨entries, hentries, hspec⟩ := hs.entries
  exact ⟨s₀, s, entries, hcreate, hcalls, hentries, hspec⟩

/-- Three keys on two levels: one value is replaced, one key is deleted. -/
theorem refines_ordered_map_three_keys : 0 < 2 ∧
    ∃ s₀ s entries, create 2 = .ok s₀ ∧
      s₀.calls (· < ·) (fun n ↦ n) [.put 5 50, .put 3 30, .put 9 90, .put 3 31, .delete 5] =
        .ok ((Assoc.empty.calls (· < ·)
          [.put 5 50, .put 3 30, .put 9 90, .put 3 31, .delete (5 : ℕ)]).1, s) ∧
      s.entries = .ok entries ∧ entries.Pairwise (fun p q : ℕ × ℕ ↦ p.1 < q.1) ∧
      ∀ p, p ∈ entries ↔ (Assoc.empty.calls (· < ·)
        [.put 5 50, .put 3 30, .put 9 90, .put 3 31, .delete 5]).2 p.1 = some p :=
  ⟨by decide, refines_ordered_map (fun n ↦ n) (by decide) _⟩

end CppMtHw.Skiplist
