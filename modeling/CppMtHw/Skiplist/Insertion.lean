import CppMtHw.Skiplist.Links
import CppMtHw.Skiplist.Search

/-!
# Insertions

`insert_pair` puts a new data node behind the root of the node where the search left
level 0, and then an index node on each level of the new tower, from the bottom up, behind
the node where the search left that level. After each of these steps the list has its
shape; which levels the tower reaches does not matter.
-/

namespace CppMtHw.Skiplist

open Machine

variable {K V : Type} {cmpLess : K → K → Prop} {s : SkipList K V} {cells : Cells K V}
  {level level' : ℕ → Level K} {heap : Heap K V} {i n : ℕ} {x : ℕ} {key : K} {value : V}
  {d : DataPtr}

theorem Lower.mono {target : NodePtr} (h : Lower level i d target)
    (hsub : ∀ j < i, ∀ r ∈ level j, r ∈ level' j) : Lower level' i d target := by
  cases i with
  | zero => exact h
  | succ i =>
      obtain ⟨r, hr, hroot⟩ := h
      exact ⟨r, hsub i (Nat.lt_succ_self i) r hr, hroot⟩

theorem Heap.indexBody_congr {h h' : Heap K V} (heq : h'.index = h.index) :
    h'.indexBody = h.indexBody := by
  funext p
  rw [indexBody, indexBody, heq]

theorem Heap.indexLink_congr {h h' : Heap K V} (heq : h'.index = h.index) :
    h'.indexLink = h.indexLink := by
  funext p
  rw [indexLink, indexLink, heq]

theorem Heap.dataBody_congr {h h' : Heap K V} (heq : h'.data = h.data) :
    h'.dataBody = h.dataBody := by
  funext p
  rw [dataBody, dataBody, heq]

theorem Heap.dataLink_congr {h h' : Heap K V} (heq : h'.data = h.data) :
    h'.dataLink = h.dataLink := by
  funext p
  rw [dataLink, dataLink, heq]

variable [DecidableRel cmpLess] [IsStrictWeakOrder K cmpLess]

/-- A new data node behind the place of its key. -/
theorem Shaped.insertCell (hs : Shaped cmpLess s cells level)
    (harrived : Arrived cmpLess key s.pHead cells x)
    (hnone : SortedMap.find cmpLess key cells = none) (hindex : heap.index = s.heap.index)
    (hfresh : heap.fresh = s.heap.fresh + 1)
    (hsplice : SplicedIn s.heap.dataBody heap.dataBody s.heap.dataLink heap.dataLink x s.heap.fresh
      (some key, some value)) :
    Shaped cmpLess { s with heap }
      (SortedMap.insert cmpLess key (s.heap.fresh, value) cells) level := by
  have hibody : heap.indexBody = s.heap.indexBody := Heap.indexBody_congr hindex
  have hilink : heap.indexLink = s.heap.indexLink := Heap.indexLink_congr hindex
  have hunused : s.heap.dataBody s.heap.fresh = none := (hs.fresh _ le_rfl).1
  have hnew : s.heap.fresh ∉ s.pHead :: (nodes cells ++ [s.pTail]) :=
    fun hmem ↦ hs.dataBody_ne_none hmem hunused
  have hold : ∀ p, s.heap.dataBody p ≠ none → heap.dataBody p = s.heap.dataBody p := by
    intro p hp
    rw [hsplice.body, if_neg]
    rintro rfl
    exact hp hunused
  have hmem : ∀ c, c ∈ SortedMap.insert cmpLess key (s.heap.fresh, value) cells ↔
      c = (key, s.heap.fresh, value) ∨ c ∈ cells := fun c ↦ hs.sortedCells.mem_insert_iff hnone
  exact
    { positive := hs.positive
      sortedCells := SortedMap.sorted_insert hs.sortedCells
      sortedLevel := hs.sortedLevel
      linkedCells := hs.linkedCells.splice harrived hnone hnew hsplice.behind
        hsplice.ahead hsplice.same
      linkedLevel := fun i hi ↦ hilink ▸ hs.linkedLevel i hi
      head := by
        rw [← hs.head]
        exact hold _ (by simp [hs.head])
      tail := by
        rw [← hs.tail]
        exact hold _ (by simp [hs.tail])
      cell := fun c hc ↦ by
        rcases (hmem c).mp hc with rfl | hc
        · show heap.dataBody s.heap.fresh = _
          rw [hsplice.body, if_pos rfl]
        · rw [← hs.cell c hc]
          exact hold _ (by simp [hs.cell c hc])
      tailIdx := hibody ▸ hs.tailIdx
      headIdx := fun i hi ↦ hibody ▸ hs.headIdx i hi
      rung := fun i hi r hr ↦ hibody ▸ hs.rung i hi r hr
      rooted := fun i hi r hr ↦ by
        obtain ⟨c, hc, hkey, hroot⟩ := hs.rooted i hi r hr
        exact ⟨c, (hmem c).mpr (Or.inr hc), hkey, hroot⟩
      dataNodes := fun p hp ↦ by
        have hp : heap.dataBody p ≠ none := hp
        rw [hsplice.body] at hp
        have hnodes : ∀ q ∈ nodes cells,
            q ∈ nodes (SortedMap.insert cmpLess key (s.heap.fresh, value) cells) := by
          intro q hq
          obtain ⟨c, hc, rfl⟩ := mem_nodes.mp hq
          exact mem_nodes_of_mem ((hmem c).mpr (Or.inr hc))
        by_cases hpfresh : p = s.heap.fresh
        · have hself := mem_nodes_of_mem ((hmem _).mpr (Or.inl rfl))
          rw [hpfresh]
          exact List.mem_cons_of_mem _ (List.mem_append_left _ hself)
        · rw [if_neg hpfresh] at hp
          have hrow := hs.dataNodes p hp
          rw [List.mem_cons, List.mem_append] at hrow ⊢
          exact hrow.imp_right (Or.imp_left (hnodes p))
      indexNodes := fun p hp ↦ hs.indexNodes p (by rwa [← hibody])
      fresh := fun p hp ↦ by
        have hp : heap.fresh ≤ p := hp
        have hlt : s.heap.fresh < p := by omega
        refine ⟨?_, ?_⟩
        · show heap.dataBody p = none
          rw [hsplice.body, if_neg hlt.ne']
          exact (hs.fresh p hlt.le).1
        · show heap.indexBody p = none
          rw [hibody]
          exact (hs.fresh p hlt.le).2 }

/-- The rungs once level `i` holds a new key. -/
theorem Shaped.mem_update_insert (hs : Shaped cmpLess s cells level) (hi : i < s.maxHeight)
    (hnone : SortedMap.find cmpLess key (level i) = none) {node : IndexPtr × DataPtr} {j : ℕ}
    {r : K × IndexPtr × DataPtr} :
    r ∈ Function.update level i (SortedMap.insert cmpLess key node (level i)) j ↔
      (j = i ∧ r = (key, node)) ∨ r ∈ level j := by
  by_cases hji : j = i
  · subst hji
    rw [Function.update_self, (hs.sortedLevel j hi).mem_insert_iff hnone]
    simp
  · rw [Function.update_of_ne hji]
    simp [hji]

/-- A new index node on level `i` behind the place of its key. -/
theorem Shaped.insertRung (hs : Shaped cmpLess s cells level) (hi : i < s.maxHeight)
    {target : NodePtr} (harrived : Arrived cmpLess key (s.headIdx i) (level i) x)
    (hnone : SortedMap.find cmpLess key (level i) = none)
    (hcell : ∃ c ∈ cells, c.1 = key ∧ c.2.1 = d) (hlower : Lower level i d target)
    (hdata : heap.data = s.heap.data) (hfresh : heap.fresh = s.heap.fresh + 1)
    (hsplice : SplicedIn s.heap.indexBody heap.indexBody s.heap.indexLink heap.indexLink x
      s.heap.fresh (some target, some d)) :
    Shaped cmpLess { s with heap, draws := n } cells (Function.update level i
      (SortedMap.insert cmpLess key (s.heap.fresh, d) (level i))) := by
  have hdbody : heap.dataBody = s.heap.dataBody := Heap.dataBody_congr hdata
  have hdlink : heap.dataLink = s.heap.dataLink := Heap.dataLink_congr hdata
  have hunused : s.heap.indexBody s.heap.fresh = none := (hs.fresh _ le_rfl).2
  have hnot : ∀ j < s.maxHeight,
      s.heap.fresh ∉ s.headIdx j :: (nodes (level j) ++ [s.pTailIdx]) := by
    intro j hj hrow
    rw [← List.cons_append, List.mem_append, List.mem_singleton] at hrow
    apply hrow.elim
    · exact fun hmem ↦ hs.indexBody_ne_none hj hmem hunused
    · intro htail
      rw [htail, hs.tailIdx] at hunused
      cases hunused
  have hold : ∀ p, s.heap.indexBody p ≠ none → heap.indexBody p = s.heap.indexBody p := by
    intro p hp
    rw [hsplice.body, if_neg]
    rintro rfl
    exact hp hunused
  have hgrown : ∀ j, ∀ r ∈ level j, r ∈ Function.update level i
      (SortedMap.insert cmpLess key (s.heap.fresh, d) (level i)) j :=
    fun j r hr ↦ (hs.mem_update_insert hi hnone).mpr (Or.inr hr)
  have hxrow : x ∈ s.headIdx i :: nodes (level i) := harrived.mem_row
  exact
    { positive := hs.positive
      sortedCells := hs.sortedCells
      sortedLevel := hs.sortedLevel_update (SortedMap.sorted_insert (hs.sortedLevel i hi))
      linkedCells := hdlink ▸ hs.linkedCells
      linkedLevel := by
        apply hs.linkedLevel_update
        · exact (hs.linkedLevel i hi).splice harrived hnone (hnot i hi) hsplice.behind hsplice.ahead
            hsplice.same
        · intro j hj hji z hz
          apply hsplice.same
          · exact fun hzx ↦ hs.not_mem_row hi hj hji hxrow (hzx ▸ hz)
          · exact fun hznew ↦ hnot j hj (hznew ▸ hz)
      head := hdbody ▸ hs.head
      tail := hdbody ▸ hs.tail
      cell := fun c hc ↦ hdbody ▸ hs.cell c hc
      tailIdx := by
        rw [← hs.tailIdx]
        exact hold _ (by simp [hs.tailIdx])
      headIdx := fun j hj ↦ by
        have hbody := hs.headIdx j hj
        exact (hold (s.headIdx j) (by simp [hbody])).trans hbody
      rung := fun j hj r hr ↦ by
        cases (hs.mem_update_insert hi hnone).mp hr with
        | inl hnewest =>
            obtain ⟨rfl, rfl⟩ := hnewest
            refine ⟨target, ?_, hlower.mono fun l _ ↦ hgrown l⟩
            show heap.indexBody s.heap.fresh = _
            rw [hsplice.body, if_pos rfl]
        | inr hr =>
            obtain ⟨target', hbody, hlower'⟩ := hs.rung j hj r hr
            exact ⟨target', (hold _ (by simp [hbody])).trans hbody, hlower'.mono fun l _ ↦ hgrown l⟩
      rooted := fun j hj r hr ↦ by
        cases (hs.mem_update_insert hi hnone).mp hr with
        | inl hnewest =>
            obtain ⟨rfl, rfl⟩ := hnewest
            exact hcell
        | inr hr => exact hs.rooted j hj r hr
      dataNodes := fun p hp ↦ hs.dataNodes p (by rwa [← hdbody])
      indexNodes := fun p hp ↦ by
        have hp : heap.indexBody p ≠ none := hp
        rw [hsplice.body] at hp
        by_cases hpfresh : p = s.heap.fresh
        · refine Or.inr ⟨i, hi, List.mem_cons_of_mem _ ?_⟩
          rw [hpfresh]
          exact mem_nodes_of_mem ((hs.mem_update_insert hi hnone).mpr (Or.inl ⟨rfl, rfl⟩))
        · rw [if_neg hpfresh] at hp
          refine (hs.indexNodes p hp).imp_right fun ⟨j, hj, hrow⟩ ↦ ⟨j, hj, ?_⟩
          rw [List.mem_cons] at hrow ⊢
          refine hrow.imp_right fun hrow ↦ ?_
          obtain ⟨r, hr, rfl⟩ := mem_nodes.mp hrow
          exact mem_nodes_of_mem (hgrown j r hr)
      fresh := fun p hp ↦ by
        have hp : heap.fresh ≤ p := hp
        have hlt : s.heap.fresh < p := by omega
        refine ⟨?_, ?_⟩
        · show heap.dataBody p = none
          rw [hdbody]
          exact (hs.fresh p hlt.le).1
        · show heap.indexBody p = none
          rw [hsplice.body, if_neg hlt.ne']
          exact (hs.fresh p hlt.le).2 }

/-- Another value in the data node of a key. -/
theorem Shaped.replaceValue (hs : Shaped cmpLess s cells level) {c : K × DataPtr × V}
    (hfind : SortedMap.find cmpLess key cells = some c) (hindex : heap.index = s.heap.index)
    (hfresh : heap.fresh = s.heap.fresh) (hlink : heap.dataLink = s.heap.dataLink)
    (hbody : ∀ z, heap.dataBody z = if z = c.2.1 then some (some c.1, some value)
      else s.heap.dataBody z) :
    Shaped cmpLess { s with heap } (SortedMap.insert cmpLess key (c.2.1, value) cells) level := by
  have hibody : heap.indexBody = s.heap.indexBody := Heap.indexBody_congr hindex
  have hilink : heap.indexLink = s.heap.indexLink := Heap.indexLink_congr hindex
  obtain ⟨hc, hsame⟩ := SortedMap.mem_of_find_eq_some hfind
  have hnodes := nodes_insert_of_find_eq_some (v := value) hs.sortedCells hfind
  have hmem : ∀ q, q ∈ SortedMap.insert cmpLess key (c.2.1, value) cells ↔
      q = (c.1, c.2.1, value) ∨ q ∈ cells ∧ ¬SortedMap.Same cmpLess q.1 key :=
    fun q ↦ hs.sortedCells.mem_insert_iff_of_some hfind
  have hold : ∀ p b, s.heap.dataBody p = some b → p ≠ c.2.1 → heap.dataBody p = some b := by
    intro p b hp hne
    rw [hbody, if_neg hne, hp]
  have hnone : ∀ p, s.heap.dataBody p = some (none, none) →
      heap.dataBody p = some (none, none) := by
    intro p hp
    refine hold p _ hp ?_
    rintro rfl
    rw [hs.cell c hc] at hp
    cases hp
  exact
    { positive := hs.positive
      sortedCells := SortedMap.sorted_insert hs.sortedCells
      sortedLevel := hs.sortedLevel
      linkedCells := by
        show Linked heap.dataLink s.pHead s.pTail _
        rw [Linked, hnodes, hlink]
        exact hs.linkedCells
      linkedLevel := fun i hi ↦ hilink ▸ hs.linkedLevel i hi
      head := hnone _ hs.head
      tail := hnone _ hs.tail
      cell := fun q hq ↦ by
        rcases (hmem q).mp hq with rfl | ⟨hq, hdiff⟩
        · exact (hbody c.2.1).trans (if_pos rfl)
        · refine hold _ _ (hs.cell q hq) fun heq ↦ ?_
          have hqbody := hs.cell q hq
          rw [heq, hs.cell c hc] at hqbody
          have hkey : c.1 = q.1 := Option.some.inj (Prod.mk.inj (Option.some.inj hqbody)).1
          exact hdiff (hkey ▸ hsame)
      tailIdx := hibody ▸ hs.tailIdx
      headIdx := fun i hi ↦ hibody ▸ hs.headIdx i hi
      rung := fun i hi r hr ↦ hibody ▸ hs.rung i hi r hr
      rooted := fun i hi r hr ↦ by
        obtain ⟨q, hq, hkey, hroot⟩ := hs.rooted i hi r hr
        by_cases hqsame : SortedMap.Same cmpLess q.1 key
        · have hqc := hs.sortedCells.find_eq_some_iff.mpr ⟨hq, hqsame⟩
          obtain rfl : c = q := Option.some.inj (hfind.symm.trans hqc)
          exact ⟨_, (hmem _).mpr (Or.inl rfl), hkey, hroot⟩
        · exact ⟨q, (hmem q).mpr (Or.inr ⟨hq, hqsame⟩), hkey, hroot⟩
      dataNodes := fun p hp ↦ by
        have hp : heap.dataBody p ≠ none := hp
        rw [hnodes]
        refine hs.dataNodes p ?_
        rw [hbody] at hp
        split at hp
        · rename_i heq
          rw [heq, hs.cell c hc]
          exact Option.some_ne_none _
        · exact hp
      indexNodes := fun p hp ↦ hs.indexNodes p (by rwa [← hibody])
      fresh := fun p hp ↦ by
        have hp : s.heap.fresh ≤ p := hfresh ▸ hp
        refine ⟨?_, (congrFun hibody p).trans (hs.fresh p hp).2⟩
        refine (hbody p).trans ?_
        rw [if_neg, (hs.fresh p hp).1]
        rintro rfl
        have hunused := (hs.fresh _ hp).1
        rw [hs.cell c hc] at hunused
        cases hunused }

/-! ## The tower -/

/-- `trace` holds, from level `i` on, the nodes where a search for an absent key left each level. -/
def Traced (cmpLess : K → K → Prop) [DecidableRel cmpLess] (s : SkipList K V)
    (level : ℕ → Level K) (key : K) (trace : List (Option IndexPtr)) (i : ℕ) : Prop :=
  ∀ j < trace.length, ∃ x, (trace)[j]? = some (some x) ∧
    Arrived cmpLess key (s.headIdx (i + j)) (level (i + j)) x ∧
    SortedMap.find cmpLess key (level (i + j)) = none

/-- `raiseTower` adds the new key to some of the levels, and to level 0 if it starts there. -/
theorem Shaped.raiseTower_ok (rand : ℕ → ℕ) {trace : List (Option IndexPtr)} {target : NodePtr}
    (hs : Shaped cmpLess s cells level) (hheight : i + trace.length = s.maxHeight)
    (htrace : Traced cmpLess s level key trace i) (hcell : ∃ c ∈ cells, c.1 = key ∧ c.2.1 = d)
    (hlower : Lower level i d target) :
    ∃ heap draws level', SkipList.raiseTower rand d i trace target s = .ok { s with heap, draws } ∧
      Shaped cmpLess { s with heap, draws } cells level' ∧
      (∀ j, ∀ r ∈ level j, r ∈ level' j) ∧
      (i = 0 → trace ≠ [] → ∃ r ∈ level' 0, r.2.2 = d) := by
  induction trace generalizing s i level target with
  | nil => exact ⟨s.heap, s.draws, level, rfl, hs, fun _ _ hr ↦ hr, fun _ h ↦ absurd rfl h⟩
  | cons prev trace ih =>
      rw [SkipList.raiseTower]
      split
      · rename_i hstop
        exact ⟨s.heap, s.draws + 1, level, rfl,
          ⟨hs.positive, hs.sortedCells, hs.sortedLevel, hs.linkedCells, hs.linkedLevel,
            hs.head, hs.tail,
            hs.cell, hs.tailIdx, hs.headIdx, hs.rung, hs.rooted, hs.dataNodes,
            hs.indexNodes, hs.fresh⟩,
          fun _ _ hr ↦ hr, fun hzero ↦ absurd hzero hstop.1⟩
      · rw [List.length_cons] at hheight
        have hi : i < s.maxHeight := by omega
        obtain ⟨x, hprev, harrived, hnone⟩ := htrace 0 (Nat.succ_pos _)
        obtain rfl : prev = some x := by simpa using hprev
        obtain ⟨b, hb⟩ := Option.ne_none_iff_exists'.mp (hs.indexBody_ne_none hi harrived.mem_row)
        obtain ⟨after, hafter⟩ := (hs.linkedLevel i hi).exists_next harrived.mem_row
        have hunused : s.heap.indexBody s.heap.fresh = none := (hs.fresh _ le_rfl).2
        obtain ⟨heap, hlink, hdata, hfresh, hsplice⟩ :=
          Heap.linkIndex_ok hb hafter hunused target d
        have hdrawn : (if i ≠ 0 then { s with draws := s.draws + 1 } else s) =
            { s with draws := if i ≠ 0 then s.draws + 1 else s.draws } := by split <;> rfl
        have hrung := hs.insertRung (n := if i ≠ 0 then s.draws + 1 else s.draws) hi harrived hnone
          hcell hlower hdata hfresh hsplice
        have hnew : (key, s.heap.fresh, d) ∈ Function.update level i
            (SortedMap.insert cmpLess key (s.heap.fresh, d) (level i)) i :=
          (hs.mem_update_insert hi hnone).mpr (Or.inl ⟨rfl, rfl⟩)
        have hgrown : ∀ j, ∀ r ∈ level j, r ∈ Function.update level i
            (SortedMap.insert cmpLess key (s.heap.fresh, d) (level i)) j :=
          fun j r hr ↦ (hs.mem_update_insert hi hnone).mpr (Or.inr hr)
        have htrace' : Traced cmpLess
            { s with heap, draws := if i ≠ 0 then s.draws + 1 else s.draws }
              (Function.update level i
              (SortedMap.insert cmpLess key (s.heap.fresh, d) (level i))) key trace (i + 1) := by
          intro j hj
          obtain ⟨y, hy, hspec⟩ := htrace (j + 1) (Nat.succ_lt_succ hj)
          refine ⟨y, by simpa using hy, ?_⟩
          have hlevel : i + 1 + j = i + (j + 1) := by omega
          rw [hlevel, Function.update_of_ne (by omega)]
          exact hspec
        obtain ⟨heap', draws', level', hraise, hs', hsub, -⟩ := ih hrung
          (by show i + 1 + trace.length = s.maxHeight; omega) htrace' ⟨_, hnew, rfl, rfl⟩
        refine ⟨heap', draws', level', ?_, hs', fun j r hr ↦ hsub j r (hgrown j r hr), ?_⟩
        · simp only [hdrawn, hlink, ok_bind]
          exact hraise
        · rintro rfl -
          exact ⟨_, hsub 0 _ hnew, rfl⟩

/-- Where a search left level 0 tells where it is among the data nodes. -/
theorem Shaped.arrived_cells (hs : Shaped cmpLess s cells level) (hcomplete : Complete cells level)
    (harrived : Arrived cmpLess key (s.headIdx 0) (level 0) x) :
    ∃ b root, s.heap.indexBody x = some (b, some root) ∧
    Arrived cmpLess key s.pHead cells root := by
  -- the keys of the data nodes are those of level 0
  have hkeys : ∀ c ∈ cells, ∃ r ∈ level 0, r.1 = c.1 := by
    intro c hc
    obtain ⟨r, hr, hkey, -⟩ := hs.find_level_zero hcomplete (hs.sortedCells.mem_iff_find.mp hc)
    exact ⟨r, (SortedMap.mem_of_find_eq_some hr).1, hkey⟩
  rcases harrived.head_or_last (hs.sortedLevel 0 hs.positive) with
    ⟨rfl, hnone⟩ | ⟨r, hr, rfl, hlt, hmax⟩
  · refine ⟨_, _, hs.headIdx 0 hs.positive, arrived_head fun c hc ↦ ?_⟩
    obtain ⟨r, hr, hkey⟩ := hkeys c hc
    exact hkey ▸ hnone r hr
  · obtain ⟨target, hbody, -⟩ := hs.rung 0 hs.positive r hr
    obtain ⟨v, hcell, -⟩ := hs.rootBody hs.positive hr
    refine ⟨_, _, hbody, arrived_last hs.sortedCells hcell hlt fun c hc ↦ ?_⟩
    obtain ⟨q, hq, hkey⟩ := hkeys c hc
    exact hkey ▸ hmax q hq

/-- `insert_pair` below its last level: the new key is in the list. -/
theorem Shaped.splice_ok (rand : ℕ → ℕ) {trace : List (Option IndexPtr)}
    (hs : Shaped cmpLess s cells level) (hcomplete : Complete cells level)
    (hheight : trace.length = s.maxHeight)
    (htrace : Traced cmpLess s level key trace 0) (value : V) :
    ∃ s' level', s.splice rand key value trace = .ok s' ∧
      Shaped cmpLess s' (SortedMap.insert cmpLess key (s.heap.fresh, value) cells) level' ∧
      Complete (SortedMap.insert cmpLess key (s.heap.fresh, value) cells) level' := by
  have hpositive := hs.positive
  obtain ⟨x, hx, harrived, hlevel⟩ := htrace 0 (by omega)
  have hnone := hs.find_cells_eq_none hcomplete hlevel
  obtain ⟨b, root, hbody, hcells⟩ := hs.arrived_cells hcomplete harrived
  have hmem : root ∈ s.pHead :: (nodes cells ++ [s.pTail]) := by
    rw [← List.cons_append]
    exact List.mem_append_left _ hcells.mem_row
  obtain ⟨rootBody, hroot⟩ := Option.ne_none_iff_exists'.mp (hs.dataBody_ne_none hmem)
  obtain ⟨after, hafter⟩ := hs.linkedCells.exists_next hcells.mem_row
  obtain ⟨heap, hlink, hindex, hfresh, hsplice⟩ :=
    Heap.linkData_ok hroot hafter (hs.fresh _ le_rfl).1 key value
  have hs₁ := hs.insertCell hcells hnone hindex hfresh hsplice
  have hnew := (hs.sortedCells.mem_insert_iff hnone (v := (s.heap.fresh, value))).mpr (Or.inl rfl)
  obtain ⟨heap', draws, level', hraise, hs', hsub, hzero⟩ := hs₁.raiseTower_ok rand
    (by show 0 + trace.length = s.maxHeight; omega) htrace ⟨_, hnew, rfl, rfl⟩ rfl
  refine ⟨_, level', ?_, hs', fun c hc ↦ ?_⟩
  · have hfirst : trace.getD 0 none = some x := by
      rw [List.getD_eq_getElem?_getD, hx, Option.getD_some]
    simp only [SkipList.splice, hfirst, Heap.root_ok hbody, hlink, ok_bind]
    exact hraise
  · rw [hs.sortedCells.mem_insert_iff hnone] at hc
    rcases hc with rfl | hc
    · exact hzero rfl (by rintro rfl; simp at hheight; omega)
    · obtain ⟨r, hr, hroot⟩ := hcomplete c hc
      exact ⟨r, hsub 0 r hr, hroot⟩

/-! ## `insert_pair` -/

def putCells (cmpLess : K → K → Prop) [DecidableRel cmpLess] (fresh : DataPtr) (key : K) (value : V)
    (substitute : Bool) (cells : Cells K V) : Cells K V :=
  match SortedMap.find cmpLess key cells with
  | none => SortedMap.insert cmpLess key (fresh, value) cells
  | some c => if substitute then SortedMap.insert cmpLess key (c.2.1, value) cells else cells

theorem Shaped.insertLoop_ok (rand : ℕ → ℕ) {ix : IndexPtr} {todo fuel : ℕ}
    {trace : List (Option IndexPtr)} (substitute : Bool) (hs : Shaped cmpLess s cells level)
    (hcomplete : Complete cells level) (hc : Cursor cmpLess s level key i ix todo)
    (hlength : trace.length = s.maxHeight)
    (htrace : ∀ j, i < j → j < s.maxHeight → ∃ x, (trace)[j]? = some (some x) ∧
      Arrived cmpLess key (s.headIdx j) (level j) x)
    (hfuel : i * (s.heap.fresh + 1) + todo + 2 ≤ fuel) :
    ∃ s' level', s.insertLoop cmpLess rand key value substitute fuel i trace (some ix) =
        .ok ((SortedMap.find cmpLess key cells).map fun c ↦ c.2.2, s') ∧
      Shaped cmpLess s' (putCells cmpLess s.heap.fresh key value substitute cells) level' ∧
      Complete (putCells cmpLess s.heap.fresh key value substitute cells) level' := by
  induction fuel generalizing i ix todo trace with
  | zero => omega
  | succ fuel ih =>
      obtain ⟨nxt, turn, hnext, hturn, hspec⟩ := hc.turn hs
      have hix : some ix ≠ some s.pTailIdx := fun heq ↦ hc.ne_tailIdx hs (Option.some.inj heq)
      rw [SkipList.insertLoop, if_neg hix, hnext, ok_bind, hturn, ok_bind]
      cases turn with
      | descent =>
          obtain ⟨harrived, hnone⟩ := hspec
          have hi := hc.level_lt
          have hwrite : SkipList.writeTrace trace i (some ix) = .ok (trace.set i (some ix)) := by
            rw [SkipList.writeTrace, if_pos (by omega)]
            rfl
          have htrace' : ∀ j, i ≤ j → j < s.maxHeight →
              ∃ x, (trace.set i (some ix))[j]? = some (some x) ∧
              Arrived cmpLess key (s.headIdx j) (level j) x := by
            intro j hij hj
            rcases Nat.lt_or_eq_of_le hij with hlt | rfl
            · rw [List.getElem?_set_ne (by omega)]
              exact htrace j hlt hj
            · refine ⟨ix, ?_, harrived⟩
              rw [List.getElem?_set_self (by omega)]
          cases i with
          | zero =>
              have hdown : s.heap.down (some ix) = .ok none := hc.down hs
              have hfind := hs.find_cells_eq_none hcomplete hnone
              have htraced : Traced cmpLess s level key (trace.set 0 (some ix)) 0 := by
                intro j hj
                rw [List.length_set, hlength] at hj
                obtain ⟨x, hx, hxarrived⟩ := htrace' j (Nat.zero_le j) hj
                refine ⟨x, hx, ?_⟩
                rw [Nat.zero_add]
                refine ⟨hxarrived, ?_⟩
                rcases Nat.eq_zero_or_pos j with rfl | hpos
                · exact hnone
                · exact hc.above j hpos hj
              obtain ⟨s', level', hsplice, hs', hcomplete'⟩ := hs.splice_ok rand hcomplete
                ((List.length_set ..).trans hlength) htraced value
              refine ⟨s', level', ?_, ?_⟩
              · simp only [hwrite, hdown, ok_bind, hsplice, hfind]
                rfl
              · simp only [putCells, hfind]
                exact ⟨hs', hcomplete'⟩
          | succ j =>
              obtain ⟨below, todo', hdown, hbelow, htodo⟩ := hc.descend hs hnone
              have hlevel : ((j + 1 : ℕ) : ℤ) - 1 = (j : ℕ) := by omega
              have hnotlast : ¬((j : ℕ) : ℤ) = -1 := by omega
              simp only [hwrite, hdown, ok_bind, hlevel, if_neg hnotlast]
              refine ih hbelow ((List.length_set ..).trans hlength) (fun l hl ↦ htrace' l hl) ?_
              rw [Nat.succ_mul] at hfuel
              omega
      | right =>
          obtain ⟨rest, rfl, hright⟩ := hspec
          exact ih hright hlength htrace (by omega)
      | found =>
          obtain ⟨r, hr, rfl⟩ := hspec
          have hi := hc.level_lt
          obtain ⟨v, hfind, hroot⟩ := hs.find_cells_of_level hi hr
          obtain ⟨target, hbody, -⟩ := hs.rung i hi r (SortedMap.mem_of_find_eq_some hr).1
          simp only [putCells, hfind]
          cases substitute with
          | false =>
              refine ⟨s, level, ?_, hs, hcomplete⟩
              simp only [Heap.value_ok hbody hroot, ok_bind]
              rfl
          | true =>
              obtain ⟨heap, hset, hindex, hfresh, hlink, hbody'⟩ :=
                Heap.setDataValue_ok (w := value) hroot
              have hs' := hs.replaceValue hfind hindex hfresh hlink hbody'
              refine ⟨{ s with heap }, level, ?_, hs', fun c hc ↦ ?_⟩
              · simp only [Heap.setValue_eq hbody, hset, ok_bind]
                rfl
              · rw [if_pos rfl, hs.sortedCells.mem_insert_iff_of_some hfind] at hc
                rcases hc with rfl | ⟨hc, -⟩
                · exact hcomplete (r.1, r.2.2, v) (SortedMap.mem_of_find_eq_some hfind).1
                · exact hcomplete c hc

/-- `insert_pair` returns the value stored under the key, and stores the new one if there is none or
`substitute` is set. -/
theorem Shaped.insertPair_ok (rand : ℕ → ℕ) (hs : Shaped cmpLess s cells level)
    (hcomplete : Complete cells level) (key : K) (value : V) (substitute : Bool) :
    ∃ s' level', s.insertPair cmpLess rand key value substitute =
        .ok ((SortedMap.find cmpLess key cells).map fun c ↦ c.2.2, s') ∧
      Shaped cmpLess s' (putCells cmpLess s.heap.fresh key value substitute cells) level' ∧
      Complete (putCells cmpLess s.heap.fresh key value substitute cells) level' := by
  obtain ⟨ix, htop, hc⟩ := hs.start key
  have hpositive := hs.positive
  have hlast : (s.maxHeight : ℤ) - 1 = ((s.maxHeight - 1 : ℕ) : ℤ) := by omega
  rw [SkipList.insertPair, htop, hlast]
  exact hs.insertLoop_ok rand substitute hcomplete hc (List.length_replicate ..)
    (fun j hj hjlt ↦ by omega) hs.fuel_le_steps

end CppMtHw.Skiplist
