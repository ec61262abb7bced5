import CppMtHw.Skiplist.Refinement

/-!
# Iterators outlive changes of the list

An iterator holds the address of a data node. No call moves a node: a new value is stored
in the node that is there, and only `Delete` of its key takes a node out. So an iterator on
a key that is not deleted still stands on that key, and goes on through the keys behind it
that the list holds by then.
-/

namespace CppMtHw.Skiplist

open Machine

variable {K V : Type} {cmpLess : K → K → Prop} [DecidableRel cmpLess] [IsStrictWeakOrder K cmpLess]
  {s : SkipList K V} {cells : Cells K V} {level : ℕ → Level K} {m : Assoc K V} {key : K}
  {it : DataPtr} {v : V}

/-- The list is in order, holds the entries of the association, and `it` is the node of `key`. -/
def StandsOn (cmpLess : K → K → Prop) [DecidableRel cmpLess] (s : SkipList K V) (m : Assoc K V)
    (key : K) (it : DataPtr) : Prop :=
  ∃ cells level v, Shaped cmpLess s cells level ∧ Complete cells level ∧
    (∀ j, m j = (SortedMap.find cmpLess j cells).map fun c ↦ (c.1, c.2.2)) ∧ (key, it, v) ∈ cells

/-- No call but `Delete` of a key takes its node away. -/
theorem mem_callCells (hsorted : SortedMap.Sorted cmpLess cells) (hmem : (key, it, v) ∈ cells)
    (fresh : DataPtr) {c : Call K V} (hkept : ∀ j, c = .delete j → ¬SortedMap.Same cmpLess key j) :
    ∃ w, (key, it, w) ∈ callCells cmpLess fresh cells c := by
  have hput (j : K) (value : V) (substitute : Bool) :
      ∃ w, (key, it, w) ∈ putCells cmpLess fresh j value substitute cells := by
    rw [putCells]
    cases hfind : SortedMap.find cmpLess j cells with
    | none => exact ⟨v, (hsorted.mem_insert_iff hfind).mpr (Or.inr hmem)⟩
    | some c =>
        cases substitute with
        | false => exact ⟨v, hmem⟩
        | true =>
            simp only [if_true]
            by_cases hsame : SortedMap.Same cmpLess key j
            · -- the node gets the new value
              have hcell := hsorted.find_eq_some_iff.mpr ⟨hmem, hsame⟩
              obtain rfl := Option.some.inj (hcell.symm.trans hfind)
              exact ⟨value, (hsorted.mem_insert_iff_of_some hfind).mpr (Or.inl rfl)⟩
            · exact ⟨v, (hsorted.mem_insert_iff_of_some hfind).mpr (Or.inr ⟨hmem, hsame⟩)⟩
  cases c with
  | put j value => exact hput j value true
  | putIfAbsent j value => exact hput j value false
  | get j => exact ⟨v, hmem⟩
  | delete j => exact ⟨v, hsorted.mem_erase_iff.mpr ⟨hmem, hkept j rfl⟩⟩

theorem StandsOn.call (rand : ℕ → ℕ) (h : StandsOn cmpLess s m key it) {c : Call K V}
    (hkept : ∀ j, c = .delete j → ¬SortedMap.Same cmpLess key j) :
    ∃ s', s.call cmpLess rand c = .ok ((m.call cmpLess c).1, s') ∧
      StandsOn cmpLess s' (m.call cmpLess c).2 key it := by
  obtain ⟨cells, level, v, hs, hcomplete, hm, hmem⟩ := h
  obtain ⟨s', level', hcall, hs', hcomplete'⟩ := hs.call_ok rand hcomplete c
  obtain ⟨hresult, hassoc⟩ := Assoc.call_of_find hs.sortedCells hm s.heap.fresh c
  obtain ⟨w, hmem'⟩ := mem_callCells hs.sortedCells hmem s.heap.fresh hkept
  exact ⟨s', by rw [hresult, hcall], _, level', w, hs', hcomplete', hassoc, hmem'⟩

theorem StandsOn.calls (rand : ℕ → ℕ) (h : StandsOn cmpLess s m key it) {cs : List (Call K V)}
    (hkept : ∀ j, .delete j ∈ cs → ¬SortedMap.Same cmpLess key j) :
    ∃ s', s.calls cmpLess rand cs = .ok ((m.calls cmpLess cs).1, s') ∧
      StandsOn cmpLess s' (m.calls cmpLess cs).2 key it := by
  induction cs generalizing s m with
  | nil => exact ⟨s, rfl, h⟩
  | cons c cs ih =>
      obtain ⟨t, hcall, ht⟩ := h.call rand fun j hj ↦ hkept j (hj ▸ List.mem_cons_self)
      obtain ⟨u, hcalls, hu⟩ := ih ht fun j hj ↦ hkept j (List.mem_cons_of_mem c hj)
      refine ⟨u, ?_, hu⟩
      rw [SkipList.calls, hcall, ok_bind]
      simp only [hcalls, ok_bind]
      rfl

/-- What an iterator on a key reads: the key with the value stored under it, and then the entries
with greater keys. -/
theorem StandsOn.reads (h : StandsOn cmpLess s m key it) :
    ∃ v entries, s.heap.dataKey (some it) = .ok key ∧ s.heap.dataValue (some it) = .ok v ∧
      m key = some (key, v) ∧ s.entries = .ok entries ∧
      entries.Pairwise (fun p q ↦ cmpLess p.1 q.1) ∧ (∀ p, p ∈ entries ↔ m p.1 = some p) ∧
      s.iterate s.steps it = .ok ((key, v) :: entries.filter fun p ↦ cmpLess key p.1) := by
  obtain ⟨cells, level, v, hs, hcomplete, hm, hmem⟩ := h
  have hrepresents : Represents cmpLess s m := ⟨cells, level, hs, hcomplete, hm⟩
  obtain ⟨entries, hentries, hsorted, hspec⟩ := hrepresents.entries
  obtain rfl := Except.ok.inj (hs.entries_ok.symm.trans hentries)
  have hbody := hs.cell _ hmem
  have hfind : SortedMap.find cmpLess key cells = some (key, it, v) :=
    hs.sortedCells.mem_iff_find.mp hmem
  obtain ⟨front, back, rfl⟩ := List.append_of_mem hmem
  have hlength := hs.length_lt_steps
  rw [List.length_append] at hlength
  have hread := hs.iterate_ok front ((key, it, v) :: back) rfl rfl (by omega : _ < s.steps)
  have hcells := List.pairwise_append.mp hs.sortedCells
  have hfront : ∀ c ∈ front, ¬cmpLess key c.1 := fun c hc ↦
    SortedMap.not_lt_of_lt (hcells.2.2 c hc _ List.mem_cons_self)
  have hback : ∀ c ∈ back, cmpLess key c.1 := (List.pairwise_cons.mp hcells.2.1).1
  refine ⟨v, _, Heap.dataKey_ok hbody, Heap.dataValue_ok hbody, ?_, hentries, hsorted, hspec, ?_⟩
  · rw [hm, hfind]
    rfl
  · have hgone : front.filter (fun c ↦ decide (cmpLess key c.1)) = [] := by
      rw [List.filter_eq_nil_iff]
      intro c hc
      simpa using hfront c hc
    have hstay : back.filter (fun c ↦ decide (cmpLess key c.1)) = back := by
      rw [List.filter_eq_self]
      intro c hc
      simpa using hback c hc
    have hself : ((key, it, v) :: back).filter (fun c ↦ decide (cmpLess key c.1)) =
        back.filter fun c ↦ decide (cmpLess key c.1) :=
      List.filter_cons_of_neg (by simpa using (SortedMap.same_refl key).1)
    have hrest : (front ++ (key, it, v) :: back).filter
        (fun c ↦ decide (cmpLess key c.1)) = back := by
      rw [List.filter_append, hgone, List.nil_append, hself, hstay]
    rw [hread, List.filter_map]
    exact congrArg (fun l ↦ Except.ok ((key, v) :: l.map fun c ↦ (c.1, c.2.2))) hrest.symm

theorem StandsOn.get_eq (h : StandsOn cmpLess s m key it) :
    s.get cmpLess key = .ok ((m key).map Prod.snd) := by
  obtain ⟨cells, level, v, hs, hcomplete, hm, -⟩ := h
  rw [hs.get_eq hcomplete, hm, Option.map_map]
  rfl

omit [IsStrictWeakOrder K cmpLess] in
/-- An iterator that can read a key stands on the node of that key. -/
theorem Represents.standsOn (h : Represents cmpLess s m)
    (hkey : s.heap.dataKey (some it) = .ok key) : StandsOn cmpLess s m key it := by
  obtain ⟨cells, level, hs, hcomplete, hm⟩ := h
  obtain ⟨node, hnode, hpayload⟩ := ok_of_bind hkey
  have hdata : s.heap.data it = some node := by
    rw [deref] at hnode
    split at hnode
    · cases hnode
    · rename_i object hobject
      rw [hobject, Except.ok.inj hnode]
  have hbody : s.heap.dataBody it = some (some key, node.pValue) := by
    rw [Heap.dataBody, hdata, Option.map_some]
    cases hpkey : node.pKey with
    | none =>
        rw [hpkey] at hpayload
        cases hpayload
    | some k =>
        rw [hpkey] at hpayload
        rw [Except.ok.inj hpayload]
  have hrow := hs.dataNodes it (by rw [hbody]; exact Option.some_ne_none _)
  have hsentinel : ∀ p, s.heap.dataBody p = some (none, none) → it ≠ p := by
    rintro p hp rfl
    rw [hbody] at hp
    cases hp
  rcases List.mem_cons.mp hrow with rfl | hrow
  · exact absurd rfl (hsentinel _ hs.head)
  rcases List.mem_append.mp hrow with hrow | hrow
  · obtain ⟨c, hc, rfl⟩ := mem_nodes.mp hrow
    have hcell := hs.cell c hc
    rw [hbody] at hcell
    have hkeys := (Prod.mk.inj (Option.some.inj hcell)).1
    rw [Option.some.inj hkeys]
    exact ⟨cells, level, c.2.2, hs, hcomplete, hm, hc⟩
  · exact absurd (List.mem_singleton.mp hrow) (hsentinel _ hs.tail)

/-- An iterator on a key that later calls do not delete still stands on that key, with the value
stored under it by then, and goes on through exactly the greater keys of the list, in increasing
order, to `cend()`. -/
theorem iterator_stable (rand : ℕ → ℕ) {maxHeight : ℕ} (hpositive : 0 < maxHeight)
    (before : List (Call K V)) :
    ∃ s₀ s₁, create maxHeight = .ok s₀ ∧
      s₀.calls cmpLess rand before = .ok ((Assoc.empty.calls cmpLess before).1, s₁) ∧
      ∀ it key, s₁.heap.dataKey (some it) = .ok key → ∀ after : List (Call K V),
        (∀ j, .delete j ∈ after → ¬SortedMap.Same cmpLess key j) →
        ∃ results s₂ v entries, s₁.calls cmpLess rand after = .ok (results, s₂) ∧
          s₂.heap.dataKey (some it) = .ok key ∧ s₂.heap.dataValue (some it) = .ok v ∧
          s₂.get cmpLess key = .ok (some v) ∧ s₂.entries = .ok entries ∧
          entries.Pairwise (fun p q ↦ cmpLess p.1 q.1) ∧
          (∀ p, p ∈ entries ↔
            ((Assoc.empty.calls cmpLess before).2.calls cmpLess after).2 p.1 = some p) ∧
          s₂.iterate s₂.steps it = .ok ((key, v) :: entries.filter fun p ↦ cmpLess key p.1) := by
  obtain ⟨s₀, hcreate, hs₀⟩ : ∃ s : SkipList K V, create maxHeight = .ok s ∧
      Represents cmpLess s Assoc.empty := create_represents hpositive
  obtain ⟨s₁, hbefore, hs₁⟩ := hs₀.calls rand before
  refine ⟨s₀, s₁, hcreate, hbefore, ?_⟩
  intro it key hkey after hkept
  obtain ⟨s₂, hafter, hs₂⟩ := (hs₁.standsOn hkey).calls rand hkept
  obtain ⟨v, entries, hkey₂, hvalue₂, hstored, hentries, hsorted, hspec, hread⟩ := hs₂.reads
  have hget := hs₂.get_eq
  rw [hstored] at hget
  exact ⟨_, s₂, v, entries, hafter, hkey₂, hvalue₂, hget, hentries, hsorted, hspec, hread⟩

/-- An iterator on 5, whose neighbours are deleted and whose value is replaced. -/
theorem iterator_stable_five : 0 < 2 ∧ ∃ s₀ s₁ : SkipList ℕ ℕ, create 2 = .ok s₀ ∧
    (∃ results, s₀.calls (· < ·) (fun n ↦ n) [.put 5 50, .put 3 30, .put 9 90] =
      .ok (results, s₁)) ∧
    ∃ it results s₂ v, s₁.heap.dataKey (some it) = .ok 5 ∧
      s₁.calls (· < ·) (fun n ↦ n) [.delete 3, .put 5 51, .delete 9, .put 7 70] =
        .ok (results, s₂) ∧
      s₂.heap.dataKey (some it) = .ok 5 ∧ s₂.get (· < ·) 5 = .ok (some v) := by
  have hfound : (do
      let s₀ : SkipList ℕ ℕ ← create 2
      let (_, s₁) ← s₀.calls (· < ·) (fun n ↦ n) [.put 5 50, .put 3 30, .put 9 90]
      let it ← s₁.cfind (· < ·) 5
      s₁.heap.dataKey (some it)) = Except.ok 5 := by
    decide +kernel
  have hpositive : 0 < 2 := by decide
  obtain ⟨s₀, s₁, hcreate, hbefore, hstable⟩ :=
    @iterator_stable ℕ ℕ (· < ·) _ _ (fun n ↦ n) 2 hpositive [.put 5 50, .put 3 30, .put 9 90]
  rw [hcreate, ok_bind, hbefore, ok_bind] at hfound
  obtain ⟨it, -, hkey⟩ := ok_of_bind hfound
  obtain ⟨results, s₂, v, entries, hafter, hkey₂, -, hget, -⟩ := hstable it 5 hkey
    [.delete 3, .put 5 51, .delete 9, .put 7 70] (by simp [SortedMap.Same])
  exact ⟨hpositive, s₀, s₁, hcreate, ⟨_, hbefore⟩, it, results, s₂, v, hkey, hafter, hkey₂, hget⟩

end CppMtHw.Skiplist
