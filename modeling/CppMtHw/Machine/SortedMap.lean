import Mathlib.Data.List.Pairwise
import Mathlib.Order.Defs.Unbundled
import Mathlib.Order.Lattice
import Mathlib.Order.RelClasses

/-!
# Ordered maps under a strict weak order

An ordered map as the list of its entries in increasing order of keys, searched from
the front. Keys that the order does not separate are the same key: an insertion under
such a key replaces the value and keeps the stored key.
-/

namespace CppMtHw.Machine.SortedMap

variable {K V : Type*}

/-! ## The order of the keys -/

/-- The order does not separate the keys. -/
def Same (lt : K → K → Prop) (j k : K) : Prop := ¬lt j k ∧ ¬lt k j

instance (lt : K → K → Prop) [DecidableRel lt] : DecidableRel (Same lt) :=
  fun _ _ ↦ inferInstanceAs (Decidable (_ ∧ _))

section Order

variable {lt : K → K → Prop} {i j k : K}

theorem Same.symm (h : Same lt j k) : Same lt k j := ⟨h.2, h.1⟩

variable [IsStrictWeakOrder K lt]

theorem not_lt_of_lt (h : lt j k) : ¬lt k j := fun hkj ↦
  Std.Irrefl.irrefl (r := lt) j (IsTrans.trans j k j h hkj)

theorem same_refl (k : K) : Same lt k k := ⟨Std.Irrefl.irrefl k, Std.Irrefl.irrefl k⟩

theorem Same.trans (hij : Same lt i j) (hjk : Same lt j k) : Same lt i k :=
  IsStrictWeakOrder.incomp_trans i j k hij hjk

theorem lt_of_same_of_lt (hsame : Same lt i j) (hlt : lt j k) : lt i k := by
  by_contra hik
  by_cases hki : lt k i
  · exact hsame.2 (IsTrans.trans j k i hlt hki)
  · exact (hsame.symm.trans ⟨hik, hki⟩).1 hlt

theorem lt_of_lt_of_same (hlt : lt i j) (hsame : Same lt j k) : lt i k := by
  by_contra hik
  by_cases hki : lt k i
  · exact hsame.2 (IsTrans.trans k i j hki hlt)
  · exact (Same.trans ⟨hik, hki⟩ hsame.symm).1 hlt

instance isStrictWeakOrder_lt {K : Type*} [LinearOrder K] : IsStrictWeakOrder K (· < ·) :=
  isStrictWeakOrder_of_isOrderConnected

/-- In a linear order every key is a class of its own. -/
theorem same_iff_eq {K : Type*} [LinearOrder K] {j k : K} : Same (· < ·) j k ↔ j = k := by
  rw [Same, not_lt, not_lt, and_comm, le_antisymm_iff]

end Order

/-! ## The operations -/

variable (lt : K → K → Prop) [DecidableRel lt]

def find (k : K) : List (K × V) → Option (K × V)
  | [] => none
  | p :: ps => if lt p.1 k then find k ps else if lt k p.1 then none else some p

def insert (k : K) (v : V) : List (K × V) → List (K × V)
  | [] => [(k, v)]
  | p :: ps =>
      if lt p.1 k then p :: insert k v ps
      else if lt k p.1 then (k, v) :: p :: ps
      else (p.1, v) :: ps

def erase (k : K) : List (K × V) → List (K × V)
  | [] => []
  | p :: ps => if lt p.1 k then p :: erase k ps else if lt k p.1 then p :: ps else ps

def Sorted (lt : K → K → Prop) (m : List (K × V)) : Prop := m.Pairwise fun p q ↦ lt p.1 q.1

variable {lt} {m : List (K × V)} {p : K × V} {j k : K} {v : V}

theorem mem_of_find_eq_some (h : find lt k m = some p) : p ∈ m ∧ Same lt p.1 k := by
  induction m with
  | nil => cases h
  | cons q qs ih =>
      simp only [find] at h
      split at h
      · have hq := ih h
        exact ⟨List.mem_cons_of_mem q hq.1, hq.2⟩
      · rename_i hlt
        split at h
        · cases h
        · rename_i hgt
          cases h
          exact ⟨List.mem_cons_self, hlt, hgt⟩

theorem erase_sublist : (erase lt k m).Sublist m := by
  induction m with
  | nil => exact List.Sublist.refl _
  | cons q qs ih =>
      simp only [erase]
      split
      · exact ih.cons_cons q
      · split
        · exact List.Sublist.refl _
        · exact List.sublist_cons_self q qs

theorem sorted_erase (h : Sorted lt m) : Sorted lt (erase lt k m) :=
  List.Pairwise.sublist erase_sublist h

/-! ## The place of a key

The entries whose keys are below `k` form an initial segment, and each operation acts on
what follows it. -/

section Place

variable {front back : List (K × V)}

theorem find_append (h : ∀ p ∈ front, lt p.1 k) : find lt k (front ++ back) = find lt k back := by
  induction front with
  | nil => rfl
  | cons q qs ih =>
      rw [List.cons_append, find, if_pos (h q List.mem_cons_self)]
      exact ih fun p hp ↦ h p (List.mem_cons_of_mem q hp)

theorem insert_append (h : ∀ p ∈ front, lt p.1 k) :
    insert lt k v (front ++ back) = front ++ insert lt k v back := by
  induction front with
  | nil => rfl
  | cons q qs ih =>
      rw [List.cons_append, insert, if_pos (h q List.mem_cons_self), List.cons_append,
        ih fun p hp ↦ h p (List.mem_cons_of_mem q hp)]

theorem erase_append (h : ∀ p ∈ front, lt p.1 k) :
    erase lt k (front ++ back) = front ++ erase lt k back := by
  induction front with
  | nil => rfl
  | cons q qs ih =>
      rw [List.cons_append, erase, if_pos (h q List.mem_cons_self), List.cons_append,
        ih fun p hp ↦ h p (List.mem_cons_of_mem q hp)]

/-- What follows the place of `k` are the entries whose keys are not below it. -/
theorem filter_place (hfront : ∀ p ∈ front, lt p.1 k) (hback : ∀ p ∈ back, ¬lt p.1 k) :
    (front ++ back).filter (fun p ↦ ¬lt p.1 k) = back := by
  have hnone : front.filter (fun p ↦ ¬lt p.1 k) = [] := by
    rw [List.filter_eq_nil_iff]
    intro p hp
    simpa using hfront p hp
  have hall : back.filter (fun p ↦ ¬lt p.1 k) = back := by
    rw [List.filter_eq_self]
    intro p hp
    simpa using hback p hp
  rw [List.filter_append, hnone, hall, List.nil_append]

/-- Without an entry under `k` the entry behind the place of `k` is above it. -/
theorem cons_of_find_eq_none (hback : ∀ p ∈ back, ¬lt p.1 k) (h : find lt k back = none) :
    (∀ v, insert lt k v back = (k, v) :: back) ∧ erase lt k back = back := by
  cases back with
  | nil => exact ⟨fun _ ↦ rfl, rfl⟩
  | cons q qs =>
      have hq := hback q List.mem_cons_self
      rw [find, if_neg hq] at h
      have hkq : lt k q.1 := by
        by_contra hkq
        rw [if_neg hkq] at h
        cases h
      simp only [insert, erase, if_neg hq, if_pos hkq, implies_true, and_self]

/-- The entry under `k` is the one behind the place of `k`. -/
theorem cons_of_find_eq_some (hback : ∀ p ∈ back, ¬lt p.1 k) (h : find lt k back = some p) :
    ∃ rest, back = p :: rest ∧ (∀ v, insert lt k v back = (p.1, v) :: rest) ∧
      erase lt k back = rest := by
  cases back with
  | nil => cases h
  | cons q qs =>
      have hq := hback q List.mem_cons_self
      rw [find, if_neg hq] at h
      have hkq : ¬lt k q.1 := by
        intro hkq
        rw [if_pos hkq] at h
        cases h
      rw [if_neg hkq] at h
      cases h
      refine ⟨qs, rfl, ?_⟩
      simp only [insert, erase, if_neg hq, if_neg hkq, implies_true, and_self]

/-- Every map splits at the place of `k`. -/
theorem exists_place (lt : K → K → Prop) [DecidableRel lt] [IsStrictWeakOrder K lt] (k : K)
    {m : List (K × V)} (h : Sorted lt m) :
    ∃ front back, m = front ++ back ∧ (∀ p ∈ front, lt p.1 k) ∧ ∀ p ∈ back, ¬lt p.1 k := by
  induction m with
  | nil => exact ⟨[], [], rfl, by simp, by simp⟩
  | cons q qs ih =>
      obtain ⟨hq, hqs⟩ := List.pairwise_cons.mp h
      by_cases hqk : lt q.1 k
      · obtain ⟨front, back, rfl, hfront, hback⟩ := ih hqs
        refine ⟨q :: front, back, rfl, fun p hp ↦ ?_, hback⟩
        rcases List.mem_cons.mp hp with rfl | hp
        · exact hqk
        · exact hfront p hp
      · refine ⟨[], q :: qs, rfl, by simp, fun p hp hpk ↦ ?_⟩
        rcases List.mem_cons.mp hp with rfl | hp
        · exact hqk hpk
        · exact hqk (IsTrans.trans q.1 p.1 k (hq p hp) hpk)

end Place

/-! ## Changes to the values -/

section Map

variable {W : Type*} (f : K → V → W)

theorem find_map : find lt k (m.map fun p ↦ (p.1, f p.1 p.2)) =
    (find lt k m).map fun p ↦ (p.1, f p.1 p.2) := by
  induction m with
  | nil => rfl
  | cons q qs ih =>
      simp only [List.map_cons, find, ih]
      split
      · rfl
      · split <;> rfl

omit [DecidableRel lt] in
theorem sorted_map (h : Sorted lt m) : Sorted lt (m.map fun p ↦ (p.1, f p.1 p.2)) :=
  List.Pairwise.map _ (fun _ _ hlt ↦ hlt) h

end Map

variable [IsStrictWeakOrder K lt]

/-- In a sorted map, `find` finds the entries under a key and no others. -/
theorem Sorted.find_eq_some_iff (h : Sorted lt m) :
    find lt k m = some p ↔ p ∈ m ∧ Same lt p.1 k := by
  refine ⟨mem_of_find_eq_some, fun hp ↦ ?_⟩
  obtain ⟨hmem, hsame⟩ := hp
  induction m with
  | nil => cases hmem
  | cons q qs ih =>
      obtain ⟨hq, hqs⟩ := List.pairwise_cons.mp h
      rcases List.mem_cons.mp hmem with rfl | hmem
      · simp only [find, if_neg hsame.1, if_neg hsame.2]
      · have hlt : lt q.1 k := lt_of_lt_of_same (hq p hmem) hsame
        simp only [find, if_pos hlt]
        exact ih hqs hmem

theorem Sorted.mem_iff_find (h : Sorted lt m) : p ∈ m ↔ find lt p.1 m = some p := by
  rw [h.find_eq_some_iff]
  exact ⟨fun hmem ↦ ⟨hmem, same_refl p.1⟩, And.left⟩

/-- What a map holds after an insertion. -/
theorem find_insert : find lt j (insert lt k v m) =
    if Same lt j k then some (((find lt k m).map Prod.fst).getD k, v) else find lt j m := by
  induction m with
  | nil =>
      by_cases hkj : lt k j
      · simp [find, insert, Same, hkj]
      · by_cases hjk : lt j k <;> simp [find, insert, Same, hkj, hjk]
  | cons q qs ih =>
      by_cases hqk : lt q.1 k
      · -- the entry goes behind `q`
        simp only [insert, if_pos hqk, find]
        by_cases hqj : lt q.1 j
        · simp only [if_pos hqj, ih]
        · have hnot : ¬Same lt j k := by
            intro hsame
            exact hqj (lt_of_lt_of_same hqk hsame.symm)
          simp only [if_neg hqj, if_neg hnot]
      · by_cases hkq : lt k q.1
        · -- the entry goes in front of `q`
          simp only [insert, if_neg hqk, if_pos hkq, find]
          by_cases hkj : lt k j
          · have hnot : ¬Same lt j k := fun hsame ↦ hsame.2 hkj
            simp only [if_pos hkj, if_neg hnot]
          · by_cases hjk : lt j k
            · have hnot : ¬Same lt j k := fun hsame ↦ hsame.1 hjk
              have hjq : lt j q.1 := IsTrans.trans j k q.1 hjk hkq
              simp only [if_neg hkj, if_pos hjk, if_neg hnot, if_neg (not_lt_of_lt hjq), if_pos hjq]
            · have hsame : Same lt j k := ⟨hjk, hkj⟩
              simp only [if_neg hkj, if_neg hjk, if_pos hsame, Option.map_none, Option.getD_none]
        · -- the entry takes the place of `q`
          have hqk' : Same lt q.1 k := ⟨hqk, hkq⟩
          simp only [insert, if_neg hqk, if_neg hkq, find]
          by_cases hqj : lt q.1 j
          · have hnot : ¬Same lt j k := fun hsame ↦ (hqk'.trans hsame.symm).1 hqj
            simp only [if_pos hqj, if_neg hnot]
          · by_cases hjq : lt j q.1
            · have hnot : ¬Same lt j k := fun hsame ↦ (hsame.trans hqk'.symm).1 hjq
              simp only [if_neg hqj, if_pos hjq, if_neg hnot]
            · have hsame : Same lt j k := Same.trans ⟨hjq, hqj⟩ hqk'
              simp only [if_neg hqj, if_neg hjq, if_pos hsame, Option.map_some, Option.getD_some]

/-- What a map holds after a removal. -/
theorem Sorted.find_erase (h : Sorted lt m) :
    find lt j (erase lt k m) = if Same lt j k then none else find lt j m := by
  induction m with
  | nil => simp [find, erase]
  | cons q qs ih =>
      obtain ⟨hq, hqs⟩ := List.pairwise_cons.mp h
      by_cases hqk : lt q.1 k
      · simp only [erase, if_pos hqk, find, ih hqs]
        by_cases hqj : lt q.1 j
        · simp only [if_pos hqj]
        · have hnot : ¬Same lt j k := fun hsame ↦ hqj (lt_of_lt_of_same hqk hsame.symm)
          simp only [if_neg hqj, if_neg hnot]
      · by_cases hkq : lt k q.1
        · simp only [erase, if_neg hqk, if_pos hkq]
          split
          · rename_i hsame
            have hjq : lt j q.1 := lt_of_same_of_lt hsame hkq
            simp only [find, if_neg (not_lt_of_lt hjq), if_pos hjq]
          · rfl
        · have hqk' : Same lt q.1 k := ⟨hqk, hkq⟩
          simp only [erase, if_neg hqk, if_neg hkq]
          split
          · rename_i hsame
            rw [Option.eq_none_iff_forall_ne_some]
            intro r hr
            obtain ⟨hmem, hrj⟩ := mem_of_find_eq_some hr
            exact (hrj.trans (hsame.trans hqk'.symm)).2 (hq r hmem)
          · rename_i hnot
            simp only [find]
            by_cases hqj : lt q.1 j
            · rw [if_pos hqj]
            · have hjq : lt j q.1 := by
                by_contra hjq
                exact hnot (Same.trans ⟨hjq, hqj⟩ hqk')
              rw [if_neg hqj, if_pos hjq, Option.eq_none_iff_forall_ne_some]
              intro r hr
              obtain ⟨hmem, hrj⟩ := mem_of_find_eq_some hr
              exact hrj.2 (IsTrans.trans j q.1 r.1 hjq (hq r hmem))

theorem mem_insert (hmem : p ∈ insert lt k v m) : p ∈ m ∨ Same lt p.1 k := by
  induction m with
  | nil =>
      rw [insert, List.mem_singleton] at hmem
      rw [hmem]
      exact Or.inr (same_refl k)
  | cons q qs ih =>
      simp only [insert] at hmem
      split at hmem
      · rcases List.mem_cons.mp hmem with rfl | hmem
        · exact Or.inl List.mem_cons_self
        · exact (ih hmem).imp_left (List.mem_cons_of_mem q)
      · rename_i hqk
        split at hmem
        · rcases List.mem_cons.mp hmem with rfl | hmem
          · exact Or.inr (same_refl k)
          · exact Or.inl hmem
        · rename_i hkq
          rcases List.mem_cons.mp hmem with rfl | hmem
          · exact Or.inr ⟨hqk, hkq⟩
          · exact Or.inl (List.mem_cons_of_mem q hmem)

theorem sorted_insert (h : Sorted lt m) : Sorted lt (insert lt k v m) := by
  induction m with
  | nil => exact List.pairwise_singleton _ _
  | cons q qs ih =>
      obtain ⟨hq, hqs⟩ := List.pairwise_cons.mp h
      simp only [insert]
      split
      · rename_i hqk
        refine List.pairwise_cons.mpr ⟨fun r hr ↦ ?_, ih hqs⟩
        rcases mem_insert hr with hmem | hsame
        · exact hq r hmem
        · exact lt_of_lt_of_same hqk hsame.symm
      · rename_i hqk
        split
        · rename_i hkq
          refine List.pairwise_cons.mpr ⟨fun r hr ↦ ?_, h⟩
          rcases List.mem_cons.mp hr with rfl | hmem
          · exact hkq
          · exact IsTrans.trans k q.1 r.1 hkq (hq r hmem)
        · exact List.pairwise_cons.mpr ⟨hq, hqs⟩

/-- The entries after an insertion under a new key. -/
theorem Sorted.mem_insert_iff (h : Sorted lt m) (hnone : find lt k m = none) :
    p ∈ insert lt k v m ↔ p = (k, v) ∨ p ∈ m := by
  obtain ⟨front, back, rfl, hfront, hback⟩ := exists_place lt k h
  rw [find_append hfront] at hnone
  rw [insert_append hfront, (cons_of_find_eq_none hback hnone).1]
  rw [List.mem_append, List.mem_append, List.mem_cons]
  exact or_left_comm

theorem Sorted.erase_of_find_eq_none (h : Sorted lt m) (hnone : find lt k m = none) :
    erase lt k m = m := by
  obtain ⟨front, back, rfl, hfront, hback⟩ := exists_place lt k h
  rw [find_append hfront] at hnone
  rw [erase_append hfront, (cons_of_find_eq_none hback hnone).2]

/-- The entries after another value is stored under a key. -/
theorem Sorted.mem_insert_iff_of_some {q : K × V} (h : Sorted lt m) (hfind : find lt k m = some q) :
    p ∈ insert lt k v m ↔ p = (q.1, v) ∨ p ∈ m ∧ ¬Same lt p.1 k := by
  rw [(sorted_insert h).mem_iff_find, find_insert, hfind, h.mem_iff_find]
  have hq := (mem_of_find_eq_some hfind).2
  split
  · rename_i hsame
    simp [hsame, eq_comm]
  · rename_i hdiff
    simp only [hdiff, not_false_eq_true, and_true]
    refine ⟨Or.inr, fun hp ↦ hp.resolve_left ?_⟩
    rintro rfl
    exact hdiff hq

/-- The entries after a removal. -/
theorem Sorted.mem_erase_iff (h : Sorted lt m) : p ∈ erase lt k m ↔ p ∈ m ∧ ¬Same lt p.1 k := by
  rw [(sorted_erase h).mem_iff_find, h.find_erase, h.mem_iff_find]
  split
  · rename_i hsame
    simp [hsame]
  · rename_i hdiff
    simp [hdiff]

/-- What is inserted is one entry more, or replaces one; what is removed was there. -/
theorem Sorted.perm_insert_of_none (h : Sorted lt m) (hnone : find lt k m = none) (v : V) :
    (insert lt k v m).Perm ((k, v) :: m) := by
  obtain ⟨front, back, rfl, hfront, hback⟩ := exists_place lt k h
  rw [find_append hfront] at hnone
  rw [insert_append hfront, (cons_of_find_eq_none hback hnone).1]
  exact List.perm_middle

theorem Sorted.perm_insert_of_some (h : Sorted lt m) (hfind : find lt k m = some p) (v : V) :
    (insert lt k v m).Perm ((p.1, v) :: erase lt k m) := by
  obtain ⟨front, back, rfl, hfront, hback⟩ := exists_place lt k h
  rw [find_append hfront] at hfind
  obtain ⟨rest, -, hinsert, herase⟩ := cons_of_find_eq_some hback hfind
  rw [insert_append hfront, erase_append hfront, hinsert, herase]
  exact List.perm_middle

theorem Sorted.perm_erase (h : Sorted lt m) (hfind : find lt k m = some p) :
    m.Perm (p :: erase lt k m) := by
  obtain ⟨front, back, rfl, hfront, hback⟩ := exists_place lt k h
  rw [find_append hfront] at hfind
  obtain ⟨rest, rfl, -, herase⟩ := cons_of_find_eq_some hback hfind
  rw [erase_append hfront, herase]
  exact List.perm_middle

/-! ## Values under linearly ordered keys -/

section Values

variable {K V : Type*} [LinearOrder K] {m : List (K × V)} {p : K × V} {j k : K} {v : V}

theorem find_eq_some_key (h : find (· < ·) k m = some p) : p ∈ m ∧ p.1 = k := by
  obtain ⟨hmem, hsame⟩ := mem_of_find_eq_some h
  exact ⟨hmem, same_iff_eq.mp hsame⟩

/-- The value under a key after an insertion. -/
theorem map_snd_find_insert : (find (· < ·) j (insert (· < ·) k v m)).map Prod.snd =
    if j = k then some v else (find (· < ·) j m).map Prod.snd := by
  simp only [find_insert, same_iff_eq]
  split <;> rfl

/-- The value under a key after a removal. -/
theorem map_snd_find_erase (h : Sorted (· < ·) m) :
    (find (· < ·) j (erase (· < ·) k m)).map Prod.snd =
      if j = k then none else (find (· < ·) j m).map Prod.snd := by
  simp only [h.find_erase, same_iff_eq]
  split <;> rfl

/-- The value under a key is that of the entry with the key. -/
theorem map_snd_find_eq_some_iff (h : Sorted (· < ·) m) :
    (find (· < ·) k m).map Prod.snd = some v ↔ (k, v) ∈ m := by
  rw [h.mem_iff_find, Option.map_eq_some_iff]
  constructor
  · intro hfind
    obtain ⟨⟨j, w⟩, hfind, rfl⟩ := hfind
    obtain rfl := (find_eq_some_key hfind).2
    exact hfind
  · intro hfind
    exact ⟨(k, v), hfind, rfl⟩

/-- The value under a key after a change to all values. -/
theorem map_snd_find_map {W : Type*} (f : K → V → W) :
    (find (· < ·) k (m.map fun p ↦ (p.1, f p.1 p.2))).map Prod.snd =
      ((find (· < ·) k m).map Prod.snd).map (f k) := by
  rw [find_map]
  cases hfind : find (· < ·) k m with
  | none => rfl
  | some p =>
      obtain rfl := (find_eq_some_key hfind).2
      rfl

end Values

end CppMtHw.Machine.SortedMap
