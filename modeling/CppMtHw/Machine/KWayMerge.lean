import Mathlib.Data.List.Perm.Basic
import Mathlib.Order.Basic
import Mathlib.Order.Lattice

/-!
# Merging by the greatest head

Several lists are merged by taking away, again and again, the first of their greatest
heads, as long as it lies above a bound. Whatever is at most the bound stops the merge
when it becomes the head of every list, so the lists are used up if all their elements
lie above it, and only elements above it ever come out.
-/

namespace CppMtHw.Machine.KWay

variable {α : Type*} {bound x : α} {ls : List (List α)} {i j n : ℕ}

/-- A head taken away is what the lists lose. -/
theorem flatten_perm_cons {xs : List α} (h : ls[j]? = some (x :: xs)) :
    ls.flatten.Perm (x :: (ls.set j xs).flatten) := by
  induction ls generalizing j with
  | nil => simp at h
  | cons l ls ih =>
      cases j with
      | zero =>
          obtain rfl : l = x :: xs := by simpa using h
          simp
      | succ j =>
          rw [List.getElem?_cons_succ] at h
          rw [List.set_cons_succ, List.flatten_cons, List.flatten_cons]
          calc
            (l ++ ls.flatten).Perm (l ++ x :: (ls.set j xs).flatten) := (ih h).append_left l
            _ |>.Perm (x :: (l ++ (ls.set j xs).flatten)) := List.perm_middle

variable [LinearOrder α]

/-- Look for the first of the greatest heads above `max`, counting positions from `i`; `best` is
the position found so far. -/
def scan : List (List α) → ℕ → α → Option ℕ → Option ℕ
  | [], _, _, best => best
  | [] :: ls, i, max, best => scan ls (i + 1) max best
  | (x :: _) :: ls, i, max, best =>
      if max < x then scan ls (i + 1) x (some i) else scan ls (i + 1) max best

/-- Take away heads above `bound`, at most `n` of them. -/
def merge (bound : α) : ℕ → List (List α) → List α
  | 0, _ => []
  | n + 1, ls =>
      match scan ls 0 bound none with
      | none => []
      | some j =>
          match ls[j]? with
          | some (x :: xs) => x :: merge bound n (ls.set j xs)
          | _ => []

/-- Merge until no head lies above `bound`. -/
def kWay (bound : α) (ls : List (List α)) : List α := merge bound ls.flatten.length ls

def Exhausted (max : α) (ls : List (List α)) : Prop := ∀ l ∈ ls, ∀ y ∈ l.head?, y ≤ max

/-- The position found is the one known before, or that of a greatest head. -/
theorem scan_eq_some {max : α} {best : Option ℕ} (h : scan ls i max best = some j) :
    (best = some j ∧ Exhausted max ls) ∨
    ∃ k x xs, j = i + k ∧ ls[k]? = some (x :: xs) ∧ max < x ∧ Exhausted x ls := by
  induction ls generalizing i max best with
  | nil => exact Or.inl ⟨h, by simp [Exhausted]⟩
  | cons l ls ih =>
      cases l with
      | nil =>
          rcases ih h with ⟨hbest, hall⟩ | ⟨k, x, xs, rfl, hk, hlt, hall⟩
          · exact Or.inl ⟨hbest, by simpa [Exhausted] using hall⟩
          · refine Or.inr ⟨k + 1, x, xs, by omega, by simpa using hk, hlt, ?_⟩
            simpa [Exhausted] using hall
      | cons y ys =>
          simp only [scan] at h
          split at h
          · rename_i hy
            rcases ih h with ⟨hbest, hall⟩ | ⟨k, x, xs, rfl, hk, hlt, hall⟩
            · obtain rfl := Option.some.inj hbest
              exact Or.inr ⟨0, y, ys, rfl, rfl, hy, by simpa [Exhausted] using hall⟩
            · refine Or.inr ⟨k + 1, x, xs, by omega, by simpa using hk, lt_trans hy hlt, ?_⟩
              simpa [Exhausted] using ⟨le_of_lt hlt, hall⟩
          · rename_i hy
            rcases ih h with ⟨hbest, hall⟩ | ⟨k, x, xs, rfl, hk, hlt, hall⟩
            · exact Or.inl ⟨hbest, by simpa [Exhausted] using ⟨not_lt.mp hy, hall⟩⟩
            · refine Or.inr ⟨k + 1, x, xs, by omega, by simpa using hk, hlt, ?_⟩
              simpa [Exhausted] using ⟨le_trans (not_lt.mp hy) (le_of_lt hlt), hall⟩

theorem scan_eq_none {max : α} {best : Option ℕ} (h : scan ls i max best = none) :
    best = none ∧ Exhausted max ls := by
  induction ls generalizing i max best with
  | nil => exact ⟨h, by simp [Exhausted]⟩
  | cons l ls ih =>
      cases l with
      | nil => exact ⟨(ih h).1, by simpa [Exhausted] using (ih h).2⟩
      | cons y ys =>
          simp only [scan] at h
          split at h
          · exact absurd (ih h).1 (by simp)
          · rename_i hy
            exact ⟨(ih h).1, by simpa [Exhausted] using ⟨not_lt.mp hy, (ih h).2⟩⟩

/-- Only elements above the bound come out. -/
theorem lt_of_mem_merge (h : x ∈ merge bound n ls) : bound < x := by
  induction n generalizing ls with
  | zero => cases h
  | succ n ih =>
      simp only [merge] at h
      cases hscan : scan ls 0 bound none with
      | none => simp [hscan] at h
      | some j =>
          rcases scan_eq_some hscan with ⟨hnone, -⟩ | ⟨k, y, ys, hj, hk, hlt, -⟩
          · cases hnone
          · rw [Nat.zero_add] at hj
            subst hj
            simp only [hscan, hk] at h
            rcases List.mem_cons.mp h with rfl | hmem
            · exact hlt
            · exact ih hmem

/-- If all elements lie above the bound, all of them come out. -/
theorem merge_perm (hgt : ∀ x ∈ ls.flatten, bound < x) (hn : ls.flatten.length ≤ n) :
    (merge bound n ls).Perm ls.flatten := by
  induction n generalizing ls with
  | zero =>
      rw [List.eq_nil_of_length_eq_zero (Nat.le_zero.mp hn)]
      exact List.Perm.refl _
  | succ n ih =>
      simp only [merge]
      cases hscan : scan ls 0 bound none with
      | none =>
          -- a head would lie above the bound
          have hempty : ls.flatten = [] := by
            rw [List.flatten_eq_nil_iff]
            intro l hl
            cases l with
            | nil => rfl
            | cons y ys =>
                have hle : y ≤ bound := (scan_eq_none hscan).2 _ hl y rfl
                have hmem : y ∈ ls.flatten := List.mem_flatten.mpr ⟨_, hl, List.mem_cons_self⟩
                exact absurd (hgt y hmem) (not_lt.mpr hle)
          rw [hempty]
      | some j =>
          rcases scan_eq_some hscan with ⟨hnone, -⟩ | ⟨k, y, ys, hj, hk, -, -⟩
          · cases hnone
          · rw [Nat.zero_add] at hj
            subst hj
            simp only [hk]
            have hperm := flatten_perm_cons hk
            have hlength : (ls.set j ys).flatten.length ≤ n := by
              have hsame := hperm.length_eq
              rw [List.length_cons] at hsame
              omega
            have hrest : ∀ x ∈ (ls.set j ys).flatten, bound < x := fun x hx ↦
              hgt x (hperm.mem_iff.mpr (List.mem_cons_of_mem y hx))
            exact ((ih hrest hlength).cons y).trans hperm.symm

theorem length_merge_le (bound : α) (n : ℕ) (ls : List (List α)) :
    (merge bound n ls).length ≤ n := by
  induction n generalizing ls with
  | zero => exact Nat.le_refl _
  | succ n ih =>
      simp only [merge]
      split
      · exact Nat.zero_le _
      · split
        · exact Nat.succ_le_succ (ih _)
        · exact Nat.zero_le _

theorem length_kWay_le (bound : α) (ls : List (List α)) :
    (kWay bound ls).length ≤ ls.flatten.length := length_merge_le _ _ _

theorem kWay_perm (hgt : ∀ x ∈ ls.flatten, bound < x) : (kWay bound ls).Perm ls.flatten :=
  merge_perm hgt (Nat.le_refl _)

theorem lt_of_mem_kWay (h : x ∈ kWay bound ls) : bound < x := lt_of_mem_merge h

/-! ## Order -/

/-- What is at least every head of falling lists is at least everything that comes out. -/
theorem le_of_mem_merge {y : α} (hsorted : ∀ l ∈ ls, l.Pairwise fun a b ↦ b ≤ a)
    (hy : Exhausted y ls) (h : x ∈ merge bound n ls) : x ≤ y := by
  induction n generalizing ls with
  | zero => cases h
  | succ n ih =>
      simp only [merge] at h
      cases hscan : scan ls 0 bound none with
      | none => simp [hscan] at h
      | some j =>
          rcases scan_eq_some hscan with ⟨hnone, -⟩ | ⟨k, z, zs, hj, hk, -, -⟩
          · cases hnone
          · rw [Nat.zero_add] at hj
            subst hj
            simp only [hscan, hk] at h
            have hmem : z :: zs ∈ ls := List.mem_of_getElem? hk
            have hz : z ≤ y := hy _ hmem z rfl
            have hfall := List.pairwise_cons.mp (hsorted _ hmem)
            rcases List.mem_cons.mp h with rfl | hx
            · exact hz
            · refine ih (fun l hl ↦ ?_) (fun l hl w hw ↦ ?_) hx
              · rcases List.mem_or_eq_of_mem_set hl with hl | rfl
                · exact hsorted l hl
                · exact hfall.2
              · rcases List.mem_or_eq_of_mem_set hl with hl | rfl
                · exact hy l hl w hw
                · exact le_trans (hfall.1 w (List.mem_of_mem_head? hw)) hz

/-- Falling lists are merged to a falling list. -/
theorem merge_sorted (hsorted : ∀ l ∈ ls, l.Pairwise fun a b ↦ b ≤ a) :
    (merge bound n ls).Pairwise fun a b ↦ b ≤ a := by
  induction n generalizing ls with
  | zero => exact List.Pairwise.nil
  | succ n ih =>
      simp only [merge]
      cases hscan : scan ls 0 bound none with
      | none => exact List.Pairwise.nil
      | some j =>
          rcases scan_eq_some hscan with ⟨hnone, -⟩ | ⟨k, z, zs, hj, hk, -, hgreatest⟩
          · cases hnone
          · rw [Nat.zero_add] at hj
            subst hj
            simp only [hk]
            have hmem : z :: zs ∈ ls := List.mem_of_getElem? hk
            have hfall := List.pairwise_cons.mp (hsorted _ hmem)
            have hrest : ∀ l ∈ ls.set j zs, l.Pairwise fun a b ↦ b ≤ a := fun l hl ↦ by
              rcases List.mem_or_eq_of_mem_set hl with hl | rfl
              · exact hsorted l hl
              · exact hfall.2
            -- the one taken away is still at least every head
            have hheads : Exhausted z (ls.set j zs) := fun l hl w hw ↦ by
              rcases List.mem_or_eq_of_mem_set hl with hl | rfl
              · exact hgreatest l hl w hw
              · exact hfall.1 w (List.mem_of_mem_head? hw)
            exact List.pairwise_cons.mpr ⟨fun w hw ↦ le_of_mem_merge hrest hheads hw, ih hrest⟩

theorem kWay_sorted (hsorted : ∀ l ∈ ls, l.Pairwise fun a b ↦ b ≤ a) :
    (kWay bound ls).Pairwise fun a b ↦ b ≤ a := merge_sorted hsorted

/-- Of falling lists all elements above the bound come out: what the merge leaves behind is at most
the heads. -/
theorem merge_perm_filter {above : α → Bool} (habove : ∀ x, above x = true ↔ bound < x)
    (hsorted : ∀ l ∈ ls, l.Pairwise fun a b ↦ b ≤ a) (hn : ls.flatten.length ≤ n) :
    (merge bound n ls).Perm (ls.flatten.filter above) := by
  induction n generalizing ls with
  | zero =>
      rw [List.eq_nil_of_length_eq_zero (Nat.le_zero.mp hn)]
      exact List.Perm.refl _
  | succ n ih =>
      simp only [merge]
      cases hscan : scan ls 0 bound none with
      | none =>
          have hempty : ls.flatten.filter above = [] := by
            rw [List.filter_eq_nil_iff]
            intro x hx
            obtain ⟨l, hl, hx⟩ := List.mem_flatten.mp hx
            have hle : x ≤ bound := by
              cases l with
              | nil => exact absurd hx List.not_mem_nil
              | cons y ys =>
                  have hy : y ≤ bound := (scan_eq_none hscan).2 _ hl y rfl
                  rcases List.mem_cons.mp hx with rfl | hx
                  · exact hy
                  · exact le_trans ((List.pairwise_cons.mp (hsorted _ hl)).1 x hx) hy
            exact fun hlt ↦ absurd ((habove x).mp hlt) (not_lt.mpr hle)
          rw [hempty]
      | some j =>
          rcases scan_eq_some hscan with ⟨hnone, -⟩ | ⟨k, y, ys, hj, hk, hgt, -⟩
          · cases hnone
          · rw [Nat.zero_add] at hj
            subst hj
            simp only [hk]
            have hperm := flatten_perm_cons hk
            have hlength : (ls.set j ys).flatten.length ≤ n := by
              have hsame := hperm.length_eq
              rw [List.length_cons] at hsame
              omega
            have hrest : ∀ l ∈ ls.set j ys, l.Pairwise fun a b ↦ b ≤ a := by
              intro l hl
              rcases List.mem_or_eq_of_mem_set hl with hl | rfl
              · exact hsorted l hl
              · exact (List.pairwise_cons.mp (hsorted _ (List.mem_of_getElem? hk))).2
            calc
              List.Perm _ (y :: (ls.set j ys).flatten.filter above) := (ih hrest hlength).cons y
              _ = (y :: (ls.set j ys).flatten).filter above := by
                rw [List.filter_cons_of_pos ((habove y).mpr hgt)]
              List.Perm _ _ := (hperm.filter _).symm

theorem kWay_perm_filter {above : α → Bool} (habove : ∀ x, above x = true ↔ bound < x)
    (hsorted : ∀ l ∈ ls, l.Pairwise fun a b ↦ b ≤ a) :
    (kWay bound ls).Perm (ls.flatten.filter above) :=
  merge_perm_filter habove hsorted (Nat.le_refl _)

end CppMtHw.Machine.KWay
