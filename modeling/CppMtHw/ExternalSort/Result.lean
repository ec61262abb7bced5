import CppMtHw.ExternalSort.Ordering

/-!
# What the sorted file is

With a `qsort` that leaves its array falling, the sorted file is determined by the input
and by whether the input fits into the memory: neither the way `qsort` treats the array,
nor what the new buffer contains, nor the numbers of chunks, groups and levels show.
-/

namespace CppMtHw.ExternalSort

open Machine

variable {files : List (List Data)} {qsort : Qsort} {input : List Data}

/-- A level of falling files keeps all entries above zero, and only those. -/
theorem mergeLevel_perm_filter (h : ∀ file ∈ files, Falling file) :
    (mergeLevel files).flatten.Perm (files.flatten.filter (dataMinValue < ·)) := by
  fun_induction mergeLevel files with
  | case1 files hne ih =>
      have hsplit : (files.take maxWays).flatten ++ (files.drop maxWays).flatten =
          files.flatten := by
        rw [← List.flatten_append, List.take_append_drop]
      have hgroup : (KWay.kWay dataMinValue (files.take maxWays)).Perm
          ((files.take maxWays).flatten.filter (dataMinValue < ·)) :=
        KWay.kWay_perm_filter (fun _ ↦ decide_eq_true_iff) fun l hl ↦ h l (List.mem_of_mem_take hl)
      have hrest := ih fun l hl ↦ h l (List.mem_of_mem_drop hl)
      rw [← hsplit, List.filter_append, List.flatten_cons]
      exact hgroup.append hrest
  | case2 files hne =>
      rw [not_not.mp hne]
      exact List.Perm.refl _

/-- If there is a level at all, the last file has the entries above zero. -/
theorem mergeLevels_perm_filter (hmany : 1 < files.length) (h : ∀ file ∈ files, Falling file) :
    (mergeLevels files).flatten.Perm (files.flatten.filter (dataMinValue < ·)) := by
  have hlevel := mergeLevel_perm_filter h
  have hpos : ∀ x ∈ (mergeLevel files).flatten, dataMinValue < x := fun _ ↦ pos_of_mem_mergeLevel
  rw [mergeLevels_of_one_lt hmany]
  exact (mergeLevels_perm hpos).trans hlevel

theorem flatten_map_perm (hqsort : ∀ xs, (qsort dataLess xs).Perm xs) (files : List (List Data)) :
    (files.map (qsort dataLess)).flatten.Perm files.flatten := by
  induction files with
  | nil => exact List.Perm.refl _
  | cons file files ih => exact (hqsort file).append ih

def sorted (input : List Data) : List Data := input.mergeSort fun a b ↦ b ≤ a

theorem falling_sorted (input : List Data) : Falling (sorted input) := by
  have hpairwise := @List.pairwise_mergeSort Data (fun a b ↦ decide (b ≤ a))
    (fun a b c hab hbc ↦ decide_eq_true (le_trans (of_decide_eq_true hbc) (of_decide_eq_true hab)))
    (fun a b ↦ by simpa using le_total b a) input
  exact hpairwise.imp fun hab ↦ of_decide_eq_true hab

/-- Only one falling file has these entries. -/
theorem eq_sorted {file : List Data} (hperm : file.Perm input) (hfalling : Falling file) :
    file = sorted input := by
  have hsame : file.Perm (sorted input) := hperm.trans (List.mergeSort_perm input _).symm
  exact hsame.eq_of_pairwise (fun a b _ _ hba hab ↦ le_antisymm hab hba) hfalling
    (falling_sorted input)

/-- An input that fits into the memory comes out sorted, and of any other one its entries above zero
do, whatever `qsort`, the memory and its contents are. -/
theorem externalSort_eq (hqsort : ∀ xs, (qsort dataLess xs).Perm xs)
    (hsorted : ∀ xs, Falling (qsort dataLess xs)) (fresh : ℕ → Data) (hne : input ≠ []) {nbytes : ℕ}
    (hways : OneEntryPerWay input nbytes) {fuel : ℕ} (hfuel : input.length < fuel) :
    externalSort qsort fresh fuel (Disk.holding input) 0 nbytes =
      some (sorted (if input.length ≤ nbytes / 4 then input else input.filter (0 < ·))) := by
  obtain ⟨result, hsort, hresult⟩ := externalSort_spec hqsort fresh hne hways hfuel
  rw [hsort, Option.some.injEq]
  have hchunks : ∀ file ∈ (chunks (nbytes / 4) input).map (qsort dataLess), Falling file := by
    intro file hfile
    obtain ⟨chunk, -, rfl⟩ := List.mem_map.mp hfile
    exact hsorted chunk
  have hsame : ((chunks (nbytes / 4) input).map (qsort dataLess)).flatten.Perm input :=
    (flatten_map_perm hqsort _).trans (List.Perm.of_eq (flatten_chunks hways.1 input))
  have hfalling : Falling result := by
    have hlast := falling_mergeLevels hchunks
    rw [hresult] at hlast
    exact hlast result List.mem_cons_self
  have hsingle : (mergeLevels ((chunks (nbytes / 4) input).map (qsort dataLess))).flatten =
      result := by
    rw [hresult, List.flatten_singleton]
  have hmany := one_lt_length_chunks hways.1 hne
  apply eq_sorted _ hfalling
  split
  · rename_i hfits
    have hone : ((chunks (nbytes / 4) input).map (qsort dataLess)).length ≤ 1 := by
      rw [List.length_map]
      by_contra hlt
      exact absurd (hmany.mp (not_le.mp hlt)) (not_lt.mpr hfits)
    rw [mergeLevels_of_le_one hone] at hsingle
    exact hsingle ▸ hsame
  · rename_i hlarge
    have hlevels : 1 < ((chunks (nbytes / 4) input).map (qsort dataLess)).length := by
      rw [List.length_map]
      exact hmany.mpr (not_le.mp hlarge)
    have hperm := mergeLevels_perm_filter hlevels hchunks
    rw [hsingle] at hperm
    exact hperm.trans (hsame.filter _)

/-- The zero is kept in a memory of six entries and lost in one of three. -/
theorem externalSort_eq_two_memories :
    externalSort mergeSortBy (fun _ ↦ 0) 5 (Disk.holding [3, 0, 4, 2]) 0 24 = some [4, 3, 2, 0] ∧
      externalSort mergeSortBy (fun _ ↦ 0) 5 (Disk.holding [3, 0, 4, 2]) 0 12 = some [4, 3, 2] := by
  have hone : chunks (24 / 4) [3, 0, 4, 2] = [[3, 0, 4, 2]] := by simp [chunks]
  have htwo : chunks (12 / 4) [3, 0, 4, 2] = [[3, 0, 4], [2]] := by simp [chunks]
  have hways : OneEntryPerWay [3, 0, 4, 2] 24 ∧ OneEntryPerWay [3, 0, 4, 2] 12 := by
    unfold OneEntryPerWay
    rw [hone, htwo]
    decide
  have hall : sorted [3, 0, 4, 2] = [4, 3, 2, 0] :=
    (eq_sorted (by decide) (by unfold Falling; decide)).symm
  have hpositive : sorted [3, 4, 2] = [4, 3, 2] :=
    (eq_sorted (by decide) (by unfold Falling; decide)).symm
  have hqsort : ∀ xs, (mergeSortBy dataLess xs).Perm xs := fun xs ↦ List.mergeSort_perm xs _
  have hlarge := externalSort_eq hqsort falling_mergeSortBy (fun _ ↦ 0) (by simp) hways.1
    (show 4 < 5 by decide)
  have hsmall := externalSort_eq hqsort falling_mergeSortBy (fun _ ↦ 0) (by simp) hways.2
    (show 4 < 5 by decide)
  exact ⟨hlarge.trans (congrArg some hall), hsmall.trans (congrArg some hpositive)⟩

end CppMtHw.ExternalSort
