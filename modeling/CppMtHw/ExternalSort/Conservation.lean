import CppMtHw.ExternalSort.Main

/-!
# What becomes of the entries

The merge loop looks for an entry above `DATA_MIN_VALUE` and takes its absence for the
end of all inputs, so no merge ever writes a zero. Entries above zero are neither lost
nor repeated: each level permutes them, and so does every run of levels.
-/

namespace CppMtHw.ExternalSort

open Machine

variable {files : List (List Data)} {qsort : Qsort} {input : List Data}

/-- A level permutes the entries if none of them is zero. -/
theorem mergeLevel_perm (hpos : ∀ x ∈ files.flatten, dataMinValue < x) :
    (mergeLevel files).flatten.Perm files.flatten := by
  fun_induction mergeLevel files with
  | case1 files h ih =>
      have hsplit : (files.take maxWays).flatten ++ (files.drop maxWays).flatten =
          files.flatten := by
        rw [← List.flatten_append, List.take_append_drop]
      rw [← hsplit] at hpos ⊢
      have hgroup := KWay.kWay_perm fun x hx ↦ hpos x (List.mem_append_left _ hx)
      have hrest := ih fun x hx ↦ hpos x (List.mem_append_right _ hx)
      rw [List.flatten_cons]
      exact hgroup.append hrest
  | case2 files h =>
      rw [not_not.mp h]

theorem mergeLevels_perm (hpos : ∀ x ∈ files.flatten, dataMinValue < x) :
    (mergeLevels files).flatten.Perm files.flatten := by
  fun_induction mergeLevels files with
  | case1 files h ih =>
      have hlevel := mergeLevel_perm hpos
      exact (ih fun x hx ↦ hpos x (hlevel.mem_iff.mp hx)).trans hlevel
  | case2 files h => exact List.Perm.refl _

/-- A level writes no zero. -/
theorem pos_of_mem_mergeLevel {x : Data} (hx : x ∈ (mergeLevel files).flatten) :
    dataMinValue < x := by
  fun_induction mergeLevel files with
  | case1 files h ih =>
      rw [List.flatten_cons, List.mem_append] at hx
      exact hx.elim KWay.lt_of_mem_kWay ih
  | case2 files h => cases hx

theorem pos_of_mem_mergeLevels (hmany : 1 < files.length) {x : Data}
    (hx : x ∈ (mergeLevels files).flatten) : dataMinValue < x := by
  rw [mergeLevels_of_one_lt hmany] at hx
  have hpos : ∀ y ∈ (mergeLevel files).flatten, dataMinValue < y := fun _ ↦ pos_of_mem_mergeLevel
  have hlevel := mergeLevels_perm hpos
  exact pos_of_mem_mergeLevel (hlevel.mem_iff.mp hx)

/-- The sorted file has the entries of the input exactly when no merge takes place or there is no
zero for it to drop. -/
theorem mergeLevels_chunks_perm_iff (hqsort : ∀ xs, (qsort dataLess xs).Perm xs) {k : ℕ}
    (hk : 0 < k) (hne : input ≠ []) {result : List Data}
    (hresult : mergeLevels ((chunks k input).map (qsort dataLess)) = [result]) :
    result.Perm input ↔ input.length ≤ k ∨ 0 ∉ input := by
  have hflatten : ∀ files : List (List Data),
      (files.map (qsort dataLess)).flatten.Perm files.flatten := by
    intro files
    induction files with
    | nil => exact List.Perm.refl _
    | cons file files ih => exact (hqsort file).append ih
  have hchunks := (hflatten (chunks k input)).trans (List.Perm.of_eq (flatten_chunks hk input))
  have hsingle : (mergeLevels ((chunks k input).map (qsort dataLess))).flatten = result := by
    rw [hresult, List.flatten_singleton]
  have hmany := one_lt_length_chunks hk hne
  constructor
  · intro hperm
    by_contra hboth
    rw [not_or, not_le, not_not, ← hmany] at hboth
    have hzero := pos_of_mem_mergeLevels (by simpa using hboth.1)
      (hsingle ▸ hperm.mem_iff.mpr hboth.2)
    exact lt_irrefl _ hzero
  · rintro (hfits | hzero)
    · have hone : ((chunks k input).map (qsort dataLess)).length ≤ 1 := by
        rw [List.length_map]
        by_contra hlt
        exact absurd (hmany.mp (by omega)) (by omega)
      rw [mergeLevels_of_le_one hone] at hsingle
      exact hsingle ▸ hchunks
    · have hpos : ∀ x ∈ ((chunks k input).map (qsort dataLess)).flatten, dataMinValue < x := by
        intro x hx
        have hxne : x ≠ 0 := fun heq ↦ hzero (heq ▸ hchunks.mem_iff.mp hx)
        have hxpos : x.toNat ≠ 0 := fun heq ↦ hxne (UInt32.toNat_inj.mp heq)
        exact UInt32.lt_iff_toNat_lt.mpr (Nat.pos_of_ne_zero hxpos)
      exact hsingle ▸ (mergeLevels_perm hpos).trans hchunks

/-- The external sort loses and duplicates no entry if and only if the input fits into the memory
or contains no zero. -/
theorem externalSort_perm_iff (hqsort : ∀ xs, (qsort dataLess xs).Perm xs) (fresh : ℕ → Data)
    (hne : input ≠ []) {nbytes : ℕ} (hways : OneEntryPerWay input nbytes) {fuel : ℕ}
    (hfuel : input.length < fuel) :
    (∃ result, externalSort qsort fresh fuel (Disk.holding input) 0 nbytes = some result ∧
      result.Perm input) ↔ input.length ≤ nbytes / 4 ∨ 0 ∉ input := by
  obtain ⟨result, hsort, hresult⟩ := externalSort_spec hqsort fresh hne hways hfuel
  rw [← mergeLevels_chunks_perm_iff hqsort hways.1 hne hresult, hsort]
  constructor
  · rintro ⟨result', heq, hperm⟩
    exact Option.some.inj heq ▸ hperm
  · intro hperm
    exact ⟨result, rfl, hperm⟩

/-- A `qsort` that merges stably and takes a comparison of at most zero to mean that its arguments
are in order. -/
def mergeSortBy : Qsort := fun compare xs ↦ xs.mergeSort fun a b ↦ compare a b ≤ 0

/-- One entry more than a megabyte holds, all of them zero: the sorted file is not a permutation
of them. -/
theorem main_loses_zeros : ∃ result,
    main mergeSortBy (fun _ ↦ 0) 262146 (Disk.holding (List.replicate 262145 0)) 0 1 =
      some result ∧ ¬result.Perm (List.replicate 262145 0) := by
  have hqsort : ∀ xs, (mergeSortBy dataLess xs).Perm xs := fun xs ↦ List.mergeSort_perm xs _
  have hlength : (List.replicate 262145 (0 : Data)).length = 262145 := List.length_replicate
  have hne : List.replicate 262145 (0 : Data) ≠ [] := by
    rw [← List.length_pos_iff, hlength]
    omega
  have hways := oneEntryPerWay_megabytes (List.replicate 262145 0) Nat.one_pos
  obtain ⟨result, hsort, hresult⟩ := externalSort_spec hqsort (fun _ ↦ 0) hne hways
    (by rw [hlength]; exact Nat.lt_succ_self 262145)
  refine ⟨result, hsort, ?_⟩
  rw [mergeLevels_chunks_perm_iff hqsort hways.1 hne hresult, hlength]
  rintro (hfits | hzero)
  · omega
  · exact hzero (List.mem_replicate.mpr ⟨by omega, rfl⟩)

theorem oneEntryPerWay_two_chunks : OneEntryPerWay [3, 1, 4, 2] 12 := by
  refine ⟨by decide, fun _ ↦ ?_⟩
  have htwo : chunks (12 / 4) [3, 1, 4, 2] = [[3, 1, 4], [2]] := by simp [chunks]
  rw [htwo]
  decide

/-- Four entries in two chunks, none of them zero. -/
theorem externalSort_perm_two_chunks : ∃ result,
    externalSort mergeSortBy (fun _ ↦ 0) 5 (Disk.holding [3, 1, 4, 2]) 0 12 = some result ∧
      result.Perm [3, 1, 4, 2] :=
  (externalSort_perm_iff (fun xs ↦ List.mergeSort_perm xs _) (fun _ ↦ 0) (by simp)
    oneEntryPerWay_two_chunks (by decide)).mpr (Or.inr (by decide))

end CppMtHw.ExternalSort
