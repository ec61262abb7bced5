import CppMtHw.ExternalSort.Conservation

/-!
# Order and termination

Each level merges falling files to falling files, so the file that is left is falling if
`qsort` leaves the chunks so. There is a file left if and only if there was one at the
start: the merge stage waits for exactly one file, and an empty queue never becomes one.
-/

namespace CppMtHw.ExternalSort

open Machine

variable {files : List (List Data)} {qsort : Qsort} {input : List Data}

def Falling (file : List Data) : Prop := file.Pairwise fun a b ↦ b ≤ a

theorem falling_mergeLevel (h : ∀ file ∈ files, Falling file) :
    ∀ file ∈ mergeLevel files, Falling file := by
  fun_induction mergeLevel files with
  | case1 files hne ih =>
      intro file hfile
      rcases List.mem_cons.mp hfile with rfl | hfile
      · exact KWay.kWay_sorted fun l hl ↦ h l (List.mem_of_mem_take hl)
      · exact ih (fun l hl ↦ h l (List.mem_of_mem_drop hl)) file hfile
  | case2 files hne => exact fun file hfile ↦ (List.not_mem_nil hfile).elim

theorem falling_mergeLevels (h : ∀ file ∈ files, Falling file) :
    ∀ file ∈ mergeLevels files, Falling file := by
  fun_induction mergeLevels files with
  | case1 files hmany ih => exact ih (falling_mergeLevel h)
  | case2 files hmany => exact h

/-- The sorted file does not rise, whatever the number of chunks, groups and levels. -/
theorem externalSort_falling (hqsort : ∀ xs, (qsort dataLess xs).Perm xs)
    (hsorted : ∀ xs, Falling (qsort dataLess xs)) (fresh : ℕ → Data) (hne : input ≠ []) {nbytes : ℕ}
    (hways : OneEntryPerWay input nbytes) {fuel : ℕ} (hfuel : input.length < fuel) :
    ∃ result, externalSort qsort fresh fuel (Disk.holding input) 0 nbytes = some result ∧
      Falling result := by
  obtain ⟨result, hsort, hresult⟩ := externalSort_spec hqsort fresh hne hways hfuel
  have hchunks : ∀ file ∈ (chunks (nbytes / 4) input).map (qsort dataLess), Falling file := by
    intro file hfile
    obtain ⟨chunk, -, rfl⟩ := List.mem_map.mp hfile
    exact hsorted chunk
  have hlast := falling_mergeLevels hchunks
  rw [hresult] at hlast
  exact ⟨result, hsort, hlast result List.mem_cons_self⟩

theorem falling_mergeSortBy (xs : List Data) : Falling (mergeSortBy dataLess xs) := by
  have hle : ∀ a b : Data, decide (dataLess a b ≤ 0) = decide (b ≤ a) := fun a b ↦ by
    rw [dataLess]
    by_cases hlt : a < b
    · simp [hlt]
    · simp [hlt, not_lt.mp hlt]
  have hpairwise := @List.pairwise_mergeSort Data (fun a b ↦ decide (dataLess a b ≤ 0))
    (fun a b c hab hbc ↦ by
      rw [hle, decide_eq_true_iff] at *
      exact le_trans hbc hab)
    (fun a b ↦ by
      simp only [hle, Bool.or_eq_true, decide_eq_true_iff]
      exact le_total b a) xs
  refine hpairwise.imp fun {a b} hab ↦ ?_
  rw [hle, decide_eq_true_iff] at hab
  exact hab

theorem externalSort_falling_two_chunks : ∃ result,
    externalSort mergeSortBy (fun _ ↦ 0) 5 (Disk.holding [3, 1, 4, 2]) 0 12 = some result ∧
    Falling result :=
  externalSort_falling (fun xs ↦ List.mergeSort_perm xs _) falling_mergeSortBy (fun _ ↦ 0) (by simp)
    oneEntryPerWay_two_chunks (by decide)

/-! ## Termination of the merge stage -/

variable {disk : Disk} {fd : Descriptor} {names : List ℕ} {mem : Memory} {k n fuel fuel' mb : ℕ}
  {r : Disk × List ℕ}

/-- More fuel does not change what `split` returns. -/
theorem splitLoop_mono (h : splitLoop qsort k fuel disk fd n names = some r) (hle : fuel ≤ fuel') :
    splitLoop qsort k fuel' disk fd n names = some r := by
  induction fuel generalizing fuel' disk fd n names with
  | zero => cases h
  | succ fuel ih =>
      obtain ⟨fuel', rfl⟩ := Nat.exists_eq_succ_of_ne_zero
        (Nat.ne_of_gt (Nat.lt_of_lt_of_le (Nat.succ_pos fuel) hle))
      simp only [splitLoop] at h ⊢
      by_cases hn : 0 < n
      · rw [if_pos hn] at h ⊢
        exact ih h (Nat.le_of_succ_le_succ hle)
      · rw [if_neg hn] at h ⊢
        exact h

/-- Chunks of no entries never use the input up. -/
theorem splitLoop_zero (hn : 0 < n) : splitLoop qsort 0 fuel disk fd n names = none := by
  induction fuel generalizing disk fd names with
  | zero => rfl
  | succ fuel ih =>
      have hrest : usub n 0 = n := usub_of_le (Nat.zero_le n)
      simp only [splitLoop, if_pos hn, Nat.not_lt_zero, if_false, hrest]
      exact ih

theorem stageLoop_nil (innerFuel bufSize : ℕ) :
    stageLoop innerFuel bufSize fuel disk [] [] mem = none := by
  induction fuel with
  | zero => rfl
  | succ fuel ih =>
      cases innerFuel with
      | zero => simp [stageLoop, levelLoop]
      | succ innerFuel =>
          simp only [stageLoop, levelLoop, List.length_nil, ne_eq, zero_ne_one, not_false_eq_true,
            if_true, not_true_eq_false, if_false, Option.bind_eq_bind, Option.bind_some]
          exact ih

theorem split_mono {nbytes : ℕ} {unsortedFile : ℕ}
    (h : split qsort fuel disk unsortedFile names nbytes = some r) (hle : fuel ≤ fuel') :
    split qsort fuel' disk unsortedFile names nbytes = some r := by
  simp only [split, Option.bind_eq_bind, Option.bind_eq_some_iff] at h ⊢
  obtain ⟨n, hstat, fd, hopen, hloop⟩ := h
  exact ⟨n, hstat, fd, hopen, splitLoop_mono hloop hle⟩

/-- From the queue that `split` leaves, the merge stage ends with one file, and an empty other
queue, if and only if the input has an entry. -/
theorem merge_stage_ends_iff (hqsort : ∀ xs, (qsort dataLess xs).Perm xs)
    (hsplit : split qsort fuel (Disk.holding input) 0 [] (mb * 1024 * 1024) = some (disk, names))
    (hmem : mem.size = mb * 1024 * 1024 / 4) :
    (∃ fuel' disk' name mem', stageLoop fuel' (mb * 1024 * 1024 / 4) fuel' disk names [] mem =
      some (disk', [name], [], mem')) ↔ input ≠ [] := by
  constructor
  · rintro ⟨fuel', disk', name, mem', hstage⟩ rfl
    have hnames : names = [] := by
      have hstat : (Disk.holding []).stat 0 = some 0 := rfl
      have hopen : (Disk.holding []).openFile 0 = some { file := 0, offset := 0 } := rfl
      simp only [split, hstat, hopen, Option.bind_eq_bind, Option.bind_some] at hsplit
      cases fuel with
      | zero => cases hsplit
      | succ fuel =>
          simp only [splitLoop, Nat.lt_irrefl, if_false, Option.some.injEq, Prod.mk.injEq] at hsplit
          exact hsplit.2.symm
    rw [hnames, stageLoop_nil] at hstage
    cases hstage
  · intro hne
    by_cases hmb : 0 < mb
    · have hways := oneEntryPerWay_megabytes input hmb
      have hfuel : input.length < max fuel (input.length + 1) := by omega
      obtain ⟨disk₁, names₁, hsplit₁, hqueued, -, hlength, hentries⟩ :=
        split_spec hqsort hways.1 hfuel
      have hsame := (split_mono hsplit (Nat.le_max_left fuel (input.length + 1))).symm.trans hsplit₁
      obtain ⟨rfl, rfl⟩ := Prod.mk.inj (Option.some.inj hsame)
      obtain ⟨disk', name, mem', hstage, -⟩ :=
        stage_spec hne hways hqueued hlength hentries hmem (Nat.lt_succ_self input.length)
      exact ⟨input.length + 1, disk', name, mem', hstage⟩
    · obtain rfl : mb = 0 := by omega
      have hstat : (Disk.holding input).stat 0 = some input.length := rfl
      have hopen : (Disk.holding input).openFile 0 = some { file := 0, offset := 0 } := rfl
      simp only [split, hstat, hopen, Option.bind_eq_bind, Option.bind_some, Nat.zero_mul,
        Nat.zero_div, splitLoop_zero (List.length_pos_of_ne_nil hne)] at hsplit
      cases hsplit

/-- One entry more than a megabyte holds. -/
theorem merge_stage_ends_two_chunks : ∃ disk names fuel' disk' name mem',
    split mergeSortBy 262146 (Disk.holding (List.replicate 262145 7)) 0 [] (1 * 1024 * 1024) =
      some (disk, names) ∧ 1 < names.length ∧
      stageLoop fuel' (1 * 1024 * 1024 / 4) fuel' disk names []
        { entry := fun _ ↦ 0, size := 262144 } = some (disk', [name], [], mem') := by
  have hqsort : ∀ xs, (mergeSortBy dataLess xs).Perm xs := fun xs ↦ List.mergeSort_perm xs _
  have hlength : (List.replicate 262145 7 : List Data).length = 262145 := List.length_replicate
  have hne : (List.replicate 262145 7 : List Data) ≠ [] := by
    rw [← List.length_pos_iff, hlength]
    omega
  have hk : 0 < 1 * 1024 * 1024 / 4 := by decide
  have hfuel : (List.replicate 262145 7 : List Data).length < 262146 := by omega
  obtain ⟨disk, names, hsplit, -, -, hnames, -⟩ := split_spec hqsort hk hfuel
  have hmany := (one_lt_length_chunks hk hne).mpr (by omega)
  rw [← hnames] at hmany
  have hmem : ({ entry := fun _ ↦ 0, size := 262144 } : Memory).size = 1 * 1024 * 1024 / 4 := by
    decide
  obtain ⟨fuel', disk', name, mem', hstage⟩ := (merge_stage_ends_iff hqsort hsplit hmem).mpr hne
  exact ⟨disk, names, fuel', disk', name, mem', hsplit, hmany, hstage⟩

/-- `split` makes no chunk of an empty file, and the merge stage never ends. -/
theorem merge_stage_hangs_on_empty : ∃ disk names,
    split mergeSortBy 1 (Disk.holding []) 0 [] (1 * 1024 * 1024) = some (disk, names) ∧
      ∀ fuel' mem, stageLoop fuel' (1 * 1024 * 1024 / 4) fuel' disk names [] mem = none :=
  ⟨_, _, rfl, fun _ _ ↦ stageLoop_nil _ _⟩

end CppMtHw.ExternalSort
