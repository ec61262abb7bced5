import CppMtHw.ExternalSort.Ordering
import Mathlib.Data.Nat.Log

/-!
# Levels, written entries and the directory

What the external sort costs. A level makes one file of up to `maxWays` files, so the
number of levels is the logarithm of the number of chunks, rounded up; `split` and every
level write each entry at most once. Every file that is made on the way has lost its name
when the merge stage ends, except the sorted one.
-/

namespace CppMtHw.ExternalSort

open Machine Memory

variable {qsort : Qsort} {disk disk' : Disk} {mem : Memory} {fuel bufSize k : ℕ}
  {names currQueue nextQueue group : List ℕ} {data : List Data}

/-! ## Written entries -/

/-- The entries of all files that were ever created. -/
def Disk.volume (disk : Disk) : ℕ :=
  ((List.range disk.created).map fun name ↦ (disk.content name).length).sum

/-- A new file adds its entries. -/
theorem Replaced.volume (h : Replaced disk disk' group data) :
    disk'.volume = disk.volume + data.length := by
  have hold : (List.range disk.created).map (fun name ↦ (disk'.content name).length) =
      (List.range disk.created).map fun name ↦ (disk.content name).length := by
    apply List.map_congr_left
    intro name hname
    rw [h.content name (Nat.ne_of_lt (List.mem_range.mp hname))]
  unfold Disk.volume
  rw [h.created, List.range_succ, List.map_append, List.map_singleton, List.sum_append,
    List.sum_singleton, hold, h.contentNew]

theorem volume_holding (input : List Data) : (Disk.holding input).volume = input.length := by
  simp [Disk.volume, Disk.holding]

/-- What `mkstemp` and `write` leave together. -/
theorem replaced_write_new (disk : Disk) (data : List Data) :
    Replaced disk (disk.mkstemp.2.write disk.created data) [] data where
  created := rfl
  linkedNew := Function.update_self _ _ _
  contentNew := by
    rw [content_write_self]
    simp [Disk.mkstemp]
  linked name hname _ := Function.update_of_ne hname _ _
  content name hname := by
    rw [content_write hname]
    exact Function.update_of_ne hname _ _

/-- `split` writes its input once more. -/
theorem splitLoop_volume (hqsort : ∀ xs, (qsort dataLess xs).Perm xs) (hk : 0 < k) (fd : Descriptor)
    (hfd : fd.file < disk.created)
    (hsplit : splitLoop qsort k fuel disk fd ((disk.content fd.file).drop fd.offset).length names =
      some (disk', currQueue)) :
    disk'.volume = disk.volume + ((disk.content fd.file).drop fd.offset).length := by
  induction fuel generalizing disk fd names with
  | zero => cases hsplit
  | succ fuel ih =>
      set rest := (disk.content fd.file).drop fd.offset with hrest
      simp only [splitLoop] at hsplit
      by_cases hpos : 0 < rest.length
      · rw [if_pos hpos] at hsplit
        set chunkSize := if rest.length < k then rest.length else k with hchunkSize
        have hle : 0 < chunkSize ∧ chunkSize ≤ rest.length := by
          rw [hchunkSize]
          split <;> omega
        set disk₁ := disk.mkstemp.2.write disk.created
          (qsort dataLess (rest.take chunkSize)) with hdisk₁
        have hreplaced : Replaced disk disk₁ [] (qsort dataLess (rest.take chunkSize)) :=
          replaced_write_new disk _
        have hnext : (disk₁.content fd.file).drop (fd.offset + chunkSize) =
            rest.drop chunkSize := by
          rw [hreplaced.content _ (Nat.ne_of_lt hfd), hrest, List.drop_drop]
        have hlength : (rest.drop chunkSize).length = rest.length - chunkSize := List.length_drop
        have hfd₁ : fd.file < disk₁.created := Nat.lt_succ_of_lt hfd
        have hchunk : (qsort dataLess (rest.take chunkSize)).length = chunkSize := by
          rw [(hqsort _).length_eq, List.length_take]
          exact Nat.min_eq_left hle.2
        rw [usub_of_le hle.2, ← hlength, ← hnext] at hsplit
        have hvolume := ih { file := fd.file, offset := fd.offset + chunkSize } hfd₁ hsplit
        rw [hvolume, hreplaced.volume, hchunk, hnext, hlength]
        omega
      · rw [if_neg hpos] at hsplit
        obtain ⟨rfl, -⟩ := Prod.mk.inj (Option.some.inj hsplit)
        omega

/-- A level writes every entry at most once. -/
theorem levelLoop_volume {mergeFuel : ℕ} (hqueued : Queued disk (currQueue ++ nextQueue))
    (hsize : mem.size = bufSize) (hways : min maxWays currQueue.length < bufSize)
    (hentries : (currQueue.map disk.content).flatten.length < mergeFuel)
    {r : Disk × List ℕ × List ℕ × Memory}
    (hlevel : levelLoop mergeFuel bufSize fuel disk currQueue nextQueue mem = some r) :
    r.1.volume ≤ disk.volume + (currQueue.map disk.content).flatten.length := by
  induction fuel generalizing disk currQueue nextQueue mem with
  | zero => cases hlevel
  | succ fuel ih =>
      rw [levelLoop] at hlevel
      by_cases hempty : currQueue = []
      · rw [if_neg (not_not.mpr hempty)] at hlevel
        obtain rfl := Option.some.inj hlevel
        exact Nat.le_add_right _ _
      · rw [if_pos hempty] at hlevel
        have hmax : maxWays = 20 := rfl
        obtain ⟨htakeMap, hdropMap⟩ := map_content_take_drop disk currQueue maxWays
        have hsplit := length_flatten_take_drop (currQueue.map disk.content) maxWays
        rw [htakeMap, hdropMap] at hsplit
        have hgroup : ((currQueue.take maxWays).map disk.content).flatten.length < mergeFuel := by
          omega
        obtain ⟨disk₁, mem₁, hmerge, hqueued₁, hcurr₁, -, hsize₁, -⟩ :=
          merge_spec hqueued hsize hways hgroup
        have hreplaced : Replaced disk disk₁ (currQueue.take maxWays)
            (KWay.kWay dataMinValue ((currQueue.take maxWays).map disk.content)) := by
          obtain ⟨disk₂, mem₂, hmerge₂, -, hreplaced⟩ :=
            merge_replaces hqueued.front hsize hways hgroup
          obtain ⟨rfl, -⟩ := Prod.mk.inj (Option.some.inj (hmerge.symm.trans hmerge₂))
          exact hreplaced
        have hlength : (currQueue.drop maxWays).length = currQueue.length - maxWays :=
          List.length_drop
        simp only [hmerge, Option.bind_eq_bind, Option.bind_some] at hlevel
        have hrest := ih hqueued₁ (hsize₁.trans hsize) (by omega) (by rw [hcurr₁]; omega) hlevel
        have hwritten := KWay.length_kWay_le dataMinValue
          ((currQueue.take maxWays).map disk.content)
        rw [hcurr₁, hreplaced.volume] at hrest
        omega

/-! ## Levels -/

theorem length_mergeLevel_eq (files : List (List Data)) :
    (mergeLevel files).length = (files.length + maxWays - 1) / maxWays := by
  have hmax : maxWays = 20 := rfl
  fun_induction mergeLevel files with
  | case1 files h ih =>
      have hpos := List.length_pos_of_ne_nil h
      rw [List.length_cons, ih, List.length_drop, hmax]
      omega
  | case2 files h =>
      rw [not_not.mp h, hmax]
      rfl

/-- The merge stage makes as many levels as the logarithm of the number of files says, and each of
them writes every entry at most once. -/
theorem stageLoop_levels {innerFuel : ℕ} (levels : ℕ) (hqueued : Queued disk currQueue)
    (hne : currQueue ≠ []) (hsize : mem.size = bufSize)
    (hways : 1 < currQueue.length → min maxWays currQueue.length < bufSize)
    (hentries : (currQueue.map disk.content).flatten.length < innerFuel)
    (hfiles : currQueue.length < innerFuel) :
    ((∃ r, stageLoop innerFuel bufSize levels disk currQueue [] mem = some r) ↔
      Nat.clog maxWays currQueue.length < levels) ∧
    ∀ r, stageLoop innerFuel bufSize levels disk currQueue [] mem = some r →
      r.1.volume ≤ disk.volume +
        Nat.clog maxWays currQueue.length * (currQueue.map disk.content).flatten.length := by
  have hpos := List.length_pos_of_ne_nil hne
  induction levels generalizing disk currQueue mem with
  | zero =>
      constructor
      · constructor
        · rintro ⟨r, hstage⟩
          cases hstage
        · exact fun hlt ↦ absurd hlt (Nat.not_lt_zero _)
      · intro r hstage
        cases hstage
  | succ levels ih =>
      rw [stageLoop]
      by_cases hone : currQueue.length = 1
      · rw [if_neg (not_not.mpr hone), hone, Nat.clog_of_right_le_one (Nat.le_refl 1)]
        constructor
        · exact ⟨fun _ ↦ Nat.succ_pos levels, fun _ ↦ ⟨_, rfl⟩⟩
        · intro r hstage
          obtain rfl := Option.some.inj hstage
          exact Nat.le_add_right _ _
      · have hmany : 1 < currQueue.length := by omega
        have hqueued₀ : Queued disk (currQueue ++ []) := by rwa [List.append_nil]
        obtain ⟨disk₁, nextQueue, mem₁, hlevel, hqueued₁, hcontents, hsize₁⟩ :=
          levelLoop_spec hqueued₀ hsize (hways hmany) hentries hfiles
        have hvolume := levelLoop_volume hqueued₀ hsize (hways hmany) hentries hlevel
        rw [List.map_nil, List.nil_append] at hcontents
        obtain ⟨-, hfewer, hsome⟩ := length_mergeLevel (currQueue.map disk.content)
        have hcount := length_mergeLevel_eq (currQueue.map disk.content)
        rw [← hcontents, List.length_map, List.length_map] at hfewer hcount
        rw [← hcontents, ne_eq, ne_eq, List.map_eq_nil_iff, List.map_eq_nil_iff] at hsome
        have hentries₁ := length_flatten_mergeLevel_le (currQueue.map disk.content)
        rw [← hcontents] at hentries₁
        have hfewer := hfewer hmany
        have hclog : Nat.clog maxWays currQueue.length = Nat.clog maxWays nextQueue.length + 1 := by
          rw [hcount]
          exact Nat.clog_of_two_le (by decide) hmany
        obtain ⟨hends, hwritten⟩ := ih hqueued₁ (hsome hne) (hsize₁.trans hsize)
          (fun _ ↦ by have hw := hways hmany; omega) (by omega) (by omega)
          (List.length_pos_of_ne_nil (hsome hne))
        rw [if_pos hone]
        simp only [hlevel, Option.bind_eq_bind, Option.bind_some]
        rw [hclog, Nat.succ_lt_succ_iff]
        refine ⟨hends, fun r hstage ↦ ?_⟩
        calc
          r.1.volume ≤ disk₁.volume +
              Nat.clog maxWays nextQueue.length * (nextQueue.map disk₁.content).flatten.length :=
                hwritten r hstage
          _ ≤ disk.volume + (currQueue.map disk.content).flatten.length +
              Nat.clog maxWays nextQueue.length * (currQueue.map disk.content).flatten.length :=
            Nat.add_le_add hvolume (Nat.mul_le_mul_left _ hentries₁)
          _ = _ := by
            rw [Nat.succ_mul]
            omega

/-- `split` makes as many chunks as fit the input. -/
theorem length_chunks_eq (hk : 0 < k) (input : List Data) :
    (chunks k input).length = (input.length + k - 1) / k := by
  fun_induction chunks k input with
  | case1 input h ih =>
      have hpos := List.length_pos_of_ne_nil h.2
      rw [List.length_cons, ih, List.length_drop]
      by_cases hle : k ≤ input.length
      · have hnext : input.length + k - 1 = input.length - k + k - 1 + k := by omega
        rw [hnext, Nat.add_div_right _ hk]
      · have hlast : input.length - k + k - 1 = k - 1 := by omega
        have hfirst : input.length + k - 1 = input.length - 1 + k := by omega
        rw [hlast, hfirst, Nat.add_div_right _ hk, Nat.div_eq_of_lt (by omega),
          Nat.div_eq_of_lt (by omega)]
  | case2 input h =>
      have hempty : input = [] := by
        by_contra hne
        exact h ⟨hk, hne⟩
      have hnone : ([] : List Data).length + k - 1 < k := by
        rw [List.length_nil]
        omega
      rw [hempty, Nat.div_eq_of_lt hnone]
      rfl

/-- The number of levels is the logarithm, rounded up, of the number of memory loads in the input;
and the files of a run, the input among them, together have at most as many entries as the input has
for itself, for the chunks and for every level. -/
theorem merge_stage_levels (hqsort : ∀ xs, (qsort dataLess xs).Perm xs) {input : List Data}
    (hne : input ≠ []) {nbytes : ℕ} (hways : OneEntryPerWay input nbytes)
    (hfuel : input.length < fuel) (hmem : mem.size = nbytes / 4) :
    ∃ disk names, split qsort fuel (Disk.holding input) 0 [] nbytes = some (disk, names) ∧
      names.length = (input.length + nbytes / 4 - 1) / (nbytes / 4) ∧
      ∀ levels, ((∃ r, stageLoop fuel (nbytes / 4) levels disk names [] mem = some r) ↔
          Nat.clog maxWays names.length < levels) ∧
        ∀ r, stageLoop fuel (nbytes / 4) levels disk names [] mem = some r →
          r.1.volume ≤ (Nat.clog maxWays names.length + 2) * input.length := by
  obtain ⟨hk, hslices⟩ := hways
  obtain ⟨disk, names, hsplit, hqueued, -, hlength, hentries⟩ := split_spec hqsort hk hfuel
  have hvolume : disk.volume = 2 * input.length := by
    have hstat : (Disk.holding input).stat 0 = some input.length := rfl
    have hopen : (Disk.holding input).openFile 0 = some { file := 0, offset := 0 } := rfl
    have hinput : ((Disk.holding input).content 0).drop 0 = input := rfl
    have hold : 0 < (Disk.holding input).created := Nat.one_pos
    have hloop := hsplit
    simp only [split, hstat, hopen, Option.bind_eq_bind, Option.bind_some] at hloop
    have hwritten := splitLoop_volume hqsort hk { file := 0, offset := 0 } hold hloop
    simp only [hinput, volume_holding] at hwritten
    omega
  obtain ⟨hle, hsome⟩ := length_chunks_le hk input
  have hpos := List.length_pos_of_ne_nil (hsome hne)
  have hnames : names ≠ [] := List.ne_nil_of_length_pos (hlength ▸ hpos)
  have hroom : 1 < names.length → min maxWays names.length < nbytes / 4 := by
    intro hmany
    rw [hlength] at hmany ⊢
    exact (Nat.div_pos_iff.mp (hslices hmany)).2
  refine ⟨disk, names, hsplit, hlength.trans (length_chunks_eq hk input), fun levels ↦ ?_⟩
  obtain ⟨hends, hwritten⟩ := stageLoop_levels levels hqueued hnames hmem hroom
    (hentries ▸ hfuel) (by omega)
  refine ⟨hends, fun r hstage ↦ ?_⟩
  have hr := hwritten r hstage
  rw [hentries, hvolume] at hr
  rw [Nat.add_mul]
  omega

/-- Two chunks take one level, and the files have at most three times the four entries. -/
theorem merge_stage_levels_two_chunks : ∃ disk names,
    split mergeSortBy 5 (Disk.holding [3, 1, 4, 2]) 0 [] 12 = some (disk, names) ∧
      names.length = 2 ∧
      ∀ levels, ((∃ r, stageLoop 5 3 levels disk names [] { entry := fun _ ↦ 0, size := 3 } =
        some r) ↔ 1 < levels) ∧
        ∀ r, stageLoop 5 3 levels disk names [] { entry := fun _ ↦ 0, size := 3 } = some r →
          r.1.volume ≤ 3 * 4 := by
  have hqsort : ∀ xs, (mergeSortBy dataLess xs).Perm xs := fun xs ↦ List.mergeSort_perm xs _
  obtain ⟨disk, names, hsplit, hlength, hlevels⟩ :=
    merge_stage_levels hqsort (by simp) oneEntryPerWay_two_chunks
      (show ([3, 1, 4, 2] : List Data).length < 5 by decide)
      (show ({ entry := fun _ ↦ 0, size := 3 } : Memory).size = 12 / 4 by decide)
  have htwo : names.length = 2 := hlength
  have hlog : Nat.clog maxWays names.length = 1 := by
    rw [htwo]
    exact Nat.clog_eq_one (Nat.le_refl 2) (by decide)
  rw [hlog] at hlevels
  exact ⟨disk, names, hsplit, htwo, hlevels⟩

end CppMtHw.ExternalSort
