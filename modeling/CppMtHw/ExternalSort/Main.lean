import CppMtHw.ExternalSort.Merge

/-!
# Splitting and merging

`split` and the two stages of `main` of `hw03/main.cpp`. `qsort` and the initial
contents of the shared buffer are parameters. The loops carry fuel, which runs out only
where the program does not end; with enough of it the stages compute what `chunks`,
`mergeLevel` and `mergeLevels` say about the entries themselves.
-/

namespace CppMtHw.ExternalSort

open Machine Memory

def dataLess (a b : Data) : ℤ := if a < b then 1 else 0

/-- The type of `qsort`, which is given the comparison function and the array. -/
abbrev Qsort := (Data → Data → ℤ) → List Data → List Data

/-- The directory with the unsorted file as its only file. -/
def Disk.holding (input : List Data) : Disk where
  content _ := input
  linked name := name = 0
  created := 1

section Program

variable (qsort : Qsort)

/-- The loop of `split` over the chunks of `k` entries. -/
def splitLoop (k : ℕ) : ℕ → Disk → Descriptor → ℕ → List ℕ → Option (Disk × List ℕ)
  | 0, _, _, _, _ => none
  | fuel + 1, disk, inpFd, n, chunksFilenames =>
      if 0 < n then
        let chunkSize := if n < k then n else k
        let n := usub n chunkSize
        let (buf, inpFd) := disk.read inpFd chunkSize
        let buf := qsort dataLess buf
        let (tmpName, disk) := disk.mkstemp
        let disk := disk.write tmpName buf
        splitLoop k fuel disk inpFd n (chunksFilenames ++ [tmpName])
      else
        some (disk, chunksFilenames)

def split (fuel : ℕ) (disk : Disk) (unsortedFile : ℕ) (chunksFilenames : List ℕ) (nbytes : ℕ) :
    Option (Disk × List ℕ) := do
  let n ← disk.stat unsortedFile
  let k := nbytes / 4
  let inpFd ← disk.openFile unsortedFile
  splitLoop qsort k fuel disk inpFd n chunksFilenames

/-- One level of the merge stage: merge until `curr_queue` is empty. -/
def levelLoop (mergeFuel bufSize : ℕ) : ℕ → Disk → List ℕ → List ℕ → Memory →
    Option (Disk × List ℕ × List ℕ × Memory)
  | 0, _, _, _, _ => none
  | fuel + 1, disk, currQueue, nextQueue, mem =>
      if currQueue ≠ [] then do
        let (disk, currQueue, nextQueue, mem) ←
          merge mergeFuel disk currQueue nextQueue mem bufSize
        levelLoop mergeFuel bufSize fuel disk currQueue nextQueue mem
      else
        some (disk, currQueue, nextQueue, mem)

/-- The merge stage: levels until one file is left; after each the queues are swapped. -/
def stageLoop (innerFuel bufSize : ℕ) : ℕ → Disk → List ℕ → List ℕ → Memory →
    Option (Disk × List ℕ × List ℕ × Memory)
  | 0, _, _, _, _ => none
  | fuel + 1, disk, currQueue, nextQueue, mem =>
      if currQueue.length ≠ 1 then do
        let (disk, currQueue, nextQueue, mem) ←
          levelLoop innerFuel bufSize innerFuel disk currQueue nextQueue mem
        stageLoop innerFuel bufSize fuel disk nextQueue currQueue mem
      else
        some (disk, currQueue, nextQueue, mem)

/-- The body of `main` for a memory of `nbytes` bytes: the content of the file that is moved to the
name of the sorted one. `fresh` is what the new buffer happens to contain. -/
def externalSort (fresh : ℕ → Data) (fuel : ℕ) (disk : Disk) (unsortedFile nbytes : ℕ) :
    Option (List Data) := do
  let (disk, currQueue) ← split qsort fuel disk unsortedFile [] nbytes
  let bufSize := nbytes / 4
  let (disk, currQueue, _, _) ←
    stageLoop fuel bufSize fuel disk currQueue [] { entry := fresh, size := bufSize }
  let front ← currQueue.head?
  if disk.linked front then some (disk.content front) else none

/-- `main` with a memory of `mb` megabytes. -/
def main (fresh : ℕ → Data) (fuel : ℕ) (disk : Disk) (unsortedFile mb : ℕ) : Option (List Data) :=
  externalSort qsort fresh fuel disk unsortedFile (mb * 1024 * 1024)

end Program

/-! ## The stages on the entries -/

/-- Consecutive runs of `k` entries, the last one possibly shorter. -/
def chunks (k : ℕ) (input : List Data) : List (List Data) :=
  if 0 < k ∧ input ≠ [] then input.take k :: chunks k (input.drop k) else []
termination_by input.length
decreasing_by
  rename_i h
  have hpos := List.length_pos_of_ne_nil h.2
  rw [List.length_drop]
  omega

/-- The files after one level: each group of at most `maxWays` files becomes one. -/
def mergeLevel (files : List (List Data)) : List (List Data) :=
  if files ≠ [] then
    KWay.kWay dataMinValue (files.take maxWays) :: mergeLevel (files.drop maxWays)
  else []
termination_by files.length
decreasing_by
  rename_i h
  have hpos := List.length_pos_of_ne_nil h
  rw [List.length_drop, maxWays]
  omega

theorem mergeLevel_nil : mergeLevel [] = [] := by
  rw [mergeLevel]
  simp

theorem mergeLevel_of_ne_nil {files : List (List Data)} (h : files ≠ []) : mergeLevel files =
    KWay.kWay dataMinValue (files.take maxWays) :: mergeLevel (files.drop maxWays) := by
  rw [mergeLevel, if_pos h]

/-- A level leaves fewer files, as long as there is more than one. -/
theorem length_mergeLevel (files : List (List Data)) :
    (mergeLevel files).length ≤ files.length ∧
    (1 < files.length → (mergeLevel files).length < files.length) ∧
    (files ≠ [] → mergeLevel files ≠ []) := by
  fun_induction mergeLevel files with
  | case1 files h ih =>
      have hpos := List.length_pos_of_ne_nil h
      have hmax : maxWays = 20 := rfl
      rw [List.length_drop] at ih
      rw [List.length_cons]
      refine ⟨by omega, fun hmany ↦ by omega, fun _ ↦ by simp⟩
  | case2 files h => simp_all

/-- The file that is left after the last level, if there was any. -/
def mergeLevels (files : List (List Data)) : List (List Data) :=
  if 1 < files.length then mergeLevels (mergeLevel files) else files
termination_by files.length
decreasing_by exact (length_mergeLevel files).2.1 (by assumption)

theorem chunks_of_ne_nil {k : ℕ} (hk : 0 < k) {input : List Data} (h : input ≠ []) :
    chunks k input = input.take k :: chunks k (input.drop k) := by
  rw [chunks, if_pos ⟨hk, h⟩]

theorem chunks_nil (k : ℕ) : chunks k [] = [] := by
  rw [chunks]
  simp

theorem mergeLevels_of_one_lt {files : List (List Data)} (h : 1 < files.length) :
    mergeLevels files = mergeLevels (mergeLevel files) := by
  rw [mergeLevels, if_pos h]

theorem mergeLevels_of_le_one {files : List (List Data)} (h : files.length ≤ 1) :
    mergeLevels files = files := by
  rw [mergeLevels, if_neg (by omega)]

theorem length_flatten_take_drop (files : List (List Data)) (count : ℕ) :
    (files.take count).flatten.length + (files.drop count).flatten.length =
      files.flatten.length := by
  rw [← List.length_append, ← List.flatten_append, List.take_append_drop]

/-- A level adds no entries. -/
theorem length_flatten_mergeLevel_le (files : List (List Data)) :
    (mergeLevel files).flatten.length ≤ files.flatten.length := by
  fun_induction mergeLevel files with
  | case1 files h ih =>
      have hgroup := KWay.length_kWay_le dataMinValue (files.take maxWays)
      have hsplit := length_flatten_take_drop files maxWays
      rw [List.flatten_cons, List.length_append]
      omega
  | case2 files h => simp

/-! ## The program computes the stages -/

variable {qsort : Qsort} {disk : Disk} {mem : Memory} {fuel bufSize k : ℕ}
  {names currQueue nextQueue : List ℕ}

/-- A new file with the given content at the end of a queue. -/
theorem Queued.write_new (h : Queued disk names) (data : List Data) :
    Queued (disk.mkstemp.2.write disk.created data) (names ++ [disk.created]) ∧
    (names ++ [disk.created]).map (disk.mkstemp.2.write disk.created data).content =
      names.map disk.content ++ [data] ∧
    ∀ name, name < disk.created →
      (disk.mkstemp.2.write disk.created data).content name = disk.content name := by
  have hreplaced : Replaced disk (disk.mkstemp.2.write disk.created data) [] data :=
    { created := rfl
      linkedNew := Function.update_self _ _ _
      contentNew := by
        rw [content_write_self]
        simp [Disk.mkstemp]
      linked := fun name hname _ ↦ Function.update_of_ne hname _ _
      content := fun name hname ↦ by
        rw [content_write hname]
        exact Function.update_of_ne hname _ _ }
  refine ⟨?_, hreplaced.map_content_new h.old, fun name hname ↦ ?_⟩
  · rw [← List.nil_append names] at h
    exact h.replace hreplaced
  · exact hreplaced.content name (Nat.ne_of_lt hname)

/-- `split` leaves the chunks of the input, each as `qsort` leaves it. -/
theorem splitLoop_spec (qsort : Qsort) (hk : 0 < k) (disk : Disk) (fd : Descriptor)
    (hfd : fd.file < disk.created) (hqueued : Queued disk names)
    (hfuel : ((disk.content fd.file).drop fd.offset).length < fuel) :
    ∃ disk' names', splitLoop qsort k fuel disk fd
        ((disk.content fd.file).drop fd.offset).length names = some (disk', names') ∧
      Queued disk' names' ∧ names'.map disk'.content = names.map disk.content ++
        (chunks k ((disk.content fd.file).drop fd.offset)).map (qsort dataLess) := by
  induction fuel generalizing disk fd names with
  | zero => cases hfuel
  | succ fuel ih =>
      set rest := (disk.content fd.file).drop fd.offset with hrest
      by_cases hempty : rest = []
      · refine ⟨disk, names, ?_, hqueued, ?_⟩
        · simp [splitLoop, hempty]
        · rw [hempty, chunks_nil, List.map_nil, List.append_nil]
      · have hpos := List.length_pos_of_ne_nil hempty
        set chunkSize := if rest.length < k then rest.length else k with hchunkSize
        have hchunkSize' : chunkSize = min k rest.length := by
          rw [hchunkSize]
          split <;> omega
        obtain ⟨hqueued', hmap, hold⟩ := hqueued.write_new (qsort dataLess (rest.take chunkSize))
        set disk₁ := disk.mkstemp.2.write disk.created (qsort dataLess (rest.take chunkSize))
          with hdisk₁
        have hnext : (disk₁.content fd.file).drop (fd.offset + chunkSize) =
            rest.drop chunkSize := by
          rw [hold _ hfd, hrest, List.drop_drop]
        have htake : rest.take chunkSize = rest.take k := by
          rw [hchunkSize', ← List.take_eq_take_min]
        have hdrop : rest.drop chunkSize = rest.drop k := by
          rw [hchunkSize', ← List.drop_eq_drop_min]
        have hlength : (rest.drop chunkSize).length = rest.length - chunkSize := List.length_drop
        obtain ⟨disk', names', hloop, hqueued'', hcontents⟩ :=
          ih disk₁ { file := fd.file, offset := fd.offset + chunkSize } (Nat.lt_succ_of_lt hfd)
            hqueued' (by rw [hnext, hlength]; omega)
        refine ⟨disk', names', ?_, hqueued'', ?_⟩
        · simp only [hnext, hlength] at hloop
          simp only [splitLoop, if_pos hpos, ← hchunkSize, Disk.read, ← hrest]
          rw [usub_of_le (by omega)]
          exact hloop
        · rw [hcontents, hmap, hnext, chunks_of_ne_nil hk hempty, htake, hdrop, List.map_cons,
            List.append_assoc, List.singleton_append]

theorem map_content_take_drop (disk : Disk) (names : List ℕ) (count : ℕ) :
    (names.map disk.content).take count = (names.take count).map disk.content ∧
    (names.map disk.content).drop count = (names.drop count).map disk.content :=
  ⟨List.map_take.symm, List.map_drop.symm⟩

/-- A level leaves in the next queue what `mergeLevel` makes of the current one. -/
theorem levelLoop_spec {mergeFuel : ℕ} (hqueued : Queued disk (currQueue ++ nextQueue))
    (hsize : mem.size = bufSize) (hways : min maxWays currQueue.length < bufSize)
    (hentries : (currQueue.map disk.content).flatten.length < mergeFuel)
    (hfuel : currQueue.length < fuel) :
    ∃ disk' nextQueue' mem', levelLoop mergeFuel bufSize fuel disk currQueue nextQueue mem =
        some (disk', [], nextQueue', mem') ∧ Queued disk' nextQueue' ∧
      nextQueue'.map disk'.content =
        nextQueue.map disk.content ++ mergeLevel (currQueue.map disk.content) ∧
      mem'.size = mem.size := by
  induction fuel generalizing disk currQueue nextQueue mem with
  | zero => cases hfuel
  | succ fuel ih =>
      by_cases hempty : currQueue = []
      · refine ⟨disk, nextQueue, mem, ?_, by simpa [hempty] using hqueued, ?_, rfl⟩
        · simp [levelLoop, hempty]
        · rw [hempty, List.map_nil, mergeLevel_nil, List.append_nil]
      · have hpos := List.length_pos_of_ne_nil hempty
        have hmax : maxWays = 20 := rfl
        obtain ⟨htakeMap, hdropMap⟩ := map_content_take_drop disk currQueue maxWays
        have hsplit := length_flatten_take_drop (currQueue.map disk.content) maxWays
        rw [htakeMap, hdropMap] at hsplit
        have hfiles : currQueue.map disk.content ≠ [] := by simpa using hempty
        have hgroup : ((currQueue.take maxWays).map disk.content).flatten.length < mergeFuel := by
          omega
        obtain ⟨disk₁, mem₁, hmerge, hqueued₁, hcurr₁, hnext₁, hsize₁, -⟩ :=
          merge_spec hqueued hsize hways hgroup
        have hlength : (currQueue.drop maxWays).length = currQueue.length - maxWays :=
          List.length_drop
        obtain ⟨disk', nextQueue', mem', hloop, hqueued', hcontents, hsize'⟩ :=
          ih hqueued₁ (hsize₁.trans hsize) (by omega) (by rw [hcurr₁]; omega) (by omega)
        refine ⟨disk', nextQueue', mem', ?_, hqueued', ?_, hsize'.trans hsize₁⟩
        · simp only [levelLoop, ne_eq, hempty, not_false_eq_true, if_true, Option.bind_eq_bind,
            hmerge, Option.bind_some, hloop]
        · rw [hcontents, hcurr₁, hnext₁, List.append_assoc, List.singleton_append,
            mergeLevel_of_ne_nil hfiles, htakeMap, hdropMap]

/-- The merge stage ends with one file, the one `mergeLevels` is left with. -/
theorem stageLoop_spec {innerFuel : ℕ} (hqueued : Queued disk currQueue) (hne : currQueue ≠ [])
    (hsize : mem.size = bufSize)
    (hways : 1 < currQueue.length → min maxWays currQueue.length < bufSize)
    (hentries : (currQueue.map disk.content).flatten.length < innerFuel)
    (hfiles : currQueue.length < innerFuel) (hfuel : currQueue.length ≤ fuel) :
    ∃ disk' name mem', stageLoop innerFuel bufSize fuel disk currQueue [] mem =
        some (disk', [name], [], mem') ∧ disk'.linked name = true ∧
      mergeLevels (currQueue.map disk.content) = [disk'.content name] := by
  have hpos := List.length_pos_of_ne_nil hne
  induction fuel generalizing disk currQueue mem with
  | zero => omega
  | succ fuel ih =>
      by_cases hone : currQueue.length = 1
      · obtain ⟨name, rfl⟩ := List.length_eq_one_iff.mp hone
        refine ⟨disk, name, mem, ?_, hqueued.linked name List.mem_cons_self, ?_⟩
        · simp [stageLoop]
        · exact mergeLevels_of_le_one (by simp)
      · have hmany : 1 < currQueue.length := by omega
        have hqueued₀ : Queued disk (currQueue ++ []) := by rwa [List.append_nil]
        obtain ⟨disk₁, nextQueue, mem₁, hlevel, hqueued₁, hcontents, hsize₁⟩ :=
          levelLoop_spec hqueued₀ hsize (hways hmany) hentries hfiles
        rw [List.map_nil, List.nil_append] at hcontents
        obtain ⟨-, hfewer, hsome⟩ := length_mergeLevel (currQueue.map disk.content)
        rw [← hcontents, List.length_map, List.length_map] at hfewer
        rw [← hcontents, ne_eq, ne_eq, List.map_eq_nil_iff, List.map_eq_nil_iff] at hsome
        have hentries₁ := length_flatten_mergeLevel_le (currQueue.map disk.content)
        rw [← hcontents] at hentries₁
        have hfewer := hfewer hmany
        obtain ⟨disk', name, mem', hstage, hlinked, hresult⟩ :=
          ih hqueued₁ (hsome hne) (hsize₁.trans hsize)
            (fun _ ↦ by have hw := hways hmany; omega) (by omega) (by omega) (by omega)
            (List.length_pos_of_ne_nil (hsome hne))
        refine ⟨disk', name, mem', ?_, hlinked, ?_⟩
        · simp only [stageLoop, ne_eq, hone, not_false_eq_true, if_true, Option.bind_eq_bind,
            hlevel, Option.bind_some, hstage]
        · rw [mergeLevels_of_one_lt (by simpa using hmany), ← hcontents, hresult]

theorem length_chunks_le (hk : 0 < k) (input : List Data) :
    (chunks k input).length ≤ input.length ∧ (input ≠ [] → chunks k input ≠ []) := by
  fun_induction chunks k input with
  | case1 input h ih =>
      have hpos := List.length_pos_of_ne_nil h.2
      rw [List.length_drop] at ih
      rw [List.length_cons]
      exact ⟨by omega, fun _ ↦ by simp⟩
  | case2 input h => simp_all

theorem flatten_chunks (hk : 0 < k) (input : List Data) : (chunks k input).flatten = input := by
  fun_induction chunks k input with
  | case1 input h ih => rw [List.flatten_cons, ih, List.take_append_drop]
  | case2 input h => simp_all

/-- Some chunk is followed by another one exactly when the input does not fit into the memory. -/
theorem one_lt_length_chunks (hk : 0 < k) {input : List Data} (hne : input ≠ []) :
    1 < (chunks k input).length ↔ k < input.length := by
  rw [chunks_of_ne_nil hk hne, List.length_cons, Nat.lt_add_left_iff_pos]
  constructor
  · intro hpos
    by_contra hle
    rw [List.drop_of_length_le (by omega), chunks_nil] at hpos
    exact Nat.lt_irrefl 0 hpos
  · intro hlt
    have hrest : input.drop k ≠ [] := by
      rw [← List.length_pos_iff, List.length_drop]
      omega
    exact List.length_pos_of_ne_nil ((length_chunks_le hk _).2 hrest)

/-- Every way has at least one entry: the chunks do, and so do the slices of the first merge, if
there is one. Later merges have no more ways. -/
def OneEntryPerWay (input : List Data) (nbytes : ℕ) : Prop :=
  0 < nbytes / 4 ∧ (1 < (chunks (nbytes / 4) input).length →
    0 < nbytes / 4 / (min maxWays (chunks (nbytes / 4) input).length + 1))

/-- A memory of a megabyte or more has enough entries for every way. -/
theorem oneEntryPerWay_megabytes (input : List Data) {mb : ℕ} (hmb : 0 < mb) :
    OneEntryPerWay input (mb * 1024 * 1024) := by
  have hentries : mb * 1024 * 1024 / 4 = mb * 262144 := by omega
  have hgroup : min maxWays (chunks (mb * 1024 * 1024 / 4) input).length ≤ 20 :=
    Nat.min_le_left _ _
  exact ⟨by omega, fun _ ↦ Nat.div_pos (by omega) (Nat.succ_pos _)⟩

/-- With enough fuel `split` leaves the chunks, each as `qsort` leaves it. -/
theorem split_spec (hqsort : ∀ xs, (qsort dataLess xs).Perm xs) {input : List Data} {nbytes : ℕ}
    (hk : 0 < nbytes / 4) (hfuel : input.length < fuel) :
    ∃ disk names, split qsort fuel (Disk.holding input) 0 [] nbytes = some (disk, names) ∧
      Queued disk names ∧ names.map disk.content = (chunks (nbytes / 4) input).map
        (qsort dataLess) ∧
      names.length = (chunks (nbytes / 4) input).length ∧
      (names.map disk.content).flatten.length = input.length := by
  have hnone : Queued (Disk.holding input) [] := ⟨nofun, nofun, List.nodup_nil⟩
  have hold : 0 < (Disk.holding input).created := Nat.one_pos
  obtain ⟨disk, names, hsplit, hqueued, hcontents⟩ :=
    splitLoop_spec qsort hk (Disk.holding input) { file := 0, offset := 0 } hold hnone hfuel
  have hinput : ((Disk.holding input).content 0).drop 0 = input := rfl
  simp only [hinput] at hsplit hcontents
  rw [List.map_nil, List.nil_append] at hcontents
  have hlength := congrArg List.length hcontents
  rw [List.length_map, List.length_map] at hlength
  have hstat : (Disk.holding input).stat 0 = some input.length := rfl
  have hopen : (Disk.holding input).openFile 0 = some { file := 0, offset := 0 } := rfl
  refine ⟨disk, names, ?_, hqueued, hcontents, hlength, ?_⟩
  · simp only [split, hstat, hopen, Option.bind_eq_bind, Option.bind_some, hsplit]
  · calc
      (names.map disk.content).flatten.length =
          (((chunks (nbytes / 4) input).map (qsort dataLess)).map List.length).sum := by
        rw [hcontents, List.length_flatten]
      _ = ((chunks (nbytes / 4) input).map List.length).sum := by
        rw [List.map_map]
        congr 1
        apply List.map_congr_left
        exact fun chunk _ ↦ (hqsort chunk).length_eq
      _ = input.length := by
        rw [← List.length_flatten, flatten_chunks hk input]

/-- With enough fuel the merge stage ends, from what `split` leaves of an input that is not
empty. -/
theorem stage_spec {input : List Data} (hne : input ≠ []) {nbytes : ℕ}
    (hways : OneEntryPerWay input nbytes) {names : List ℕ} (hqueued : Queued disk names)
    (hlength : names.length = (chunks (nbytes / 4) input).length)
    (hentries : (names.map disk.content).flatten.length = input.length)
    (hmem : mem.size = nbytes / 4) (hfuel : input.length < fuel) :
    ∃ disk' name mem', stageLoop fuel (nbytes / 4) fuel disk names [] mem =
      some (disk', [name], [], mem') ∧
      disk'.linked name = true ∧ mergeLevels (names.map disk.content) = [disk'.content name] := by
  obtain ⟨hk, hslices⟩ := hways
  obtain ⟨hle, hsome⟩ := length_chunks_le hk input
  have hpos := List.length_pos_of_ne_nil (hsome hne)
  have hnames : names ≠ [] := List.ne_nil_of_length_pos (hlength ▸ hpos)
  have hsize : min maxWays names.length < nbytes / 4 ∨ ¬1 < names.length := by
    by_cases hmany : 1 < names.length
    · rw [hlength] at hmany ⊢
      exact Or.inl (Nat.div_pos_iff.mp (hslices hmany)).2
    · exact Or.inr hmany
  have hentriesFuel : (names.map disk.content).flatten.length < fuel := hentries ▸ hfuel
  have hfilesFuel : names.length < fuel := by omega
  exact stageLoop_spec hqueued hnames hmem (fun hmany ↦ hsize.resolve_right (not_not.mpr hmany))
    hentriesFuel hfilesFuel (Nat.le_of_lt hfilesFuel)

/-- With enough fuel the program ends and leaves the file that is left after the last level. -/
theorem externalSort_spec (hqsort : ∀ xs, (qsort dataLess xs).Perm xs) (fresh : ℕ → Data)
    {input : List Data} (hne : input ≠ []) {nbytes : ℕ} (hways : OneEntryPerWay input nbytes)
    (hfuel : input.length < fuel) :
    ∃ result, externalSort qsort fresh fuel (Disk.holding input) 0 nbytes = some result ∧
      mergeLevels ((chunks (nbytes / 4) input).map (qsort dataLess)) = [result] := by
  obtain ⟨disk₁, names, hsplit, hqueued, hcontents, hlength, hentries⟩ :=
    split_spec hqsort hways.1 hfuel
  have hmem : ({ entry := fresh, size := nbytes / 4 } : Memory).size = nbytes / 4 := rfl
  obtain ⟨disk₂, name, mem, hstage, hlinked, hresult⟩ :=
    stage_spec hne hways hqueued hlength hentries hmem hfuel
  refine ⟨disk₂.content name, ?_, by rw [← hcontents, hresult]⟩
  simp only [externalSort, Option.bind_eq_bind, Option.bind_some, hsplit, hstage, List.head?_cons,
    hlinked, if_true]

end CppMtHw.ExternalSort
