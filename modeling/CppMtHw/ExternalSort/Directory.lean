import CppMtHw.ExternalSort.Ordering

/-!
# The temporary files

Which names the directory has while the external sort runs: the input, and the files in
the two queues. The names of the files that are merged are removed with the input ways,
so at the end only the input and the sorted file are left, whatever `qsort` does and
however small the memory is.
-/

namespace CppMtHw.ExternalSort

open Machine Memory

variable {qsort : Qsort} {disk disk' : Disk} {mem mem' : Memory} {ways ways' : List InputWay}
  {way way' : InputWay} {out out' : OutputWay} {fuel bufSize waySize k n i name : ℕ}
  {names inputs inputs' outputs outputs' : List ℕ} {x : Data}

/-! ## What a merge does to the directory -/

/-- Opening the ways removes the names of their files. -/
theorem openWays_linked (h : openWays disk waySize i inputs = some (disk', ways)) :
    ways.map InputWay.filename = inputs ∧ disk'.created = disk.created ∧
      ∀ name, disk'.linked name = if name ∈ inputs then false else disk.linked name := by
  induction inputs generalizing i disk ways with
  | nil =>
      obtain ⟨rfl, rfl⟩ := Prod.mk.inj (Option.some.inj h)
      exact ⟨rfl, rfl, fun _ ↦ rfl⟩
  | cons input inputs ih =>
      rw [openWays] at h
      simp only [Option.bind_eq_bind, Option.bind_eq_some_iff] at h
      obtain ⟨temporary, hnew, ⟨disk₁, ways₁⟩, hopen, hways⟩ := h
      obtain ⟨rfl, rfl⟩ := Prod.mk.inj (Option.some.inj hways)
      have hname : temporary.filename = input := by
        simp only [InputWay.new, Option.bind_eq_bind, Option.bind_eq_some_iff] at hnew
        obtain ⟨remain, -, fd, -, hway⟩ := hnew
        rw [← Option.some.inj hway]
      obtain ⟨hnames, hcreated, hlinked⟩ := ih hopen
      refine ⟨?_, hcreated, fun name ↦ ?_⟩
      · rw [List.map_cons, hnames]
        exact congrArg (· :: inputs) hname
      · rw [hlinked, destroy_linked]
        have hmoved : temporary.move.2.filename = input := hname
        rw [hmoved]
        simp only [List.mem_cons]
        split <;> split <;> simp_all

theorem loadChunk_filename (h : way.loadChunk disk mem = some (mem', way')) :
    way'.filename = way.filename := by
  unfold InputWay.loadChunk at h
  split at h
  · obtain ⟨-, rfl⟩ := Prod.mk.inj (Option.some.inj h)
    rfl
  · simp only [Option.bind_eq_bind, Option.bind_eq_some_iff] at h
    obtain ⟨fd, -, buf, -, mem₁, -, hway⟩ := h
    obtain ⟨-, rfl⟩ := Prod.mk.inj (Option.some.inj hway)
    rfl

theorem top_filename (h : way.top disk mem = some (x, mem', way')) :
    way'.filename = way.filename := by
  unfold InputWay.top at h
  split at h
  · obtain ⟨-, hway⟩ := Prod.mk.inj (Option.some.inj h)
    rw [← (Prod.mk.inj hway).2]
  · split at h
    · simp only [Option.bind_eq_bind, Option.bind_eq_some_iff] at h
      obtain ⟨⟨mem₁, way₁⟩, hload, buf, -, number, -, hway⟩ := h
      obtain ⟨-, hway⟩ := Prod.mk.inj (Option.some.inj hway)
      obtain ⟨-, rfl⟩ := Prod.mk.inj hway
      have hname : way₁.filename = way.filename := loadChunk_filename hload
      exact hname
    · simp only [Option.bind_eq_bind, Option.bind_eq_some_iff] at h
      obtain ⟨⟨mem₁, way₁⟩, hload, buf, -, number, -, hway⟩ := h
      obtain ⟨-, hway⟩ := Prod.mk.inj (Option.some.inj hway)
      rw [← (Prod.mk.inj hway).2, ← (Prod.mk.inj (Option.some.inj hload)).2]

theorem get_filename (h : way.get disk mem = some (x, mem', way')) :
    way'.filename = way.filename := by
  simp only [InputWay.get, Option.bind_eq_bind, Option.bind_eq_some_iff] at h
  obtain ⟨⟨y, mem₁, way₁⟩, htop, hway⟩ := h
  obtain ⟨-, hway⟩ := Prod.mk.inj (Option.some.inj hway)
  obtain ⟨-, rfl⟩ := Prod.mk.inj hway
  have hname : way₁.filename = way.filename := top_filename htop
  exact hname

theorem scan_filename {max : Data} {maxWay maxWay' : Option ℕ}
    (h : scan disk mem ways i max maxWay = some (mem', ways', maxWay')) :
    ways'.map InputWay.filename = ways.map InputWay.filename := by
  induction ways generalizing mem i max maxWay mem' ways' maxWay' with
  | nil =>
      obtain ⟨-, hways⟩ := Prod.mk.inj (Option.some.inj h)
      rw [← (Prod.mk.inj hways).1]
  | cons way ways ih =>
      simp only [scan, Option.bind_eq_bind, Option.bind_eq_some_iff] at h
      obtain ⟨⟨xi, mem₁, way₁⟩, htop, h⟩ := h
      have hname : way₁.filename = way.filename := top_filename htop
      have hgoOn : ∃ max₁ best mem₂ ways₂ maxWay₂, scan disk mem₁ ways (i + 1) max₁ best =
          some (mem₂, ways₂, maxWay₂) ∧ ways' = way₁ :: ways₂ := by
        split at h
        · obtain ⟨⟨mem₂, ways₂, maxWay₂⟩, hscan, hways⟩ := Option.bind_eq_some_iff.mp h
          obtain ⟨-, hways⟩ := Prod.mk.inj (Option.some.inj hways)
          exact ⟨_, _, mem₂, ways₂, maxWay₂, hscan, (Prod.mk.inj hways).1.symm⟩
        · obtain ⟨⟨mem₂, ways₂, maxWay₂⟩, hscan, hways⟩ := Option.bind_eq_some_iff.mp h
          obtain ⟨-, hways⟩ := Prod.mk.inj (Option.some.inj hways)
          exact ⟨_, _, mem₂, ways₂, maxWay₂, hscan, (Prod.mk.inj hways).1.symm⟩
      obtain ⟨max₁, best, mem₂, ways₂, maxWay₂, hscan, rfl⟩ := hgoOn
      rw [List.map_cons, List.map_cons, ih hscan, hname]

theorem put_linked (h : out.put disk mem x = some (disk', mem', out')) :
    disk'.linked = disk.linked ∧ disk'.created = disk.created ∧ out'.fileName = out.fileName := by
  simp only [OutputWay.put, Option.bind_eq_bind, Option.bind_eq_some_iff] at h
  obtain ⟨mem₁, -, h⟩ := h
  split at h
  · simp only [Option.bind_eq_some_iff] at h
    obtain ⟨chunk, -, h⟩ := h
    obtain ⟨rfl, hout⟩ := Prod.mk.inj (Option.some.inj h)
    obtain ⟨-, rfl⟩ := Prod.mk.inj hout
    exact ⟨rfl, rfl, rfl⟩
  · obtain ⟨rfl, hout⟩ := Prod.mk.inj (Option.some.inj h)
    obtain ⟨-, rfl⟩ := Prod.mk.inj hout
    exact ⟨rfl, rfl, rfl⟩

/-- The loop reads and writes files that are open. -/
theorem mergeLoop_linked (h : mergeLoop fuel disk mem ways out = some (disk', mem', ways', out')) :
    disk'.linked = disk.linked ∧ disk'.created = disk.created ∧ out'.fileName = out.fileName ∧
      ways'.map InputWay.filename = ways.map InputWay.filename := by
  induction fuel generalizing disk mem ways out with
  | zero => cases h
  | succ fuel ih =>
      simp only [mergeLoop, Option.bind_eq_bind, Option.bind_eq_some_iff] at h
      obtain ⟨⟨mem₁, ways₁, maxWay⟩, hscan, h⟩ := h
      have hnames := scan_filename hscan
      cases maxWay with
      | none =>
          simp only [Option.some.injEq, Prod.mk.injEq] at h
          obtain ⟨rfl, -, rfl, rfl⟩ := h
          exact ⟨rfl, rfl, rfl, hnames⟩
      | some i =>
          simp only [Option.bind_eq_some_iff] at h
          obtain ⟨way, hway, ⟨y, mem₂, way₂⟩, hget, ⟨disk₁, mem₃, out₁⟩, hput, h⟩ := h
          obtain ⟨hlinked, hcreated, hname, hways⟩ := ih h
          obtain ⟨hlinked₁, hcreated₁, hname₁⟩ := put_linked hput
          refine ⟨hlinked.trans hlinked₁, hcreated.trans hcreated₁, hname.trans hname₁,
            hways.trans ?_⟩
          have hsame : way₂.filename = way.filename := get_filename hget
          calc
            (ways₁.set i way₂).map InputWay.filename =
              (ways₁.map InputWay.filename).set i way.filename := by
              rw [List.map_set, hsame]
            _ = ways₁.map InputWay.filename := by
              obtain ⟨hi, hget⟩ := List.getElem?_eq_some_iff.mp hway
              have hlength : i < (ways₁.map InputWay.filename).length := by rwa [List.length_map]
              have hself : way.filename = (ways₁.map InputWay.filename)[i] := by
                rw [List.getElem_map, hget]
              rw [hself, List.set_getElem_self]
            _ = ways.map InputWay.filename := hnames

theorem foldl_destroy_linked (ways : List InputWay) (disk : Disk) (name : ℕ) :
    (ways.foldl InputWay.destroy disk).linked name =
      if name ∈ ways.map InputWay.filename then false else disk.linked name := by
  induction ways generalizing disk with
  | nil => rfl
  | cons way ways ih =>
      rw [List.foldl_cons, ih, destroy_linked]
      simp only [List.map_cons, List.mem_cons]
      split <;> split <;> simp_all

/-- A merge removes the names of its group and makes one. -/
theorem merge_linked (h : merge fuel disk inputs outputs mem bufSize =
      some (disk', inputs', outputs', mem')) :
    inputs' = inputs.drop maxWays ∧ outputs' = outputs ++ [disk.created] ∧
      disk'.created = disk.created + 1 ∧
      ∀ name, disk'.linked name = if name ∈ inputs.take maxWays then false
        else if name = disk.created then true else disk.linked name := by
  have hgroup : inputs.take (min maxWays inputs.length) = inputs.take maxWays ∧
      inputs.drop (min maxWays inputs.length) = inputs.drop maxWays :=
    ⟨List.take_eq_take_min.symm, by rw [← List.drop_eq_drop_min]⟩
  simp only [merge, group_eq, hgroup, Option.bind_eq_bind, Option.bind_eq_some_iff] at h
  obtain ⟨⟨disk₁, ways₁⟩, hopen, ⟨disk₂, mem₂, ways₂, out₂⟩, hloop, disk₃, hdestroy, h⟩ := h
  obtain ⟨hnames₁, hcreated₁, hlinked₁⟩ := openWays_linked hopen
  obtain ⟨hlinked₂, hcreated₂, hname₂, hnames₂⟩ := mergeLoop_linked hloop
  obtain ⟨chunk, -, hwrite⟩ := Option.bind_eq_some_iff.mp hdestroy
  obtain rfl := Option.some.inj hwrite
  simp only [Option.some.injEq, Prod.mk.injEq] at h
  obtain ⟨rfl, rfl, rfl, -⟩ := h
  have hnames : ways₂.map InputWay.filename = inputs.take maxWays := hnames₂.trans hnames₁
  have hcreated : disk₂.created = disk.created + 1 := hcreated₂.trans (congrArg (· + 1) hcreated₁)
  refine ⟨rfl, ?_, ?_, fun name ↦ ?_⟩
  · have hnew : out₂.fileName = disk₁.created := hname₂
    rw [hnew, hcreated₁]
  · exact (foldl_destroy ways₂ _).2.1.trans hcreated
  · have hnew : disk₂.linked name = if name = disk₁.created then true else disk₁.linked name := by
      rw [hlinked₂]
      exact Function.update_apply _ _ _ _
    rw [foldl_destroy_linked, hnames]
    by_cases hgroup : name ∈ inputs.take maxWays
    · rw [if_pos hgroup, if_pos hgroup]
    · have hkept := hlinked₁ name
      rw [if_neg hgroup] at hkept
      rw [if_neg hgroup, if_neg hgroup, ← hcreated₁, ← hkept, ← hnew]
      rfl

/-! ## The names at every moment -/

/-- The directory has the input, whose name is 0, and the files of a queue, which are different
ones. -/
structure Tidy (disk : Disk) (names : List ℕ) : Prop where
  positive : 0 < disk.created
  old : ∀ name ∈ names, 0 < name ∧ name < disk.created
  nodup : names.Nodup
  linked : ∀ name, disk.linked name = true ↔ name = 0 ∨ name ∈ names

theorem tidy_holding (input : List Data) : Tidy (Disk.holding input) [] where
  positive := Nat.one_pos
  old name hname := absurd hname List.not_mem_nil
  nodup := List.nodup_nil
  linked name := by simp [Disk.holding]

/-- A new file goes to the end of the queue. -/
theorem Tidy.mkstemp (h : Tidy disk names) (hcreated : disk'.created = disk.created + 1)
    (hlinked : ∀ name, disk'.linked name = if name = disk.created then true else disk.linked name) :
    Tidy disk' (names ++ [disk.created]) where
  positive := hcreated ▸ Nat.succ_pos _
  old name hname := by
    rw [List.mem_append, List.mem_singleton] at hname
    rw [hcreated]
    cases hname with
    | inl hname => exact ⟨(h.old name hname).1, Nat.lt_succ_of_lt (h.old name hname).2⟩
    | inr hname => exact ⟨hname ▸ h.positive, hname ▸ Nat.lt_succ_self _⟩
  nodup := by
    rw [List.nodup_append]
    refine ⟨h.nodup, by simp, fun name hname name' hname' heq ↦ ?_⟩
    rw [List.mem_singleton] at hname'
    exact Nat.ne_of_lt (h.old name hname).2 (heq.trans hname')
  linked name := by
    rw [hlinked, List.mem_append, List.mem_singleton]
    by_cases hname : name = disk.created
    · simp [hname]
    · rw [if_neg hname, h.linked]
      simp [hname]

/-- The files of a merged group go. -/
theorem Tidy.unlink {group : List ℕ} (h : Tidy disk (group ++ names))
    (hcreated : disk'.created = disk.created)
    (hlinked : ∀ name, disk'.linked name = if name ∈ group then false else disk.linked name) :
    Tidy disk' names where
  positive := hcreated ▸ h.positive
  old name hname := hcreated ▸ h.old name (List.mem_append_right _ hname)
  nodup := (List.nodup_append.mp h.nodup).2.1
  linked name := by
    rw [hlinked]
    by_cases hgroup : name ∈ group
    · have hzero : name ≠ 0 := Nat.ne_of_gt (h.old name (List.mem_append_left _ hgroup)).1
      have hother : name ∉ names :=
        fun hname ↦ (List.nodup_append.mp h.nodup).2.2 name hgroup name hname rfl
      simp [hgroup, hzero, hother]
    · rw [if_neg hgroup, h.linked, List.mem_append]
      simp [hgroup]

theorem Tidy.splitLoop {fd : Descriptor} {r : Disk × List ℕ} (h : Tidy disk names)
    (hsplit : splitLoop qsort k fuel disk fd n names = some r) : Tidy r.1 r.2 := by
  induction fuel generalizing disk fd n names with
  | zero => cases hsplit
  | succ fuel ih =>
      simp only [ExternalSort.splitLoop] at hsplit
      by_cases hn : 0 < n
      · rw [if_pos hn] at hsplit
        apply ih _ hsplit
        exact h.mkstemp rfl fun name ↦ Function.update_apply _ _ _ _
      · rw [if_neg hn] at hsplit
        obtain rfl := Option.some.inj hsplit
        exact h

theorem Tidy.merge (h : Tidy disk (inputs ++ outputs))
    (hmerge : merge fuel disk inputs outputs mem bufSize = some (disk', inputs', outputs', mem')) :
    Tidy disk' (inputs' ++ outputs') := by
  obtain ⟨rfl, rfl, hcreated, hlinked⟩ := merge_linked hmerge
  have hnew : disk.created ∉ inputs.take maxWays := fun hmem ↦
    absurd (h.old _ (List.mem_append_left _ (List.mem_of_mem_take hmem))).2 (Nat.lt_irrefl _)
  rw [← List.take_append_drop maxWays inputs, List.append_assoc] at h
  -- first the names go, then the new one comes
  have hgone : Tidy
      { disk with
        linked := fun name ↦ if name ∈ inputs.take maxWays then false else disk.linked name }
      (inputs.drop maxWays ++ outputs) := h.unlink rfl fun _ ↦ rfl
  rw [← List.append_assoc]
  apply hgone.mkstemp hcreated
  intro name
  rw [hlinked]
  by_cases hname : name = disk.created
  · rw [if_neg (hname ▸ hnew), if_pos hname, if_pos hname]
  · rw [if_neg hname, if_neg hname]

theorem Tidy.levelLoop {mergeFuel : ℕ} {r : Disk × List ℕ × List ℕ × Memory}
    (h : Tidy disk (inputs ++ outputs))
    (hlevel : levelLoop mergeFuel bufSize fuel disk inputs outputs mem = some r) :
    r.2.1 = [] ∧ Tidy r.1 r.2.2.1 := by
  induction fuel generalizing disk inputs outputs mem with
  | zero => cases hlevel
  | succ fuel ih =>
      rw [ExternalSort.levelLoop] at hlevel
      by_cases hempty : inputs = []
      · rw [if_neg (not_not.mpr hempty)] at hlevel
        obtain rfl := Option.some.inj hlevel
        rw [hempty] at h
        exact ⟨hempty, h⟩
      · rw [if_pos hempty] at hlevel
        obtain ⟨⟨disk₁, inputs₁, outputs₁, mem₁⟩, hmerge, hrest⟩ :=
          Option.bind_eq_some_iff.mp hlevel
        exact ih (h.merge hmerge) hrest

theorem Tidy.stageLoop {innerFuel : ℕ} {r : Disk × List ℕ × List ℕ × Memory} (h : Tidy disk names)
    (hstage : stageLoop innerFuel bufSize fuel disk names [] mem = some r) :
    ∃ name, r.2.1 = [name] ∧ r.2.2.1 = [] ∧ Tidy r.1 [name] := by
  induction fuel generalizing disk names mem with
  | zero => cases hstage
  | succ fuel ih =>
      rw [ExternalSort.stageLoop] at hstage
      by_cases hone : names.length = 1
      · rw [if_neg (not_not.mpr hone)] at hstage
        obtain rfl := Option.some.inj hstage
        obtain ⟨name, rfl⟩ := List.length_eq_one_iff.mp hone
        exact ⟨name, rfl, rfl, h⟩
      · rw [if_pos hone] at hstage
        obtain ⟨⟨disk₁, currQueue, nextQueue, mem₁⟩, hlevel, hrest⟩ :=
          Option.bind_eq_some_iff.mp hstage
        have hboth : Tidy disk (names ++ []) := by rwa [List.append_nil]
        obtain ⟨hcurr, hnext⟩ := hboth.levelLoop hlevel
        obtain rfl : currQueue = [] := hcurr
        exact ih hnext hrest

/-- If the merge stage ends, it leaves one file in the queue, and the directory has that file and
the input and nothing else. -/
theorem no_temporary_left {input : List Data} {nbytes innerFuel levels : ℕ}
    {r : Disk × List ℕ × List ℕ × Memory}
    (hsplit : split qsort fuel (Disk.holding input) 0 [] nbytes = some (disk, names))
    (hstage : stageLoop innerFuel bufSize levels disk names [] mem = some r) :
    ∃ sorted, r.2.1 = [sorted] ∧ sorted ≠ 0 ∧ ∀ name, r.1.linked name = true ↔ name = 0 ∨
    name = sorted := by
  have hstat : (Disk.holding input).stat 0 = some input.length := rfl
  have hopen : (Disk.holding input).openFile 0 = some { file := 0, offset := 0 } := rfl
  simp only [split, hstat, hopen, Option.bind_eq_bind, Option.bind_some] at hsplit
  have htidy := (tidy_holding input).splitLoop hsplit
  obtain ⟨sorted, hqueue, -, hlast⟩ := htidy.stageLoop hstage
  refine ⟨sorted, hqueue, Nat.ne_of_gt (hlast.old sorted List.mem_cons_self).1, fun name ↦ ?_⟩
  rw [hlast.linked, List.mem_singleton]

/-- Two chunks of four entries become one file. -/
theorem no_temporary_left_two_chunks : ∃ disk names r,
    split mergeSortBy 5 (Disk.holding [3, 1, 4, 2]) 0 [] 12 = some (disk, names) ∧
      names.length = 2 ∧ stageLoop 5 3 5 disk names [] { entry := fun _ ↦ 0, size := 3 } = some r ∧
      ∃ sorted, r.2.1 = [sorted] ∧ sorted ≠ 0 ∧ ∀ name, r.1.linked name = true ↔ name = 0 ∨
      name = sorted := by
  have hqsort : ∀ xs, (mergeSortBy dataLess xs).Perm xs := fun xs ↦ List.mergeSort_perm xs _
  have htwo : chunks (12 / 4) [3, 1, 4, 2] = [[3, 1, 4], [2]] := by simp [chunks]
  have hfuel : ([3, 1, 4, 2] : List Data).length < 5 := by decide
  obtain ⟨disk, names, hsplit, hqueued, -, hlength, hentries⟩ :=
    split_spec hqsort oneEntryPerWay_two_chunks.1 hfuel
  obtain ⟨disk', name, mem', hstage, -⟩ :=
    stage_spec (by simp) oneEntryPerWay_two_chunks hqueued hlength hentries
      (show ({ entry := fun _ ↦ 0, size := 3 } : Memory).size = 12 / 4 by decide) hfuel
  rw [htwo] at hlength
  exact ⟨disk, names, _, hsplit, hlength, hstage, no_temporary_left hsplit hstage⟩

end CppMtHw.ExternalSort
