import CppMtHw.ExternalSort.Ordering

/-!
# The chunk files

`split` uses up its input if its memory has room for an entry, and then the chunk files
hold consecutive segments of it. Whether they are sorted is left to `qsort`, which may
rely on its comparison function. `data_less` never says that an entry is less than
another one, so it is consistent on an array only if the entries are all the same.
-/

namespace CppMtHw.ExternalSort

open Machine

variable {qsort : Qsort} {input : List Data} {k nbytes : ℕ}

/-! ## What `split` partitions -/

/-- `split` returns, and each of its chunk files has the entries of a segment of the input, at least
one and at most as many as fit into the memory. -/
def SplitPartitions (qsort : Qsort) (input : List Data) (nbytes : ℕ) : Prop :=
  ∃ fuel disk names segments, split qsort fuel (Disk.holding input) 0 [] nbytes =
    some (disk, names) ∧ names.Nodup ∧ segments.flatten = input ∧
    List.Forall₂ (fun name segment ↦ (disk.content name).Perm segment) names segments ∧
    ∀ name ∈ names, 1 ≤ (disk.content name).length ∧ (disk.content name).length ≤ nbytes / 4

theorem length_of_mem_chunks {chunk : List Data} (h : chunk ∈ chunks k input) :
    1 ≤ chunk.length ∧ chunk.length ≤ k := by
  fun_induction chunks k input with
  | case1 input hinput ih =>
      cases h with
      | head =>
          have hpos := List.length_pos_of_ne_nil hinput.2
          rw [List.length_take]
          omega
      | tail _ h => exact ih h
  | case2 input hinput => cases h

/-- An input file without entries leaves no chunk, whatever the memory. -/
theorem split_empty (qsort : Qsort) (nbytes : ℕ) :
    split qsort 1 (Disk.holding []) 0 [] nbytes = some (Disk.holding [], []) := rfl

/-- Without room for an entry `split` never uses up an input that has one. -/
theorem split_no_room (hk : nbytes / 4 = 0) (hne : input ≠ []) (fuel : ℕ) :
    split qsort fuel (Disk.holding input) 0 [] nbytes = none := by
  have hstat : (Disk.holding input).stat 0 = some input.length := rfl
  have hopen : (Disk.holding input).openFile 0 = some { file := 0, offset := 0 } := rfl
  simp only [split, hstat, hopen, Option.bind_eq_bind, Option.bind_some, hk,
    splitLoop_zero (List.length_pos_of_ne_nil hne)]

/-- `split` terminates and partitions its input if and only if there is room for an entry or there
is none. -/
theorem split_partitions_iff (hqsort : ∀ xs, (qsort dataLess xs).Perm xs) (input : List Data)
    (nbytes : ℕ) : SplitPartitions qsort input nbytes ↔ 4 ≤ nbytes ∨ input = [] := by
  constructor
  · rintro ⟨fuel, disk, names, segments, hsplit, -⟩
    by_contra hneither
    rw [not_or, not_le] at hneither
    have hk : nbytes / 4 = 0 := by omega
    rw [split_no_room hk hneither.2] at hsplit
    cases hsplit
  · intro hroom
    by_cases hne : input = []
    · subst hne
      refine ⟨1, _, [], [], split_empty qsort nbytes, List.nodup_nil, rfl, .nil,
        fun name hname ↦ ?_⟩
      cases hname
    · have hk : 0 < nbytes / 4 := by
        have := hroom.resolve_right hne
        omega
      obtain ⟨disk, names, hsplit, hqueued, hcontents, -⟩ :=
        split_spec hqsort hk (Nat.lt_succ_self input.length)
      have hfiles : List.Forall₂ (fun name segment ↦ disk.content name = qsort dataLess segment)
          names (chunks (nbytes / 4) input) := by
        rw [← List.forall₂_map_right_iff, ← List.forall₂_map_left_iff, hcontents]
        exact List.forall₂_refl _
      refine ⟨input.length + 1, disk, names, chunks (nbytes / 4) input, hsplit, hqueued.nodup,
        flatten_chunks hk input, ?_, fun name hname ↦ ?_⟩
      · exact hfiles.imp fun name segment heq ↦ heq ▸ hqsort segment
      · have hmem : disk.content name ∈ (chunks (nbytes / 4) input).map (qsort dataLess) :=
          hcontents ▸ List.mem_map_of_mem hname
        obtain ⟨chunk, hchunk, heq⟩ := List.mem_map.mp hmem
        rw [← heq, (hqsort chunk).length_eq]
        exact length_of_mem_chunks hchunk

/-- Two chunks, of three entries and of one. -/
theorem split_partitions_two_chunks : chunks (12 / 4) [3, 1, 4, 2] = [[3, 1, 4], [2]] ∧
    SplitPartitions mergeSortBy [3, 1, 4, 2] 12 := by
  constructor
  · simp [chunks]
  · apply (split_partitions_iff (fun xs ↦ List.mergeSort_perm xs _) [3, 1, 4, 2] 12).mpr
    exact Or.inl (by decide)

/-- A memory of no megabytes. -/
theorem split_hangs : ¬SplitPartitions mergeSortBy [7] (0 * 1024 * 1024) := by
  rintro ⟨fuel, disk, names, segments, hsplit, -⟩
  rw [split_no_room rfl (List.cons_ne_nil 7 []) fuel] at hsplit
  cases hsplit

/-! ## The passes of `split` -/

structure Pass where
  disk : Disk
  inpFd : Descriptor
  n : ℕ
  chunksFilenames : List ℕ

def Pass.first (input : List Data) : Pass where
  disk := Disk.holding input
  inpFd := { file := 0, offset := 0 }
  n := input.length
  chunksFilenames := []

def Pass.next (qsort : Qsort) (k : ℕ) (s : Pass) : Pass :=
  let chunkSize := if s.n < k then s.n else k
  let (buf, inpFd) := s.disk.read s.inpFd chunkSize
  let (tmpName, disk) := s.disk.mkstemp
  { disk := disk.write tmpName (qsort dataLess buf)
    inpFd
    n := usub s.n chunkSize
    chunksFilenames := s.chunksFilenames ++ [tmpName] }

def Pass.after (qsort : Qsort) (k : ℕ) (input : List Data) (i : ℕ) : Pass :=
  (Pass.next qsort k)^[i] (Pass.first input)

def Pass.Reached (qsort : Qsort) (k : ℕ) (input : List Data) (i : ℕ) : Prop :=
  ∀ j < i, 0 < (Pass.after qsort k input j).n

theorem splitLoop_succ (s : Pass) (fuel : ℕ) :
    splitLoop qsort k (fuel + 1) s.disk s.inpFd s.n s.chunksFilenames =
      if 0 < s.n then splitLoop qsort k fuel (s.next qsort k).disk (s.next qsort k).inpFd
        (s.next qsort k).n (s.next qsort k).chunksFilenames
      else some (s.disk, s.chunksFilenames) := rfl

theorem Pass.after_succ (i : ℕ) :
    Pass.after qsort k input (i + 1) = (Pass.after qsort k input i).next qsort k :=
  Function.iterate_succ_apply' _ _ _

/-- Some pass of `split` writes a chunk file with this content. -/
def WritesChunk (qsort : Qsort) (input : List Data) (nbytes : ℕ) (file : List Data) : Prop :=
  ∃ i, Pass.Reached qsort (nbytes / 4) input i ∧
    ∃ name ∈ (Pass.after qsort (nbytes / 4) input i).chunksFilenames,
      (Pass.after qsort (nbytes / 4) input i).disk.content name = file

theorem exists_after_of_splitLoop {fuel i : ℕ} {disk : Disk} {names : List ℕ}
    (hreached : Pass.Reached qsort k input i)
    (h : splitLoop qsort k fuel (Pass.after qsort k input i).disk (Pass.after qsort k input i).inpFd
      (Pass.after qsort k input i).n (Pass.after qsort k input i).chunksFilenames =
        some (disk, names)) :
    ∃ j, Pass.Reached qsort k input j ∧ (Pass.after qsort k input j).disk = disk ∧
      (Pass.after qsort k input j).chunksFilenames = names := by
  induction fuel generalizing i with
  | zero => cases h
  | succ fuel ih =>
      rw [splitLoop_succ] at h
      by_cases hn : 0 < (Pass.after qsort k input i).n
      · rw [if_pos hn, ← Pass.after_succ] at h
        refine ih (fun j hj ↦ ?_) h
        cases Nat.lt_or_eq_of_le (Nat.le_of_lt_succ hj) with
        | inl hlt => exact hreached j hlt
        | inr heq => exact heq ▸ hn
      · rw [if_neg hn, Option.some.injEq, Prod.mk.injEq] at h
        exact ⟨i, hreached, h⟩

/-- The files that `split` returns are among them. -/
theorem writesChunk_of_split {fuel name : ℕ} {disk : Disk} {names : List ℕ}
    (h : split qsort fuel (Disk.holding input) 0 [] nbytes = some (disk, names))
    (hname : name ∈ names) : WritesChunk qsort input nbytes (disk.content name) := by
  have hstat : (Disk.holding input).stat 0 = some input.length := rfl
  have hopen : (Disk.holding input).openFile 0 = some { file := 0, offset := 0 } := rfl
  simp only [split, hstat, hopen, Option.bind_eq_bind, Option.bind_some] at h
  have hfirst : Pass.Reached qsort (nbytes / 4) input 0 := fun j hj ↦ absurd hj (Nat.not_lt_zero j)
  obtain ⟨i, hreached, rfl, rfl⟩ := exists_after_of_splitLoop hfirst h
  exact ⟨i, hreached, name, hname, rfl⟩

/-- The `i`-th run of `k` entries, shorter at the end of the input. -/
def segment (input : List Data) (k i : ℕ) : List Data := (input.drop (i * k)).take k

structure Pass.Done (qsort : Qsort) (k : ℕ) (input : List Data) (i : ℕ) (s : Pass) : Prop where
  file : s.inpFd.file = 0
  unread : (s.disk.content 0).drop s.inpFd.offset = input.drop (i * k)
  n : s.n = (input.drop (i * k)).length
  queued : Queued s.disk s.chunksFilenames
  created : 0 < s.disk.created
  contents : s.chunksFilenames.map s.disk.content =
    (List.range i).map fun j ↦ qsort dataLess (segment input k j)

theorem Pass.done_after (qsort : Qsort) (k : ℕ) (input : List Data) (i : ℕ) :
    (Pass.after qsort k input i).Done qsort k input i := by
  induction i with
  | zero =>
      exact
        { file := rfl
          unread := by
            rw [Nat.zero_mul]
            rfl
          n := by
            rw [Nat.zero_mul]
            rfl
          queued := ⟨nofun, nofun, List.nodup_nil⟩
          created := Nat.one_pos
          contents := rfl }
  | succ i ih =>
      rw [Pass.after_succ]
      set s := Pass.after qsort k input i with hs
      have hsucc : (i + 1) * k = i * k + k := Nat.succ_mul i k
      have hsize : (if s.n < k then s.n else k) = min k (input.drop (i * k)).length := by
        rw [ih.n]
        split <;> omega
      have hread : ((s.disk.content s.inpFd.file).drop s.inpFd.offset).take
          (if s.n < k then s.n else k) = segment input k i := by
        rw [ih.file, ih.unread, hsize, segment, ← List.take_eq_take_min]
      obtain ⟨hqueued, hmap, hold⟩ := ih.queued.write_new (qsort dataLess (segment input k i))
      have hdisk : (s.next qsort k).disk =
          s.disk.mkstemp.2.write s.disk.created (qsort dataLess (segment input k i)) := by
        simp only [Pass.next, Disk.read, hread]
        rfl
      have hnames : (s.next qsort k).chunksFilenames = s.chunksFilenames ++ [s.disk.created] := rfl
      exact
        { file := ih.file
          unread := by
            rw [hdisk, hold 0 ih.created]
            show (s.disk.content 0).drop (s.inpFd.offset + if s.n < k then s.n else k) = _
            rw [← List.drop_drop, ih.unread, hsize, ← List.drop_eq_drop_min, List.drop_drop, hsucc]
          n := by
            show usub s.n (if s.n < k then s.n else k) = _
            rw [usub_of_le (by split <;> omega), hsize, ih.n]
            simp only [List.length_drop, hsucc]
            omega
          queued := by
            rw [hdisk, hnames]
            exact hqueued
          created := Nat.succ_pos _
          contents := by
            rw [hdisk, hnames, hmap, ih.contents, List.range_succ, List.map_append,
              List.map_singleton] }

/-- A file is written in the pass that has reached its segment. -/
theorem Pass.reached_of_lt {i : ℕ} (h : i * k < input.length) :
    Pass.Reached qsort k input (i + 1) := by
  intro j hj
  have hle : j * k ≤ i * k := Nat.mul_le_mul_right k (Nat.le_of_lt_succ hj)
  rw [(Pass.done_after qsort k input j).n, List.length_drop]
  omega

theorem WritesChunk.eq_qsort {file : List Data} (h : WritesChunk qsort input nbytes file) :
    ∃ i, file = qsort dataLess (segment input (nbytes / 4) i) := by
  obtain ⟨i, -, name, hname, rfl⟩ := h
  have hmem := List.mem_map_of_mem (f := (Pass.after qsort (nbytes / 4) input i).disk.content) hname
  rw [(Pass.done_after qsort (nbytes / 4) input i).contents, List.mem_map] at hmem
  obtain ⟨j, -, heq⟩ := hmem
  exact ⟨j, heq.symm⟩

theorem writesChunk_segment (qsort : Qsort) {i : ℕ} (h : i * (nbytes / 4) < input.length) :
    WritesChunk qsort input nbytes (qsort dataLess (segment input (nbytes / 4) i)) := by
  have hcontents := (Pass.done_after qsort (nbytes / 4) input (i + 1)).contents
  have hmem : qsort dataLess (segment input (nbytes / 4) i) ∈
      (Pass.after qsort (nbytes / 4) input (i + 1)).chunksFilenames.map
        (Pass.after qsort (nbytes / 4) input (i + 1)).disk.content := by
    rw [hcontents]
    exact List.mem_map_of_mem (List.mem_range.mpr (Nat.lt_succ_self i))
  obtain ⟨name, hname, heq⟩ := List.mem_map.mp hmem
  exact ⟨i + 1, Pass.reached_of_lt h, name, hname, heq⟩

/-! ## The comparison function and `qsort` -/

/-- The comparison function is consistent on the entries of an array, as `qsort` requires. -/
structure Consistent (compare : Data → Data → ℤ) (xs : List Data) : Prop where
  opposite : ∀ a ∈ xs, ∀ b ∈ xs, (compare b a).sign = -(compare a b).sign
  trans : ∀ a ∈ xs, ∀ b ∈ xs, ∀ c ∈ xs, compare a b ≤ 0 → compare b c ≤ 0 → compare a c ≤ 0

/-- `qsort` sorts an array whenever the comparison function is consistent on it. -/
def Conforming (qsort : Qsort) : Prop :=
  ∀ compare xs, Consistent compare xs →
    (qsort compare xs).Perm xs ∧ (qsort compare xs).Pairwise fun a b ↦ compare a b ≤ 0

/-- `data_less` is consistent on an array if and only if its entries are all the same. -/
theorem consistent_dataLess_iff {xs : List Data} :
    Consistent dataLess xs ↔ ∀ a ∈ xs, ∀ b ∈ xs, a = b := by
  constructor
  · intro h a ha b hb
    by_contra hne
    have hopposite := h.opposite a ha b hb
    rcases lt_or_gt_of_ne hne with hlt | hlt
    · simp [dataLess, hlt, not_lt_of_gt hlt] at hopposite
    · simp [dataLess, hlt, not_lt_of_gt hlt] at hopposite
  · intro h
    have hzero : ∀ a ∈ xs, ∀ b ∈ xs, dataLess a b = 0 := by
      intro a ha b hb
      rw [h a ha b hb, dataLess, if_neg (lt_irrefl b)]
    exact
      { opposite := fun a ha b hb ↦ by
          rw [hzero a ha b hb, hzero b hb a ha, Int.sign_zero, neg_zero]
        trans := fun a ha b _ c hc _ _ ↦ (hzero a ha c hc).le }

/-- A `qsort` that merges stably and takes an element before one to its left only if the comparison
function says that it is less. -/
def mergeSortByLess : Qsort := fun compare xs ↦ xs.mergeSort fun a b ↦ ¬compare b a < 0

def mergeSortReversed : Qsort := fun compare xs ↦ mergeSortByLess compare xs.reverse

theorem conforming_mergeSortByLess : Conforming mergeSortByLess := by
  intro compare xs h
  refine ⟨List.mergeSort_perm xs _, ?_⟩
  have hle : ∀ a ∈ xs, ∀ b ∈ xs, ¬compare b a < 0 ↔ compare a b ≤ 0 := by
    intro a ha b hb
    rw [not_lt, ← Int.sign_nonneg_iff, h.opposite a ha b hb, Int.neg_nonneg, Int.sign_nonpos_iff]
  -- the comparison function is consistent on the elements only, so they are sorted with their
  -- membership
  have hattach : mergeSortByLess compare xs =
      (xs.attach.mergeSort fun a b ↦ ¬compare b.val a.val < 0).map Subtype.val := by
    have hmap := List.map_mergeSort (s := fun a b ↦ decide ¬compare b a < 0) (f := Subtype.val)
      (l := xs.attach) fun _ _ _ _ ↦ rfl
    rw [List.attach_map_subtype_val] at hmap
    exact hmap.symm
  have hpairwise := @List.pairwise_mergeSort _
    (fun a b : { x // x ∈ xs } ↦ decide ¬compare b.val a.val < 0) (fun a b c hab hbc ↦ by
      rw [decide_eq_true_iff, hle _ a.prop _ b.prop] at hab
      rw [decide_eq_true_iff, hle _ b.prop _ c.prop] at hbc
      rw [decide_eq_true_iff, hle _ a.prop _ c.prop]
      exact h.trans _ a.prop _ b.prop _ c.prop hab hbc)
    (fun a b ↦ by
      rw [Bool.or_eq_true, decide_eq_true_iff, decide_eq_true_iff, hle _ a.prop _ b.prop]
      omega)
    xs.attach
  rw [hattach, List.pairwise_map]
  refine hpairwise.imp fun {a b} hab ↦ ?_
  rw [decide_eq_true_iff, hle _ a.prop _ b.prop] at hab
  exact hab

theorem conforming_mergeSortReversed : Conforming mergeSortReversed := by
  intro compare xs h
  have hreversed : Consistent compare xs.reverse :=
    { opposite := fun a ha b hb ↦ h.opposite a (List.mem_reverse.mp ha) b (List.mem_reverse.mp hb)
      trans := fun a ha b hb c hc ↦
        h.trans a (List.mem_reverse.mp ha) b (List.mem_reverse.mp hb) c (List.mem_reverse.mp hc) }
  obtain ⟨hperm, hpairwise⟩ := conforming_mergeSortByLess compare xs.reverse hreversed
  exact ⟨hperm.trans (List.reverse_perm xs), hpairwise⟩

/-- As `data_less` never calls an element less than another one, nothing is moved. -/
theorem mergeSortByLess_dataLess (xs : List Data) : mergeSortByLess dataLess xs = xs := by
  apply List.mergeSort_of_pairwise
  apply List.pairwise_of_forall
  intro a b
  rw [decide_eq_true_iff, dataLess]
  split <;> decide

theorem mergeSortReversed_dataLess (xs : List Data) : mergeSortReversed dataLess xs = xs.reverse :=
  mergeSortByLess_dataLess xs.reverse

/-- A list that falls both ways has the same entry everywhere. -/
theorem eq_of_falling_reverse {xs : List Data} (h : Falling xs) (hreverse : Falling xs.reverse) :
    ∀ a ∈ xs, ∀ b ∈ xs, a = b := by
  have hrises : xs.Pairwise fun a b ↦ a ≤ b := List.pairwise_reverse.mp hreverse
  have hle := hrises.forall_of_forall_of_flip (fun a _ ↦ le_refl a) h
  intro a ha b hb
  exact le_antisymm (hle ha hb) (hle hb ha)

/-- Every conforming `qsort` leaves every chunk file falling if and only if no chunk has two
different entries. -/
theorem chunks_falling_iff (input : List Data) (nbytes : ℕ) :
    (∀ qsort, Conforming qsort → ∀ file, WritesChunk qsort input nbytes file → Falling file) ↔
      ∀ i, ∀ a ∈ segment input (nbytes / 4) i, ∀ b ∈ segment input (nbytes / 4) i, a = b := by
  constructor
  · intro h i a ha
    have hlt : i * (nbytes / 4) < input.length := by
      by_contra hle
      rw [segment, List.drop_of_length_le (by omega), List.take_nil] at ha
      cases ha
    have hfalling := h _ conforming_mergeSortByLess _ (writesChunk_segment _ hlt)
    have hreverse := h _ conforming_mergeSortReversed _ (writesChunk_segment _ hlt)
    rw [mergeSortByLess_dataLess] at hfalling
    rw [mergeSortReversed_dataLess] at hreverse
    exact eq_of_falling_reverse hfalling hreverse a ha
  · intro h qsort hqsort file hfile
    obtain ⟨i, rfl⟩ := hfile.eq_qsort
    obtain ⟨-, hpairwise⟩ := hqsort dataLess _ (consistent_dataLess_iff.mpr (h i))
    refine hpairwise.imp fun {a b} hab ↦ ?_
    by_contra hlt
    rw [dataLess, if_pos (not_le.mp hlt)] at hab
    exact absurd hab (by decide)

/-- Two entries in the wrong order stay so under a conforming `qsort`. -/
theorem chunk_rises : ∃ disk, split mergeSortByLess 2 (Disk.holding [1, 2]) 0 [] (1 * 1024 * 1024) =
      some (disk, [1]) ∧ Conforming mergeSortByLess ∧ disk.content 1 = [1, 2] ∧
      ¬Falling (disk.content 1) := by
  have hcontent : (Pass.after mergeSortByLess 262144 [1, 2] 1).disk.content 1 = [1, 2] := by
    show [] ++ mergeSortByLess dataLess [1, 2] = [1, 2]
    rw [mergeSortByLess_dataLess]
    rfl
  refine ⟨(Pass.after mergeSortByLess 262144 [1, 2] 1).disk, rfl,
    conforming_mergeSortByLess, hcontent, ?_⟩
  rw [hcontent, Falling]
  decide

end CppMtHw.ExternalSort
