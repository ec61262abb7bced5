import Mathlib.Data.List.Range
import CppMtHw.Machine.Fallible
import CppMtHw.ExternalSort.Result

/-!
# The test generator

`hw03/genfile.c`, which writes the unsorted files and the sorted ones that the output of the sort is
compared with. Its parameters are what `rand` and `malloc` answer, and `qsort`. Files have names
here, and every call transfers all that it is asked for.
-/

namespace CppMtHw.ExternalSort.Genfile

open Machine

/-! ## The command line -/

inductive Complaint
  | usage
  | wrongSize
  | noSortedName
  | noUnsortedName
  | unknownOption
  | noSize
  | tooLarge (mb : ℕ)
  | noBuffer
  deriving DecidableEq

def maxMb : ℕ := 1024

def maxElems : ℕ := maxMb * 1024 * 1024 / 4

namespace Complaint

def code : Complaint → ℕ
  | noBuffer => 2
  | _ => 1

def text : Complaint → String
  | usage => "Usage: genfile --sz <mb> [--sorted <sorted-name>] [--unsorted <unsorted-name>]\n"
  | wrongSize => "Error: wrong size\n"
  | noSortedName => "Error: expected name of sorted file\n"
  | noUnsortedName => "Error: expected name of unsorted file\n"
  | unknownOption => "Error: unknown option\n"
  | noSize => "Error: the size should be defined (option --sz)\n"
  | tooLarge mb => "Error: required file is to lagre for sorting.\n(" ++ toString mb ++
      " mb, limit is " ++ toString maxMb ++
      " mb). Use option --nosorted.\nNote: no sorted file for testing will be generated.\n"
  | noBuffer => "Error: unable to allocate buffer\n"

end Complaint

/-- `strtol` with base 10: the number, and whether it was cut to the range of `long`. -/
def strtol (text : String) : ℤ × Bool :=
  let chars := text.toList.dropWhile fun c ↦ c = ' ' ∨ (9 ≤ c.toNat ∧ c.toNat ≤ 13)
  let (negative, digits) := match chars with
    | '-' :: rest => (true, rest)
    | '+' :: rest => (false, rest)
    | rest => (false, rest)
  let magnitude := (digits.takeWhile Char.isDigit).foldl (fun n d ↦ 10 * n + (d.toNat - 48)) 0
  let value : ℤ := if negative then -Int.ofNat magnitude else Int.ofNat magnitude
  if value < -9223372036854775808 then (-9223372036854775808, true)
  else if 9223372036854775807 < value then (9223372036854775807, true)
  else (value, false)

/-- The number of entries for the argument of `--sz`. -/
@[irreducible] def entriesOf (arg : String) : Except Complaint ℕ :=
  let (value, erange) := strtol arg
  -- the `long` becomes an `int`
  let mb := value.bmod 4294967296
  if mb ≤ 0 ∨ erange then .error .wrongSize else .ok (mb.toNat * 1024 * 1024 / 4)

structure Options where
  sortedName : String := "sorted"
  unsortedName : String := "unsorted"
  sz : ℕ := 0
  nosorted : Bool := false
  deriving DecidableEq

inductive Flag
  | sz
  | sorted
  | unsorted
  | nosorted

def flagOf (arg : String) : Option Flag :=
  if arg = "--sz" then some .sz
  else if arg = "--sorted" then some .sorted
  else if arg = "--unsorted" then some .unsorted
  else if arg = "--nosorted" then some .nosorted
  else none

/-- The loop of `main` over the arguments. -/
def parse : Options → List String → Except Complaint Options
  | options, [] => .ok options
  | options, arg :: args =>
      match flagOf arg, args with
      | some .sz, [] => .error .wrongSize
      | some .sz, value :: args => do
          let sz ← entriesOf value
          parse { options with sz := sz } args
      | some .sorted, [] => .error .noSortedName
      | some .sorted, name :: args => parse { options with sortedName := name } args
      | some .unsorted, [] => .error .noUnsortedName
      | some .unsorted, name :: args => parse { options with unsortedName := name } args
      | some .nosorted, args => parse { options with nosorted := true } args
      | none, _ => .error .unknownOption

/-! ## The files -/

abbrev Folder := String → Option (List Data)

structure Exit where
  code : ℕ
  printed : String
  folder : Folder

def Complaint.exit (complaint : Complaint) (folder : Folder) : Exit :=
  ⟨complaint.code, complaint.text, folder⟩

def done (folder : Folder) : Exit := ⟨0, "", folder⟩

def flushNumbers (folder : Folder) (numbers : List Data) (fileName : String) : Folder :=
  Function.update folder fileName (some numbers)

section Program

variable (rand : ℕ → Data) (qsort : Qsort) (malloc : ℕ → Bool)

/-- `fill_random`, after so many numbers have been drawn. -/
def fillRandom (drawn n : ℕ) : List Data := (List.range n).map fun i ↦ rand (drawn + i)

/-- The loop that writes `n` more entries, at most `bufsize` at a time. -/
def writeLoop (bufsize : ℕ) : ℕ → ℕ → ℕ → List Data → Option (List Data)
  | 0, _, _, _ => none
  | fuel + 1, n, drawn, out =>
      if 0 < n then
        let nelem := if bufsize < n then bufsize else n
        writeLoop bufsize fuel (n - nelem) (drawn + nelem) (out ++ fillRandom rand drawn nelem)
      else
        some out

/-- The part of `main` behind the checks of the options. There is no result if a null buffer is
written to, which only happens with `--nosorted`. -/
def generate (options : Options) (folder : Folder) : Option Exit :=
  if options.nosorted then
    let folder := flushNumbers folder [] options.unsortedName
    if malloc (maxElems * 4) then do
      let out ← writeLoop rand maxElems (options.sz + 1) options.sz 0 []
      some (done (flushNumbers folder out options.unsortedName))
    else
      none
  else if malloc (options.sz * 4) then
    let numbuf := fillRandom rand 0 options.sz
    let folder := flushNumbers folder numbuf options.unsortedName
    let numbuf := qsort dataLess numbuf
    some (done (flushNumbers folder numbuf options.sortedName))
  else
    some (Complaint.noBuffer.exit folder)

def main (args : List String) (folder : Folder) : Option Exit :=
  if args = [] then some (Complaint.usage.exit folder)
  else
    match parse {} args with
    | .error complaint => some (complaint.exit folder)
    | .ok options =>
        if options.sz = 0 then some (Complaint.noSize.exit folder)
        else if maxElems < options.sz ∧ ¬options.nosorted then
          some ((Complaint.tooLarge (options.sz * 4 / 1024 / 1024)).exit folder)
        else generate rand qsort malloc options folder

end Program

/-! ## Options in any order -/

section Options

variable {options options' : Options} {first second args : List String}

def Options.onlyUnsorted (options : Options) : Options := { options with nosorted := true }

/-- What follows complete options is read with what they set. -/
theorem parse_append (h : parse options first = .ok options') :
    parse options (first ++ second) = parse options' second := by
  fun_induction parse options first with
  | case1 options =>
      cases h
      rfl
  | case2 | case4 | case6 | case9 => cases h
  | case3 options arg value args hflag ih =>
      obtain ⟨sz, hsz, hrest⟩ := ok_of_bind h
      simp only [List.cons_append, parse, hflag, hsz, ok_bind]
      exact ih sz hrest
  | case5 options arg name args hflag ih | case7 options arg name args hflag ih
  | case8 options arg args hflag ih =>
      simp only [List.cons_append, parse, hflag]
      exact ih h

/-- `--nosorted` does not change how the other options are read. -/
theorem parse_onlyUnsorted (h : parse options args = .ok options') :
    parse options.onlyUnsorted args = .ok options'.onlyUnsorted := by
  fun_induction parse options args with
  | case1 options =>
      cases h
      rfl
  | case2 | case4 | case6 | case9 => cases h
  | case3 options arg value args hflag ih =>
      obtain ⟨sz, hsz, hrest⟩ := ok_of_bind h
      simp only [parse, hflag, hsz, ok_bind]
      exact ih sz hrest
  | case5 options arg name args hflag ih | case7 options arg name args hflag ih
  | case8 options arg args hflag ih =>
      simp only [parse, hflag]
      exact ih h

theorem parse_nosorted_between (hfirst : parse {} first = .ok options)
    (hall : parse {} (first ++ second) = .ok options') :
    parse {} (first ++ "--nosorted" :: second) = .ok options'.onlyUnsorted := by
  have hflag : flagOf "--nosorted" = some .nosorted := rfl
  rw [parse_append hfirst] at hall ⊢
  simp only [parse, hflag]
  exact parse_onlyUnsorted hall

end Options

/-! ## The numbers -/

section Numbers

variable {rand : ℕ → Data} {qsort : Qsort} {malloc : ℕ → Bool} {options : Options}
  {folder folder' : Folder} {args : List String} {bufsize fuel n drawn : ℕ} {out : List Data}

theorem fillRandom_append (rand : ℕ → Data) (drawn m n : ℕ) :
    fillRandom rand drawn (m + n) = fillRandom rand drawn m ++ fillRandom rand (drawn + m) n := by
  simp only [fillRandom, List.range_add, List.map_append, List.map_map]
  congr 1
  apply List.map_congr_left
  intro i _
  exact congrArg rand (Nat.add_assoc drawn m i).symm

/-- Buffer by buffer the same numbers are written as at once. -/
theorem writeLoop_eq (hbufsize : 0 < bufsize) (hfuel : n < fuel) :
    writeLoop rand bufsize fuel n drawn out = some (out ++ fillRandom rand drawn n) := by
  induction fuel generalizing n drawn out with
  | zero => cases hfuel
  | succ fuel ih =>
      by_cases hn : 0 < n
      · rw [writeLoop, if_pos hn]
        generalize hnelem : (if bufsize < n then bufsize else n) = nelem
        have hle : nelem ≤ n ∧ 0 < nelem := by
          rw [← hnelem]
          split <;> omega
        have hsplit := fillRandom_append rand drawn nelem (n - nelem)
        rw [Nat.add_sub_cancel' hle.1] at hsplit
        rw [hsplit, ← List.append_assoc]
        exact ih (by omega)
      · obtain rfl : n = 0 := by omega
        rw [writeLoop, if_neg hn, fillRandom, List.range_zero, List.map_nil, List.append_nil]

theorem Complaint.code_ne_zero (complaint : Complaint) : complaint.code ≠ 0 := by
  cases complaint <;> exact Nat.succ_ne_zero _

theorem not_exit {complaint : Complaint} {exit : Exit}
    (h : some (complaint.exit folder) = some exit) (hcode : exit.code = 0) : False := by
  cases h
  exact complaint.code_ne_zero hcode

/-- What has been checked when `main` returns 0. -/
theorem main_returned {exit : Exit} (h : main rand qsort malloc args folder = some exit)
    (hcode : exit.code = 0) :
    ∃ options, parse {} args = .ok options ∧ options.sz ≠ 0 ∧
      generate rand qsort malloc options folder = some exit := by
  rw [main] at h
  split at h
  · exact (not_exit h hcode).elim
  · split at h
    · exact (not_exit h hcode).elim
    · rename_i options hparse
      split at h
      · exact (not_exit h hcode).elim
      · rename_i hsz
        split at h
        · exact (not_exit h hcode).elim
        · exact ⟨options, hparse, hsz, h⟩

/-- Options that pass the checks. -/
theorem main_of_parse (hne : args ≠ []) (hparse : parse {} args = .ok options)
    (hsz : options.sz ≠ 0) (hsmall : options.nosorted = true ∨ options.sz ≤ maxElems) :
    main rand qsort malloc args folder = generate rand qsort malloc options folder := by
  have hfits : ¬(maxElems < options.sz ∧ ¬options.nosorted = true) := fun h ↦
    hsmall.elim h.2 (Nat.not_le.mpr h.1)
  rw [main, if_neg hne, hparse]
  simp only [if_neg hsz, if_neg hfits]

/-- With `--nosorted` one file is made. -/
theorem generate_onlyUnsorted (hbuffer : malloc (maxElems * 4) = true) :
    generate rand qsort malloc options.onlyUnsorted folder =
      some (done (flushNumbers folder (fillRandom rand 0 options.sz) options.unsortedName)) := by
  have hwritten : writeLoop rand maxElems (options.sz + 1) options.sz 0 [] =
      some ([] ++ fillRandom rand 0 options.sz) := writeLoop_eq (by decide) (Nat.lt_succ_self _)
  simp only [generate, Options.onlyUnsorted, if_true, hbuffer, hwritten, List.nil_append]
  simp only [flushNumbers, Function.update_idem, Option.bind_eq_bind, Option.bind_some]

/-- Otherwise the sorted one is made after it. -/
theorem generate_returned {exit : Exit} (hboth : options.nosorted = false)
    (h : generate rand qsort malloc options folder = some exit) (hcode : exit.code = 0) :
    exit.folder = flushNumbers
      (flushNumbers folder (fillRandom rand 0 options.sz) options.unsortedName)
      (qsort dataLess (fillRandom rand 0 options.sz)) options.sortedName := by
  rw [generate, hboth, if_neg Bool.false_ne_true] at h
  split at h
  · cases h
    rfl
  · exact (not_exit h hcode).elim

end Numbers

/-- Wherever `--nosorted` is put between the options, the unsorted file is the same, though it is
written in pieces, and only the sorted one is not made. -/
theorem nosorted_same_unsorted {rand : ℕ → Data} {qsort : Qsort} {malloc : ℕ → Bool}
    {options : Options} {folder : Folder} {first second : List String} {exit : Exit}
    (hfirst : parse {} first = .ok options)
    (hmain : main rand qsort malloc (first ++ second) folder = some exit) (hcode : exit.code = 0)
    (hbuffer : malloc (maxElems * 4) = true) :
    ∃ options', parse {} (first ++ second) = .ok options' ∧ options'.sz ≠ 0 ∧
      main rand qsort malloc (first ++ "--nosorted" :: second) folder =
        some (done (flushNumbers folder (fillRandom rand 0 options'.sz) options'.unsortedName)) ∧
      (options'.nosorted = false →
        exit.folder = flushNumbers
          (flushNumbers folder (fillRandom rand 0 options'.sz) options'.unsortedName)
          (qsort dataLess (fillRandom rand 0 options'.sz)) options'.sortedName) := by
  obtain ⟨options', hparse, hsz, hgenerate⟩ := main_returned hmain hcode
  refine ⟨options', hparse, hsz, ?_, fun hboth ↦ generate_returned hboth hgenerate hcode⟩
  rw [main_of_parse (by simp) (parse_nosorted_between hfirst hparse) hsz (Or.inl rfl)]
  exact generate_onlyUnsorted hbuffer

theorem parse_one_megabyte : parse {} ["--sz", "1"] = .ok { sz := 262144 } := by
  have hentries : entriesOf "1" = .ok 262144 := by
    unfold entriesOf
    rfl
  have hflag : flagOf "--sz" = some .sz := rfl
  simp only [parse, hflag, hentries, ok_bind]

theorem main_one_megabyte (rand : ℕ → Data) (qsort : Qsort) (folder : Folder) :
    main rand qsort (fun _ ↦ true) ["--sz", "1"] folder =
      some (done (flushNumbers (flushNumbers folder (fillRandom rand 0 262144) "unsorted")
        (qsort dataLess (fillRandom rand 0 262144)) "sorted")) := by
  rw [main_of_parse (by simp) parse_one_megabyte (by decide) (Or.inr (by decide))]
  rfl

/-- One megabyte, with and without `--nosorted`. -/
theorem nosorted_same_unsorted_one : ∃ exit exit',
    main (fun _ ↦ 7) mergeSortBy (fun _ ↦ true) ["--sz", "1"] (fun _ ↦ none) = some exit ∧
    main (fun _ ↦ 7) mergeSortBy (fun _ ↦ true) ["--nosorted", "--sz", "1"]
      (fun _ ↦ none) = some exit' ∧
    exit'.folder "unsorted" = exit.folder "unsorted" ∧ exit'.folder "sorted" = none := by
  have hplain := main_one_megabyte (fun _ ↦ 7) mergeSortBy (fun _ ↦ none)
  have hparse : parse {} [] = .ok {} := rfl
  obtain ⟨options, hoptions, -, hnosorted, -⟩ := nosorted_same_unsorted hparse hplain rfl rfl
  obtain rfl := Except.ok.inj (hoptions.symm.trans parse_one_megabyte)
  refine ⟨_, _, hplain, hnosorted, ?_, ?_⟩
  · simp only [done, flushNumbers, Function.update_self]
    rw [Function.update_of_ne (by decide), Function.update_self]
  · simp only [done, flushNumbers]
    rw [Function.update_of_ne (by decide)]

/-! ## The test of the sort -/

/-- Filtering shows only if something is filtered out. -/
theorem sorted_filter_iff {input : List Data} :
    sorted (input.filter (0 < ·)) = sorted input ↔ 0 ∉ input := by
  constructor
  · intro heq hzero
    have hmem : (0 : Data) ∈ sorted (input.filter (0 < ·)) := by
      rw [heq]
      exact List.mem_mergeSort.mpr hzero
    have hpos := (List.mem_filter.mp (List.mem_mergeSort.mp hmem)).2
    exact absurd (of_decide_eq_true hpos) (lt_irrefl 0)
  · intro hzero
    congr 1
    apply List.filter_eq_self.mpr
    intro x hx
    have hne : x ≠ 0 := fun heq ↦ hzero (heq ▸ hx)
    have hpos : x.toNat ≠ 0 := fun heq ↦ hne (UInt32.toNat_inj.mp heq)
    exact decide_eq_true (UInt32.lt_iff_toNat_lt.mpr (Nat.pos_of_ne_zero hpos))

/-- The sorted file is what the sort makes of the unsorted one exactly if the unsorted one fits into
its memory or `rand` has given no zero. -/
theorem sort_passes_iff {rand : ℕ → Data} {qsort : Qsort} {malloc : ℕ → Bool} {options : Options}
    {folder : Folder} {args : List String} {exit : Exit}
    (hqsort : ∀ xs, (qsort dataLess xs).Perm xs) (hsorted : ∀ xs, Falling (qsort dataLess xs))
    (hparse : parse {} args = .ok options) (hboth : options.nosorted = false)
    (hnames : options.unsortedName ≠ options.sortedName)
    (hmain : main rand qsort malloc args folder = some exit) (hcode : exit.code = 0)
    (fresh : ℕ → Data) {mb fuel : ℕ} (hmb : 0 < mb) (hfuel : options.sz < fuel) :
    ∃ unsorted, exit.folder options.unsortedName = some unsorted ∧
      (ExternalSort.main qsort fresh fuel (Disk.holding unsorted) 0 mb =
        exit.folder options.sortedName ↔
        options.sz ≤ mb * 1024 * 1024 / 4 ∨ ∀ i < options.sz, rand i ≠ 0) := by
  obtain ⟨options', hparse', hsz, hgenerate⟩ := main_returned hmain hcode
  obtain rfl := Except.ok.inj (hparse.symm.trans hparse')
  generalize hnumbers : fillRandom rand 0 options.sz = numbers
  have hlength : numbers.length = options.sz := by
    rw [← hnumbers, fillRandom, List.length_map, List.length_range]
  have hzero : 0 ∉ numbers ↔ ∀ i < options.sz, rand i ≠ 0 := by
    rw [← hnumbers, fillRandom]
    simp only [Nat.zero_add, List.mem_map, List.mem_range, not_exists, not_and, ne_eq]
  have hfolder := generate_returned hboth hgenerate hcode
  rw [hnumbers] at hfolder
  have hunsorted : exit.folder options.unsortedName = some numbers := by
    rw [hfolder, flushNumbers, Function.update_of_ne hnames, flushNumbers, Function.update_self]
  have hfile : exit.folder options.sortedName = some (sorted numbers) := by
    rw [hfolder, flushNumbers, Function.update_self, eq_sorted (hqsort numbers) (hsorted numbers)]
  have hne : numbers ≠ [] := fun hnil ↦ hsz (by rw [← hlength, hnil, List.length_nil])
  have hsort := externalSort_eq hqsort hsorted fresh hne (oneEntryPerWay_megabytes numbers hmb)
    (hlength ▸ hfuel)
  refine ⟨numbers, hunsorted, ?_⟩
  rw [ExternalSort.main, hsort, hfile, Option.some.injEq, hlength, ← hzero]
  split
  · rename_i hfits
    exact ⟨fun _ ↦ Or.inl hfits, fun _ ↦ rfl⟩
  · rename_i hlarge
    rw [sorted_filter_iff, or_iff_right hlarge]

/-- One megabyte is sorted in a megabyte of memory, even if all numbers are zero. -/
theorem sort_passes_one : ∃ exit unsorted,
    main (fun _ ↦ 0) mergeSortBy (fun _ ↦ true) ["--sz", "1"] (fun _ ↦ none) = some exit ∧
    exit.folder "unsorted" = some unsorted ∧
    ExternalSort.main mergeSortBy (fun _ ↦ 0) 262145 (Disk.holding unsorted) 0 1 =
      exit.folder "sorted" := by
  have hmain := main_one_megabyte (fun _ ↦ 0) mergeSortBy (fun _ ↦ none)
  obtain ⟨unsorted, hunsorted, hpasses⟩ :=
    sort_passes_iff (fun xs ↦ List.mergeSort_perm xs _) falling_mergeSortBy
      parse_one_megabyte rfl (by decide) hmain rfl (fun _ ↦ 0) (show 0 < 1 by decide)
        (show 262144 < 262145 by decide)
  exact ⟨_, unsorted, hmain, hunsorted, hpasses.mpr (Or.inl (by decide))⟩

end CppMtHw.ExternalSort.Genfile
