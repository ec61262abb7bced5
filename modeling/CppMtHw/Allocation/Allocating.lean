import CppMtHw.Allocation.Splitting

/-!
# Allocating a block

`alloc` takes the first element of the free list that is large enough. The list and the
blocks stay as they should be if the element has a backward link when it fits exactly,
and, when it is split, if `addMeta` finds an unused object that is not in the list, or
can make one: the last free block must be in the list and have room for the object
besides what is cut off it.
-/

namespace CppMtHw.Allocation

open Machine

namespace Allocator

variable {s s' : Allocator} {blocks blocks' frees : List ℕ} {b m mi n p count fuel : ℕ}

def Listed (s : Allocator) (m : ℕ) : Prop :=
  ∃ frees, Chain s.nextLink (s.nextLink s.head) frees ∧ m ∈ frees

/-- The first element of the free list with at least `n` units. -/
def FirstFit (s : Allocator) (n p : ℕ) : Prop :=
  ∃ before after, Chain s.nextLink (s.nextLink s.head) (before ++ p :: after) ∧
    (∀ q ∈ before, s.getSize q < n) ∧ n ≤ s.getSize p

/-- What `alloc` relies on when it takes `n` units. -/
structure Allocatable (s : Allocator) (n : ℕ) : Prop where
  whole : ∀ p, s.FirstFit n p → s.getSize p = n → s.prev p ≠ 0
  reuse : ∀ p mi, s.FirstFit n p → n < s.getSize p → s.reusable = some mi → ¬s.Listed mi
  room : ∀ p, s.FirstFit n p → n < s.getSize p → s.reusable = none →
    s.buf + s.offs s.lastFree < s.metas - 32 → s.Listed s.lastFree ∧
      (if p = s.lastFree then n else 0) < (s.metas - 32 - (s.buf + s.offs s.lastFree)) / 8

theorem Shape.listed_iff {loose : List ℕ} {spare : Option ℕ}
    (h : s.Shape blocks frees loose spare) : s.Listed m ↔ m ∈ frees :=
  ⟨fun ⟨_, hchain, hm⟩ ↦ h.chain.unique hchain ▸ hm, fun hm ↦ ⟨frees, h.chain, hm⟩⟩

theorem Shape.firstFit_mem {loose : List ℕ} {spare : Option ℕ}
    (h : s.Shape blocks frees loose spare) (hfit : s.FirstFit n p) : p ∈ frees := by
  obtain ⟨before, after, hchain, -⟩ := hfit
  rw [h.chain.unique hchain]
  simp

/-- The first element of the list is taken if it is large enough. -/
theorem FirstFit.eq_first (h : s.FirstFit n p) (hfirst : s.nextLink s.head = some b)
    (hle : n ≤ s.getSize b) : p = b := by
  obtain ⟨before, after, hchain, hsmall, -⟩ := h
  rw [hfirst] at hchain
  cases before with
  | nil => exact (Option.some.inj hchain.1).symm
  | cons c before =>
      obtain rfl := Option.some.inj hchain.1
      have hlt := hsmall b List.mem_cons_self
      omega

/-! ## The object for the block -/

theorem findUnused_spec (h : s.findUnused count mi = some m) :
    ∃ i < count, m = mi - 32 * i ∧ ¬s.isUsed m := by
  induction count generalizing mi with
  | zero => cases h
  | succ count ih =>
      rw [findUnused] at h
      split at h
      · obtain ⟨i, hi, rfl, hunused⟩ := ih h
        exact ⟨i + 1, by omega, by omega, hunused⟩
      · rename_i hunused
        obtain rfl : mi = m := Option.some.inj h
        exact ⟨0, Nat.succ_pos count, rfl, hunused⟩

/-- An object that is used again is in the array, not the first one, and not in use. -/
theorem Placed.reusable_spec (hp : s.Placed) (h : s.reusable = some mi) :
    s.MetaSlot mi ∧ mi ≠ s.lastFree ∧ ¬s.isUsed mi := by
  obtain ⟨count, hcount⟩ := hp.array
  have hle := hp.buf_le
  rw [reusable, hp.lastFree_eq] at h
  obtain ⟨i, hi, rfl, hunused⟩ := findUnused_spec h
  have hlast : s.lastFree = s.metas + 32 * count := by
    rw [lastFree]
    omega
  rw [hlast] at hi ⊢
  have hdiv : (s.metas + 32 * count - s.metas) / 32 = count := by omega
  rw [hdiv] at hi
  refine ⟨⟨by omega, i + 1, by omega⟩, by omega, ?_⟩
  rwa [hlast] at hunused

theorem addMeta_reuse (start n : ℕ) (h : s.reusable = some mi) :
    s.addMeta start n = .returned mi (s.describe mi start n) := by
  rw [addMeta, h]
  rfl

theorem addMeta_none (start n : ℕ) (h : s.reusable = none) : s.addMeta start n =
    if usub s.metas 32 ≤ wrap (s.buf + s.offs (s.getMeta 0)) then .threw s
    else .returned (usub s.metas 32) (({ s with metas := usub s.metas 32 }.setSize (s.getMeta 0)
      (usub (usub s.metas 32) (wrap (s.buf + s.offs (s.getMeta 0))) / 8)).describe
        (usub s.metas 32) start n) := by
  rw [addMeta, h]
  by_cases hfull : usub s.metas 32 ≤ wrap (s.buf + s.offs (s.getMeta 0))
  · simp only [if_pos hfull]
  · have hoffs : ∀ lower m, ({ s with metas := lower }).offs m = s.offs m := fun _ _ ↦ rfl
    simp only [if_neg hfull, hoffs, describe, setOffs_metas, setSize_metas,
      setHeader_metas, setSize_buf]

theorem addMeta_new (hp : s.Placed) (start n : ℕ) (h : s.reusable = none)
    (hoffs : s.buf + s.offs s.lastFree < 2 ^ 64) :
    s.addMeta start n = if s.metas - 32 ≤ s.buf + s.offs s.lastFree then .threw s
      else .returned (s.metas - 32) (s.grow.describe (s.metas - 32) start n) := by
  have hbuf := hp.buf_low
  have hle := hp.buf_le
  have hlast : wrap (s.buf + s.offs s.lastFree) = s.buf + s.offs s.lastFree :=
    Nat.mod_eq_of_lt hoffs
  have hmetas : usub s.metas 32 = s.metas - 32 := usub_of_le (by omega)
  rw [addMeta_none start n h, hp.lastFree_eq, hlast, hmetas]
  by_cases hroom : s.metas - 32 ≤ s.buf + s.offs s.lastFree
  · rw [if_pos hroom, if_pos hroom]
  · rw [if_neg hroom, if_neg hroom, usub_of_le (by omega)]
    rfl

/-! ## The element of the list -/

/-- What `alloc` does with the element it takes. -/
def place (s : Allocator) (n p : ℕ) : Outcome Pointer :=
  if s.getSize p = n then
    let s := (s.setOccupied p true).unlinkFree p
    .returned ⟨s.indexOfInfo p⟩ s
  else
    match s.addMeta (wrap (s.buf + s.offs p)) n with
    | .returned occMeta s =>
        let s := s.cutOff occMeta p n
        .returned ⟨s.indexOfInfo occMeta⟩ s
    | .threw s => .threw s
    | .diverged => .diverged

theorem allocLoop_succ (s : Allocator) (n fuel p : ℕ) : s.allocLoop n (fuel + 1) p =
    if p = 0 then .threw s else if n ≤ s.getSize p then s.place n p
      else s.allocLoop n fuel (s.next p) := by
  rw [allocLoop, place]
  by_cases hzero : p = 0
  · rw [if_pos hzero, if_pos hzero]
  · rw [if_neg hzero, if_neg hzero]
    by_cases hle : n ≤ s.getSize p
    · rw [if_pos hle]
      by_cases heq : s.getSize p = n
      · simp only [if_pos heq]
      · simp only [if_neg heq, if_pos hle]
        rfl
    · have hne : s.getSize p ≠ n := by omega
      simp only [if_neg hle, if_neg hne]

/-- The loop takes the first element that is large enough, and throws if there is none. -/
theorem allocLoop_spec {before after : List ℕ} (h : s.WellFormed blocks (before ++ after))
    (hp : link p = after.head?) (hsmall : ∀ q ∈ before, s.getSize q < n)
    (hfuel : after.length < fuel) :
    s.allocLoop n fuel p = .threw s ∨ ∃ q, s.FirstFit n q ∧ s.allocLoop n fuel p = s.place n q := by
  induction after generalizing before p fuel with
  | nil =>
      obtain ⟨fuel, rfl⟩ := Nat.exists_eq_succ_of_ne_zero (Nat.ne_of_gt hfuel)
      rw [allocLoop_succ, if_pos (link_eq_none.mp hp)]
      exact Or.inl rfl
  | cons q after ih =>
      obtain ⟨fuel, rfl⟩ := Nat.exists_eq_succ_of_ne_zero (Nat.ne_of_gt (Nat.zero_lt_of_lt hfuel))
      obtain ⟨rfl, hq⟩ := link_eq_some.mp hp
      rw [allocLoop_succ, if_neg hq]
      by_cases hle : n ≤ s.getSize p
      · rw [if_pos hle]
        exact Or.inr ⟨p, ⟨before, after, h.chain, hsmall, hle⟩, rfl⟩
      · rw [if_neg hle]
        have hnext : link (s.next p) = after.head? := h.chain.next_eq
        rw [List.append_cons] at h
        refine ih h hnext (fun r hr ↦ ?_) (by simpa using hfuel)
        rcases List.mem_append.mp hr with hr | hr
        · exact hsmall r hr
        · rw [List.mem_singleton.mp hr]
          omega

/-! ## What is allocated -/

/-- The block `b` of `n` units becomes live; the other live blocks and their bytes stay. -/
structure Allocated (s s' : Allocator) (blocks blocks' : List ℕ) (b n : ℕ) : Prop where
  object : s'.head = s.head
  buf : s'.buf = s.buf
  bufsize : s'.bufsize = s.bufsize
  size : s'.getSize b = n
  slot : s'.MetaSlot b
  fresh : ¬(b ∈ blocks ∧ s.isOccupied b)
  live : ∀ m, m ∈ blocks' ∧ s'.isOccupied m ↔ (m ∈ blocks ∧ s.isOccupied m) ∨ m = b
  kept : ∀ m ∈ blocks, s.isOccupied m → s'.offs m = s.offs m ∧ s'.getSize m = s.getSize m ∧
    ∀ x, s.buf + s.offs m ≤ x → x < s.buf + s.offs m + 8 * s.getSize m → s'.mem x = s.mem x

/-- The free block `p` has been used for the block `b`, whose payload is what was there. An exact
fit is taken out of the list, otherwise the remainder stays there. -/
structure Carved (s s' : Allocator) (frees frees' : List ℕ) (p b n : ℕ) : Prop where
  object : s'.head = s.head
  buf : s'.buf = s.buf
  bufsize : s'.bufsize = s.bufsize
  origin : s'.offs b = s.offs p
  payload : ∀ x, s.buf + s.offs p + 8 ≤ x → x < s.buf + s.offs p + 8 * n → s'.mem x = s.mem x
  list : frees' = if s.getSize p = n then frees.erase p else frees
  prev : ∀ m, s.Slot m → (s.getSize p = n → m ≠ p ∧ m ≠ s.next p) → s'.prev m = s.prev m

theorem Shape.not_managed {loose : List ℕ} {spare : Option ℕ} {x : ℕ}
    (h : s.Shape blocks frees loose spare) (hm : m ∈ blocks) (hx : s.buf + s.offs m ≤ x)
    (hlt : x < s.buf + s.offs m + 8 * s.getSize m) : ¬s.Managed x := by
  have hend := (h.bounds hm).2.1
  have hdataEnd := h.placed.dataEnd_le
  have hapart := h.placed.head_apart
  obtain ⟨count, hcount⟩ := h.placed.array
  rintro (⟨hle, hx'⟩ | ⟨hle, hx'⟩) <;> omega

theorem Shape.erase_eq {front rest loose : List ℕ} {spare : Option ℕ}
    (h : s.Shape blocks (front ++ p :: rest) loose spare) :
    (front ++ p :: rest).erase p = front ++ rest := by
  have hnot : p ∉ front := fun hmem ↦ h.not_mem_rest (List.mem_append_left _ hmem)
  rw [List.erase_append_right _ hnot, List.erase_cons_head]

/-- An element that fits exactly is taken out of the list. -/
theorem Shape.place_whole (h : s.WellFormed blocks frees) (hp : p ∈ frees) (hprev : s.prev p ≠ 0) :
    ((s.setOccupied p true).unlinkFree p).WellFormed blocks (frees.erase p) ∧
      s.Allocated ((s.setOccupied p true).unlinkFree p) blocks blocks p (s.getSize p) ∧
      s.Carved ((s.setOccupied p true).unlinkFree p) frees (frees.erase p) p p (s.getSize p) := by
  have hblock := h.block_of_free hp
  have hslot := h.slot hblock
  have hpocc := ((h.free_iff p).mp hp).2.1
  obtain ⟨front, rest, rfl⟩ := List.append_of_mem hp
  have hset := (Records.refl s).setOccupied h.placed hslot true
  have hlt := getSize_lt s p
  have hunlinked := unlinked_unlinkFree h hprev hset (getSize_sizeWord hlt)
  generalize (s.setOccupied p true).unlinkFree p = s' at hunlinked ⊢
  have hocc : s'.isOccupied p := by
    rw [isOccupied, hunlinked.word]
    exact (signMask_le_sizeWord hlt).mpr rfl
  have hshape := h.unlink hprev hunlinked [] (by simp [hocc])
  have hframe := hunlinked.frame
  rw [h.erase_eq]
  refine ⟨hshape, ⟨hframe.head, hframe.buf, hframe.bufsize, hunlinked.getSize p hslot,
    hshape.slots p hblock, fun hlive ↦ hpocc hlive.2, fun m ↦ ?_, fun m hm hmocc ↦ ?_⟩,
    hframe.head, hframe.buf, hframe.bufsize, hunlinked.offs p hslot, fun x hx hxlt ↦ ?_,
    by rw [if_pos rfl, h.erase_eq], fun m hm hne ↦ ?_⟩
  · by_cases hmp : m = p
    · simp [hmp, hblock, hocc]
    · simp only [hmp, or_false]
      exact and_congr_right fun hm ↦ by rw [hunlinked.occupied (h.slot hm) hmp]
  · exact ⟨hunlinked.offs m (h.slot hm), hunlinked.getSize m (h.slot hm),
      fun x hx hxlt ↦ hframe.mem x (h.not_managed hm hx hxlt)⟩
  · exact hframe.mem x (h.not_managed hblock (by omega) hxlt)
  · exact hunlinked.prev m hm (hne rfl).1 (hne rfl).2

/-- A larger element is split, once there is an object for the front of it. -/
theorem Shape.place_split (h : s.Shape blocks frees [] (some mi)) (hmi : s.MetaSlot mi)
    (hminot : mi ∉ blocks) (hlast : mi ≠ s.lastFree) (hp : p ∈ frees) (hn : 0 < n)
    (hlt : n < s.getSize p) :
    ∃ blocks', ((s.describe mi (s.buf + s.offs p) n).cutOff mi p n).WellFormed blocks' frees ∧
      s.Allocated ((s.describe mi (s.buf + s.offs p) n).cutOff mi p n) blocks blocks' mi n ∧
      s.Carved ((s.describe mi (s.buf + s.offs p) n).cutOff mi p n) frees frees p mi n := by
  have hblock := h.block_of_free hp
  have hpocc := ((h.free_iff p).mp hp).2.1
  have hne : p ≠ mi := fun heq ↦ hminot (heq ▸ hblock)
  have hend := (h.bounds hblock).2.1
  have hdataEnd := h.placed.dataEnd_le
  have hsplit := split_spec h.placed (Or.inr hmi) (h.slot hblock) hne hn hlt (by omega)
  generalize (s.describe mi (s.buf + s.offs p) n).cutOff mi p n = s' at hsplit ⊢
  obtain ⟨front, back, rfl⟩ := List.append_of_mem hblock
  have hshape := h.split hmi hminot hlast hp hn hlt hsplit
  have hframe := hsplit.frame
  have hpsize := getSize_lt s p
  have hsizemi : s'.size mi = sizeWord n true := congrArg Info.size hsplit.cut
  have hsizep : s'.size p = sizeWord (s.getSize p - n) (s.isOccupied p) :=
    congrArg Info.size hsplit.remainder
  have hocc : s'.isOccupied mi := by
    rw [isOccupied, hsizemi, signMask_le_sizeWord (by omega)]
  have hpocc' : ¬s'.isOccupied p := by
    rw [isOccupied, hsizep, signMask_le_sizeWord (by omega), decide_eq_true_iff]
    exact hpocc
  have hsame : ∀ m ∈ front ++ p :: back, m ≠ p → s'.info m = s.info m := fun m hm hmp ↦
    hsplit.other m (h.slot hm) (fun heq ↦ hminot (heq ▸ hm)) hmp
  refine ⟨_, hshape, ⟨hframe.head, hframe.buf, hframe.bufsize, ?_, hshape.slots mi (by simp),
    fun hlive ↦ hminot hlive.1, fun m ↦ ?_, fun m hm hmocc ↦ ?_⟩,
    hframe.head, hframe.buf, hframe.bufsize, congrArg Info.offs hsplit.cut,
    fun x hx hxlt ↦ hframe.mem x ?_, ?_, fun m hm _ ↦ hsplit.prev hm⟩
  · rw [getSize, hsizemi, getSize_sizeWord (by omega)]
  · by_cases hmmi : m = mi
    · simp [hmmi, hocc]
    · by_cases hmp : m = p
      · rw [hmp]
        simp [hpocc, hpocc', hne]
      · have hmem : m ∈ front ++ mi :: p :: back ↔ m ∈ front ++ p :: back := by
          simp only [List.mem_append, List.mem_cons, hmmi, false_or]
        rw [hmem]
        simp only [hmmi, or_false]
        refine and_congr_right fun hm ↦ ?_
        have hsize : s'.size m = s.size m := congrArg Info.size (hsame m hm hmp)
        rw [isOccupied, hsize, isOccupied]
  · have hmp : m ≠ p := fun heq ↦ hpocc (heq ▸ hmocc)
    have hinfo := hsame m hm hmp
    have hsize : s'.size m = s.size m := congrArg Info.size hinfo
    exact ⟨congrArg Info.offs hinfo, by rw [getSize, hsize, getSize],
      fun x hx hxlt ↦ hframe.mem x (h.not_splitBytes hlt hm hmp hx hxlt)⟩
  · have hnot : ¬s.Managed x := h.not_managed hblock (by omega) (by omega)
    rintro (hmanaged | ⟨hle, hx'⟩ | ⟨hle, hx'⟩)
    · exact hnot hmanaged
    · omega
    · omega
  · rw [if_neg (by omega)]

/-- The shrunk last free block makes no difference to the live blocks. -/
theorem Shape.allocated_grow (h : s.WellFormed blocks frees) (hlast : s.lastFree ∈ frees)
    (hroom : 0 < (s.metas - 32 - (s.buf + s.offs s.lastFree)) / 8)
    (hallocated : s.grow.Allocated s' blocks blocks' b n) : s.Allocated s' blocks blocks' b n := by
  obtain ⟨-, -, -, -, -, hinfo, hoffs, -, hmem⟩ := h.grow hlast hroom
  have hlastocc := ((h.free_iff _).mp hlast).2.1
  have hlive : ∀ m ∈ blocks, s.isOccupied m → m ≠ s.lastFree :=
    fun m _ hmocc heq ↦ hlastocc (heq ▸ hmocc)
  have hgrown : ∀ m ∈ blocks, m ≠ s.lastFree → s.grow.size m = s.size m := fun m hm hne ↦
    congrArg Info.size (hinfo m (h.slot hm) hne)
  have hocclast : s.lastFree ∈ blocks → ¬s.grow.isOccupied s.lastFree := fun hmem hocc ↦ by
    have hshape := (h.grow hlast hroom).1
    exact ((hshape.free_iff _).mp hlast).2.1 hocc
  have hocc : ∀ m ∈ blocks, (s.grow.isOccupied m ↔ s.isOccupied m) := fun m hm ↦ by
    by_cases hne : m = s.lastFree
    · subst hne
      exact iff_of_false (hocclast hm) hlastocc
    · rw [isOccupied, hgrown m hm hne, isOccupied]
  refine ⟨hallocated.object, hallocated.buf, hallocated.bufsize, hallocated.size, hallocated.slot,
    fun hfresh ↦ hallocated.fresh ⟨hfresh.1, (hocc b hfresh.1).mpr hfresh.2⟩, fun m ↦ ?_,
    fun m hm hmocc ↦ ?_⟩
  · rw [hallocated.live]
    exact or_congr_left (and_congr_right fun hm ↦ hocc m hm)
  · obtain ⟨hoffs', hgetSize', hbytes⟩ := hallocated.kept m hm ((hocc m hm).mpr hmocc)
    have hsize := hgrown m hm (hlive m hm hmocc)
    have hgetSize : s.grow.getSize m = s.getSize m := by rw [getSize, hsize, getSize]
    rw [hgetSize, hoffs m (h.slot hm)] at hbytes
    refine ⟨hoffs'.trans (hoffs m (h.slot hm)), hgetSize'.trans hgetSize, fun x hx hxlt ↦ ?_⟩
    exact (hbytes x hx hxlt).trans (hmem x (h.not_managed hm hx hxlt))

/-- Neither does it to the block that is split. -/
theorem Shape.carved_grow (h : s.WellFormed blocks frees) (hlast : s.lastFree ∈ frees)
    (hroom : 0 < (s.metas - 32 - (s.buf + s.offs s.lastFree)) / 8) (hp : p ∈ frees)
    (hlt : n < s.getSize p) (hlt' : n < s.grow.getSize p)
    (hcarved : s.grow.Carved s' frees frees p b n) : s.Carved s' frees frees p b n := by
  obtain ⟨-, -, -, -, -, -, hoffs, hprev, hmem⟩ := h.grow hlast hroom
  have hblock := h.block_of_free hp
  have hpoffs := hoffs p (h.slot hblock)
  have hbuf : s.grow.buf = s.buf := rfl
  refine ⟨hcarved.object, hcarved.buf.trans hbuf, hcarved.bufsize, hcarved.origin.trans hpoffs,
    fun x hx hxlt ↦ ?_, by rw [if_neg (by omega)], fun m hm _ ↦ ?_⟩
  · have hbyte := hcarved.payload x (by omega) (by omega)
    exact hbyte.trans (hmem x (h.not_managed hblock (by omega) (by omega)))
  · have hlink := hcarved.prev m (slot_lower hm) fun heq ↦ by omega
    exact hlink.trans (hprev m hm)

theorem getMeta_congr (hbuf : s'.buf = s.buf) (hbufsize : s'.bufsize = s.bufsize) (i : ℕ) :
    s'.getMeta i = s.getMeta i := by
  rw [getMeta, getMeta, bufEnd, bufEnd, hbuf, hbufsize]

/-- The index of the new block leads to it. -/
theorem Allocated.index (h : s.Allocated s' blocks blocks' b n) (hp : s'.Placed) :
    s.getMeta (s'.indexOfInfo b) = b ∧ 32 * (s'.indexOfInfo b + 1) ≤ s.bufsize := by
  rw [← getMeta_congr h.buf h.bufsize, ← h.bufsize]
  exact hp.indexOfInfo_getMeta h.slot

theorem units_pos (N : ℕ) : 0 < units N := Nat.succ_pos _

/-- The element of the list is placed, or there is no room for another object. -/
theorem place_spec (h : s.WellFormed blocks frees) (hn : 0 < n) (hclean : s.Allocatable n)
    (hfit : s.FirstFit n p) : s.place n p = .threw s ∨
      ∃ b s' blocks' frees', s.place n p = .returned ⟨s'.indexOfInfo b⟩ s' ∧
        s'.WellFormed blocks' frees' ∧ s.Allocated s' blocks blocks' b n ∧
        s.Carved s' frees frees' p b n := by
  have hp := h.firstFit_mem hfit
  have hle : n ≤ s.getSize p := by
    obtain ⟨before, after, -, -, hle⟩ := hfit
    exact hle
  have hblock := h.block_of_free hp
  have hend := (h.bounds hblock).2.1
  have hdataEnd := h.placed.dataEnd_le
  have hbufend := h.placed.buf_end
  obtain ⟨count, hcount⟩ := h.placed.array
  have hstart : wrap (s.buf + s.offs p) = s.buf + s.offs p := Nat.mod_eq_of_lt (by omega)
  rw [place, hstart]
  by_cases heq : s.getSize p = n
  · obtain ⟨hshape, hallocated, hcarved⟩ := h.place_whole hp (hclean.whole p hfit heq)
    rw [if_pos heq]
    rw [heq] at hallocated hcarved
    exact Or.inr ⟨p, _, _, _, rfl, hshape, hallocated, hcarved⟩
  · have hlt : n < s.getSize p := by omega
    rw [if_neg heq]
    cases hreusable : s.reusable with
    | some mi =>
        obtain ⟨hmi, hmilast, hunused⟩ := h.placed.reusable_spec hreusable
        have hminot : mi ∉ blocks := fun hmem ↦ by
          have hocc : ¬s.isOccupied mi := fun hocc ↦ hunused (Or.inl hocc)
          have hfree : mi ∈ frees := (h.free_iff mi).mpr ⟨hmem, hocc, List.not_mem_nil⟩
          exact hclean.reuse p mi hfit hlt hreusable (h.listed_iff.mpr hfree)
        have hspare : s.Shape blocks frees [] (some mi) :=
          ⟨h.placed, h.tiles, h.slots, h.chain, h.back, h.free_iff, h.loose,
            fun m hm hmblock _ ↦ h.unused m hm hmblock (by simp), h.last⟩
        obtain ⟨blocks', hshape, hallocated, hcarved⟩ :=
          hspare.place_split hmi hminot hmilast hp hn hlt
        simp only [addMeta_reuse _ _ hreusable]
        exact Or.inr ⟨mi, _, _, _, rfl, hshape, hallocated, hcarved⟩
    | none =>
        have hlast := h.last
        have hnew := addMeta_new h.placed (s.buf + s.offs p) n hreusable (by omega)
        by_cases hfull : s.metas - 32 ≤ s.buf + s.offs s.lastFree
        · rw [if_pos hfull] at hnew
          simp only [hnew]
          exact Or.inl trivial
        · obtain ⟨hlisted, hroom⟩ := hclean.room p hfit hlt hreusable (by omega)
          have hlastfree := h.listed_iff.mp hlisted
          have hpos : 0 < (s.metas - 32 - (s.buf + s.offs s.lastFree)) / 8 := by omega
          obtain ⟨hshape, hslot, hnot, hne, hsize, hinfo, hoffs, -, -⟩ := h.grow hlastfree hpos
          have hlt' : n < s.grow.getSize p := by
            by_cases hplast : p = s.lastFree
            · rw [if_pos hplast] at hroom
              rw [hplast, hsize]
              exact hroom
            · have hsizep : s.grow.size p = s.size p :=
                congrArg Info.size (hinfo p (h.slot hblock) hplast)
              rw [getSize, hsizep]
              exact hlt
          rw [if_neg hfull] at hnew
          simp only [hnew]
          obtain ⟨blocks', hshape', hallocated, hcarved⟩ :=
            hshape.place_split hslot hnot hne hp hn hlt'
          have hstart' : s.grow.buf + s.grow.offs p = s.buf + s.offs p :=
            congrArg (s.buf + ·) (hoffs p (h.slot hblock))
          rw [hstart'] at hshape' hallocated hcarved
          exact Or.inr ⟨_, _, _, _, rfl, hshape', h.allocated_grow hlastfree hpos hallocated,
            h.carved_grow hlastfree hpos hp hlt hlt' hcarved⟩

/-- `alloc` throws and changes nothing, or takes the first fit. -/
theorem Shape.alloc_eq (h : s.WellFormed blocks frees) (N : ℕ) :
    s.alloc N = .threw s ∨ ∃ q, s.FirstFit (units N) q ∧ s.alloc N = s.place (units N) q := by
  have hlength : frees.length < loopBound := by
    have hsub : frees.length ≤ blocks.length :=
      (h.chain.nodup.subperm fun b hb ↦ h.block_of_free hb).length_le
    have hblocks := h.tiles.length_le
    have hdataEnd := h.placed.dataEnd_le
    have hbufend := h.placed.buf_end
    obtain ⟨count, hcount⟩ := h.placed.array
    rw [loopBound]
    omega
  exact allocLoop_spec (n := units N) (show s.WellFormed blocks ([] ++ frees) from h)
    h.head_next (fun q hq ↦ (List.not_mem_nil hq).elim) hlength

/-- `alloc` throws and changes nothing, or makes a block live, of which the first fit was a part. -/
theorem alloc_spec (h : s.WellFormed blocks frees) (N : ℕ) (hclean : s.Allocatable (units N)) :
    s.alloc N = .threw s ∨ ∃ p s' blocks' frees' q, s.alloc N = .returned p s' ∧
      s'.WellFormed blocks' frees' ∧ 32 * (p.idx + 1) ≤ s.bufsize ∧
      s.Allocated s' blocks blocks' (s.getMeta p.idx) (units N) ∧ s.FirstFit (units N) q ∧
      s.Carved s' frees frees' q (s.getMeta p.idx) (units N) := by
  rcases h.alloc_eq N with hthrew | ⟨q, hfit, hplace⟩
  · exact Or.inl hthrew
  · rcases place_spec h (units_pos N) hclean hfit with
      hthrew | ⟨b, s', blocks', frees', hreturned, hshape, hallocated, hcarved⟩
    · exact Or.inl (hplace.trans hthrew)
    · obtain ⟨hmeta, hbound⟩ := hallocated.index hshape.placed
      refine Or.inr ⟨_, s', blocks', frees', q, hplace.trans hreturned, hshape,
        hbound, ?_, hfit, ?_⟩
      · rwa [hmeta]
      · rwa [hmeta]

end Allocator

end CppMtHw.Allocation
