import CppMtHw.Allocation.FreeList
import Mathlib.Tactic.Tauto

/-!
# Splitting a block

`alloc` cuts the request off the front of a free block. The front gets a `MetaInfo` of
its own: one that describes no block, or a new one, which `addMeta` takes from the end of
the last free block.
-/

namespace CppMtHw.Allocation

open Machine

namespace Allocator

variable {s s' : Allocator} {blocks frees loose front back : List ℕ} {spare : Option ℕ}
  {m mi n p t w x : ℕ}

/-! ## Headers -/

theorem info_setHeader (hp : s.Placed) (ht : s.DataWord t) (hm : s.Slot m) :
    (s.setHeader t w).info m = s.info m := by
  refine info_congr fun x hx hlt ↦ Bytes.store_of_not_mem ?_
  by_contra hmem
  exact hp.dataWord_not_managed (x := x) ht (by omega) (by omega) (slot_managed hm hx hlt)

theorem frame_setHeader : Frame (fun x ↦ t ≤ x ∧ x < t + 8) s (s.setHeader t w) :=
  ⟨rfl, rfl, rfl, rfl, Bytes.sameOutside_store fun _ hx hlt ↦ ⟨hx, hlt⟩⟩

theorem header_setHeader (hw : w < 2 ^ 64) : (s.setHeader t w).header t = w := load_store_word hw

/-- What is written when `n` units are cut off the front of a block. -/
def SplitBytes (s : Allocator) (p n x : ℕ) : Prop :=
  s.Managed x ∨ s.buf + s.offs p ≤ x ∧ x < s.buf + s.offs p + 8 ∨
    s.buf + (s.offs p + 8 * n) ≤ x ∧ x < s.buf + (s.offs p + 8 * n) + 8

/-- The object `mi` describes the first `n` units of the block, and the block the others. -/
structure Split (s s' : Allocator) (mi p n : ℕ) : Prop where
  frame : Frame (s.SplitBytes p n) s s'
  other : ∀ m, s.Slot m → m ≠ mi → m ≠ p → s'.info m = s.info m
  cut : s'.info mi = { s.info mi with offs := s.offs p, size := sizeWord n true }
  remainder : s'.info p = { s.info p with
    offs := s.offs p + 8 * n, size := sizeWord (s.getSize p - n) (s.isOccupied p) }
  header_cut : s'.header (s.buf + s.offs p) = mi
  header_remainder : s'.header (s.buf + (s.offs p + 8 * n)) = p

theorem Split.next (h : s.Split s' mi p n) (hm : s.Slot m) : s'.next m = s.next m := by
  by_cases hmmi : m = mi
  · rw [hmmi]
    exact congrArg Info.next h.cut
  · by_cases hmp : m = p
    · rw [hmp]
      exact congrArg Info.next h.remainder
    · exact congrArg Info.next (h.other m hm hmmi hmp)

theorem Split.prev (h : s.Split s' mi p n) (hm : s.Slot m) : s'.prev m = s.prev m := by
  by_cases hmmi : m = mi
  · rw [hmmi]
    exact congrArg Info.prev h.cut
  · by_cases hmp : m = p
    · rw [hmp]
      exact congrArg Info.prev h.remainder
    · exact congrArg Info.prev (h.other m hm hmmi hmp)

/-- The first assignments of a split, in `addMeta`. -/
def describe (s : Allocator) (mi start n : ℕ) : Allocator :=
  ((s.setSize mi n).setOffs mi (usub start s.buf)).setHeader start mi

def cutOff (s : Allocator) (mi p n : ℕ) : Allocator :=
  let s := s.setOccupied mi true
  let memFree := wrap (s.buf + s.offs p + n * 8)
  let s := s.setHeader memFree p
  let s := s.setSize p (usub (s.getSize p) n)
  s.setOffs p (usub memFree s.buf)

theorem describe_spec (hp : s.Placed) (hmi : s.Slot mi) (hn : n < 2 ^ 63)
    (ht : s.DataWord (s.buf + t)) :
    Frame (fun x ↦ s.Managed x ∨ s.buf + t ≤ x ∧ x < s.buf + t + 8) s
      (s.describe mi (s.buf + t) n) ∧ (∀ m, s.Slot m → (s.describe mi (s.buf + t) n).info m =
        if m = mi then { s.info mi with offs := t, size := sizeWord n (s.isOccupied mi) }
        else s.info m) ∧ (s.describe mi (s.buf + t) n).header (s.buf + t) = mi := by
  have hend := hp.slot_end hmi
  have hbufend := hp.buf_end
  obtain ⟨count, hcount⟩ := hp.array
  have htlt : t < 2 ^ 64 := by
    have := ht.2
    omega
  have hoffs : usub (s.buf + t) s.buf = t := by
    rw [usub_of_le (Nat.le_add_right _ _), Nat.add_sub_cancel_left]
  have hrecords := ((Records.refl s).setSize hp hmi hn).setOffs hp hmi htlt
  rw [describe, hoffs]
  have hframe := hrecords.frame
  have hword : ((s.setSize mi n).setOffs mi t).DataWord (s.buf + t) := by
    rw [DataWord, hframe.buf, hframe.metas]
    exact ht
  refine ⟨(hframe.mono fun x hx ↦ Or.inl hx).trans (frame_setHeader.mono fun x hx ↦ Or.inr hx),
    fun m hm ↦ ?_, header_setHeader (by omega)⟩
  rw [info_setHeader (hframe.placed hp) hword (hframe.slot.mpr hm), hrecords.info m hm, if_pos rfl]
  by_cases heq : m = mi
  · rw [if_pos heq, if_pos heq]
    simp only [isOccupied]
    rfl
  · rw [if_neg heq, if_neg heq, if_neg heq]

/-- The assignments together split the block. -/
theorem split_spec (hp : s.Placed) (hmi : s.Slot mi) (hpslot : s.Slot p) (hne : p ≠ mi) (hn : 0 < n)
    (hlt : n < s.getSize p) (hend : s.buf + (s.offs p + 8 * s.getSize p) ≤ s.metas) :
    s.Split ((s.describe mi (s.buf + s.offs p) n).cutOff mi p n) mi p n := by
  have hpend := hp.slot_end hpslot
  have hbufend := hp.buf_end
  obtain ⟨count, hcount⟩ := hp.array
  have hgetSize := getSize_lt s p
  have hn63 : n < 2 ^ 63 := Nat.lt_trans hlt hgetSize
  obtain ⟨hframe₁, hinfo₁, hheader₁⟩ := describe_spec (n := n) (t := s.offs p) hp hmi hn63
    ⟨Nat.le_add_right _ _, by omega⟩
  generalize s.describe mi (s.buf + s.offs p) n = s₁ at hframe₁ hinfo₁ hheader₁ ⊢
  have hp₁ := hframe₁.placed hp
  have hmi₁ := hframe₁.slot.mpr hmi
  have hset := (Records.refl s₁).setOccupied hp₁ hmi₁ true
  rw [cutOff]
  have hinfo₂ : ∀ m, s.Slot m → (s₁.setOccupied mi true).info m =
      if m = mi then { s.info mi with offs := s.offs p, size := sizeWord n true }
        else s.info m := by
    intro m hm
    rw [hset.info m (hframe₁.slot.mpr hm), hinfo₁ mi hmi, if_pos rfl, hinfo₁ m hm]
    by_cases heq : m = mi
    · rw [if_pos heq, if_pos heq]
      simp only [getSize_sizeWord hn63]
    · rw [if_neg heq, if_neg heq, if_neg heq]
  have hframe₂ : Frame (fun x ↦ s.Managed x ∨ s.buf + s.offs p ≤ x ∧ x < s.buf + s.offs p + 8) s
      (s₁.setOccupied mi true) :=
    hframe₁.trans (hset.frame.mono fun x hx ↦ Or.inl (hframe₁.managed.mp hx))
  have hheader₂ : (s₁.setOccupied mi true).header (s.buf + s.offs p) = mi := by
    refine (hset.frame.header_eq hp₁ ?_).trans hheader₁
    rw [DataWord, hframe₁.buf, hframe₁.metas]
    exact ⟨Nat.le_add_right _ _, by omega⟩
  generalize s₁.setOccupied mi true = s₂ at hinfo₂ hframe₂ hheader₂ ⊢
  have hinfop : s₂.info p = s.info p := (hinfo₂ p hpslot).trans (if_neg hne)
  have hoffs₂ : s₂.offs p = s.offs p := congrArg Info.offs hinfop
  have hmemFree : wrap (s₂.buf + s₂.offs p + n * 8) = s.buf + (s.offs p + 8 * n) := by
    rw [hframe₂.buf, hoffs₂, wrap, Nat.mod_eq_of_lt (by omega)]
    omega
  simp only [hmemFree]
  have hp₂ := hframe₂.placed hp
  have hword₂ : s₂.DataWord (s.buf + (s.offs p + 8 * n)) := by
    rw [DataWord, hframe₂.buf, hframe₂.metas]
    exact ⟨Nat.le_add_right _ _, by omega⟩
  have hinfo₃ : ∀ m, s.Slot m → (s₂.setHeader (s.buf + (s.offs p + 8 * n)) p).info m = s₂.info m :=
    fun m hm ↦ info_setHeader hp₂ hword₂ (hframe₂.slot.mpr hm)
  have hframe₃ : Frame (s.SplitBytes p n) s (s₂.setHeader (s.buf + (s.offs p + 8 * n)) p) :=
    (hframe₂.mono fun x hx ↦ hx.imp_right Or.inl).trans
      (frame_setHeader.mono fun x hx ↦ Or.inr (Or.inr hx))
  have hheader₃ : (s₂.setHeader (s.buf + (s.offs p + 8 * n)) p).header (s.buf + s.offs p) = mi := by
    refine Eq.trans (Bytes.load_store_of_disjoint (Or.inl ?_)) hheader₂
    omega
  have hheader₃' : (s₂.setHeader (s.buf + (s.offs p + 8 * n)) p).header
      (s.buf + (s.offs p + 8 * n)) = p := header_setHeader (by omega)
  generalize s₂.setHeader (s.buf + (s.offs p + 8 * n)) p = s₃ at hinfo₃ hframe₃ hheader₃ hheader₃' ⊢
  have hinfop₃ : s₃.info p = s.info p := (hinfo₃ p hpslot).trans hinfop
  have hsize₃ : s₃.size p = s.size p := congrArg Info.size hinfop₃
  have hgetSize₃ : s₃.getSize p = s.getSize p := by rw [getSize, hsize₃, getSize]
  have hsz : usub (s₃.getSize p) n = s.getSize p - n := by
    rw [hgetSize₃, usub_of_le (Nat.le_of_lt hlt)]
  have hbuf₃ : (s₃.setSize p (s.getSize p - n)).buf = s.buf := hframe₃.buf
  have hoffs₃ : usub (s.buf + (s.offs p + 8 * n)) s.buf = s.offs p + 8 * n := by
    rw [usub_of_le (Nat.le_add_right _ _), Nat.add_sub_cancel_left]
  rw [hsz, hbuf₃, hoffs₃]
  have hp₃ := hframe₃.placed hp
  have hpslot₃ := hframe₃.slot.mpr hpslot
  have hlast := ((Records.refl s₃).setSize hp₃ hpslot₃
    (show s.getSize p - n < 2 ^ 63 by omega)).setOffs (w := s.offs p + 8 * n) hp₃ hpslot₃ (by omega)
  have hdata₃ : ∀ t, s.DataWord t → ((s₃.setSize p (s.getSize p - n)).setOffs p
      (s.offs p + 8 * n)).header t = s₃.header t := by
    intro t ht
    refine hlast.frame.header_eq hp₃ ?_
    rw [DataWord, hframe₃.buf, hframe₃.metas]
    exact ht
  refine ⟨hframe₃.trans (hlast.frame.mono fun x hx ↦ Or.inl (hframe₃.managed.mp hx)),
    fun m hm hmmi hmp ↦ ?_, ?_, ?_, ?_, ?_⟩
  · rw [hlast.info m (hframe₃.slot.mpr hm), if_neg hmp, if_neg hmp, hinfo₃ m hm,
      hinfo₂ m hm, if_neg hmmi]
  · rw [hlast.info mi (hframe₃.slot.mpr hmi), if_neg hne.symm, if_neg hne.symm, hinfo₃ mi hmi,
      hinfo₂ mi hmi, if_pos rfl]
  · rw [hlast.info p hpslot₃, if_pos rfl, if_pos rfl, hinfop₃]
    rfl
  · rw [hdata₃ _ ⟨Nat.le_add_right _ _, by omega⟩, hheader₃]
  · rw [hdata₃ _ ⟨Nat.le_add_right _ _, by omega⟩, hheader₃']

/-- A word of a block other than the one that is split is not written. -/
theorem Shape.not_splitBytes (h : s.Shape (front ++ p :: back) frees loose spare)
    (hn : n < s.getSize p) (hm : m ∈ front ++ p :: back) (hne : m ≠ p) (hx : s.buf + s.offs m ≤ x)
    (hlt : x < s.buf + s.offs m + 8 * s.getSize m) : ¬s.SplitBytes p n x := by
  have hend := (h.bounds hm).2.1
  have hdataEnd := h.placed.dataEnd_le
  have hnot : ¬s.Managed x := by
    have hapart := h.placed.head_apart
    obtain ⟨count, hcount⟩ := h.placed.array
    rintro (⟨hle, hx'⟩ | ⟨hle, hx'⟩) <;> omega
  have hapart : s.offs m + 8 * s.getSize m ≤ s.offs p ∨ s.offs p + 8 * s.getSize p ≤ s.offs m := by
    have hpairwise := h.tiles.pairwise
    rw [List.pairwise_append, List.pairwise_cons] at hpairwise
    rcases List.mem_append.mp hm with hm | hm
    · exact Or.inl (hpairwise.2.2 m hm p List.mem_cons_self)
    · rcases List.mem_cons.mp hm with heq | hm
      · exact absurd heq hne
      · exact Or.inr (hpairwise.2.1.1 m hm)
  rintro (hx' | ⟨hle, hx'⟩ | ⟨hle, hx'⟩)
  · exact hnot hx'
  · omega
  · omega

theorem Shape.split (h : s.Shape (front ++ p :: back) frees [] (some mi)) (hmi : s.MetaSlot mi)
    (hminot : mi ∉ front ++ p :: back) (hlast : mi ≠ s.lastFree) (hpfree : p ∈ frees) (hn : 0 < n)
    (hlt : n < s.getSize p) (hsplit : s.Split s' mi p n) :
    s'.WellFormed (front ++ mi :: p :: back) frees := by
  have hframe := hsplit.frame
  have hpmem : p ∈ front ++ p :: back := by simp
  have hpne : p ≠ mi := fun heq ↦ hminot (heq ▸ hpmem)
  have hpocc := ((h.free_iff p).mp hpfree).2.1
  have hpsize := getSize_lt s p
  have hsizemi : s'.size mi = sizeWord n true := congrArg Info.size hsplit.cut
  have hsizep : s'.size p = sizeWord (s.getSize p - n) (s.isOccupied p) :=
    congrArg Info.size hsplit.remainder
  have hgetmi : s'.getSize mi = n := by
    rw [getSize, hsizemi, getSize_sizeWord (by omega)]
  have hgetp : s'.getSize p = s.getSize p - n := by
    rw [getSize, hsizep, getSize_sizeWord (by omega)]
  have hoffsmi : s'.offs mi = s.offs p := congrArg Info.offs hsplit.cut
  have hoffsp : s'.offs p = s.offs p + 8 * n := congrArg Info.offs hsplit.remainder
  have hoccmi : s'.isOccupied mi := by
    rw [isOccupied, hsizemi, signMask_le_sizeWord (by omega)]
  have hnext : ∀ m, s.Slot m → s'.next m = s.next m := fun m hm ↦ hsplit.next hm
  have hprev : ∀ m, s.Slot m → s'.prev m = s.prev m := fun m hm ↦ hsplit.prev hm
  have hocc : ∀ m, s.Slot m → m ≠ mi → (s'.isOccupied m ↔ s.isOccupied m) := fun m hm hne ↦ by
    by_cases hp : m = p
    · rw [hp, isOccupied, hsizep, signMask_le_sizeWord (by omega), decide_eq_true_iff]
    · have hsize : s'.size m = s.size m := congrArg Info.size (hsplit.other m hm hne hp)
      rw [isOccupied, hsize, isOccupied]
  have hkept : ∀ m ∈ front ++ p :: back, m ≠ p → s'.offs m = s.offs m ∧ s'.getSize m = s.getSize m ∧
      s'.header (s.buf + s.offs m) = s.header (s.buf + s.offs m) := by
    intro m hm hne
    have hinfo := hsplit.other m (h.slot hm) (fun heq ↦ hminot (heq ▸ hm)) hne
    have hsize : s'.size m = s.size m := congrArg Info.size hinfo
    have hpos := (h.bounds hm).1
    exact ⟨congrArg Info.offs hinfo, by rw [getSize, hsize, getSize],
      hframe.mem.load_eq fun x hx hxlt ↦ h.not_splitBytes hlt hm hne hx (by omega)⟩
  have hnodup := h.tiles.nodup
  have hfrontp : p ∉ front := fun hmem ↦ by
    rw [List.nodup_append] at hnodup
    exact hnodup.2.2 p hmem p List.mem_cons_self rfl
  have hbackp : p ∉ back := (List.nodup_cons.mp (List.nodup_append.mp hnodup).2.1).1
  have hmem : ∀ m, m ∈ front ++ mi :: p :: back ↔ m = mi ∨ m ∈ front ++ p :: back := fun m ↦ by
    simp only [List.mem_append, List.mem_cons]
    exact or_left_comm
  have hslotfree : ∀ m ∈ frees, s.Slot m := fun m hm ↦ h.slot (h.block_of_free hm)
  refine ⟨hframe.placed h.placed, ?_, fun m hm ↦ hframe.metaSlot.mpr ?_, ?_, ?_, fun m ↦ ?_,
    fun m hm ↦ (List.not_mem_nil hm).elim, fun m hmslot hm _ ↦ ?_, ?_⟩
  · obtain ⟨mid, hfront, hoffs, hsize, hheader, hback⟩ := tiles_append.mp h.tiles
    rw [hframe.dataEnd]
    refine tiles_append.mpr ⟨mid, hfront.congr hframe.buf fun m hm ↦ ?_, ?_, ?_, ?_, ?_, ?_, ?_, ?_⟩
    · exact hkept m (List.mem_append_left _ hm) fun heq ↦ hfrontp (heq ▸ hm)
    · rw [hoffsmi, hoffs]
    · rwa [hgetmi]
    · rw [hframe.buf, ← hoffs]
      exact hsplit.header_cut
    · rw [hoffsp, hgetmi, hoffs]
    · rw [hgetp]
      omega
    · rw [hframe.buf, hgetmi, ← hoffs]
      exact hsplit.header_remainder
    · rw [hgetmi, hgetp]
      have hmid : mid + 8 * n + 8 * (s.getSize p - n) = mid + 8 * s.getSize p := by omega
      rw [hmid]
      exact hback.congr hframe.buf fun m hm ↦
        hkept m (List.mem_append_right _ (List.mem_cons_of_mem p hm)) fun heq ↦ hbackp (heq ▸ hm)
  · rcases (hmem m).mp hm with rfl | hm
    · exact hmi
    · exact h.slots m hm
  · rw [hframe.head, nextLink, hnext s.head (Or.inl rfl)]
    exact h.chain.congr fun m hm ↦ by rw [nextLink, hnext m (hslotfree m hm), nextLink]
  · rw [hframe.head]
    exact h.back.congr fun m hm ↦ by rw [prevLink, hprev m (hslotfree m hm), prevLink]
  · rw [hmem, h.free_iff]
    by_cases heq : m = mi
    · rw [heq]
      simp [hminot, hoccmi]
    · simp only [heq, false_or]
      exact and_congr_right fun hm ↦ by rw [hocc m (h.slot hm) heq]
  · rw [hframe.metaSlot] at hmslot
    rw [hmem, not_or] at hm
    rw [isUsed, hocc m (Or.inr hmslot) hm.1, hnext m (Or.inr hmslot), hprev m (Or.inr hmslot)]
    exact h.unused m hmslot hm.2 (by simpa using hm.1)
  · have hlastEq := h.last
    rw [hframe.lastFree, hframe.dataEnd]
    by_cases hp : s.lastFree = p
    · rw [hp] at hlastEq ⊢
      rw [hoffsp, hgetp]
      omega
    · have hinfo := hsplit.other s.lastFree (Or.inr h.placed.lastFree_slot) hlast.symm hp
      have hoffs : s'.offs s.lastFree = s.offs s.lastFree := congrArg Info.offs hinfo
      have hsize : s'.size s.lastFree = s.size s.lastFree := congrArg Info.size hinfo
      rw [hoffs, getSize, hsize]
      exact hlastEq

/-! ## A new object -/

/-- A block that ends where the data part ends is the last one. -/
theorem Shape.eq_concat (h : s.Shape blocks frees loose spare) (hm : m ∈ blocks)
    (hend : s.offs m + 8 * s.getSize m = s.dataEnd) : ∃ front, blocks = front ++ [m] := by
  obtain ⟨front, back, rfl⟩ := List.append_of_mem hm
  cases back with
  | nil => exact ⟨front, rfl⟩
  | cons c back =>
      have hpairwise := h.tiles.pairwise
      rw [List.pairwise_append, List.pairwise_cons] at hpairwise
      have hc := hpairwise.2.1.1 c List.mem_cons_self
      have hcmem : c ∈ front ++ m :: c :: back := by simp
      obtain ⟨hpos, hle, -⟩ := h.bounds hcmem
      omega

/-- `addMeta` when it makes a new object: the last free block shrinks. -/
def grow (s : Allocator) : Allocator :=
  { s with metas := s.metas - 32 }.setSize s.lastFree
    ((s.metas - 32 - (s.buf + s.offs s.lastFree)) / 8)

theorem setSize_mem (s : Allocator) (m sz : ℕ) :
    Bytes.SameOutside (fun x ↦ m ≤ x ∧ x < m + 32) s.mem (s.setSize m sz).mem := by
  have hfirst : Bytes.SameOutside (fun x ↦ m ≤ x ∧ x < m + 32) s.mem (s.store (m + 24) sz).mem :=
    Bytes.sameOutside_store fun x hx hlt ↦ ⟨by omega, by omega⟩
  exact hfirst.trans (Bytes.sameOutside_store fun x hx hlt ↦ ⟨by omega, by omega⟩)

theorem Placed.lower (hp : s.Placed) (hroom : s.buf + 32 ≤ s.metas) :
    Placed { s with metas := s.metas - 32 } := by
  obtain ⟨count, hcount⟩ := hp.array
  exact ⟨⟨count + 1, by show s.metas - 32 + 32 * (count + 1 + 1) = s.buf + s.bufsize; omega⟩,
    hp.buf_low, by show s.buf ≤ s.metas - 32; omega, hp.buf_end, hp.head_pos,
    hp.head_end, hp.head_apart⟩

/-- The array has one object more. -/
theorem Placed.metaSlot_lower (hp : s.Placed) (hroom : s.buf + 32 ≤ s.metas) :
    MetaSlot { s with metas := s.metas - 32 } m ↔ s.MetaSlot m ∨ m = s.metas - 32 := by
  obtain ⟨count, hcount⟩ := hp.array
  constructor
  · rintro ⟨hle, i, hi⟩
    change s.metas - 32 ≤ m at hle
    change m + 32 * (i + 1) = s.buf + s.bufsize at hi
    by_cases hm : s.metas ≤ m
    · exact Or.inl ⟨hm, i, hi⟩
    · exact Or.inr (by omega)
  · rintro (⟨hle, i, hi⟩ | rfl)
    · exact ⟨by show s.metas - 32 ≤ m; omega, i, hi⟩
    · exact ⟨Nat.le_refl _, count + 1, by
        show s.metas - 32 + 32 * (count + 1 + 1) = s.buf + s.bufsize; omega⟩

theorem slot_lower (hm : s.Slot m) : Slot { s with metas := s.metas - 32 } m := by
  refine hm.imp_right fun hm ↦ ⟨?_, hm.2⟩
  show s.metas - 32 ≤ m
  exact Nat.le_trans (Nat.sub_le _ _) hm.1

/-- Of the objects there were, only the first has changed, in its size. -/
theorem Placed.resized_grow (hp : s.Placed) (hroom : s.buf + 32 ≤ s.metas) :
    Resized s s.grow s.lastFree ((s.metas - 32 - (s.buf + s.offs s.lastFree)) / 8) := by
  have hlastslot : s.Slot s.lastFree := Or.inr hp.lastFree_slot
  obtain ⟨count, hcount⟩ := hp.array
  have hbufend := hp.buf_end
  have hsz : (s.metas - 32 - (s.buf + s.offs s.lastFree)) / 8 < 2 ^ 63 := by omega
  exact resized_of_info hlastslot hsz fun m hm ↦
    info_setSize (hp.lower hroom) (slot_lower hlastslot) (slot_lower hm) hsz

/-- The last free block and the new object are what changes. -/
theorem Shape.grow (h : s.WellFormed blocks frees) (hlast : s.lastFree ∈ frees)
    (hroom : 0 < (s.metas - 32 - (s.buf + s.offs s.lastFree)) / 8) :
    s.grow.Shape blocks frees [] (some (s.metas - 32)) ∧ s.grow.MetaSlot (s.metas - 32) ∧
      s.metas - 32 ∉ blocks ∧ s.metas - 32 ≠ s.lastFree ∧
      s.grow.getSize s.lastFree = (s.metas - 32 - (s.buf + s.offs s.lastFree)) / 8 ∧
      (∀ m, s.Slot m → m ≠ s.lastFree → s.grow.info m = s.info m) ∧
      (∀ m, s.Slot m → s.grow.offs m = s.offs m) ∧ (∀ m, s.Slot m → s.grow.prev m = s.prev m) ∧
      Bytes.SameOutside s.Managed s.mem s.grow.mem := by
  have hp := h.placed
  have hlastmem := h.block_of_free hlast
  obtain ⟨front, rfl⟩ := h.eq_concat hlastmem h.last
  have hlastslot := hp.lastFree_slot
  have hroom' : s.buf + 32 ≤ s.metas := by omega
  have hp₀ := hp.lower hroom'
  have hmeta₀ := fun m ↦ hp.metaSlot_lower (m := m) hroom'
  have hresized := hp.resized_grow hroom'
  have hframe : Frame _ _ ({ s with metas := s.metas - 32 }.setSize s.lastFree
    ((s.metas - 32 - (s.buf + s.offs s.lastFree)) / 8)) :=
      frame_setSize (slot_lower (Or.inr hlastslot))
  have hmem := setSize_mem { s with metas := s.metas - 32 } s.lastFree
    ((s.metas - 32 - (s.buf + s.offs s.lastFree)) / 8)
  rw [Allocator.grow] at hresized ⊢
  generalize { s with metas := s.metas - 32 }.setSize s.lastFree
    ((s.metas - 32 - (s.buf + s.offs s.lastFree)) / 8) = s' at hframe hresized hmem ⊢
  have hgetlast := hresized.getSize
  have hnew : s.metas - 32 ∉ front ++ [s.lastFree] := fun hmem ↦ by
    have := (h.slots _ hmem).1
    omega
  have hnewlast : s.metas - 32 ≠ s.lastFree := fun heq ↦ hnew (heq ▸ hlastmem)
  have hdataEnd : s'.dataEnd = 8 * ((s.metas - 32 - s.buf) / 8) := hframe.dataEnd
  have hnodup := h.tiles.nodup
  have hheader : ∀ m ∈ front ++ [s.lastFree], s.offs m ≤ s.offs s.lastFree →
      s'.header (s.buf + s.offs m) = s.header (s.buf + s.offs m) := fun m _ hle ↦
    hframe.header_eq hp₀ ⟨Nat.le_add_right _ _, by show s.buf + s.offs m + 8 ≤ s.metas - 32; omega⟩
  have hslotfree : ∀ m ∈ frees, s.Slot m := fun m hm ↦ h.slot (h.block_of_free hm)
  refine ⟨⟨hframe.placed hp₀, ?_, fun m hm ↦ hframe.metaSlot.mpr
    ((hmeta₀ m).mpr (Or.inl (h.slots m hm))),
    ?_, ?_, fun m ↦ ?_, fun m hm ↦ (List.not_mem_nil hm).elim, fun m hmslot hm hspare ↦ ?_, ?_⟩,
    hframe.metaSlot.mpr ((hmeta₀ _).mpr (Or.inr rfl)), hnew, hnewlast, hgetlast, hresized.info,
    hresized.offs, hresized.prev, ?_⟩
  · obtain ⟨mid, hfront, hoffslast, hsizelast', hheaderlast, -⟩ := tiles_append.mp h.tiles
    have hdvd := (h.bounds hlastmem).2.2.2
    refine tiles_append.mpr ⟨mid, hfront.congr hframe.buf fun m hm ↦ ?_, ?_, ?_, ?_, ?_⟩
    · have hm' : m ∈ front ++ [s.lastFree] := List.mem_append_left _ hm
      have hne : m ≠ s.lastFree := fun heq ↦ by
        rw [List.nodup_append] at hnodup
        exact hnodup.2.2 m hm s.lastFree (by simp) heq
      have hle := (hfront.bounds hm).2.2.1
      exact ⟨hresized.offs m (h.slot hm'), hresized.getSize_of_ne (h.slot hm') hne,
        hheader m hm' (by omega)⟩
    · rw [hresized.offs _ (Or.inr hlastslot), hoffslast]
    · rwa [hgetlast]
    · rw [hframe.buf]
      show s'.header (s.buf + mid) = s.lastFree
      rw [← hoffslast, hheader _ hlastmem (Nat.le_refl _), hoffslast]
      exact hheaderlast
    · show mid + 8 * s'.getSize s.lastFree = s'.dataEnd
      rw [hgetlast, hdataEnd]
      omega
  · rw [hframe.head, nextLink]
    exact (congrArg (Chain s'.nextLink · frees)
      (congrArg link (hresized.next s.head (Or.inl rfl)))).mpr
      (h.chain.congr fun m hm ↦ by rw [nextLink, hresized.next m (hslotfree m hm), nextLink])
  · rw [hframe.head]
    exact h.back.congr fun m hm ↦ by rw [prevLink, hresized.prev m (hslotfree m hm), prevLink]
  · rw [h.free_iff]
    exact and_congr_right fun hm ↦ by rw [hresized.occupied m (h.slot hm)]
  · have hmslot' : s.MetaSlot m := by
      rcases (hmeta₀ m).mp (hframe.metaSlot.mp hmslot) with hm' | hm'
      · exact hm'
      · exact absurd (congrArg some hm') hspare
    rw [isUsed, hresized.occupied m (Or.inr hmslot'), hresized.next m (Or.inr hmslot'),
      hresized.prev m (Or.inr hmslot')]
    exact h.unused m hmslot' hm (by simp)
  · have hdvd := (h.bounds hlastmem).2.2.2
    rw [hframe.lastFree]
    show s'.offs s.lastFree + 8 * s'.getSize s.lastFree = s'.dataEnd
    rw [hgetlast, hdataEnd, hresized.offs _ (Or.inr hlastslot)]
    omega
  · exact hmem.mono fun x hx ↦ slot_managed (Or.inr hlastslot) hx.1 hx.2

end Allocator

end CppMtHw.Allocation
