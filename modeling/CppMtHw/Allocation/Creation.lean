import CppMtHw.Allocation.Allocating

/-!
# A new allocator

The constructor makes the buffer, up to the first `MetaInfo` at its end, one free block.
The buffer must have room for the object and one unit.
-/

namespace CppMtHw.Allocation

open Machine

namespace Allocator

variable {s : Allocator} {v n : ℕ}

def initHead (s : Allocator) : Allocator :=
  (((s.setNext s.head 0).setPrev s.head 0).store (s.head + 24) 0).setOffs s.head 0

/-- The first block, when its object is already counted in. -/
def firstBlock (s : Allocator) (v n : ℕ) : Allocator :=
  (((s.setSize s.metas v).describe s.metas s.buf n).setOccupied s.metas false).insertFree s.metas

/-- A buffer, and the object beside it, with room for a `MetaInfo` and one unit. -/
structure Suitable (object base size : ℕ) : Prop where
  room : 40 ≤ size
  base_low : 32 ≤ base
  base_end : base + size < 2 ^ 64
  object_pos : 0 < object
  object_end : object + 32 < 2 ^ 64
  apart : object + 32 ≤ base ∨ base + size ≤ object

theorem create_unfold (mem : Bytes) (object base size : ℕ) : create mem object base size =
    let s := initHead ⟨mem, object, wrap (base + size), base, size⟩
    match s.addMeta s.buf (usub (usub s.metas s.buf) 32 / 8) with
    | .returned firstBlock s =>
      .returned () ((s.setOccupied firstBlock false).insertFree firstBlock)
    | .threw s => .threw s
    | .diverged => .diverged := rfl

/-- What the memory holds in place of `offs` of the first `MetaInfo`. -/
def oldOffs (mem : Bytes) (base size : ℕ) : ℕ := mem.load (base + size - 32 + 16)

theorem initHead_offs {s : Allocator} {m : ℕ} (h : s.head + 32 ≤ m ∨ m + 32 ≤ s.head) :
    s.initHead.offs m = s.offs m := by
  have hlater : ∀ {mem : Bytes} {k w : ℕ}, k + 8 ≤ 32 → (mem.store (s.head + k) w).load (m + 16) =
      mem.load (m + 16) := fun hk ↦ Bytes.load_store_of_disjoint (by omega)
  have hfirst : (s.mem.store s.head 0).load (m + 16) = s.mem.load (m + 16) :=
    hlater (k := 0) (by omega)
  refine (hlater (k := 16) (by omega)).trans ?_
  refine (hlater (k := 24) (by omega)).trans ?_
  exact (hlater (k := 8) (by omega)).trans hfirst

/-- The constructor throws, or leaves the first block. What it finds in place of the first
`MetaInfo` decides, and gives an intermediate size. -/
theorem create_eq (mem : Bytes) {object base size : ℕ} (h : Suitable object base size) :
    (base + size - 32 ≤ wrap (base + oldOffs mem base size) ∧
      ∃ s, create mem object base size = .threw s) ∨
      wrap (base + oldOffs mem base size) < base + size - 32 ∧ ∃ v < 2 ^ 63,
        create mem object base size = .returned ()
          ((initHead ⟨mem, object, base + size - 32, base, size⟩).firstBlock v
            ((size - 32) / 8)) := by
  have hend := h.base_end
  have hroom := h.room
  have hwrap : wrap (base + size) = base + size := Nat.mod_eq_of_lt hend
  have hwhole : usub (base + size) base = size := by
    rw [usub_of_le (by omega), Nat.add_sub_cancel_left]
  have hunits : usub size 32 / 8 = (size - 32) / 8 := by rw [usub_of_le (by omega)]
  have hmetas : usub (base + size) 32 = base + size - 32 := usub_of_le (by omega)
  rw [create_unfold, hwrap]
  have hs : ∃ s : Allocator, s = initHead ⟨mem, object, base + size, base, size⟩ := ⟨_, rfl⟩
  obtain ⟨s, hs⟩ := hs
  have hsbuf : s.buf = base := by rw [hs]; rfl
  have hsmetas : s.metas = base + size := by rw [hs]; rfl
  have hsend : s.bufEnd = base + size := by rw [hs]; exact hwrap
  have hsoffs : s.offs (base + size - 32) = oldOffs mem base size := by
    rw [hs]
    exact initHead_offs (h.apart.imp (fun hle ↦ by show object + 32 ≤ _; omega) fun hle ↦ by
      show _ ≤ object
      omega)
  have hsnew : ({ s with metas := base + size - 32 } : Allocator) =
      initHead ⟨mem, object, base + size - 32, base, size⟩ := by rw [hs]; rfl
  rw [← hs, ← hsnew]
  simp only [hsbuf, hsmetas, hwhole, hunits]
  have hlast : s.getMeta 0 = base + size - 32 := by
    have hone : wrap (32 * (0 + 1)) = 32 := by decide
    rw [getMeta, hsend, hone, hmetas]
  have hreusable : s.reusable = none := by
    have hcount : (base + size - 32 - (base + size)) / 32 = 0 := by omega
    rw [reusable, hlast, hsmetas, hcount]
    rfl
  rw [addMeta_none base ((size - 32) / 8) hreusable, hlast, hsmetas, hmetas, hsbuf, hsoffs]
  by_cases hfull : base + size - 32 ≤ wrap (base + oldOffs mem base size)
  · rw [if_pos hfull]
    exact Or.inl ⟨hfull, s, rfl⟩
  · rw [if_neg hfull, usub_of_le (by omega)]
    refine Or.inr ⟨by omega, (base + size - 32 - wrap (base + oldOffs mem base size)) / 8, by
      omega, ?_⟩
    simp only [firstBlock]

theorem initHead_spec (hp : s.Placed) :
    Frame s.Managed s s.initHead ∧ s.initHead.next s.head = 0 := by
  have hhead : s.Slot s.head := Or.inl rfl
  have hzero : 0 < 2 ^ 64 := by decide
  have hrecords := ((((Records.refl s).setNext hp hhead hzero).setPrev hp hhead hzero).storeSize hp
    hhead hzero).setOffs hp hhead hzero
  have hinfo := hrecords.info s.head hhead
  simp only [if_pos] at hinfo
  exact ⟨hrecords.frame, congrArg Info.next hinfo⟩

/-- What the first block leaves of `s`: its object describes the whole data part, and the list
begins and ends with it. -/
structure FirstBlock (s s' : Allocator) : Prop where
  frame : Frame (fun x ↦ s.Managed x ∨ s.buf ≤ x ∧ x < s.buf + 8) s s'
  header : s'.header s.buf = s.metas
  first : s'.next s.head = s.metas
  next : s'.next s.metas = 0
  prev : s'.prev s.metas = s.head
  offs : s'.offs s.metas = 0
  size : s'.size s.metas = sizeWord ((s.metas - s.buf) / 8) false

/-- The object of the first block and its header are written, and the head is as it was. -/
theorem describe_first (hp : s.Placed) (hslot : s.MetaSlot s.metas) (hheadne : s.head ≠ s.metas)
    (hroom : s.buf + 8 ≤ s.metas) (hv : v < 2 ^ 63) (hn : n < 2 ^ 63) :
    Frame (fun x ↦ s.Managed x ∨ s.buf ≤ x ∧ x < s.buf + 8) s
        ((s.setSize s.metas v).describe s.metas s.buf n) ∧
      ((s.setSize s.metas v).describe s.metas s.buf n).info s.head = s.info s.head ∧
      ((s.setSize s.metas v).describe s.metas s.buf n).offs s.metas = 0 ∧
      ((s.setSize s.metas v).describe s.metas s.buf n).getSize s.metas = n ∧
      ((s.setSize s.metas v).describe s.metas s.buf n).header s.buf = s.metas := by
  have hsize := (Records.refl s).setSize hp (Or.inr hslot) hv
  have hheadInfo : (s.setSize s.metas v).info s.head = s.info s.head := by
    rw [hsize.info s.head (Or.inl rfl), if_neg hheadne]
  have hframe₁ := hsize.frame
  generalize s.setSize s.metas v = s₁ at hheadInfo hframe₁ ⊢
  have hslot₁ : s₁.Slot s.metas := Or.inr (hframe₁.metaSlot.mpr hslot)
  obtain ⟨hframe₂, hinfo₂, hheader₂⟩ := describe_spec (t := 0) (hframe₁.placed hp) hslot₁ hn
    (show s₁.DataWord (s₁.buf + 0) by
      rw [DataWord, hframe₁.buf, hframe₁.metas]
      exact ⟨Nat.le_refl _, hroom⟩)
  rw [Nat.add_zero, hframe₁.buf] at hframe₂ hinfo₂ hheader₂
  generalize s₁.describe s.metas s.buf n = s₂ at hframe₂ hinfo₂ hheader₂ ⊢
  have hinfom := (hinfo₂ s.metas hslot₁).trans (if_pos rfl)
  have hword : s₂.size s.metas = sizeWord n (s₁.isOccupied s.metas) := congrArg Info.size hinfom
  refine ⟨?_, ?_, congrArg Info.offs hinfom, ?_, hheader₂⟩
  · exact (hframe₁.mono fun x hx ↦ Or.inl hx).trans
      (hframe₂.mono fun x hx ↦ hx.imp_left hframe₁.managed.mp)
  · rw [hinfo₂ s.head (Or.inl hframe₁.head.symm), if_neg hheadne, hheadInfo]
  · rw [getSize, hword, getSize_sizeWord hn]

theorem firstBlock_fields (hp : s.Placed) (hslot : s.MetaSlot s.metas) (hheadne : s.head ≠ s.metas)
    (hroom : s.buf + 8 ≤ s.metas) (hnull : s.next s.head = 0) (hv : v < 2 ^ 63)
    (hn : (s.metas - s.buf) / 8 < 2 ^ 63) :
    FirstBlock s (s.firstBlock v ((s.metas - s.buf) / 8)) := by
  have hpos := hp.slot_pos (Or.inr hslot)
  obtain ⟨hframe, hheadInfo, hoffs, hgetSize, hheader⟩ :=
    describe_first hp hslot hheadne hroom hv hn
  rw [firstBlock]
  generalize (s.setSize s.metas v).describe s.metas s.buf ((s.metas - s.buf) / 8) = s₂
    at hframe hheadInfo hoffs hgetSize hheader ⊢
  have hp₂ := hframe.placed hp
  have hslot₂ : s₂.MetaSlot s.metas := hframe.metaSlot.mpr hslot
  have hset := (Records.refl s₂).setOccupied hp₂ (Or.inr hslot₂) false
  have hhead₂ : (s₂.setOccupied s.metas false).head = s.head := hframe.head
  have hnext₂ : (s₂.setOccupied s.metas false).next (s₂.setOccupied s.metas false).head = 0 := by
    have hheadSet : (s₂.setOccupied s.metas false).info s.head = s.info s.head := by
      rw [hset.info s.head (Or.inl hframe.head.symm), if_neg hheadne, hheadInfo]
    rw [hhead₂]
    exact (congrArg Info.next hheadSet).trans hnull
  have hinsert := records_insertFree (hset.frame.placed hp₂) (hset.frame.metaSlot.mpr hslot₂)
    (fun hne ↦ absurd hnext₂ hne)
    (by rw [hnext₂, hset.frame.head, hframe.head]; exact Nat.ne_of_lt hp.head_pos)
    (by rw [hnext₂]; exact Nat.ne_of_lt hpos)
  have hall := hset.trans hinsert
  rw [hnext₂, hhead₂] at hall
  have hfirst := hall.info s.head (Or.inl hframe.head.symm)
  rw [if_pos rfl] at hfirst
  have hatm := hall.info s.metas (Or.inr hslot₂)
  rw [if_neg hheadne.symm, if_pos rfl, hset.info s.metas (Or.inr hslot₂), if_pos rfl] at hatm
  exact
    { frame := hframe.trans (hall.frame.mono fun x hx ↦ Or.inl (hframe.managed.mp hx))
      header := by
        apply (hall.frame.header_eq hp₂ _).trans hheader
        rw [DataWord, hframe.buf, hframe.metas]
        exact ⟨Nat.le_refl _, hroom⟩
      first := congrArg Info.next hfirst
      next := congrArg Info.next hatm
      prev := congrArg Info.prev hatm
      offs := (congrArg Info.offs hatm).trans hoffs
      size := (congrArg Info.size hatm).trans (congrArg (sizeWord · false) hgetSize) }

/-- One object describes the whole data part, and is the only element of the list. -/
theorem firstBlock_spec (hp : s.Placed) (hone : s.metas + 32 = s.buf + s.bufsize)
    (hroom : s.buf + 8 ≤ s.metas) (hnull : s.next s.head = 0) (hv : v < 2 ^ 63) :
    (s.firstBlock v ((s.metas - s.buf) / 8)).WellFormed [s.lastFree] [s.lastFree] ∧
      (s.firstBlock v ((s.metas - s.buf) / 8)).lastFree = s.lastFree ∧
      (s.firstBlock v ((s.metas - s.buf) / 8)).prev s.lastFree =
        (s.firstBlock v ((s.metas - s.buf) / 8)).head := by
  have hlast : s.lastFree = s.metas := by
    rw [lastFree]
    omega
  have hslot : s.MetaSlot s.metas := ⟨Nat.le_refl _, 0, by omega⟩
  have hmeta : ∀ m, s.MetaSlot m → m = s.metas := by
    rintro m ⟨hle, i, hi⟩
    omega
  have hheadne : s.head ≠ s.metas := fun heq ↦ hp.head_not_metaSlot (heq ▸ hslot)
  have hpos := hp.slot_pos (Or.inr hslot)
  have hbufend := hp.buf_end
  have hn : (s.metas - s.buf) / 8 < 2 ^ 63 := by omega
  have hfirst := firstBlock_fields hp hslot hheadne hroom hnull hv hn
  generalize s.firstBlock v ((s.metas - s.buf) / 8) = s' at hfirst ⊢
  have hframe := hfirst.frame
  have hgetSize : s'.getSize s.metas = (s.metas - s.buf) / 8 := by
    rw [getSize, hfirst.size, getSize_sizeWord hn]
  have hocc : ¬s'.isOccupied s.metas := by
    rw [isOccupied, hfirst.size, signMask_le_sizeWord hn]
    exact Bool.false_ne_true
  have hdataEnd : s'.dataEnd = 8 * ((s.metas - s.buf) / 8) := hframe.dataEnd
  have hlink : link s.metas = some s.metas := link_of_ne (Nat.ne_of_gt hpos)
  refine ⟨?_, hframe.lastFree, by rw [hlast, hframe.head, hfirst.prev]⟩
  rw [hlast]
  exact
    { placed := hframe.placed hp
      tiles := by
        refine ⟨hfirst.offs, by rw [hgetSize]; omega, ?_, ?_⟩
        · rw [Nat.add_zero, hframe.buf]
          exact hfirst.header
        · show 0 + 8 * s'.getSize s.metas = s'.dataEnd
          rw [hgetSize, hdataEnd, Nat.zero_add]
      slots := fun b hb ↦ by
        rw [List.mem_singleton.mp hb]
        exact hframe.metaSlot.mpr hslot
      chain := by
        rw [hframe.head, nextLink, hfirst.first]
        exact ⟨hlink, by rw [nextLink, hfirst.next]; rfl⟩
      back := by
        refine ⟨Or.inr ?_, trivial⟩
        rw [hframe.head, prevLink, hfirst.prev]
        exact link_of_ne (Nat.ne_of_gt hp.head_pos)
      free_iff := fun b ↦ by
        rw [List.mem_singleton]
        exact ⟨fun heq ↦ ⟨heq, heq ▸ hocc, List.not_mem_nil⟩, And.left⟩
      loose := fun b hb ↦ (List.not_mem_nil hb).elim
      unused := fun b hb hnot _ ↦
        absurd (List.mem_singleton.mpr (hmeta b (hframe.metaSlot.mp hb))) hnot
      last := by rw [hframe.lastFree, hlast, hfirst.offs, hgetSize, hdataEnd, Nat.zero_add] }

/-- The state that the constructor leaves. -/
theorem create_spec {mem : Bytes} {object base size : ℕ} (h : Suitable object base size)
    (hcreate : create mem object base size = .returned () s) :
    s.WellFormed [s.lastFree] [s.lastFree] ∧ s.prev s.lastFree = s.head := by
  obtain ⟨-, s', hthrew⟩ | ⟨-, v, hv, hreturned⟩ := create_eq mem h
  · rw [hthrew] at hcreate
    cases hcreate
  rw [hreturned] at hcreate
  injection hcreate with _ hs
  obtain ⟨hroom, hlow, hend, hpos, hobjend, hapart⟩ := h
  -- the array has one object
  have hp : Placed ⟨mem, object, base + size - 32, base, size⟩ :=
    ⟨⟨0, by show base + size - 32 + 32 * (0 + 1) = base + size; omega⟩, hlow,
      by show base ≤ base + size - 32; omega, hend, hpos, hobjend, hapart⟩
  obtain ⟨hframe, hnull⟩ := initHead_spec hp
  generalize initHead ⟨mem, object, base + size - 32, base, size⟩ = s₁ at hframe hnull hs
  have hbuf : s₁.buf = base := hframe.buf
  have hmetas : s₁.metas = base + size - 32 := hframe.metas
  have hbufsize : s₁.bufsize = size := hframe.bufsize
  have hhead : s₁.head = object := hframe.head
  obtain ⟨hshape, hlast, hprev⟩ := firstBlock_spec (hframe.placed hp) (by omega) (by omega)
    (by rw [hhead]; exact hnull) hv
  have hsize : (s₁.metas - s₁.buf) / 8 = (size - 32) / 8 := by
    congr 1
    omega
  rw [hsize, hs] at hshape hlast hprev
  rw [hlast]
  exact ⟨hshape, hprev⟩

end Allocator

end CppMtHw.Allocation
