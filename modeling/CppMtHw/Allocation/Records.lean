import CppMtHw.Allocation.Allocator
import Mathlib.Tactic.SplitIfs

/-!
# Records

`MetaInfo` objects read as records. The objects do not overlap each other or the data
part of the buffer, so an assignment to a field changes one record and no data, and the
two list functions change the records they name.
-/

namespace CppMtHw.Allocation

open Machine

@[ext] structure Info where
  next : ℕ
  prev : ℕ
  offs : ℕ
  size : ℕ

namespace Allocator

variable {s s' s'' : Allocator} {m m' w k t x : ℕ}

def info (s : Allocator) (m : ℕ) : Info := ⟨s.next m, s.prev m, s.offs m, s.size m⟩

/-- The objects of the array are at the end of the buffer, one below the other. -/
def MetaSlot (s : Allocator) (m : ℕ) : Prop :=
  s.metas ≤ m ∧ ∃ i, m + 32 * (i + 1) = s.buf + s.bufsize

def Slot (s : Allocator) (m : ℕ) : Prop := m = s.head ∨ s.MetaSlot m

/-- Where the object and the buffer are, and the array in the buffer. No buffer starts at one of
the first addresses, so a pointer one `MetaInfo` below an address in it is below that address. -/
structure Placed (s : Allocator) : Prop where
  array : ∃ count, s.metas + 32 * (count + 1) = s.buf + s.bufsize
  buf_low : 32 ≤ s.buf
  buf_le : s.buf ≤ s.metas
  buf_end : s.buf + s.bufsize < 2 ^ 64
  head_pos : 0 < s.head
  head_end : s.head + 32 < 2 ^ 64
  head_apart : s.head + 32 ≤ s.buf ∨ s.buf + s.bufsize ≤ s.head

def Managed (s : Allocator) (x : ℕ) : Prop :=
  s.head ≤ x ∧ x < s.head + 32 ∨ s.metas ≤ x ∧ x < s.buf + s.bufsize

/-- The fields are the same, and the bytes outside a set of addresses. -/
structure Frame (R : ℕ → Prop) (s s' : Allocator) : Prop where
  head : s'.head = s.head
  metas : s'.metas = s.metas
  buf : s'.buf = s.buf
  bufsize : s'.bufsize = s.bufsize
  mem : Bytes.SameOutside R s.mem s'.mem

theorem Frame.refl (R : ℕ → Prop) (s : Allocator) : Frame R s s :=
  ⟨rfl, rfl, rfl, rfl, Bytes.SameOutside.refl R s.mem⟩

theorem Frame.trans {R : ℕ → Prop} (h : Frame R s s') (h' : Frame R s' s'') : Frame R s s'' :=
  ⟨h'.head.trans h.head, h'.metas.trans h.metas, h'.buf.trans h.buf, h'.bufsize.trans h.bufsize,
    h.mem.trans h'.mem⟩

theorem Frame.mono {R R' : ℕ → Prop} (h : Frame R s s') (hsub : ∀ x, R x → R' x) : Frame R' s s' :=
  ⟨h.head, h.metas, h.buf, h.bufsize, h.mem.mono hsub⟩

theorem Frame.placed {R : ℕ → Prop} (h : Frame R s s') (hp : s.Placed) : s'.Placed := by
  obtain ⟨harray, hbuf, hle, hend, hhead, hheadEnd, hapart⟩ := hp
  refine ⟨?_, ?_, ?_, ?_, ?_, ?_, ?_⟩ <;> simpa only [h.head, h.metas, h.buf, h.bufsize]

theorem Frame.metaSlot {R : ℕ → Prop} (h : Frame R s s') : s'.MetaSlot m ↔ s.MetaSlot m := by
  simp only [MetaSlot, h.metas, h.buf, h.bufsize]

theorem Frame.slot {R : ℕ → Prop} (h : Frame R s s') : s'.Slot m ↔ s.Slot m := by
  simp only [Slot, h.head, h.metaSlot]

theorem Frame.managed {R : ℕ → Prop} (h : Frame R s s') : s'.Managed x ↔ s.Managed x := by
  simp only [Managed, h.head, h.metas, h.buf, h.bufsize]

/-! ## Slots -/

theorem Placed.slot_pos (hp : s.Placed) (hm : s.Slot m) : 0 < m := by
  rcases hm with rfl | ⟨hle, -⟩
  · exact hp.head_pos
  · have := hp.buf_low
    have := hp.buf_le
    omega

theorem Placed.slot_end (hp : s.Placed) (hm : s.Slot m) : m + 32 < 2 ^ 64 := by
  rcases hm with rfl | ⟨-, i, hi⟩
  · exact hp.head_end
  · have := hp.buf_end
    omega

theorem slot_managed (hm : s.Slot m) (hx : m ≤ x) (hlt : x < m + 32) :
    s.Managed x := by
  rcases hm with rfl | ⟨hle, i, hi⟩
  · exact Or.inl ⟨hx, hlt⟩
  · exact Or.inr ⟨by omega, by omega⟩

/-- Different objects do not overlap. -/
theorem Placed.slot_apart (hp : s.Placed) (hm : s.Slot m) (hm' : s.Slot m') (hne : m ≠ m') :
    m + 32 ≤ m' ∨ m' + 32 ≤ m := by
  have hapart := hp.head_apart
  rcases hm with rfl | ⟨hle, i, hi⟩
  · rcases hm' with rfl | ⟨hle', j, hj⟩
    · exact absurd rfl hne
    · have := hp.buf_le
      omega
  · rcases hm' with rfl | ⟨hle', j, hj⟩
    · have := hp.buf_le
      omega
    · omega

def DataWord (s : Allocator) (t : ℕ) : Prop := s.buf ≤ t ∧ t + 8 ≤ s.metas

theorem Placed.dataWord_not_managed (hp : s.Placed) (ht : s.DataWord t) (hx : t ≤ x)
    (hlt : x < t + 8) : ¬s.Managed x := by
  have hapart := hp.head_apart
  have harray := hp.array
  obtain ⟨hlow, hhigh⟩ := ht
  rintro (⟨hle, hx'⟩ | ⟨hle, hx'⟩)
  · obtain ⟨count, hcount⟩ := harray
    omega
  · omega

theorem Frame.header_eq (h : Frame s.Managed s s') (hp : s.Placed) (ht : s.DataWord t) :
    s'.header t = s.header t :=
  h.mem.load_eq fun _ hx hlt ↦ hp.dataWord_not_managed ht hx hlt

/-- An object whose bytes are kept keeps its record. -/
theorem info_congr (h : ∀ x, m ≤ x → x < m + 32 → s'.mem x = s.mem x) : s'.info m = s.info m := by
  ext
  · exact Bytes.load_congr fun x hx hlt ↦ h x (by omega) (by omega)
  · exact Bytes.load_congr fun x hx hlt ↦ h x (by omega) (by omega)
  · exact Bytes.load_congr fun x hx hlt ↦ h x (by omega) (by omega)
  · exact Bytes.load_congr fun x hx hlt ↦ h x (by omega) (by omega)

/-! ## Assignments to fields -/

theorem info_store_of_ne (hp : s.Placed) (hm : s.Slot m) (hm' : s.Slot m') (hk : k + 8 ≤ 32)
    (hne : m' ≠ m) : (s.store (m + k) w).info m' = s.info m' := by
  have hapart := hp.slot_apart hm' hm hne
  exact info_congr fun x hx hlt ↦ Bytes.store_of_not_mem (by omega)

theorem frame_store (hm : s.Slot m) (hk : k + 8 ≤ 32) :
    Frame s.Managed s (s.store (m + k) w) :=
  ⟨rfl, rfl, rfl, rfl, Bytes.sameOutside_store fun x hx hlt ↦
    slot_managed hm (by omega) (by omega)⟩

theorem load_store_word (hw : w < 2 ^ 64) : (s.mem.store m w).load m = w := by
  rw [Bytes.load_store_self, Nat.mod_eq_of_lt hw]

theorem info_setNext (hp : s.Placed) (hm : s.Slot m) (hm' : s.Slot m') (hw : w < 2 ^ 64) :
    (s.setNext m w).info m' = if m' = m then { s.info m with next := w } else s.info m' := by
  split
  · rename_i heq
    rw [heq]
    ext
    · exact load_store_word hw
    · exact Bytes.load_store_of_disjoint (Or.inr (Nat.le_refl _))
    · exact Bytes.load_store_of_disjoint (Or.inr (by omega))
    · exact Bytes.load_store_of_disjoint (Or.inr (by omega))
  · rename_i hne
    exact info_store_of_ne (k := 0) hp hm hm' (by omega) hne

theorem info_setPrev (hp : s.Placed) (hm : s.Slot m) (hm' : s.Slot m') (hw : w < 2 ^ 64) :
    (s.setPrev m w).info m' = if m' = m then { s.info m with prev := w } else s.info m' := by
  split
  · rename_i heq
    rw [heq]
    ext
    · exact Bytes.load_store_of_disjoint (Or.inl (Nat.le_refl _))
    · exact load_store_word hw
    · exact Bytes.load_store_of_disjoint (Or.inr (by omega))
    · exact Bytes.load_store_of_disjoint (Or.inr (by omega))
  · rename_i hne
    exact info_store_of_ne hp hm hm' (by omega) hne

theorem info_setOffs (hp : s.Placed) (hm : s.Slot m) (hm' : s.Slot m') (hw : w < 2 ^ 64) :
    (s.setOffs m w).info m' = if m' = m then { s.info m with offs := w } else s.info m' := by
  split
  · rename_i heq
    rw [heq]
    ext
    · exact Bytes.load_store_of_disjoint (Or.inl (by omega))
    · exact Bytes.load_store_of_disjoint (Or.inl (by omega))
    · exact load_store_word hw
    · exact Bytes.load_store_of_disjoint (Or.inr (by omega))
  · rename_i hne
    exact info_store_of_ne hp hm hm' (by omega) hne

theorem info_storeSize (hp : s.Placed) (hm : s.Slot m) (hm' : s.Slot m') (hw : w < 2 ^ 64) :
    (s.store (m + 24) w).info m' = if m' = m then { s.info m with size := w } else s.info m' := by
  split
  · rename_i heq
    rw [heq]
    ext
    · exact Bytes.load_store_of_disjoint (Or.inl (by omega))
    · exact Bytes.load_store_of_disjoint (Or.inl (by omega))
    · exact Bytes.load_store_of_disjoint (Or.inl (by omega))
    · exact load_store_word hw
  · rename_i hne
    exact info_store_of_ne hp hm hm' (by omega) hne

def sizeWord (sz : ℕ) (occ : Bool) : ℕ := if occ then sz + signMask else sz

theorem sizeWord_lt {sz : ℕ} {occ : Bool} (hsz : sz < 2 ^ 63) : sizeWord sz occ < 2 ^ 64 := by
  rw [sizeWord, signMask]
  split <;> omega

theorem getSize_sizeWord {sz : ℕ} {occ : Bool} (hsz : sz < signMask) :
    sizeWord sz occ % signMask = sz := by
  rw [sizeWord]
  split
  · rw [Nat.add_mod_right, Nat.mod_eq_of_lt hsz]
  · exact Nat.mod_eq_of_lt hsz

theorem signMask_le_sizeWord {sz : ℕ} {occ : Bool} (hsz : sz < signMask) :
    signMask ≤ sizeWord sz occ ↔ occ = true := by
  rw [sizeWord]
  split
  · rename_i hocc
    simp [hocc]
  · rename_i hocc
    simp only [hocc, Bool.false_eq_true, iff_false]
    exact Nat.not_le.mpr hsz

theorem info_setOccupied (hp : s.Placed) (hm : s.Slot m) (hm' : s.Slot m') (occ : Bool) :
    (s.setOccupied m occ).info m' =
      if m' = m then { s.info m with size := sizeWord (s.getSize m) occ } else s.info m' := by
  have hlt : s.getSize m < 2 ^ 63 := Nat.mod_lt _ (by decide)
  have hword : (if occ then s.size m % signMask + signMask else s.size m % signMask) =
      sizeWord (s.getSize m) occ := rfl
  rw [setOccupied, hword]
  exact info_storeSize hp hm hm' (sizeWord_lt hlt)

theorem info_setSize (hp : s.Placed) (hm : s.Slot m) (hm' : s.Slot m') {sz : ℕ}
    (hsz : sz < 2 ^ 63) : (s.setSize m sz).info m' = if m' = m then
      { s.info m with size := sizeWord sz (s.isOccupied m) } else s.info m' := by
  have hframe : Frame s.Managed s (s.store (m + 24) sz) := frame_store hm (by omega)
  have hstored := fun {m'} (hm' : s.Slot m') ↦
    info_storeSize hp hm hm' (Nat.lt_trans hsz (by decide))
  have hsize : (s.store (m + 24) sz).getSize m = sz := by
    have hword : (s.store (m + 24) sz).size m = sz := by
      have := congrArg Info.size (hstored hm)
      rwa [if_pos rfl] at this
    rw [getSize, hword]
    exact Nat.mod_eq_of_lt hsz
  rw [setSize, info_setOccupied (hframe.placed hp) (hframe.slot.mpr hm) (hframe.slot.mpr hm'),
    hsize, hstored hm, hstored hm', if_pos rfl]
  split <;> rfl

theorem frame_setNext (hm : s.Slot m) : Frame s.Managed s (s.setNext m w) :=
  frame_store (k := 0) hm (by omega)

theorem frame_setPrev (hm : s.Slot m) : Frame s.Managed s (s.setPrev m w) :=
  frame_store hm (by omega)

theorem frame_setOffs (hm : s.Slot m) : Frame s.Managed s (s.setOffs m w) :=
  frame_store hm (by omega)

theorem frame_setOccupied (hm : s.Slot m) (occ : Bool) :
    Frame s.Managed s (s.setOccupied m occ) := frame_store hm (by omega)

theorem frame_setSize (hm : s.Slot m) {sz : ℕ} :
    Frame s.Managed s (s.setSize m sz) := by
  have hframe : Frame s.Managed s (s.store (m + 24) sz) := frame_store hm (by omega)
  refine hframe.trans ?_
  have hsecond := frame_setOccupied (hframe.slot.mpr hm) (s.isOccupied m)
  exact hsecond.mono fun x hx ↦ hframe.managed.mp hx

/-! ## Another size -/

/-- The size of the object at `m` is `sz`, and nothing else about the objects has changed. -/
structure Resized (s s' : Allocator) (m sz : ℕ) : Prop where
  getSize : s'.getSize m = sz
  info : ∀ m', s.Slot m' → m' ≠ m → s'.info m' = s.info m'
  next : ∀ m', s.Slot m' → s'.next m' = s.next m'
  prev : ∀ m', s.Slot m' → s'.prev m' = s.prev m'
  offs : ∀ m', s.Slot m' → s'.offs m' = s.offs m'
  occupied : ∀ m', s.Slot m' → (s'.isOccupied m' ↔ s.isOccupied m')

theorem resized_of_info {sz : ℕ} (hm : s.Slot m) (hsz : sz < 2 ^ 63)
    (hinfo : ∀ m', s.Slot m' → s'.info m' =
      if m' = m then { s.info m with size := sizeWord sz (s.isOccupied m) } else s.info m') :
    Resized s s' m sz := by
  have hself : s'.info m = { s.info m with size := sizeWord sz (s.isOccupied m) } :=
    (hinfo m hm).trans (if_pos rfl)
  have hother : ∀ m', s.Slot m' → m' ≠ m → s'.info m' = s.info m' := fun m' hm' hne ↦
    (hinfo m' hm').trans (if_neg hne)
  have hsize : s'.size m = sizeWord sz (s.isOccupied m) := congrArg Info.size hself
  have hfield : ∀ field : Info → ℕ, field (s'.info m) = field (s.info m) →
      ∀ m', s.Slot m' → field (s'.info m') = field (s.info m') := by
    intro field hm m' hm'
    by_cases hne : m' = m
    · rw [hne, hm]
    · rw [hother m' hm' hne]
  refine ⟨?_, hother, hfield Info.next ?_, hfield Info.prev ?_, hfield Info.offs ?_,
    fun m' hm' ↦ ?_⟩
  · rw [getSize, hsize, getSize_sizeWord hsz]
  · rw [hself]
  · rw [hself]
  · rw [hself]
  · by_cases hne : m' = m
    · rw [hne, isOccupied, hsize, signMask_le_sizeWord hsz, decide_eq_true_iff]
    · have hsame : s'.size m' = s.size m' := congrArg Info.size (hother m' hm' hne)
      rw [isOccupied, hsame, isOccupied]

theorem resized_setSize (hp : s.Placed) (hm : s.Slot m) {sz : ℕ} (hsz : sz < 2 ^ 63) :
    Resized s (s.setSize m sz) m sz :=
  resized_of_info hm hsz fun _ hm' ↦ info_setSize hp hm hm' hsz

theorem Resized.size {sz : ℕ} (h : Resized s s' m sz) (hm : s.Slot m') (hne : m' ≠ m) :
    s'.size m' = s.size m' := congrArg Info.size (h.info m' hm hne)

theorem Resized.getSize_of_ne {sz : ℕ} (h : Resized s s' m sz) (hm : s.Slot m') (hne : m' ≠ m) :
    s'.getSize m' = s.getSize m' := by
  rw [Allocator.getSize, h.size hm hne, Allocator.getSize]

/-! ## Sequences of assignments -/

structure Records (s s' : Allocator) (f : ℕ → Info) : Prop where
  frame : Frame s.Managed s s'
  info : ∀ m, s.Slot m → s'.info m = f m

namespace Records

variable {f : ℕ → Info}

theorem refl (s : Allocator) : Records s s s.info := ⟨Frame.refl _ s, fun _ _ ↦ rfl⟩

theorem trans {g : ℕ → Info} (h : Records s s' f) (h' : Records s' s'' g) : Records s s'' g :=
  ⟨h.frame.trans (h'.frame.mono fun _ hx ↦ h.frame.managed.mp hx),
    fun m hm ↦ h'.info m (h.frame.slot.mpr hm)⟩

theorem congr {g : ℕ → Info} (h : Records s s' f) (hfg : ∀ m, s.Slot m → f m = g m) :
    Records s s' g := ⟨h.frame, fun m hm ↦ (h.info m hm).trans (hfg m hm)⟩

variable (hp : s.Placed) (h : Records s s' f) (hm : s.Slot m)

include hp h hm

theorem setNext (hw : w < 2 ^ 64) : Records s (s'.setNext m w)
    (fun m' ↦ if m' = m then { f m with next := w } else f m') := by
  have hm₁ := h.frame.slot.mpr hm
  refine h.trans ⟨frame_setNext hm₁, fun m' hm' ↦ ?_⟩
  rw [info_setNext (h.frame.placed hp) hm₁ hm' hw, h.info m hm, h.info m' (h.frame.slot.mp hm')]

theorem setPrev (hw : w < 2 ^ 64) : Records s (s'.setPrev m w)
    (fun m' ↦ if m' = m then { f m with prev := w } else f m') := by
  have hm₁ := h.frame.slot.mpr hm
  refine h.trans ⟨frame_setPrev hm₁, fun m' hm' ↦ ?_⟩
  rw [info_setPrev (h.frame.placed hp) hm₁ hm' hw, h.info m hm, h.info m' (h.frame.slot.mp hm')]

theorem setOffs (hw : w < 2 ^ 64) : Records s (s'.setOffs m w)
    (fun m' ↦ if m' = m then { f m with offs := w } else f m') := by
  have hm₁ := h.frame.slot.mpr hm
  refine h.trans ⟨frame_setOffs hm₁, fun m' hm' ↦ ?_⟩
  rw [info_setOffs (h.frame.placed hp) hm₁ hm' hw, h.info m hm, h.info m' (h.frame.slot.mp hm')]

theorem storeSize (hw : w < 2 ^ 64) : Records s (s'.store (m + 24) w)
    (fun m' ↦ if m' = m then { f m with size := w } else f m') := by
  have hm₁ := h.frame.slot.mpr hm
  refine h.trans ⟨frame_store hm₁ (by omega), fun m' hm' ↦ ?_⟩
  rw [info_storeSize (h.frame.placed hp) hm₁ hm' hw, h.info m hm, h.info m' (h.frame.slot.mp hm')]

theorem setOccupied (occ : Bool) : Records s (s'.setOccupied m occ)
    (fun m' ↦ if m' = m then { f m with size := sizeWord ((f m).size % signMask) occ }
      else f m') := by
  have hm₁ := h.frame.slot.mpr hm
  refine h.trans ⟨frame_setOccupied hm₁ occ, fun m' hm' ↦ ?_⟩
  have hsize : s'.size m = (f m).size := congrArg Info.size (h.info m hm)
  rw [info_setOccupied (h.frame.placed hp) hm₁ hm', h.info m hm, h.info m' (h.frame.slot.mp hm'),
    getSize, hsize]

theorem setSize {sz : ℕ} (hsz : sz < 2 ^ 63) : Records s (s'.setSize m sz)
    (fun m' ↦ if m' = m then { f m with size := sizeWord sz (signMask ≤ (f m).size) }
      else f m') := by
  have hm₁ := h.frame.slot.mpr hm
  refine h.trans ⟨frame_setSize hm₁, fun m' hm' ↦ ?_⟩
  have hsize : s'.size m = (f m).size := congrArg Info.size (h.info m hm)
  rw [info_setSize (h.frame.placed hp) hm₁ hm' hsz, h.info m hm, h.info m' (h.frame.slot.mp hm')]
  simp only [isOccupied, hsize]

end Records

/-! ## The list functions -/

theorem next_lt (s : Allocator) (m : ℕ) : s.next m < 2 ^ 64 := s.mem.load_lt m

/-- The first half of `unlinkFree`: the node in front skips the object. -/
theorem records_unlinkPrev (hp : s.Placed) (hm : s.Slot m)
    (hprev : s.prev m ≠ 0 → s.Slot (s.prev m)) (hself : s.prev m ≠ m) :
    Records s (if s.prev m ≠ 0 then (s.setNext (s.prev m) (s.next m)).setPrev m 0 else s) (fun m' ↦
      if m' = m then { s.info m with prev := 0 }
      else if m' = s.prev m then { s.info m' with next := s.next m } else s.info m') := by
  by_cases hzero : s.prev m = 0
  · rw [if_neg (not_not.mpr hzero)]
    refine (Records.refl s).congr fun m' hm' ↦ ?_
    have hpos := hp.slot_pos hm'
    by_cases heq : m' = m
    · rw [if_pos heq, heq]
      ext <;> first | rfl | exact hzero
    · rw [if_neg heq, if_neg (by omega)]
  · rw [if_pos hzero]
    have hnext := (Records.refl s).setNext hp (hprev hzero) (next_lt s m)
    refine (hnext.setPrev hp hm (by decide : 0 < 2 ^ 64)).congr fun m' _ ↦ ?_
    by_cases heq : m' = m
    · rw [if_pos heq, if_pos heq, if_neg hself.symm]
    · rw [if_neg heq, if_neg heq]
      by_cases hfront : m' = s.prev m
      · rw [if_pos hfront, if_pos hfront, hfront]
      · rw [if_neg hfront, if_neg hfront]

/-- `unlinkFree` clears the links of the object, and the backward link of the next one. -/
theorem records_unlinkFree (hp : s.Placed) (hm : s.Slot m)
    (hprev : s.prev m ≠ 0 → s.Slot (s.prev m)) (hnext : s.next m ≠ 0 → s.Slot (s.next m))
    (hself : s.prev m ≠ m) (hself' : s.next m ≠ m) (hne : s.prev m ≠ 0 → s.prev m ≠ s.next m) :
    Records s (s.unlinkFree m) (fun m' ↦
      if m' = m then { s.info m with next := 0, prev := 0 }
      else if m' = s.prev m then { s.info m' with next := s.next m }
      else if m' = s.next m then { s.info m' with prev := 0 } else s.info m') := by
  have hfirst := records_unlinkPrev hp hm hprev hself
  rw [unlinkFree]
  generalize (if s.prev m ≠ 0 then (s.setNext (s.prev m) (s.next m)).setPrev m 0 else s) =
    s₁ at hfirst ⊢
  have hinfo := hfirst.info m hm
  rw [if_pos rfl] at hinfo
  have hnext₁ : s₁.next m = s.next m := congrArg Info.next hinfo
  have hprev₁ : s₁.prev m = 0 := congrArg Info.prev hinfo
  simp only [hnext₁, hprev₁]
  by_cases hzero : s.next m = 0
  · rw [if_neg (not_not.mpr hzero)]
    refine hfirst.congr fun m' hm' ↦ ?_
    have hpos := hp.slot_pos hm'
    by_cases heq : m' = m
    · rw [if_pos heq, if_pos heq]
      ext <;> first | rfl | exact hzero
    · rw [if_neg heq, if_neg heq]
      split
      · rfl
      · rw [if_neg (by omega)]
  · rw [if_pos hzero]
    have hsecond := hfirst.setPrev hp (hnext hzero) (by decide : 0 < 2 ^ 64)
    refine (hsecond.setNext hp hm (by decide : 0 < 2 ^ 64)).congr fun m' hm' ↦ ?_
    have hpos := hp.slot_pos hm'
    by_cases heq : m' = m
    · rw [if_pos heq, if_pos heq, if_neg hself'.symm, if_pos rfl]
    · rw [if_neg heq, if_neg heq]
      by_cases hback : m' = s.next m
      · have hfront : m' ≠ s.prev m := by
          intro hfront
          exact hne (by omega) (hfront.symm.trans hback)
        have hfront' : s.next m ≠ s.prev m := hback ▸ hfront
        rw [if_pos hback, if_neg hfront, if_pos hback, if_neg hself', if_neg hfront', hback,
          if_neg hself']
      · rw [if_neg hback, if_neg heq, if_neg hback]

/-- `insertFree` puts the object in front of the list. -/
theorem records_insertFree (hp : s.Placed) (hm : s.MetaSlot m)
    (hnext : s.next s.head ≠ 0 → s.Slot (s.next s.head)) (hself : s.next s.head ≠ s.head)
    (hnew : s.next s.head ≠ m) :
    Records s (s.insertFree m) (fun m' ↦
      if m' = s.head then { s.info s.head with next := m }
      else if m' = m then { s.info m with next := s.next s.head, prev := s.head }
      else if m' = s.next s.head then { s.info m' with prev := m } else s.info m') := by
  have hslot : s.Slot m := Or.inr hm
  have hend := hp.slot_end hslot
  have hheadEnd := hp.head_end
  -- the backward link of the first element
  have hfirst : Records s (if s.next s.head ≠ 0 then s.setPrev (s.next s.head) m else s) (fun m' ↦
      if m' = s.next s.head then { s.info m' with prev := m } else s.info m') := by
    by_cases hzero : s.next s.head = 0
    · rw [if_neg (not_not.mpr hzero)]
      refine (Records.refl s).congr fun m' hm' ↦ ?_
      have hpos := hp.slot_pos hm'
      rw [if_neg (by omega)]
    · rw [if_pos hzero]
      refine ((Records.refl s).setPrev hp (hnext hzero) (by omega)).congr fun m' _ ↦ ?_
      split
      · rename_i heq
        rw [heq]
      · rfl
  rw [insertFree]
  generalize (if s.next s.head ≠ 0 then s.setPrev (s.next s.head) m else s) = s₁ at hfirst ⊢
  have hheadSlot : s.Slot s.head := Or.inl rfl
  have hmhead : m ≠ s.head := by
    rintro rfl
    have := hp.head_apart
    obtain ⟨hle, i, hi⟩ := hm
    have := hp.buf_le
    omega
  have hheadNext : s₁.next s₁.head = s.next s.head := by
    have hinfo := hfirst.info s.head hheadSlot
    rw [if_neg hself.symm] at hinfo
    rw [hfirst.frame.head]
    exact congrArg Info.next hinfo
  simp only [hheadNext]
  have hsecond := hfirst.setNext hp hslot (next_lt s s.head)
  have hthird := hsecond.setPrev (w := s.head) hp hslot (by omega)
  have hfourth := hthird.setNext (w := m) hp hheadSlot (by omega)
  have hhead₂ : (s₁.setNext m (s.next s.head)).head = s.head := hfirst.frame.head
  have hhead₃ : ((s₁.setNext m (s.next s.head)).setPrev m s.head).head = s.head := hfirst.frame.head
  rw [hhead₂, hhead₃]
  refine hfourth.congr fun m' _ ↦ ?_
  by_cases hhead : m' = s.head
  · rw [if_pos hhead, if_pos hhead, if_neg hmhead.symm, if_neg hmhead.symm, if_neg hself.symm]
  · rw [if_neg hhead, if_neg hhead]
    by_cases heq : m' = m
    · rw [if_pos heq, if_pos heq, if_pos rfl, if_neg hnew.symm]
    · rw [if_neg heq, if_neg heq, if_neg heq]

end Allocator

end CppMtHw.Allocation
