import CppMtHw.Allocation.Defragmentation

/-!
# Two allocators that agree

Two allocators in the same place may differ in bytes that were never written. What the
functions read and write is followed through both at once: where the bytes that are read
agree, the same bytes are written.
-/

namespace CppMtHw.Allocation

open Machine

namespace Allocator

variable {s t s' t' : Allocator} {K K' : ℕ → Prop} {a m mi n p w x : ℕ}

/-- The fields are the same, and the bytes under a set of addresses. -/
structure Agree (K : ℕ → Prop) (s t : Allocator) : Prop where
  head : t.head = s.head
  metas : t.metas = s.metas
  buf : t.buf = s.buf
  bufsize : t.bufsize = s.bufsize
  mem : Bytes.SameOn K s.mem t.mem

def Covers (K : ℕ → Prop) (a n : ℕ) : Prop := ∀ x, a ≤ x → x < a + n → K x

theorem Covers.mono (h : Covers K a n) (hsub : ∀ x, K x → K' x) : Covers K' a n := fun x hx hlt ↦
  hsub x (h x hx hlt)

theorem Covers.sub {b k : ℕ} (h : Covers K a n) (hle : a ≤ b) (hend : b + k ≤ a + n) :
    Covers K b k :=
  fun x hx hlt ↦ h x (by omega) (by omega)

namespace Agree

theorem mono (h : Agree K s t) (hsub : ∀ x, K' x → K x) : Agree K' s t :=
  ⟨h.head, h.metas, h.buf, h.bufsize, h.mem.mono hsub⟩

/-! ## Reads -/

theorem load_eq (h : Agree K s t) (hK : Covers K a 8) : t.mem.load a = s.mem.load a :=
  h.mem.load_eq hK

theorem next_eq (h : Agree K s t) (hK : Covers K m 8) : t.next m = s.next m := h.load_eq hK

theorem prev_eq (h : Agree K s t) (hK : Covers K (m + 8) 8) : t.prev m = s.prev m := h.load_eq hK

theorem offs_eq (h : Agree K s t) (hK : Covers K (m + 16) 16) : t.offs m = s.offs m :=
  h.load_eq (hK.sub (Nat.le_refl _) (by omega))

theorem size_eq (h : Agree K s t) (hK : Covers K (m + 16) 16) : t.size m = s.size m :=
  h.load_eq (hK.sub (by omega) (by omega))

theorem getSize_eq (h : Agree K s t) (hK : Covers K (m + 16) 16) : t.getSize m = s.getSize m := by
  rw [getSize, h.size_eq hK, getSize]

theorem isOccupied_iff (h : Agree K s t) (hK : Covers K (m + 16) 16) :
    t.isOccupied m ↔ s.isOccupied m := by
  rw [isOccupied, h.size_eq hK, isOccupied]

theorem placed (h : Agree K s t) (hp : s.Placed) : t.Placed := by
  obtain ⟨harray, hbuf, hle, hend, hhead, hheadEnd, hapart⟩ := hp
  refine ⟨?_, ?_, ?_, ?_, ?_, ?_, ?_⟩ <;> simpa only [h.head, h.metas, h.buf, h.bufsize]

theorem bufEnd_eq (h : Agree K s t) : t.bufEnd = s.bufEnd := by
  rw [bufEnd, h.buf, h.bufsize, bufEnd]

theorem getMeta_eq (h : Agree K s t) (i : ℕ) : t.getMeta i = s.getMeta i := by
  rw [getMeta, h.bufEnd_eq, getMeta]

theorem metaSlot_iff (h : Agree K s t) : t.MetaSlot m ↔ s.MetaSlot m := by
  rw [MetaSlot, MetaSlot, h.metas, h.buf, h.bufsize]

theorem indexOfInfo_eq (h : Agree K s t) (m : ℕ) : t.indexOfInfo m = s.indexOfInfo m := by
  rw [indexOfInfo, h.bufEnd_eq, indexOfInfo]

end Agree

/-- Equal records consist of the same bytes. -/
theorem mem_eq_of_info_eq (h : t.info m = s.info m) (hx : m ≤ x) (hlt : x < m + 32) :
    t.mem x = s.mem x := by
  by_cases hnext : x < m + 8
  · exact Bytes.eq_of_load_eq (congrArg Info.next h) hx hnext
  · by_cases hprev : x < m + 16
    · exact Bytes.eq_of_load_eq (a := m + 8) (congrArg Info.prev h) (by omega) (by omega)
    · by_cases hoffs : x < m + 24
      · exact Bytes.eq_of_load_eq (a := m + 16) (congrArg Info.offs h) (by omega) (by omega)
      · exact Bytes.eq_of_load_eq (a := m + 24) (congrArg Info.size h) (by omega) (by omega)

namespace Agree

/-! ## Writes -/

/-- The same word is written. -/
theorem store (h : Agree K s t) (a w : ℕ) :
    Agree (fun x ↦ K x ∨ a ≤ x ∧ x < a + 8) (s.store a w) (t.store a w) :=
  ⟨h.head, h.metas, h.buf, h.bufsize, h.mem.store⟩

/-- The bytes written are not looked at. -/
theorem frame {R : ℕ → Prop} (h : Agree K s t) (hs : Frame R s s') (ht : Frame R t t')
    (hK : ∀ x, K x → ¬R x) : Agree K s' t' :=
  ⟨ht.head.trans (h.head.trans hs.head.symm), ht.metas.trans (h.metas.trans hs.metas.symm),
    ht.buf.trans (h.buf.trans hs.buf.symm), ht.bufsize.trans (h.bufsize.trans hs.bufsize.symm),
    h.mem.frame hs.mem ht.mem hK⟩

theorem store_kept (h : Agree K s t) (a w : ℕ) : Agree K (s.store a w) (t.store a w) :=
  (h.store a w).mono fun _ ↦ Or.inl

theorem setOccupied (h : Agree K s t) (hm : Covers K (m + 16) 16) (occ : Bool) :
    Agree K (s.setOccupied m occ) (t.setOccupied m occ) := by
  rw [Allocator.setOccupied, Allocator.setOccupied, h.size_eq hm]
  exact h.store_kept _ _

theorem setSize (h : Agree K s t) (hm : Covers K (m + 16) 16) (n : ℕ) :
    Agree K (s.setSize m n) (t.setSize m n) := by
  have hocc : decide (t.isOccupied m) = decide (s.isOccupied m) :=
    decide_eq_decide.mpr (h.isOccupied_iff hm)
  rw [Allocator.setSize, Allocator.setSize, hocc]
  exact (h.store_kept _ _).setOccupied hm _

theorem insertFree (h : Agree K s t) (hhead : Covers K s.head 8) (m : ℕ) :
    Agree (fun x ↦ K x ∨ m ≤ x ∧ x < m + 16) (s.insertFree m) (t.insertFree m) := by
  have hfirst : Agree K (if s.next s.head ≠ 0 then s.setPrev (s.next s.head) m else s)
      (if t.next t.head ≠ 0 then t.setPrev (t.next t.head) m else t) := by
    rw [h.head, h.next_eq hhead]
    split
    · exact h.store_kept _ _
    · exact h
  have hhead' : (if s.next s.head ≠ 0 then s.setPrev (s.next s.head) m else s).head = s.head := by
    split <;> rfl
  rw [Allocator.insertFree, Allocator.insertFree]
  generalize (if s.next s.head ≠ 0 then s.setPrev (s.next s.head) m else s) = s₁ at hfirst hhead' ⊢
  generalize (if t.next t.head ≠ 0 then t.setPrev (t.next t.head) m else t) = t₁ at hfirst ⊢
  rw [← hhead'] at hhead
  show Agree _ (((s₁.setNext m (s₁.next s₁.head)).setPrev m s₁.head).setNext s₁.head m)
    (((t₁.setNext m (t₁.next t₁.head)).setPrev m t₁.head).setNext t₁.head m)
  rw [hfirst.head, hfirst.next_eq hhead]
  apply (((hfirst.store m _).store (m + 8) _).store_kept _ _).mono
  rintro x (hx | ⟨hle, hlt⟩)
  · exact Or.inl (Or.inl hx)
  · by_cases hlow : x < m + 8
    · exact Or.inl (Or.inr ⟨hle, hlow⟩)
    · exact Or.inr ⟨by omega, by omega⟩

theorem unlinkFree (h : Agree K s t) (hm : Covers K m 16) :
    Agree K (s.unlinkFree m) (t.unlinkFree m) := by
  have hnext : Covers K m 8 := hm.sub (Nat.le_refl m) (by omega)
  have hprev : Covers K (m + 8) 8 := hm.sub (Nat.le_add_right m 8) (by omega)
  have hfirst : Agree K (if s.prev m ≠ 0 then (s.setNext (s.prev m) (s.next m)).setPrev m 0 else s)
      (if t.prev m ≠ 0 then (t.setNext (t.prev m) (t.next m)).setPrev m 0 else t) := by
    rw [h.prev_eq hprev, h.next_eq hnext]
    split
    · exact (h.store_kept _ _).store_kept _ _
    · exact h
  rw [Allocator.unlinkFree, Allocator.unlinkFree]
  generalize (if s.prev m ≠ 0 then (s.setNext (s.prev m) (s.next m)).setPrev m 0 else s) =
    s₁ at hfirst ⊢
  generalize (if t.prev m ≠ 0 then (t.setNext (t.prev m) (t.next m)).setPrev m 0 else t) =
    t₁ at hfirst ⊢
  simp only [hfirst.prev_eq hprev, hfirst.next_eq hnext]
  split
  · exact (hfirst.store_kept _ _).store_kept _ _
  · exact hfirst

/-- A size is set in an object of which nothing is known. -/
theorem setSize_new (h : Agree K s t) (hm : ∀ x, m ≤ x → x < m + 32 → ¬K x) (n : ℕ) :
    Agree K (s.setSize m n) (t.setSize m n) := by
  have hframe : ∀ s : Allocator, Frame (fun x ↦ m ≤ x ∧ x < m + 32) s (s.setSize m n) := fun s ↦
    ⟨rfl, rfl, rfl, rfl, setSize_mem s m n⟩
  exact h.frame (hframe s) (hframe t) fun x hx hmem ↦ hm x hmem.1 hmem.2 hx

theorem describe (h : Agree K s t) (hsize : Agree K (s.setSize mi n) (t.setSize mi n)) (start : ℕ) :
    Agree (fun x ↦ K x ∨ mi + 16 ≤ x ∧ x < mi + 24) (s.describe mi start n)
      (t.describe mi start n) := by
  have hoffs : usub start t.buf = usub start s.buf := by rw [h.buf]
  rw [Allocator.describe, Allocator.describe, hoffs]
  exact (hsize.store (mi + 16) _).store_kept start mi

theorem setOccupied_new (h : Agree K s t) (hsize : t.getSize m = s.getSize m) :
    Agree (fun x ↦ K x ∨ m + 24 ≤ x ∧ x < m + 32) (s.setOccupied m true)
      (t.setOccupied m true) := by
  have hword : t.setOccupied m true = t.store (m + 24) (s.getSize m + signMask) := by
    rw [← hsize]
    rfl
  rw [hword]
  exact h.store (m + 24) (s.getSize m + signMask)

theorem cutOff (h : Agree K s t) (hsize : t.getSize mi = s.getSize mi)
    (hp : Covers K (p + 16) 16) (n : ℕ) :
    Agree (fun x ↦ K x ∨ mi + 24 ≤ x ∧ x < mi + 32) (s.cutOff mi p n) (t.cutOff mi p n) := by
  have hocc := h.setOccupied_new hsize
  have hp' : Covers (fun x ↦ K x ∨ mi + 24 ≤ x ∧ x < mi + 32) (p + 16) 16 := hp.mono fun _ ↦ Or.inl
  rw [Allocator.cutOff, Allocator.cutOff]
  generalize s.setOccupied mi true = s₁ at hocc ⊢
  generalize t.setOccupied mi true = t₁ at hocc ⊢
  simp only [hocc.buf, hocc.offs_eq hp']
  have hheader := hocc.store_kept (wrap (s₁.buf + s₁.offs p + n * 8)) p
  have hgetSize : (t₁.setHeader (wrap (s₁.buf + s₁.offs p + n * 8)) p).getSize p =
      (s₁.setHeader (wrap (s₁.buf + s₁.offs p + n * 8)) p).getSize p := hheader.getSize_eq hp'
  have hset := hheader.setSize hp'
    (usub ((s₁.setHeader (wrap (s₁.buf + s₁.offs p + n * 8)) p).getSize p) n)
  rw [hgetSize]
  simp only [setSize_buf]
  have hbuf : (t₁.setHeader (wrap (s₁.buf + s₁.offs p + n * 8)) p).buf =
      (s₁.setHeader (wrap (s₁.buf + s₁.offs p + n * 8)) p).buf := hheader.buf
  rw [hbuf]
  exact hset.store_kept (p + 16) _

end Agree

/-! ## What is known of a structure that is in order -/

/-- The bytes of `head.next` and of the `MetaInfo` objects, but for the links of live blocks. -/
def Known (s : Allocator) (x : ℕ) : Prop :=
  s.head ≤ x ∧ x < s.head + 8 ∨ ∃ m, s.MetaSlot m ∧ m ≤ x ∧ x < m + 32 ∧
    (m + 16 ≤ x ∨ ¬s.isOccupied m)

theorem covers_head : Covers s.Known s.head 8 := fun _ hx hlt ↦ Or.inl ⟨hx, hlt⟩

theorem covers_body (hm : s.MetaSlot m) : Covers s.Known (m + 16) 16 := fun _ hx hlt ↦
  Or.inr ⟨m, hm, by omega, by omega, Or.inl hx⟩

theorem covers_links (hm : s.MetaSlot m) (hocc : ¬s.isOccupied m) : Covers s.Known m 16 :=
  fun _ hx hlt ↦
  Or.inr ⟨m, hm, hx, by omega, Or.inr hocc⟩

theorem known_managed (hx : s.Known x) : s.Managed x := by
  rcases hx with ⟨hle, hlt⟩ | ⟨m, hm, hle, hlt, -⟩
  · exact Or.inl ⟨hle, by omega⟩
  · exact slot_managed (Or.inr hm) hle hlt

/-- What is known afterwards was known before or has been written. -/
theorem known_of_slots (hhead : s'.head = s.head) (hslots : ∀ m, s'.MetaSlot m → s.MetaSlot m ∨
      Covers K (m + 16) 16)
    (hlinks : ∀ m, s'.MetaSlot m → ¬s'.isOccupied m → s.MetaSlot m ∧
      ¬s.isOccupied m ∨ Covers K m 16)
    (hx : s'.Known x) : s.Known x ∨ K x := by
  rcases hx with hx | ⟨m, hm, hle, hlt, hknown⟩
  · rw [hhead] at hx
    exact Or.inl (Or.inl hx)
  · by_cases hbody : m + 16 ≤ x
    · rcases hslots m hm with hm | hcovers
      · exact Or.inl (Or.inr ⟨m, hm, hle, hlt, Or.inl hbody⟩)
      · exact Or.inr (hcovers x hbody (by omega))
    · rcases hlinks m hm (hknown.resolve_left hbody) with ⟨hm, hocc⟩ | hcovers
      · exact Or.inl (Or.inr ⟨m, hm, hle, hlt, Or.inr hocc⟩)
      · exact Or.inr (hcovers x hle (by omega))

end Allocator

end CppMtHw.Allocation
