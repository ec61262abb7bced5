import CppMtHw.Allocation.Completeness

/-!
# Copies of a `Pointer`

A client keeps `Pointer`s in variables and copies them. Of each variable it is recorded
which allocation its value stems from. `free` resets the variable that it is given and no
other one, so the copies of a block that is freed are reset if there are none. The others
keep the index of a `MetaInfo` that later allocations use again.
-/

namespace CppMtHw.Allocation

open Machine Allocator

/-- A variable of type `Pointer`, with the number of the allocation that its value was copied
from. -/
structure Handle where
  pointer : Pointer
  origin : Option ℕ
  deriving DecidableEq

/-- An allocator, the variables of its client and the number of allocations so far. -/
structure Client where
  allocator : Allocator
  handles : ℕ → Handle
  count : ℕ

inductive Statement
  | alloc (x N : ℕ)
  | copy (x y : ℕ)
  | free (x : ℕ)
  | realloc (x N : ℕ)
  | defrag
  | write (x j : ℕ) (value : UInt8)

def Statement.Frees (stmt : Statement) (x : ℕ) : Prop := stmt = .free x ∨ ∃ N, stmt = .realloc x N

namespace Session

variable {σ : Session} {s s' : Allocator} {blocks frees : List ℕ} {p q t : Pointer} {N m : ℕ}

/-! ## The index of a block that is freed -/

/-- An exact fit keeps its `MetaInfo`. -/
theorem alloc_exact (h : s.WellFormed blocks frees) (hfit : s.FirstFit (units N) m)
    (hsize : s.getSize m = units N) (halloc : s.alloc N = .returned t s') (hbuf : s'.buf = s.buf)
    (hbufsize : s'.bufsize = s.bufsize) : s.getMeta t.idx = m := by
  have hslot := h.slots m (h.block_of_free (h.firstFit_mem hfit))
  rw [hfit.alloc_eq, place, if_pos hsize] at halloc
  obtain ⟨hpointer, hallocator⟩ := Outcome.returned.inj halloc
  have hindex : t.idx = s.indexOfInfo m := by
    rw [← hpointer, hallocator, indexOfInfo, indexOfInfo, bufEnd, bufEnd, hbuf, hbufsize]
  rw [hindex]
  exact (h.placed.indexOfInfo_getMeta hslot).1

/-- An index leads somewhere as long as its `MetaInfo` is that of a block, live or free. -/
theorem get_ne_zero (h : s.WellFormed blocks frees) (hp : p.idx ≠ nullPtrIdx)
    (hblock : s.getMeta p.idx ∈ blocks) : p.get s ≠ 0 :=
  (h.get_ne_zero hblock hp rfl).2

/-- The value that was given to `free` still leads to the block. -/
theorem Holds.get_freed (h : σ.Holds blocks frees) (hi : p.idx ∈ σ.live)
    (hcareful : σ.Careful (.free p)) (hfree : σ.allocator.free p = .returned q s') :
    p.get s' ≠ 0 := by
  have hne := h.ne_null hi
  obtain ⟨s₁, blocks₁, run, hfree', hholds, hframe, -⟩ :=
    h.free_block hi (hcareful.resolve_left fun hnull ↦ hne (hnull ▸ rfl))
  cases hfree.symm.trans hfree'
  apply get_ne_zero hholds.shape hne
  rw [getMeta_congr hframe.buf hframe.bufsize]
  exact hholds.shape.block_of_free List.mem_cons_self

/-- It does so after a `realloc`, too. -/
theorem Holds.get_reallocated (h : σ.Holds blocks frees) (hi : p.idx ∈ σ.live)
    (hcareful : σ.Careful (.realloc p N))
    (hrealloc : σ.allocator.realloc p N = (.threw s', q) ∨
      σ.allocator.realloc p N = (.returned () s', q)) :
    p.get s' ≠ 0 := by
  have hne := h.ne_null hi
  obtain ⟨s₁, blocks₁, run, hfree, hholds₁, hframe, -⟩ :=
    h.free_block hi (hcareful.1.resolve_left fun hnull ↦ hne (hnull ▸ rfl))
  have hmeta : s₁.getMeta p.idx = σ.allocator.getMeta p.idx :=
    getMeta_congr hframe.buf hframe.bufsize _
  rcases hholds₁.alloc_block (hcareful.2 _ _ hfree) with
    hthrew | ⟨t, s₂, blocks₂, frees₂, m, halloc, hheld, hholds₂, hsize, -, hfit, hcarved⟩
  · rw [Allocator.realloc, hfree] at hrealloc
    simp only [hthrew] at hrealloc
    rcases hrealloc with hrealloc | hrealloc
    · cases hrealloc
      apply get_ne_zero hholds₁.shape hne
      rw [hmeta]
      exact hholds₁.shape.block_of_free List.mem_cons_self
    · cases hrealloc
  · have hmeta₂ : s₂.getMeta p.idx = s₁.getMeta p.idx := getMeta_congr hcarved.buf hcarved.bufsize _
    have ht : t.idx ∈ σ.live.erase p.idx ++ t.held := by
      rw [hheld]
      simp
    have hblock : s₂.getMeta p.idx ∈ blocks₂ := by
      rw [hmeta₂, hmeta]
      by_cases hexact : s₁.getSize m = units N
      · by_cases hm : m = σ.allocator.getMeta p.idx
        · -- the block itself is allocated again
          have hindex := alloc_exact hholds₁.shape hfit hexact halloc hcarved.buf hcarved.bufsize
          rw [← hm, ← hindex, ← getMeta_congr hcarved.buf hcarved.bufsize]
          exact (hholds₂.block ht).1
        · apply hholds₂.shape.block_of_free
          rw [hcarved.list, if_pos hexact]
          exact (List.mem_erase_of_ne (Ne.symm hm)).mpr List.mem_cons_self
      · apply hholds₂.shape.block_of_free
        rw [hcarved.list, if_neg hexact]
        exact List.mem_cons_self
    rw [Allocator.realloc, hfree] at hrealloc
    simp only [halloc] at hrealloc
    rcases hrealloc with hrealloc | hrealloc
    · cases hrealloc
    · obtain ⟨houtcome, -⟩ := Prod.mk.inj hrealloc
      obtain ⟨-, rfl⟩ := Outcome.returned.inj houtcome
      by_cases hsource : p.get σ.allocator = 0
      · rw [if_neg (not_not.mpr hsource)]
        exact get_ne_zero hholds₂.shape hne hblock
      · rw [if_pos hsource]
        have hcopied := hholds₂.payload (hholds₂.block ht).1
          (hholds₂.frame_move ht (p.get σ.allocator) hsize)
        exact get_ne_zero hcopied.shape hne hblock

end Session

namespace Client

def start (s : Allocator) : Client := ⟨s, fun _ ↦ ⟨.null, none⟩, 0⟩

def pointer (κ : Client) (x : ℕ) : Pointer := (κ.handles x).pointer

def origin (κ : Client) (x : ℕ) : Option ℕ := (κ.handles x).origin

def assign (κ : Client) (x : ℕ) (handle : Handle) : Client :=
  { κ with handles := Function.update κ.handles x handle }

/-- A statement that ends, by a return or by an exception; a call that throws assigns nothing. -/
inductive Step : Client → Statement → Client → Prop
  | alloc {κ : Client} {x N : ℕ} {p : Pointer} {s : Allocator} :
      κ.allocator.alloc N = .returned p s →
      Step κ (.alloc x N) (assign ⟨s, κ.handles, κ.count + 1⟩ x ⟨p, some κ.count⟩)
  | alloc_threw {κ : Client} {x N : ℕ} {s : Allocator} :
      κ.allocator.alloc N = .threw s → Step κ (.alloc x N) { κ with allocator := s }
  | copy {κ : Client} {x y : ℕ} : Step κ (.copy x y) (κ.assign y (κ.handles x))
  | free {κ : Client} {x : ℕ} {q : Pointer} {s : Allocator} :
      κ.allocator.free (κ.pointer x) = .returned q s →
      Step κ (.free x) (assign { κ with allocator := s } x ⟨q, κ.origin x⟩)
  | realloc {κ : Client} {x N : ℕ} {q : Pointer} {s : Allocator} :
      κ.allocator.realloc (κ.pointer x) N = (.returned () s, q) →
      Step κ (.realloc x N) (assign ⟨s, κ.handles, κ.count + 1⟩ x ⟨q, some κ.count⟩)
  | realloc_threw {κ : Client} {x N : ℕ} {q : Pointer} {s : Allocator} :
      κ.allocator.realloc (κ.pointer x) N = (.threw s, q) →
      Step κ (.realloc x N) (assign { κ with allocator := s } x ⟨q, κ.origin x⟩)
  | defrag {κ : Client} {s : Allocator} :
      κ.allocator.defrag = .returned () s → Step κ .defrag { κ with allocator := s }
  | write {κ : Client} {x j : ℕ} {value : UInt8} : κ.pointer x ≠ .null →
      j + 8 < 8 * κ.allocator.getSize (κ.allocator.getMeta (κ.pointer x).idx) →
      Step κ (.write x j value) { κ with allocator := { κ.allocator with
        mem := Function.update κ.allocator.mem (κ.allocator.get (κ.pointer x).idx + j) value } }

variable {κ κ' : Client} {stmt : Statement} {x y z o : ℕ} {handle : Handle}

theorem assign_pointer_self : (κ.assign x handle).pointer x = handle.pointer :=
  congrArg Handle.pointer (Function.update_self ..)

theorem assign_origin_self : (κ.assign x handle).origin x = handle.origin :=
  congrArg Handle.origin (Function.update_self ..)

theorem assign_pointer_of_ne (hne : y ≠ x) : (κ.assign x handle).pointer y = κ.pointer y :=
  congrArg Handle.pointer (Function.update_of_ne hne ..)

theorem assign_origin_of_ne (hne : y ≠ x) : (κ.assign x handle).origin y = κ.origin y :=
  congrArg Handle.origin (Function.update_of_ne hne ..)

/-! ## Once every copy is empty -/

def Expired (κ : Client) (o : ℕ) : Prop :=
  o < κ.count ∧ ∀ y, κ.origin y = some o → κ.pointer y = .null

/-- A variable gets a value, and the others of the allocation are empty. -/
theorem expired_assign {s : Allocator} {count : ℕ} (hlt : o < count)
    (hothers : ∀ y, y ≠ x → κ.origin y = some o → κ.pointer y = .null)
    (hhandle : handle.origin = some o → handle.pointer = .null) :
    (assign ⟨s, κ.handles, count⟩ x handle).Expired o := by
  refine ⟨hlt, fun y horigin ↦ ?_⟩
  by_cases hyx : y = x
  · subst hyx
    rw [assign_origin_self] at horigin
    rw [assign_pointer_self]
    exact hhandle horigin
  · rw [assign_origin_of_ne hyx] at horigin
    rw [assign_pointer_of_ne hyx]
    exact hothers y hyx horigin

/-- What is allocated now has another number. -/
theorem origin_new {p : Pointer} (hlt : o < κ.count)
    (horigin : (Handle.mk p (some κ.count)).origin = some o) : p = .null :=
  absurd (Option.some.inj horigin) (Nat.ne_of_gt hlt)

/-- A number that was given out is not given out again, and a copy of an empty variable is empty. -/
theorem Expired.step (h : κ.Expired o) (hstep : Step κ stmt κ') : κ'.Expired o := by
  obtain ⟨hlt, hempty⟩ := h
  have hothers : ∀ x y, y ≠ x → κ.origin y = some o → κ.pointer y = .null := fun _ y _ ↦ hempty y
  cases hstep with
  | alloc _ => exact expired_assign (Nat.lt_succ_of_lt hlt) (hothers _) (origin_new hlt)
  | alloc_threw _ => exact ⟨hlt, hempty⟩
  | copy => exact expired_assign hlt (hothers _) (hempty _)
  | @free x q s hfree =>
      apply expired_assign hlt (hothers _)
      intro horigin
      rw [hempty x horigin, free_of_get_eq_zero (Pointer.get_null _)] at hfree
      cases hfree
      rfl
  | realloc _ => exact expired_assign (Nat.lt_succ_of_lt hlt) (hothers _) (origin_new hlt)
  | @realloc_threw x N q s hthrew =>
      apply expired_assign hlt (hothers _)
      intro horigin
      rw [hempty x horigin, Allocator.realloc, free_of_get_eq_zero (Pointer.get_null _)] at hthrew
      cases halloc : κ.allocator.alloc N with
      | returned p t =>
          simp only [halloc] at hthrew
          cases hthrew
      | threw t =>
          simp only [halloc] at hthrew
          exact (Prod.mk.inj hthrew).2.symm
      | diverged =>
          simp only [halloc] at hthrew
          cases hthrew
  | defrag _ => exact ⟨hlt, hempty⟩
  | write _ _ => exact ⟨hlt, hempty⟩

theorem Expired.run {stmts : List Statement} (h : κ.Expired o) (hrun : Run Step κ stmts κ') :
    κ'.Expired o :=
  Run.invariant (P := fun κ ↦ κ.Expired o) hrun h fun _ _ _ h hstep ↦ h.step hstep

/-! ## Runs in which only single variables are freed -/

def call (κ : Client) : Statement → Option Call
  | .alloc _ N => some (.alloc N)
  | .copy _ _ => none
  | .free x => some (.free (κ.pointer x))
  | .realloc x N => some (.realloc (κ.pointer x) N)
  | .defrag => some .defrag
  | .write x j value => some (.write (κ.pointer x).idx j value)

def Careful (κ : Client) (stmt : Statement) : Prop :=
  ∀ call, κ.call stmt = some call → Session.Careful ⟨κ.allocator, []⟩ call

def Sole (κ : Client) (x : ℕ) : Prop := ∀ y, y ≠ x → κ.origin y = κ.origin x → κ.pointer y = .null

def Tidy (κ : Client) (stmt : Statement) : Prop := κ.Careful stmt ∧ ∀ x, stmt.Frees x → κ.Sole x

/-- The session behind the variables is in order, and two variables that are not empty have one
index exactly if they stem from one allocation. -/
structure Tracked (κ : Client) (live : List ℕ) : Prop where
  order : Session.Invariant ⟨κ.allocator, live⟩
  held : ∀ y, κ.pointer y ≠ .null → (κ.pointer y).idx ∈ live
  same : ∀ y z, κ.pointer y ≠ .null → κ.pointer z ≠ .null →
    (κ.origin y = κ.origin z ↔ (κ.pointer y).idx = (κ.pointer z).idx)
  numbered : ∀ y o, κ.origin y = some o → o < κ.count

variable {live live' : List ℕ} {s : Allocator} {count : ℕ}

theorem idx_ne {p : Pointer} (h : p ≠ .null) : p.idx ≠ nullPtrIdx := fun heq ↦
  h (congrArg Pointer.mk heq)

theorem Tracked.owned (h : κ.Tracked live) : Session.Owned ⟨κ.allocator, live⟩ (κ.pointer x) := by
  by_cases hnull : κ.pointer x = .null
  · exact Or.inl hnull
  · exact Or.inr (h.held x hnull)

/-- The allocator has changed, and no index has been lost. -/
theorem Tracked.call (h : κ.Tracked live) (horder : Session.Invariant ⟨s, live⟩) :
    Tracked { κ with allocator := s } live :=
  ⟨horder, h.held, h.same, h.numbered⟩

/-- A variable gets a value, and the others keep theirs. -/
theorem Tracked.assign (h : κ.Tracked live) (horder : Session.Invariant ⟨s, live'⟩)
    (hcount : κ.count ≤ count) (hkept : ∀ y, y ≠ x → κ.pointer y ≠ .null →
      (κ.pointer y).idx ∈ live')
    (hheld : handle.pointer ≠ .null → handle.pointer.idx ∈ live')
    (hsame : ∀ y, y ≠ x → κ.pointer y ≠ .null → handle.pointer ≠ .null →
      (κ.origin y = handle.origin ↔ (κ.pointer y).idx = handle.pointer.idx))
    (hnumbered : ∀ o, handle.origin = some o → o < count) :
    Tracked (Client.assign ⟨s, κ.handles, count⟩ x handle) live' := by
  have hpointer : ∀ y, y ≠ x →
      (Client.assign ⟨s, κ.handles, count⟩ x handle).pointer y = κ.pointer y :=
    fun y hne ↦ assign_pointer_of_ne hne
  have horigin : ∀ y, y ≠ x →
      (Client.assign ⟨s, κ.handles, count⟩ x handle).origin y = κ.origin y :=
    fun y hne ↦ assign_origin_of_ne hne
  refine ⟨horder, fun y hy ↦ ?_, fun y z hy hz ↦ ?_, fun y o hy ↦ ?_⟩
  · by_cases hyx : y = x
    · subst hyx
      rw [assign_pointer_self] at hy ⊢
      exact hheld hy
    · rw [hpointer y hyx] at hy ⊢
      exact hkept y hyx hy
  · by_cases hyx : y = x
    · subst hyx
      by_cases hzy : z = y
      · subst hzy
        exact iff_of_true rfl rfl
      · rw [assign_pointer_self] at hy ⊢
        rw [hpointer z hzy] at hz ⊢
        rw [assign_origin_self, horigin z hzy]
        exact eq_comm.trans ((hsame z hzy hz hy).trans eq_comm)
    · rw [hpointer y hyx] at hy ⊢
      rw [horigin y hyx]
      by_cases hzx : z = x
      · subst hzx
        rw [assign_pointer_self] at hz ⊢
        rw [assign_origin_self]
        exact hsame y hyx hy hz
      · rw [hpointer z hzx] at hz ⊢
        rw [horigin z hzx]
        exact h.same y z hy hz
  · by_cases hyx : y = x
    · subst hyx
      rw [assign_origin_self] at hy
      exact hnumbered o hy
    · rw [horigin y hyx] at hy
      exact Nat.lt_of_lt_of_le (h.numbered y o hy) hcount

/-- A new block gets an index that no variable has, and a number that no variable has. -/
theorem Tracked.assign_new {p : Pointer} (h : κ.Tracked live)
    (hkept : ∀ y, y ≠ x → κ.pointer y ≠ .null → (κ.pointer y).idx ∈ live')
    (horder : Session.Invariant ⟨s, live' ++ p.held⟩) :
    Tracked (Client.assign ⟨s, κ.handles, κ.count + 1⟩ x ⟨p, some κ.count⟩) (live' ++ p.held) := by
  apply h.assign horder (Nat.le_succ _)
  · exact fun y hyx hy ↦ List.mem_append_left _ (hkept y hyx hy)
  · intro hp
    rw [held_of_ne (idx_ne hp)]
    exact List.mem_append_right _ (List.mem_singleton.mpr rfl)
  · intro y hyx hy hp
    obtain ⟨blocks, frees, hholds⟩ := horder
    have hnodup := hholds.nodup
    rw [held_of_ne (idx_ne hp)] at hnodup
    have hapart := (List.nodup_append.mp hnodup).2.2 _ (hkept y hyx hy) _
      (List.mem_singleton.mpr rfl)
    exact iff_of_false (fun heq ↦ Nat.lt_irrefl _ (h.numbered y _ heq)) hapart
  · intro o ho
    rw [← Option.some.inj ho]
    exact Nat.lt_succ_self _

/-- When a variable is freed that is the only one of its block, the others keep theirs. -/
theorem Tracked.mem_erase (h : κ.Tracked live) (hsole : κ.Sole x) (hne : y ≠ x)
    (hy : κ.pointer y ≠ .null) : (κ.pointer y).idx ∈ live.erase (κ.pointer x).idx := by
  apply (List.mem_erase_of_ne _).mpr (h.held y hy)
  by_cases hx : κ.pointer x = .null
  · rw [hx]
    exact idx_ne hy
  · intro heq
    exact hy (hsole y hne ((h.same y x hy hx).mpr heq))

/-- An empty value is assigned to a variable that was freed. -/
theorem Tracked.assign_null (h : κ.Tracked live) (hsole : κ.Sole x)
    (horder : Session.Invariant ⟨s, live.erase (κ.pointer x).idx⟩) :
    Tracked (Client.assign { κ with allocator := s } x ⟨.null, κ.origin x⟩)
      (live.erase (κ.pointer x).idx) := by
  apply h.assign horder (Nat.le_refl _)
  · exact fun y hyx hy ↦ h.mem_erase hsole hyx hy
  · exact fun hnull ↦ absurd rfl hnull
  · exact fun y hyx hy hnull ↦ absurd rfl hnull
  · exact h.numbered x

theorem Tracked.free_returned (h : κ.Tracked live) (hcareful : κ.Careful (.free x)) :
    ∃ s', κ.allocator.free (κ.pointer x) = .returned .null s' ∧
      Session.Invariant ⟨s', live.erase (κ.pointer x).idx⟩ := by
  obtain ⟨blocks, frees, hholds⟩ := h.order
  obtain ⟨s', hfree, horder, -⟩ := hholds.free_call h.owned (hcareful _ rfl)
  exact ⟨s', hfree, horder⟩

theorem Tracked.realloc_ended {N : ℕ} (h : κ.Tracked live) (hcareful : κ.Careful (.realloc x N)) :
    (∃ s', κ.allocator.realloc (κ.pointer x) N = (.threw s', .null) ∧
      Session.Invariant ⟨s', live.erase (κ.pointer x).idx⟩) ∨
    ∃ s' q, κ.allocator.realloc (κ.pointer x) N = (.returned () s', q) ∧
      Session.Invariant ⟨s', live.erase (κ.pointer x).idx ++ q.held⟩ := by
  obtain ⟨blocks, frees, hholds⟩ := h.order
  rcases Session.maintained_holds.realloc_call hholds trivial h.owned (hcareful _ rfl)
    ⟨Or.inr trivial, fun _ _ _ ↦ trivial⟩ with ⟨s', hthrew, blocks', frees', horder, -⟩ |
      ⟨s', q, hreturned, blocks', frees', horder, -⟩
  · exact Or.inl ⟨s', hthrew, blocks', frees', horder⟩
  · exact Or.inr ⟨s', q, hreturned, blocks', frees', horder⟩

theorem Tracked.step (h : κ.Tracked live) (htidy : κ.Tidy stmt) (hstep : Step κ stmt κ') :
    ∃ live', κ'.Tracked live' := by
  obtain ⟨hcareful, hsole⟩ := htidy
  cases hstep with
  | alloc hreturned =>
      have horder := h.order.step (hcareful _ rfl) (Allocation.Step.alloc hreturned)
      exact ⟨_, h.assign_new (fun y _ hy ↦ h.held y hy) horder⟩
  | alloc_threw hthrew =>
      exact ⟨live, h.call (h.order.step (hcareful _ rfl) (Allocation.Step.alloc_threw hthrew))⟩
  | @copy x y =>
      refine ⟨live, h.assign h.order (Nat.le_refl _) (fun z _ hz ↦ h.held z hz) (h.held x) ?_
        (h.numbered x)⟩
      exact fun z _ hz hx ↦ h.same z x hz hx
  | free hreturned =>
      obtain ⟨s', hreturned', horder⟩ := h.free_returned hcareful
      cases hreturned.symm.trans hreturned'
      exact ⟨_, h.assign_null (hsole _ (Or.inl rfl)) horder⟩
  | realloc hreturned =>
      rcases h.realloc_ended hcareful with ⟨s', hthrew, -⟩ | ⟨s', q, hreturned', horder⟩
      · cases hreturned.symm.trans hthrew
      · cases hreturned.symm.trans hreturned'
        exact ⟨_, h.assign_new
          (fun y hyx hy ↦ h.mem_erase (hsole _ (Or.inr ⟨_, rfl⟩)) hyx hy) horder⟩
  | realloc_threw hthrew =>
      rcases h.realloc_ended hcareful with ⟨s', hthrew', horder⟩ | ⟨s', q, hreturned, -⟩
      · cases hthrew.symm.trans hthrew'
        exact ⟨_, h.assign_null (hsole _ (Or.inr ⟨_, rfl⟩)) horder⟩
      · cases hthrew.symm.trans hreturned
  | defrag hreturned =>
      exact ⟨live, h.call (h.order.step (hcareful _ rfl) (Allocation.Step.defrag hreturned))⟩
  | write hne hj =>
      exact ⟨live, h.call (h.order.step (hcareful _ rfl) (Allocation.Step.write (h.held _ hne) hj))⟩

theorem Tracked.start (h : Session.Invariant ⟨s, []⟩) : (start s).Tracked [] :=
  ⟨h, fun _ hne ↦ absurd rfl hne, fun _ _ hne ↦ absurd rfl hne, fun _ _ horigin ↦ nomatch horigin⟩

/-! ## After the block is freed -/

/-- The variable that is freed is empty then, or has a new number. -/
theorem Tracked.expired (h : κ.Tracked live) (hcareful : κ.Careful stmt) (hfrees : stmt.Frees x)
    (horigin : κ.origin x = some o) (hstep : Step κ stmt κ') (hsole : κ.Sole x) : κ'.Expired o := by
  have hlt := h.numbered x o horigin
  have hothers : ∀ y, y ≠ x → κ.origin y = some o → κ.pointer y = .null := fun y hne hy ↦
    hsole y hne (hy.trans horigin.symm)
  rcases hfrees with rfl | ⟨N, rfl⟩
  · cases hstep with
    | free hreturned =>
        obtain ⟨s', hreturned', -⟩ := h.free_returned hcareful
        cases hreturned.symm.trans hreturned'
        exact expired_assign hlt hothers fun _ ↦ rfl
  · cases hstep with
    | realloc hreturned => exact expired_assign (Nat.lt_succ_of_lt hlt) hothers (origin_new hlt)
    | realloc_threw hthrew =>
        rcases h.realloc_ended hcareful with ⟨s', hthrew', -⟩ | ⟨s', q, hreturned, -⟩
        · cases hthrew.symm.trans hthrew'
          exact expired_assign hlt hothers fun _ ↦ rfl
        · cases hthrew.symm.trans hreturned

/-- Other variables keep their blocks when an empty one is freed. -/
theorem Tracked.mem_erase_null (h : κ.Tracked live) (hx : κ.pointer x = .null)
    (hy : κ.pointer y ≠ .null) : (κ.pointer y).idx ∈ live.erase (κ.pointer x).idx := by
  rw [hx]
  exact (List.mem_erase_of_ne (idx_ne hy)).mpr (h.held y hy)

/-- A copy leads somewhere after the block is freed. -/
theorem Tracked.get_freed {q : Pointer} (h : κ.Tracked live) (hcareful : κ.Careful (.free x))
    (horigin : κ.origin y = κ.origin x) (hy : κ.pointer y ≠ .null)
    (hfree : κ.allocator.free (κ.pointer x) = .returned q s) : (κ.pointer y).get s ≠ 0 := by
  obtain ⟨blocks, frees, hholds⟩ := h.order
  by_cases hx : κ.pointer x = .null
  · obtain ⟨s', hfree', ⟨blocks', frees', hholds'⟩⟩ := h.free_returned hcareful
    cases hfree.symm.trans hfree'
    exact Session.get_ne_zero hholds'.shape (idx_ne hy) (hholds'.block (h.mem_erase_null hx hy)).1
  · have hcopy : κ.pointer y = κ.pointer x := congrArg Pointer.mk ((h.same y x hy hx).mp horigin)
    rw [hcopy]
    exact hholds.get_freed (h.held x hx) (hcareful _ rfl) hfree

theorem Tracked.get_reallocated {q : Pointer} {N : ℕ} (h : κ.Tracked live)
    (hcareful : κ.Careful (.realloc x N)) (horigin : κ.origin y = κ.origin x)
    (hy : κ.pointer y ≠ .null) (hrealloc : κ.allocator.realloc (κ.pointer x) N = (.threw s, q) ∨
      κ.allocator.realloc (κ.pointer x) N = (.returned () s, q)) : (κ.pointer y).get s ≠ 0 := by
  obtain ⟨blocks, frees, hholds⟩ := h.order
  by_cases hx : κ.pointer x = .null
  · have hmem := h.mem_erase_null hx hy
    rcases h.realloc_ended hcareful with
      ⟨s', hthrew, blocks', frees', hholds'⟩ | ⟨s', r, hreturned, blocks', frees', hholds'⟩
    · rw [hthrew] at hrealloc
      rcases hrealloc with heq | heq
      · cases heq
        exact Session.get_ne_zero hholds'.shape (idx_ne hy) (hholds'.block hmem).1
      · cases heq
    · rw [hreturned] at hrealloc
      rcases hrealloc with heq | heq
      · cases heq
      · cases heq
        exact Session.get_ne_zero hholds'.shape (idx_ne hy)
          (hholds'.block (List.mem_append_left _ hmem)).1
  · have hcopy : κ.pointer y = κ.pointer x := congrArg Pointer.mk ((h.same y x hy hx).mp horigin)
    rw [hcopy]
    exact hholds.get_reallocated (h.held x hx) (hcareful _ rfl) hrealloc

/-- If every copy yields null after the block is freed, there were no copies. -/
theorem Tracked.sole (h : κ.Tracked live) (hcareful : κ.Careful stmt) (hfrees : stmt.Frees x)
    (horigin : κ.origin x = some o) (hstep : Step κ stmt κ')
    (hnull : ∀ y, κ'.origin y = some o → (κ'.pointer y).get κ'.allocator = 0) : κ.Sole x := by
  intro y hne hy
  by_contra hyne
  have hyo : κ.origin y = some o := hy.trans horigin
  have hget : ∀ {s : Allocator} {count : ℕ} {handle : Handle},
      κ' = Client.assign ⟨s, κ.handles, count⟩ x handle → (κ.pointer y).get s = 0 := by
    rintro s count handle rfl
    have hkept := hnull y ((assign_origin_of_ne hne).trans hyo)
    rw [assign_pointer_of_ne hne] at hkept
    exact hkept
  rcases hfrees with rfl | ⟨N, rfl⟩
  · cases hstep with
    | free hreturned => exact h.get_freed hcareful hy hyne hreturned (hget rfl)
  · cases hstep with
    | realloc hreturned => exact h.get_reallocated hcareful hy hyne (Or.inr hreturned) (hget rfl)
    | realloc_threw hthrew => exact h.get_reallocated hcareful hy hyne (Or.inl hthrew) (hget rfl)

variable {mem : Bytes} {object base size : ℕ} {stmts : List Statement}

/-- After tidy statements: when the block of a variable is freed, every `Pointer` copied from the
same allocation yields null from then on if the others are empty before, and otherwise one of them
does not. -/
theorem free_invalidates_iff (h : Suitable object base size)
    (hcreate : create mem object base size = .returned () s)
    (hrun : Run (Guarded Tidy Step) (start s) stmts κ) (hcareful : κ.Careful stmt)
    (hfrees : stmt.Frees x) (horigin : κ.origin x = some o) (hstep : Step κ stmt κ') :
    (κ.Sole x → ∀ stmts' κ'', Run Step κ' stmts' κ'' →
      ∀ y, κ''.origin y = some o → (κ''.pointer y).get κ''.allocator = 0) ∧
    ((∀ y, κ'.origin y = some o → (κ'.pointer y).get κ'.allocator = 0) → κ.Sole x) := by
  have htracked : ∃ live, κ.Tracked live :=
    Run.invariant (P := fun κ ↦ ∃ live, κ.Tracked live) hrun
      ⟨[], Tracked.start (Session.Invariant.create h hcreate)⟩
      fun _ _ _ ⟨_, h⟩ hstep ↦ h.step hstep.1 hstep.2
  obtain ⟨live, htracked⟩ := htracked
  constructor
  · intro hsole stmts' κ'' hrun' y hy
    have hexpired := (htracked.expired hcareful hfrees horigin hstep hsole).run hrun'
    rw [hexpired.2 y hy]
    exact Pointer.get_null _
  · exact htracked.sole hcareful hfrees horigin hstep

theorem free_invalidates_single : ∃ s κ κ', create (fun _ ↦ 0) 4096 8192 256 = .returned () s ∧
    Run Step (start s) [.alloc 0 24, .alloc 1 24] κ ∧ κ.origin 0 = some 0 ∧ Step κ (.free 0) κ' ∧
    ∀ y, κ'.origin y = some 0 → (κ'.pointer y).get κ'.allocator = 0 := by
  obtain ⟨s, s₁, s₂, s₃, hcreate, hs, halloc, hs₁, halloc', hocc, hfree⟩ := Session.two_blocks
  have hfirst : Step (start s) (.alloc 0 24) (assign ⟨s₁, (start s).handles, 1⟩ 0 ⟨⟨1⟩, some 0⟩) :=
    Step.alloc halloc
  have hsecond : Step (assign ⟨s₁, (start s).handles, 1⟩ 0 ⟨⟨1⟩, some 0⟩) (.alloc 1 24)
      (assign ⟨s₂, (assign ⟨s₁, (start s).handles, 1⟩ 0 ⟨⟨1⟩, some 0⟩).handles, 2⟩ 1
        ⟨⟨2⟩, some 1⟩) :=
    Step.alloc halloc'
  have htidy : ∀ κ x, Session.servesLast κ.allocator (units 24) = true → Tidy κ (.alloc x 24) := by
    refine fun κ x hserves ↦ ⟨fun call hcall ↦ ?_, fun y hfrees ↦ ?_⟩
    · rw [← Option.some.inj hcall]
      exact Session.allocatable_of_servesLast hserves
    · rcases hfrees with heq | ⟨N, heq⟩
      · cases heq
      · cases heq
  have hrun : Run (Guarded Tidy Step) (start s) [.alloc 0 24, .alloc 1 24] _ :=
    (Run.single ⟨htidy _ 0 hs, hfirst⟩).snoc ⟨htidy _ 1 hs₁, hsecond⟩
  generalize hκ : assign ⟨s₂, (assign ⟨s₁, (start s).handles, 1⟩ 0 ⟨⟨1⟩, some 0⟩).handles, 2⟩ 1
    ⟨⟨2⟩, some 1⟩ = κ at hrun
  have hallocator : κ.allocator = s₂ := by rw [← hκ]; rfl
  have hpointer : κ.pointer 0 = ⟨1⟩ := by rw [← hκ]; rfl
  have horigin : κ.origin 0 = some 0 := by rw [← hκ]; rfl
  have hcareful : κ.Careful (.free 0) := by
    intro call hcall
    rw [← Option.some.inj hcall, hpointer, hallocator]
    exact Or.inr (Session.mergeable_of_occupied hocc)
  have hstep : Step κ (.free 0) (assign { κ with allocator := s₃ } 0 ⟨.null, κ.origin 0⟩) := by
    apply Step.free
    rw [hpointer, hallocator]
    exact hfree
  have hsole : κ.Sole 0 := by
    intro y hne hy
    rw [horigin, ← hκ] at hy
    rw [← hκ]
    by_cases hy1 : y = 1
    · subst hy1
      cases hy
    · rw [assign_pointer_of_ne hy1]
      exact assign_pointer_of_ne hne
  exact ⟨s, κ, _, hcreate, hrun.mono fun _ _ _ h ↦ h.2, horigin, hstep,
    (free_invalidates_iff (Session.suitable_example 256 (by decide) (by decide)) hcreate hrun
      hcareful (Or.inl rfl) horigin hstep).1 hsole [] _ (Run.nil _)⟩

/-- A copy of a `Pointer` whose block is freed still leads somewhere, and soon to the next block. -/
theorem stale_copy : ∃ s κ κ₁ κ₂, create (fun _ ↦ 0) 4096 8192 256 = .returned () s ∧
    Run Step (start s) [.alloc 0 24, .alloc 1 24, .copy 0 2] κ ∧ Step κ (.free 0) κ₁ ∧
    Step κ₁ (.alloc 3 24) κ₂ ∧ κ.origin 2 = κ.origin 0 ∧ (κ₁.pointer 2).get κ₁.allocator ≠ 0 ∧
    κ₂.origin 3 ≠ κ.origin 0 ∧ κ₂.pointer 2 = κ₂.pointer 3 ∧
    (κ₂.pointer 3).get κ₂.allocator ≠ 0 := by
  have hcheck : (create (fun _ ↦ 0) 4096 8192 256).checks (fun _ s ↦ (s.alloc 24).checks fun p s₁ ↦
      (s₁.alloc 24).checks fun _ s₂ ↦ (s₂.free p).checks fun _ s₃ ↦ decide (p.get s₃ ≠ 0) &&
        (s₃.alloc 24).checks fun t s₄ ↦ decide (p = t ∧ t.get s₄ ≠ 0)) = true := by decide +kernel
  obtain ⟨⟨⟩, s, hcreate, hs⟩ := Outcome.exists_of_checks hcheck
  obtain ⟨p, s₁, halloc, hs₁⟩ := Outcome.exists_of_checks hs
  obtain ⟨q, s₂, halloc', hs₂⟩ := Outcome.exists_of_checks hs₁
  obtain ⟨r, s₃, hfree, hs₃⟩ := Outcome.exists_of_checks hs₂
  rw [Bool.and_eq_true, decide_eq_true_iff] at hs₃
  obtain ⟨t, s₄, halloc₄, hs₄⟩ := Outcome.exists_of_checks hs₃.2
  obtain ⟨hsame, hget⟩ := of_decide_eq_true hs₄
  have hfirst : Step (start s) (.alloc 0 24) _ := Step.alloc halloc
  have hnumber : some 2 ≠ some 0 := by decide
  have hrun := ((Run.single hfirst).snoc (Step.alloc (x := 1) halloc')).snoc
    (Step.copy (x := 0) (y := 2))
  exact ⟨s, _, _, _, hcreate, hrun, Step.free (x := 0) hfree, Step.alloc (x := 3) halloc₄, rfl,
    hs₃.1, hnumber, hsame, hget⟩

end Client

end CppMtHw.Allocation
