import CppMtHw.Allocation.Lockstep
import CppMtHw.Allocation.Integrity

/-!
# New allocators on old memory

The constructor reads one word before it is written, the place of `offs` of the first
`MetaInfo`, and throws if what it finds there leads too far. Otherwise what the buffer held
before makes no difference to a client: two sessions with the same careful calls hold the
same pointers, with the same offsets, and get the same replies.
-/

namespace CppMtHw.Allocation

open Machine Allocator

namespace Allocator

variable {s t : Allocator} {mem mem' : Bytes} {object base size m : ℕ}

/-! ## The first block -/

/-- What the constructor finds in the place of `offs` of the first `MetaInfo` leads below that
object. -/
def Clean (mem : Bytes) (base size : ℕ) : Prop :=
  wrap (base + oldOffs mem base size) < base + size - 32

instance (mem : Bytes) (base size : ℕ) : Decidable (Clean mem base size) :=
  inferInstanceAs (Decidable (_ < _))

theorem create_returns_iff (h : Suitable object base size) :
    (∃ s, create mem object base size = .returned () s) ↔ Clean mem base size := by
  obtain ⟨hfull, s, hthrew⟩ | ⟨hclean, v, -, hreturned⟩ := create_eq mem h
  · refine iff_of_false ?_ (Nat.not_lt.mpr hfull)
    rintro ⟨s', hreturned⟩
    cases hthrew.symm.trans hreturned
  · exact iff_of_true ⟨_, hreturned⟩ hclean

theorem create_fields (h : Suitable object base size)
    (hcreate : create mem object base size = .returned () s) :
    s.head = object ∧ s.metas = base + size - 32 ∧ s.buf = base ∧ s.bufsize = size := by
  obtain ⟨-, s', hthrew⟩ | ⟨-, v, -, hreturned⟩ := create_eq mem h
  · cases hthrew.symm.trans hcreate
  · cases hreturned.symm.trans hcreate
    exact insertFree_fields _ _

/-- One block determines all words of its `MetaInfo` but the backward link. -/
theorem Shape.single_words (h : s.WellFormed [s.lastFree] [s.lastFree]) :
    s.next s.head = s.lastFree ∧
    s.next s.lastFree = 0 ∧ s.offs s.lastFree = 0 ∧ s.size s.lastFree = s.dataEnd / 8 := by
  have hchain := h.chain
  have hfree := ((h.free_iff s.lastFree).mp (List.mem_singleton.mpr rfl)).2.1
  have hoffs : s.offs s.lastFree = 0 := h.tiles.1
  have hlast := h.last
  refine ⟨(link_eq_some.mp hchain.1).1, link_eq_none.mp hchain.2, hoffs, ?_⟩
  have hsize : s.getSize s.lastFree = s.size s.lastFree := Nat.mod_eq_of_lt (Nat.not_le.mp hfree)
  omega

/-- Two new allocators in one place agree. -/
theorem create_agree (h : Suitable object base size)
    (hs : create mem object base size = .returned () s)
    (ht : create mem' object base size = .returned () t) : Agree s.Known s t := by
  obtain ⟨hshape, hprev⟩ := create_spec h hs
  obtain ⟨hshape', hprev'⟩ := create_spec h ht
  obtain ⟨hhead, hmetas, hbuf, hbufsize⟩ := create_fields h hs
  obtain ⟨hhead', hmetas', hbuf', hbufsize'⟩ := create_fields h ht
  have hlast : t.lastFree = s.lastFree :=
    lastFree_congr (hbuf'.trans hbuf.symm) (hbufsize'.trans hbufsize.symm)
  have hdataEnd : t.dataEnd = s.dataEnd := by rw [dataEnd, dataEnd, hmetas, hmetas', hbuf, hbuf']
  obtain ⟨hfirst, hnext, hoffs, hsize⟩ := hshape.single_words
  obtain ⟨hfirst', hnext', hoffs', hsize'⟩ := hshape'.single_words
  rw [hlast] at hfirst' hnext' hoffs' hsize' hprev'
  refine ⟨hhead'.trans hhead.symm, hmetas'.trans hmetas.symm, hbuf'.trans hbuf.symm,
    hbufsize'.trans hbufsize.symm, ?_⟩
  rintro x (⟨hle, hlt⟩ | ⟨m, ⟨hmetasle, i, hi⟩, hle, hlt, -⟩)
  · apply Bytes.eq_of_load_eq _ hle hlt
    rw [hhead', ← hhead] at hfirst'
    exact hfirst'.trans hfirst.symm
  · -- there is one object
    obtain rfl : m = s.lastFree := by
      rw [lastFree]
      omega
    refine mem_eq_of_info_eq ?_ hle hlt
    ext
    · exact hnext'.trans hnext.symm
    · exact hprev'.trans ((hhead'.trans hhead.symm).trans hprev.symm)
    · exact hoffs'.trans hoffs.symm
    · exact hsize'.trans ((congrArg (· / 8) hdataEnd).trans hsize.symm)

end Allocator

namespace Session

variable {σ τ σ' : Session} {s t : Allocator} {mem₁ mem₂ : Bytes} {object base size N i j : ℕ}
  {p q : Pointer} {call : Call} {calls : List Call}

/-! ## Replies -/

/-- What a client learns from a call: the `Pointer` that it gives or leaves, or that it throws. -/
inductive Reply
  | returned (p : Pointer)
  | threw
  | diverged
  deriving DecidableEq, Repr

def Permits (σ : Session) : Call → Prop
  | .free p => σ.Owned p
  | .realloc p _ => σ.Owned p
  | .write i j _ => i ∈ σ.live ∧ j + 8 < 8 * σ.allocator.getSize (σ.allocator.getMeta i)
  | _ => True

def reply (σ : Session) : Call → Reply
  | .alloc N =>
      match σ.allocator.alloc N with
      | .returned p _ => .returned p
      | .threw _ => .threw
      | .diverged => .diverged
  | .free p =>
      match σ.allocator.free p with
      | .returned q _ => .returned q
      | .threw _ => .threw
      | .diverged => .diverged
  | .realloc p N =>
      match σ.allocator.realloc p N with
      | (.returned _ _, q) => .returned q
      | (.threw _, _) => .threw
      | (.diverged, _) => .diverged
  | .defrag =>
      match σ.allocator.defrag with
      | .returned _ _ => .returned .null
      | .threw _ => .threw
      | .diverged => .diverged
  | .write .. => .returned .null

/-- The same pointers are held, they have the same offsets, and the next careful call has the same
reply. -/
structure Alike (σ τ : Session) : Prop where
  live : τ.live = σ.live
  offs : ∀ i ∈ σ.live, τ.allocator.offs (τ.allocator.getMeta i) = σ.allocator.offs
    (σ.allocator.getMeta i)
  get : ∀ i ∈ σ.live, τ.allocator.get i = σ.allocator.get i
  reply : ∀ call, σ.Permits call → σ.Careful call → τ.reply call = σ.reply call

/-- The constructor succeeds on both memories, and whatever careful calls follow on the first, they
can be made on the second and come to a session that is alike. -/
def Forgets (object base size : ℕ) (mem₁ mem₂ : Bytes) : Prop :=
  ∃ s t, create mem₁ object base size = .returned () s ∧
    create mem₂ object base size = .returned () t ∧
    ∀ calls σ, Run (Guarded Careful Step) ⟨s, []⟩ calls σ →
      ∃ τ, Run (Guarded Careful Step) ⟨t, []⟩ calls τ ∧ Alike σ τ

/-! ## Two sessions side by side -/

structure Twin (σ τ : Session) : Prop where
  live : τ.live = σ.live
  agree : Agree σ.allocator.Known σ.allocator τ.allocator
  left : σ.Invariant
  right : τ.Invariant

namespace Twin

/-- Their structures have the same lists. -/
theorem lists (h : Twin σ τ) : ∃ blocks frees, σ.Holds blocks frees ∧ τ.Holds blocks frees := by
  obtain ⟨blocks, frees, hσ⟩ := h.left
  obtain ⟨blocks', frees', hτ⟩ := h.right
  obtain ⟨rfl, rfl⟩ := hσ.shape.lists_agree hτ.shape h.agree
  exact ⟨_, _, hσ, hτ⟩

theorem slot (h : Twin σ τ) (hi : i ∈ σ.live) : σ.allocator.MetaSlot (σ.allocator.getMeta i) := by
  obtain ⟨blocks, frees, hσ, -⟩ := h.lists
  exact hσ.shape.slots _ (hσ.block hi).1

theorem offs_eq (h : Twin σ τ) (hi : i ∈ σ.live) :
    τ.allocator.offs (τ.allocator.getMeta i) = σ.allocator.offs (σ.allocator.getMeta i) := by
  rw [h.agree.getMeta_eq, h.agree.offs_eq (covers_body (h.slot hi))]

theorem size_eq (h : Twin σ τ) (hi : i ∈ σ.live) :
    τ.allocator.getSize (τ.allocator.getMeta i) = σ.allocator.getSize (σ.allocator.getMeta i) := by
  rw [h.agree.getMeta_eq, h.agree.getSize_eq (covers_body (h.slot hi))]

theorem get_eq (h : Twin σ τ) (hi : i ∈ σ.live) : τ.allocator.get i = σ.allocator.get i := by
  rw [Allocator.get, Allocator.get, h.offs_eq hi, h.agree.buf]

theorem owned (h : Twin σ τ) (howned : σ.Owned p) : τ.Owned p := by
  rw [Owned, h.live]
  exact howned

theorem pointer_eq (h : Twin σ τ) (howned : σ.Owned p) : p.get τ.allocator = p.get σ.allocator := by
  rcases howned with rfl | hp
  · rw [Pointer.get_null, Pointer.get_null]
  · rw [Pointer.get, Pointer.get, h.get_eq hp]

/-! ## Calls on both -/

theorem allocatable {n : ℕ} (h : Twin σ τ) (hcareful : σ.allocator.Allocatable n) :
    τ.allocator.Allocatable n := by
  obtain ⟨blocks, frees, hσ, hτ⟩ := h.lists
  exact hσ.shape.allocatable_agree hτ.shape h.agree hcareful

theorem alloc (h : Twin σ τ) (hcareful : σ.allocator.Allocatable (units N)) :
    σ.allocator.alloc N = .threw σ.allocator ∧ τ.allocator.alloc N = .threw τ.allocator ∨
      ∃ q s' t', σ.allocator.alloc N = .returned q s' ∧ τ.allocator.alloc N = .returned q t' ∧
        q.held = [q.idx] ∧ s'.getSize (s'.getMeta q.idx) = units N ∧
        Twin ⟨s', σ.live ++ q.held⟩ ⟨t', τ.live ++ q.held⟩ := by
  obtain ⟨blocks, frees, hσ, hτ⟩ := h.lists
  rcases hσ.shape.alloc_agree hτ.shape h.agree N hcareful with
      hthrew | ⟨q, s', t', halloc, halloc', hagree⟩
  · exact Or.inl hthrew
  · rcases hσ.alloc_call hcareful with hthrew | ⟨q', s₁, halloc₁, hheld, hleft, hsize, -⟩
    · cases halloc.symm.trans hthrew
    · cases halloc.symm.trans halloc₁
      have hcareful' : τ.Careful (.alloc N) := h.allocatable hcareful
      exact Or.inr ⟨q, s', t', halloc, halloc', hheld, hsize, congrArg (· ++ q.held) h.live, hagree,
        hleft, h.right.step hcareful' (Step.alloc halloc')⟩

theorem mergeable (h : Twin σ τ) (howned : σ.Owned p)
    (hcareful : p = .null ∨ σ.allocator.Mergeable (σ.allocator.getMeta p.idx)) :
    p = .null ∨ τ.allocator.Mergeable (τ.allocator.getMeta p.idx) := by
  by_cases hnull : p = .null
  · exact Or.inl hnull
  · obtain ⟨blocks, frees, hσ, hτ⟩ := h.lists
    rw [h.agree.getMeta_eq]
    exact Or.inr (hσ.shape.mergeable_agree hτ.shape h.agree (hσ.block (howned.resolve_left hnull)).1
      (hcareful.resolve_left hnull))

theorem free (h : Twin σ τ) (howned : σ.Owned p)
    (hcareful : p = .null ∨ σ.allocator.Mergeable (σ.allocator.getMeta p.idx)) :
    ∃ s' t', σ.allocator.free p = .returned .null s' ∧ τ.allocator.free p = .returned .null t' ∧
      Twin ⟨s', σ.live.erase p.idx⟩ ⟨t', τ.live.erase p.idx⟩ := by
  obtain ⟨blocks, frees, hσ, hτ⟩ := h.lists
  have hcareful' := h.mergeable howned hcareful
  obtain ⟨s', hfree, hleft, -⟩ := hσ.free_call howned hcareful
  obtain ⟨t', hfree', hright, -⟩ := hτ.free_call (h.owned howned) hcareful'
  refine ⟨s', t', hfree, hfree', congrArg (List.erase · p.idx) h.live, ?_, hleft, hright⟩
  by_cases hnull : p = .null
  · subst hnull
    cases hfree.symm.trans (free_of_get_eq_zero (Pointer.get_null _))
    cases hfree'.symm.trans (free_of_get_eq_zero (Pointer.get_null _))
    exact h.agree
  · have hp := howned.resolve_left hnull
    obtain ⟨hblock, hocc⟩ := hσ.block hp
    have hmergeable := hcareful'.resolve_left hnull
    rw [h.agree.getMeta_eq] at hmergeable
    obtain ⟨s₁, t₁, hfree₁, hfree₁', hagree⟩ :=
      hσ.shape.free_agree hτ.shape h.agree hblock hocc (hσ.ne_null hp) rfl
        (hcareful.resolve_left hnull) hmergeable
    cases hfree.symm.trans hfree₁
    cases hfree'.symm.trans hfree₁'
    exact hagree

/-- Where the payload is written does not matter, nor what is written. -/
theorem payload (h : Twin σ τ) (hi : i ∈ σ.live) {s' t' : Allocator}
    (hs : Frame (σ.allocator.Payload (σ.allocator.getMeta i)) σ.allocator s')
    (ht : Frame (τ.allocator.Payload (τ.allocator.getMeta i)) τ.allocator t') :
    Twin ⟨s', σ.live⟩ ⟨t', τ.live⟩ := by
  obtain ⟨blocks, frees, hσ, hτ⟩ := h.lists
  have hblock := (hσ.block hi).1
  have hi' : i ∈ τ.live := h.live ▸ hi
  have hpayload : ∀ x, τ.allocator.Payload (τ.allocator.getMeta i) x →
      σ.allocator.Payload (σ.allocator.getMeta i) x :=
    fun x hx ↦ by
      rw [Payload, h.offs_eq hi, h.size_eq hi, h.agree.buf] at hx
      exact hx
  refine ⟨h.live, ?_, ⟨blocks, frees, hσ.payload hblock hs⟩,
    ⟨blocks, frees, hτ.payload (hτ.block hi').1 ht⟩⟩
  have hagree := h.agree.frame hs (ht.mono hpayload) fun x hx hmem ↦
    hσ.shape.not_managed hblock (Nat.le_trans (Nat.le_add_right _ 8) hmem.1) hmem.2
      (known_managed hx)
  have hinfo := (hσ.shape.payload hblock hs).2
  refine hagree.mono fun x hx ↦
    (known_of_slots (K := σ.allocator.Known) hs.head (fun m hm ↦ Or.inl ?_)
    (fun m hm hocc ↦ Or.inl ⟨?_, fun hocc' ↦ hocc ?_⟩) hx).elim id id
  · exact hs.metaSlot.mp hm
  · exact hs.metaSlot.mp hm
  · have hsize : s'.size m = σ.allocator.size m :=
      congrArg Info.size (hinfo m (Or.inr (hs.metaSlot.mp hm)))
    rwa [isOccupied, hsize]

theorem realloc (h : Twin σ τ) (howned : σ.Owned p) (hcareful : σ.Careful (.realloc p N)) :
    (∃ s' t', σ.allocator.realloc p N = (.threw s', .null) ∧
      τ.allocator.realloc p N = (.threw t', .null) ∧
        Twin ⟨s', σ.live.erase p.idx⟩ ⟨t', τ.live.erase p.idx⟩) ∨
      ∃ s' t' q, σ.allocator.realloc p N = (.returned () s', q) ∧
        τ.allocator.realloc p N = (.returned () t', q) ∧
        Twin ⟨s', σ.live.erase p.idx ++ q.held⟩ ⟨t', τ.live.erase p.idx ++ q.held⟩ := by
  obtain ⟨s₁, t₁, hfree, hfree', htwin₁⟩ := h.free howned hcareful.1
  have hallocatable := hcareful.2 _ _ hfree
  rw [Allocator.realloc, Allocator.realloc, hfree, hfree', h.pointer_eq howned]
  rcases htwin₁.alloc hallocatable with
      ⟨hthrew, hthrew'⟩ | ⟨q, s₂, t₂, halloc, halloc', hheld, hsize, htwin₂⟩
  · refine Or.inl ⟨s₁, t₁, ?_, ?_, htwin₁⟩
    · simp only [hthrew]
    · simp only [hthrew']
  · simp only [halloc, halloc']
    refine Or.inr ⟨_, _, q, rfl, rfl, ?_⟩
    by_cases hsource : p.get σ.allocator = 0
    · rw [if_neg (not_not.mpr hsource), if_neg (not_not.mpr hsource)]
      exact htwin₂
    · rw [if_pos hsource, if_pos hsource]
      obtain ⟨blocks, frees, hσ₂, hτ₂⟩ := htwin₂.lists
      have hq : q.idx ∈ σ.live.erase p.idx ++ q.held := by
        rw [hheld]
        simp
      have hq' : q.idx ∈ τ.live.erase p.idx ++ q.held := by
        rw [hheld]
        simp
      have hsize' : t₂.getSize (t₂.getMeta q.idx) = units N := (htwin₂.size_eq hq).trans hsize
      exact htwin₂.payload hq (hσ₂.frame_move hq _ hsize) (hτ₂.frame_move hq' _ hsize')

theorem defrag (h : Twin σ τ) (hcareful : σ.allocator.Defragmentable) :
    ∃ s' t', σ.allocator.defrag = .returned () s' ∧ τ.allocator.defrag = .returned () t' ∧
      Twin ⟨s', σ.live⟩ ⟨t', τ.live⟩ := by
  obtain ⟨blocks, frees, hσ, hτ⟩ := h.lists
  obtain ⟨s', t', hdefrag, hdefrag', hagree⟩ := hσ.shape.defrag_agree hτ.shape h.agree hcareful
  have hleft : σ.Careful .defrag := hcareful
  have hright : τ.Careful .defrag := h.agree.defragmentable hσ.shape.placed hcareful
  exact ⟨s', t', hdefrag, hdefrag', h.live, hagree, h.left.step hleft (Step.defrag hdefrag),
    h.right.step hright (Step.defrag hdefrag')⟩

/-- The conditions of a call are the same. -/
theorem careful (h : Twin σ τ) (hpermits : σ.Permits call) (hcareful : σ.Careful call) :
    τ.Careful call := by
  cases call with
  | alloc N => exact h.allocatable hcareful
  | free p => exact h.mergeable hpermits hcareful
  | realloc p N =>
      obtain ⟨s', t', hfree, hfree', htwin⟩ := h.free hpermits hcareful.1
      refine ⟨h.mergeable hpermits hcareful.1, fun q t hreturned ↦ ?_⟩
      cases hfree'.symm.trans hreturned
      exact htwin.allocatable (hcareful.2 _ _ hfree)
  | defrag =>
      obtain ⟨blocks, frees, hσ, -⟩ := h.lists
      exact h.agree.defragmentable hσ.shape.placed hcareful
  | write i j value => trivial

theorem reply_eq (h : Twin σ τ) (hpermits : σ.Permits call) (hcareful : σ.Careful call) :
    τ.reply call = σ.reply call := by
  cases call with
  | alloc N =>
      rcases h.alloc hcareful with ⟨hthrew, hthrew'⟩ | ⟨q, s', t', halloc, halloc', -⟩
      · rw [reply, reply, hthrew, hthrew']
      · rw [reply, reply, halloc, halloc']
  | free p =>
      obtain ⟨s', t', hfree, hfree', -⟩ := h.free hpermits hcareful
      rw [reply, reply, hfree, hfree']
  | realloc p N =>
      rcases h.realloc hpermits hcareful with
          ⟨s', t', hthrew, hthrew', -⟩ | ⟨s', t', q, hreturned, hreturned', -⟩
      · rw [reply, reply, hthrew, hthrew']
      · rw [reply, reply, hreturned, hreturned']
  | defrag =>
      obtain ⟨s', t', hdefrag, hdefrag', -⟩ := h.defrag hcareful
      rw [reply, reply, hdefrag, hdefrag']
  | write i j value => rfl

theorem alike (h : Twin σ τ) : Alike σ τ :=
  ⟨h.live, fun _ ↦ h.offs_eq, fun _ ↦ h.get_eq, fun _ ↦ h.reply_eq⟩

/-- A careful call on the first can be made on the second. -/
theorem step (h : Twin σ τ) (hcareful : σ.Careful call) (hstep : Step σ call σ') :
    ∃ τ', Guarded Careful Step τ call τ' ∧ Twin σ' τ' := by
  cases hstep with
  | @alloc N p s halloc =>
      rcases h.alloc hcareful with ⟨hthrew, -⟩ | ⟨q, s', t', halloc₁, halloc', -, -, htwin⟩
      · cases halloc.symm.trans hthrew
      · cases halloc.symm.trans halloc₁
        exact ⟨_, ⟨h.allocatable hcareful, Step.alloc halloc'⟩, htwin⟩
  | @alloc_threw N s hthrew =>
      rcases h.alloc hcareful with ⟨hthrew₁, hthrew'⟩ | ⟨q, s', t', halloc, -⟩
      · cases hthrew.symm.trans hthrew₁
        exact ⟨_, ⟨h.allocatable hcareful, Step.alloc_threw hthrew'⟩, h⟩
      · cases hthrew.symm.trans halloc
  | @free p q s howned hfree =>
      obtain ⟨s', t', hfree₁, hfree', htwin⟩ := h.free howned hcareful
      cases hfree.symm.trans hfree₁
      refine ⟨_, ⟨h.mergeable howned hcareful, Step.free (h.owned howned) hfree'⟩, ?_⟩
      rw [held_null, List.append_nil, List.append_nil]
      exact htwin
  | @realloc p q N s howned hreturned =>
      rcases h.realloc howned hcareful with
          ⟨s', t', hthrew, -⟩ | ⟨s', t', q', hreturned₁, hreturned', htwin⟩
      · cases hreturned.symm.trans hthrew
      · cases hreturned.symm.trans hreturned₁
        have hcareful' : τ.Careful (.realloc p N) := h.careful howned hcareful
        exact ⟨_, ⟨hcareful', Step.realloc (h.owned howned) hreturned'⟩, htwin⟩
  | @realloc_threw p q N s howned hthrew =>
      rcases h.realloc howned hcareful with
          ⟨s', t', hthrew₁, hthrew', htwin⟩ | ⟨s', t', q', hreturned, -⟩
      · cases hthrew.symm.trans hthrew₁
        have hcareful' : τ.Careful (.realloc p N) := h.careful howned hcareful
        refine ⟨_, ⟨hcareful', Step.realloc_threw (h.owned howned) hthrew'⟩, ?_⟩
        rw [held_null, List.append_nil, List.append_nil]
        exact htwin
      · cases hthrew.symm.trans hreturned
  | @defrag s hdefrag =>
      obtain ⟨s', t', hdefrag₁, hdefrag', htwin⟩ := h.defrag hcareful
      cases hdefrag.symm.trans hdefrag₁
      have hcareful' : τ.Careful .defrag := h.careful trivial hcareful
      exact ⟨_, ⟨hcareful', Step.defrag hdefrag'⟩, htwin⟩
  | @write i j value hi hj =>
      obtain ⟨blocks, frees, hσ, hτ⟩ := h.lists
      have hi' : i ∈ τ.live := h.live ▸ hi
      have hj' : j + 8 < 8 * τ.allocator.getSize (τ.allocator.getMeta i) := by rwa [h.size_eq hi]
      exact ⟨_, ⟨trivial, Step.write hi' hj'⟩, h.payload hi (hσ.frame_write hi value hj)
        (hτ.frame_write hi' value hj')⟩

/-- Two new sessions. -/
theorem create (h : Suitable object base size)
    (hs : Allocator.create mem₁ object base size = .returned () s)
    (ht : Allocator.create mem₂ object base size = .returned () t) : Twin ⟨s, []⟩ ⟨t, []⟩ :=
  ⟨rfl, create_agree h hs ht, Invariant.create h hs, Invariant.create h ht⟩

end Twin

/-! ## The contents of the buffer -/

/-- Only the constructor can tell what the buffer held before, from one word. -/
theorem forgets_iff (h : Suitable object base size) (mem₁ mem₂ : Bytes) :
    Forgets object base size mem₁ mem₂ ↔ Clean mem₁ base size ∧ Clean mem₂ base size := by
  constructor
  · rintro ⟨s, t, hs, ht, -⟩
    exact ⟨(create_returns_iff h).mp ⟨s, hs⟩, (create_returns_iff h).mp ⟨t, ht⟩⟩
  · rintro ⟨hclean₁, hclean₂⟩
    obtain ⟨s, hs⟩ := (create_returns_iff h).mpr hclean₁
    obtain ⟨t, ht⟩ := (create_returns_iff h).mpr hclean₂
    refine ⟨s, t, hs, ht, fun calls σ hrun ↦ ?_⟩
    have hstep : ∀ σ τ call σ', Twin σ τ → Guarded Careful Step σ call σ' →
        ∃ τ', Guarded Careful Step τ call τ' ∧ Twin σ' τ' := fun σ τ call σ' htwin hguarded ↦
      htwin.step hguarded.1 hguarded.2
    obtain ⟨τ, hrun', htwin⟩ := hrun.forward hstep (Twin.create h hs ht)
    exact ⟨τ, hrun', htwin.alike⟩

/-- A buffer of zeros and one of `0xFF` bytes. -/
theorem forgets_zeros_ones : Forgets 4096 8192 256 (fun _ ↦ 0) fun _ ↦ 255 :=
  (forgets_iff (suitable_example 256 (by decide) (by decide)) _ _).mpr (by decide +kernel)

/-- A word that is left where `offs` of the first `MetaInfo` will be. -/
theorem leftover_throws :
    ¬Forgets 4096 8192 256 (fun _ ↦ 0) (Bytes.store (fun _ ↦ 0) (8192 + 256 - 32 + 16) 256) := by
  rintro ⟨s, t, -, ht, -⟩
  have hfull : ¬Clean (Bytes.store (fun _ ↦ 0) (8192 + 256 - 32 + 16) 256) 8192 256 := by
    decide +kernel
  exact hfull ((create_returns_iff (suitable_example 256 (by decide) (by decide))).mp ⟨t, ht⟩)

end Session

end CppMtHw.Allocation
