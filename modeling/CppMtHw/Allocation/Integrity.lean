import CppMtHw.Allocation.Session
import Mathlib.Data.List.Perm.Basic

/-!
# Integrity of live blocks

The blocks that a client holds stay apart from each other and from the `MetaInfo` array,
`alloc` and `free` leave the others alone, and `defrag` moves them without loss. All of this
holds in runs whose calls are careful, and each of it fails in some other run.
-/

namespace CppMtHw.Allocation

open Machine Allocator

namespace Session

variable {σ τ : Session} {s : Allocator} {mem : Bytes} {object base size : ℕ} {calls : List Call}
  {call : Call} {blocks frees : List ℕ} {i j : ℕ}

/-! ## Runs on a small buffer -/

/-- Do the calls on a new allocator with a buffer of `size` zeros end in a session that passes the
check? -/
def checksRun (size : ℕ) (calls : List Call) (f : Session → Bool) : Bool :=
  (create (fun _ ↦ 0) 4096 8192 size).checks fun _ s ↦ (calls.foldlM exec ⟨s, []⟩).any f

theorem exists_of_checksRun {f : Session → Bool} (h : checksRun size calls f = true) : ∃ s σ,
    create (fun _ ↦ 0) 4096 8192 size = .returned () s ∧ Run Step ⟨s, []⟩ calls σ ∧ f σ = true := by
  obtain ⟨⟨⟩, s, hcreate, hs⟩ := Outcome.exists_of_checks h
  obtain ⟨σ, hexec, hσ⟩ := (Option.any_eq_true _ _).mp hs
  exact ⟨s, σ, hcreate, (Run.of_foldlM hexec).mono fun _ _ _ ↦ step_of_exec, hσ⟩

/-! ## The smallest careful runs -/

theorem chain_lastFree (hhead : s.next s.head = s.lastFree) (hpos : s.lastFree ≠ 0)
    (hnext : s.next s.lastFree = 0) : Chain s.nextLink (s.nextLink s.head) [s.lastFree] := by
  rw [nextLink, hhead]
  exact ⟨link_of_ne hpos, by rw [nextLink, hnext]; rfl⟩

theorem firstFit_single {m n p : ℕ} (hchain : Chain s.nextLink (s.nextLink s.head) [m]) :
    s.FirstFit n p ↔ p = m ∧ n ≤ s.getSize m := by
  constructor
  · rintro ⟨before, after, hchain', -, hle⟩
    have hmem : p ∈ [m] := by
      rw [hchain.unique hchain']
      simp
    obtain rfl := List.mem_singleton.mp hmem
    exact ⟨rfl, hle⟩
  · rintro ⟨rfl, hle⟩
    exact ⟨[], [], hchain, fun q hq ↦ (List.not_mem_nil hq).elim, hle⟩

/-- A request that the last free block can serve, when it is the only free block. -/
theorem allocatable_of_last {n : ℕ} (hchain : Chain s.nextLink (s.nextLink s.head) [s.lastFree])
    (hreusable : s.reusable = none) (hroom : n < (s.metas - 32 - (s.buf + s.offs s.lastFree)) / 8)
    (hfit : n < s.getSize s.lastFree) : s.Allocatable n := by
  have hfirst : ∀ p, s.FirstFit n p → p = s.lastFree :=
    fun p hp ↦ ((firstFit_single hchain).mp hp).1
  refine ⟨fun p hp hsize ↦ ?_, fun p mi _ _ hreuse ↦ ?_, fun p hp _ _ _ ↦ ?_⟩
  · rw [hfirst p hp] at hsize
    omega
  · rw [hreusable] at hreuse
    cases hreuse
  · rw [if_pos (hfirst p hp)]
    exact ⟨⟨_, hchain, List.mem_singleton.mpr rfl⟩, hroom⟩

/-- The facts that `allocatable_of_last` needs, to be evaluated. -/
def servesLast (s : Allocator) (n : ℕ) : Bool :=
  s.next s.head = s.lastFree ∧ s.lastFree ≠ 0 ∧ s.next s.lastFree = 0 ∧ s.reusable = none ∧
    n < (s.metas - 32 - (s.buf + s.offs s.lastFree)) / 8 ∧ n < s.getSize s.lastFree

theorem allocatable_of_servesLast {n : ℕ} (h : servesLast s n = true) : s.Allocatable n := by
  rw [servesLast, decide_eq_true_iff] at h
  obtain ⟨hhead, hpos, hnext, hreusable, hroom, hfit⟩ := h
  exact allocatable_of_last (chain_lastFree hhead hpos hnext) hreusable hroom hfit

/-- Such a request takes the last free block, which is larger. -/
theorem firstFit_of_servesLast {n p : ℕ} (h : servesLast s n = true) :
    s.FirstFit n p ↔ p = s.lastFree ∧ n < s.getSize p := by
  rw [servesLast, decide_eq_true_iff] at h
  obtain ⟨hhead, hpos, hnext, -, -, hfit⟩ := h
  rw [firstFit_single (chain_lastFree hhead hpos hnext)]
  refine and_congr_right fun hp ↦ ?_
  rw [hp]
  exact iff_of_true (Nat.le_of_lt hfit) hfit

/-- A request that the first element of the list fits exactly. -/
theorem allocatable_of_exact {n : ℕ} (hhead : s.next s.head ≠ 0)
    (hsize : s.getSize (s.next s.head) = n) (hprev : s.prev (s.next s.head) ≠ 0) :
    s.Allocatable n := by
  have hfirst : ∀ p, s.FirstFit n p → p = s.next s.head := fun p hp ↦
    hp.eq_first (link_of_ne hhead) (Nat.le_of_eq hsize.symm)
  refine ⟨fun p hp _ ↦ ?_, fun p mi hp hlt ↦ ?_, fun p hp hlt ↦ ?_⟩
  · rw [hfirst p hp]
    exact hprev
  · rw [hfirst p hp] at hlt
    omega
  · rw [hfirst p hp] at hlt
    omega

/-- There is nothing to add to a block in front of a live one. -/
theorem freeRun_of_occupied {b : ℕ} {run : List ℕ}
    (hocc : s.isOccupied (s.header (s.buf + (s.offs b + 8 * s.getSize b))))
    (hrun : s.FreeRun b run) : run = [] := by
  obtain ⟨e, -, htiles, hfree⟩ := hrun
  cases run with
  | nil => rfl
  | cons c run =>
      have hheader := htiles.2.2.1
      rw [hheader] at hocc
      exact absurd hocc (hfree c List.mem_cons_self)

theorem mergeable_of_occupied {b : ℕ}
    (hocc : s.isOccupied (s.header (s.buf + (s.offs b + 8 * s.getSize b)))) : s.Mergeable b := by
  intro run hrun
  rw [freeRun_of_occupied hocc hrun]
  exact ⟨fun c hc ↦ (List.not_mem_nil hc).elim, List.Pairwise.nil⟩

/-- Two blocks side by side, the first of which can be freed. -/
theorem two_blocks : ∃ s s₁ s₂ s₃, create (fun _ ↦ 0) 4096 8192 256 = .returned () s ∧
    servesLast s (units 24) = true ∧ s.alloc 24 = .returned ⟨1⟩ s₁ ∧
    servesLast s₁ (units 24) = true ∧ s₁.alloc 24 = .returned ⟨2⟩ s₂ ∧
    s₂.isOccupied (s₂.header (s₂.buf + (s₂.offs (s₂.getMeta 1) + 8 * s₂.getSize (s₂.getMeta 1)))) ∧
    s₂.free ⟨1⟩ = .returned .null s₃ := by
  have hcheck : (create (fun _ ↦ 0) 4096 8192 256).checks (fun _ s ↦ servesLast s (units 24) &&
      (s.alloc 24).checks fun p s₁ ↦ decide (p = ⟨1⟩) && (servesLast s₁ (units 24) &&
        (s₁.alloc 24).checks fun q s₂ ↦ decide (q = ⟨2⟩ ∧ s₂.isOccupied
            (s₂.header (s₂.buf + (s₂.offs (s₂.getMeta 1) + 8 * s₂.getSize (s₂.getMeta 1))))) &&
          (s₂.free ⟨1⟩).checks fun r _ ↦ decide (r = .null))) = true := by decide +kernel
  obtain ⟨⟨⟩, s, hcreate, hs⟩ := Outcome.exists_of_checks hcheck
  rw [Bool.and_eq_true] at hs
  obtain ⟨p, s₁, halloc, hs₁⟩ := Outcome.exists_of_checks hs.2
  rw [Bool.and_eq_true, Bool.and_eq_true, decide_eq_true_iff] at hs₁
  obtain ⟨rfl, hserves, hsecond⟩ := hs₁
  obtain ⟨q, s₂, halloc', hs₂⟩ := Outcome.exists_of_checks hsecond
  rw [Bool.and_eq_true, decide_eq_true_iff] at hs₂
  obtain ⟨⟨rfl, hocc⟩, hfree⟩ := hs₂
  obtain ⟨r, s₃, hfree, hr⟩ := Outcome.exists_of_checks hfree
  obtain rfl := of_decide_eq_true hr
  exact ⟨s, s₁, s₂, s₃, hcreate, hs.1, halloc, hserves, halloc', hocc, hfree⟩

/-- The run to such blocks. -/
theorem run_two {guard : Session → Call → Prop} {s₁ s₂ : Allocator}
    (hguard : ∀ σ, servesLast σ.allocator (units 24) = true → guard σ (.alloc 24))
    (hs : servesLast s (units 24) = true) (halloc : s.alloc 24 = .returned ⟨1⟩ s₁)
    (hs₁ : servesLast s₁ (units 24) = true) (halloc' : s₁.alloc 24 = .returned ⟨2⟩ s₂) :
    Run (Guarded guard Step) ⟨s, []⟩ [.alloc 24, .alloc 24] ⟨s₂, [1, 2]⟩ := by
  have hfirst : Step ⟨s, []⟩ (.alloc 24) ⟨s₁, [] ++ Pointer.held ⟨1⟩⟩ := Step.alloc halloc
  have hsecond : Step ⟨s₁, [1]⟩ (.alloc 24) ⟨s₂, [1] ++ Pointer.held ⟨2⟩⟩ := Step.alloc halloc'
  rw [held_of_ne (by decide)] at hfirst hsecond
  exact (Run.single ⟨hguard _ hs, hfirst⟩).snoc ⟨hguard _ hs₁, hsecond⟩

/-- The calls that the lemmas above show to be careful. -/
def PlainlyCareful (σ : Session) : Call → Prop
  | .alloc N => servesLast σ.allocator (units N) = true
  | .free p => σ.allocator.isOccupied (σ.allocator.header (σ.allocator.buf +
      (σ.allocator.offs (σ.allocator.getMeta p.idx) + 8 * σ.allocator.getSize
        (σ.allocator.getMeta p.idx))))
  | .defrag => σ.allocator.Defragmentable
  | .realloc .. | .write .. => False

instance (σ : Session) (call : Call) : Decidable (σ.PlainlyCareful call) :=
  match call with
  | .alloc _ => inferInstanceAs (Decidable (_ = _))
  | .free _ => inferInstanceAs (Decidable (Allocator.isOccupied _ _))
  | .defrag => inferInstanceAs (Decidable (_ ∧ _))
  | .realloc .. | .write .. => instDecidableFalse

theorem PlainlyCareful.careful (h : σ.PlainlyCareful call) : σ.Careful call := by
  cases call with
  | alloc N => exact allocatable_of_servesLast h
  | free p => exact Or.inr (mergeable_of_occupied h)
  | defrag => exact h
  | realloc p N => exact h.elim
  | write i j value => trivial

/-- Are such calls on a new allocator, as in `checksRun`, possible, and does their session pass the
check? -/
def checksCarefulRun (size : ℕ) (calls : List Call) (f : Session → Bool) : Bool :=
  (create (fun _ ↦ 0) 4096 8192 size).checks fun _ s ↦
    (calls.foldlM (fun (σ : Session) call ↦
      if σ.PlainlyCareful call then σ.exec call else none) ⟨s, []⟩).any f

theorem exists_of_checksCarefulRun {f : Session → Bool} (h : checksCarefulRun size calls f = true) :
    ∃ s σ, create (fun _ ↦ 0) 4096 8192 size = .returned () s ∧
      Run (Guarded Careful Step) ⟨s, []⟩ calls σ ∧ f σ = true := by
  obtain ⟨⟨⟩, s, hcreate, hs⟩ := Outcome.exists_of_checks h
  obtain ⟨σ, hexec, hσ⟩ := (Option.any_eq_true _ _).mp hs
  have hrun := Run.guarded_of_foldlM hexec
  refine ⟨s, σ, hcreate, hrun.mono fun _ _ _ hstep ↦ ?_, hσ⟩
  exact ⟨hstep.1.careful, step_of_exec hstep.2⟩

/-! ## Separation -/

def blockStart (σ : Session) (i : ℕ) : ℕ :=
  σ.allocator.buf + σ.allocator.offs (σ.allocator.getMeta i)

def blockEnd (σ : Session) (i : ℕ) : ℕ :=
  σ.blockStart i + 8 * σ.allocator.getSize (σ.allocator.getMeta i)

structure Separated (σ : Session) : Prop where
  inside : ∀ i ∈ σ.live, σ.allocator.buf ≤ σ.blockStart i ∧ σ.blockEnd i ≤ σ.allocator.metas
  disjoint : σ.live.Pairwise fun i j ↦ σ.blockEnd i ≤ σ.blockStart j ∨ σ.blockEnd j ≤ σ.blockStart i
  distinct : σ.live.Nodup

theorem Holds.separated (h : σ.Holds blocks frees) : σ.Separated := by
  refine ⟨fun i hi ↦ ?_, ?_, h.nodup⟩
  · have hend := (h.shape.bounds (h.block hi).1).2.1
    have hdataEnd := h.shape.placed.dataEnd_le
    rw [blockEnd, blockStart]
    exact ⟨Nat.le_add_right _ _, by omega⟩
  · refine h.nodup.imp_of_mem fun {i j} hi hj hne ↦ ?_
    have hmeta : σ.allocator.getMeta i ≠ σ.allocator.getMeta j := fun heq ↦
      hne (getMeta_inj h.shape.placed (h.bound i hi) (h.bound j hj) heq)
    have hapart := h.shape.blocks_apart (h.block hi).1 (h.block hj).1 hmeta
    rw [blockEnd, blockEnd, blockStart, blockStart]
    omega

/-- Careful calls keep the live blocks apart. -/
theorem blocks_separated (h : Suitable object base size)
    (hcreate : create mem object base size = .returned () s)
    (hrun : Run (Guarded Careful Step) ⟨s, []⟩ calls σ) : σ.Separated := by
  obtain ⟨blocks, frees, hholds⟩ := Invariant.run h hcreate hrun
  exact hholds.separated

theorem suitable_example (size : ℕ) (hroom : 40 ≤ size) (hend : size ≤ 4096) :
    Suitable 4096 8192 size :=
  ⟨hroom, by decide, by omega, by decide, by decide, Or.inl (by decide)⟩

/-- Two blocks side by side. -/
theorem blocks_separated_two : ∃ s σ, create (fun _ ↦ 0) 4096 8192 256 = .returned () s ∧
    Run Step ⟨s, []⟩ [.alloc 24, .alloc 24] σ ∧ σ.live = [1, 2] ∧ σ.Separated := by
  have hcheck : checksCarefulRun 256 [.alloc 24, .alloc 24]
      (fun σ ↦ decide (σ.live = [1, 2])) = true := by
    decide +kernel
  obtain ⟨s, σ, hcreate, hrun, hσ⟩ := exists_of_checksCarefulRun hcheck
  have hseparated := blocks_separated (suitable_example 256 (by decide) (by decide)) hcreate hrun
  exact ⟨s, σ, hcreate, hrun.mono fun _ _ _ h ↦ h.2, of_decide_eq_true hσ, hseparated⟩

/-- A request that fits the last free block before the array grows, and not after it: the block
reaches into the array. -/
theorem block_overlaps_metas : ∃ s σ, create (fun _ ↦ 0) 4096 8192 96 = .returned () s ∧
    Run Step ⟨s, []⟩ [.alloc 48] σ ∧ ¬σ.Separated := by
  have hcheck : checksRun 96 [.alloc 48] (fun σ ↦
      decide (1 ∈ σ.live ∧ σ.allocator.metas < σ.blockEnd 1)) = true := by decide +kernel
  obtain ⟨s, σ, hcreate, hrun, hσ⟩ := exists_of_checksRun hcheck
  obtain ⟨hlive, hoverlap⟩ := of_decide_eq_true hσ
  refine ⟨s, σ, hcreate, hrun, fun hseparated ↦ ?_⟩
  have hinside := (hseparated.inside 1 hlive).2
  exact Nat.lt_irrefl _ (Nat.lt_of_lt_of_le hoverlap hinside)

/-! ## Payloads -/

/-- A careful `alloc` or `free` leaves the other live blocks where and as they are. -/
theorem payload_integrity (h : Suitable object base size)
    (hcreate : create mem object base size = .returned () s)
    (hrun : Run (Guarded Careful Step) ⟨s, []⟩ calls σ) (hstep : Guarded Careful Step σ call τ) :
    (∀ N, call = .alloc N → ∀ i ∈ σ.live, Undisturbed σ τ i) ∧
      ∀ p, call = .free p → ∀ i ∈ σ.live, i ≠ p.idx → Undisturbed σ τ i := by
  obtain ⟨blocks, frees, hholds⟩ := Invariant.run h hcreate hrun
  obtain ⟨hcareful, hstep⟩ := hstep
  constructor
  · rintro N rfl i hi
    rcases hholds.alloc_call hcareful with hthrew | ⟨p, s', hreturned, -, -, -, hkept⟩
    · cases hstep with
      | alloc hreturned => cases hreturned.symm.trans hthrew
      | alloc_threw hthrew' =>
          cases hthrew'.symm.trans hthrew
          exact ⟨rfl, rfl, fun _ _ ↦ rfl⟩
    · cases hstep with
      | alloc hreturned' =>
          cases hreturned'.symm.trans hreturned
          exact hkept _ i hi
      | alloc_threw hthrew => cases hthrew.symm.trans hreturned
  · rintro p rfl i hi hne
    cases hstep with
    | free howned hreturned' =>
        obtain ⟨s', hreturned, -, hkept⟩ := hholds.free_call howned hcareful
        cases hreturned'.symm.trans hreturned
        exact hkept _ i (hholds.nodup.mem_erase_iff.mpr ⟨hne, hi⟩)

theorem payload_integrity_two : ∃ s s₁ q s₂, create (fun _ ↦ 0) 4096 8192 256 = .returned () s ∧
    s.alloc 24 = .returned ⟨1⟩ s₁ ∧ s₁.alloc 24 = .returned q s₂ ∧
    Undisturbed ⟨s₁, [1]⟩ ⟨s₂, [1] ++ q.held⟩ 1 := by
  have hcheck : (create (fun _ ↦ 0) 4096 8192 256).checks (fun _ s ↦ servesLast s (units 24) &&
      (s.alloc 24).checks fun p s₁ ↦ decide (p = ⟨1⟩) && (servesLast s₁ (units 24) &&
        (s₁.alloc 24).checks fun _ _ ↦ true)) = true := by decide +kernel
  obtain ⟨⟨⟩, s, hcreate, hs⟩ := Outcome.exists_of_checks hcheck
  rw [Bool.and_eq_true] at hs
  obtain ⟨p, s₁, halloc, hs₁⟩ := Outcome.exists_of_checks hs.2
  rw [Bool.and_eq_true, Bool.and_eq_true] at hs₁
  obtain ⟨hp, hserves, hsecond⟩ := hs₁
  obtain rfl := of_decide_eq_true hp
  obtain ⟨q, s₂, halloc', -⟩ := Outcome.exists_of_checks hsecond
  have hfirst : Step ⟨s, []⟩ (.alloc 24) ⟨s₁, [] ++ Pointer.held ⟨1⟩⟩ := Step.alloc halloc
  rw [held_of_ne (by decide)] at hfirst
  have hrun : Run (Guarded Careful Step) ⟨s, []⟩ [.alloc 24] ⟨s₁, [1]⟩ :=
    Run.single ⟨allocatable_of_servesLast hs.1, hfirst⟩
  have hstep : Guarded Careful Step ⟨s₁, [1]⟩ (.alloc 24) ⟨s₂, [1] ++ q.held⟩ :=
    ⟨allocatable_of_servesLast hserves, Step.alloc halloc'⟩
  exact ⟨s, s₁, q, s₂, hcreate, halloc, halloc',
    (payload_integrity (suitable_example 256 (by decide) (by decide)) hcreate hrun hstep).1 24 rfl 1
      (List.mem_singleton.mpr rfl)⟩

/-- An exact fit makes the block of the first `MetaInfo` live. The next object that is made is
taken from the end of that block. -/
theorem alloc_writes_live_payload : ∃ s σ τ, create (fun _ ↦ 0) 4096 8192 256 = .returned () s ∧
    Run Step ⟨s, []⟩ [.alloc 24, .alloc 152, .free ⟨1⟩] σ ∧ Step σ (.alloc 8) τ ∧ 0 ∈ σ.live ∧
    ¬Undisturbed σ τ 0 := by
  have hcheck : checksRun 256 [.alloc 24, .alloc 152, .free ⟨1⟩]
      (fun σ ↦ (σ.exec (.alloc 8)).any fun τ ↦
      decide (0 ∈ σ.live ∧ σ.allocator.getSize (σ.allocator.getMeta 0) = 20 ∧
        σ.allocator.mem (σ.allocator.get 0 + 144) = 0 ∧
          τ.allocator.mem (τ.allocator.get 0 + 144) = 2)) =
      true := by decide +kernel
  obtain ⟨s, σ, hcreate, hrun, hσ⟩ := exists_of_checksRun hcheck
  obtain ⟨τ, hexec, hτ⟩ := (Option.any_eq_true _ _).mp hσ
  obtain ⟨hlive, hsize, hbefore, hafter⟩ := of_decide_eq_true hτ
  refine ⟨s, σ, τ, hcreate, hrun, step_of_exec hexec, hlive, fun hundisturbed ↦ ?_⟩
  have hpayload := hundisturbed.payload 144 (by omega)
  have hzero : (2 : UInt8) = 0 := hafter.symm.trans (hpayload.trans hbefore)
  exact absurd hzero (by decide)

/-! ## Defragmentation -/

/-- The held pointers keep their sizes and payloads, the live blocks are one behind the other from
the start of the buffer, in the order they had, and the rest is one block, alone in the free
list. -/
structure Compacted (σ τ : Session) : Prop where
  live : τ.live = σ.live
  size : ∀ i ∈ σ.live, τ.allocator.getSize (τ.allocator.getMeta i) = σ.allocator.getSize
    (σ.allocator.getMeta i)
  payload : ∀ i ∈ σ.live, ∀ j, j + 8 < 8 * σ.allocator.getSize (σ.allocator.getMeta i) →
    τ.allocator.mem (τ.allocator.get i + j) = σ.allocator.mem (σ.allocator.get i + j)
  packed : ∃ order : List ℕ, order.Perm σ.live ∧
    order.Pairwise (fun i j ↦ σ.blockStart i < σ.blockStart j) ∧
    τ.allocator.Tiles 0 (order.map τ.allocator.getMeta ++ [τ.allocator.lastFree])
      τ.allocator.dataEnd
  rest : ¬τ.allocator.isOccupied τ.allocator.lastFree
  list : Chain τ.allocator.nextLink (τ.allocator.nextLink τ.allocator.head) [τ.allocator.lastFree]

/-- The indices of the live blocks, in the order of the blocks. -/
theorem Holds.order (h : σ.Holds blocks frees) : ∃ order : List ℕ, order.Perm σ.live ∧
    order.Pairwise (fun i j ↦ σ.blockStart i < σ.blockStart j) ∧
    order.map σ.allocator.getMeta = blocks.filter fun b ↦ σ.allocator.isOccupied b := by
  have hp := h.shape.placed
  have hmem : ∀ b, b ∈ blocks.filter (fun b ↦ σ.allocator.isOccupied b) ↔
      b ∈ blocks ∧ σ.allocator.isOccupied b := by simp
  have hindex : ∀ b ∈ blocks, σ.allocator.getMeta (σ.allocator.indexOfInfo b) = b ∧
      32 * (σ.allocator.indexOfInfo b + 1) ≤ σ.allocator.bufsize := fun b hb ↦
    hp.indexOfInfo_getMeta (h.shape.slots b hb)
  have hmap : ((blocks.filter fun b ↦ σ.allocator.isOccupied b).map σ.allocator.indexOfInfo).map
      σ.allocator.getMeta = blocks.filter fun b ↦ σ.allocator.isOccupied b := by
    rw [List.map_map]
    refine (List.map_congr_left fun b hb ↦ ?_).trans (List.map_id _)
    exact (hindex b ((hmem b).mp hb).1).1
  have hpairwise : (blocks.filter fun b ↦ σ.allocator.isOccupied b).Pairwise fun b c ↦
      σ.allocator.offs b < σ.allocator.offs c := by
    refine (h.shape.tiles.pairwise.filter _).imp_of_mem fun {b c} hb _ hle ↦ ?_
    have hpos := (h.shape.bounds ((hmem b).mp hb).1).1
    omega
  refine ⟨(blocks.filter fun b ↦ σ.allocator.isOccupied b).map
    σ.allocator.indexOfInfo, ?_, ?_, hmap⟩
  · have hnodup : (((blocks.filter fun b ↦ σ.allocator.isOccupied b).map
        σ.allocator.indexOfInfo)).Nodup := by
      refine List.Nodup.of_map σ.allocator.getMeta ?_
      rw [hmap]
      exact h.shape.tiles.nodup.filter _
    refine (List.perm_ext_iff_of_nodup hnodup h.nodup).mpr fun i ↦ ?_
    rw [List.mem_map]
    constructor
    · rintro ⟨b, hb, rfl⟩
      obtain ⟨k, hk, rfl⟩ := (h.live b).mp ((hmem b).mp hb)
      obtain ⟨hmeta, hbound⟩ := hindex _ ((hmem _).mp hb).1
      rw [getMeta_inj hp hbound (h.bound k hk) hmeta]
      exact hk
    · intro hi
      obtain ⟨hblock, hocc⟩ := h.block hi
      obtain ⟨hmeta, hbound⟩ := hindex _ hblock
      exact ⟨_, (hmem _).mpr ⟨hblock, hocc⟩, getMeta_inj hp hbound (h.bound i hi) hmeta⟩
  · refine List.pairwise_map.mpr (hpairwise.imp_of_mem fun {b c} hb hc hlt ↦ ?_)
    rw [blockStart, blockStart, (hindex b ((hmem b).mp hb).1).1, (hindex c ((hmem c).mp hc).1).1]
    omega

/-- A careful `defrag` loses nothing and leaves one free block. -/
theorem defrag_transparent (h : Suitable object base size)
    (hcreate : create mem object base size = .returned () s)
    (hrun : Run (Guarded Careful Step) ⟨s, []⟩ calls σ) (hstep : Guarded Careful Step σ .defrag τ) :
    σ.Compacted τ := by
  obtain ⟨blocks, frees, hholds⟩ := Invariant.run h hcreate hrun
  obtain ⟨hcareful, hstep⟩ := hstep
  obtain ⟨s', hreturned, hdefragmented, hholds', -⟩ := hholds.defrag_call hcareful
  cases hstep with
  | defrag hreturned' =>
      cases hreturned'.symm.trans hreturned
      have hmeta : ∀ k, s'.getMeta k = σ.allocator.getMeta k :=
        getMeta_congr hdefragmented.buf hdefragmented.bufsize
      have hlast : s'.lastFree = σ.allocator.lastFree :=
        lastFree_congr hdefragmented.buf hdefragmented.bufsize
      obtain ⟨order, hperm, hpairwise, hmap⟩ := hholds.order
      have hshape := hholds'.shape
      refine ⟨rfl, fun i hi ↦ ?_, fun i hi j hj ↦ ?_, ⟨order, hperm, hpairwise, ?_⟩, ?_, ?_⟩
      · obtain ⟨hblock, hocc⟩ := hholds.block hi
        rw [hmeta]
        exact (hdefragmented.size _ hblock hocc).1
      · obtain ⟨hblock, hocc⟩ := hholds.block hi
        have haddress : s'.get i = σ.allocator.buf + s'.offs (σ.allocator.getMeta i) + 8 := by
          rw [← hdefragmented.buf, ← hmeta]
          exact hholds'.get_eq hi
        have hbyte := hdefragmented.bytes _ hblock hocc (j + 8) (Nat.le_add_left _ _) hj
        rw [hholds.get_eq hi]
        show s'.mem (s'.get i + j) = _
        rw [haddress, Nat.add_right_comm, Nat.add_assoc, hbyte]
        congr 1
        omega
      · have hfun : s'.getMeta = σ.allocator.getMeta := funext hmeta
        rw [hlast, hfun, hmap]
        exact hshape.tiles
      · rw [hlast]
        exact ((hshape.free_iff _).mp (List.mem_singleton.mpr rfl)).2.1
      · rw [hlast]
        exact hshape.chain

/-- Once the first of two blocks is free, the second one moves into its place. -/
theorem defrag_transparent_moved : ∃ s σ τ, create (fun _ ↦ 0) 4096 8192 256 = .returned () s ∧
    Run Step ⟨s, []⟩ [.alloc 24, .alloc 24, .free ⟨1⟩] σ ∧ Step σ .defrag τ ∧ σ.live = [2] ∧
    τ.blockStart 2 < σ.blockStart 2 ∧ σ.Compacted τ := by
  have hcheck : checksCarefulRun 256 [.alloc 24, .alloc 24, .free ⟨1⟩] (fun σ ↦
      decide (σ.live = [2] ∧ σ.PlainlyCareful .defrag) &&
        (σ.exec .defrag).any fun τ ↦ decide (τ.blockStart 2 < σ.blockStart 2)) = true := by
    decide +kernel
  obtain ⟨s, σ, hcreate, hrun, hσ⟩ := exists_of_checksCarefulRun hcheck
  rw [Bool.and_eq_true, decide_eq_true_iff] at hσ
  obtain ⟨⟨hlive, hcareful⟩, hdefrag⟩ := hσ
  obtain ⟨τ, hexec, hτ⟩ := (Option.any_eq_true _ _).mp hdefrag
  have hstep : Guarded Careful Step σ .defrag τ := ⟨hcareful.careful, step_of_exec hexec⟩
  have hcompacted := defrag_transparent
    (suitable_example 256 (by decide) (by decide)) hcreate hrun hstep
  exact ⟨s, σ, τ, hcreate, hrun.mono fun _ _ _ h ↦ h.2, hstep.2, hlive,
    of_decide_eq_true hτ, hcompacted⟩

/-- An exact fit makes the block of the first `MetaInfo` live, and `defrag` turns it into a free
block of size 0. -/
theorem defrag_loses_live_block : ∃ s σ τ, create (fun _ ↦ 0) 4096 8192 160 = .returned () s ∧
    Run Step ⟨s, []⟩ [.alloc 120] σ ∧ Step σ .defrag τ ∧ ¬σ.Compacted τ := by
  have hcheck : checksRun 160 [.alloc 120] (fun σ ↦ (σ.exec .defrag).any fun τ ↦
      decide (0 ∈ σ.live ∧ σ.allocator.getSize (σ.allocator.getMeta 0) = 16 ∧
        τ.allocator.getSize (τ.allocator.getMeta 0) = 0)) = true := by decide +kernel
  obtain ⟨s, σ, hcreate, hrun, hσ⟩ := exists_of_checksRun hcheck
  obtain ⟨τ, hexec, hτ⟩ := (Option.any_eq_true _ _).mp hσ
  obtain ⟨hlive, hbefore, hafter⟩ := of_decide_eq_true hτ
  refine ⟨s, σ, τ, hcreate, hrun, step_of_exec hexec, fun hcompacted ↦ ?_⟩
  have hsize := hcompacted.size 0 hlive
  exact absurd (hafter.symm.trans (hsize.trans hbefore)) (by decide)

end Session

end CppMtHw.Allocation
