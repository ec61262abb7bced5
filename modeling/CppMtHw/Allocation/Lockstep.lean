import CppMtHw.Allocation.Agreement
import CppMtHw.Allocation.Completeness
import Mathlib.Data.List.TakeWhile

/-!
# Two allocators side by side

Two allocators in order, in the same place, that agree in what is known of them: `alloc`,
`free` and `defrag` go the same way in both, and they agree afterwards. So do the conditions
of these functions.
-/

namespace CppMtHw.Allocation

open Machine

namespace Allocator

variable {s t s' t' : Allocator} {K : ℕ → Prop} {blocks frees front rest run : List ℕ}
  {a b m mi n p w x count : ℕ}

/-! ## `alloc` -/

theorem findUnused_eq (hused : ∀ i < count, (t.isUsed (mi - 32 * i) ↔ s.isUsed (mi - 32 * i))) :
    t.findUnused count mi = s.findUnused count mi := by
  induction count generalizing mi with
  | zero => rfl
  | succ count ih =>
      have hfirst : t.isUsed mi ↔ s.isUsed mi := hused 0 (Nat.succ_pos count)
      have hrest : t.findUnused count (mi - 32) = s.findUnused count (mi - 32) := by
        apply ih
        intro i hi
        have hsucc := hused (i + 1) (by omega)
        rwa [show mi - 32 * (i + 1) = mi - 32 - 32 * i by omega] at hsucc
      simp only [findUnused, hfirst, hrest]

theorem Agree.isUsed_iff (h : Agree s.Known s t) (hm : s.MetaSlot m) : t.isUsed m ↔ s.isUsed m := by
  have hocc := h.isOccupied_iff (covers_body hm)
  by_cases hs : s.isOccupied m
  · exact iff_of_true (Or.inl (hocc.mpr hs)) (Or.inl hs)
  · have hlinks := covers_links hm hs
    rw [isUsed, isUsed, hocc, h.next_eq (hlinks.sub (Nat.le_refl m) (by omega)),
      h.prev_eq (hlinks.sub (Nat.le_add_right m 8) (by omega))]

/-- `addMeta` finds the same object. -/
theorem Agree.reusable_eq (h : Agree s.Known s t) (hp : s.Placed) : t.reusable = s.reusable := by
  obtain ⟨count, hcount⟩ := hp.array
  have hle := hp.buf_le
  rw [reusable, reusable, h.getMeta_eq, h.metas, hp.lastFree_eq]
  apply findUnused_eq
  intro i hi
  have hlast : s.lastFree = s.metas + 32 * count := by
    rw [lastFree]
    omega
  rw [hlast] at hi ⊢
  have hdiv : (s.metas + 32 * count - s.metas) / 32 = count := by omega
  rw [hdiv] at hi
  exact h.isUsed_iff ⟨by omega, i + 1, by omega⟩

/-- The size that `addMeta` sets. -/
theorem getSize_describe (hn : n < 2 ^ 63) {start : ℕ} (hstart : start + 8 ≤ mi) :
    (s.describe mi start n).getSize mi = n := by
  have hword : (s.describe mi start n).size mi = (s.setSize mi n).size mi := by
    refine Eq.trans (Bytes.load_store_of_disjoint (Or.inr (by omega))) ?_
    exact Bytes.load_store_of_disjoint (Or.inr (by omega))
  have hstored : (s.store (mi + 24) n).size mi = n := load_store_word (by omega)
  have hset : (s.setSize mi n).size mi = sizeWord n (s.isOccupied mi) := by
    have hvalue : (if decide (s.isOccupied mi) =
        true then (s.store (mi + 24) n).size mi % signMask + signMask
        else (s.store (mi + 24) n).size mi % signMask) = sizeWord n (s.isOccupied mi) := by
      rw [hstored, Nat.mod_eq_of_lt (show n < signMask from hn), sizeWord]
    rw [setSize, setOccupied, hvalue]
    exact load_store_word (sizeWord_lt hn)
  rw [getSize, hword, hset]
  exact getSize_sizeWord hn

/-- The lists are the same. -/
theorem Shape.chain_agree (h : s.WellFormed blocks frees) (hagree : Agree s.Known s t) :
    Chain t.nextLink (t.nextLink t.head) frees := by
  rw [nextLink, hagree.head, hagree.next_eq covers_head]
  refine h.chain.congr fun m hm ↦ ?_
  obtain ⟨hblock, hocc, -⟩ := (h.free_iff m).mp hm
  have hlinks := covers_links (h.slots m hblock) hocc
  rw [nextLink, hagree.next_eq (hlinks.sub (Nat.le_refl m) (by omega)), nextLink]

theorem Shape.firstFit_agree (h : s.WellFormed blocks frees) (hagree : Agree s.Known s t) :
    t.FirstFit n p ↔ s.FirstFit n p := by
  have hchain := h.chain_agree hagree
  have hsize : ∀ m ∈ frees, t.getSize m = s.getSize m := fun m hm ↦
    hagree.getSize_eq (covers_body (h.slots m (h.block_of_free hm)))
  constructor
  · rintro ⟨before, after, hwalk, hsmall, hle⟩
    obtain rfl := hchain.unique hwalk
    refine ⟨before, after, h.chain, fun q hq ↦ ?_, ?_⟩
    · rw [← hsize q (List.mem_append_left _ hq)]
      exact hsmall q hq
    · rw [← hsize p (by simp)]
      exact hle
  · rintro ⟨before, after, hwalk, hsmall, hle⟩
    obtain rfl := h.chain.unique hwalk
    refine ⟨before, after, hchain, fun q hq ↦ ?_, ?_⟩
    · rw [hsize q (List.mem_append_left _ hq)]
      exact hsmall q hq
    · rw [hsize p (by simp)]
      exact hle

theorem unlinkFree_fields (s : Allocator) (m : ℕ) : (s.unlinkFree m).head = s.head ∧
    (s.unlinkFree m).metas = s.metas ∧ (s.unlinkFree m).buf = s.buf ∧
    (s.unlinkFree m).bufsize = s.bufsize := by
  rw [unlinkFree]
  split
  · split <;> exact ⟨rfl, rfl, rfl, rfl⟩
  · split <;> exact ⟨rfl, rfl, rfl, rfl⟩

/-- A split with an object that is known, or a new one. -/
theorem Agree.split {s₀ t₀ : Allocator} {start : ℕ} (hagree : Agree K s t)
    (hset : Agree K (s.setSize mi n) (t.setSize mi n)) (hp : Covers K (p + 16) 16) (hn : n < 2 ^ 63)
    (hstart : start + 8 ≤ mi) (hs : s₀ = (s.describe mi start n).cutOff mi p n)
    (ht : t₀ = (t.describe mi start n).cutOff mi p n) :
    Agree (fun x ↦ K x ∨ mi + 16 ≤ x ∧ x < mi + 32) s₀ t₀ := by
  have hsize : (t.describe mi start n).getSize mi = (s.describe mi start n).getSize mi := by
    rw [getSize_describe hn hstart, getSize_describe hn hstart]
  have hcut := (hagree.describe hset start).cutOff hsize (hp.mono fun _ ↦ Or.inl) n
  rw [hs, ht]
  apply hcut.mono
  rintro x (hx | ⟨hle, hlt⟩)
  · exact Or.inl (Or.inl hx)
  · by_cases hlow : x < mi + 24
    · exact Or.inl (Or.inr ⟨hle, hlow⟩)
    · exact Or.inr ⟨by omega, hlt⟩

/-- The last free block shrinks in the same way. -/
theorem Agree.grow (h : Agree s.Known s t) (hp : s.Placed) : Agree s.Known s.grow t.grow := by
  have hbody := covers_body hp.lastFree_slot
  have hlast : t.lastFree = s.lastFree := lastFree_congr h.buf h.bufsize
  have hlower : Agree s.Known { s with metas := s.metas - 32 } { t with metas := t.metas - 32 } :=
    ⟨h.head, congrArg (· - 32) h.metas, h.buf, h.bufsize, h.mem⟩
  have hsize : (t.metas - 32 - (t.buf + t.offs s.lastFree)) / 8 =
      (s.metas - 32 - (s.buf + s.offs s.lastFree)) / 8 := by rw [h.metas, h.buf, h.offs_eq hbody]
  rw [Allocator.grow, Allocator.grow, hlast, hsize]
  exact hlower.setSize hbody _

/-- The object `mi` has been given to a block in both, which agree in what it says of the block. -/
structure Given (s s' t' : Allocator) (mi : ℕ) : Prop where
  agree : Agree (fun x ↦ s.Known x ∨ mi + 16 ≤ x ∧ x < mi + 32) s' t'
  slot : s'.MetaSlot mi
  slots : ∀ m, s'.MetaSlot m → s.MetaSlot m ∨ m = mi

section Place

variable (h : s.WellFormed blocks frees) (hagree : Agree s.Known s t) (hp : p ∈ frees)

include h hagree hp

theorem Shape.given_whole :
    s.Given ((s.setOccupied p true).unlinkFree p) ((t.setOccupied p true).unlinkFree p) p := by
  have hslot := h.slots p (h.block_of_free hp)
  have hbody := covers_body hslot
  have htaken := (hagree.setOccupied hbody true).unlinkFree
    (covers_links hslot ((h.free_iff p).mp hp).2.1)
  obtain ⟨-, hmetas, hbuf, hbufsize⟩ := unlinkFree_fields (s.setOccupied p true) p
  have hslots : ∀ m, ((s.setOccupied p true).unlinkFree p).MetaSlot m ↔ s.MetaSlot m := fun m ↦ by
    rw [MetaSlot, hmetas, hbuf, hbufsize]
    rfl
  refine ⟨htaken.mono ?_, (hslots p).mpr hslot, fun m hm ↦ Or.inl ((hslots m).mp hm)⟩
  rintro x (hx | ⟨hx, hlt⟩)
  · exact hx
  · exact hbody x hx (by omega)

theorem Shape.given_reuse (hlt : n < s.getSize p) (hreusable : s.reusable = some mi) :
    s.Given ((s.describe mi (s.buf + s.offs p) n).cutOff mi p n)
      ((t.describe mi (s.buf + s.offs p) n).cutOff mi p n) mi := by
  have hblock := h.block_of_free hp
  have hend := (h.bounds hblock).2.1
  have hdataEnd := h.placed.dataEnd_le
  have hmi := (h.placed.reusable_spec hreusable).1
  have hle : s.metas ≤ mi := hmi.1
  have hsplit := hagree.split (hagree.setSize (covers_body hmi) n) (covers_body (h.slots p hblock))
    (Nat.lt_trans hlt (getSize_lt s p)) (show s.buf + s.offs p + 8 ≤ mi by omega) rfl rfl
  exact ⟨hsplit, hmi, fun m hm ↦ Or.inl hm⟩

theorem Shape.given_new (hlt : n < s.getSize p) (hlast : s.lastFree ∈ frees)
    (hpos : 0 < (s.metas - 32 - (s.buf + s.offs s.lastFree)) / 8) :
    s.Given ((s.grow.describe (s.metas - 32) (s.buf + s.offs p) n).cutOff (s.metas - 32) p n)
      ((t.grow.describe (s.metas - 32) (s.buf + s.offs p) n).cutOff (s.metas - 32) p n)
        (s.metas - 32) := by
  have hblock := h.block_of_free hp
  have hpslot := h.slots p hblock
  obtain ⟨hshape, -, -, -, -, -, hoffs, -, -⟩ := h.grow hlast hpos
  have hstart : s.buf + s.grow.offs p + 8 ≤ s.metas - 32 := by
    have hbounds := hshape.bounds hblock
    have hdataEnd : s.buf + s.grow.dataEnd ≤ s.metas - 32 := hshape.placed.dataEnd_le
    omega
  rw [hoffs p (Or.inr hpslot)] at hstart
  obtain ⟨count, hcount⟩ := h.placed.array
  have hgrow := hagree.grow h.placed
  have hset := hgrow.setSize_new (m := s.metas - 32) (fun x hx hxlt hknown ↦ by
    have hmanaged := known_managed hknown
    have hapart := h.placed.head_apart
    rcases hmanaged with ⟨hlow, hhigh⟩ | ⟨hlow, hhigh⟩ <;> omega) n
  have hsplit := hgrow.split hset (covers_body hpslot)
    (Nat.lt_trans hlt (getSize_lt s p)) hstart rfl rfl
  have hlower := fun m ↦ h.placed.metaSlot_lower (m := m) (by omega)
  exact ⟨hsplit, (hlower _).mpr (Or.inr rfl), fun m hm ↦ (hlower m).mp hm⟩

end Place

/-- Both take the element in the same way, or throw. -/
theorem Shape.place_agree (h : s.WellFormed blocks frees) (hagree : Agree s.Known s t)
    (hclean : s.Allocatable n) (hfit : s.FirstFit n p) :
    s.place n p = .threw s ∧ t.place n p = .threw t ∨
      ∃ mi s' t', s.place n p = .returned ⟨s'.indexOfInfo mi⟩ s' ∧
        t.place n p = .returned ⟨s'.indexOfInfo mi⟩ t' ∧ s.Given s' t' mi := by
  have hp := h.firstFit_mem hfit
  have hle : n ≤ s.getSize p := by
    obtain ⟨before, after, -, -, hle⟩ := hfit
    exact hle
  have hblock := h.block_of_free hp
  have hpbody := covers_body (h.slots p hblock)
  have hend := (h.bounds hblock).2.1
  have hdataEnd := h.placed.dataEnd_le
  have hbufend := h.placed.buf_end
  obtain ⟨count, hcount⟩ := h.placed.array
  have hstart : wrap (s.buf + s.offs p) = s.buf + s.offs p := Nat.mod_eq_of_lt (by omega)
  have hindex : ∀ {s' t' mi}, s.Given s' t' mi → t'.indexOfInfo mi = s'.indexOfInfo mi :=
    fun hgiven ↦
    hgiven.agree.indexOfInfo_eq _
  rw [place, place, hagree.getSize_eq hpbody, hagree.buf, hagree.offs_eq hpbody, hstart]
  by_cases hexact : s.getSize p = n
  · rw [if_pos hexact, if_pos hexact]
    have hgiven := h.given_whole hagree hp
    exact Or.inr ⟨p, _, _, rfl, by simp only [hindex hgiven], hgiven⟩
  · have hlt : n < s.getSize p := by omega
    rw [if_neg hexact, if_neg hexact]
    cases hreusable : s.reusable with
    | some mi =>
        have hgiven := h.given_reuse hagree hp hlt hreusable
        simp only [addMeta_reuse _ _ hreusable,
          addMeta_reuse _ _ ((hagree.reusable_eq h.placed).trans hreusable)]
        exact Or.inr ⟨mi, _, _, rfl, by simp only [hindex hgiven], hgiven⟩
    | none =>
        have hlast := h.last
        have hoffs := hagree.offs_eq (covers_body h.placed.lastFree_slot)
        have hlastFree : t.lastFree = s.lastFree := lastFree_congr hagree.buf hagree.bufsize
        have hnew := addMeta_new h.placed (s.buf + s.offs p) n hreusable (by omega)
        have hnew' := addMeta_new (hagree.placed h.placed) (s.buf + s.offs p) n
          ((hagree.reusable_eq h.placed).trans hreusable)
            (by rw [hlastFree, hoffs, hagree.buf]; omega)
        rw [hlastFree, hoffs, hagree.buf, hagree.metas] at hnew'
        by_cases hfull : s.metas - 32 ≤ s.buf + s.offs s.lastFree
        · rw [if_pos hfull] at hnew hnew'
          simp only [hnew, hnew']
          exact Or.inl ⟨trivial, trivial⟩
        · obtain ⟨hlisted, hroom⟩ := hclean.room p hfit hlt hreusable (by omega)
          have hgiven := h.given_new hagree hp hlt (h.listed_iff.mp hlisted) (by omega)
          rw [if_neg hfull] at hnew hnew'
          simp only [hnew, hnew']
          exact Or.inr ⟨s.metas - 32, _, _, rfl, by simp only [hindex hgiven], hgiven⟩

/-- An object that is not live afterwards was not live before. -/
theorem Shape.not_occupied {s₁ : Allocator} {blocks₁ : List ℕ} (h : s.WellFormed blocks frees)
    (hlive : ∀ m, m ∈ blocks ∧ s.isOccupied m → m ∈ blocks₁ ∧ s₁.isOccupied m) (hm : s.MetaSlot m)
    (hocc : ¬s₁.isOccupied m) : ¬s.isOccupied m := by
  intro hocc'
  by_cases hblock : m ∈ blocks
  · exact hocc (hlive m ⟨hblock, hocc'⟩).2
  · exact h.unused m hm hblock (by simp) (Or.inl hocc')

/-- `alloc` throws in both, or returns the same index. -/
theorem Shape.alloc_agree {blocks' frees' : List ℕ} (h : s.WellFormed blocks frees)
    (h' : t.WellFormed blocks' frees') (hagree : Agree s.Known s t) (N : ℕ)
    (hclean : s.Allocatable (units N)) :
    s.alloc N = .threw s ∧ t.alloc N = .threw t ∨
      ∃ q s' t', s.alloc N = .returned q s' ∧ t.alloc N = .returned q t' ∧
      Agree s'.Known s' t' := by
  by_cases hfit : ∃ q, s.FirstFit (units N) q
  · obtain ⟨q, hfit⟩ := hfit
    have halloc := hfit.alloc_eq
    have halloc' := ((h.firstFit_agree hagree).mpr hfit).alloc_eq
    rcases h.place_agree hagree hclean hfit with
      ⟨hthrew, hthrew'⟩ | ⟨mi, s', t', hplace, hplace', hagree', hslot, hslots⟩
    · exact Or.inl ⟨halloc.trans hthrew, halloc'.trans hthrew'⟩
    · refine Or.inr ⟨_, s', t', halloc.trans hplace, halloc'.trans hplace',
        hagree'.mono fun x hx ↦ ?_⟩
      rcases alloc_spec h N hclean with
          hthrew | ⟨p, s₁, blocks₁, frees₁, -, hreturned, hshape, -, hallocated, -⟩
      · cases (halloc.trans hplace).symm.trans hthrew
      · cases (halloc.trans hplace).symm.trans hreturned
        have hmi : s.getMeta (s'.indexOfInfo mi) = mi := by
          rw [← getMeta_congr hallocated.buf hallocated.bufsize]
          exact (hshape.placed.indexOfInfo_getMeta hslot).1
        simp only [hmi] at hallocated
        refine known_of_slots (K := fun x ↦ mi + 16 ≤ x ∧ x < mi + 32) hallocated.object
          (fun m hm ↦ ?_) (fun m hm hocc ↦ Or.inl ?_) hx
        · rcases hslots m hm with hm | rfl
          · exact Or.inl hm
          · exact Or.inr fun x hx hlt ↦ ⟨hx, by omega⟩
        · have hmslot : s.MetaSlot m := by
            rcases hslots m hm with hm | rfl
            · exact hm
            · exact absurd ((hallocated.live m).mpr (Or.inr rfl)).2 hocc
          exact ⟨hmslot, h.not_occupied
            (fun m hm ↦ (hallocated.live m).mpr (Or.inl hm)) hmslot hocc⟩
  · have hthrew := (h.alloc_eq N).resolve_right fun ⟨q, hq, _⟩ ↦ hfit ⟨q, hq⟩
    have hthrew' := (h'.alloc_eq N).resolve_right fun ⟨q, hq, _⟩ ↦
      hfit ⟨q, (h.firstFit_agree hagree).mp hq⟩
    exact Or.inl ⟨hthrew, hthrew'⟩

theorem Shape.allocatable_agree (h : s.WellFormed blocks frees) (h' : t.WellFormed blocks frees)
    (hagree : Agree s.Known s t) (hclean : s.Allocatable n) : t.Allocatable n := by
  have hslot : ∀ p, t.FirstFit n p → s.FirstFit n p ∧ s.MetaSlot p ∧ ¬s.isOccupied p :=
    fun p hfit ↦ by
    have hp := h'.firstFit_mem hfit
    exact ⟨(h.firstFit_agree hagree).mp hfit, h.slots p (h.block_of_free hp),
      ((h.free_iff p).mp hp).2.1⟩
  have hreusable := hagree.reusable_eq h.placed
  have hlastFree : t.lastFree = s.lastFree := lastFree_congr hagree.buf hagree.bufsize
  have hoffs := hagree.offs_eq (covers_body h.placed.lastFree_slot)
  refine ⟨fun p hfit hsize ↦ ?_, fun p mi hfit hlt hreuse ↦ ?_, fun p hfit hlt hreuse hroom ↦ ?_⟩
  · obtain ⟨hfit, hpslot, hocc⟩ := hslot p hfit
    rw [hagree.getSize_eq (covers_body hpslot)] at hsize
    rw [hagree.prev_eq ((covers_links hpslot hocc).sub (Nat.le_add_right p 8) (by omega))]
    exact hclean.whole p hfit hsize
  · obtain ⟨hfit, hpslot, -⟩ := hslot p hfit
    rw [hagree.getSize_eq (covers_body hpslot)] at hlt
    rw [hreusable] at hreuse
    rw [h'.listed_iff, ← h.listed_iff]
    exact hclean.reuse p mi hfit hlt hreuse
  · obtain ⟨hfit, hpslot, -⟩ := hslot p hfit
    rw [hagree.getSize_eq (covers_body hpslot)] at hlt
    rw [hreusable] at hreuse
    rw [hlastFree, hoffs, hagree.buf, hagree.metas] at hroom ⊢
    rw [h'.listed_iff, ← h.listed_iff]
    exact hclean.room p hfit hlt hreuse hroom

/-! ## `free` -/

/-- The blocks of the structure are the live objects and those in the list. -/
theorem Shape.mem_blocks (h : s.WellFormed blocks frees) :
    m ∈ blocks ↔ s.MetaSlot m ∧ s.isOccupied m ∨ m ∈ frees := by
  constructor
  · intro hm
    by_cases hocc : s.isOccupied m
    · exact Or.inl ⟨h.slots m hm, hocc⟩
    · exact Or.inr ((h.free_iff m).mpr ⟨hm, hocc, List.not_mem_nil⟩)
  · rintro (⟨hslot, hocc⟩ | hm)
    · by_contra hnot
      exact h.unused m hslot hnot (by simp) (Or.inl hocc)
    · exact h.block_of_free hm

/-- What is known determines the lists. -/
theorem Shape.lists_agree {blocks' frees' : List ℕ} (h : s.WellFormed blocks frees)
    (h' : t.WellFormed blocks' frees') (hagree : Agree s.Known s t) :
    blocks' = blocks ∧ frees' = frees := by
  obtain rfl := (h.chain_agree hagree).unique h'.chain
  have hmem : ∀ m, m ∈ blocks' ↔ m ∈ blocks := by
    intro m
    rw [h.mem_blocks, h'.mem_blocks, hagree.metaSlot_iff]
    apply or_congr_left
    exact and_congr_right fun hm ↦ hagree.isOccupied_iff (covers_body hm)
  have hoffs : ∀ m ∈ blocks', t.offs m = s.offs m := fun m hm ↦
    hagree.offs_eq (covers_body (h.slots m ((hmem m).mp hm)))
  -- the blocks lie in the order of their offsets
  have hsorted : blocks.Pairwise fun b c ↦ s.offs b < s.offs c :=
    h.tiles.pairwise.imp_of_mem fun {b c} hb _ hbc ↦ by
      have hpos := (h.bounds hb).1
      omega
  have hsorted' : blocks'.Pairwise fun b c ↦ s.offs b < s.offs c :=
    h'.tiles.pairwise.imp_of_mem fun {b c} hb hc hbc ↦ by
      have hpos := (h'.bounds hb).1
      rw [hoffs b hb, hoffs c hc] at hbc
      omega
  have hperm := (List.perm_ext_iff_of_nodup h'.tiles.nodup h.tiles.nodup).mpr hmem
  exact ⟨hperm.eq_of_pairwise
    (fun b c _ _ hbc hcb ↦ absurd hbc (Nat.lt_asymm hcb)) hsorted' hsorted, rfl⟩

/-- Blocks that are free in one are free in the other. -/
theorem Agree.foldl_unlinkFree {run : List ℕ} (h : Agree K s t) (hrun : ∀ c ∈ run, Covers K c 16) :
    Agree K (run.foldl Allocator.unlinkFree s) (run.foldl Allocator.unlinkFree t) := by
  induction run generalizing s t with
  | nil => exact h
  | cons c run ih =>
      exact ih (h.unlinkFree (hrun c List.mem_cons_self)) fun d hd ↦
        hrun d (List.mem_cons_of_mem c hd)

theorem foldl_unlinkFree_head (s : Allocator) (run : List ℕ) :
    (run.foldl unlinkFree s).head = s.head := by
  induction run generalizing s with
  | nil => rfl
  | cons c run ih => exact (ih (s.unlinkFree c)).trans (unlinkFree_fields s c).1

theorem insertFree_fields (s : Allocator) (m : ℕ) : (s.insertFree m).head = s.head ∧
    (s.insertFree m).metas = s.metas ∧ (s.insertFree m).buf = s.buf ∧
    (s.insertFree m).bufsize = s.bufsize := by
  rw [insertFree]
  split <;> exact ⟨rfl, rfl, rfl, rfl⟩

/-- The links of the block are written. -/
theorem Agree.released {run : List ℕ} (h : Agree s.Known s t) (hb : s.MetaSlot b)
    (hrun : ∀ c ∈ run, s.MetaSlot c ∧ ¬s.isOccupied c) :
    Agree (fun x ↦ s.Known x ∨ b ≤ x ∧ x < b + 16) (s.released b run) (t.released b run) := by
  have hsizes : (b :: run).map t.getSize = (b :: run).map s.getSize := by
    apply List.map_congr_left
    intro c hc
    apply h.getSize_eq
    rcases List.mem_cons.mp hc with rfl | hc
    · exact covers_body hb
    · exact covers_body (hrun c hc).1
  have hinsert := (h.setOccupied (covers_body hb) false).insertFree covers_head b
  have hhead : ((s.setOccupied b false).insertFree b).head = s.head := (insertFree_fields _ b).1
  rw [Allocator.released, Allocator.released, hsizes]
  generalize (s.setOccupied b false).insertFree b = s₁ at hinsert hhead ⊢
  generalize (t.setOccupied b false).insertFree b = t₁ at hinsert ⊢
  have hbody : Covers (fun x ↦ s.Known x ∨ b ≤ x ∧ x < b + 16) (b + 16) 16 :=
    (covers_body hb).mono fun _ ↦ Or.inl
  have hlinks : ∀ c ∈ b :: run, Covers (fun x ↦ s.Known x ∨ b ≤ x ∧ x < b + 16) c 16 := by
    intro c hc
    rcases List.mem_cons.mp hc with rfl | hc
    · exact fun x hx hlt ↦ Or.inr ⟨hx, hlt⟩
    · exact (covers_links (hrun c hc).1 (hrun c hc).2).mono fun _ ↦ Or.inl
  have hunlinked := hinsert.foldl_unlinkFree hlinks
  have hhead' := (foldl_unlinkFree_head s₁ (b :: run)).trans hhead
  generalize (b :: run).foldl Allocator.unlinkFree s₁ = s₂ at hunlinked hhead' ⊢
  generalize (b :: run).foldl Allocator.unlinkFree t₁ = t₂ at hunlinked ⊢
  have hset := (hunlinked.setSize hbody ((b :: run).map s.getSize).sum).setOccupied hbody false
  have hcovers : Covers (fun x ↦ s.Known x ∨ b ≤ x ∧ x < b + 16) s₂.head 8 := by
    rw [hhead']
    exact covers_head.mono fun _ ↦ Or.inl
  exact (hset.insertFree hcovers b).mono fun x hx ↦ Or.inl hx

theorem takeWhile_congr {f g : ℕ → Bool} {l : List ℕ} (h : ∀ x ∈ l, f x = g x) :
    l.takeWhile f = l.takeWhile g := by
  induction l with
  | nil => rfl
  | cons x xs ih =>
      rw [List.takeWhile_cons, List.takeWhile_cons, h x List.mem_cons_self,
        ih fun y hy ↦ h y (List.mem_cons_of_mem x hy)]

/-- `free` of a block that is live in both. -/
theorem Shape.free_agree {q : Pointer} (h : s.WellFormed blocks frees)
    (h' : t.WellFormed blocks frees) (hagree : Agree s.Known s t) (hb : b ∈ blocks)
    (hocc : s.isOccupied b) (hq : q.idx ≠ nullPtrIdx) (hidx : s.getMeta q.idx = b)
    (hmergeable : s.Mergeable b) (hmergeable' : t.Mergeable b) :
    ∃ s' t', s.free q = .returned .null s' ∧ t.free q = .returned .null t' ∧
    Agree s'.Known s' t' := by
  have hbslot := h.slots b hb
  have hocc' := (hagree.isOccupied_iff (covers_body hbslot)).mpr hocc
  have hidx' := (hagree.getMeta_eq q.idx).trans hidx
  obtain ⟨s', blocks', run, hfree, -, hframe, hlive, -⟩ := free_spec h hb hocc hq hidx hmergeable
  obtain ⟨front, rest, rfl⟩ := List.append_of_mem hb
  have hrest : ∀ c ∈ rest, s.MetaSlot c := fun c hc ↦
    h.slots c (List.mem_append_right front (List.mem_cons_of_mem b hc))
  have htake : rest.takeWhile (fun c ↦ ¬t.isOccupied c) = rest.takeWhile fun c ↦ ¬s.isOccupied c :=
    takeWhile_congr fun c hc ↦ by simp only [hagree.isOccupied_iff (covers_body (hrest c hc))]
  have heq := h.free_eq hocc hq hidx hmergeable
  have heq' := h'.free_eq hocc' hq hidx' hmergeable'
  rw [htake] at heq'
  have hrun : ∀ c ∈ rest.takeWhile fun c ↦ ¬s.isOccupied c, s.MetaSlot c ∧ ¬s.isOccupied c :=
    fun c hc ↦
    ⟨hrest c ((List.takeWhile_sublist _).subset hc), by simpa using List.mem_takeWhile_imp hc⟩
  have hreleased := hagree.released hbslot hrun
  cases heq.symm.trans hfree
  refine ⟨_, _, heq, heq', hreleased.mono fun x hx ↦ ?_⟩
  refine known_of_slots (K := fun x ↦ b ≤ x ∧ x < b + 16) hframe.head (fun m hm ↦ Or.inl ?_)
    (fun m hm hmocc ↦ ?_) hx
  · exact hframe.metaSlot.mp hm
  · have hmslot := hframe.metaSlot.mp hm
    by_cases hmb : m = b
    · subst hmb
      exact Or.inr fun x hx hlt ↦ ⟨hx, hlt⟩
    · refine Or.inl ⟨hmslot, fun hmocc' ↦ hmocc ?_⟩
      by_cases hblock : m ∈ front ++ b :: rest
      · exact ((hlive m).mpr ⟨⟨hblock, hmocc'⟩, hmb⟩).2
      · exact absurd (Or.inl hmocc') (h.unused m hmslot hblock (by simp))

/-- The free blocks behind a block are the same. -/
theorem Shape.freeRun_agree (h : s.WellFormed blocks frees) (h' : t.WellFormed blocks frees)
    (hagree : Agree s.Known s t) (hb : b ∈ blocks) (hrun : t.FreeRun b run) :
    s.FreeRun b run ∧ ∀ c ∈ run, c ∈ blocks := by
  obtain ⟨front, rest, rfl⟩ := List.append_of_mem hb
  obtain ⟨e, hle, htiles, hfree⟩ := hrun
  obtain ⟨mid, -, hrest⟩ := tiles_append.mp h.tiles
  obtain ⟨mid', -, hrest'⟩ := tiles_append.mp h'.tiles
  rw [← hrest'.1] at hrest'
  rw [← hrest.1] at hrest
  obtain ⟨back, rfl⟩ := htiles.starts hle hrest'.2.2.2
  obtain ⟨e', hrun, hback⟩ := tiles_append.mp hrest.2.2.2
  have hmem : ∀ c ∈ run, c ∈ front ++ b :: (run ++ back) := fun c hc ↦
    List.mem_append_right front (List.mem_cons_of_mem b (List.mem_append_left back hc))
  exact ⟨⟨e', hback.le, hrun, fun c hc hocc ↦
    hfree c hc ((hagree.isOccupied_iff (covers_body (h.slots c (hmem c hc)))).mpr hocc)⟩, hmem⟩

theorem Shape.mergeable_agree (h : s.WellFormed blocks frees) (h' : t.WellFormed blocks frees)
    (hagree : Agree s.Known s t) (hb : b ∈ blocks) (hmergeable : s.Mergeable b) :
    t.Mergeable b := by
  intro run hrun
  obtain ⟨hrun', hmem⟩ := h.freeRun_agree h' hagree hb hrun
  obtain ⟨hprevs, hpairs⟩ := hmergeable run hrun'
  have hprev : ∀ c ∈ run, t.prev c = s.prev c := fun c hc ↦ by
    have hlinks := covers_links (h.slots c (hmem c hc)) (hrun'.choose_spec.2.2 c hc)
    exact hagree.prev_eq (hlinks.sub (Nat.le_add_right c 8) (by omega))
  refine ⟨fun c hc ↦ ?_, hpairs.imp_of_mem fun {c d} _ hd hne ↦ ?_⟩
  · rw [hprev c hc, hagree.head]
    exact hprevs c hc
  · rw [hprev d hd]
    exact hne

/-! ## `defrag` -/

/-- A block is moved, and the bytes of the place it goes to are not known. -/
theorem Agree.slide (h : Agree K s t) (hdst : ∀ x, a ≤ x → x < a + w * 8 → ¬K x) (p m : ℕ) :
    Agree K (s.slide a p m w) (t.slide a p m w) := by
  have hmoved : ∀ s : Allocator, Frame (fun x ↦ a ≤ x ∧ x < a + w * 8) s
      { s with mem := s.mem.move a p (w * 8) } :=
    fun s ↦ ⟨rfl, rfl, rfl, rfl, Bytes.sameOutside_move fun x hx hlt ↦ ⟨hx, hlt⟩⟩
  have hheader := (h.frame (hmoved s) (hmoved t)
    fun x hx hmem ↦ hdst x hmem.1 hmem.2 hx).store_kept a m
  have hoffs : usub a t.buf = usub a s.buf := by rw [h.buf]
  have hslide : t.slide a p m w =
      (({ t with mem := t.mem.move a p (w * 8) }.setHeader a m).setOffs m (usub a s.buf)) := by
    rw [← hoffs]
    rfl
  rw [hslide]
  exact hheader.store_kept (m + 16) (usub a s.buf)

theorem Agree.finish (h : Agree K s t) (hbody : Covers K (m + 16) 16) (a : ℕ) :
    Agree K (s.finish a m) (t.finish a m) := by
  have hheader := h.store_kept a m
  have hoffs := hheader.store_kept (m + 16) (usub a s.buf)
  have hset := (hoffs.setSize hbody (usub s.metas a / 8)).setOccupied hbody false
  have hall := (hset.store_kept s.head m).store_kept (m + 8) s.head
  have hfinish : t.finish a m = ((((((t.setHeader a m).setOffs m (usub a t.buf)).setSize m
    (usub t.metas a / 8)).setOccupied m false).setNext t.head m).setPrev m t.head) := rfl
  rw [h.buf, h.metas, h.head] at hfinish
  rw [hfinish]
  exact hall

/-- The loop of `defrag` goes the same way in both. -/
theorem slideLoop_agree {s₀ t₀ : Allocator} {done rest : List ℕ} {o fuel : ℕ}
    (h₀ : s₀.WellFormed blocks frees) (h₀' : t₀.WellFormed blocks frees)
    (hagree₀ : Agree s₀.Known s₀ t₀) (h : s₀.Sliding s frees done rest o p)
    (h' : t₀.Sliding t frees done rest o p) (hagree : Agree s₀.Known s t)
    (hdone : ∀ b ∈ done, b ∈ blocks) (hrest : ∀ b ∈ rest, b ∈ blocks)
    (hnodup : (done ++ rest).Nodup) (hfuel : rest.length < fuel) :
    ∃ s' t' a, slideLoop (s₀.buf + s₀.dataEnd) fuel s (s₀.buf + o) (s₀.buf + p) = some (a, s') ∧
      slideLoop (t₀.buf + t₀.dataEnd) fuel t (t₀.buf + o) (t₀.buf + p) = some (a, t') ∧
      Agree s₀.Known s' t' := by
  induction rest generalizing s t done o p fuel with
  | nil =>
      obtain ⟨fuel, rfl⟩ := Nat.exists_eq_succ_of_ne_zero (Nat.ne_of_gt hfuel)
      have hp : p = s₀.dataEnd := h.ahead
      have hp' : p = t₀.dataEnd := h'.ahead
      refine ⟨s, t, s₀.buf + o, ?_, ?_, hagree⟩
      · rw [slideLoop, if_neg (by omega)]
      · rw [slideLoop, if_neg (by omega), hagree₀.buf]
  | cons x rest ih =>
      obtain ⟨fuel, rfl⟩ := Nat.exists_eq_succ_of_ne_zero (Nat.ne_of_gt (Nat.zero_lt_of_lt hfuel))
      have hfuel' : rest.length < fuel := by simpa using hfuel
      have hx := hrest x List.mem_cons_self
      have hxslot := h₀.slots x hx
      have hrest' : ∀ b ∈ rest, b ∈ blocks := fun b hb ↦ hrest b (List.mem_cons_of_mem x hb)
      have hocc' := hagree₀.isOccupied_iff (covers_body hxslot)
      have hsize := hagree₀.getSize_eq (covers_body hxslot)
      rw [slideLoop_cons h₀ h hx, slideLoop_cons h₀' h' hx]
      by_cases hocc : s₀.isOccupied x
      · have hmoved := h.move h₀ hdone hrest hnodup hocc
        have hmoved' := h'.move h₀' hdone hrest hnodup (hocc'.mpr hocc)
        rw [if_pos hocc, if_pos (hocc'.mpr hocc)]
        rw [hsize, hagree₀.buf] at hmoved' ⊢
        rw [List.append_cons] at hnodup
        have hslid : Agree s₀.Known (s.slide (s₀.buf + o) (s₀.buf + p) x (s₀.getSize x))
            (t.slide (s₀.buf + o) (s₀.buf + p) x (s₀.getSize x)) := by
          refine hagree.slide (fun y hy hlt hknown ↦ ?_) _ _
          have haheadle := h.ahead.2.2.2.le
          have hole := h.le
          have hdataEnd := h₀.placed.dataEnd_le
          have hapart := h₀.placed.head_apart
          obtain ⟨count, hcount⟩ := h₀.placed.array
          rw [h.getSize (Or.inr hxslot)] at haheadle
          rcases known_managed hknown with ⟨hlow, hhigh⟩ | ⟨hlow, hhigh⟩ <;> omega
        have hnext := ih hmoved hmoved' hslid (fun b hb ↦ by
          rcases List.mem_append.mp hb with hb | hb
          · exact hdone b hb
          · exact List.mem_singleton.mp hb ▸ hx) hrest' hnodup hfuel'
        rwa [hagree₀.buf] at hnext
      · have hfree : x ∈ frees := (h₀.free_iff x).mpr ⟨hx, hocc, List.not_mem_nil⟩
        have hunlinked := h.unlink h₀ hdone hrest hfree
        have hunlinked' := h'.unlink h₀' hdone hrest hfree
        rw [if_neg hocc, if_neg (hocc'.not.mpr hocc)]
        rw [hsize] at hunlinked' ⊢
        rw [List.nodup_middle, List.nodup_cons] at hnodup
        exact ih hunlinked hunlinked' (hagree.unlinkFree (covers_links hxslot hocc)) hdone hrest'
          hnodup.2 hfuel'

theorem Shape.defrag_agree (h : s.WellFormed blocks frees) (h' : t.WellFormed blocks frees)
    (hagree : Agree s.Known s t) (hclean : s.Defragmentable) :
    ∃ s' t', s.defrag = .returned () s' ∧ t.defrag = .returned () t' ∧ Agree s'.Known s' t' := by
  have hlength := h.tiles.length_le
  have hdataEnd := h.placed.dataEnd_le
  have hbufend := h.placed.buf_end
  have hlast := h.placed.lastFree_slot
  obtain ⟨count, hcount⟩ := h.placed.array
  obtain ⟨s₁, t₁, a, hloop, hloop', hagree₁⟩ :=
    slideLoop_agree h h' hagree (Sliding.start h) (Sliding.start h')
      hagree (fun b hb ↦ (List.not_mem_nil hb).elim) (fun b hb ↦ hb) h.tiles.nodup
      (show blocks.length < loopBound by rw [loopBound]; omega)
  simp only [Nat.add_zero] at hloop hloop'
  have hdefrag : s.defrag = .returned () (s₁.finish a s.lastFree) := by
    rw [defrag, h.placed.lastFree_eq, h.limit_eq, hloop]
    rfl
  have hdefrag' : t.defrag = .returned () (t₁.finish a s.lastFree) := by
    rw [defrag, h'.placed.lastFree_eq, h'.limit_eq, hloop',
      lastFree_congr hagree.buf hagree.bufsize]
    rfl
  obtain ⟨s', hreturned, -, hdefragmented, -⟩ := defrag_spec h hclean
  cases hdefrag.symm.trans hreturned
  refine ⟨_, _, hdefrag, hdefrag', (hagree₁.finish (covers_body hlast) a).mono fun x hx ↦ ?_⟩
  have hslots : ∀ m, (s₁.finish a s.lastFree).MetaSlot m → s.MetaSlot m := fun m hm ↦ by
    rwa [MetaSlot, hdefragmented.metas, hdefragmented.buf, hdefragmented.bufsize] at hm
  have hlive : ∀ m, m ∈ blocks ∧ s.isOccupied m → m ∈ blocks ∧
      (s₁.finish a s.lastFree).isOccupied m := fun m hm ↦
    ⟨hm.1, (hdefragmented.size m hm.1 hm.2).2⟩
  have hknown := known_of_slots (K := s.Known) hdefragmented.object
    (fun m hm ↦ Or.inl (hslots m hm))
    (fun m hm hocc ↦ Or.inl ⟨hslots m hm, h.not_occupied hlive (hslots m hm) hocc⟩) hx
  exact hknown.elim id id

theorem Agree.defragmentable (hagree : Agree s.Known s t) (hp : s.Placed)
    (hclean : s.Defragmentable) : t.Defragmentable := by
  have hlastFree : t.lastFree = s.lastFree := lastFree_congr hagree.buf hagree.bufsize
  rw [Defragmentable, hlastFree, hagree.isOccupied_iff (covers_body hp.lastFree_slot), hagree.head,
    hagree.next_eq covers_head]
  exact hclean

end Allocator

end CppMtHw.Allocation
