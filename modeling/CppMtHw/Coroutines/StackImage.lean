import Mathlib.Algebra.Group.Int.Defs
import Mathlib.Algebra.Group.Nat.Defs
import Mathlib.Data.Int.Notation
import CppMtHw.Machine.Bytes

/-!
# Saved stacks

`Store` and `Restore` of `hw-coroutines/src/engine.cpp`, on memory as bytes. `Store` keeps
the buffer of an earlier, deeper stack, and `Restore` copies the whole buffer back. So
exactly one stack image is restored if and only if no earlier one was larger.
-/

namespace CppMtHw.Coroutines

open Machine

/-- The part of `struct context` that holds a saved stack: `Low`, `Hight` and the tuple `Stack`. -/
structure SavedStack where
  low : ℕ
  hight : ℕ
  buf : List UInt8
  bufSize : ℕ

namespace SavedStack

def fresh : SavedStack where
  low := 0
  hight := 0
  buf := []
  bufSize := 0

/-- The distance of two pointers, stored in an `int`. -/
def toInt (n : ℕ) : ℤ := if n % 2 ^ 32 < 2 ^ 31 then (n % 2 ^ 32 : ℕ) else (n % 2 ^ 32 : ℕ) - 2 ^ 32

/-- `Store`, with the address of its local variable. There is no result where `new char[size]`
throws or `memcpy` leaves the buffer. -/
def store (ctx : SavedStack) (stackBottom stackStart : ℕ) (memory : Bytes) : Option SavedStack := do
  let (low, hight) :=
    if stackBottom < stackStart then (stackBottom, stackStart) else (stackStart, stackBottom)
  let size := toInt (hight - low)
  let (buf, bufSize) ←
    -- the recorded size is an `uint32_t`, and `size` is converted to it
    if ctx.bufSize < (size % 2 ^ 32).toNat then
      if size < 0 then none else some (List.replicate size.toNat 0, size.toNat)
    else some (ctx.buf, ctx.bufSize)
  let buf ← copyIn buf 0 (memory.block low (size % 2 ^ 64).toNat)
  some { low, hight, buf, bufSize }

/-- `Restore` up to `longjmp`, with the addresses of its local variable in the frames of the
recursion, which goes on until one lies outside the stack image. -/
def restore (ctx : SavedStack) : List ℕ → Bytes → Option Bytes
  | [], _ => none
  | stackStart :: frames, memory =>
      if ctx.low ≤ stackStart ∧ stackStart ≤ ctx.hight then ctx.restore frames memory
      else do
        let image ← copyOut ctx.buf 0 ctx.bufSize
        some (memory.blit ctx.low image)

def storeAll (ctx : SavedStack) (stackBottom : ℕ) : List (ℕ × Bytes) → Option SavedStack
  | [] => some ctx
  | (stackStart, memory) :: calls => do
      let ctx ← ctx.store stackBottom stackStart memory
      ctx.storeAll stackBottom calls

/-- `Restore` sets the bytes of the image to what they were in `latest` and changes no other. -/
def Exact (ctx : SavedStack) (latest : Bytes) : Prop :=
  ∀ frames memory, (∃ a ∈ frames, a < ctx.low ∨ ctx.hight < a) →
    ∃ memory', ctx.restore frames memory = some memory' ∧
      (∀ x, ctx.low ≤ x → x < ctx.hight → memory' x = latest x) ∧
      ∀ x, x < ctx.low ∨ ctx.hight ≤ x → memory' x = memory x

def depth (stackBottom stackStart : ℕ) : ℕ :=
  max stackBottom stackStart - min stackBottom stackStart

variable {ctx : SavedStack} {stackBottom stackStart : ℕ} {memory latest : Bytes}
  {calls : List (ℕ × Bytes)}

/-- The recorded size is the size of the buffer, and fits an `int`. -/
structure Sound (ctx : SavedStack) : Prop where
  size : ctx.buf.length = ctx.bufSize
  fits : ctx.bufSize < 2 ^ 31

theorem sound_fresh : fresh.Sound := ⟨rfl, by decide⟩

theorem bounds_eq : (if stackBottom < stackStart then (stackBottom, stackStart)
      else (stackStart, stackBottom)) =
    (min stackBottom stackStart, max stackBottom stackStart) := by
  split <;> simp <;> omega

/-- Above 2 GiB `new char[size]` throws, as the recorded size is less. -/
theorem store_eq_none (h : ctx.Sound) (hdepth : 2 ^ 31 ≤ depth stackBottom stackStart % 2 ^ 32) :
    ctx.store stackBottom stackStart memory = none := by
  have hfits := h.fits
  have hsize : toInt (depth stackBottom stackStart) =
      (depth stackBottom stackStart % 2 ^ 32 : ℕ) - 2 ^ 32 := by
    rw [toInt, if_neg (by omega)]
  rw [depth] at hdepth hsize
  simp only [store, bounds_eq, hsize, Option.bind_eq_bind]
  rw [if_pos (by omega), if_pos (by omega)]
  rfl

/-- The image, and behind it what an earlier one has left in the buffer. -/
theorem store_eq_some (h : ctx.Sound) (hdepth : depth stackBottom stackStart % 2 ^ 32 < 2 ^ 31) :
    ctx.store stackBottom stackStart memory = some {
      low := min stackBottom stackStart
      hight := max stackBottom stackStart
      buf := memory.block (min stackBottom stackStart) (depth stackBottom stackStart % 2 ^ 32) ++
        ctx.buf.drop (depth stackBottom stackStart % 2 ^ 32)
      bufSize := max ctx.bufSize (depth stackBottom stackStart % 2 ^ 32) } := by
  set size := depth stackBottom stackStart % 2 ^ 32 with hsize
  have hint : toInt (max stackBottom stackStart - min stackBottom stackStart) = (size : ℕ) := by
    rw [toInt, if_pos (by rwa [hsize, depth] at hdepth)]
    rfl
  have hunsigned : ((size : ℤ) % 2 ^ 32).toNat = size := by omega
  have hbytes : ((size : ℤ) % 2 ^ 64).toNat = size := by omega
  simp only [store, bounds_eq, hint, hunsigned, hbytes, Option.bind_eq_bind]
  by_cases hgrows : ctx.bufSize < size
  · have hroom : 0 + (memory.block (min stackBottom stackStart) size).length ≤
        (List.replicate (size : ℤ).toNat (0 : UInt8)).length := by simp
    have hdrop : ctx.buf.drop size = [] := List.drop_of_length_le (by rw [h.size]; omega)
    rw [if_pos hgrows, if_neg (by omega), Option.bind_some, copyIn_of_le hroom,
      Option.bind_some, hdrop]
    simp [Nat.max_eq_right (Nat.le_of_lt hgrows)]
  · have hroom : 0 + (memory.block (min stackBottom stackStart) size).length ≤ ctx.buf.length := by
      rw [Bytes.length_block, h.size]
      omega
    rw [if_neg hgrows, Option.bind_some, copyIn_of_le hroom, Option.bind_some]
    simp [Nat.max_eq_left (Nat.not_lt.mp hgrows)]

theorem sound_store {ctx' : SavedStack} (h : ctx.Sound)
    (hok : ctx.store stackBottom stackStart memory = some ctx') : ctx'.Sound := by
  have hfits := h.fits
  by_cases hdepth : depth stackBottom stackStart % 2 ^ 32 < 2 ^ 31
  · rw [store_eq_some h hdepth] at hok
    rw [← Option.some.inj hok]
    constructor
    · simp only [List.length_append, Bytes.length_block, List.length_drop, h.size]
      omega
    · exact Nat.max_lt.mpr ⟨hfits, hdepth⟩
  · rw [store_eq_none h (Nat.not_lt.mp hdepth)] at hok
    cases hok

/-- `Restore` leaves the recursion and copies the whole buffer. -/
theorem restore_eq (hsize : ctx.buf.length = ctx.bufSize) {frames : List ℕ}
    (hout : ∃ a ∈ frames, a < ctx.low ∨ ctx.hight < a) :
    ctx.restore frames memory = some (memory.blit ctx.low ctx.buf) := by
  induction frames with
  | nil =>
      obtain ⟨a, ha, -⟩ := hout
      exact absurd ha List.not_mem_nil
  | cons first frames ih =>
      by_cases hin : ctx.low ≤ first ∧ first ≤ ctx.hight
      · rw [restore, if_pos hin]
        apply ih
        obtain ⟨a, ha, houtside⟩ := hout
        rcases List.mem_cons.mp ha with rfl | ha
        · omega
        · exact ⟨a, ha, houtside⟩
      · have hcopy : 0 + ctx.bufSize ≤ ctx.buf.length := by omega
        have htake : ctx.buf.take ctx.bufSize = ctx.buf := List.take_of_length_le (by omega)
        simp only [restore, if_neg hin, copyOut_of_le hcopy, Option.bind_eq_bind, Option.bind_some,
          List.drop_zero, htake]

/-- After a call of `Store` the image is restored exactly if and only if the whole buffer is its
image. -/
theorem exact_iff (h : ctx.Sound) (hdepth : depth stackBottom stackStart % 2 ^ 32 < 2 ^ 31)
    {ctx' : SavedStack} (hok : ctx.store stackBottom stackStart latest = some ctx') :
    ctx'.Exact latest ↔ max ctx.bufSize (depth stackBottom stackStart % 2 ^ 32) =
      depth stackBottom stackStart := by
  have hsound := sound_store h hok
  have hfits := h.fits
  set size := depth stackBottom stackStart % 2 ^ 32 with hsize
  have hle : size ≤ depth stackBottom stackStart := Nat.mod_le _ _
  rw [store_eq_some h hdepth] at hok
  have hlow : ctx'.low = min stackBottom stackStart := by rw [← Option.some.inj hok]
  have hhight : ctx'.hight = ctx'.low + depth stackBottom stackStart := by
    rw [← Option.some.inj hok, depth]
    show max stackBottom stackStart = min stackBottom stackStart + _
    omega
  have hbuf : ctx'.buf = latest.block ctx'.low size ++ ctx.buf.drop size := by
    rw [hlow, ← Option.some.inj hok, hsize]
  have hbufSize : ctx'.bufSize = max ctx.bufSize size := by rw [← Option.some.inj hok, hsize]
  rw [← hbufSize]
  have hlength := hsound.size
  constructor
  · intro hexact
    -- a memory that differs everywhere from the buffer and from the latest one
    set memory : Bytes := fun x ↦
      if ctx'.low ≤ x ∧ x < ctx'.low + ctx'.bufSize then ctx'.buf.getD (x - ctx'.low) 0 + 1
      else latest x + 1 with hmemory
    have hne : ∀ b : UInt8, b ≠ b + 1 := fun b ↦ by grind
    obtain ⟨memory', hrestore, hinside, houtside⟩ :=
      hexact [ctx'.hight + 1] memory
        ⟨ctx'.hight + 1, List.mem_cons_self, Or.inr (Nat.lt_succ_self _)⟩
    rw [restore_eq hlength ⟨ctx'.hight + 1, List.mem_cons_self, Or.inr (Nat.lt_succ_self _)⟩]
      at hrestore
    obtain rfl := Option.some.inj hrestore
    rcases Nat.lt_trichotomy ctx'.bufSize (depth stackBottom stackStart) with hless | heq | hmore
    · -- the buffer ends below the top of the image
      have hx := hinside (ctx'.low + ctx'.bufSize) (Nat.le_add_right _ _) (by omega)
      rw [Bytes.blit_of_not_mem (by omega), hmemory] at hx
      simp only [Nat.lt_irrefl, and_false, if_false] at hx
      exact absurd hx.symm (hne _)
    · exact heq
    · -- the buffer goes on above the image
      have hx := houtside (ctx'.low + depth stackBottom stackStart) (by omega)
      rw [Bytes.blit_of_mem (Nat.le_add_right _ _) (by omega), hmemory] at hx
      simp only [Nat.le_add_right, Nat.add_lt_add_iff_left, hmore, and_self, if_true] at hx
      exact absurd hx (hne _)
  · intro heq frames memory hframes
    have hfull : size = depth stackBottom stackStart := by omega
    refine ⟨_, restore_eq hlength hframes, fun x hlow' hhight' ↦ ?_, fun x hx ↦ ?_⟩
    · have hlt : x - ctx'.low < size := by omega
      have hblock : x - ctx'.low < (latest.block ctx'.low size).length := by
        rw [Bytes.length_block]; exact hlt
      rw [Bytes.blit_of_mem hlow' (by omega), hbuf, List.getD_eq_getElem?_getD,
        List.getElem?_append_left hblock, ← List.getD_eq_getElem?_getD, Bytes.getD_block hlt]
      congr 1
      omega
    · exact Bytes.blit_of_not_mem (by omega)

/-! ## Sequences of calls -/

theorem storeAll_append (first second : List (ℕ × Bytes)) :
    ctx.storeAll stackBottom (first ++ second) =
    (ctx.storeAll stackBottom first).bind fun ctx ↦ ctx.storeAll stackBottom second := by
  induction first generalizing ctx with
  | nil => rfl
  | cons call first ih =>
      simp only [List.cons_append, storeAll, Option.bind_eq_bind, Option.bind_assoc]
      congr 1
      funext ctx
      exact ih

theorem storeAll_eq_some (h : ctx.Sound)
    (hsizes : ∀ call ∈ calls, depth stackBottom call.1 % 2 ^ 32 < 2 ^ 31) :
    ∃ ctx', ctx.storeAll stackBottom calls = some ctx' := by
  induction calls generalizing ctx with
  | nil => exact ⟨ctx, rfl⟩
  | cons call calls ih =>
      have hstore : ctx.store stackBottom call.1 call.2 = _ :=
        store_eq_some h (hsizes call List.mem_cons_self)
      obtain ⟨ctx', hctx'⟩ := ih (sound_store h hstore) fun call' hcall' ↦
        hsizes call' (List.mem_cons_of_mem call hcall')
      refine ⟨ctx', ?_⟩
      simp only [storeAll, hstore, Option.bind_eq_bind, Option.bind_some, hctx']

/-- The recorded size is the greatest so far. -/
theorem storeAll_spec {ctx' : SavedStack} (h : ctx.Sound)
    (hok : ctx.storeAll stackBottom calls = some ctx') :
    ctx'.Sound ∧ ∀ n, ctx'.bufSize ≤ n ↔
      ctx.bufSize ≤ n ∧ ∀ call ∈ calls, depth stackBottom call.1 % 2 ^ 32 ≤ n := by
  induction calls generalizing ctx with
  | nil =>
      rw [← Option.some.inj hok]
      exact ⟨h, fun n ↦ by simp⟩
  | cons call calls ih =>
      obtain ⟨ctx₁, hstore, hrest⟩ := Option.bind_eq_some_iff.mp hok
      obtain ⟨hsound, hmax⟩ := ih (sound_store h hstore) hrest
      have hdepth : depth stackBottom call.1 % 2 ^ 32 < 2 ^ 31 := by
        by_contra hdepth
        rw [store_eq_none h (Nat.not_lt.mp hdepth)] at hstore
        cases hstore
      rw [store_eq_some h hdepth] at hstore
      refine ⟨hsound, fun n ↦ ?_⟩
      rw [hmax, ← Option.some.inj hstore, List.forall_mem_cons, Nat.max_le, and_assoc]

end SavedStack

open SavedStack

/-- After any calls of `Store` on a context, `Restore` copies exactly the image of the latest one if
and only if the latest stack fits an `int` and no earlier one was larger. -/
theorem restores_one_image_iff (stackBottom stackStart : ℕ) (latest : Bytes)
    (earlier : List (ℕ × Bytes)) :
    (∃ ctx, fresh.storeAll stackBottom (earlier ++ [(stackStart, latest)]) = some ctx ∧
      ctx.Exact latest) ↔ depth stackBottom stackStart < 2 ^ 31 ∧
        ∀ call ∈ earlier, depth stackBottom call.1 % 2 ^ 32 ≤ depth stackBottom stackStart := by
  constructor
  · rintro ⟨ctx, hok, hexact⟩
    rw [storeAll_append] at hok
    obtain ⟨ctx₁, hearlier, hlast⟩ := Option.bind_eq_some_iff.mp hok
    obtain ⟨ctx₂, hstore, hnil⟩ := Option.bind_eq_some_iff.mp hlast
    obtain rfl := Option.some.inj hnil
    obtain ⟨hsound, hmax⟩ := storeAll_spec sound_fresh hearlier
    have hdepth : depth stackBottom stackStart % 2 ^ 32 < 2 ^ 31 := by
      by_contra hdepth
      rw [store_eq_none hsound (Nat.not_lt.mp hdepth)] at hstore
      cases hstore
    have hfull := (exact_iff hsound hdepth hstore).mp hexact
    have hfits := hsound.fits
    exact ⟨by omega, ((hmax _).mp (by omega)).2⟩
  · rintro ⟨hfits, hlarger⟩
    obtain ⟨ctx₁, hearlier⟩ := storeAll_eq_some sound_fresh fun call hcall ↦
      Nat.lt_of_le_of_lt (hlarger call hcall) hfits
    obtain ⟨hsound, hmax⟩ := storeAll_spec sound_fresh hearlier
    have hless := (hmax _).mpr ⟨Nat.zero_le _, hlarger⟩
    have hdepth : depth stackBottom stackStart % 2 ^ 32 < 2 ^ 31 := by omega
    have hstore : ctx₁.store stackBottom stackStart latest = _ := store_eq_some hsound hdepth
    refine ⟨_, ?_, (exact_iff hsound hdepth hstore).mpr (by omega)⟩
    rw [storeAll_append, hearlier, Option.bind_some, storeAll, hstore]
    rfl

/-- A stack of four bytes is stored, then one of two; `Restore` writes the bytes at and above
`StackBottom`. -/
theorem restore_writes_above_bottom : ∃ ctx memory',
    fresh.storeAll 100 [(96, fun _ ↦ 1), (98, fun _ ↦ 2)] = some ctx ∧ ctx.low = 98 ∧
    ctx.hight = 100 ∧
      ctx.restore [200] (fun _ ↦ 0) = some memory' ∧ memory' 100 = 1 ∧ memory' 101 = 1 ∧
      ¬ctx.Exact fun _ ↦ 2 := by
  refine ⟨_, _, rfl, rfl, rfl, rfl, rfl, rfl, fun hexact ↦ ?_⟩
  obtain ⟨memory', hrestore, -, houtside⟩ :=
    hexact [200] (fun _ ↦ 0) ⟨200, by simp, Or.inr (by decide)⟩
  have habove := houtside 100 (Or.inr (Nat.le_refl 100))
  rw [← Option.some.inj hrestore] at habove
  cases habove

end CppMtHw.Coroutines
