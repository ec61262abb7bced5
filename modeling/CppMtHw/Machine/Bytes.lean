import Mathlib.Algebra.Group.Nat.Defs
import CppMtHw.Machine.Buffer

/-!
# Byte memory

Memory as bytes under addresses, with 64-bit words stored in it in little-endian order
and moved as blocks. A word that is stored is read back as it was, and every byte
outside the words stored keeps its value.
-/

namespace CppMtHw.Machine

abbrev Bytes := ℕ → UInt8

namespace Bytes

variable {m m' m'' : Bytes} {a b n w x : ℕ}

/-- The number that `n` bytes from `a` on represent. -/
def loadN (m : Bytes) (a : ℕ) : ℕ → ℕ
  | 0 => 0
  | n + 1 => (m a).toNat + 256 * loadN m (a + 1) n

/-- Store the `n` lowest bytes of a number from `a` on. -/
def storeN (m : Bytes) (a n w : ℕ) : Bytes := fun x ↦
  if a ≤ x ∧ x < a + n then UInt8.ofNat (w / 256 ^ (x - a)) else m x

/-- The 64-bit word at an address. -/
def load (m : Bytes) (a : ℕ) : ℕ := m.loadN a 8

def store (m : Bytes) (a w : ℕ) : Bytes := m.storeN a 8 w

def move (m : Bytes) (dst src n : ℕ) : Bytes := fun x ↦
  if dst ≤ x ∧ x < dst + n then m (src + (x - dst)) else m x

/-- The `n` bytes from `a` on. -/
def block (m : Bytes) (a n : ℕ) : List UInt8 := (List.range n).map fun i ↦ m (a + i)

/-- `memcpy` of bytes that lie elsewhere to `a` on. -/
def blit (m : Bytes) (a : ℕ) (data : List UInt8) : Bytes := fun x ↦
  if a ≤ x ∧ x < a + data.length then data.getD (x - a) 0 else m x

theorem loadN_congr (h : ∀ x, a ≤ x → x < a + n → m x = m' x) : m.loadN a n = m'.loadN a n := by
  induction n generalizing a with
  | zero => rfl
  | succ n ih =>
      rw [loadN, loadN, h a (Nat.le_refl a) (by omega), ih fun x hx hlt ↦ h x (by omega) (by omega)]

theorem loadN_lt (m : Bytes) (a n : ℕ) : m.loadN a n < 256 ^ n := by
  induction n generalizing a with
  | zero => simp [loadN]
  | succ n ih =>
      have hbyte : (m a).toNat < 256 := (m a).toNat_lt
      have hrest := ih (a + 1)
      rw [loadN, Nat.pow_succ]
      omega

theorem loadN_of_bytes (h : ∀ i < n, m (a + i) = UInt8.ofNat (w / 256 ^ i)) :
    m.loadN a n = w % 256 ^ n := by
  induction n generalizing a w with
  | zero => simp [loadN, Nat.mod_one]
  | succ n ih =>
      have hfirst : (m a).toNat = w % 256 := by
        have hbyte := h 0 (Nat.succ_pos n)
        simp only [Nat.add_zero, Nat.pow_zero, Nat.div_one] at hbyte
        rw [hbyte, UInt8.toNat_ofNat']
      have hrest : m.loadN (a + 1) n = w / 256 % 256 ^ n := by
        refine ih fun i hi ↦ ?_
        have hbyte := h (i + 1) (Nat.succ_lt_succ hi)
        rw [Nat.add_assoc, Nat.add_comm 1 i, hbyte, Nat.pow_succ, Nat.mul_comm,
          Nat.div_div_eq_div_mul]
      rw [loadN, hfirst, hrest, Nat.pow_succ, Nat.mul_comm (256 ^ n), Nat.mod_mul]

theorem load_lt (m : Bytes) (a : ℕ) : m.load a < 2 ^ 64 := m.loadN_lt a 8

theorem load_congr (h : ∀ x, a ≤ x → x < a + 8 → m x = m' x) : m.load a = m'.load a :=
  loadN_congr h

/-- Bytes that represent the same number are the same. -/
theorem eq_of_loadN_eq (h : m.loadN a n = m'.loadN a n) (hx : a ≤ x) (hlt : x < a + n) :
    m x = m' x := by
  induction n generalizing a with
  | zero => omega
  | succ n ih =>
      have hbyte : (m a).toNat < 256 := (m a).toNat_lt
      have hbyte' : (m' a).toNat < 256 := (m' a).toNat_lt
      rw [loadN, loadN] at h
      by_cases heq : x = a
      · rw [heq]
        apply UInt8.toNat.inj
        omega
      · have hrest : m.loadN (a + 1) n = m'.loadN (a + 1) n := by omega
        exact ih hrest (by omega) (by omega)

theorem eq_of_load_eq (h : m.load a = m'.load a) (hx : a ≤ x) (hlt : x < a + 8) : m x = m' x :=
  eq_of_loadN_eq h hx hlt

theorem load_store_self : (m.store a w).load a = w % 2 ^ 64 := by
  refine loadN_of_bytes fun i hi ↦ ?_
  rw [store, storeN, if_pos (by omega), Nat.add_sub_cancel_left]

theorem store_of_not_mem (h : x < a ∨ a + 8 ≤ x) : m.store a w x = m x := by
  rw [store, storeN, if_neg (by omega)]

theorem store_of_mem (h : a ≤ x) (hlt : x < a + 8) :
    m.store a w x = UInt8.ofNat (w / 256 ^ (x - a)) := by
  rw [store, storeN, if_pos ⟨h, hlt⟩]

theorem load_store_of_disjoint (h : b + 8 ≤ a ∨ a + 8 ≤ b) : (m.store a w).load b = m.load b :=
  load_congr fun x hx hlt ↦ store_of_not_mem (by omega)

theorem move_of_mem (h : a ≤ x) (hlt : x < a + n) : m.move a b n x = m (b + (x - a)) :=
  if_pos ⟨h, hlt⟩

theorem move_of_not_mem (h : x < a ∨ a + n ≤ x) : m.move a b n x = m x :=
  if_neg (by omega)

theorem move_self : m.move a a n = m := by
  funext x
  rw [move]
  split
  · rename_i h
    rw [Nat.add_sub_cancel' h.1]
  · rfl

@[simp] theorem length_block : (m.block a n).length = n := by simp [block]

theorem getD_block (h : x < n) : (m.block a n).getD x 0 = m (a + x) := by
  simp [block, h]

theorem blit_of_mem {data : List UInt8} (h : a ≤ x) (hlt : x < a + data.length) :
    m.blit a data x = data.getD (x - a) 0 :=
  if_pos ⟨h, hlt⟩

theorem blit_of_not_mem {data : List UInt8} (h : x < a ∨ a + data.length ≤ x) :
    m.blit a data x = m x :=
  if_neg (by omega)

-- From here on words are read and written through the lemmas above only.
attribute [irreducible] load store move

/-! ## Frames -/

/-- The bytes outside a set of addresses are the same. -/
def SameOutside (R : ℕ → Prop) (m m' : Bytes) : Prop := ∀ x, ¬R x → m' x = m x

variable {R R' : ℕ → Prop}

theorem SameOutside.refl (R : ℕ → Prop) (m : Bytes) : SameOutside R m m := fun _ _ ↦ rfl

theorem SameOutside.trans (h : SameOutside R m m') (h' : SameOutside R m' m'') :
    SameOutside R m m'' := fun x hx ↦ (h' x hx).trans (h x hx)

theorem SameOutside.mono (h : SameOutside R m m') (hsub : ∀ x, R x → R' x) :
    SameOutside R' m m' := fun x hx ↦ h x fun hR ↦ hx (hsub x hR)

theorem SameOutside.load_eq (h : SameOutside R m m') (hR : ∀ x, a ≤ x → x < a + 8 → ¬R x) :
    m'.load a = m.load a := load_congr fun x hx hlt ↦ h x (hR x hx hlt)

theorem sameOutside_store (hR : ∀ x, a ≤ x → x < a + 8 → R x) : SameOutside R m (m.store a w) := by
  intro x hx
  refine store_of_not_mem ?_
  by_contra hmem
  exact hx (hR x (by omega) (by omega))

theorem sameOutside_move (hR : ∀ x, a ≤ x → x < a + n → R x) : SameOutside R m (m.move a b n) := by
  intro x hx
  refine move_of_not_mem ?_
  by_contra hmem
  exact hx (hR x (by omega) (by omega))

/-! ## Agreement -/

def SameOn (K : ℕ → Prop) (m m' : Bytes) : Prop := ∀ x, K x → m' x = m x

variable {K K' : ℕ → Prop} {m₁ m₁' : Bytes}

theorem SameOn.mono (h : SameOn K m m') (hsub : ∀ x, K' x → K x) : SameOn K' m m' := fun x hx ↦
  h x (hsub x hx)

theorem SameOn.load_eq (h : SameOn K m m') (hK : ∀ x, a ≤ x → x < a + 8 → K x) :
    m'.load a = m.load a :=
  load_congr fun x hx hlt ↦ h x (hK x hx hlt)

/-- A word that is stored in both is the same afterwards. -/
theorem SameOn.store (h : SameOn K m m') :
    SameOn (fun x ↦ K x ∨ a ≤ x ∧ x < a + 8) (m.store a w) (m'.store a w) := by
  intro x hx
  by_cases hmem : a ≤ x ∧ x < a + 8
  · rw [store_of_mem hmem.1 hmem.2, store_of_mem hmem.1 hmem.2]
  · rw [store_of_not_mem (by omega), store_of_not_mem (by omega)]
    exact h x (hx.resolve_right hmem)

/-- What happens elsewhere makes no difference. -/
theorem SameOn.frame (h : SameOn K m m') (hm : SameOutside R m m₁) (hm' : SameOutside R m' m₁')
    (hK : ∀ x, K x → ¬R x) : SameOn K m₁ m₁' := fun x hx ↦ by
  rw [hm x (hK x hx), hm' x (hK x hx), h x hx]

end Bytes

end CppMtHw.Machine
