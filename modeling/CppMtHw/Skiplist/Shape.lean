import CppMtHw.Skiplist.Operations
import CppMtHw.Machine.SortedChain
import Mathlib.Data.List.Range

/-!
# The shape of a skip list

The data nodes and the index nodes of every level are sorted maps laid out as linked
lists between sentinels. The entries of a level carry the data node that is their root,
and every index node leads down to the node of the level below with the same root. A list
in order has an index node on level 0 for every data node.
-/

namespace CppMtHw.Skiplist

open Machine

variable {K V : Type}

abbrev Cells (K V : Type) := List (K × DataPtr × V)

abbrev Level (K : Type) := List (K × IndexPtr × DataPtr)

namespace Heap

variable {h : Heap K V} {p : ℕ} {n : ℕ}

def dataBody (h : Heap K V) (p : DataPtr) : Option (Option K × Option V) :=
  (h.data p).map fun node ↦ (node.pKey, node.pValue)

def indexBody (h : Heap K V) (p : IndexPtr) : Option (Option NodePtr × Option DataPtr) :=
  (h.index p).map fun node ↦ (node.pDown, node.pRoot)

def dataLink (h : Heap K V) (p : DataPtr) : Option DataPtr := (h.data p).bind DataNode.pNext

def indexLink (h : Heap K V) (p : IndexPtr) : Option IndexPtr := (h.index p).bind IndexNode.pNext

theorem deref_of_map {N B : Type} {memory : ℕ → Option N} {f : N → B} {b : B}
    (hb : (memory p).map f = some b) : ∃ node, deref memory (some p) = .ok node ∧ f node = b := by
  rw [Option.map_eq_some_iff] at hb
  obtain ⟨node, hnode, hf⟩ := hb
  exact ⟨node, by simp only [deref, hnode], hf⟩

theorem deref_of_bind {N : Type} {memory : ℕ → Option N} {f : N → Option ℕ}
    (hn : (memory p).bind f = some n) :
    ∃ node, deref memory (some p) = .ok node ∧ f node = some n := by
  rw [Option.bind_eq_some_iff] at hn
  obtain ⟨node, hnode, hf⟩ := hn
  exact ⟨node, by simp only [deref, hnode], hf⟩

theorem dataKey_ok {key : K} {v : Option V} (hp : h.dataBody p = some (some key, v)) :
    h.dataKey (some p) = .ok key := by
  obtain ⟨node, hderef, hbody⟩ := deref_of_map hp
  obtain ⟨hkey, -⟩ := Prod.mk.inj hbody
  simp only [dataKey, hderef, ok_bind, hkey]
  rfl

theorem dataValue_ok {key : Option K} {v : V} (hp : h.dataBody p = some (key, some v)) :
    h.dataValue (some p) = .ok v := by
  obtain ⟨node, hderef, hbody⟩ := deref_of_map hp
  obtain ⟨-, hvalue⟩ := Prod.mk.inj hbody
  simp only [dataValue, hderef, ok_bind, hvalue]
  rfl

theorem dataNext_ok (hp : h.dataLink p = some n) : h.dataNext (some p) = .ok n := by
  obtain ⟨node, hderef, hnext⟩ := deref_of_bind hp
  simp only [dataNext, hderef, ok_bind, hnext]
  rfl

theorem next_ok (hp : h.indexLink p = some n) : h.next (some p) = .ok n := by
  obtain ⟨node, hderef, hnext⟩ := deref_of_bind hp
  simp only [next, hderef, ok_bind, hnext]
  rfl

theorem root_ok {down : Option NodePtr} {r : Option DataPtr} (hp : h.indexBody p = some (down, r)) :
    h.root (some p) = .ok r := by
  obtain ⟨node, hderef, hbody⟩ := deref_of_map hp
  obtain ⟨-, hroot⟩ := Prod.mk.inj hbody
  simp only [root, hderef, ok_bind, hroot]
  rfl

theorem key_ok {down : Option NodePtr} {r : DataPtr} {k : K} {v : Option V}
    (hp : h.indexBody p = some (down, some r)) (hr : h.dataBody r = some (some k, v)) :
    h.key (some p) = .ok k := by
  obtain ⟨node, hderef, hbody⟩ := deref_of_map hp
  obtain ⟨-, hroot⟩ := Prod.mk.inj hbody
  simp only [key, hderef, ok_bind, hroot]
  exact dataKey_ok hr

theorem value_ok {down : Option NodePtr} {r : DataPtr} {k : Option K} {v : V}
    (hp : h.indexBody p = some (down, some r)) (hr : h.dataBody r = some (k, some v)) :
    h.value (some p) = .ok v := by
  obtain ⟨node, hderef, hbody⟩ := deref_of_map hp
  obtain ⟨-, hroot⟩ := Prod.mk.inj hbody
  simp only [value, hderef, ok_bind, hroot]
  exact dataValue_ok hr

def Exists (h : Heap K V) : NodePtr → Prop
  | .data p => h.dataBody p ≠ none
  | .index p => h.indexBody p ≠ none

/-- The outcome of `dynamic_cast<IndexNode*>` on a pointer that is null or leads to a node. -/
def indexOf : Option NodePtr → Option IndexPtr
  | some (.index p) => some p
  | _ => none

theorem down_ok {down : Option NodePtr} {r : Option DataPtr} (hp : h.indexBody p = some (down, r))
    (hdown : ∀ target, down = some target → h.Exists target) :
    h.down (some p) = .ok (indexOf down) := by
  obtain ⟨node, hderef, hbody⟩ := deref_of_map hp
  obtain ⟨hnode, -⟩ := Prod.mk.inj hbody
  simp only [Heap.down, hderef, ok_bind, hnode]
  cases down with
  | none => rfl
  | some target =>
      have hexists := hdown target rfl
      cases target with
      | data q =>
          obtain ⟨b, hb⟩ := Option.ne_none_iff_exists'.mp hexists
          obtain ⟨other, hother, -⟩ := deref_of_map hb
          simp only [asIndex, hother, ok_bind]
          rfl
      | index q =>
          obtain ⟨b, hb⟩ := Option.ne_none_iff_exists'.mp hexists
          obtain ⟨other, hother, -⟩ := deref_of_map hb
          simp only [asIndex, hother, ok_bind]
          rfl

end Heap

namespace SkipList

variable {s : SkipList K V} {cells : Cells K V} {level : ℕ → Level K} {i : ℕ}

def headIdx (s : SkipList K V) (i : ℕ) : IndexPtr := s.aHeadIdx.getD i 0

def headDown (s : SkipList K V) : ℕ → Option NodePtr
  | 0 => none
  | i + 1 => some (.index (s.headIdx i))

end SkipList

/-- What an index node on level `i` with root `d` leads down to. -/
def Lower (level : ℕ → Level K) : ℕ → DataPtr → NodePtr → Prop
  | 0, d, target => target = .data d
  | i + 1, d, target => ∃ r ∈ level i, r.2.2 = d ∧ target = .index r.2.1

/-- The nodes of the list are these data nodes and these index nodes on its levels. -/
structure Shaped (cmpLess : K → K → Prop) (s : SkipList K V) (cells : Cells K V)
    (level : ℕ → Level K) : Prop where
  positive : 0 < s.maxHeight
  sortedCells : SortedMap.Sorted cmpLess cells
  sortedLevel : ∀ i < s.maxHeight, SortedMap.Sorted cmpLess (level i)
  linkedCells : Linked s.heap.dataLink s.pHead s.pTail cells
  linkedLevel : ∀ i < s.maxHeight, Linked s.heap.indexLink (s.headIdx i) s.pTailIdx (level i)
  head : s.heap.dataBody s.pHead = some (none, none)
  tail : s.heap.dataBody s.pTail = some (none, none)
  cell : ∀ c ∈ cells, s.heap.dataBody c.2.1 = some (some c.1, some c.2.2)
  tailIdx : s.heap.indexBody s.pTailIdx = some (some (.data s.pTail), some s.pTail)
  headIdx : ∀ i < s.maxHeight, s.heap.indexBody (s.headIdx i) = some (s.headDown i, some s.pHead)
  rung : ∀ i < s.maxHeight, ∀ r ∈ level i, ∃ target,
    s.heap.indexBody r.2.1 = some (some target, some r.2.2) ∧ Lower level i r.2.2 target
  rooted : ∀ i < s.maxHeight, ∀ r ∈ level i, ∃ c ∈ cells, c.1 = r.1 ∧ c.2.1 = r.2.2
  dataNodes : ∀ p, s.heap.dataBody p ≠ none → p ∈ s.pHead :: (nodes cells ++ [s.pTail])
  indexNodes : ∀ p, s.heap.indexBody p ≠ none →
    p = s.pTailIdx ∨ ∃ i < s.maxHeight, p ∈ s.headIdx i :: nodes (level i)
  fresh : ∀ p, s.heap.fresh ≤ p → s.heap.dataBody p = none ∧ s.heap.indexBody p = none

/-- Level 0 indexes every data node. -/
def Complete (cells : Cells K V) (level : ℕ → Level K) : Prop :=
  ∀ c ∈ cells, ∃ r ∈ level 0, r.2.2 = c.2.1

end CppMtHw.Skiplist
