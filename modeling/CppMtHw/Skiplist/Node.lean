import CppMtHw.Machine.Fallible
import Mathlib.Data.Nat.Notation

/-!
# Nodes of a skip list

`DataNode` and `IndexNode` of `skiplist/node.h` and the heap they live in. Following a
null pointer, reading a node that was deleted and reading the key or the value of a
sentinel are faults. Keys and values are owned by their nodes and stand in them here.
-/

namespace CppMtHw.Skiplist

open Machine

inductive Fault
  | nullPointer
  | deleted
  | sentinel
  | outOfBounds
  | noReturn
  | outOfFuel
  deriving DecidableEq, Repr

abbrev DataPtr := ℕ
abbrev IndexPtr := ℕ

structure DataNode (K V : Type) where
  pKey : Option K
  pValue : Option V
  pNext : Option DataPtr

/-- A `Node*` that is not null, with the class of the node. -/
inductive NodePtr
  | data (p : DataPtr)
  | index (p : IndexPtr)
  deriving DecidableEq, Repr

/-- Every constructor call passes a `DataNode` as the root. -/
structure IndexNode where
  pDown : Option NodePtr
  pRoot : Option DataPtr
  pNext : Option IndexPtr

/-- The nodes that exist. `fresh` is an address that no node has had so far. -/
structure Heap (K V : Type) where
  data : DataPtr → Option (DataNode K V)
  index : IndexPtr → Option IndexNode
  fresh : ℕ

variable {K V N : Type}

def deref (memory : ℕ → Option N) : Option ℕ → Except Fault N
  | none => .error .nullPointer
  | some p =>
      match memory p with
      | none => .error .deleted
      | some object => .ok object

def assign (memory : ℕ → Option N) (p : Option ℕ) (object : Option N) : ℕ → Option N :=
  fun q ↦ if p = some q then object else memory q

/-- The pointer behind a reference. -/
def reference : Option ℕ → Except Fault ℕ
  | none => .error .nullPointer
  | some p => .ok p

/-- The object behind the `pKey` or `pValue` of a node; `assert` guards against null. -/
def payload {A : Type} : Option A → Except Fault A
  | none => .error .sentinel
  | some x => .ok x

namespace Heap

def empty : Heap K V where
  data _ := none
  index _ := none
  fresh := 0

def putData (h : Heap K V) (p : Option DataPtr) (object : Option (DataNode K V)) : Heap K V :=
  { h with data := assign h.data p object }

def putIndex (h : Heap K V) (p : Option IndexPtr) (object : Option IndexNode) : Heap K V :=
  { h with index := assign h.index p object }

/-! ## `DataNode` -/

def newData (h : Heap K V) (pKey : Option K) (pValue : Option V) : DataPtr × Heap K V :=
  (h.fresh, { h.putData (some h.fresh) (some ⟨pKey, pValue, none⟩) with fresh := h.fresh + 1 })

def dataKey (h : Heap K V) (p : Option DataPtr) : Except Fault K := do
  let node ← deref h.data p
  payload node.pKey

def dataValue (h : Heap K V) (p : Option DataPtr) : Except Fault V := do
  let node ← deref h.data p
  payload node.pValue

def setDataValue (h : Heap K V) (p : Option DataPtr) (newVal : V) :
    Except Fault (Option V × Heap K V) := do
  let node ← deref h.data p
  return (node.pValue, h.putData p (some { node with pValue := some newVal }))

def dataNext (h : Heap K V) (p : Option DataPtr) : Except Fault DataPtr := do
  let node ← deref h.data p
  reference node.pNext

def setDataNext (h : Heap K V) (p : Option DataPtr) (next : DataPtr) : Except Fault (Heap K V) := do
  let node ← deref h.data p
  return h.putData p (some { node with pNext := some next })

/-- `delete &p->key(); delete p`. -/
def deleteData (h : Heap K V) (p : Option DataPtr) : Except Fault (Heap K V) := do
  let _ ← h.dataKey p
  return h.putData p none

/-! ## `IndexNode` -/

def newIndex (h : Heap K V) (down : Option NodePtr) (root : Option DataPtr) :
    IndexPtr × Heap K V :=
  (h.fresh, { h.putIndex (some h.fresh) (some ⟨down, root, none⟩) with fresh := h.fresh + 1 })

def key (h : Heap K V) (ix : Option IndexPtr) : Except Fault K := do
  let node ← deref h.index ix
  h.dataKey node.pRoot

def value (h : Heap K V) (ix : Option IndexPtr) : Except Fault V := do
  let node ← deref h.index ix
  h.dataValue node.pRoot

def setValue (h : Heap K V) (ix : Option IndexPtr) (newVal : V) :
    Except Fault (Option V × Heap K V) := do
  let node ← deref h.index ix
  h.setDataValue node.pRoot newVal

def next (h : Heap K V) (ix : Option IndexPtr) : Except Fault IndexPtr := do
  let node ← deref h.index ix
  reference node.pNext

def setNext (h : Heap K V) (ix : Option IndexPtr) (next : IndexPtr) : Except Fault (Heap K V) := do
  let node ← deref h.index ix
  return h.putIndex ix (some { node with pNext := some next })

/-- `dynamic_cast<IndexNode*>`: null for null and for a `DataNode`. It reads the object. -/
def asIndex (h : Heap K V) : Option NodePtr → Except Fault (Option IndexPtr)
  | none => .ok none
  | some (.data p) => do
      let _ ← deref h.data (some p)
      return none
  | some (.index p) => do
      let _ ← deref h.index (some p)
      return some p

def down (h : Heap K V) (ix : Option IndexPtr) : Except Fault (Option IndexPtr) := do
  let node ← deref h.index ix
  h.asIndex node.pDown

def root (h : Heap K V) (ix : Option IndexPtr) : Except Fault (Option DataPtr) := do
  let node ← deref h.index ix
  return node.pRoot

/-- Make a data node and put it behind `currData`, as `insert_pair` does. -/
def linkData (h : Heap K V) (currData : Option DataPtr) (key : K) (value : V) :
    Except Fault (DataPtr × Heap K V) := do
  let (data, h) := h.newData (some key) (some value)
  let h ← h.setDataNext (some data) (← h.dataNext currData)
  let h ← h.setDataNext currData data
  return (data, h)

/-- Make an index node and put it behind `prev`, as `insert_pair` does on each level of a tower. -/
def linkIndex (h : Heap K V) (prev : Option IndexPtr) (down : NodePtr) (data : DataPtr) :
    Except Fault (IndexPtr × Heap K V) := do
  let (node, h) := h.newIndex (some down) (some data)
  let h ← h.setNext (some node) (← h.next prev)
  let h ← h.setNext prev node
  return (node, h)

def deleteIndex (h : Heap K V) (ix : Option IndexPtr) : Except Fault (Heap K V) := do
  let _ ← deref h.index ix
  return h.putIndex ix none

end Heap

end CppMtHw.Skiplist
