import CppMtHw.Skiplist.Node
import Mathlib.Data.Int.Notation

/-!
# The operations of a skip list

`skiplist/skiplist.h` and `skiplist/iterator.h`. `cmpLess` is the comparator and `rand` the
sequence of outcomes of `rand()`, of which a list has used the first `draws`. The loops
carry fuel; `steps` is more than any of them uses on a list that is in order.
-/

namespace CppMtHw.Skiplist

open Machine

variable {K V : Type}

/-- The fields of `SkipList`; `aHeadIdx` has `MAXHEIGHT` entries. -/
structure SkipList (K V : Type) where
  heap : Heap K V
  pHead : DataPtr
  pTail : DataPtr
  pTailIdx : IndexPtr
  aHeadIdx : List IndexPtr
  draws : ℕ

def createHeads (pHead : DataPtr) (pTailIdx : IndexPtr) :
    ℕ → Option NodePtr → Heap K V → Except Fault (List IndexPtr × Heap K V)
  | 0, _, heap => return ([], heap)
  | levels + 1, prev, heap => do
      let (ix, heap) := heap.newIndex prev (some pHead)
      let heap ← heap.setNext (some ix) pTailIdx
      let (rest, heap) ← createHeads pHead pTailIdx levels (some (.index ix)) heap
      return (ix :: rest, heap)

def create (maxHeight : ℕ) : Except Fault (SkipList K V) := do
  let (pHead, heap) := Heap.empty.newData none none
  let (pTail, heap) := heap.newData none none
  let heap ← heap.setDataNext (some pHead) pTail
  let (pTailIdx, heap) := heap.newIndex (some (.data pTail)) (some pTail)
  let (aHeadIdx, heap) ← createHeads pHead pTailIdx maxHeight none heap
  return { heap, pHead, pTail, pTailIdx, aHeadIdx, draws := 0 }

namespace SkipList

def maxHeight (s : SkipList K V) : ℕ := s.aHeadIdx.length

def top (s : SkipList K V) : Option IndexPtr := s.aHeadIdx[s.maxHeight - 1]?

/-- Enough fuel for any loop over the levels or along a list. -/
def steps (s : SkipList K V) : ℕ := s.maxHeight * (s.heap.fresh + 1) + 1

section Search

variable (cmpLess : K → K → Prop) [DecidableRel cmpLess]

inductive Turn
  | descent
  | right
  | found
  deriving DecidableEq, Repr

/-- The comparisons that `find`, `insert_pair` and `Delete` make with the next index node. -/
def turn (s : SkipList K V) (key : K) (nxt : IndexPtr) : Except Fault Turn :=
  if nxt = s.pTailIdx then return .descent
  else do
    let other ← s.heap.key (some nxt)
    return if cmpLess key other then .descent else if cmpLess other key then .right else .found

def findLoop (s : SkipList K V) (key : K) :
    ℕ → ℤ → Option IndexPtr → Except Fault (Option DataPtr)
  | 0, _, _ => .error .outOfFuel
  | fuel + 1, lvl, ix =>
      if 0 ≤ lvl then do
        let nxt ← s.heap.next ix
        match ← s.turn cmpLess key nxt with
        | .descent => findLoop s key fuel (lvl - 1) (← s.heap.down ix)
        | .right => findLoop s key fuel lvl (some nxt)
        | .found => s.heap.root (some nxt)
      else return none

def find (s : SkipList K V) (key : K) : Except Fault (Option DataPtr) :=
  s.findLoop cmpLess key s.steps (s.maxHeight - 1) s.top

def get (s : SkipList K V) (key : K) : Except Fault (Option V) := do
  match ← s.find cmpLess key with
  | none => return none
  | some node => return some (← s.heap.dataValue (some node))

end Search

/-! ## `insert_pair` -/

section Insert

variable (cmpLess : K → K → Prop) [DecidableRel cmpLess] (rand : ℕ → ℕ)

def writeTrace (trace : List (Option IndexPtr)) (lvl : ℤ) (ix : Option IndexPtr) :
    Except Fault (List (Option IndexPtr)) :=
  if 0 ≤ lvl ∧ lvl < trace.length then return trace.set lvl.toNat ix else .error .outOfBounds

/-- The loop of `insert_pair` that raises a tower over `data`: level `i` and the entries of `trace`
from there on. -/
def raiseTower (data : DataPtr) : ℕ → List (Option IndexPtr) → NodePtr → SkipList K V →
    Except Fault (SkipList K V)
  | _, [], _, s => return s
  | i, prev :: trace, down, s =>
      if i ≠ 0 ∧ rand s.draws % 2 = 0 then return { s with draws := s.draws + 1 }
      else do
        let s := if i ≠ 0 then { s with draws := s.draws + 1 } else s
        let (node, heap) ← s.heap.linkIndex prev down data
        raiseTower data (i + 1) trace (.index node) { s with heap }

/-- The part of `insert_pair` behind `if (lvl == -1)`. -/
def splice (s : SkipList K V) (key : K) (value : V) (trace : List (Option IndexPtr)) :
    Except Fault (SkipList K V) := do
  let currData ← s.heap.root (trace.getD 0 none)
  let (data, heap) ← s.heap.linkData currData key value
  raiseTower rand data 0 trace (.data data) { s with heap }

/-- The loop of `insert_pair`. Its last line is only reached through a `return`. -/
def insertLoop (s : SkipList K V) (key : K) (value : V) (substitute : Bool) :
    ℕ → ℤ → List (Option IndexPtr) → Option IndexPtr → Except Fault (Option V × SkipList K V)
  | 0, _, _, _ => .error .outOfFuel
  | fuel + 1, lvl, trace, ix =>
      if ix = some s.pTailIdx then .error .noReturn
      else do
        let nxt ← s.heap.next ix
        match ← s.turn cmpLess key nxt with
        | .right => insertLoop s key value substitute fuel lvl trace (some nxt)
        | .found =>
            if substitute then do
              let (old, heap) ← s.heap.setValue (some nxt) value
              return (old, { s with heap })
            else do
              let existing ← s.heap.value (some nxt)
              return (some existing, s)
        | .descent => do
            let trace ← writeTrace trace lvl ix
            let ix ← s.heap.down ix
            if lvl - 1 = -1 then do
              let s ← s.splice rand key value trace
              return (none, s)
            else insertLoop s key value substitute fuel (lvl - 1) trace ix

/-- `insert_pair(key, value, substitute)`. The entries of `trace` are uninitialised at first. -/
def insertPair (s : SkipList K V) (key : K) (value : V) (substitute : Bool) :
    Except Fault (Option V × SkipList K V) :=
  s.insertLoop cmpLess rand key value substitute s.steps (s.maxHeight - 1)
    (List.replicate s.maxHeight none) s.top

def put (s : SkipList K V) (key : K) (value : V) : Except Fault (Option V × SkipList K V) :=
  s.insertPair cmpLess rand key value true

def putIfAbsent (s : SkipList K V) (key : K) (value : V) : Except Fault (Option V × SkipList K V) :=
  s.insertPair cmpLess rand key value false

end Insert

/-! ## `Delete` -/

section Delete

/-- Move `ix` along its level until `nxt` is the next node. -/
def moveClose (heap : Heap K V) (nxt : Option IndexPtr) :
    ℕ → Option IndexPtr → Except Fault (Option IndexPtr)
  | 0, _ => .error .outOfFuel
  | fuel + 1, ix => do
      let next ← heap.next ix
      if some next ≠ nxt then moveClose heap nxt fuel (some next) else return ix

/-- The loop of `Delete` that takes a tower out of its levels; it also returns `data_curr`. -/
def unlinkTower (walk : ℕ) : ℕ → Option IndexPtr → Option IndexPtr → Option DataPtr → Heap K V →
    Except Fault (Option DataPtr × Heap K V)
  | 0, _, _, _, _ => .error .outOfFuel
  | fuel + 1, ix, nxt, dataCurr, heap =>
      if ix ≠ none then do
        let nxt2 ← heap.next nxt
        let idxDel := nxt
        let ix ← moveClose heap nxt walk ix
        let heap ← heap.setNext ix nxt2
        let dataCurr ← heap.root ix
        let ix ← heap.down ix
        let nxt ← heap.down nxt
        let heap ← heap.deleteIndex idxDel
        unlinkTower walk fuel ix nxt dataCurr heap
      else return (dataCurr, heap)

/-- What `Delete` does once it stands in front of `nxt`, which has the key. -/
def unlink (s : SkipList K V) (ix : Option IndexPtr) (nxt : IndexPtr) :
    Except Fault (Option V × SkipList K V) := do
  let retVal ← s.heap.value (some nxt)
  let dataDel ← s.heap.root (some nxt)
  let (dataCurr, heap) ← unlinkTower s.steps s.steps ix (some nxt) none s.heap
  let heap ← heap.setDataNext dataCurr (← heap.dataNext dataDel)
  let heap ← heap.deleteData dataDel
  return (some retVal, { s with heap })

variable (cmpLess : K → K → Prop) [DecidableRel cmpLess]

def deleteLoop (s : SkipList K V) (key : K) :
    ℕ → Option IndexPtr → Except Fault (Option V × SkipList K V)
  | 0, _ => .error .outOfFuel
  | fuel + 1, ix =>
      if ix ≠ none then do
        let nxt ← s.heap.next ix
        match ← s.turn cmpLess key nxt with
        | .descent => deleteLoop s key fuel (← s.heap.down ix)
        | .right => deleteLoop s key fuel (some nxt)
        | .found => s.unlink ix nxt
      else return (none, s)

def delete (s : SkipList K V) (key : K) : Except Fault (Option V × SkipList K V) :=
  s.deleteLoop cmpLess key s.steps s.top

end Delete

/-! ## `Iterator` -/

/-- `cbegin()`: the node the iterator stands on. -/
def cbegin (s : SkipList K V) : Except Fault DataPtr := s.heap.dataNext (some s.pHead)

def cend (s : SkipList K V) : DataPtr := s.pTail

def cfind (cmpLess : K → K → Prop) [DecidableRel cmpLess] (s : SkipList K V) (min : K) :
    Except Fault DataPtr := do
  match ← s.find cmpLess min with
  | none => return s.pTail
  | some node => return node

/-- The keys and values that `for (; p != cend(); ++p)` reads. -/
def iterate (s : SkipList K V) : ℕ → DataPtr → Except Fault (List (K × V))
  | 0, _ => .error .outOfFuel
  | fuel + 1, p =>
      if p ≠ s.cend then do
        let key ← s.heap.dataKey (some p)
        let value ← s.heap.dataValue (some p)
        let rest ← iterate s fuel (← s.heap.dataNext (some p))
        return (key, value) :: rest
      else return []

def entries (s : SkipList K V) : Except Fault (List (K × V)) := do
  s.iterate s.steps (← s.cbegin)

end SkipList

/-! ## Sequences of calls -/

inductive Call (K V : Type)
  | put (key : K) (value : V)
  | putIfAbsent (key : K) (value : V)
  | get (key : K)
  | delete (key : K)

variable (cmpLess : K → K → Prop) [DecidableRel cmpLess] (rand : ℕ → ℕ)

def SkipList.call (s : SkipList K V) : Call K V → Except Fault (Option V × SkipList K V)
  | .put key value => s.put cmpLess rand key value
  | .putIfAbsent key value => s.putIfAbsent cmpLess rand key value
  | .get key => do
      let value ← s.get cmpLess key
      return (value, s)
  | .delete key => s.delete cmpLess key

def SkipList.calls : List (Call K V) → SkipList K V → Except Fault (List (Option V) × SkipList K V)
  | [], s => return ([], s)
  | c :: cs, s => do
      let (result, s) ← s.call cmpLess rand c
      let (results, s) ← calls cs s
      return (result :: results, s)

end CppMtHw.Skiplist
