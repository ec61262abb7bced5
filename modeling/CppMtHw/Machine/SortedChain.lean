import CppMtHw.Machine.LinkedList
import CppMtHw.Machine.SortedMap

/-!
# Sorted maps laid out as linked lists

A sorted map whose entries are the nodes of a linked list between two sentinels. A search
that follows the forward links stands on the head or on a node with a smaller key than
the one sought. Once it can go no further, splicing in or skipping a node behind it is
the insertion into, or the removal from, the map.
-/

namespace CppMtHw.Machine

open SortedMap

variable {K N V : Type*} {lt : K → K → Prop} {next next' : N → Option N} {head tail x y : N}
  {m front back : List (K × N × V)} {k : K} {p : K × N × V} {todo : ℕ}

/-- The nodes of a map, in the order of the keys. -/
def nodes (m : List (K × N × V)) : List N := m.map fun p ↦ p.2.1

@[simp] theorem nodes_nil : nodes ([] : List (K × N × V)) = [] := rfl

@[simp] theorem nodes_cons : nodes (p :: m) = p.2.1 :: nodes m := rfl

@[simp] theorem nodes_append : nodes (front ++ back) = nodes front ++ nodes back :=
  List.map_append

@[simp] theorem length_nodes : (nodes m).length = m.length := List.length_map _

theorem mem_nodes : x ∈ nodes m ↔ ∃ p ∈ m, p.2.1 = x := List.mem_map

theorem mem_nodes_of_mem (h : p ∈ m) : p.2.1 ∈ nodes m := mem_nodes.mpr ⟨p, h, rfl⟩

/-- The walk from `head` meets the nodes of the map and ends in `tail`. -/
def Linked (next : N → Option N) (head tail : N) (m : List (K × N × V)) : Prop :=
  Chain next (some head) (head :: (nodes m ++ [tail]))

theorem Linked.exists_next (h : Linked next head tail m) (hx : x ∈ head :: nodes m) :
    ∃ n, next x = some n := by
  obtain ⟨passed, rest, hrow⟩ := List.append_of_mem hx
  have hchain : Chain next (some head) (passed ++ x :: (rest ++ [tail])) := by
    have hsplit : head :: (nodes m ++ [tail]) = passed ++ x :: (rest ++ [tail]) := by
      rw [← List.cons_append, hrow]
      simp
    rw [← hsplit]
    exact h
  rw [hchain.next_eq]
  cases rest with
  | nil => exact ⟨tail, rfl⟩
  | cons y ys => exact ⟨y, rfl⟩

theorem Linked.nodup_nodes (h : Linked next head tail m) : (nodes m).Nodup := by
  have hrow := h.nodup
  rw [List.nodup_cons, List.nodup_append] at hrow
  exact hrow.2.1

theorem Linked.head_notMem (h : Linked next head tail m) : head ∉ nodes m := by
  have hrow := h.nodup
  rw [List.nodup_cons] at hrow
  exact fun hmem ↦ hrow.1 (List.mem_append_left _ hmem)

/-- Different entries have different nodes. -/
theorem Linked.eq_of_node_eq {q : K × N × V} (h : Linked next head tail m) (hp : p ∈ m) (hq : q ∈ m)
    (heq : p.2.1 = q.2.1) : p = q :=
  List.inj_on_of_nodup_map h.nodup_nodes hp hq heq

/-- `x` is the last node in front of `back`, and the keys up to it are below `k`. -/
structure Cut (lt : K → K → Prop) (k : K) (head : N) (m : List (K × N × V)) (x : N)
    (front back : List (K × N × V)) : Prop where
  split : m = front ++ back
  below : ∀ p ∈ front, lt p.1 k
  last : ∃ passed, head :: nodes front = passed ++ [x]

/-- A search for `k` stands on `x` with `todo` entries in front of it. -/
def Position (lt : K → K → Prop) (k : K) (head : N) (m : List (K × N × V)) (x : N)
    (todo : ℕ) : Prop :=
  ∃ front back, Cut lt k head m x front back ∧ back.length = todo

/-- A search for `k` stands on `x` and goes no further: no key behind it is below `k`. -/
def Arrived (lt : K → K → Prop) (k : K) (head : N) (m : List (K × N × V)) (x : N) : Prop :=
  ∃ front back, Cut lt k head m x front back ∧ ∀ p ∈ back, ¬lt p.1 k

theorem Position.start : Position lt k head m head m.length :=
  ⟨[], m, ⟨rfl, by simp, ⟨[], rfl⟩⟩, rfl⟩

theorem Position.todo_le (h : Position lt k head m x todo) : todo ≤ m.length := by
  obtain ⟨front, back, hcut, rfl⟩ := h
  rw [hcut.split, List.length_append]
  exact Nat.le_add_left back.length front.length

/-- A search stands on the head or on a node with a smaller key. -/
theorem Position.head_or_mem (h : Position lt k head m x todo) :
    x = head ∨ ∃ p ∈ m, p.2.1 = x ∧ lt p.1 k := by
  obtain ⟨front, back, hcut, -⟩ := h
  obtain ⟨passed, hpassed⟩ := hcut.last
  have hx : x ∈ head :: nodes front := by simp [hpassed]
  rcases List.mem_cons.mp hx with hhead | hmem
  · exact Or.inl hhead
  · obtain ⟨p, hp, hpx⟩ := mem_nodes.mp hmem
    exact Or.inr ⟨p, by rw [hcut.split]; exact List.mem_append_left back hp, hpx, hcut.below p hp⟩

theorem Cut.mem_row (h : Cut lt k head m x front back) : x ∈ head :: nodes m := by
  obtain ⟨passed, hpassed⟩ := h.last
  have hx : x ∈ head :: nodes front := by simp [hpassed]
  rw [h.split, nodes_append, ← List.cons_append]
  exact List.mem_append_left _ hx

theorem Arrived.mem_row (h : Arrived lt k head m x) : x ∈ head :: nodes m := by
  obtain ⟨front, back, hcut, -⟩ := h
  exact hcut.mem_row

theorem Arrived.position (h : Arrived lt k head m x) : ∃ todo, Position lt k head m x todo := by
  obtain ⟨front, back, hcut, -⟩ := h
  exact ⟨back.length, front, back, hcut, rfl⟩

theorem Cut.row_eq (h : Cut lt k head m x front back) :
    ∃ passed, head :: (nodes m ++ [tail]) = passed ++ x :: (nodes back ++ [tail]) ∧
      head :: nodes front = passed ++ [x] := by
  obtain ⟨passed, hpassed⟩ := h.last
  refine ⟨passed, ?_, hpassed⟩
  calc head :: (nodes m ++ [tail])
      = (head :: nodes front) ++ (nodes back ++ [tail]) := by rw [h.split]; simp
    _ = passed ++ x :: (nodes back ++ [tail]) := by rw [hpassed]; simp

theorem Cut.next_eq (hcut : Cut lt k head m x front back) (hlinked : Linked next head tail m) :
    next x = (nodes back ++ [tail]).head? := by
  obtain ⟨passed, hrow, -⟩ := hcut.row_eq
  rw [Linked, hrow] at hlinked
  exact hlinked.next_eq

/-- Where a search can start again from a node with a smaller key. -/
theorem Position.of_mem [IsStrictWeakOrder K lt] (hsorted : Sorted lt m) (hp : p ∈ m)
    (hlt : lt p.1 k) : ∃ todo, Position lt k head m p.2.1 todo := by
  obtain ⟨front, back, rfl⟩ := List.append_of_mem hp
  refine ⟨back.length, front ++ [p], back, ⟨by simp, fun q hq ↦ ?_, ?_⟩, rfl⟩
  · rcases List.mem_append.mp hq with hq | hq
    · have hqp : lt q.1 p.1 := (List.pairwise_append.mp hsorted).2.2 q hq p List.mem_cons_self
      exact IsTrans.trans q.1 p.1 k hqp hlt
    · rw [List.mem_singleton.mp hq]
      exact hlt
  · exact ⟨head :: nodes front, by simp⟩

section Search

variable [DecidableRel lt] [IsStrictWeakOrder K lt]

theorem Arrived.find_eq_none (hsorted : Sorted lt m) (hcut : Cut lt k head m x front back)
    (hback : ∀ q, back.head? = some q → lt k q.1) :
    Arrived lt k head m x ∧ find lt k m = none := by
  have habove : ∀ q ∈ back, lt k q.1 := by
    rw [hcut.split] at hsorted
    have hsortedBack := (List.pairwise_append.mp hsorted).2.1
    cases back with
    | nil => simp
    | cons q qs =>
        intro r hr
        rcases List.mem_cons.mp hr with rfl | hr
        · exact hback r rfl
        · exact IsTrans.trans k q.1 r.1 (hback q rfl) ((List.pairwise_cons.mp hsortedBack).1 r hr)
  refine ⟨⟨front, back, hcut, fun q hq hqk ↦ not_lt_of_lt (habove q hq) hqk⟩, ?_⟩
  rw [hcut.split, find_append hcut.below, Option.eq_none_iff_forall_ne_some]
  intro q hq
  have hfound := mem_of_find_eq_some hq
  exact hfound.2.2 (habove q hfound.1)

/-- One step of a search along the links: it stands at the end of the map, or it sees the next
entry and how the key sought compares with that entry's. -/
theorem Position.advance (hsorted : Sorted lt m) (hlinked : Linked next head tail m)
    (h : Position lt k head m x todo) :
    (next x = some tail ∧ Arrived lt k head m x ∧ find lt k m = none) ∨
      ∃ p ∈ m, next x = some p.2.1 ∧
        (lt k p.1 → Arrived lt k head m x ∧ find lt k m = none) ∧
        (lt p.1 k → ∃ rest, rest + 1 = todo ∧ Position lt k head m p.2.1 rest) ∧
        (Same lt p.1 k → Arrived lt k head m x ∧ find lt k m = some p) := by
  obtain ⟨front, back, hcut, rfl⟩ := h
  have hnext := hcut.next_eq hlinked
  cases back with
  | nil => exact Or.inl ⟨hnext, Arrived.find_eq_none hsorted hcut (by simp)⟩
  | cons q qs =>
      have hq : q ∈ m := by rw [hcut.split]; simp
      refine Or.inr ⟨q, hq, hnext, fun hkq ↦ ?_, fun hqk ↦ ?_, fun hsame ↦ ?_⟩
      · refine Arrived.find_eq_none hsorted hcut fun r hr ↦ ?_
        obtain rfl : q = r := by simpa using hr
        exact hkq
      · obtain ⟨passed, hpassed⟩ := hcut.last
        refine ⟨qs.length, rfl, front ++ [q], qs,
          ⟨by rw [hcut.split]; simp, fun r hr ↦ ?_, ?_⟩, rfl⟩
        · rcases List.mem_append.mp hr with hr | hr
          · exact hcut.below r hr
          · rw [List.mem_singleton.mp hr]
            exact hqk
        · exact ⟨passed ++ [x], by rw [← hpassed]; simp⟩
      · refine ⟨⟨front, q :: qs, hcut, fun r hr hrk ↦ ?_⟩, hsorted.find_eq_some_iff.mpr ⟨hq, hsame⟩⟩
        rw [hcut.split] at hsorted
        have hsortedBack := (List.pairwise_append.mp hsorted).2.1
        rcases List.mem_cons.mp hr with rfl | hr
        · exact hsame.1 hrk
        · have hqr : lt q.1 r.1 := (List.pairwise_cons.mp hsortedBack).1 r hr
          exact hsame.1 (IsTrans.trans q.1 r.1 k hqr hrk)

end Search

/-! ## The last node below a key -/

/-- A search ends on the head or on the node with the greatest key below the one sought. -/
theorem Arrived.head_or_last [IsStrictWeakOrder K lt] (hsorted : Sorted lt m)
    (h : Arrived lt k head m x) : (x = head ∧ ∀ q ∈ m, ¬lt q.1 k) ∨
      ∃ p ∈ m, p.2.1 = x ∧ lt p.1 k ∧ ∀ q ∈ m, lt q.1 k → ¬lt p.1 q.1 := by
  obtain ⟨front, back, ⟨rfl, hbelow, passed, hpassed⟩, hback⟩ := h
  rcases List.eq_nil_or_concat front with rfl | ⟨init, p, rfl⟩
  · have hx : [head] = passed ++ [x] := by simpa using hpassed
    have hlast := congrArg List.getLast? hx
    refine Or.inl ⟨?_, by simpa using hback⟩
    simpa using hlast.symm
  · refine Or.inr ⟨p, by simp, ?_, hbelow p (by simp), fun q hq hqk hpq ↦ ?_⟩
    · have hlast : ((head :: nodes init) ++ [p.2.1]).getLast? = (passed ++ [x]).getLast? := by
        rw [← hpassed]
        simp
      rw [List.getLast?_concat, List.getLast?_concat] at hlast
      exact Option.some.inj hlast
    · rcases List.mem_append.mp hq with hq | hq
      · rw [List.concat_eq_append] at hq hsorted
        rcases List.mem_append.mp hq with hq | hq
        · have hqp : lt q.1 p.1 :=
            (List.pairwise_append.mp (List.pairwise_append.mp hsorted).1).2.2 q hq p (by simp)
          exact not_lt_of_lt hqp hpq
        · rw [List.mem_singleton.mp hq] at hpq
          exact Std.Irrefl.irrefl (r := lt) p.1 hpq
      · exact hback q hq hqk

theorem arrived_head (h : ∀ q ∈ m, ¬lt q.1 k) : Arrived lt k head m head :=
  ⟨[], m, ⟨rfl, by simp, ⟨[], rfl⟩⟩, h⟩

theorem arrived_last [IsStrictWeakOrder K lt] (hsorted : Sorted lt m) (hp : p ∈ m) (hlt : lt p.1 k)
    (hmax : ∀ q ∈ m, lt q.1 k → ¬lt p.1 q.1) : Arrived lt k head m p.2.1 := by
  obtain ⟨front, back, rfl⟩ := List.append_of_mem hp
  have hfront := (List.pairwise_append.mp hsorted).2.2
  have hback := (List.pairwise_cons.mp (List.pairwise_append.mp hsorted).2.1).1
  refine ⟨front ++ [p], back, ⟨by simp, fun q hq ↦ ?_, ⟨head :: nodes front, by simp⟩⟩,
    fun q hq hqk ↦ ?_⟩
  · rcases List.mem_append.mp hq with hq | hq
    · exact IsTrans.trans q.1 p.1 k (hfront q hq p List.mem_cons_self) hlt
    · rw [List.mem_singleton.mp hq]
      exact hlt
  · exact hmax q (by simp [hq]) hqk (hback q hq)

/-! ## Edits behind the place of a key -/

section Edit

variable [DecidableRel lt]

theorem Arrived.ne (hlinked : Linked next head tail m) (h : Arrived lt k head m x)
    (hfind : find lt k m = some p) : x ≠ p.2.1 := by
  obtain ⟨front, back, hcut, hback⟩ := h
  obtain ⟨passed, hrow, -⟩ := hcut.row_eq
  rw [hcut.split, find_append hcut.below] at hfind
  obtain ⟨rest, rfl, -, -⟩ := cons_of_find_eq_some hback hfind
  have hnodup := hlinked.nodup
  rw [hrow, List.nodup_append, List.nodup_cons] at hnodup
  intro heq
  exact hnodup.2.1.1 (by simp [heq])

/-- Splicing a new node in behind the place of its key inserts it into the map. -/
theorem Linked.splice {v : V} (hlinked : Linked next head tail m) (h : Arrived lt k head m x)
    (hfind : find lt k m = none) (hnew : y ∉ head :: (nodes m ++ [tail])) (hx : next' x = some y)
    (hy : next' y = next x) (hsame : ∀ z, z ≠ x → z ≠ y → next' z = next z) :
    Linked next' head tail (insert lt k (y, v) m) := by
  obtain ⟨front, back, hcut, hback⟩ := h
  obtain ⟨passed, hrow, hpassed⟩ := hcut.row_eq
  rw [hcut.split, find_append hcut.below] at hfind
  have hinsert : insert lt k (y, v) m = front ++ (k, y, v) :: back := by
    rw [hcut.split, insert_append hcut.below, (cons_of_find_eq_none hback hfind).1]
  have hrow' : head :: (nodes (front ++ (k, y, v) :: back) ++ [tail]) =
      passed ++ x :: y :: (nodes back ++ [tail]) := by
    calc head :: (nodes (front ++ (k, y, v) :: back) ++ [tail])
        = (head :: nodes front) ++ y :: (nodes back ++ [tail]) := by simp
      _ = passed ++ x :: y :: (nodes back ++ [tail]) := by rw [hpassed]; simp
  rw [Linked, hinsert, hrow']
  rw [Linked, hrow] at hlinked
  rw [hrow] at hnew
  exact hlinked.splice hnew hx hy hsame

/-- Skipping the node behind the place of a key removes its entry from the map. -/
theorem Linked.skip (hlinked : Linked next head tail m) (h : Arrived lt k head m x)
    (hfind : find lt k m = some p) (hx : next' x = next p.2.1)
    (hsame : ∀ z, z ≠ x → z ≠ p.2.1 → next' z = next z) :
    Linked next' head tail (erase lt k m) := by
  obtain ⟨front, back, hcut, hback⟩ := h
  obtain ⟨passed, hrow, hpassed⟩ := hcut.row_eq
  rw [hcut.split, find_append hcut.below] at hfind
  obtain ⟨rest, rfl, -, hrest⟩ := cons_of_find_eq_some hback hfind
  have herase : erase lt k m = front ++ rest := by
    rw [hcut.split, erase_append hcut.below, hrest]
  have hrow' : head :: (nodes (front ++ rest) ++ [tail]) = passed ++
      x :: (nodes rest ++ [tail]) := by
    calc head :: (nodes (front ++ rest) ++ [tail])
        = (head :: nodes front) ++ (nodes rest ++ [tail]) := by simp
      _ = passed ++ x :: (nodes rest ++ [tail]) := by rw [hpassed]; simp
  rw [Linked, herase, hrow']
  rw [Linked, hrow, nodes_cons, List.cons_append] at hlinked
  exact hlinked.skip hx hsame

/-- Storing another value in the node of an entry. -/
theorem nodes_insert_of_find_eq_some [IsStrictWeakOrder K lt] {v : V} (hsorted : Sorted lt m)
    (hfind : find lt k m = some p) : nodes (insert lt k (p.2.1, v) m) = nodes m := by
  obtain ⟨front, back, rfl, hfront, hback⟩ := exists_place lt k hsorted
  rw [find_append hfront] at hfind
  obtain ⟨rest, rfl, hinsert, -⟩ := cons_of_find_eq_some hback hfind
  rw [insert_append hfront, hinsert]
  simp

end Edit

end CppMtHw.Machine
