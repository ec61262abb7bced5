import Mathlib.Data.Finset.Card
import Mathlib.Data.List.Basic
import Mathlib.Data.List.Nodup
import Mathlib.Data.List.Perm.Subperm
import Mathlib.Logic.Relation

/-!
# Intrusive doubly linked lists

The nodes of an intrusive list carry their own links, given here as two partial
functions. `Chain` says which nodes a walk along the forward links meets, and
`BackLinked` what every backward link may hold, relative to the node in front of it.
Both are stated for arbitrary link functions, so an edit of the structure that
carries them only has to say where the links changed.
-/

namespace CppMtHw.Machine

variable {N : Type*} {next next' prev prev' : N → Option N} {first first' : Option N}
  {ok : Option N → Option N → Prop}

/-- The walk along `next` from `first` meets exactly these nodes and then ends. -/
def Chain (next : N → Option N) : Option N → List N → Prop
  | first, [] => first = none
  | first, x :: xs => first = some x ∧ Chain next (next x) xs

/-- Every backward link is acceptable, given the node in front of it. -/
def BackLinked (ok : Option N → Option N → Prop) (prev : N → Option N) : Option N → List N → Prop
  | _, [] => True
  | before, x :: xs => ok (prev x) before ∧ BackLinked ok prev (some x) xs

@[simp] theorem chain_nil : Chain next first [] ↔ first = none := Iff.rfl

@[simp] theorem chain_cons {x : N} {xs : List N} :
    Chain next first (x :: xs) ↔ first = some x ∧ Chain next (next x) xs := Iff.rfl

@[simp] theorem backLinked_nil : BackLinked ok prev first [] ↔ True := Iff.rfl

@[simp] theorem backLinked_cons {x : N} {xs : List N} :
    BackLinked ok prev first (x :: xs) ↔ ok (prev x) first ∧ BackLinked ok prev (some x) xs :=
  Iff.rfl

theorem Chain.congr {l : List N} (h : Chain next first l) (hsame : ∀ x ∈ l, next' x = next x) :
    Chain next' first l := by
  induction l generalizing first with
  | nil => exact h
  | cons x xs ih =>
      obtain ⟨hfirst, hrest⟩ := h
      refine ⟨hfirst, ?_⟩
      rw [hsame x List.mem_cons_self]
      exact ih hrest fun y hy ↦ hsame y (List.mem_cons_of_mem x hy)

theorem BackLinked.congr {l : List N} (h : BackLinked ok prev first l)
    (hsame : ∀ x ∈ l, prev' x = prev x) : BackLinked ok prev' first l := by
  induction l generalizing first with
  | nil => trivial
  | cons x xs ih =>
      obtain ⟨hx, hrest⟩ := h
      refine ⟨?_, ih hrest fun y hy ↦ hsame y (List.mem_cons_of_mem x hy)⟩
      rw [hsame x List.mem_cons_self]
      exact hx

/-- The forward links determine the list. -/
theorem Chain.unique {l l' : List N} (h : Chain next first l) (h' : Chain next first l') :
    l = l' := by
  induction l generalizing first l' with
  | nil =>
      cases l' with
      | nil => rfl
      | cons x xs => simp_all
  | cons x xs ih =>
      cases l' with
      | nil => simp_all
      | cons y ys =>
          obtain ⟨hx, hxs⟩ := h
          obtain ⟨hy, hys⟩ := h'
          obtain rfl : x = y := Option.some.inj (hx.symm.trans hy)
          rw [ih hxs hys]

/-- From each of its nodes on, a walk is a walk. -/
theorem Chain.suffix {front back : List N} {x : N} (h : Chain next first (front ++ x :: back)) :
    Chain next (some x) (x :: back) := by
  induction front generalizing first with
  | nil => exact ⟨rfl, h.2⟩
  | cons z zs ih => exact ih h.2

/-- A walk that ends meets no node twice: it would go on the same way both times. -/
theorem Chain.nodup {l : List N} (h : Chain next first l) : l.Nodup := by
  induction l generalizing first with
  | nil => exact List.nodup_nil
  | cons x xs ih =>
      rw [List.nodup_cons]
      refine ⟨fun hmem ↦ ?_, ih h.2⟩
      obtain ⟨front, back, rfl⟩ := List.append_of_mem hmem
      have hfirst : Chain next (some x) (x :: (front ++ x :: back)) := ⟨rfl, h.2⟩
      have hagain : Chain next (some x) (x :: back) := Chain.suffix h.2
      have hlength := congrArg List.length (hfirst.unique hagain)
      simp at hlength
      omega

/-- The forward link of a node is the head of what follows it. -/
theorem Chain.next_eq {front back : List N} {x : N} (h : Chain next first (front ++ x :: back)) :
    next x = back.head? := by
  induction front generalizing first with
  | nil =>
      cases back with
      | nil => exact h.2
      | cons y ys => exact h.2.1
  | cons z zs ih => exact ih h.2

/-- A walk with a last node goes on behind every other one, which it does not meet again. -/
theorem Chain.advance {xs : List N} {x last : N} (h : Chain next first (x :: (xs ++ [last]))) :
    first = some x ∧ x ∉ xs ++ [last] ∧ ∃ y, next x = some y ∧
      Chain next (some y) (xs ++ [last]) := by
  have hnotMem : x ∉ xs ++ [last] := (List.nodup_cons.mp h.nodup).1
  obtain ⟨hfirst, hrest⟩ := h
  obtain ⟨y, hy⟩ : ∃ y, next x = some y := by
    cases xs with
    | nil => exact ⟨last, hrest.1⟩
    | cons z zs => exact ⟨z, hrest.1⟩
  exact ⟨hfirst, hnotMem, y, hy, hy ▸ hrest⟩

/-- A walk does not leave its nodes. -/
theorem Chain.next_mem {l : List N} {x y : N} (h : Chain next first l) (hx : x ∈ l)
    (hnext : next x = some y) : y ∈ l := by
  obtain ⟨front, back, rfl⟩ := List.append_of_mem hx
  have hhead : back.head? = some y := h.next_eq.symm.trans hnext
  exact List.mem_append_right _ (List.mem_cons_of_mem x (List.mem_of_head? hhead))

/-- The forward links lead from the first node of a walk to all of them. -/
theorem Chain.reaches {l : List N} {x y : N} (h : Chain next (some x) l) (hy : y ∈ l) :
    Relation.ReflTransGen (fun a b ↦ next a = some b) x y := by
  induction l generalizing x with
  | nil => exact absurd hy List.not_mem_nil
  | cons z zs ih =>
      obtain ⟨hxz, hrest⟩ := h
      obtain rfl := Option.some.inj hxz
      rcases List.mem_cons.mp hy with rfl | hy
      · exact Relation.ReflTransGen.refl
      · obtain ⟨n, hn⟩ : ∃ n, next x = some n := by
          cases zs with
          | nil => exact absurd hy List.not_mem_nil
          | cons w ws => exact ⟨w, hrest.1⟩
        rw [hn] at hrest
        exact Relation.ReflTransGen.head hn (ih hrest hy)

/-- Among finitely many nodes a walk along links without cycles ends. -/
theorem exists_chain_of_acyclic {nodes : Finset N}
    (hacyclic : ∀ x, ¬Relation.TransGen (fun a b ↦ next a = some b) x x)
    (hnodes : ∀ x y, next x = some y → y ∈ nodes) (first : Option N) : ∃ l, Chain next first l := by
  classical
  -- fewer nodes can be reached from the node that comes next
  have hwalk : ∀ n x, (nodes.filter (Relation.TransGen (fun a b ↦ next a = some b) x)).card = n →
      ∃ l, Chain next (some x) l := by
    intro n
    induction n using Nat.strong_induction_on with
    | h n ih =>
        intro x hn
        cases hx : next x with
        | none => exact ⟨[x], rfl, hx⟩
        | some y =>
            have hsubset : nodes.filter (Relation.TransGen (fun a b ↦ next a = some b) y) ⊂
                nodes.filter (Relation.TransGen (fun a b ↦ next a = some b) x) := by
              apply Finset.ssubset_iff_subset_ne.mpr
              constructor
              · intro z hz
                obtain ⟨hz, hyz⟩ := Finset.mem_filter.mp hz
                exact Finset.mem_filter.mpr ⟨hz, Relation.TransGen.head hx hyz⟩
              · intro heq
                have hy : y ∈ nodes.filter (Relation.TransGen (fun a b ↦ next a = some b) x) :=
                  Finset.mem_filter.mpr ⟨hnodes x y hx, Relation.TransGen.single hx⟩
                rw [← heq] at hy
                exact hacyclic y (Finset.mem_filter.mp hy).2
            obtain ⟨l, hl⟩ := ih _ (hn ▸ Finset.card_lt_card hsubset) y rfl
            exact ⟨x :: l, rfl, hx ▸ hl⟩
  cases first with
  | none => exact ⟨[], rfl⟩
  | some x => exact hwalk _ x rfl

/-- The backward link of a node is acceptable for the last node in front of it. -/
theorem BackLinked.prev_ok {front back : List N} {x : N}
    (h : BackLinked ok prev first (front ++ x :: back)) :
    ok (prev x) (front.getLast?.or first) := by
  induction front generalizing first with
  | nil => exact h.1
  | cons z zs ih =>
      have hx := ih h.2
      cases zs with
      | nil => exact hx
      | cons w ws =>
          rw [List.getLast?_cons_cons]
          rwa [List.getLast?_eq_some_getLast (List.cons_ne_nil w ws)] at hx ⊢

/-- Nodes that the walk does not leave again are its last ones. -/
theorem Chain.exists_append_of_closed {l : List N} {q : N → Prop} (h : Chain next first l)
    (hclosed : ∀ x ∈ l, q x → ∀ y, next x = some y → q y) :
    ∃ front back, l = front ++ back ∧ (∀ x ∈ front, ¬q x) ∧ ∀ x ∈ back, q x := by
  induction l generalizing first with
  | nil => exact ⟨[], [], rfl, by simp, by simp⟩
  | cons x xs ih =>
      obtain ⟨front, back, hxs, hfront, hback⟩ :=
        ih h.2 fun y hy ↦ hclosed y (List.mem_cons_of_mem x hy)
      by_cases hx : q x
      · refine ⟨[], x :: xs, rfl, by simp, fun y hy ↦ ?_⟩
        have hempty : front = [] := by
          cases front with
          | nil => rfl
          | cons z zs =>
              rw [hxs] at h
              exact absurd (hclosed x List.mem_cons_self hx z h.2.1) (hfront z List.mem_cons_self)
        rw [hempty, List.nil_append] at hxs
        rcases List.mem_cons.mp hy with rfl | hy
        · exact hx
        · exact hback y (hxs ▸ hy)
      · refine ⟨x :: front, back, by rw [hxs]; rfl, fun y hy ↦ ?_, hback⟩
        rcases List.mem_cons.mp hy with rfl | hy
        · exact hx
        · exact hfront y hy

theorem BackLinked.of_append {front back : List N} (h : BackLinked ok prev first (front ++ back)) :
    BackLinked ok prev first front := by
  induction front generalizing first with
  | nil => trivial
  | cons x xs ih => exact ⟨h.1, ih h.2⟩

/-- Exact backward links lead to nodes of the list. -/
theorem BackLinked.prev_mem {l : List N} {x y : N} (h : BackLinked Eq prev (some y) l)
    (hx : x ∈ l) : ∃ z ∈ y :: l, prev x = some z := by
  induction l generalizing y with
  | nil => cases hx
  | cons w ws ih =>
      rcases List.mem_cons.mp hx with rfl | hx
      · exact ⟨y, List.mem_cons_self, h.1⟩
      · obtain ⟨z, hz, hprev⟩ := ih h.2 hx
        exact ⟨z, List.mem_cons_of_mem y hz, hprev⟩

/-- Unlinking `x`: the link that led to `x` skips it. -/
theorem Chain.unlink {front back : List N} {x : N} (h : Chain next first (front ++ x :: back))
    (hfirst : first' = if front = [] then next x else first)
    (hlast : ∀ y, front.getLast? = some y → next' y = next x)
    (hsame : ∀ y ∈ front ++ back, front.getLast? ≠ some y → next' y = next y)
    (hnodup : (front ++ x :: back).Nodup) : Chain next' first' (front ++ back) := by
  induction front generalizing first first' with
  | nil =>
      simp only [if_true] at hfirst
      subst hfirst
      exact Chain.congr h.2 fun y hy ↦ hsame y hy (by simp)
  | cons z zs ih =>
      rw [if_neg (List.cons_ne_nil z zs)] at hfirst
      subst hfirst
      obtain ⟨hz, hrest⟩ := h
      refine ⟨hz, ?_⟩
      rw [List.cons_append, List.nodup_cons] at hnodup
      cases zs with
      | nil =>
          have hnext : next z = some x := hrest.1
          have hnotin : ∀ y ∈ back, y ≠ z := fun y hy hyz ↦
            hnodup.1 (by rw [← hyz]; simp [hy])
          rw [hlast z rfl]
          exact Chain.congr hrest.2 fun y hy ↦
            hsame y (List.mem_cons_of_mem z hy) (by simpa using (hnotin y hy).symm)
      | cons w ws =>
          have hzne : (z :: w :: ws).getLast? ≠ some z := by
            rw [List.getLast?_cons_cons]
            intro hlastz
            exact hnodup.1 (List.mem_append_left _ (List.mem_of_getLast? hlastz))
          rw [hsame z (by simp) hzne]
          refine ih hrest (by simp) (fun y hy ↦ hlast y ?_) (fun y hy hne ↦ hsame y ?_ ?_) hnodup.2
          · rwa [List.getLast?_cons_cons]
          · exact List.mem_cons_of_mem z hy
          · rwa [List.getLast?_cons_cons]

/-- Splicing `y` in behind `x`. -/
theorem Chain.splice {front back : List N} {x y : N} (h : Chain next first (front ++ x :: back))
    (hy : y ∉ front ++ x :: back) (hx : next' x = some y) (hlink : next' y = next x)
    (hsame : ∀ z, z ≠ x → z ≠ y → next' z = next z) :
    Chain next' first (front ++ x :: y :: back) := by
  have hnodup := h.nodup
  have hback : ∀ z ∈ back, z ≠ x ∧ z ≠ y := by
    intro z hz
    have hzx : z ≠ x := fun hzx ↦ by
      rw [List.nodup_append, List.nodup_cons] at hnodup
      exact hnodup.2.1.1 (hzx ▸ hz)
    exact ⟨hzx, fun hzy ↦ hy (by simp [← hzy, hz])⟩
  clear hnodup
  induction front generalizing first with
  | nil =>
      obtain ⟨hfirst, hrest⟩ := h
      refine ⟨hfirst, hx, ?_⟩
      rw [hlink]
      exact hrest.congr fun z hz ↦ hsame z (hback z hz).1 (hback z hz).2
  | cons w ws ih =>
      have hw : w ≠ x := fun hw ↦ by
        have hnodup := h.nodup
        rw [List.cons_append, List.nodup_cons] at hnodup
        exact hnodup.1 (by simp [hw])
      have hwy : w ≠ y := fun hwy ↦ hy (by simp [hwy])
      refine ⟨h.1, ?_⟩
      rw [hsame w hw hwy]
      exact ih h.2 fun hmem ↦ hy (List.mem_cons_of_mem w hmem)

/-- Skipping the node `y` behind `x`. -/
theorem Chain.skip {front back : List N} {x y : N} (h : Chain next first (front ++ x :: y :: back))
    (hx : next' x = next y) (hsame : ∀ z, z ≠ x → z ≠ y → next' z = next z) :
    Chain next' first (front ++ x :: back) := by
  have hnodup := h.nodup
  have hsplit : front ++ x :: y :: back = (front ++ [x]) ++ y :: back := by simp
  rw [hsplit] at h hnodup
  have hback : x ∉ back := fun hmem ↦ by
    rw [List.nodup_append] at hnodup
    exact hnodup.2.2 x (by simp) x (List.mem_cons_of_mem y hmem) rfl
  have hy : ∀ z ∈ front ++ [x] ++ back, z ≠ y := fun z hz hzy ↦ by
    have hmiddle := List.nodup_middle.mp hnodup
    exact (List.nodup_cons.mp hmiddle).1 (hzy ▸ hz)
  have hunlinked : Chain next' first ((front ++ [x]) ++ back) := by
    refine h.unlink (by simp) (fun z hz ↦ ?_) (fun z hz hlast ↦ ?_) hnodup
    · obtain rfl : x = z := by simpa using hz
      exact hx
    · exact hsame z (fun hzx ↦ hlast (by simp [hzx])) (hy z hz)
  simpa using hunlinked

/-- Unlinking `x` replaces the backward link of the node behind it. -/
theorem BackLinked.unlink {front back : List N} {x : N}
    (h : BackLinked ok prev first (front ++ x :: back)) (link : Option N)
    (hlink : ∀ before, ok (prev x) before → ok link before)
    (hhead : ∀ y, back.head? = some y → prev' y = link)
    (hsame : ∀ y ∈ front ++ back, back.head? ≠ some y → prev' y = prev y)
    (hnodup : (front ++ x :: back).Nodup) : BackLinked ok prev' first (front ++ back) := by
  induction front generalizing first with
  | nil =>
      obtain ⟨hx, hrest⟩ := h
      cases back with
      | nil => trivial
      | cons y ys =>
          refine ⟨by rw [hhead y rfl]; exact hlink _ hx, hrest.2.congr fun z hz ↦ ?_⟩
          refine hsame z (by simp [hz]) ?_
          rw [List.nil_append, List.nodup_cons, List.nodup_cons] at hnodup
          simp only [List.head?_cons, ne_eq, Option.some.injEq]
          rintro rfl
          exact hnodup.2.1 hz
  | cons z zs ih =>
      obtain ⟨hz, hrest⟩ := h
      rw [List.cons_append, List.nodup_cons] at hnodup
      refine ⟨?_, ih hrest (fun y hy hne ↦ hsame y (List.mem_cons_of_mem z hy) hne) hnodup.2⟩
      rw [hsame z (by simp) fun hzhead ↦ hnodup.1 ?_]
      · exact hz
      · exact List.mem_append_right _ (List.mem_cons_of_mem x (List.mem_of_mem_head? hzhead))

/-! ## Walks that may not end -/

/-- The walk along `next` from `first` begins with these nodes. -/
def Walk (next : N → Option N) : Option N → List N → Prop
  | _, [] => True
  | first, x :: xs => first = some x ∧ Walk next (next x) xs

theorem Walk.suffix {front back : List N} {x : N} (h : Walk next first (front ++ x :: back)) :
    Walk next (some x) (x :: back) := by
  induction front generalizing first with
  | nil => exact ⟨rfl, h.2⟩
  | cons z zs ih => exact ih h.2

theorem Chain.walk {front back : List N} {x : N} (h : Chain next first (front ++ x :: back)) :
    Walk next first (front ++ [x]) := by
  induction front generalizing first with
  | nil => exact ⟨h.1, trivial⟩
  | cons z zs ih => exact ⟨h.1, ih h.2⟩

/-- Of two walks from one node the longer one begins with the other. -/
theorem Walk.eq_take {l l' : List N} (h : Walk next first l) (h' : Walk next first l')
    (hle : l.length ≤ l'.length) : l = l'.take l.length := by
  induction l generalizing first l' with
  | nil => rfl
  | cons x xs ih =>
      cases l' with
      | nil => cases hle
      | cons y ys =>
          obtain rfl := Option.some.inj (h.1.symm.trans h'.1)
          rw [List.length_cons, List.take_succ_cons, ← ih h.2 h'.2 (Nat.le_of_succ_le_succ hle)]

/-- Up to the first time that the walk comes to a node it meets no node twice. -/
theorem Walk.nodup {front : List N} {y : N} (h : Walk next first (front ++ [y])) (hy : y ∉ front) :
    (front ++ [y]).Nodup := by
  induction front generalizing first with
  | nil => exact List.nodup_singleton y
  | cons x xs ih =>
      rw [List.mem_cons, not_or] at hy
      refine List.nodup_cons.mpr ⟨fun hmem ↦ ?_, ih h.2 hy.2⟩
      have hx : x ∈ xs := by
        rcases List.mem_append.mp hmem with hmem | hmem
        · exact hmem
        · exact absurd (List.mem_singleton.mp hmem).symm hy.1
      obtain ⟨front, back, rfl⟩ := List.append_of_mem hx
      -- behind the second `x` the walk goes on as behind the first
      have hrest : Walk next (next x) (front ++ x :: back ++ [y]) := h.2
      have hlong : Walk next (some x) (x :: (front ++ x :: back) ++ [y]) := ⟨rfl, hrest⟩
      rw [List.append_assoc, List.cons_append] at hrest
      have hshort : Walk next (some x) (x :: back ++ [y]) := hrest.suffix
      have heq := hshort.eq_take hlong (by simp; omega)
      have hlen : (x :: back ++ [y]).length ≤ (x :: (front ++ x :: back)).length := by simp
      have hlast : y ∈ (x :: (front ++ x :: back) ++ [y]).take (x :: back ++ [y]).length := by
        rw [← heq]
        simp
      rw [List.take_append_of_le_length hlen] at hlast
      rcases List.mem_cons.mp (List.mem_of_mem_take hlast) with hfirst | hafter
      · exact hy.1 hfirst
      · exact hy.2 hafter

/-- On the way to a node with a property there is a first one. -/
theorem Walk.exists_first {front : List N} {y : N} {q : N → Prop}
    (h : Walk next first (front ++ [y])) (hy : q y) :
    ∃ before x, Walk next first (before ++ [x]) ∧ (∀ z ∈ before, ¬q z) ∧ q x := by
  induction front generalizing first with
  | nil => exact ⟨[], y, h, by simp, hy⟩
  | cons w ws ih =>
      by_cases hw : q w
      · exact ⟨[], w, ⟨h.1, trivial⟩, by simp, hw⟩
      · obtain ⟨before, x, hwalk, hbefore, hx⟩ := ih h.2
        refine ⟨w :: before, x, ⟨h.1, hwalk⟩, fun z hz ↦ ?_, hx⟩
        rcases List.mem_cons.mp hz with rfl | hz
        · exact hw
        · exact hbefore z hz

end CppMtHw.Machine
