import CppMtHw.Coroutines.Context

/-!
# The list of alive contexts

`alive` heads a doubly linked list of exactly the registered contexts. Registration
puts a context in front of it, completion takes any element out of it, and an
assignment to a field other than the links does not touch it.
-/

namespace CppMtHw.Coroutines

open Machine

variable {Lock : Type} {e : Engine Lock} {l : List Ctx} {c : Ctx} {x : Context Lock}

namespace Engine

def nextOf (e : Engine Lock) (c : Ctx) : Option Ctx := (e.context c).bind Context.next

def prevOf (e : Engine Lock) (c : Ctx) : Option Ctx := (e.context c).bind Context.prev

/-- The alive list is well formed and its elements are the registered contexts. -/
structure Listed (e : Engine Lock) (l : List Ctx) : Prop where
  chain : Chain e.nextOf e.alive l
  back : BackLinked Eq e.prevOf none l
  nodup : l.Nodup
  mem : ∀ c, c ∈ l ↔ e.context c ≠ none
  bound : ∀ c ∈ l, c < e.created

/-- The result of assigning through a pointer that is null or points to a registered context. -/
def mapAt (e : Engine Lock) (c : Option Ctx) (f : Context Lock → Context Lock) : Engine Lock :=
  { e with context := fun c' ↦ if c = some c' then (e.context c').map f else e.context c' }

theorem get_eq (h : e.context c = some x) : e.get c = .ok x := by
  simp only [get, h]

theorem modifyOpt_eq {c : Option Ctx} {f : Context Lock → Context Lock}
    (h : ∀ c', c = some c' → e.context c' ≠ none) : e.modifyOpt c f = .ok (e.mapAt c f) := by
  cases c with
  | none => simp [modifyOpt, mapAt]
  | some c =>
      obtain ⟨x, hx⟩ := Option.ne_none_iff_exists'.mp (h c rfl)
      simp only [modifyOpt, modify, get_eq hx, put, mapAt]
      show Except.ok _ = Except.ok _
      congr 2
      funext c'
      by_cases hc : c' = c
      · subst hc
        simp [hx]
      · simp [hc, Ne.symm hc]

theorem mapAt_context_ne_none {c' : Option Ctx} {f : Context Lock → Context Lock} :
    (e.mapAt c' f).context c ≠ none ↔ e.context c ≠ none := by
  simp only [mapAt]
  split <;> simp

theorem mapAt_context_of_ne {c' : Option Ctx} {f : Context Lock → Context Lock}
    (h : c' ≠ some c) : (e.mapAt c' f).context c = e.context c := if_neg h

/-- A field that the assignment leaves alone. -/
theorem mapAt_bind {α : Type} {c' : Option Ctx} {f : Context Lock → Context Lock}
    {field : Context Lock → Option α} (h : ∀ x, field (f x) = field x) :
    ((e.mapAt c' f).context c).bind field = (e.context c).bind field := by
  simp only [mapAt]
  split
  · cases e.context c <;> simp [h]
  · rfl

/-- A field of a context after an assignment that leaves it alone. -/
theorem mapAt_some {α : Type} (field : Context Lock → α) {c' : Option Ctx}
    {f : Context Lock → Context Lock} {y : Context Lock}
    (hy : (e.mapAt c' f).context c = some y) (hfield : ∀ x, field (f x) = field x) :
    ∃ x, e.context c = some x ∧ field y = field x := by
  simp only [mapAt] at hy
  split at hy
  · obtain ⟨x, hx, rfl⟩ := Option.map_eq_some_iff.mp hy
    exact ⟨x, hx, hfield x⟩
  · exact ⟨y, hy, rfl⟩

theorem Listed.context_isSome (h : e.Listed l) (hc : c ∈ l) : ∃ x, e.context c = some x :=
  Option.ne_none_iff_exists'.mp ((h.mem c).mp hc)

theorem Listed.length_le (h : e.Listed l) : l.length ≤ e.created := by
  have hsub : l ⊆ List.range e.created := fun c hc ↦ List.mem_range.mpr (h.bound c hc)
  simpa using (h.nodup.subperm hsub).length_le

/-- Assignments that leave the links alone keep the list. -/
theorem Listed.mapAt (h : e.Listed l) (c' : Option Ctx) (f : Context Lock → Context Lock)
    (hnext : ∀ x, (f x).next = x.next) (hprev : ∀ x, (f x).prev = x.prev) :
    (e.mapAt c' f).Listed l where
  chain := h.chain.congr fun _ _ ↦ mapAt_bind hnext
  back := h.back.congr fun _ _ ↦ mapAt_bind hprev
  nodup := h.nodup
  mem c := (h.mem c).trans mapAt_context_ne_none.symm
  bound := h.bound

/-- The list does not depend on who is running. -/
theorem Listed.setCurrent (h : e.Listed l) (cur : Option Ctx) :
    { e with curRoutine := cur }.Listed l := ⟨h.chain, h.back, h.nodup, h.mem, h.bound⟩

theorem listed_empty : (empty : Engine Lock).Listed [] where
  chain := rfl
  back := trivial
  nodup := List.nodup_nil
  mem c := by simp [empty]
  bound := by simp

/-! ## Registration -/

def registered (e : Engine Lock) (unlocked : Lock) : Engine Lock where
  context c :=
    if c = e.created then
      some { caller := e.curRoutine, callee := none, prev := none, next := e.alive,
             locked := unlocked }
    else if e.alive = some c then (e.context c).map fun y ↦ { y with prev := some e.created }
    else e.context c
  created := e.created + 1
  curRoutine := e.curRoutine
  alive := some e.created

theorem Listed.fresh (h : e.Listed l) : e.context e.created = none := by
  by_contra hne
  exact Nat.lt_irrefl _ (h.bound _ ((h.mem _).mpr hne))

theorem Listed.alive_mem (h : e.Listed l) (hc : e.alive = some c) : c ∈ l := by
  have hchain := h.chain
  cases l with
  | nil => rw [chain_nil, hc] at hchain; cases hchain
  | cons a as =>
      rw [chain_cons, hc] at hchain
      rw [Option.some.inj hchain.1]
      exact List.mem_cons_self

theorem Listed.run_eq (h : e.Listed l) (unlocked : Lock) :
    e.run unlocked = .ok (e.created, e.registered unlocked) := by
  simp only [run]
  rw [modifyOpt_eq]
  · show Except.ok _ = Except.ok _
    congr 2
    simp only [registered, Engine.mapAt, put, Engine.mk.injEq, and_true]
    funext c
    by_cases hc : c = e.created
    · subst hc
      have hne : e.alive ≠ some e.created := fun halive ↦
        Nat.lt_irrefl _ (h.bound _ (h.alive_mem halive))
      simp [hne]
    · simp [hc]
  · intro c hc
    have hmem := h.alive_mem hc
    have hne : c ≠ e.created := Nat.ne_of_lt (h.bound c hmem)
    simp only [put, Function.update_of_ne hne]
    exact (h.mem c).mp hmem

theorem Listed.registered (h : e.Listed l) (unlocked : Lock) :
    (e.registered unlocked).Listed (e.created :: l) := by
  have hnotin : e.created ∉ l := fun hmem ↦ Nat.lt_irrefl _ (h.bound _ hmem)
  have hne : ∀ c ∈ l, c ≠ e.created := fun c hc hce ↦ hnotin (hce ▸ hc)
  have hnext : ∀ c ∈ l, (e.registered unlocked).nextOf c = e.nextOf c := by
    intro c hc
    simp only [nextOf, Engine.registered, if_neg (hne c hc)]
    split
    · cases e.context c <;> rfl
    · rfl
  refine ⟨⟨rfl, ?_⟩, ⟨?_, ?_⟩, List.nodup_cons.mpr ⟨hnotin, h.nodup⟩, ?_, ?_⟩
  · simp only [nextOf, Engine.registered, if_true, Option.bind_some]
    exact h.chain.congr hnext
  · simp [prevOf, Engine.registered]
  · -- only the old head gets a new backward link
    have hback := h.back
    have hchain := h.chain
    cases l with
    | nil => trivial
    | cons a as =>
        obtain ⟨-, hrest⟩ := hback
        rw [chain_cons] at hchain
        obtain ⟨x, hx⟩ := h.context_isSome (c := a) List.mem_cons_self
        refine ⟨?_, hrest.congr fun c hc ↦ ?_⟩
        · simp [prevOf, Engine.registered, hne a List.mem_cons_self, hchain.1, hx]
        · have hca : a ≠ c := fun hac ↦ (List.nodup_cons.mp h.nodup).1 (hac ▸ hc)
          simp [prevOf, Engine.registered, hne c (List.mem_cons_of_mem a hc), hchain.1, hca]
  · intro c
    simp only [List.mem_cons, Engine.registered, h.mem]
    by_cases hc : c = e.created
    · simp [hc]
    · simp only [hc, false_or, if_false]
      split <;> simp
  · intro c hc
    rcases List.mem_cons.mp hc with rfl | hmem
    · exact Nat.lt_succ_self _
    · exact Nat.lt_succ_of_lt (h.bound c hmem)

/-! ## Completion -/

/-- The engine after the completion of `pc`, whose context was `x`. -/
def completed (e : Engine Lock) (pc : Ctx) (x : Context Lock) : Engine Lock where
  context c :=
    if c = pc then none
    else (((e.mapAt x.prev fun y ↦ { y with next := x.next }).mapAt x.next
      fun y ↦ { y with prev := x.prev }).mapAt x.caller fun y ↦ { y with callee := none }).context c
  created := e.created
  curRoutine := none
  alive := if e.alive = some pc then x.next else e.alive

/-- The links of an element are its neighbours. -/
theorem Listed.links {front back : List Ctx} {pc : Ctx} (h : e.Listed (front ++ pc :: back))
    (hx : e.context pc = some x) : x.prev = front.getLast? ∧ x.next = back.head? := by
  have hprev := h.back.prev_ok
  have hnext := h.chain.next_eq
  simp only [prevOf, nextOf, hx, Option.bind_some, Option.or_none] at hprev hnext
  exact ⟨hprev, hnext⟩

theorem Listed.links_ne {front back : List Ctx} {pc : Ctx} (h : e.Listed (front ++ pc :: back))
    (hx : e.context pc = some x) : x.prev ≠ some pc ∧ x.next ≠ some pc := by
  obtain ⟨hprev, hnext⟩ := h.links hx
  have hnodup := List.nodup_middle.mp h.nodup
  rw [List.nodup_cons, List.mem_append, not_or] at hnodup
  rw [hprev, hnext]
  exact ⟨fun hlast ↦ hnodup.1.1 (List.mem_of_getLast? hlast),
    fun hhead ↦ hnodup.1.2 (List.mem_of_mem_head? hhead)⟩

theorem Listed.complete_eq {pc : Ctx} (h : e.Listed l) (hcur : e.curRoutine = some pc)
    (hx : e.context pc = some x) (hcaller : ∀ r, x.caller = some r → e.context r ≠ none) :
    e.complete pc = .ok (x.caller, e.completed pc x) := by
  obtain ⟨front, back, rfl⟩ := List.append_of_mem ((h.mem pc).mpr (by rw [hx]; simp))
  obtain ⟨hprev, hnext⟩ := h.links hx
  obtain ⟨hpne, hnne⟩ := h.links_ne hx
  have hregistered : ∀ c ∈ front ++ back, e.context c ≠ none := fun c hc ↦
    (h.mem c).mp (by rw [List.mem_append] at hc ⊢; exact hc.imp_right (List.mem_cons_of_mem pc))
  set e1 := e.mapAt x.prev fun y ↦ { y with next := x.next } with he1
  set e2 := e1.mapAt x.next fun y ↦ { y with prev := x.prev } with he2
  set e3 := e2.mapAt x.caller fun y ↦ { y with callee := none } with he3
  have hx1 : e1.context pc = some x := (mapAt_context_of_ne hpne).trans hx
  have hx2 : e2.context pc = some x := (mapAt_context_of_ne hnne).trans hx1
  have hnext3 : ∀ y, e3.context pc = some y → y.next = x.next := by
    intro y hy
    rw [he3] at hy
    obtain ⟨x', hx', hsame⟩ := mapAt_some Context.next hy fun _ ↦ rfl
    rw [hx2] at hx'
    exact hsame.trans (congrArg Context.next (Option.some.inj hx').symm)
  have hmod1 : e.modifyOpt x.prev (fun y ↦ { y with next := x.next }) = .ok e1 :=
    modifyOpt_eq fun c hc ↦ hregistered c
      (List.mem_append_left _ (List.mem_of_getLast? (hprev ▸ hc)))
  have hmod2 : e1.modifyOpt x.next (fun y ↦ { y with prev := x.prev }) = .ok e2 :=
    modifyOpt_eq fun c hc ↦ mapAt_context_ne_none.mpr
      (hregistered c (List.mem_append_right _ (List.mem_of_mem_head? (hnext ▸ hc))))
  have hmod3 : e2.modifyOpt x.caller (fun y ↦ { y with callee := none }) = .ok e3 :=
    modifyOpt_eq fun c hc ↦ mapAt_context_ne_none.mpr (mapAt_context_ne_none.mpr (hcaller c hc))
  obtain ⟨y, hy⟩ : ∃ y, e3.context pc = some y := Option.ne_none_iff_exists'.mp
    (mapAt_context_ne_none.mpr (by rw [hx2]; simp))
  have halive : e3.alive = e.alive := rfl
  have hcur3 : e3.curRoutine = some pc := hcur
  simp only [complete, bind, Except.bind, get_eq hx, hmod1, get_eq hx1, hmod2, get_eq hx2, hmod3,
    halive, hcur3]
  have hdelete : Function.update e3.context pc none =
      fun c ↦ if c = pc then none else e3.context c := by
    funext c
    exact Function.update_apply _ _ _ _
  by_cases hhead : e.alive = some pc
  · simp only [hhead, if_true, get_eq hy, hnext3 y hy, completed, hdelete]
    rfl
  · simp only [hhead, if_false, completed, hdelete]
    rfl

/-- A registered context other than the completed one: only its links may change, and its `callee`
if it is the completed one's caller. -/
theorem completed_bind {α : Type} {pc : Ctx} {field : Context Lock → Option α} (hne : c ≠ pc)
    (hnext : ∀ y next, field { y with next } = field y)
    (hprev : ∀ y prev, field { y with prev } = field y)
    (hcallee : ∀ y callee, field { y with callee } = field y) :
    ((e.completed pc x).context c).bind field = (e.context c).bind field := by
  simp only [completed, if_neg hne]
  rw [mapAt_bind fun y ↦ hcallee y _, mapAt_bind fun y ↦ hprev y _, mapAt_bind fun y ↦ hnext y _]

theorem completed_context_ne_none {pc : Ctx} :
    (e.completed pc x).context c ≠ none ↔ c ≠ pc ∧ e.context c ≠ none := by
  simp only [completed]
  by_cases hc : c = pc
  · simp [hc]
  · simp only [hc, if_false, ne_eq, not_false_eq_true, true_and]
    exact mapAt_context_ne_none.trans (mapAt_context_ne_none.trans mapAt_context_ne_none)

theorem Listed.completed {front back : List Ctx} {pc : Ctx} (h : e.Listed (front ++ pc :: back))
    (hx : e.context pc = some x) : (e.completed pc x).Listed (front ++ back) := by
  obtain ⟨hprev, hnext⟩ := h.links hx
  have hnodup := List.nodup_middle.mp h.nodup
  rw [List.nodup_cons, List.mem_append, not_or] at hnodup
  have hne : ∀ c ∈ front ++ back, c ≠ pc := by
    rintro c hc rfl
    exact (List.mem_append.mp hc).elim hnodup.1.1 hnodup.1.2
  have hregistered : ∀ c ∈ front ++ back, ∃ y, e.context c = some y := fun c hc ↦
    h.context_isSome (by
      rw [List.mem_append] at hc ⊢
      exact hc.imp_right (List.mem_cons_of_mem pc))
  -- the forward and backward links after completion
  have hnextOf : ∀ c ∈ front ++ back, (e.completed pc x).nextOf c =
      if front.getLast? = some c then e.nextOf pc else e.nextOf c := by
    intro c hc
    obtain ⟨y, hy⟩ := hregistered c hc
    simp only [nextOf, Engine.completed, if_neg (hne c hc), hx]
    rw [mapAt_bind, mapAt_bind, ← hprev]
    · simp only [Engine.mapAt, hy]
      split <;> rfl
    · exact fun _ ↦ rfl
    · exact fun _ ↦ rfl
  have hprevOf : ∀ c ∈ front ++ back, (e.completed pc x).prevOf c =
      if back.head? = some c then e.prevOf pc else e.prevOf c := by
    intro c hc
    obtain ⟨y, hy⟩ := hregistered c hc
    simp only [prevOf, Engine.completed, if_neg (hne c hc), hx]
    rw [mapAt_bind, ← hnext]
    · simp only [Engine.mapAt, hy]
      split <;> split <;> rfl
    · exact fun _ ↦ rfl
  refine ⟨?_, ?_, hnodup.2, ?_, ?_⟩
  · refine h.chain.unlink ?_ (fun c hc ↦ ?_) (fun c hc hlast ↦ ?_) h.nodup
    · have hchain := h.chain
      cases front with
      | nil =>
          rw [List.nil_append, chain_cons] at hchain
          simp [Engine.completed, hchain.1, nextOf, hx]
      | cons a as =>
          rw [List.cons_append, chain_cons] at hchain
          have hane : a ≠ pc := hne a (by simp)
          simp [Engine.completed, hchain.1, hane]
    · rw [hnextOf c (List.mem_append_left _ (List.mem_of_getLast? hc)), if_pos hc]
    · rw [hnextOf c hc, if_neg hlast]
  · refine h.back.unlink _ (fun _ ↦ id) (fun c hc ↦ ?_) (fun c hc hhead ↦ ?_) h.nodup
    · rw [hprevOf c (List.mem_append_right _ (List.mem_of_mem_head? hc)), if_pos hc]
    · rw [hprevOf c hc, if_neg hhead]
  · intro c
    rw [completed_context_ne_none, ← h.mem, List.mem_append, List.mem_append, List.mem_cons]
    constructor
    · intro hc
      exact ⟨hne c (List.mem_append.mpr hc), hc.imp_right Or.inr⟩
    · rintro ⟨hcne, hc⟩
      exact hc.imp_right fun hor ↦ hor.resolve_left hcne
  · intro c hc
    refine h.bound c ?_
    rw [List.mem_append] at hc ⊢
    exact hc.imp_right (List.mem_cons_of_mem pc)

/-- Completion takes the context out of the list, wherever it is. -/
theorem Listed.completed_erase {pc : Ctx} (h : e.Listed l) (hx : e.context pc = some x) :
    (e.completed pc x).Listed (l.erase pc) := by
  obtain ⟨front, back, rfl⟩ := List.append_of_mem ((h.mem pc).mpr (by rw [hx]; simp))
  have hfront : pc ∉ front := fun hmem ↦
    (List.nodup_append.mp h.nodup).2.2 pc hmem pc List.mem_cons_self rfl
  rw [List.erase_append_right _ hfront, List.erase_cons_head]
  exact h.completed hx

end Engine

end CppMtHw.Coroutines
