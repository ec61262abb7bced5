import CppMtHw.NetEngine.Steps

/-!
# What `sched` chooses

No context of the net engine ever has a callee, so the chains of callees are empty
and a context that is asked for is taken only if it is not locked. From a well-formed
list of alive contexts `sched` therefore either passes control to a context that is
not locked, or ends in the dead lock message with every registered context locked.
-/

namespace CppMtHw.NetEngine

open Machine Coroutines

variable {e e' : Engine LockedState} {l : List Ctx} {c target : Ctx} {x : Context LockedState}
  {reason : LockedState}

def lockOf (e : Engine LockedState) (c : Ctx) : Option LockedState :=
  (e.context c).bind fun x ↦ some x.locked

/-- No context has a callee. -/
def Flat (e : Engine LockedState) : Prop := ∀ c, (e.context c).bind Context.callee = none

theorem lockOf_eq_some : lockOf e c = some reason ↔ ∃ x, e.context c = some x ∧
    x.locked = reason := by
  simp [lockOf, Option.bind_eq_some_iff]

theorem lockOf_ne_none (h : lockOf e c = some reason) : e.context c ≠ none := by
  obtain ⟨x, hx, -⟩ := lockOf_eq_some.mp h
  simp [hx]

theorem Flat.callee (h : Flat e) (hx : e.context c = some x) : x.callee = none := by
  have hc := h c
  rwa [hx] at hc

theorem flat_mapAt (h : Flat e) {c' : Option Ctx} {f : Context LockedState → Context LockedState}
    (hf : ∀ x, x.callee = none → (f x).callee = none) : Flat (e.mapAt c' f) := by
  intro c
  have hc := h c
  simp only [Engine.mapAt]
  split
  · cases hx : e.context c with
    | none => rfl
    | some x => exact hf x (h.callee hx)
  · exact hc

/-! ## The search for a context -/

theorem freeCallee_eq (h : Flat e) (hx : e.context c = some x) (fuel : ℕ) :
    freeCallee e fuel c = .ok c := by
  cases fuel <;> simp only [freeCallee, Engine.get_eq hx, bind, Except.bind, h.callee hx]

/-- The loop over the list of alive contexts finds the first one that is not locked. -/
theorem findUnlocked_eq {skip : Option Ctx} {fuel : ℕ} {first : Option Ctx}
    (hchain : Chain e.nextOf first l) (hreg : ∀ c ∈ l, e.context c ≠ none)
    (hfuel : l.length ≤ fuel) :
    findUnlocked e skip fuel first =
      .ok (l.find? fun c ↦ skip ≠ some c ∧ lockOf e c = some .notLocked) := by
  induction l generalizing first fuel with
  | nil =>
      rw [chain_nil] at hchain
      subst hchain
      simp [findUnlocked]
  | cons a as ih =>
      obtain ⟨rfl, hrest⟩ := chain_cons.mp hchain
      obtain ⟨x, hx⟩ := Option.ne_none_iff_exists'.mp (hreg a List.mem_cons_self)
      cases fuel with
      | zero => simp at hfuel
      | succ fuel =>
          have hlock : lockOf e a = some x.locked := lockOf_eq_some.mpr ⟨x, hx, rfl⟩
          have hnext : e.nextOf a = x.next := by rw [Engine.nextOf, hx, Option.bind_some]
          have htail := ih (hnext ▸ hrest) (fun c hc ↦ hreg c (List.mem_cons_of_mem a hc))
            (Nat.le_of_succ_le_succ hfuel)
          simp only [findUnlocked, Engine.get_eq hx, bind, Except.bind, List.find?_cons, hlock,
            Option.some.injEq, htail]
          split
          · rename_i hfound
            simp [hfound]
          · rename_i hfound
            simp [hfound]

/-- The same loop over all alive contexts. -/
theorem findUnlocked_alive (hl : e.Listed l) (skip : Option Ctx) :
    findUnlocked e skip e.created e.alive =
      .ok (l.find? fun c ↦ skip ≠ some c ∧ lockOf e c = some .notLocked) :=
  findUnlocked_eq hl.chain (fun c hc ↦ (hl.mem c).mp hc) hl.length_le

/-- What the search finds is not locked. -/
theorem free_of_find {skip : Option Ctx}
    (hfind : (l.find? fun c ↦ skip ≠ some c ∧ lockOf e c = some .notLocked) = some target) :
    lockOf e target = some .notLocked := by
  have hprop := List.find?_some hfind
  rw [decide_eq_true_iff] at hprop
  exact hprop.2

/-- A search that finds nothing has met locked contexts only. -/
theorem locked_of_find {skip : Option Ctx}
    (hfind : (l.find? fun c ↦ skip ≠ some c ∧ lockOf e c = some .notLocked) = none) (hc : c ∈ l)
    (hskip : skip ≠ some c) : lockOf e c ≠ some .notLocked := by
  intro hfree
  have hnone := List.find?_eq_none.mp hfind c hc
  rw [decide_eq_true_iff, not_and] at hnone
  exact hnone hskip hfree

theorem requested_ok (h : Flat e) {routine routine' : Option Ctx}
    (hok : requested e routine = .ok routine') :
    routine' = none ∨ ∃ target, routine' = some target ∧ lockOf e target = some .notLocked := by
  cases routine with
  | none => exact Or.inl (Except.ok.inj hok).symm
  | some routine =>
      obtain ⟨x, hget, hok⟩ := ok_of_bind hok
      have hx := get_ok hget
      split at hok
      · rename_i hfree
        exact Or.inr ⟨routine, (Except.ok.inj hok).symm, lockOf_eq_some.mpr ⟨x, hx, hfree⟩⟩
      · -- the chain of callees of a locked context is empty
        obtain ⟨p, hp, hok⟩ := ok_of_bind hok
        rw [freeCallee_eq h hx] at hp
        rw [← Except.ok.inj hp, if_pos rfl] at hok
        exact Or.inl (Except.ok.inj hok).symm

theorem unlockedCaller_ok {cur : Ctx} {routine : Option Ctx}
    (hok : unlockedCaller e cur = .ok routine) :
    routine = none ∨ ∃ target, routine = some target ∧ lockOf e target = some .notLocked := by
  obtain ⟨x, -, hok⟩ := ok_of_bind hok
  split at hok
  · exact Or.inl (Except.ok.inj hok).symm
  · rename_i caller _
    obtain ⟨y, hget, hok⟩ := ok_of_bind hok
    split at hok
    · rename_i hfree
      exact Or.inr ⟨caller, (Except.ok.inj hok).symm,
        lockOf_eq_some.mpr ⟨y, get_ok hget, hfree⟩⟩
    · exact Or.inl (Except.ok.inj hok).symm

/-! ## The transfer of control -/

def resumed (e : Engine LockedState) (target : Ctx) : Engine LockedState :=
  { e.mapAt (some target) fun y ↦ { y with caller := e.curRoutine } with
    curRoutine := some target }

theorem switchTo_eq (h : Flat e) (hx : e.context target = some x) :
    switchTo e target = .ok (.switched (resumed e target)) := by
  have hmodify : e.modify target (fun y ↦ { y with caller := e.curRoutine }) =
      .ok (e.mapAt (some target) fun y ↦ { y with caller := e.curRoutine }) :=
    Engine.modifyOpt_eq (c := some target) fun c hc ↦ by
      rw [← Option.some.inj hc, hx]
      simp
  simp only [switchTo, hx, h.callee hx, bind, Except.bind, freeCallee_eq h hx, hmodify, resumed]

/-- A registered context that is not locked gets control. -/
theorem switchTo_of_free (h : Flat e) (hfree : lockOf e target = some .notLocked) :
    switchTo e target = .ok (.switched (resumed e target)) := by
  obtain ⟨x, hx, -⟩ := lockOf_eq_some.mp hfree
  exact switchTo_eq h hx

/-- Everything `sched` can do when it does not fail. -/
theorem sched_ok (hl : e.Listed l) (h : Flat e) {routine : Option Ctx} {outcome : Outcome}
    (hok : sched e routine = .ok outcome) :
    (outcome = .returned ∧ e.curRoutine = none) ∨
    (∃ target, lockOf e target = some .notLocked ∧ outcome = .switched (resumed e target)) ∨
    (outcome = .deadLock ∧ e.curRoutine ≠ none ∧ ∀ c ∈ l, lockOf e c ≠ some .notLocked) := by
  have hswitch : ∀ {target}, lockOf e target = some .notLocked →
      switchTo e target = .ok outcome → ∃ target, lockOf e target = some .notLocked ∧
        outcome = .switched (resumed e target) := by
    intro target hfree hok
    rw [switchTo_of_free h hfree] at hok
    exact ⟨target, hfree, (Except.ok.inj hok).symm⟩
  obtain ⟨choice, hchoice, hok⟩ := ok_of_bind hok
  rcases requested_ok h hchoice with rfl | ⟨target, rfl, hfree⟩
  · cases hcur : e.curRoutine with
    | none =>
        simp only [hcur] at hok
        split at hok
        · exact Or.inl ⟨(Except.ok.inj hok).symm, rfl⟩
        · obtain ⟨found, hfound, hok⟩ := ok_of_bind hok
          rw [findUnlocked_alive hl] at hfound
          split at hok
          · have hfree := free_of_find (Except.ok.inj hfound)
            exact Or.inr (Or.inl (hswitch hfree hok))
          · cases hok
    | some cur =>
        simp only [hcur] at hok
        obtain ⟨caller, hcaller, hok⟩ := ok_of_bind hok
        rcases unlockedCaller_ok hcaller with rfl | ⟨target, rfl, hfree⟩
        · obtain ⟨found, hfound, hok⟩ := ok_of_bind hok
          rw [findUnlocked_alive hl] at hfound
          split at hok
          · have hfree := free_of_find (Except.ok.inj hfound)
            exact Or.inr (Or.inl (hswitch hfree hok))
          · obtain ⟨y, hget, hok⟩ := ok_of_bind hok
            have hy := get_ok hget
            split at hok
            · rename_i hfree
              exact Or.inr (Or.inl (hswitch (lockOf_eq_some.mpr ⟨y, hy, hfree⟩) hok))
            · -- neither the current context nor any other one is free
              rename_i hlocked
              refine Or.inr (Or.inr ⟨(Except.ok.inj hok).symm, by simp, fun c hc hfree ↦ ?_⟩)
              by_cases hcc : cur = c
              · subst hcc
                obtain ⟨z, hz, hzfree⟩ := lockOf_eq_some.mp hfree
                exact hlocked (Option.some.inj (hy.symm.trans hz) ▸ hzfree)
              · have hlocked := locked_of_find (Except.ok.inj hfound) hc
                exact hlocked (fun hcur ↦ hcc (Option.some.inj hcur)) hfree
        · exact Or.inr (Or.inl (hswitch hfree hok))
  · exact Or.inr (Or.inl (hswitch hfree (by cases hcur : e.curRoutine <;> simpa [hcur] using hok)))

/-! ## What the operations do to the lock states -/

theorem lockOf_resumed : lockOf (resumed e target) c = lockOf e c :=
  Engine.mapAt_bind fun _ ↦ rfl

theorem flat_resumed (h : Flat e) : Flat (resumed e target) := flat_mapAt h fun _ hx ↦ hx

theorem listed_resumed (h : e.Listed l) : (resumed e target).Listed l :=
  (h.mapAt (some target) (fun y ↦ { y with caller := e.curRoutine }) (fun _ ↦ rfl)
    fun _ ↦ rfl).setCurrent _

theorem unlocked_context {cs : List Ctx} : (unlocked e reason cs).context c =
    (e.context c).map fun x ↦
      if c ∈ cs ∧ x.locked = reason then { x with locked := .notLocked } else x := by
  simp only [unlocked]
  by_cases hc : c ∈ cs
  · simp [hc]
  · simp [hc]

/-- A field that is not the lock state. -/
theorem unlocked_bind {α : Type} {cs : List Ctx} {field : Context LockedState → Option α}
    (h : ∀ x, field { x with locked := .notLocked } = field x) :
    ((unlocked e reason cs).context c).bind field = (e.context c).bind field := by
  rw [unlocked_context]
  cases e.context c with
  | none => rfl
  | some x =>
      simp only [Option.map_some, Option.bind_some]
      split
      · exact h x
      · rfl

theorem lockOf_unlocked {cs : List Ctx} : lockOf (unlocked e reason cs) c =
    if c ∈ cs ∧ lockOf e c = some reason then some .notLocked else lockOf e c := by
  simp only [lockOf, unlocked_context]
  rcases Option.eq_none_or_eq_some (e.context c) with hx | ⟨x, hx⟩
  · simp [hx]
  · simp only [hx, Option.map_some, Option.bind_some, Option.some.injEq]
    split <;> rfl

theorem lockOf_unlocked_of_free {cs : List Ctx} (h : lockOf e c = some .notLocked) :
    lockOf (unlocked e reason cs) c = some .notLocked := by
  rw [lockOf_unlocked, h, ite_self]

theorem flat_unlocked (h : Flat e) {cs : List Ctx} : Flat (unlocked e reason cs) := fun c ↦
  (unlocked_bind fun _ ↦ rfl).trans (h c)

theorem listed_unlocked (h : e.Listed l) {cs : List Ctx} : (unlocked e reason cs).Listed l where
  chain := h.chain.congr fun _ _ ↦ unlocked_bind fun _ ↦ rfl
  back := h.back.congr fun _ _ ↦ unlocked_bind fun _ ↦ rfl
  nodup := h.nodup
  mem c := by rw [h.mem, unlocked_context, ne_eq, ne_eq, Option.map_eq_none_iff]
  bound := h.bound

theorem lockOf_lock (hc : e.context target ≠ none) :
    lockOf (e.mapAt (some target) fun x ↦ { x with locked := reason }) c =
      if c = target then some reason else lockOf e c := by
  simp only [lockOf, Engine.mapAt, Option.some.injEq]
  by_cases h : c = target
  · subst h
    obtain ⟨x, hx⟩ := Option.ne_none_iff_exists'.mp hc
    simp [hx]
  · simp [h, Ne.symm h]

theorem lockOf_registered : lockOf (e.registered .notLocked) c =
    if c = e.created then some .notLocked else lockOf e c := by
  simp only [lockOf, Engine.registered]
  by_cases h : c = e.created
  · simp [h]
  · simp only [h, if_false]
    split
    · cases e.context c <;> rfl
    · rfl

theorem flat_registered (h : Flat e) : Flat (e.registered .notLocked) := by
  intro c
  have hc := h c
  simp only [Engine.registered]
  split
  · rfl
  · split
    · cases hx : e.context c with
      | none => rfl
      | some x =>
          have hcallee := h.callee hx
          exact hcallee
    · exact hc

theorem lockOf_completed {pc : Ctx} : lockOf (e.completed pc x) c =
    if c = pc then none else lockOf e c := by
  by_cases h : c = pc
  · simp [lockOf, Engine.completed, h]
  · rw [if_neg h]
    exact Engine.completed_bind h (fun _ _ ↦ rfl) (fun _ _ ↦ rfl) fun _ _ ↦ rfl

theorem flat_completed (h : Flat e) {pc : Ctx} : Flat (e.completed pc x) := by
  intro c
  by_cases hc : c = pc
  · simp [Engine.completed, hc]
  · simp only [Engine.completed, if_neg hc]
    have hlinks : Flat ((e.mapAt x.prev fun y ↦ { y with next := x.next }).mapAt x.next
        fun y ↦ { y with prev := x.prev }) := by
      refine flat_mapAt (flat_mapAt h ?_) ?_ <;> exact fun _ hx ↦ hx
    exact flat_mapAt hlinks (fun _ _ ↦ rfl) c

/-- A completion that succeeds has not followed a pointer to a deleted context. -/
theorem complete_eq_completed {pc : Ctx} {next : Option Ctx} (hl : e.Listed l)
    (hcur : e.curRoutine = some pc) (hok : e.complete pc = .ok (next, e')) :
    ∃ x, e.context pc = some x ∧ e' = e.completed pc x := by
  obtain ⟨x, hget, hrest⟩ := ok_of_bind hok
  have hx := get_ok hget
  refine ⟨x, hx, ?_⟩
  suffices hcaller : ∀ r, x.caller = some r → e.context r ≠ none by
    rw [hl.complete_eq hcur hx hcaller] at hok
    exact (Prod.mk.inj (Except.ok.inj hok)).2.symm
  obtain ⟨x₀, hget₀, hrest⟩ := ok_of_bind hrest
  obtain ⟨e₁, hprev, hrest⟩ := ok_of_bind hrest
  obtain ⟨x₁, hget₁, hrest⟩ := ok_of_bind hrest
  obtain ⟨e₂, hnext, hrest⟩ := ok_of_bind hrest
  obtain ⟨x₂, hget₂, hrest⟩ := ok_of_bind hrest
  obtain ⟨e₃, hcaller, -⟩ := ok_of_bind hrest
  obtain ⟨-, rfl⟩ := modifyOpt_ok hprev
  obtain ⟨-, rfl⟩ := modifyOpt_ok hnext
  intro r hr
  -- the links of `pc` are written before its caller is read
  have hsame : x₂.caller = x.caller := by
    obtain ⟨y, hy, heq₂⟩ := Engine.mapAt_some Context.caller (get_ok hget₂) fun _ ↦ rfl
    obtain ⟨z, hz, heq₁⟩ := Engine.mapAt_some Context.caller hy fun _ ↦ rfl
    rw [heq₂, heq₁, Option.some.inj (hz.symm.trans hx)]
  have hne := (modifyOpt_ok hcaller).1 r (hsame.trans hr)
  exact Engine.mapAt_context_ne_none.mp (Engine.mapAt_context_ne_none.mp hne)

end CppMtHw.NetEngine
