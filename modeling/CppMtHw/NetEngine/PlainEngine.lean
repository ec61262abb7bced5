import CppMtHw.Coroutines.Engine
import CppMtHw.NetEngine.Scheduling

/-!
# The net engine without locks

As long as no context is locked the net engine is the plain engine. The conditions that
`sched` of the net engine has in addition all hold then, and what they read makes no
difference, as the plain engine follows the same pointers a moment later. So the two
engines choose the same context, assign the same fields, and take the same steps in
every run in which no coroutine blocks.
-/

namespace CppMtHw.NetEngine

open Machine Coroutines

variable {e e' : Engine LockedState} {c pc : Ctx} {routine : Option Ctx}

/-! ## The engine without its lock states -/

def plainContext (x : Context LockedState) : Context Unit where
  caller := x.caller
  callee := x.callee
  prev := x.prev
  next := x.next
  locked := ()

def plain (e : Engine LockedState) : Engine Unit where
  context c := (e.context c).map plainContext
  created := e.created
  curRoutine := e.curRoutine
  alive := e.alive

/-- No context is locked, and contexts are numbered as they are made. -/
structure Unblocked (e : Engine LockedState) : Prop where
  unlocked : ∀ c x, e.context c = some x → x.locked = .notLocked
  bound : ∀ c, e.context c ≠ none → c < e.created

/-- The state of the plain engine for one of the net engine without locks. -/
def Mirrors (e₁ : Engine Unit) (e₂ : Engine LockedState) : Prop := e₁ = plain e₂ ∧ Unblocked e₂

theorem plain_context_eq_none : (plain e).context c = none ↔ e.context c = none :=
  Option.map_eq_none_iff

theorem agree_get : Agree (fun x y ↦ e.context c = some y ∧ x = plainContext y) ((plain e).get c)
    (e.get c) := by
  simp only [Engine.get, plain]
  cases e.context c with
  | none => exact Agree.error
  | some x => exact Agree.ok ⟨rfl, rfl⟩

@[simp] theorem put_context_self {Lock : Type} (f : Engine Lock) (x : Context Lock) :
    (f.put c x).context c = some x := Function.update_self _ _ _

theorem put_context_of_ne {Lock : Type} {f : Engine Lock} {x : Context Lock} {c' : Ctx}
    (h : c' ≠ c) : (f.put c x).context c' = f.context c' := Function.update_of_ne h _ _

theorem plain_put (x : Context LockedState) :
    (plain e).put c (plainContext x) = plain (e.put c x) := by
  simp only [plain, Engine.put, Engine.mk.injEq, and_true]
  funext c'
  by_cases hc : c' = c
  · subst hc
    simp
  · simp [hc]

theorem Unblocked.put (h : Unblocked e) {x : Context LockedState} (hc : c < e.created)
    (hx : x.locked = .notLocked) : Unblocked (e.put c x) where
  unlocked c' y hy := by
    by_cases hcc : c' = c
    · subst hcc
      rw [put_context_self] at hy
      exact Option.some.inj hy ▸ hx
    · rw [put_context_of_ne hcc] at hy
      exact h.unlocked c' y hy
  bound c' hc' := by
    by_cases hcc : c' = c
    · exact hcc ▸ hc
    · rw [put_context_of_ne hcc] at hc'
      exact h.bound c' hc'

theorem agree_modify (h : Unblocked e) {f : Context LockedState → Context LockedState}
    {g : Context Unit → Context Unit} (hplain : ∀ x, g (plainContext x) = plainContext (f x))
    (hlocked : ∀ x, (f x).locked = x.locked) :
    Agree Mirrors ((plain e).modify c g) (e.modify c f) := by
  apply agree_get.bind
  rintro _ x ⟨hx, rfl⟩
  refine Agree.ok ⟨(congrArg _ (hplain x)).trans (plain_put (f x)), h.put (h.bound c ?_) ?_⟩
  · simp [hx]
  · exact (hlocked x).trans (h.unlocked c x hx)

theorem agree_modifyOpt (h : Unblocked e) {p : Option Ctx}
    {f : Context LockedState → Context LockedState} {g : Context Unit → Context Unit}
    (hplain : ∀ x, g (plainContext x) = plainContext (f x))
    (hlocked : ∀ x, (f x).locked = x.locked) :
    Agree Mirrors ((plain e).modifyOpt p g) (e.modifyOpt p f) := by
  cases p with
  | none => exact Agree.ok ⟨rfl, h⟩
  | some c => exact agree_modify h hplain hlocked

/-! ## Registration and completion -/

def withNew {Lock : Type} (e : Engine Lock) (unlocked : Lock) : Engine Lock :=
  { e.put e.created
      { caller := e.curRoutine, callee := none, prev := none, next := e.alive,
        locked := unlocked } with
    created := e.created + 1, alive := some e.created }

theorem unblocked_withNew (h : Unblocked e) : Unblocked (withNew e .notLocked) := by
  have hmore : Unblocked { e with created := e.created + 1 } :=
    ⟨h.unlocked, fun c hc ↦ Nat.lt_succ_of_lt (h.bound c hc)⟩
  have hput := hmore.put (c := e.created)
    (x :=
      { caller := e.curRoutine, callee := none, prev := none, next := e.alive,
        locked := .notLocked })
    (Nat.lt_succ_self e.created) rfl
  exact ⟨hput.unlocked, hput.bound⟩

theorem plain_withNew : withNew (plain e) () = plain (withNew e .notLocked) :=
  congrArg (fun e₁ : Engine Unit ↦ { e₁ with created := e.created + 1, alive := some e.created })
    (plain_put
      { caller := e.curRoutine, callee := none, prev := none, next := e.alive,
        locked := .notLocked })

theorem agree_run (h : Unblocked e) :
    Agree (fun a b ↦ a.1 = b.1 ∧ Mirrors a.2 b.2) ((plain e).run ()) (e.run .notLocked) := by
  have hlink : Agree Mirrors
      ((plain (withNew e .notLocked)).modifyOpt e.alive fun y ↦ { y with prev := some e.created })
      ((withNew e .notLocked).modifyOpt e.alive fun y ↦ { y with prev := some e.created }) :=
    agree_modifyOpt (unblocked_withNew h) (fun _ ↦ rfl) fun _ ↦ rfl
  rw [← plain_withNew] at hlink
  refine Agree.bind hlink fun e₁ e₂ hmirrors ↦ ?_
  exact Agree.ok ⟨rfl, hmirrors⟩

theorem mirrors_delete (h : Unblocked e) (pc : Ctx) :
    Mirrors
      { plain e with curRoutine := none, context := Function.update (plain e).context pc none }
      { e with curRoutine := none, context := Function.update e.context pc none } := by
  refine ⟨?_, ?_⟩
  · simp only [plain, Engine.mk.injEq, and_true]
    funext c
    by_cases hc : c = pc
    · subst hc
      simp
    · simp [hc]
  · exact
      { unlocked := fun c x hx ↦ by
          by_cases hc : c = pc
          · simp [hc] at hx
          · exact h.unlocked c x ((Function.update_of_ne hc _ _).symm.trans hx)
        bound := fun c hc ↦ by
          by_cases hcpc : c = pc
          · simp [hcpc] at hc
          · exact h.bound c ((Function.update_of_ne hcpc _ _).symm.trans_ne hc) }

theorem agree_complete (h : Unblocked e) :
    Agree (fun a b ↦ a.1 = b.1 ∧ Mirrors a.2 b.2) ((plain e).complete pc) (e.complete pc) := by
  unfold Engine.complete
  refine agree_get.bind ?_
  rintro _ x₀ ⟨-, rfl⟩
  refine agree_get.bind ?_
  rintro _ x₁ ⟨-, rfl⟩
  refine Agree.bind (agree_modifyOpt h (fun _ ↦ rfl) fun _ ↦ rfl) ?_
  rintro _ e₁ ⟨rfl, h₁⟩
  refine agree_get.bind ?_
  rintro _ x₂ ⟨-, rfl⟩
  refine Agree.bind (agree_modifyOpt h₁ (fun _ ↦ rfl) fun _ ↦ rfl) ?_
  rintro _ e₂ ⟨rfl, h₂⟩
  refine agree_get.bind ?_
  rintro _ x₃ ⟨-, rfl⟩
  refine Agree.bind (agree_modifyOpt h₂ (fun _ ↦ rfl) fun _ ↦ rfl) ?_
  rintro _ e₃ ⟨rfl, h₃⟩
  dsimp only
  rw [show (plain e₃).alive = e₃.alive from rfl, show (plain e₃).curRoutine =
    e₃.curRoutine from rfl]
  split
  · split
    · refine agree_get.bind ?_
      rintro _ x ⟨-, rfl⟩
      have h₄ : Unblocked { e₃ with alive := x.next } := ⟨h₃.unlocked, h₃.bound⟩
      exact Agree.ok ⟨rfl, mirrors_delete h₄ pc⟩
    · exact Agree.error
  · exact Agree.ok ⟨rfl, mirrors_delete h₃ pc⟩

/-! ## The loops of `sched` -/

theorem get_deleted {Lock : Type} {f : Engine Lock} (h : f.context c = none) :
    f.get c = .error (.deleted c) := by
  simp only [Engine.get, h]

theorem plain_get {x : Context LockedState} (h : e.context c = some x) :
    (plain e).get c = .ok (plainContext x) := Engine.get_eq (congrArg (Option.map plainContext) h)

theorem lastCallee_deleted {f : Engine Unit} (h : f.context c = none) (fuel : ℕ) :
    f.lastCallee fuel c = .error (.deleted c) := by
  cases fuel <;> simp only [Engine.lastCallee, Engine.get, h] <;> rfl

/-- The loops that follow `callee` end at the same context. -/
theorem agree_lastCallee (h : Unblocked e) (fuel : ℕ) (c : Ctx) :
    Agree Eq ((plain e).lastCallee fuel c) (freeCallee e fuel c) := by
  induction fuel generalizing c with
  | zero =>
      unfold Engine.lastCallee freeCallee
      refine agree_get.bind ?_
      rintro _ ⟨caller, callee, prev, next, locked⟩ ⟨-, rfl⟩
      cases callee with
      | none => exact Agree.ok rfl
      | some callee =>
          cases hy : e.context callee with
          | none =>
              simp only [get_deleted hy]
              exact Agree.error
          | some y =>
              simp only [Engine.get_eq hy, ok_bind, h.unlocked callee y hy, if_true]
              exact Agree.error
  | succ fuel ih =>
      unfold Engine.lastCallee freeCallee
      refine agree_get.bind ?_
      rintro _ ⟨caller, callee, prev, next, locked⟩ ⟨-, rfl⟩
      cases callee with
      | none => exact Agree.ok rfl
      | some callee =>
          cases hy : e.context callee with
          | none =>
              -- the plain engine follows the pointer in the next round
              simp only [plainContext, get_deleted hy,
                lastCallee_deleted (plain_context_eq_none.mpr hy)]
              exact Agree.error
          | some y =>
              simp only [Engine.get_eq hy, ok_bind, h.unlocked callee y hy, if_true]
              exact ih callee

/-- The searches of the list of alive contexts find the same one, unless the plain engine finds one
that is deleted, which the net engine reads. -/
theorem agree_find (h : Unblocked e) (cur : Ctx) (fuel : ℕ) (first : Option Ctx) :
    Agree Eq ((plain e).findOther cur fuel first) (findUnlocked e (some cur) fuel first) ∨
      ∃ p err, (plain e).findOther cur fuel first = .ok (some p) ∧ e.context p = none ∧
        findUnlocked e (some cur) fuel first = .error err := by
  induction fuel generalizing first with
  | zero =>
      cases first with
      | none => exact Or.inl (Agree.ok rfl)
      | some p => exact Or.inl Agree.error
  | succ fuel ih =>
      cases first with
      | none => exact Or.inl (Agree.ok rfl)
      | some p =>
          cases hx : e.context p with
          | none =>
              have hdeleted := get_deleted (plain_context_eq_none.mpr hx)
              by_cases hp : p = cur
              · left
                subst hp
                simp only [Engine.findOther, findUnlocked, get_deleted hx, hdeleted, ne_eq,
                  not_true_eq_false, if_false]
                exact Agree.error
              · right
                refine ⟨p, .deleted p, if_pos hp, hx, ?_⟩
                simp only [findUnlocked, get_deleted hx]
                rfl
          | some x =>
              by_cases hp : p = cur
              · subst hp
                simp only [Engine.findOther, findUnlocked, Engine.get_eq hx, plain_get hx, ok_bind,
                  ne_eq, not_true_eq_false, if_false, false_and]
                exact ih x.next
              · left
                have hne : some cur ≠ some p := fun heq ↦ hp (Option.some.inj heq).symm
                simp only [Engine.findOther, findUnlocked, Engine.get_eq hx, ok_bind, if_pos hp,
                  if_pos (And.intro hne (h.unlocked p x hx))]
                exact Agree.ok rfl

/-- A search that starts at a registered context ends there. -/
theorem findUnlocked_first (h : Unblocked e) {x : Context LockedState} (hx : e.context c = some x) :
    findUnlocked e none e.created (some c) = .ok (some c) := by
  cases hcreated : e.created with
  | zero => exact absurd (h.bound c (by simp [hx])) (by simp [hcreated])
  | succ fuel =>
      simp only [findUnlocked, Engine.get_eq hx, ok_bind]
      exact if_pos ⟨(Option.some_ne_none c).symm, h.unlocked c x hx⟩

theorem findUnlocked_deleted (hx : e.context c = none) (fuel : ℕ) :
    ∃ err, findUnlocked e none fuel (some c) = .error err := by
  cases fuel with
  | zero => exact ⟨.endless, rfl⟩
  | succ fuel =>
      refine ⟨.deleted c, ?_⟩
      simp only [findUnlocked, get_deleted hx]
      rfl

/-! ## The decisions of `sched` -/

/-- The same decision: to return, or to pass control to the same context, with the same fields
afterwards and still no context locked. -/
inductive SameDecision : Sched (Engine Unit) → Outcome → Prop
  | returned : SameDecision .returned .returned
  | switched {e : Engine LockedState} (h : Unblocked e) :
      SameDecision (.switched (plain e)) (.switched e)

/-- The end of `sched` in the net engine, from the descent to the last callee on. -/
theorem agree_transfer (h : Unblocked e) (c : Ctx) :
    Agree SameDecision
      (do
        let target ← (plain e).lastCallee (plain e).created c
        let e' ← (plain e).modify target fun y ↦ { y with caller := (plain e).curRoutine }
        .ok (.switched { e' with curRoutine := some target }))
      (do
        let target ← freeCallee e e.created c
        let e' ← e.modify target fun y ↦ { y with caller := e.curRoutine }
        .ok (.switched { e' with curRoutine := some target })) := by
  refine Agree.bind (agree_lastCallee h e.created c) ?_
  rintro target _ rfl
  refine Agree.bind (agree_modify h (fun _ ↦ rfl) fun _ ↦ rfl) ?_
  rintro _ e' ⟨rfl, h'⟩
  have hcurrent : Unblocked { e' with curRoutine := some target } := ⟨h'.unlocked, h'.bound⟩
  exact Agree.ok (.switched hcurrent)

theorem agree_switchTo (h : Unblocked e) (c : Ctx) :
    Agree SameDecision ((plain e).switchTo c) (switchTo e c) := by
  unfold Engine.switchTo switchTo
  cases hx : e.context c with
  | none =>
      rw [plain_context_eq_none.mpr hx]
      exact Agree.error
  | some x =>
      have hplain : (plain e).context c = some (plainContext x) :=
        congrArg (Option.map plainContext) hx
      rw [hplain]
      cases hcallee : x.callee with
      | none =>
          have hcallee' : (plainContext x).callee = none := hcallee
          simp only [hcallee, hcallee', ok_bind]
          exact agree_transfer h c
      | some callee =>
          have hcallee' : (plainContext x).callee = some callee := hcallee
          simp only [hcallee, hcallee']
          rw [show (plain e).curRoutine = e.curRoutine from rfl]
          split
          · refine Agree.bind (agree_modify h (fun _ ↦ rfl) fun _ ↦ rfl) ?_
            rintro _ e₁ ⟨rfl, h₁⟩
            refine Agree.bind (agree_modify h₁ (fun _ ↦ rfl) fun _ ↦ rfl) ?_
            rintro _ e₂ ⟨rfl, h₂⟩
            exact agree_transfer h₂ c
          · exact agree_transfer h c

/-- The choice of a routine when none is asked for and one is running. -/
theorem agree_choice (h : Unblocked e) {cur : Ctx} {x : Context LockedState}
    (hx : e.context cur = some x) :
    Agree SameDecision
      (match x.caller with
        | some routine => (plain e).switchTo routine
        | none => do
            match ← (plain e).findOther cur (plain e).created (plain e).alive with
            | some routine => (plain e).switchTo routine
            | none => (plain e).switchTo cur)
      (do
        match ← unlockedCaller e cur with
        | some routine => switchTo e routine
        | none =>
            match ← findUnlocked e (some cur) e.created e.alive with
            | some routine => switchTo e routine
            | none =>
                if (← e.get cur).locked = .notLocked then switchTo e cur else .ok .deadLock) := by
  cases hcaller : x.caller with
  | some caller =>
      cases hy : e.context caller with
      | none =>
          -- the net engine reads the caller that the plain engine passes control to
          simp only [unlockedCaller, Engine.get_eq hx, get_deleted hy, hcaller, ok_bind,
            Engine.switchTo, plain_context_eq_none.mpr hy]
          exact Agree.error
      | some y =>
          simp only [unlockedCaller, Engine.get_eq hx, Engine.get_eq hy, hcaller, ok_bind,
            h.unlocked caller y hy, if_true]
          exact agree_switchTo h caller
  | none =>
      simp only [unlockedCaller, Engine.get_eq hx, hcaller, ok_bind, h.unlocked cur x hx, if_true]
      rcases agree_find h cur e.created e.alive with hfind | ⟨p, err, hplain, hp, hnet⟩
      · refine Agree.bind hfind ?_
        rintro found _ rfl
        cases found with
        | none => exact agree_switchTo h cur
        | some routine => exact agree_switchTo h routine
      · rw [show (plain e).findOther cur (plain e).created (plain e).alive = _ from hplain, hnet]
        simp only [ok_bind, Engine.switchTo, plain_context_eq_none.mpr hp]
        exact Agree.error

/-- The choice when none is running. -/
theorem agree_idle (h : Unblocked e) :
    Agree SameDecision
      (match (plain e).alive with
        | none => .ok .returned
        | some routine => (plain e).switchTo routine)
      (match e.alive with
        | none => .ok .returned
        | some _ => do
            match ← findUnlocked e none e.created e.alive with
            | some routine => switchTo e routine
            | none => .error .nullDeref) := by
  rw [show (plain e).alive = e.alive from rfl]
  cases halive : e.alive with
  | none => exact Agree.ok .returned
  | some a =>
      cases hx : e.context a with
      | none =>
          obtain ⟨err, herror⟩ := findUnlocked_deleted hx e.created
          simp only [herror, Engine.switchTo, plain_context_eq_none.mpr hx]
          exact Agree.error
      | some x =>
          simp only [findUnlocked_first h hx, ok_bind]
          exact agree_switchTo h a

/-- The two engines make the same decision, or neither makes one. -/
theorem agree_sched (h : Unblocked e) (routine : Option Ctx) :
    Agree SameDecision ((plain e).sched routine) (sched e routine) := by
  cases routine with
  | some routine =>
      cases hx : e.context routine with
      | none =>
          simp only [Engine.sched, Engine.switchTo, plain_context_eq_none.mpr hx, sched, requested,
            get_deleted hx]
          exact Agree.error
      | some x =>
          simp only [Engine.sched, sched, requested, Engine.get_eq hx, ok_bind,
            h.unlocked routine x hx, if_true]
          exact agree_switchTo h routine
  | none =>
      cases hcur : e.curRoutine with
      | none =>
          have hcur' : (plain e).curRoutine = none := hcur
          simp only [Engine.sched, hcur', sched, requested, hcur, ok_bind]
          exact agree_idle h
      | some cur =>
          have hcur' : (plain e).curRoutine = some cur := hcur
          cases hx : e.context cur with
          | none =>
              simp only [Engine.sched, hcur', get_deleted (plain_context_eq_none.mpr hx), sched,
                requested, hcur, ok_bind, unlockedCaller, get_deleted hx]
              exact Agree.error
          | some x =>
              simp only [Engine.sched, hcur', plain_get hx, sched, requested, hcur, ok_bind]
              exact agree_choice h hx

end CppMtHw.NetEngine
