import Mathlib.Algebra.Group.Nat.Even
import CppMtHw.Coroutines.Yielding

/-!
# Yields alternate

A coroutine that gets control by a yield has the one that yielded as its caller, and its own yield
goes back there. So two coroutines pass control to and fro until one of them returns or schedules a
third one, and all others wait, those registered meanwhile among them.
-/

namespace CppMtHw.Coroutines

open Machine

namespace Engine

variable {e e₀ : Engine Unit} {l : List Ctx} {c other : Ctx} {acts more : List Action}

/-- `c` runs and got control from `other`. -/
structure Between (e : Engine Unit) (l : List Ctx) (c other : Ctx) : Prop where
  wf : e.Wf l
  current : e.curRoutine = some c
  caller : ∃ x, e.context c = some x ∧ x.caller = some other

/-- Passing control to `target` makes the current routine its caller. -/
theorem Wf.between_switched (h : e.Wf l) (hcur : e.curRoutine = some c) {target : Ctx}
    (htarget : target ∈ l) : (e.switched target).Between l target c := by
  obtain ⟨x, hx⟩ := h.listed.context_isSome htarget
  refine ⟨h.switched htarget, rfl, { x with caller := e.curRoutine }, ?_, hcur⟩
  simp only [Engine.switched, mapAt, if_true, hx, Option.map_some]

theorem Wf.yield_between (h : e.Wf l) (hcur : e.curRoutine = some c) :
    ∃ target e', e.YieldsTo target ∧ e.exec .yield = .ok e' ∧ e'.Between l target c := by
  obtain ⟨target, htarget, hsched⟩ := h.sched_none hcur
  refine ⟨target, e.switched target, ⟨_, hsched, rfl⟩, ?_, h.between_switched hcur htarget⟩
  simp only [exec, hsched, bind, Except.bind]

/-- A yield gives control back. -/
theorem Between.yield (h : e.Between l c other) :
    ∃ e', e.exec .yield = .ok e' ∧ e'.Between l other c := by
  obtain ⟨x, hx, hcaller⟩ := h.caller
  have hother := h.wf.caller c x other h.current hx hcaller
  have hregistered : (e.context other).isSome = true :=
    Option.isSome_iff_ne_none.mpr ((h.wf.listed.mem other).mp hother)
  obtain ⟨target, hchoice, hsched⟩ := h.wf.sched_choice h.current hx
  have htarget : other = target := by
    rw [choice, hcaller, filter_of_available hregistered, Option.some_or, Option.some_or] at hchoice
    exact Option.some.inj hchoice
  rw [← htarget] at hsched
  refine ⟨e.switched other, ?_, h.wf.between_switched h.current hother⟩
  simp only [exec, hsched, bind, Except.bind]

/-- Registering a coroutine changes no caller. -/
theorem Between.run (h : e.Between l c other) :
    ∃ e', e.exec .run = .ok e' ∧ e'.Between (e.created :: l) c other := by
  obtain ⟨x, hx, hcaller⟩ := h.caller
  have hne : c ≠ e.created := Nat.ne_of_lt (h.wf.listed.bound c (h.wf.current c h.current))
  refine ⟨e.registered (), ?_, h.wf.registered, h.current, ?_⟩
  · simp only [exec, h.wf.listed.run_eq, bind, Except.bind]
  · simp only [registered, if_neg hne]
    split
    · exact ⟨{ x with prev := some e.created }, by rw [hx]; rfl, hcaller⟩
    · exact ⟨x, hx, hcaller⟩

theorem Between.execAll (h : e.Between l c other)
    (hmore : ∀ act ∈ more, act = .run ∨ act = .yield) :
    ∃ e', e.execAll more = .ok e' ∧
      e'.curRoutine = some (if Even (more.count .yield) then c else other) := by
  induction more generalizing e l c other with
  | nil => exact ⟨e, rfl, h.current⟩
  | cons act more ih =>
      obtain ⟨hact, hrest⟩ := List.forall_mem_cons.mp hmore
      rcases hact with rfl | rfl
      · obtain ⟨e₁, hexec, h₁⟩ := h.run
        obtain ⟨e', hall, hcur⟩ := ih h₁ hrest
        refine ⟨e', ?_, ?_⟩
        · simp only [Engine.execAll, hexec, bind, Except.bind, hall]
        · rwa [List.count_cons_of_ne (by decide)]
      · obtain ⟨e₁, hexec, h₁⟩ := h.yield
        obtain ⟨e', hall, hcur⟩ := ih h₁ hrest
        refine ⟨e', ?_, ?_⟩
        · simp only [Engine.execAll, hexec, bind, Except.bind, hall]
        · simp only [List.count_cons_self, Nat.even_add_one, ite_not]
          exact hcur

end Engine

open Engine

/-- After a yield, coroutines that only yield or register others pass control between the one that
yielded first and the one it yielded to. -/
theorem yields_alternate {e₀ e : Engine Unit} {acts : List Action} {c : Ctx}
    (hstart : start = .ok e₀) (hallowed : e₀.AllowedAll acts) (hrun : e₀.execAll acts = .ok e)
    (hcur : e.curRoutine = some c) :
    ∃ target, e.YieldsTo target ∧ ∀ more, (∀ act ∈ more, act = .run ∨ act = .yield) →
      ∃ e', e.execAll (.yield :: more) = .ok e' ∧
        e'.curRoutine = some (if Even (more.count .yield) then target else c) := by
  obtain ⟨l, hl⟩ := progress_of_execAll hstart hallowed hrun
  obtain ⟨target, e₁, hyields, hexec, hbetween⟩ := hl.wf.yield_between hcur
  refine ⟨target, hyields, fun more hmore ↦ ?_⟩
  obtain ⟨e', hall, hcur'⟩ := hbetween.execAll hmore
  refine ⟨e', ?_, hcur'⟩
  simp only [execAll, hexec, bind, Except.bind, hall]

/-- The main coroutine registers two others; the first of them waits as long as the other two
yield. -/
theorem yields_alternate_three : ∃ e₀ e, start = .ok e₀ ∧ e₀.execAll [.run, .run] = .ok e ∧
    ∀ n, ∃ e', e.execAll (.yield :: List.replicate n .yield) = .ok e' ∧ e'.curRoutine ≠ some 1 := by
  refine ⟨_, _, rfl, rfl, fun n ↦ ?_⟩
  obtain ⟨target, ⟨e', hsched, htarget⟩, halternate⟩ := @yields_alternate _ _ [.run, .run] 0 rfl
    ⟨Option.some_ne_none 0, Option.some_ne_none 0, trivial⟩ rfl rfl
  have hsecond : target = 2 := by
    obtain rfl := Sched.switched.inj (Except.ok.inj hsched)
    exact (Option.some.inj htarget).symm
  obtain ⟨e', hall, hcur⟩ := halternate (List.replicate n .yield) fun act hact ↦
    Or.inr (List.eq_of_mem_replicate hact)
  refine ⟨e', hall, ?_⟩
  rw [hcur, hsecond]
  split
  · decide
  · decide

end CppMtHw.Coroutines
