import Mathlib.Data.List.Find
import CppMtHw.Coroutines.Completion

/-!
# Whom a yield lets run

The choice that both engines make in `sched` without an argument: the caller of the
current routine, else the first other routine of the alive list, else the current
routine itself, each of them only if it is available. Another available routine is
passed over only if the current one is its own caller.
-/

namespace CppMtHw.Coroutines

open Machine

def choice (available : Ctx → Bool) (caller : Option Ctx) (l : List Ctx) (c : Ctx) : Option Ctx :=
  ((caller.filter available).or (l.find? fun r ↦ r ≠ c ∧ available r)).or
    ((some c).filter available)

/-- A yield of `c` passes control to somebody else as soon as somebody else is available, and gives
it back exactly if `c` is the only one that is. -/
def LetsOthersRun (available passes : Ctx → Prop) (c : Ctx) : Prop :=
  ((∃ other, other ≠ c ∧ available other) → ∃ target, target ≠ c ∧ passes target) ∧
  (passes c ↔ available c ∧ ∀ other, available other → other = c)

section Choice

variable {available : Ctx → Bool} {caller : Option Ctx} {l : List Ctx} {c other target : Ctx}

theorem of_find_other (h : (l.find? fun r ↦ r ≠ c ∧ available r) = some target) :
    target ≠ c ∧ available target = true := by
  simpa using List.find?_some h

theorem filter_of_available (h : available c = true) : (some c).filter available = some c :=
  Option.filter_eq_some_iff.mpr ⟨rfl, h⟩

theorem available_of_choice (h : choice available caller l c = some target) :
    available target = true := by
  rcases Option.or_eq_some_iff.mp h with hfirst | ⟨-, hself⟩
  · rcases Option.or_eq_some_iff.mp hfirst with hcaller | ⟨-, hfind⟩
    · exact (Option.filter_eq_some_iff.mp hcaller).2
    · exact (of_find_other hfind).2
  · exact (Option.filter_eq_some_iff.mp hself).2

/-- Another available routine is enough, unless `c` is its own caller. -/
theorem exists_choice_ne (hl : ∀ r, available r = true → r ∈ l) (hother : other ≠ c)
    (havailable : available other = true) (hself : caller = some c → ¬available c = true) :
    ∃ target, target ≠ c ∧ choice available caller l c = some target := by
  cases hback : caller.filter available with
  | some r =>
      obtain ⟨hcaller, hr⟩ := Option.filter_eq_some_iff.mp hback
      refine ⟨r, ?_, by rw [choice, hback, Option.some_or, Option.some_or]⟩
      rintro rfl
      exact hself hcaller hr
  | none =>
      cases hfind : l.find? fun r ↦ r ≠ c ∧ available r with
      | some r =>
          refine ⟨r, (of_find_other hfind).1, ?_⟩
          rw [choice, hback, hfind, Option.none_or, Option.some_or]
      | none =>
          have hnone := List.find?_eq_none.mp hfind other (hl other havailable)
          exact absurd (decide_eq_true ⟨hother, havailable⟩) hnone

theorem choice_self (havailable : available c = true)
    (hsole : ∀ other, available other = true → other = c) :
    choice available caller l c = some c := by
  have hfind : (l.find? fun r ↦ r ≠ c ∧ available r) = none := by
    apply List.find?_eq_none.mpr
    intro r _ hr
    obtain ⟨hne, hr⟩ := of_decide_eq_true hr
    exact hne (hsole r hr)
  cases hback : caller.filter available with
  | some r =>
      obtain rfl := hsole r (Option.filter_eq_some_iff.mp hback).2
      rw [choice, hback, Option.some_or, Option.some_or]
  | none => rw [choice, hback, hfind, Option.none_or, Option.none_or,
      filter_of_available havailable]

theorem choice_letsOthersRun_iff (hl : ∀ r, available r = true → r ∈ l) :
    LetsOthersRun (available · = true) (choice available caller l c = some ·) c ↔
      (caller = some c → available c = true → ∀ other, available other = true → other = c) := by
  constructor
  · rintro ⟨-, hback⟩ hcaller havailable
    have hchoice : choice available caller l c = some c := by
      rw [choice, hcaller, filter_of_available havailable, Option.some_or, Option.some_or]
    exact (hback.mp hchoice).2
  · intro hself
    have hpasses (other : Ctx) (hother : other ≠ c) (havailable : available other = true) :
        ∃ target, target ≠ c ∧ choice available caller l c = some target :=
      exists_choice_ne hl hother havailable fun hcaller hc ↦
        hother (hself hcaller hc other havailable)
    refine ⟨fun ⟨other, hother, havailable⟩ ↦ hpasses other hother havailable, ?_⟩
    constructor
    · intro hchoice
      refine ⟨available_of_choice hchoice, fun other havailable ↦ ?_⟩
      by_contra hother
      obtain ⟨target, hne, htarget⟩ := hpasses other hother havailable
      exact hne (Option.some.inj (htarget.symm.trans hchoice))
    · rintro ⟨havailable, hsole⟩
      exact choice_self havailable hsole

end Choice

namespace Engine

variable {e e₀ : Engine Unit} {l : List Ctx} {c : Ctx} {x : Context Unit} {acts : List Action}

def YieldsTo (e : Engine Unit) (target : Ctx) : Prop :=
  ∃ e', e.sched none = .ok (.switched e') ∧ e'.curRoutine = some target

/-- `yield` makes the common choice among the registered routines. -/
theorem Wf.sched_choice (h : e.Wf l) (hcur : e.curRoutine = some c) (hx : e.context c = some x) :
    ∃ target, choice (fun r ↦ (e.context r).isSome) x.caller l c = some target ∧
      e.sched none = .ok (.switched (e.switched target)) := by
  have hto : ∀ target ∈ l, e.switchTo target = .ok (.switched (e.switched target)) := by
    intro target htarget
    obtain ⟨y, hy⟩ := h.listed.context_isSome htarget
    exact switchTo_eq hy (h.callee target y hy)
  have hsome : ∀ r ∈ l, (e.context r).isSome = true := fun r hr ↦
    Option.isSome_iff_ne_none.mpr ((h.listed.mem r).mp hr)
  have hfindSome : (l.find? fun r ↦ r ≠ c ∧ (e.context r).isSome) = l.find? (· ≠ c) := by
    apply List.find?_congr
    intro r hr
    simp [hsome r hr]
  cases hcaller : x.caller with
  | some r =>
      have hr := h.caller c x r hcur hx hcaller
      refine ⟨r, ?_, ?_⟩
      · rw [choice, filter_of_available (hsome r hr), Option.some_or, Option.some_or]
      · simp [sched, hcur, get_eq hx, hcaller, bind, Except.bind, hto r hr]
  | none =>
      have hfind := findOther_eq c h.listed.chain (fun c hc ↦ (h.listed.mem c).mp hc)
        h.listed.length_le
      rw [choice, Option.filter_none, Option.none_or, hfindSome]
      cases hother : l.find? (· ≠ c) with
      | some p =>
          rw [hother] at hfind
          refine ⟨p, rfl, ?_⟩
          simp [sched, hcur, get_eq hx, hcaller, bind, Except.bind, hfind,
            hto p (List.mem_of_find?_eq_some hother)]
      | none =>
          have hc := h.current c hcur
          rw [hother] at hfind
          refine ⟨c, (Option.none_or).trans (filter_of_available (hsome c hc)), ?_⟩
          simp [sched, hcur, get_eq hx, hcaller, bind, Except.bind, hfind, hto c hc]

theorem callerIsItself_iff (hcur : e.curRoutine = some c) (hx : e.context c = some x) :
    e.CallerIsItself ↔ x.caller = some c := by
  constructor
  · rintro ⟨c', y, hc', hy, hcaller⟩
    obtain rfl := Option.some.inj (hcur.symm.trans hc')
    rwa [Option.some.inj (hx.symm.trans hy)]
  · intro hcaller
    exact ⟨c, x, hcur, hx, hcaller⟩

theorem Wf.letsOthersRun_iff (h : e.Wf l) (hcur : e.curRoutine = some c) :
    LetsOthersRun (fun r ↦ e.context r ≠ none) e.YieldsTo c ↔
      ¬e.CallerIsItself ∨ ∀ other, e.context other ≠ none → other = c := by
  obtain ⟨x, hx⟩ := h.listed.context_isSome (h.current c hcur)
  obtain ⟨target, hchoice, hsched⟩ := h.sched_choice hcur hx
  have hpasses : e.YieldsTo = (choice (fun r ↦ (e.context r).isSome) x.caller l c = some ·) := by
    funext t
    apply propext
    rw [hchoice, YieldsTo, hsched]
    constructor
    · rintro ⟨e', he', ht⟩
      obtain rfl := Sched.switched.inj (Except.ok.inj he')
      exact ht
    · intro ht
      exact ⟨_, rfl, ht⟩
  have havailable : (fun r ↦ e.context r ≠ none) = ((fun r ↦ (e.context r).isSome) · = true) := by
    funext r
    exact propext Option.isSome_iff_ne_none.symm
  rw [hpasses, callerIsItself_iff hcur hx]
  refine (iff_of_eq (congrArg (LetsOthersRun · _ c) havailable)).trans ?_
  rw [choice_letsOthersRun_iff fun r hr ↦ (h.listed.mem r).mpr (Option.isSome_iff_ne_none.mp hr),
    ← imp_iff_not_or]
  simp only [Option.isSome_iff_ne_none]
  have hc : e.context c ≠ none := by simp [hx]
  exact ⟨fun hsole hcaller ↦ hsole hcaller hc, fun hsole hcaller _ ↦ hsole hcaller⟩

end Engine

end CppMtHw.Coroutines
