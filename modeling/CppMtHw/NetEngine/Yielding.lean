import CppMtHw.Coroutines.Yielding
import CppMtHw.NetEngine.SchedCalls

/-!
# Whom a yield of the net engine lets run

The net engine makes the choice of the plain one among the contexts that are not
locked. A call of `yield` is one of the running coroutine itself or one that
`send_channel` and `recv_channel` make after they have locked it; of the calls of
`sched` without an argument they are those with a routine running.
-/

namespace CppMtHw.NetEngine

open Machine Coroutines

variable {e : Engine LockedState} {l : List Ctx} {c : Ctx} {x : Context LockedState}

def Available (e : Engine LockedState) (c : Ctx) : Prop := lockOf e c = some .notLocked

instance (e : Engine LockedState) : DecidablePred (Available e) := fun c ↦
  inferInstanceAs (Decidable (lockOf e c = some .notLocked))

def YieldsTo (e : Engine LockedState) (target : Ctx) : Prop :=
  ∃ e', sched e none = .ok (.switched e') ∧ e'.curRoutine = some target

def CallerIsItself (e : Engine LockedState) : Prop :=
  ∃ c x, e.curRoutine = some c ∧ e.context c = some x ∧ x.caller = some c

/-- `yield` makes the common choice among the contexts that are not locked; if there is none, the
process exits with the dead lock message. -/
theorem Steady.sched_choice (h : Steady e l) (hcur : e.curRoutine = some c)
    (hx : e.context c = some x) :
    sched e none = .ok (match choice (fun r ↦ Available e r) x.caller l c with
      | some target => .switched (NetEngine.resumed e target)
      | none => .deadLock) := by
  have hsearch : findUnlocked e (some c) e.created e.alive =
      .ok (l.find? fun r ↦ r ≠ c ∧ decide (Available e r)) := by
    rw [findUnlocked_alive h.listed]
    apply congrArg
    apply List.find?_congr
    intro r _
    apply decide_eq_decide.mpr
    rw [ne_comm, ne_eq, ne_eq, Option.some.injEq, decide_eq_true_iff, Available]
  have hcaller : unlockedCaller e c = .ok (x.caller.filter fun r ↦ Available e r) :=
    unlockedCaller_eq hx fun r hr ↦ h.caller c r hcur (by rw [hx]; exact hr)
  cases hback : x.caller.filter fun r ↦ Available e r with
  | some target =>
      have hfree : Available e target := of_decide_eq_true (Option.filter_eq_some_iff.mp hback).2
      rw [choice, hback, Option.some_or, Option.some_or]
      simp only [sched, requested, ok_bind, hcur, hcaller, hback, switchTo_of_free h.flat hfree]
  | none =>
      rw [choice, hback, Option.none_or]
      cases hfind : l.find? fun r ↦ r ≠ c ∧ decide (Available e r) with
      | some target =>
          have hfree : Available e target := of_decide_eq_true (of_find_other hfind).2
          rw [Option.some_or]
          simp only [sched, requested, ok_bind, hcur, hcaller, hback, hsearch, hfind,
            switchTo_of_free h.flat hfree]
      | none =>
          rw [Option.none_or, Option.filter_some]
          have hlock : Available e c ↔ x.locked = .notLocked := by
            rw [Available, lockOf_eq_some]
            constructor
            · rintro ⟨y, hy, hlocked⟩
              rwa [Option.some.inj (hx.symm.trans hy)]
            · intro hlocked
              exact ⟨x, hx, hlocked⟩
          by_cases hself : x.locked = .notLocked
          · rw [if_pos (decide_eq_true (hlock.mpr hself))]
            simp only [sched, requested, ok_bind, hcur, hcaller, hback, hsearch, hfind,
              Engine.get_eq hx, if_pos hself, switchTo_of_free h.flat (hlock.mpr hself)]
          · rw [if_neg fun havailable ↦ hself (hlock.mp (of_decide_eq_true havailable))]
            simp only [sched, requested, ok_bind, hcur, hcaller, hback, hsearch, hfind,
              Engine.get_eq hx, if_neg hself]

theorem callerIsItself_iff (hcur : e.curRoutine = some c) (hx : e.context c = some x) :
    CallerIsItself e ↔ x.caller = some c := by
  constructor
  · rintro ⟨c', y, hc', hy, hcaller⟩
    obtain rfl := Option.some.inj (hcur.symm.trans hc')
    rwa [Option.some.inj (hx.symm.trans hy)]
  · intro hcaller
    exact ⟨c, x, hcur, hx, hcaller⟩

theorem Steady.letsOthersRun_iff (h : Steady e l) (hcur : e.curRoutine = some c) :
    LetsOthersRun (Available e) (YieldsTo e) c ↔
      ¬CallerIsItself e ∨ ¬Available e c ∨ ∀ other, Available e other → other = c := by
  obtain ⟨x, hx⟩ := Option.ne_none_iff_exists'.mp (h.current c hcur)
  have hsched := h.sched_choice hcur hx
  have hpasses : YieldsTo e = (choice (fun r ↦ Available e r) x.caller l c = some ·) := by
    funext t
    apply propext
    rw [YieldsTo, hsched]
    cases choice (fun r ↦ decide (Available e r)) x.caller l c with
    | some target =>
        constructor
        · rintro ⟨e', he', ht⟩
          obtain rfl := Outcome.switched.inj (Except.ok.inj he')
          exact ht
        · intro ht
          exact ⟨_, rfl, ht⟩
    | none =>
        refine iff_of_false ?_ (by simp)
        rintro ⟨e', he', -⟩
        cases Except.ok.inj he'
  have havailable : Available e = ((fun r ↦ decide (Available e r)) · = true) := by
    funext r
    exact propext decide_eq_true_iff.symm
  have hmem (r : Ctx) (hr : decide (Available e r) = true) : r ∈ l :=
    (h.listed.mem r).mpr (lockOf_ne_none (of_decide_eq_true hr))
  rw [hpasses, callerIsItself_iff hcur hx, ← imp_iff_not_or, ← imp_iff_not_or]
  refine (iff_of_eq (congrArg (LetsOthersRun · _ c) havailable)).trans ?_
  rw [choice_letsOthersRun_iff hmem]
  simp only [decide_eq_true_eq]

/-- In every reachable state of the plain engine, and at every call of `yield` in a reachable state
of the net engine, a yield lets others run if and only if the coroutine that yields did not get
control from itself, or is not available itself, or is the only one that is. -/
theorem yield_lets_others_run_iff (e₀ e : Engine Unit) (acts : List Engine.Action) (w : World)
    (history : List Event) (e' : Engine LockedState) (c : Ctx) :
    (Engine.start = .ok e₀ → e₀.AllowedAll acts → e₀.execAll acts = .ok e → e.curRoutine = some c →
      (LetsOthersRun (fun r ↦ e.context r ≠ none) e.YieldsTo c ↔
        ¬e.CallerIsItself ∨ ∀ other, e.context other ≠ none → other = c)) ∧
    (w.Reaches history → w.exited = false → w.engine.curRoutine = some c → w.Enters c e' none →
      e'.curRoutine = some c →
      (LetsOthersRun (Available e') (YieldsTo e') c ↔
        ¬CallerIsItself e' ∨ ¬Available e' c ∨ ∀ other, Available e' other → other = c)) := by
  constructor
  · intro hstart hallowed hrun hcur
    obtain ⟨l, hl⟩ := Engine.progress_of_execAll hstart hallowed hrun
    exact hl.wf.letsOthersRun_iff hcur
  · intro hreaches _ hrunning henters hcur
    obtain ⟨l, hl⟩ := hreaches.steady
    obtain ⟨l', hl'⟩ := henters.steady hl hrunning
    exact hl'.letsOthersRun_iff hcur

/-- The main coroutine has registered another one and yields, under either engine. -/
theorem yield_lets_others_run_two :
    (∃ e, e.curRoutine = some 0 ∧ e.context 1 ≠ none ∧ ∃ target, target ≠ 0 ∧
      Engine.YieldsTo e target) ∧
    (∃ w history, World.Reaches w history ∧ ∃ target, target ≠ 0 ∧ YieldsTo w.engine target) := by
  have hplay : ((World.playFromStart [.run]).map fun r ↦ (r.2.engine.curRoutine, r.2.exited,
      r.2.point 0, (r.2.engine.context 0).bind Context.caller, lockOf r.2.engine 1)) =
        some (some 0, false, .body, none, some .notLocked) := by
    decide +kernel
  obtain ⟨⟨history, w⟩, hw, hplay⟩ := Option.map_eq_some_iff.mp hplay
  simp only [Prod.mk.injEq] at hplay
  obtain ⟨hcur, hexited, hpoint, hcaller, hother⟩ := hplay
  constructor
  · have hallowed : (((Engine.empty : Engine Unit).registered ()).switched 0).AllowedAll [.run] :=
      ⟨Option.some_ne_none 0, trivial⟩
    have hiff := (yield_lets_others_run_iff _ _ [.run] w history w.engine 0).1 Engine.start_eq
      hallowed rfl rfl
    have hlets := hiff.mpr (Or.inl ?_)
    · exact ⟨_, rfl, Option.some_ne_none _, hlets.1 ⟨1, Nat.one_ne_zero, Option.some_ne_none _⟩⟩
    · rintro ⟨c, x, hc, hx, hcaller⟩
      cases hc
      cases hx
      cases hcaller
  · have hreaches := World.reaches_of_play hw
    have hself : ¬CallerIsItself w.engine := by
      rintro ⟨c, x, hc, hx, hx'⟩
      obtain rfl := Option.some.inj (hcur.symm.trans hc)
      rw [hx, Option.bind_some, hx'] at hcaller
      cases hcaller
    have hiff := (yield_lets_others_run_iff .empty .empty [] w history w.engine 0).2 hreaches
      hexited hcur (.yield hpoint) hcur
    exact ⟨w, history, hreaches, (hiff.mpr (Or.inl hself)).1 ⟨1, Nat.one_ne_zero, hother⟩⟩

/-- The main coroutine yields while it is the only one, registers another one, and yields again: it
gets control back. -/
theorem yield_back_to_itself :
    ∃ e₀ e acts, Engine.start = .ok e₀ ∧ e₀.AllowedAll acts ∧ e₀.execAll acts = .ok e ∧
      e.curRoutine = some 0 ∧ e.context 1 ≠ none ∧ Engine.YieldsTo e 0 ∧
      ¬LetsOthersRun (fun r ↦ e.context r ≠ none) e.YieldsTo 0 := by
  have hallowed : (((Engine.empty : Engine Unit).registered ()).switched 0).AllowedAll
      [.yield, .run] := ⟨Option.some_ne_none 0, Option.some_ne_none 0, trivial⟩
  refine ⟨_, _, [.yield, .run], Engine.start_eq, hallowed, rfl, rfl, Option.some_ne_none _,
    ⟨_, rfl, rfl⟩, ?_⟩
  intro hlets
  have hsole := (hlets.2.mp ⟨_, rfl, rfl⟩).2
  exact Nat.one_ne_zero (hsole 1 (Option.some_ne_none _))

end CppMtHw.NetEngine
