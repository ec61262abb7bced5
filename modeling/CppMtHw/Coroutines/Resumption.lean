import CppMtHw.Coroutines.AliveList
import CppMtHw.Coroutines.Engine

/-!
# When a completed coroutine is resumed

No coroutine ever has a `callee`, and the `caller` of the running one is what
`sched` stored at the last transfer of control: the routine that was running then.
That routine is still registered unless it is the running one itself, which happens
when the only coroutine yields or when a coroutine schedules itself. Returning with
such a `caller` hands control to the context just deleted, and nothing else does.
-/

namespace CppMtHw.Coroutines

open Machine

namespace Engine

variable {e : Engine Unit} {l : List Ctx} {c : Ctx} {x : Context Unit}

/-- What holds whenever a coroutine runs or `start` has returned. -/
structure Wf (e : Engine Unit) (l : List Ctx) : Prop where
  listed : e.Listed l
  callee : ∀ c x, e.context c = some x → x.callee = none
  current : ∀ c, e.curRoutine = some c → c ∈ l
  caller : ∀ c x r, e.curRoutine = some c → e.context c = some x → x.caller = some r → r ∈ l

def switched (e : Engine Unit) (routine : Ctx) : Engine Unit :=
  { e.mapAt (some routine) fun y ↦ { y with caller := e.curRoutine } with
    curRoutine := some routine }

theorem lastCallee_eq {fuel : ℕ} (hx : e.context c = some x) (hcallee : x.callee = none) :
    e.lastCallee fuel c = .ok c := by
  cases fuel <;> simp [lastCallee, get_eq hx, hcallee, bind, Except.bind]

theorem switchTo_eq (hx : e.context c = some x) (hcallee : x.callee = none) :
    e.switchTo c = .ok (.switched (e.switched c)) := by
  have hmod := modifyOpt_eq (e := e) (c := some c) (f := fun y ↦ { y with caller := e.curRoutine })
    (by rintro c' ⟨⟩; rw [hx]; simp)
  simp only [switchTo, hx, hcallee, bind, Except.bind, lastCallee_eq hx hcallee]
  simp only [modifyOpt] at hmod
  rw [hmod]
  rfl

theorem switchTo_deleted (hx : e.context c = none) : e.switchTo c = .error (.resumed c) := by
  simp only [switchTo, hx]

/-- The search finds the first other routine of the alive list, and ends. -/
theorem findOther_eq {fuel : ℕ} {first : Option Ctx} (cur : Ctx) (hchain : Chain e.nextOf first l)
    (hregistered : ∀ c ∈ l, e.context c ≠ none) (hfuel : l.length ≤ fuel) :
    e.findOther cur fuel first = .ok (l.find? (· ≠ cur)) := by
  induction l generalizing first fuel with
  | nil =>
      rw [chain_nil] at hchain
      subst hchain
      cases fuel <;> rfl
  | cons a as ih =>
      obtain ⟨rfl, hrest⟩ := hchain
      cases fuel with
      | zero => simp at hfuel
      | succ fuel =>
          obtain ⟨y, hy⟩ := Option.ne_none_iff_exists'.mp (hregistered a List.mem_cons_self)
          simp only [nextOf, hy, Option.bind_some] at hrest
          have hih := ih hrest (fun c hc ↦ hregistered c (List.mem_cons_of_mem a hc))
            (Nat.le_of_succ_le_succ hfuel)
          by_cases ha : a = cur
          · subst ha
            simp [findOther, get_eq hy, bind, Except.bind, hih]
          · simp [findOther, ha]

theorem Wf.switched (h : e.Wf l) (hc : c ∈ l) : (e.switched c).Wf l where
  listed := (h.listed.mapAt (some c) (fun y ↦ { y with caller := e.curRoutine })
    (fun _ ↦ rfl) fun _ ↦ rfl).setCurrent (some c)
  callee c' y hy := by
    simp only [Engine.switched, Engine.mapAt] at hy
    split at hy
    · obtain ⟨z, hz, rfl⟩ := Option.map_eq_some_iff.mp hy
      exact h.callee c' z hz
    · exact h.callee c' y hy
  current c' hc' := by
    obtain rfl : c = c' := Option.some.inj hc'
    exact hc
  caller c' y r hc' hy hr := by
    obtain rfl : c = c' := Option.some.inj hc'
    simp only [Engine.switched, Engine.mapAt, if_true] at hy
    obtain ⟨z, hz, rfl⟩ := Option.map_eq_some_iff.mp hy
    exact h.current r hr

/-- Scheduling a registered routine passes control to it. -/
theorem Wf.sched_some (h : e.Wf l) (hc : c ∈ l) :
    e.sched (some c) = .ok (.switched (e.switched c)) := by
  obtain ⟨x, hx⟩ := h.listed.context_isSome hc
  exact switchTo_eq hx (h.callee c x hx)

/-- Without a running routine `sched` takes the head of the alive list, if there is one. -/
theorem Wf.sched_idle (h : e.Wf l) (hcur : e.curRoutine = none) :
    e.sched none = .ok (match l.head? with
      | none => .returned
      | some c => .switched (e.switched c)) := by
  have hchain := h.listed.chain
  cases l with
  | nil =>
      rw [chain_nil] at hchain
      simp only [sched, hcur, hchain, List.head?_nil]
  | cons a as =>
      rw [chain_cons] at hchain
      have hsome := h.sched_some (c := a) List.mem_cons_self
      simp only [sched, hcur, hchain.1, List.head?_cons] at hsome ⊢
      exact hsome

/-- `yield` passes control to a registered routine, possibly to the one that yields. -/
theorem Wf.sched_none (h : e.Wf l) (hcur : e.curRoutine = some c) :
    ∃ target ∈ l, e.sched none = .ok (.switched (e.switched target)) := by
  obtain ⟨x, hx⟩ := h.listed.context_isSome (h.current c hcur)
  have hto : ∀ target ∈ l, e.switchTo target = .ok (.switched (e.switched target)) := by
    intro target htarget
    obtain ⟨y, hy⟩ := h.listed.context_isSome htarget
    exact switchTo_eq hy (h.callee target y hy)
  cases hcaller : x.caller with
  | some r =>
      have hr := h.caller c x r hcur hx hcaller
      refine ⟨r, hr, ?_⟩
      simp [sched, hcur, get_eq hx, hcaller, bind, Except.bind, hto r hr]
  | none =>
      have hfind := findOther_eq c h.listed.chain (fun c hc ↦ (h.listed.mem c).mp hc)
        h.listed.length_le
      cases hother : l.find? (· ≠ c) with
      | some p =>
          rw [hother] at hfind
          have hp := List.mem_of_find?_eq_some hother
          refine ⟨p, hp, ?_⟩
          simp [sched, hcur, get_eq hx, hcaller, bind, Except.bind, hfind, hto p hp]
      | none =>
          rw [hother] at hfind
          refine ⟨c, h.current c hcur, ?_⟩
          simp [sched, hcur, get_eq hx, hcaller, bind, Except.bind, hfind,
            hto c (h.current c hcur)]

theorem Wf.registered (h : e.Wf l) : (e.registered ()).Wf (e.created :: l) where
  listed := h.listed.registered ()
  callee c' y hy := by
    simp only [Engine.registered] at hy
    split at hy
    · cases hy
      rfl
    · split at hy
      · obtain ⟨z, hz, rfl⟩ := Option.map_eq_some_iff.mp hy
        exact h.callee c' z hz
      · exact h.callee c' y hy
  current c' hc' := List.mem_cons_of_mem _ (h.current c' hc')
  caller c' y r hc' hy hr := by
    have hmem := h.current c' hc'
    simp only [Engine.registered, if_neg (Nat.ne_of_lt (h.listed.bound c' hmem))] at hy
    refine List.mem_cons_of_mem _ ?_
    split at hy
    · obtain ⟨z, hz, rfl⟩ := Option.map_eq_some_iff.mp hy
      exact h.caller c' z r hc' hz hr
    · exact h.caller c' y r hc' hy hr

theorem Wf.completed (h : e.Wf l) (hx : e.context c = some x) :
    (e.completed c x).Wf (l.erase c) where
  listed := h.listed.completed_erase hx
  callee c' y hy := by
    have hc' : c' ≠ c ∧ e.context c' ≠ none :=
      completed_context_ne_none.mp (by rw [hy]; simp)
    simp only [Engine.completed, if_neg hc'.1] at hy
    obtain ⟨z, hz⟩ := Option.ne_none_iff_exists'.mp hc'.2
    have hz' := h.callee c' z hz
    simp only [Engine.mapAt, hz] at hy
    split at hy <;> split at hy <;> split at hy <;> cases hy <;> first | rfl | exact hz'
  current c' hc' := by cases hc'
  caller c' y r hc' := by cases hc'

/-! ## Runs -/

def CallerIsItself (e : Engine Unit) : Prop :=
  ∃ c x, e.curRoutine = some c ∧ e.context c = some x ∧ x.caller = some c

/-- The idle context passes control to a coroutine, or `start` returns and there is none. -/
theorem Wf.idle_ok (h : e.Wf l) (hcur : e.curRoutine = none) : ∃ e', e.idle = .ok e' ∧ e'.Wf l ∧
    e'.created = e.created ∧ (e'.curRoutine = none → l = []) := by
  have hsched := h.sched_idle hcur
  cases l with
  | nil => exact ⟨e, by simp [idle, hsched, bind, Except.bind], h, rfl, fun _ ↦ rfl⟩
  | cons a as =>
      exact ⟨e.switched a, by simp [idle, hsched, bind, Except.bind],
        h.switched List.mem_cons_self, rfl, nofun⟩

/-- A coroutine whose caller is itself hands control to its own deleted context. -/
theorem Wf.exec_ret_itself (h : e.Wf l) (hself : e.CallerIsItself) :
    ∃ c, e.exec .ret = .error (.resumed c) := by
  obtain ⟨c, x, hcur, hx, hcaller⟩ := hself
  have hcomplete := h.listed.complete_eq hcur hx fun r hr ↦ (h.listed.mem r).mp
    (h.caller c x r hcur hx hr)
  have hdeleted : (e.completed c x).context c = none := if_pos rfl
  refine ⟨c, ?_⟩
  simp only [exec, hcur, bind, Except.bind, hcomplete, hcaller, sched, switchTo_deleted hdeleted]

def listAfter (e : Engine Unit) (l : List Ctx) : Action → List Ctx
  | .run => e.created :: l
  | .ret =>
      match e.curRoutine with
      | some c => l.erase c
      | none => l
  | _ => l

def createdAfter (e : Engine Unit) : Action → ℕ
  | .run => e.created + 1
  | _ => e.created

/-- Every other allowed action goes through and keeps the engine well formed; `start` returns only
if the list is empty then. -/
theorem Wf.exec_ok (h : e.Wf l) {act : Action} (hallowed : e.Allowed act)
    (hret : act = .ret → ¬e.CallerIsItself) : ∃ e', e.exec act = .ok e' ∧
    e'.Wf (e.listAfter l act) ∧
      e'.created = e.createdAfter act ∧ (e'.curRoutine = none → e.listAfter l act = []) := by
  cases act with
  | run =>
      refine ⟨_, ?_, h.registered, rfl, fun hidle ↦ absurd hidle hallowed⟩
      simp only [exec, h.listed.run_eq, bind, Except.bind]
  | yield =>
      obtain ⟨c, hcur⟩ := Option.ne_none_iff_exists'.mp hallowed
      obtain ⟨target, htarget, hsched⟩ := h.sched_none hcur
      refine ⟨_, ?_, h.switched htarget, rfl, nofun⟩
      simp only [exec, hsched, bind, Except.bind]
  | sched routine =>
      have hmem := (h.listed.mem routine).mpr hallowed.2
      refine ⟨_, ?_, h.switched hmem, rfl, nofun⟩
      simp only [exec, h.sched_some hmem, bind, Except.bind]
  | ret =>
      obtain ⟨c, hcur⟩ := Option.ne_none_iff_exists'.mp hallowed
      obtain ⟨x, hx⟩ := h.listed.context_isSome (h.current c hcur)
      have hcomplete := h.listed.complete_eq hcur hx fun r hr ↦ (h.listed.mem r).mp
        (h.caller c x r hcur hx hr)
      have hwf := h.completed hx
      have hlist : e.listAfter l .ret = l.erase c := by simp only [listAfter, hcur]
      rw [hlist]
      cases hcaller : x.caller with
      | none =>
          obtain ⟨e', he', hwf', hcreated, hidle⟩ := hwf.idle_ok rfl
          refine ⟨e', ?_, hwf', hcreated, hidle⟩
          simp only [exec, hcur, bind, Except.bind, hcomplete, hcaller, he']
      | some r =>
          have hrc : r ≠ c := by
            rintro rfl
            exact hret rfl ⟨r, x, hcur, hx, hcaller⟩
          have hr : r ∈ l.erase c := (List.mem_erase_of_ne hrc).mpr (h.caller c x r hcur hx hcaller)
          refine ⟨_, ?_, hwf.switched hr, rfl, nofun⟩
          simp only [exec, hcur, bind, Except.bind, hcomplete, hcaller, hwf.sched_some hr]

theorem wf_empty : (empty : Engine Unit).Wf [] :=
  ⟨listed_empty, by simp [empty], by simp [empty], by simp [empty]⟩

/-- `start` passes control to the main coroutine. -/
theorem start_eq : start = .ok (((empty : Engine Unit).registered ()).switched 0) := by
  have hsched := wf_empty.registered.sched_some (c := 0) (by simp [empty])
  simp only [start, listed_empty.run_eq, bind, Except.bind]
  rw [show (empty : Engine Unit).created = 0 from rfl, hsched]

theorem wf_start (hstart : start = .ok e) : e.Wf [0] := by
  rw [start_eq] at hstart
  rw [← Except.ok.inj hstart]
  exact wf_empty.registered.switched (by simp [empty])

/-- From a well-formed engine: control passes to a completed context exactly when a coroutine whose
caller is itself returns. -/
theorem Wf.execAll_resumed_iff (h : e.Wf l) {acts : List Action} (hallowed : e.AllowedAll acts) :
    (∃ c, e.execAll acts = .error (.resumed c)) ↔
      ∃ before after e', acts = before ++ .ret :: after ∧ e.execAll before = .ok e' ∧
        e'.CallerIsItself := by
  induction acts generalizing e l with
  | nil => simp [execAll]
  | cons act acts ih =>
      obtain ⟨hact, hrest⟩ := hallowed
      by_cases hret : act = .ret → ¬e.CallerIsItself
      · obtain ⟨e₁, hexec, hwf, -⟩ := h.exec_ok hact hret
        rw [hexec] at hrest
        have hih := ih hwf hrest
        have hstep : ∀ acts, e.execAll (act :: acts) = e₁.execAll acts := fun acts ↦ by
          simp only [execAll, hexec, bind, Except.bind]
        rw [hstep, hih]
        constructor
        · rintro ⟨before, after, e', rfl, hbefore, hself⟩
          exact ⟨act :: before, after, e', rfl, (hstep before).trans hbefore, hself⟩
        · rintro ⟨before, after, e', hacts, hbefore, hself⟩
          cases before with
          | nil =>
              obtain ⟨rfl, -⟩ := List.cons.inj hacts
              obtain rfl : e = e' := Except.ok.inj hbefore
              exact absurd hself (hret rfl)
          | cons b bs =>
              obtain ⟨rfl, rfl⟩ := List.cons.inj hacts
              exact ⟨bs, after, e', rfl, (hstep bs).symm.trans hbefore, hself⟩
      · push Not at hret
        obtain ⟨rfl, hself⟩ := hret
        obtain ⟨c, hexec⟩ := h.exec_ret_itself hself
        refine iff_of_true ⟨c, ?_⟩ ⟨[], acts, e, rfl, rfl, hself⟩
        simp only [execAll, hexec, bind, Except.bind]

end Engine

/-- A program of coroutines never resumes a completed one if and only if no coroutine returns while
its `caller` is itself. -/
theorem completed_never_resumed_iff {e : Engine Unit} (hstart : Engine.start = .ok e)
    {acts : List Engine.Action} (hallowed : e.AllowedAll acts) :
    (∀ c, e.execAll acts ≠ .error (.resumed c)) ↔
      ∀ before after e', acts = before ++ .ret :: after → e.execAll before = .ok e' →
        ¬e'.CallerIsItself := by
  have hiff := not_congr ((Engine.wf_start hstart).execAll_resumed_iff hallowed)
  push Not at hiff
  exact hiff

/-- The main coroutine yields while it is the only one, and then returns. -/
theorem completed_resumed_after_yield :
    ¬∀ e acts, Engine.start = .ok e → e.AllowedAll acts →
      ∀ c, e.execAll acts ≠ .error (.resumed c) := by
  intro hnever
  exact hnever _ [.yield, .ret] rfl
    ⟨Option.some_ne_none 0, Option.some_ne_none 0, trivial⟩ 0 rfl

/-- The main coroutine starts another one and yields to it; both return. -/
theorem completed_never_resumed_handover :
    ∃ e, Engine.start = .ok e ∧ ∀ before after e',
      [.run, .yield, .ret, .ret] = before ++ Engine.Action.ret :: after →
      e.execAll before = .ok e' → ¬e'.CallerIsItself := by
  refine ⟨_, rfl, (completed_never_resumed_iff rfl ?_).mp ?_⟩
  · exact ⟨Option.some_ne_none 0, Option.some_ne_none 0, Option.some_ne_none 1,
      Option.some_ne_none 0, trivial⟩
  · intro c hresumed
    cases hresumed

end CppMtHw.Coroutines
