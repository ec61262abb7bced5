import Mathlib.Data.List.ReduceOption
import CppMtHw.Coroutines.Proper
import CppMtHw.NetEngine.DeadLock
import CppMtHw.NetEngine.LockTable
import CppMtHw.NetEngine.PlainEngine

/-!
# Runs in which no coroutine blocks

A call on a channel that does not block leaves the engine as it is. What is left of a run
of the net engine in which no coroutine blocks are the actions that the plain engine
knows, and these lead it through the same states. Every run of the plain engine arises
so.
-/

namespace CppMtHw.NetEngine

open Machine Coroutines World

variable {w w' : World} {c : Ctx} {d : ℤ} {reason : LockedState} {p : Point} {routine : Option Ctx}
  {events : List Event} {act : Action} {engineAct : Engine.Action}
  {label : Engine.Action × Engine Unit} {labels : List (Engine.Action × Engine Unit)}

def worldAction : Engine.Action → Action
  | .run => .run
  | .yield => .yield
  | .sched routine => .sched routine
  | .ret => .ret

/-- A step of the plain engine; its label is the action and the state that it leads to. -/
def LeadsTo (e : Engine Unit) (label : Engine.Action × Engine Unit) (e' : Engine Unit) : Prop :=
  e.Allowed label.1 ∧ e.exec label.1 = .ok e' ∧ label.2 = e'

/-- A step of the net engine after which no context is locked. A call on a channel is none of the
plain engine's actions. -/
inductive CalmStep (w : World) : Option (Engine.Action × Engine Unit) → World → Prop
  | engine {w' : World} (act : Engine.Action) (htakes : w.Takes (worldAction act) w')
      (hcalm : ∀ c x, w'.engine.context c = some x → x.locked = .notLocked) :
      CalmStep w (some (act, plain w'.engine)) w'
  | channel {w' : World} (act : Action) (hact : ∀ engineAct, act ≠ worldAction engineAct)
      (htakes : w.Takes act w') (hcalm : ∀ c x, w'.engine.context c = some x →
        x.locked = .notLocked) :
      CalmStep w none w'

/-- No coroutine waits, so every one continues in its body. -/
structure Quiet (w : World) : Prop where
  unblocked : Unblocked w.engine
  steady : ∃ l, Steady w.engine l
  body : ∀ c, w.point c = .body
  running : w.exited = false

/-! ## The actions of the plain engine -/

/-- The two engines are in the same state, and nothing else has changed. -/
def Follows (w : World) (e : Engine Unit) (w' : World) : Prop :=
  Mirrors e w'.engine ∧ w'.point = w.point ∧ w'.exited = w.exited

theorem agree_schedule (h : Unblocked w.engine) (routine : Option Ctx) :
    Agree (Follows w)
      (do
        match ← (plain w.engine).sched routine with
        | .returned => .ok (plain w.engine)
        | .switched e' => .ok e')
      (w.schedule routine) := by
  refine Agree.bind (agree_sched h routine) ?_
  intro outcome outcome' hsame
  cases hsame with
  | returned => exact Agree.ok ⟨⟨rfl, h⟩, rfl, rfl⟩
  | switched h' => exact Agree.ok ⟨⟨rfl, h'⟩, rfl, rfl⟩

/-- The end of a coroutine's body. -/
theorem agree_ret (h : Unblocked w.engine) (hcur : w.engine.curRoutine = some c) :
    Agree (Follows w) ((plain w.engine).exec .ret) (w.complete c) := by
  have hcur' : (plain w.engine).curRoutine = some c := hcur
  simp only [Engine.exec, hcur', World.complete]
  refine Agree.bind (agree_complete h) ?_
  rintro ⟨next, e⟩ ⟨next', e'⟩ ⟨hnext, he, h'⟩
  obtain rfl : next = next' := hnext
  obtain rfl : e = plain e' := he
  have hidle : Agree (Follows w) (plain e').idle ({ w with engine := e' }.schedule none) :=
    agree_schedule (w := { w with engine := e' }) h' none
  cases next with
  | none => exact hidle
  | some routine =>
      refine Agree.bind (agree_sched h' (some routine)) ?_
      intro outcome outcome' hsame
      cases hsame with
      | returned => exact hidle
      | switched h'' => exact Agree.ok ⟨⟨rfl, h''⟩, rfl, rfl⟩

theorem agree_exec (h : Unblocked w.engine) (hcur : w.engine.curRoutine = some c)
    (act : Engine.Action) :
    Agree (fun e result ↦ Follows w e result.2) ((plain w.engine).exec act)
      (w.exec c (worldAction act)) := by
  have hreported : ∀ {x : Except Fault (Engine Unit)} {y : Except Fault World},
      Agree (Follows w) x y →
      Agree (fun e result ↦ Follows w e result.2) x (do .ok (([] : List Event), ← y)) := by
    intro x y hagree
    cases hagree with
    | ok hfollows => exact Agree.ok hfollows
    | error => exact Agree.error
  cases act with
  | run =>
      refine Agree.bind (agree_run h) ?_
      rintro ⟨pc, e⟩ ⟨pc', e'⟩ ⟨-, hmirrors⟩
      exact Agree.ok ⟨hmirrors, rfl, rfl⟩
  | yield => exact hreported (agree_schedule h none)
  | sched routine => exact hreported (agree_schedule h (some routine))
  | ret => exact hreported (agree_ret h hcur)

/-! ## Calls on channels -/

theorem unlocked_eq_self {e : Engine LockedState} (h : Unblocked e) (hreason : reason ≠ .notLocked)
    (cs : List Ctx) : unlocked e reason cs = e := by
  have hcontext : (unlocked e reason cs).context = e.context := by
    funext c
    rw [unlocked_context]
    cases hx : e.context c with
    | none => rfl
    | some x =>
        have hfree : ¬(c ∈ cs ∧ x.locked = reason) := fun hlocked ↦
          hreason (hlocked.2.symm.trans (h.unlocked c x hx))
        rw [Option.map_some, if_neg hfree]
  exact congrArg (fun context ↦ { e with context := context }) hcontext

/-- A context that waits is locked. -/
theorem lockOf_self_suspended {l : List Ctx} (hl : Steady w.engine l)
    (h : w.Suspended c d reason p w') : lockOf w'.engine c = some reason := by
  obtain ⟨w₁, hlock, hschedule⟩ := h
  obtain ⟨hcontext, heq, -⟩ := lock_ok hlock
  have hlocked := lock_steady hl hlock
  calc
    lockOf w'.engine c = lockOf w₁.engine c := lockOf_schedule (w := w₁.at_ c p) hlocked hschedule
    _ = lockOf (w.engine.mapAt (some c) fun x ↦ { x with locked := reason }) c := by rw [heq]
    _ = some reason := (lockOf_lock hcontext).trans (if_pos rfl)

/-- What is left unchanged by a call on a channel that does not block. -/
def Leaves (w w' : World) : Prop :=
  w'.engine = w.engine ∧ (∀ c, w'.point c = .body) ∧ w'.exited = w.exited

theorem leaves_newChannel (h : Quiet w) (d : ℤ) (fresh : FreshBuffer) :
    Leaves w (w.newChannel d fresh) := by
  unfold newChannel
  split <;> exact ⟨rfl, h.body, rfl⟩

theorem leaves_at_body (h : Quiet w) (c : Ctx) : Leaves w (w.at_ c .body) := by
  refine ⟨rfl, fun c' ↦ ?_, rfl⟩
  by_cases hc : c' = c
  · exact hc ▸ Function.update_self c' _ _
  · exact (Function.update_of_ne hc _ _).trans (h.body c')

theorem leaves_transferred (h : Quiet w) (hreason : reason ≠ .notLocked) (d : ℤ) (node : MapNode) :
    Leaves w (w.transferred d node reason) :=
  ⟨unlocked_eq_self h.unblocked hreason (w.waiting d), h.body, rfl⟩

theorem Quiet.of_leaves (h : Quiet w) (hleaves : Leaves w w') : Quiet w' where
  unblocked := hleaves.1 ▸ h.unblocked
  steady := hleaves.1 ▸ h.steady
  body := hleaves.2.1
  running := hleaves.2.2.trans h.running

theorem Leaves.trans {w'' : World} (h : Leaves w w') (h' : Leaves w' w'') : Leaves w w'' :=
  ⟨h'.1.trans h.1, h'.2.1, h'.2.2.trans h.2.2⟩

/-- A transfer after which no context is locked is not one that waits. -/
theorem not_suspended_of_calm {node : MapNode} {own : LockedState} (h : Quiet w)
    (hsuspended : (w.transferred d node reason).Suspended c d own p w')
    (hreason : reason ≠ .notLocked) (hown : own ≠ .notLocked)
    (hcalm : ∀ c x, w'.engine.context c = some x → x.locked = .notLocked) : False := by
  obtain ⟨l, hl⟩ := (h.of_leaves (leaves_transferred h hreason d node)).steady
  obtain ⟨x, hx, hlocked⟩ := lockOf_eq_some.mp (lockOf_self_suspended hl hsuspended)
  exact hown (hlocked.symm.trans (hcalm c x hx))

/-- A call on a channel after which no context is locked returns. -/
theorem leaves_passes {ref : ℕ} {own : LockedState} (h : Quiet w)
    (hpasses : w.Passes c d ref reason own w') (hreason : reason ≠ .notLocked)
    (hown : own ≠ .notLocked) (hcalm : ∀ c x, w'.engine.context c = some x →
      x.locked = .notLocked) : Leaves w w' := by
  cases hpasses with
  | done => exact leaves_at_body h c
  | @last channel channel' hnode hkept =>
      have hleaves := leaves_transferred h hreason d { ref, channel := channel' }
      exact hleaves.trans (leaves_at_body (h.of_leaves hleaves) c)
  | wait hnode hkept hawaited hsuspended =>
      exact (not_suspended_of_calm h hsuspended hreason hown hcalm).elim

/-- An action on channels after which no context is locked does nothing to the engine. -/
theorem leaves_exec (h : Quiet w) (hallowed : w.Allowed c act)
    (hact : ∀ engineAct, act ≠ worldAction engineAct) (hexec : w.exec c act = .ok (events, w'))
    (hcalm : ∀ c x, w'.engine.context c = some x → x.locked = .notLocked) : Leaves w w' := by
  cases act with
  | run => exact absurd rfl (hact .run)
  | yield => exact absurd rfl (hact .yield)
  | sched routine => exact absurd rfl (hact (.sched routine))
  | ret => exact absurd rfl (hact .ret)
  | resume => exact absurd (h.body c) hallowed
  | create fresh =>
      obtain ⟨-, rfl⟩ := Prod.mk.inj (Except.ok.inj hexec)
      exact leaves_newChannel h _ fresh
  | createAt d fresh =>
      simp only [World.exec] at hexec
      split at hexec
      · obtain ⟨-, rfl⟩ := Prod.mk.inj (Except.ok.inj hexec)
        exact leaves_newChannel h d fresh
      · obtain ⟨-, rfl⟩ := Prod.mk.inj (Except.ok.inj hexec)
        exact ⟨rfl, h.body, rfl⟩
  | close d =>
      simp only [World.exec] at hexec
      split at hexec <;>
        obtain ⟨-, rfl⟩ := Prod.mk.inj (Except.ok.inj hexec) <;>
        exact ⟨rfl, h.body, rfl⟩
  | send d data =>
      rcases exec_send_ok hexec with ⟨-, -, rfl⟩ | ⟨node, later, -, -, hloop⟩
      · exact ⟨rfl, h.body, rfl⟩
      · exact leaves_passes h (sendLoop_passes hloop) (by decide) (by decide) hcalm
  | recv d nbytes =>
      rcases exec_recv_ok hexec with ⟨-, -, rfl⟩ | ⟨node, later, -, -, hloop⟩
      · exact ⟨rfl, h.body, rfl⟩
      · exact leaves_passes h (recvLoop_passes hloop) (by decide) (by decide) hcalm

/-! ## Runs -/

theorem allowed_worldAction_iff (h : Quiet w) (hcur : w.engine.curRoutine = some c)
    (act : Engine.Action) : w.Allowed c (worldAction act) ↔ (plain w.engine).Allowed act := by
  have hcur' : (plain w.engine).curRoutine ≠ none := by
    rw [show (plain w.engine).curRoutine = some c from hcur]
    exact Option.some_ne_none c
  cases act with
  | run | yield | ret => exact iff_of_true (h.body c) hcur'
  | sched routine =>
      constructor
      · intro hallowed
        exact ⟨hcur', fun hnone ↦ hallowed.2 (plain_context_eq_none.mp hnone)⟩
      · intro hallowed
        exact ⟨h.body c, fun hnone ↦ hallowed.2 (plain_context_eq_none.mpr hnone)⟩

theorem Quiet.of_follows {e : Engine Unit} (h : Quiet w) (hfollows : Follows w e w') {l : List Ctx}
    (hl : Steady w'.engine l) : Quiet w' where
  unblocked := hfollows.1.2
  steady := ⟨l, hl⟩
  body c := (congrFun hfollows.2.1 c).trans (h.body c)
  running := hfollows.2.2.trans h.running

/-- An action of the plain engine leads both engines to the same state. -/
theorem Quiet.takes_engine (h : Quiet w) (htakes : w.Takes (worldAction engineAct) w') :
    LeadsTo (plain w.engine) (engineAct, plain w'.engine) (plain w'.engine) ∧ Quiet w' := by
  cases htakes with
  | exec c events hcur hexited hallowed hexec =>
      obtain ⟨l, hl⟩ := h.steady
      have hagree := agree_exec h.unblocked hcur engineAct
      rw [hexec] at hagree
      obtain ⟨e, he, hfollows⟩ := hagree.of_ok_right
      obtain rfl : e = plain w'.engine := hfollows.1.1
      exact ⟨⟨(allowed_worldAction_iff h hcur engineAct).mp hallowed, he, rfl⟩,
        h.of_follows hfollows (exec_steady hl hcur hexec)⟩

theorem current_of_allowed {e : Engine Unit} (h : e.Allowed engineAct) : e.curRoutine ≠ none := by
  cases engineAct with
  | run | yield | ret => exact h
  | sched routine => exact h.1

/-- What the plain engine does, the net engine does as well. -/
theorem Quiet.leadsTo (h : Quiet w) {e : Engine Unit} (hleads : LeadsTo (plain w.engine) label e) :
    ∃ w', plain w'.engine = e ∧ CalmStep w (some label) w' ∧ Quiet w' := by
  obtain ⟨engineAct, e'⟩ := label
  obtain ⟨hallowed, hexec, rfl⟩ := hleads
  obtain ⟨c, hcur⟩ := Option.ne_none_iff_exists'.mp (current_of_allowed hallowed)
  have hcur' : w.engine.curRoutine = some c := hcur
  have hagree := agree_exec h.unblocked hcur' engineAct
  rw [hexec] at hagree
  obtain ⟨⟨events, w'⟩, hexec', hfollows⟩ := hagree.of_ok_left
  obtain ⟨l, hl⟩ := h.steady
  have hquiet := h.of_follows hfollows (exec_steady hl hcur' hexec')
  have htakes : w.Takes (worldAction engineAct) w' :=
    .exec c events hcur' h.running ((allowed_worldAction_iff h hcur' engineAct).mpr hallowed) hexec'
  obtain rfl : e' = plain w'.engine := hfollows.1.1
  exact ⟨w', rfl, .engine engineAct htakes hquiet.unblocked.unlocked, hquiet⟩

/-- The plain engine goes through the states of a run in which no coroutine blocks. -/
theorem run_plain_of_calm {w₀ : World} {steps : List (Option (Engine.Action × Engine Unit))}
    (h : Quiet w₀) (hrun : Run CalmStep w₀ steps w) :
    Run LeadsTo (plain w₀.engine) steps.reduceOption (plain w.engine) ∧ Quiet w := by
  induction hrun with
  | nil => exact ⟨Run.nil _, h⟩
  | snoc _ hlast ih =>
      obtain ⟨hbefore, hquiet⟩ := ih
      rw [List.reduceOption_append]
      cases hlast with
      | engine engineAct htakes hcalm =>
          obtain ⟨hleads, hquiet'⟩ := hquiet.takes_engine htakes
          exact ⟨hbefore.snoc hleads, hquiet'⟩
      | channel act hact htakes hcalm =>
          cases htakes with
          | exec c events hcur hexited hallowed hexec =>
              have hleaves := leaves_exec hquiet hallowed hact hexec hcalm
              rw [hleaves.1]
              exact ⟨(List.append_nil _).symm ▸ hbefore, hquiet.of_leaves hleaves⟩

/-- The net engine goes through the states of a run of the plain engine. -/
theorem run_calm_of_plain {w₀ : World} {e : Engine Unit} (h : Quiet w₀)
    (hrun : Run LeadsTo (plain w₀.engine) labels e) :
    ∃ w, plain w.engine = e ∧ Run CalmStep w₀ (labels.map some) w ∧ Quiet w := by
  generalize he₀ : plain w₀.engine = e₀ at hrun
  induction hrun with
  | nil => exact ⟨w₀, he₀, Run.nil w₀, h⟩
  | snoc _ hlast ih =>
      obtain ⟨w, rfl, hbefore, hquiet⟩ := ih
      obtain ⟨w', he, hstep, hquiet'⟩ := hquiet.leadsTo hlast
      refine ⟨w', he, ?_, hquiet'⟩
      rw [List.map_append]
      exact hbefore.snoc hstep

/-- Both engines start in the same state. -/
theorem start_plain :
    ∃ w₀, Engine.start = .ok (plain w₀.engine) ∧ World.start = .ok w₀ ∧ Quiet w₀ := by
  have hempty : Unblocked (Engine.empty : Engine LockedState) :=
    ⟨fun c x hx ↦ absurd hx (Option.some_ne_none x).symm, fun _ hc ↦ absurd rfl hc⟩
  have hagree : Agree (Follows initial) Engine.start World.start := by
    refine Agree.bind (agree_run hempty) ?_
    rintro ⟨pc, e⟩ ⟨pc', e'⟩ ⟨hpc, he, h'⟩
    obtain rfl : pc = pc' := hpc
    obtain rfl : e = plain e' := he
    exact agree_schedule (w := { initial with engine := e' }) h' (some pc)
  rw [Engine.start_eq] at hagree
  obtain ⟨w₀, hstart, ⟨he, hunblocked⟩, hpoint, hexited⟩ := hagree.of_ok_left
  refine ⟨w₀, he ▸ Engine.start_eq, hstart, ?_⟩
  exact
    { unblocked := hunblocked
      steady := start_steady hstart
      body := congrFun hpoint
      running := hexited }

/-- Without locks the net engine is the plain engine. In a state in which no context is locked the
two make the same decision for every argument of `sched`, with the same fields afterwards, or
neither makes one; they do make one if the pointers lead to registered contexts, the list of alive
contexts ends and the links to callees have no cycle. The plain engine goes through the states of
every run in which no coroutine blocks, and every run of the plain engine is one. -/
theorem net_engine_extends_plain :
    (∀ (e : Engine LockedState) (routine : Option Ctx), Unblocked e →
      Agree SameDecision ((plain e).sched routine) (sched e routine)) ∧
    (∀ (e : Engine LockedState) (routine : Option Ctx), Unblocked e → (plain e).Proper →
      (∀ c, routine = some c → e.context c ≠ none) →
      ∃ decision decision', (plain e).sched routine = .ok decision ∧
      sched e routine = .ok decision' ∧
        SameDecision decision decision') ∧
    ∃ w₀, World.start = .ok w₀ ∧ Engine.start = .ok (plain w₀.engine) ∧
      (∀ steps w, Run CalmStep w₀ steps w →
        Run LeadsTo (plain w₀.engine) steps.reduceOption (plain w.engine)) ∧
      ∀ labels e, Run LeadsTo (plain w₀.engine) labels e →
        ∃ w, plain w.engine = e ∧ Run CalmStep w₀ (labels.map some) w := by
  refine ⟨fun e routine h ↦ agree_sched h routine, ?_, ?_⟩
  · intro e routine h hproper hroutine
    obtain ⟨decision, hdecision⟩ := hproper.sched_ok fun c hc hnone ↦
      hroutine c hc (plain_context_eq_none.mp hnone)
    have hagree := agree_sched h routine
    rw [hdecision] at hagree
    obtain ⟨decision', hdecision', hsame⟩ := hagree.of_ok_left
    exact ⟨decision, decision', hdecision, hdecision', hsame⟩
  · obtain ⟨w₀, hplain, hstart, hquiet⟩ := start_plain
    refine ⟨w₀, hstart, hplain, fun steps w hrun ↦ (run_plain_of_calm hquiet hrun).1, ?_⟩
    intro labels e hrun
    obtain ⟨w, he, hcalm, -⟩ := run_calm_of_plain hquiet hrun
    exact ⟨w, he, hcalm⟩

/-- The main coroutine runs, and another one has it as its callee. -/
def withCallee : Engine LockedState where
  context
    | 0 => some
        { caller := some 1, callee := none, prev := some 1, next := none, locked := .notLocked }
    | 1 => some
        { caller := none, callee := some 0, prev := none, next := some 0, locked := .notLocked }
    | _ => none
  created := 2
  curRoutine := some 0
  alive := some 1

theorem withCallee_calleeOf {c r : Ctx} (h : (plain withCallee).calleeOf c = some r) :
    c = 1 ∧ r = 0 := by
  match c, h with
  | 1, h => exact ⟨rfl, (Option.some.inj h).symm⟩

theorem unblocked_withCallee : Unblocked withCallee where
  unlocked c x hx := by
    match c, hx with
    | 0, hx => exact Option.some.inj hx ▸ rfl
    | 1, hx => exact Option.some.inj hx ▸ rfl
  bound c hc := by
    match c, hc with
    | 0, _ => exact Nat.zero_lt_two
    | 1, _ => exact Nat.one_lt_two
    | c + 2, hc => exact absurd rfl hc

theorem proper_withCallee : (plain withCallee).Proper where
  bound c hc := unblocked_withCallee.bound c fun hnone ↦ hc (plain_context_eq_none.mpr hnone)
  current c hc := by
    obtain rfl : 0 = c := Option.some.inj hc
    exact Option.some_ne_none _
  caller c x r hx hr := by
    match c, hx with
    | 0, hx =>
        obtain rfl := Option.some.inj hx
        obtain rfl : 1 = r := Option.some.inj hr
        exact Option.some_ne_none _
    | 1, hx =>
        obtain rfl := Option.some.inj hx
        cases hr
  callee c r hr := by
    obtain ⟨rfl, rfl⟩ := withCallee_calleeOf hr
    exact Option.some_ne_none _
  acyclic c hcycle := by
    obtain ⟨b, -, hlast⟩ := Relation.TransGen.tail'_iff.mp hcycle
    obtain ⟨r, hfirst, -⟩ := Relation.TransGen.head'_iff.mp hcycle
    exact Nat.one_ne_zero ((withCallee_calleeOf hfirst).1.symm.trans (withCallee_calleeOf hlast).2)
  alive := by
    refine ⟨[1, 0], ⟨rfl, rfl, rfl⟩, fun c hc ↦ ?_⟩
    rcases List.mem_pair.mp hc with rfl | rfl <;> exact Option.some_ne_none _

/-- A coroutine yields to its caller, which has it as its callee; and the main coroutine registers
another one and yields to it. -/
theorem net_engine_extends_plain_two :
    (∃ e', (plain withCallee).sched none = .ok (.switched (plain e')) ∧
      sched withCallee none = .ok (.switched e') ∧ e'.curRoutine = some 1) ∧
    ∃ (w₀ w : World) (labels : List (Engine.Action × Engine Unit)), World.start = .ok w₀ ∧
      Run CalmStep w₀ (labels.map some) w ∧ labels.map Prod.fst = [.run, .yield] ∧
      w.engine.curRoutine = some 1 := by
  obtain ⟨-, hdecides, w₀, hstart, hplain, -, hcalm⟩ := net_engine_extends_plain
  constructor
  · obtain ⟨decision, decision', hdecision, hdecision', hsame⟩ :=
      hdecides withCallee none unblocked_withCallee proper_withCallee fun c hc ↦
        absurd hc (Option.some_ne_none c).symm
    cases hsame with
    | returned => cases hdecision
    | switched h =>
        refine ⟨_, hdecision, hdecision', ?_⟩
        have hcur : (match sched withCallee none with
          | .ok (.switched e') => e'.curRoutine
          | _ => none) = some 1 := rfl
        rwa [hdecision'] at hcur
  · have hw₀ : plain w₀.engine = ((Engine.empty : Engine Unit).registered ()).switched 0 :=
      Except.ok.inj (hplain.symm.trans Engine.start_eq)
    have hrun : ∃ labels e, Run LeadsTo (((Engine.empty : Engine Unit).registered ()).switched 0)
        labels e ∧ labels.map Prod.fst = [.run, .yield] ∧ e.curRoutine = some 1 :=
      ⟨[(.run, _), (.yield, _)], _, Run.cons ⟨Option.some_ne_none _, rfl, rfl⟩
        (Run.single ⟨Option.some_ne_none _, rfl, rfl⟩), rfl, rfl⟩
    obtain ⟨labels, e, hrun, hacts, hcur⟩ := hrun
    rw [← hw₀] at hrun
    obtain ⟨w, rfl, hsteps⟩ := hcalm labels e hrun
    exact ⟨w₀, w, labels, hstart, hsteps, hacts, hcur⟩

end CppMtHw.NetEngine
