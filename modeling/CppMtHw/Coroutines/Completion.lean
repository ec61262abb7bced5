import CppMtHw.Coroutines.Resumption

/-!
# When `start` returns

The alive list against the history of a program: its elements are the coroutines that
`run` has registered and whose bodies have not ended. The idle context yields until the
list is empty, and then `start` returns, so no coroutine is left behind.
-/

namespace CppMtHw.Coroutines

open Machine

namespace Engine

variable {e e₀ t : Engine Unit} {l : List Ctx} {c : Ctx} {acts : List Action} {act last : Action}
  {P : Engine Unit → Prop}

/-- The action is taken in the sequence, in an engine with the property. -/
def Took (e₀ : Engine Unit) (acts : List Action) (act : Action) (P : Engine Unit → Prop) : Prop :=
  ∃ before after e, acts = before ++ act :: after ∧ e₀.execAll before = .ok e ∧ P e

def Registered (e₀ : Engine Unit) (acts : List Action) (c : Ctx) : Prop :=
  e₀.context c ≠ none ∨ Took e₀ acts .run fun e ↦ ∃ e', e.run () = .ok (c, e')

def Completed (e₀ : Engine Unit) (acts : List Action) (c : Ctx) : Prop :=
  Took e₀ acts .ret fun e ↦ e.curRoutine = some c

theorem execAll_append (first second : List Action) :
    e₀.execAll (first ++ second) = (e₀.execAll first).bind fun e ↦ e.execAll second := by
  induction first generalizing e₀ with
  | nil => rfl
  | cons act first ih =>
      simp only [List.cons_append, execAll, bind, Except.bind]
      cases hexec : e₀.exec act with
      | error fault => rfl
      | ok e => exact ih

/-- A sequence goes through if all but its last action do, and then the last one. -/
theorem execAll_snoc_ok (h : e₀.execAll (acts ++ [act]) = .ok e) :
    ∃ t, e₀.execAll acts = .ok t ∧ t.exec act = .ok e := by
  rw [execAll_append] at h
  cases ht : e₀.execAll acts with
  | error fault => rw [ht] at h; cases h
  | ok t =>
      rw [ht] at h
      simp only [Except.bind, execAll, bind] at h
      refine ⟨t, rfl, ?_⟩
      cases hexec : t.exec act with
      | error fault => rw [hexec] at h; cases h
      | ok e' => rw [hexec] at h; rw [Except.ok.inj h]

theorem allowedAll_snoc (h : e₀.AllowedAll (acts ++ [act])) :
    e₀.AllowedAll acts ∧ ∀ t, e₀.execAll acts = .ok t → t.Allowed act := by
  induction acts generalizing e₀ with
  | nil =>
      refine ⟨trivial, fun t ht ↦ ?_⟩
      rw [← Except.ok.inj ht]
      exact h.1
  | cons first acts ih =>
      obtain ⟨hfirst, hrest⟩ := h
      cases hexec : e₀.exec first with
      | error fault =>
          refine ⟨⟨hfirst, by rw [hexec]; trivial⟩, fun t ht ↦ ?_⟩
          simp only [execAll, hexec, bind, Except.bind] at ht
          cases ht
      | ok e₁ =>
          rw [hexec] at hrest
          obtain ⟨hacts, hlast⟩ := ih hrest
          refine ⟨⟨hfirst, by rw [hexec]; exact hacts⟩, fun t ht ↦ hlast t ?_⟩
          simp only [execAll, hexec, bind, Except.bind] at ht
          exact ht

/-- What has been taken after one more action. -/
theorem took_snoc (hrun : e₀.execAll acts = .ok t) :
    Took e₀ (acts ++ [last]) act P ↔ Took e₀ acts act P ∨ (last = act ∧ P t) := by
  constructor
  · rintro ⟨before, after, e, hacts, hbefore, hp⟩
    rcases List.eq_nil_or_concat after with rfl | ⟨after, last', rfl⟩
    · obtain ⟨rfl, hlast⟩ := List.append_inj' hacts rfl
      obtain rfl := Except.ok.inj (hrun.symm.trans hbefore)
      exact Or.inr ⟨List.singleton_inj.mp hlast, hp⟩
    · rw [List.concat_eq_append, ← List.cons_append, ← List.append_assoc] at hacts
      obtain ⟨rfl, -⟩ := List.append_inj' hacts rfl
      exact Or.inl ⟨before, after, e, rfl, hbefore, hp⟩
  · rintro (⟨before, after, e, rfl, hbefore, hp⟩ | ⟨rfl, hp⟩)
    · exact ⟨before, after ++ [last], e, by simp, hbefore, hp⟩
    · exact ⟨acts, [], t, rfl, hrun, hp⟩

theorem not_took_nil : ¬Took e₀ [] act P := by
  rintro ⟨before, after, e, hacts, -⟩
  exact absurd hacts (by simp)

structure Progress (e₀ : Engine Unit) (acts : List Action) (e : Engine Unit)
    (l : List Ctx) : Prop where
  wf : e.Wf l
  idle : e.curRoutine = none → l = []
  registered : ∀ c, Registered e₀ acts c ↔ c < e.created
  completed : ∀ c, Completed e₀ acts c → Registered e₀ acts c
  mem : ∀ c, c ∈ l ↔ Registered e₀ acts c ∧ ¬Completed e₀ acts c

theorem progress_start (hstart : start = .ok e₀) : Progress e₀ [] e₀ [0] := by
  have hwf := wf_start hstart
  have hregistered : ∀ c, Registered e₀ [] c ↔ c ∈ [0] := by
    intro c
    rw [Registered, or_iff_left not_took_nil]
    exact (hwf.listed.mem c).symm
  obtain ⟨hcreated, hcur⟩ : e₀.created = 1 ∧ e₀.curRoutine = some 0 := by
    rw [← Except.ok.inj (start_eq.symm.trans hstart)]
    exact ⟨rfl, rfl⟩
  refine ⟨hwf, fun hidle ↦ ?_, fun c ↦ ?_, fun c hc ↦ absurd hc not_took_nil, fun c ↦ ?_⟩
  · rw [hcur] at hidle
    cases hidle
  · rw [hregistered, hcreated, List.mem_singleton, Nat.lt_one_iff]
  · rw [hregistered, and_iff_left (show ¬Completed e₀ [] c from not_took_nil)]

/-- One more action. -/
theorem Progress.snoc (h : Progress e₀ acts t l) (hrun : e₀.execAll acts = .ok t)
    (hallowed : t.Allowed act) (hexec : t.exec act = .ok e) :
    Progress e₀ (acts ++ [act]) e (t.listAfter l act) := by
  have hret : act = .ret → ¬t.CallerIsItself := by
    rintro rfl hself
    obtain ⟨c, hfault⟩ := h.wf.exec_ret_itself hself
    rw [hfault] at hexec
    cases hexec
  obtain ⟨e', hexec', hwf, hcreated, hidle⟩ := h.wf.exec_ok hallowed hret
  obtain rfl := Except.ok.inj (hexec'.symm.trans hexec)
  have hregistered : ∀ c, Registered e₀ (acts ++ [act]) c ↔
      Registered e₀ acts c ∨ (act = .run ∧ c = t.created) := by
    intro c
    have hnew : (∃ e', t.run () = .ok (c, e')) ↔ c = t.created := by
      rw [h.wf.listed.run_eq]
      constructor
      · rintro ⟨e', heq⟩
        exact (Prod.mk.inj (Except.ok.inj heq)).1.symm
      · rintro rfl
        exact ⟨_, rfl⟩
    rw [Registered, Registered, took_snoc hrun, hnew, or_assoc]
  have hcompleted : ∀ c, Completed e₀ (acts ++ [act]) c ↔
      Completed e₀ acts c ∨ (act = .ret ∧ t.curRoutine = some c) := fun c ↦ took_snoc hrun
  cases act with
  | run =>
      refine ⟨hwf, hidle, fun c ↦ ?_, fun c hc ↦ ?_, fun c ↦ ?_⟩
      · rw [hregistered, h.registered, hcreated, and_iff_right rfl]
        exact (Nat.lt_succ_iff_lt_or_eq).symm
      · rw [hcompleted, or_iff_left (by simp)] at hc
        exact (hregistered c).mpr (Or.inl (h.completed c hc))
      · have hfresh : ¬Completed e₀ acts t.created := fun hc ↦
          Nat.lt_irrefl _ ((h.registered _).mp (h.completed _ hc))
        rw [hregistered, hcompleted,
          or_iff_left (by simp : ¬(Action.run = .ret ∧ t.curRoutine = some c))]
        simp only [listAfter, List.mem_cons, h.mem, true_and]
        constructor
        · rintro (rfl | ⟨hr, hc⟩)
          · exact ⟨Or.inr rfl, hfresh⟩
          · exact ⟨Or.inl hr, hc⟩
        · rintro ⟨hr | rfl, hc⟩
          · exact Or.inr ⟨hr, hc⟩
          · exact Or.inl rfl
  | yield | sched routine =>
      refine ⟨hwf, hidle, fun c ↦ ?_, fun c hc ↦ ?_, fun c ↦ ?_⟩
      · rw [hregistered, or_iff_left (by simp), h.registered, hcreated]
        rfl
      · rw [hcompleted, or_iff_left (by simp)] at hc
        exact (hregistered c).mpr (Or.inl (h.completed c hc))
      · rw [hregistered, hcompleted, or_iff_left (by simp), or_iff_left (by simp)]
        exact h.mem c
  | ret =>
      obtain ⟨c₀, hcur⟩ := Option.ne_none_iff_exists'.mp hallowed
      have hlist : t.listAfter l .ret = l.erase c₀ := by simp only [listAfter, hcur]
      rw [hlist] at hwf hidle ⊢
      have hc₀ := (h.mem c₀).mp (h.wf.current c₀ hcur)
      refine ⟨hwf, hidle, fun c ↦ ?_, fun c hc ↦ ?_, fun c ↦ ?_⟩
      · rw [hregistered, or_iff_left (by simp), h.registered, hcreated]
        rfl
      · rw [hcompleted, hcur] at hc
        rcases hc with hc | ⟨-, hc⟩
        · exact (hregistered c).mpr (Or.inl (h.completed c hc))
        · exact (hregistered c).mpr (Or.inl (Option.some.inj hc ▸ hc₀.1))
      · rw [hregistered, hcompleted, or_iff_left (by simp), h.wf.listed.nodup.mem_erase_iff,
          h.mem, hcur, not_or]
        constructor
        · rintro ⟨hne, hr, hc⟩
          exact ⟨hr, hc, fun hself ↦ hne (Option.some.inj hself.2).symm⟩
        · rintro ⟨hr, hc, hne⟩
          exact ⟨fun heq ↦ hne ⟨rfl, congrArg some heq.symm⟩, hr, hc⟩

theorem progress_of_execAll (hstart : start = .ok e₀) (hallowed : e₀.AllowedAll acts)
    (hrun : e₀.execAll acts = .ok e) : ∃ l, Progress e₀ acts e l := by
  induction acts using List.reverseRecOn generalizing e with
  | nil =>
      rw [← Except.ok.inj hrun]
      exact ⟨[0], progress_start hstart⟩
  | append_singleton acts act ih =>
      obtain ⟨t, ht, hexec⟩ := execAll_snoc_ok hrun
      obtain ⟨hacts, hact⟩ := allowedAll_snoc hallowed
      obtain ⟨l, hl⟩ := ih hacts ht
      exact ⟨_, hl.snoc ht (hact t ht) hexec⟩

end Engine

open Engine

/-- As long as no deleted context is used, `alive` heads a well-formed doubly linked list of exactly
the coroutines that are registered and not completed, and when `start` has returned, which leaves no
coroutine running, all that were ever registered have completed. -/
theorem start_returns_when_done {e₀ e : Engine Unit} {acts : List Action} (hstart : start = .ok e₀)
    (hallowed : e₀.AllowedAll acts) (hrun : e₀.execAll acts = .ok e) :
    (∃ l, e.Listed l ∧ ∀ c, c ∈ l ↔ Registered e₀ acts c ∧ ¬Completed e₀ acts c) ∧
    (e.curRoutine = none → ∀ c, Registered e₀ acts c → Completed e₀ acts c) := by
  obtain ⟨l, hl⟩ := progress_of_execAll hstart hallowed hrun
  refine ⟨⟨l, hl.wf.listed, hl.mem⟩, fun hidle c hc ↦ ?_⟩
  by_contra hnot
  have hmem := (hl.mem c).mpr ⟨hc, hnot⟩
  rw [hl.idle hidle] at hmem
  exact List.not_mem_nil hmem

/-- The main coroutine starts another one and yields to it; both return. -/
theorem start_returns_when_done_two : ∃ e₀ e, start = .ok e₀ ∧
    e₀.execAll [.run, .yield, .ret, .ret] = .ok e ∧ e.curRoutine = none ∧
    ∀ c, Registered e₀ [.run, .yield, .ret, .ret] c →
      Completed e₀ [.run, .yield, .ret, .ret] c := by
  refine ⟨_, _, rfl, rfl, rfl, (start_returns_when_done rfl ?_ rfl).2 rfl⟩
  exact ⟨Option.some_ne_none 0, Option.some_ne_none 0, Option.some_ne_none 1,
    Option.some_ne_none 0, trivial⟩

end CppMtHw.Coroutines
