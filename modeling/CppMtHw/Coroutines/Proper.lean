import CppMtHw.Coroutines.Resumption
import CppMtHw.Machine.Fallible

/-!
# The decisions of `sched` in any proper state

In the states that a program reaches no context has a callee and the callers are
those that `sched` stored. `sched` does not rely on either: as long as its pointers
lead to registered contexts, the list of alive ones ends, and the links to callees
have no cycle, its loops end and it makes a decision.
-/

namespace CppMtHw.Coroutines

open Machine

namespace Engine

variable {e : Engine Unit} {c : Ctx} {x : Context Unit}

def calleeOf (e : Engine Unit) (c : Ctx) : Option Ctx := (e.context c).bind Context.callee

/-- Every pointer is null or leads to a registered context, and the links that `sched` follows in a
loop have no cycle. -/
structure Proper (e : Engine Unit) : Prop where
  bound : ∀ c, e.context c ≠ none → c < e.created
  current : ∀ c, e.curRoutine = some c → e.context c ≠ none
  caller : ∀ c x r, e.context c = some x → x.caller = some r → e.context r ≠ none
  callee : ∀ c r, e.calleeOf c = some r → e.context r ≠ none
  acyclic : ∀ c, ¬Relation.TransGen (fun c r ↦ e.calleeOf c = some r) c c
  alive : ∃ l, Chain e.nextOf e.alive l ∧ ∀ c ∈ l, e.context c ≠ none

theorem modify_eq {f : Context Unit → Context Unit} (hc : e.context c ≠ none) :
    e.modify c f = .ok (e.mapAt (some c) f) :=
  modifyOpt_eq (c := some c) fun _ hr ↦ Option.some.inj hr ▸ hc

theorem mapAt_context_self {f : Context Unit → Context Unit} (hx : e.context c = some x) :
    (e.mapAt (some c) f).context c = some (f x) := by
  simp [mapAt, hx]

/-- The loop that follows `callee` ends at the last context of the chain. -/
theorem lastCallee_of_chain {fuel : ℕ} {l : List Ctx} (hchain : Chain e.calleeOf (some c) (c :: l))
    (hregistered : ∀ r ∈ c :: l, e.context r ≠ none) (hfuel : l.length ≤ fuel) :
    ∃ target, e.lastCallee fuel c = .ok target ∧ e.context target ≠ none := by
  induction fuel generalizing c l with
  | zero =>
      obtain ⟨x, hx⟩ := Option.ne_none_iff_exists'.mp (hregistered c List.mem_cons_self)
      obtain rfl := List.length_eq_zero_iff.mp (Nat.le_zero.mp hfuel)
      have hcallee : x.callee = none := by
        have hlast : e.calleeOf c = none := hchain.2
        rwa [calleeOf, hx, Option.bind_some] at hlast
      exact ⟨c, lastCallee_eq hx hcallee, hregistered c List.mem_cons_self⟩
  | succ fuel ih =>
      obtain ⟨x, hx⟩ := Option.ne_none_iff_exists'.mp (hregistered c List.mem_cons_self)
      have hcallee : e.calleeOf c = x.callee := by rw [calleeOf, hx, Option.bind_some]
      cases l with
      | nil =>
          have hlast : e.calleeOf c = none := hchain.2
          exact ⟨c, lastCallee_eq hx (hcallee ▸ hlast), hregistered c List.mem_cons_self⟩
      | cons r rs =>
          obtain ⟨hr, hrest⟩ := hchain.2
          have htail := ih (c := r) ⟨rfl, hrest⟩
            (fun z hz ↦ hregistered z (List.mem_cons_of_mem c hz)) (Nat.le_of_succ_le_succ hfuel)
          rw [hcallee] at hr
          simp only [lastCallee, get_eq hx, ok_bind, hr]
          exact htail

/-- The number of contexts created is enough for the loop that follows `callee`. -/
theorem Proper.lastCallee_ok (h : e.Proper) (hc : e.context c ≠ none) :
    ∃ target, e.lastCallee e.created c = .ok target ∧ e.context target ≠ none := by
  have hnodes : ∀ c r, e.calleeOf c = some r → r ∈ Finset.range e.created := fun c r hr ↦
    Finset.mem_range.mpr (h.bound r (h.callee c r hr))
  obtain ⟨l, hchain⟩ := exists_chain_of_acyclic h.acyclic hnodes (some c)
  cases l with
  | nil => cases hchain
  | cons c' l =>
      obtain rfl : c = c' := Option.some.inj hchain.1
      have hregistered : ∀ r ∈ c :: l, e.context r ≠ none := by
        intro r hr
        rcases Relation.ReflTransGen.cases_tail (hchain.reaches hr) with rfl | ⟨b, -, hb⟩
        · exact hc
        · exact h.callee b r hb
      have hsubset : c :: l ⊆ List.range e.created := fun r hr ↦
        List.mem_range.mpr (h.bound r (hregistered r hr))
      have hlength := (hchain.nodup.subperm hsubset).length_le
      rw [List.length_cons, List.length_range] at hlength
      exact lastCallee_of_chain hchain hregistered (Nat.le_of_succ_le hlength)

/-- A registered routine can be given control. -/
theorem Proper.switchTo_ok (h : e.Proper) (hc : e.context c ≠ none) :
    ∃ e', e.switchTo c = .ok (.switched e') := by
  have htransfer : ∃ e', (do
      let target ← e.lastCallee e.created c
      let e' ← e.modify target fun y ↦ { y with caller := e.curRoutine }
      .ok (.switched { e' with curRoutine := some target })) = Except.ok (Sched.switched e') := by
    obtain ⟨target, htarget, hregistered⟩ := h.lastCallee_ok hc
    obtain ⟨y, hy⟩ := Option.ne_none_iff_exists'.mp hregistered
    simp only [htarget, ok_bind, modify, get_eq hy]
    exact ⟨_, rfl⟩
  obtain ⟨x, hx⟩ := Option.ne_none_iff_exists'.mp hc
  cases hcallee : x.callee with
  | none => simpa only [switchTo, hx, hcallee, ok_bind] using htransfer
  | some callee =>
      by_cases hcur : e.curRoutine = some callee
      · -- the link to the callee is cut, so the loop ends at once
        have hregistered := h.callee c callee (by rw [calleeOf, hx, Option.bind_some, hcallee])
        have hcut := modify_eq (f := fun y ↦ { y with caller := none }) hregistered
        have hc₁ : (e.mapAt (some callee) fun y ↦ { y with caller := none }).context c ≠ none :=
          mapAt_context_ne_none.mpr hc
        have hunlink := modify_eq (f := fun y ↦ { y with callee := none }) hc₁
        obtain ⟨z, hz⟩ := Option.ne_none_iff_exists'.mp hc₁
        have hlast := mapAt_context_self (f := fun y ↦ { y with callee := none }) hz
        have hgiven := fun e' : Engine Unit ↦
          modify_eq (f := fun y ↦ { y with caller := e'.curRoutine })
            (Option.ne_none_iff_exists'.mpr ⟨_, hlast⟩)
        simp only [switchTo, hx, hcallee, if_pos hcur, hcut, hunlink, ok_bind,
          lastCallee_eq hlast rfl, hgiven]
        exact ⟨_, rfl⟩
      · simpa only [switchTo, hx, hcallee, ok_bind, if_neg hcur] using htransfer

/-- `sched` makes a decision. -/
theorem Proper.sched_ok (h : e.Proper) {routine : Option Ctx}
    (hroutine : ∀ c, routine = some c → e.context c ≠ none) :
    ∃ outcome, e.sched routine = .ok outcome := by
  have hswitch : ∀ c, e.context c ≠ none → ∃ outcome, e.switchTo c = .ok outcome := by
    intro c hc
    obtain ⟨e', he'⟩ := h.switchTo_ok hc
    exact ⟨_, he'⟩
  obtain ⟨l, hchain, hlist⟩ := h.alive
  cases routine with
  | some c => exact hswitch c (hroutine c rfl)
  | none =>
      cases hcur : e.curRoutine with
      | none =>
          cases l with
          | nil =>
              rw [chain_nil] at hchain
              simp only [sched, hcur, hchain]
              exact ⟨_, rfl⟩
          | cons a as =>
              simp only [sched, hcur, hchain.1]
              exact hswitch a (hlist a List.mem_cons_self)
      | some cur =>
          obtain ⟨x, hx⟩ := Option.ne_none_iff_exists'.mp (h.current cur hcur)
          cases hcaller : x.caller with
          | some r =>
              simp only [sched, hcur, get_eq hx, ok_bind, hcaller]
              exact hswitch r (h.caller cur x r hx hcaller)
          | none =>
              have hsubset : l ⊆ List.range e.created :=
                fun r hr ↦ List.mem_range.mpr (h.bound r (hlist r hr))
              have hlength := (hchain.nodup.subperm hsubset).length_le
              rw [List.length_range] at hlength
              simp only [sched, hcur, get_eq hx, ok_bind, hcaller,
                findOther_eq cur hchain hlist hlength]
              split
              · rename_i r hfind
                exact hswitch r (hlist r (List.mem_of_find?_eq_some hfind))
              · exact hswitch cur (h.current cur hcur)

end Engine

end CppMtHw.Coroutines
