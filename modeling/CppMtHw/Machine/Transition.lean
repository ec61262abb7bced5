import Mathlib.Data.List.Basic
import Mathlib.Data.List.Induction

/-!
# Runs of labelled transition systems

A run records the labels of its steps in the order they are taken. An invariant
is proved once for a single step and lifted to every reachable state by
`Run.invariant`. A guarded system takes only the steps that meet a condition on
the state before the step, so a guarded run is a run all of whose steps meet it.
-/

namespace CppMtHw.Machine

variable {S L : Type*} {step : S → L → S → Prop} {guard : S → L → Prop}

/-- Finite runs, with the labels of their steps, oldest first. -/
inductive Run (step : S → L → S → Prop) : S → List L → S → Prop
  | nil (s : S) : Run step s [] s
  | snoc {s t u : S} {labels : List L} {label : L} :
      Run step s labels t → step t label u → Run step s (labels ++ [label]) u

theorem Run.single {s t : S} {label : L} (h : step s label t) : Run step s [label] t :=
  Run.snoc (Run.nil s) h

theorem Run.append {s t u : S} {first second : List L} (hfirst : Run step s first t)
    (hsecond : Run step t second u) : Run step s (first ++ second) u := by
  induction hsecond with
  | nil => simpa using hfirst
  | snoc _ hstep ih =>
      rw [← List.append_assoc]
      exact Run.snoc ih hstep

theorem Run.cons {s t u : S} {label : L} {labels : List L} (hstep : step s label t)
    (hrun : Run step t labels u) : Run step s (label :: labels) u :=
  (Run.single hstep).append hrun

theorem Run.eq_of_nil {s t : S} (hrun : Run step s [] t) : s = t := by
  generalize hlabels : ([] : List L) = labels at hrun
  cases hrun with
  | nil => rfl
  | snoc => exact absurd hlabels.symm (List.append_ne_nil_of_right_ne_nil _ (List.cons_ne_nil _ _))

/-- The last step of a run. -/
theorem Run.snoc_inv {s u : S} {labels : List L} {label : L}
    (hrun : Run step s (labels ++ [label]) u) : ∃ t, Run step s labels t ∧ step t label u := by
  generalize hlabels : labels ++ [label] = all at hrun
  cases hrun with
  | nil => exact absurd hlabels (List.append_ne_nil_of_right_ne_nil _ (List.cons_ne_nil _ _))
  | snoc hbefore hstep =>
      obtain ⟨rfl, hlabel⟩ := List.append_inj' hlabels rfl
      obtain rfl := List.singleton_inj.mp hlabel
      exact ⟨_, hbefore, hstep⟩

/-- A run can be cut at any place. -/
theorem Run.append_inv {s u : S} {first second : List L} (hrun : Run step s (first ++ second) u) :
    ∃ t, Run step s first t ∧ Run step t second u := by
  induction second using List.reverseRecOn generalizing u with
  | nil => exact ⟨u, by simpa using hrun, Run.nil u⟩
  | append_singleton second label ih =>
      rw [← List.append_assoc] at hrun
      obtain ⟨t, hbefore, hstep⟩ := hrun.snoc_inv
      obtain ⟨m, hfirst, hsecond⟩ := ih hbefore
      exact ⟨m, hfirst, hsecond.snoc hstep⟩

/-- A run is determined by its labels if every step is. -/
theorem Run.deterministic (hstep : ∀ s label t u, step s label t → step s label u → t = u)
    {s t u : S} {labels : List L} (ht : Run step s labels t) (hu : Run step s labels u) :
    t = u := by
  induction ht generalizing u with
  | nil => exact hu.eq_of_nil
  | snoc _ hlast ih =>
      obtain ⟨m, hbefore, hlast'⟩ := hu.snoc_inv
      obtain rfl := ih hbefore
      exact hstep _ _ _ _ hlast hlast'

/-- A property that holds initially and is preserved by every step holds after every run. -/
theorem Run.invariant {P : S → Prop} {s t : S} {labels : List L} (hrun : Run step s labels t)
    (hinit : P s) (hstep : ∀ t label u, P t → step t label u → P u) : P t := by
  induction hrun with
  | nil => exact hinit
  | snoc _ h ih => exact hstep _ _ _ ih h

/-- The same with the labels taken so far as a history variable. -/
theorem Run.history {P : List L → S → Prop} {s t : S} {labels : List L}
    (hrun : Run step s labels t) (hinit : P [] s)
    (hstep : ∀ history t label u, P history t → step t label u → P (history ++ [label]) u) :
    P labels t := by
  induction hrun with
  | nil => exact hinit
  | snoc _ h ih => exact hstep _ _ _ _ ih h

theorem Run.mono {step' : S → L → S → Prop} {s t : S} {labels : List L}
    (hrun : Run step s labels t) (hsub : ∀ s label t, step s label t → step' s label t) :
    Run step' s labels t := by
  induction hrun with
  | nil => exact Run.nil _
  | snoc _ h ih => exact Run.snoc ih (hsub _ _ _ h)

/-- Simulation: if `f` maps every step from a state satisfying the invariant `P` to an abstract
step with the same label, it maps runs to abstract runs. -/
theorem Run.simulate {T : Type*} {abstractStep : T → L → T → Prop} {f : S → T} {P : S → Prop}
    {s t : S} {labels : List L} (hrun : Run step s labels t) (hinit : P s)
    (hinv : ∀ s label t, P s → step s label t → P t)
    (hsim : ∀ s label t, P s → step s label t → abstractStep (f s) label (f t)) :
    Run abstractStep (f s) labels (f t) := by
  induction hrun with
  | nil => exact Run.nil _
  | snoc hrun h ih => exact Run.snoc ih (hsim _ _ _ (hrun.invariant hinit hinv) h)

/-- A system whose steps answer those of another one has a run for each of its runs. -/
theorem Run.forward {T : Type*} {step' : T → L → T → Prop} {rel : S → T → Prop} {s s' : S} {t : T}
    {labels : List L} (hstep : ∀ s t label s', rel s t → step s label s' → ∃ t', step' t label t' ∧
      rel s' t') (h : rel s t)
    (hrun : Run step s labels s') : ∃ t', Run step' t labels t' ∧ rel s' t' := by
  induction hrun with
  | nil => exact ⟨t, Run.nil t, h⟩
  | snoc _ hlast ih =>
      obtain ⟨t₁, hrun', h₁⟩ := ih
      obtain ⟨t', hlast', h'⟩ := hstep _ _ _ _ h₁ hlast
      exact ⟨t', hrun'.snoc hlast', h'⟩

/-- Executing labels one after the other is a run. -/
theorem Run.of_foldlM {exec : S → L → Option S} {s t : S} {labels : List L}
    (h : labels.foldlM exec s = some t) :
    Run (fun s label t ↦ exec s label = some t) s labels t := by
  induction labels generalizing s with
  | nil =>
      obtain rfl := Option.some.inj h
      exact Run.nil s
  | cons label labels ih =>
      rw [List.foldlM_cons] at h
      obtain ⟨m, hfirst, hrest⟩ := Option.bind_eq_some_iff.mp h
      exact Run.cons hfirst (ih hrest)

/-- The steps whose source state and label meet `guard`. -/
def Guarded (guard : S → L → Prop) (step : S → L → S → Prop) (s : S) (label : L) (t : S) : Prop :=
  guard s label ∧ step s label t

/-- A run all of whose labels meet a condition is guarded by it. -/
theorem Run.guarded {ok : L → Prop} {s t : S} {labels : List L} (hrun : Run step s labels t)
    (hok : ∀ label ∈ labels, ok label) :
    Run (Guarded (fun _ label ↦ ok label) step) s labels t := by
  induction hrun with
  | nil => exact Run.nil _
  | snoc _ hlast ih =>
      obtain ⟨hbefore, hlabel⟩ := List.forall_mem_append.mp hok
      exact (ih hbefore).snoc ⟨hlabel _ List.mem_cons_self, hlast⟩

/-- A run each of whose steps meets a condition that may depend on how it was reached is guarded. -/
theorem Run.guarded_of_forall {s t : S} {labels : List L} (hrun : Run step s labels t)
    (hguard : ∀ before label after u, labels = before ++ label :: after → Run step s before u →
      guard u label) :
    Run (Guarded guard step) s labels t := by
  induction hrun with
  | nil => exact Run.nil _
  | snoc hbefore hlast ih =>
      have hlabel := hguard _ _ [] _ rfl hbefore
      apply Run.snoc _ ⟨hlabel, hlast⟩
      apply ih
      intro before label after u heq
      exact hguard before label (after ++ [_]) u (by rw [heq, List.append_assoc, List.cons_append])

/-- Executing labels as long as they meet `guard` is a guarded run. -/
theorem Run.guarded_of_foldlM [∀ s label, Decidable (guard s label)] {exec : S → L → Option S}
    {s t : S} {labels : List L}
    (h : labels.foldlM (fun s label ↦ if guard s label then exec s label else none) s = some t) :
    Run (Guarded guard fun s label t ↦ exec s label = some t) s labels t := by
  refine (Run.of_foldlM h).mono fun s label t hstep ↦ ?_
  exact Option.ite_none_right_eq_some.mp hstep

end CppMtHw.Machine
