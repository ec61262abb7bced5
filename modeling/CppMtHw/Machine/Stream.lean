import Mathlib.Logic.Function.Basic
import CppMtHw.Machine.Transition

/-!
# Streams between agents

Agents send and receive on channels by calls that may go on for several steps. While
a send is under way the channel takes leading parts of what is left of its argument;
while a receive is under way the channel hands out its oldest elements. Whatever the
interleaving, the elements handed out by a channel are a leading part of those it has
taken, and with one sender and one receiver what the completed receives have returned
is a leading part of what the sends were given.
-/

namespace CppMtHw.Machine.Stream

variable {A C α : Type*}

/-- What an agent does on a channel. -/
inductive Event (A C α : Type*)
  | sendCall (a : A) (ch : C) (data : List α)
  | taken (a : A) (ch : C) (part : List α)
  | sendRet (a : A) (ch : C)
  | recvCall (a : A) (ch : C)
  | copied (a : A) (ch : C) (part : List α)
  | recvRet (a : A) (ch : C) (data : List α)

/-- The call an agent is engaged in, with what is left to send or has been received so far. -/
inductive Call (C α : Type*)
  | idle
  | sending (ch : C) (rest : List α)
  | receiving (ch : C) (got : List α)

/-- What the channels hold and what the agents are engaged in. -/
structure State (A C α : Type*) where
  queue : C → List α
  call : A → Call C α

section Step

variable [DecidableEq A] [DecidableEq C]

inductive Step (s : State A C α) : Event A C α → State A C α → Prop
  | sendCall (a : A) (ch : C) (data : List α) (hcall : s.call a = .idle) :
      Step s (.sendCall a ch data) { s with call := Function.update s.call a (.sending ch data) }
  | taken (a : A) (ch : C) (part rest : List α) (hcall : s.call a = .sending ch (part ++ rest)) :
      Step s (.taken a ch part)
        { queue := Function.update s.queue ch (s.queue ch ++ part)
          call := Function.update s.call a (.sending ch rest) }
  | sendRet (a : A) (ch : C) (hcall : s.call a = .sending ch []) :
      Step s (.sendRet a ch) { s with call := Function.update s.call a .idle }
  | recvCall (a : A) (ch : C) (hcall : s.call a = .idle) :
      Step s (.recvCall a ch) { s with call := Function.update s.call a (.receiving ch []) }
  | copied (a : A) (ch : C) (got part rest : List α) (hcall : s.call a = .receiving ch got)
      (hqueue : s.queue ch = part ++ rest) :
      Step s (.copied a ch part)
        { queue := Function.update s.queue ch rest
          call := Function.update s.call a (.receiving ch (got ++ part)) }
  | recvRet (a : A) (ch : C) (data : List α) (hcall : s.call a = .receiving ch data) :
      Step s (.recvRet a ch data) { s with call := Function.update s.call a .idle }

end Step

/-! ## What a history says about a channel

Each projection is restricted to the agents that meet `who`. -/

variable {who : A → Prop} [DecidablePred who] [DecidableEq C] {ch : C}

def Event.argument (who : A → Prop) [DecidablePred who] (ch : C) : Event A C α → List α
  | .sendCall a ch' data => if who a ∧ ch' = ch then data else []
  | _ => []

def Event.taking (who : A → Prop) [DecidablePred who] (ch : C) : Event A C α → List α
  | .taken a ch' part => if who a ∧ ch' = ch then part else []
  | _ => []

def Event.copying (who : A → Prop) [DecidablePred who] (ch : C) : Event A C α → List α
  | .copied a ch' part => if who a ∧ ch' = ch then part else []
  | _ => []

def Event.result (who : A → Prop) [DecidablePred who] (ch : C) : Event A C α → List α
  | .recvRet a ch' data => if who a ∧ ch' = ch then data else []
  | _ => []

def arguments (ch : C) (history : List (Event A C α)) : List α :=
  history.flatMap (Event.argument (fun _ ↦ True) ch)

def taken (ch : C) (history : List (Event A C α)) : List α :=
  history.flatMap (Event.taking (fun _ ↦ True) ch)

def copied (ch : C) (history : List (Event A C α)) : List α :=
  history.flatMap (Event.copying (fun _ ↦ True) ch)

def received (ch : C) (history : List (Event A C α)) : List α :=
  history.flatMap (Event.result (fun _ ↦ True) ch)

/-- What a call has still to send on the channel. -/
def Call.unsent (ch : C) : Call C α → List α
  | .sending ch' rest => if ch' = ch then rest else []
  | _ => []

/-- What a call has received on the channel without having returned it. -/
def Call.unreturned (ch : C) : Call C α → List α
  | .receiving ch' got => if ch' = ch then got else []
  | _ => []

/-! ## Conservation -/

variable [DecidableEq A] {s t : State A C α} {e : Event A C α} {history : List (Event A C α)}

/-- A channel holds what it has taken and not yet handed out. -/
theorem Step.stream (hstep : Step s e t) : s.queue ch ++ e.taking (fun _ ↦ True) ch =
    e.copying (fun _ ↦ True) ch ++ t.queue ch := by
  cases hstep with
  | taken a ch' part rest hcall =>
      by_cases hch : ch' = ch
      · subst hch
        simp [Event.taking, Event.copying]
      · simp [Event.taking, Event.copying, hch, Ne.symm hch]
  | copied a ch' got part rest hcall hqueue =>
      by_cases hch : ch' = ch
      · subst hch
        simp [Event.taking, Event.copying, hqueue]
      · simp [Event.taking, Event.copying, hch, Ne.symm hch]
  | _ => simp [Event.taking, Event.copying]

/-- An agent has still to send what it was given and the channel has not taken. -/
theorem Step.sends (hstep : Step s e t) (b : A) :
    (s.call b).unsent ch ++ e.argument (· = b) ch =
      e.taking (· = b) ch ++ (t.call b).unsent ch := by
  cases hstep with
  | sendCall a ch' data hcall =>
      by_cases hab : a = b
      · subst hab
        simp [Event.argument, Event.taking, Call.unsent, hcall]
      · simp [Event.argument, Event.taking, hab, Ne.symm hab]
  | taken a ch' part rest hcall =>
      by_cases hab : a = b
      · subst hab
        by_cases hch : ch' = ch <;> simp [Event.argument, Event.taking, Call.unsent, hcall, hch]
      · simp [Event.argument, Event.taking, hab, Ne.symm hab]
  | sendRet a ch' hcall | recvCall a ch' hcall | copied a ch' got part rest hcall hqueue
  | recvRet a ch' data hcall =>
      by_cases hab : a = b
      · subst hab
        simp [Event.argument, Event.taking, Call.unsent, hcall]
      · simp [Event.argument, Event.taking, Ne.symm hab]

/-- An agent has received what it was handed and has not returned. -/
theorem Step.receives (hstep : Step s e t) (b : A) :
    (s.call b).unreturned ch ++ e.copying (· = b) ch =
      e.result (· = b) ch ++ (t.call b).unreturned ch := by
  cases hstep with
  | copied a ch' got part rest hcall hqueue =>
      by_cases hab : a = b
      · subst hab
        by_cases hch : ch' = ch <;> simp [Event.copying, Event.result, Call.unreturned, hcall, hch]
      · simp [Event.copying, Event.result, hab, Ne.symm hab]
  | recvRet a ch' data hcall =>
      by_cases hab : a = b
      · subst hab
        by_cases hch : ch' = ch <;> simp [Event.copying, Event.result, Call.unreturned, hcall, hch]
      · simp [Event.copying, Event.result, hab, Ne.symm hab]
  | sendCall a ch' data hcall | taken a ch' part rest hcall | sendRet a ch' hcall
  | recvCall a ch' hcall =>
      by_cases hab : a = b
      · subst hab
        simp [Event.copying, Event.result, Call.unreturned, hcall]
      · simp [Event.copying, Event.result, Ne.symm hab]

def State.initial : State A C α where
  queue _ := []
  call _ := .idle

/-- An equation between what steps add and remove adds up along a run. -/
theorem run_balance {gain loss : Event A C α → List α} (held : State A C α → List α)
    (hinit : held State.initial = [])
    (hstep : ∀ s e t, Step s e t → held s ++ gain e = loss e ++ held t)
    (hrun : Run Step State.initial history s) :
    history.flatMap gain = history.flatMap loss ++ held s := by
  refine hrun.history (P := fun history s ↦ history.flatMap gain = history.flatMap loss ++ held s)
    (by simp [hinit]) ?_
  intro history t e u ih h
  rw [List.flatMap_append, List.flatMap_append, List.flatMap_singleton, List.flatMap_singleton, ih,
    List.append_assoc, List.append_assoc, hstep t e u h]

theorem run_stream (hrun : Run Step State.initial history s) :
    taken ch history = copied ch history ++ s.queue ch :=
  run_balance (fun s ↦ s.queue ch) rfl (fun _ _ _ h ↦ h.stream) hrun

/-- What a channel has handed out is a leading part of what it has taken. -/
theorem copied_isPrefix_taken (hrun : Run Step State.initial history s) :
    copied ch history <+: taken ch history := by
  rw [run_stream hrun]
  exact List.prefix_append _ _

/-- What a channel has taken from an agent is a leading part of what the agent was given. -/
theorem taking_isPrefix_argument (hrun : Run Step State.initial history s) (a : A) :
    history.flatMap (Event.taking (· = a) ch) <+: history.flatMap (Event.argument (· = a) ch) := by
  rw [run_balance (fun s ↦ (s.call a).unsent ch) rfl (fun _ _ _ h ↦ h.sends a) hrun]
  exact List.prefix_append _ _

/-- What an agent has returned is a leading part of what the channel has handed to it. -/
theorem result_isPrefix_copying (hrun : Run Step State.initial history s) (a : A) :
    history.flatMap (Event.result (· = a) ch) <+: history.flatMap (Event.copying (· = a) ch) := by
  rw [run_balance (fun s ↦ (s.call a).unreturned ch) rfl (fun _ _ _ h ↦ h.receives a) hrun]
  exact List.prefix_append _ _

/-! ## One sender and one receiver -/

/-- Arguments of sends come from agents that send. -/
theorem arguments_of_sole {a : A} (hsole : ∀ b data, .sendCall b ch data ∈ history → b = a) :
    arguments ch history = history.flatMap (Event.argument (· = a) ch) := by
  refine List.flatMap_congr fun e he ↦ ?_
  cases e with
  | sendCall b ch' data =>
      by_cases hch : ch' = ch
      · subst hch
        simp [Event.argument, hsole b data he]
      · simp [Event.argument, hch]
  | _ => rfl

/-- What a channel has taken comes from agents that send. -/
theorem taken_of_sole (hrun : Run Step State.initial history s) {a : A}
    (hsole : ∀ b data, .sendCall b ch data ∈ history → b = a) :
    taken ch history = history.flatMap (Event.taking (· = a) ch) := by
  refine List.flatMap_congr fun e he ↦ ?_
  cases e with
  | taken b ch' part =>
      by_cases hch : ch' = ch
      · subst hch
        by_cases hba : b = a
        · simp [Event.taking, hba]
        · -- an agent without sends has nothing taken from it
          have hargument : history.flatMap (Event.argument (· = b) ch') = [] := by
            rw [List.flatMap_eq_nil_iff]
            intro e' he'
            cases e' with
            | sendCall c ch'' data =>
                simp only [Event.argument, ite_eq_right_iff]
                rintro ⟨rfl, rfl⟩
                exact absurd (hsole c data he') hba
            | _ => rfl
          have hnone := List.prefix_nil.mp (hargument ▸ taking_isPrefix_argument hrun b)
          have hpart := List.flatMap_eq_nil_iff.mp hnone _ he
          simp only [Event.taking, and_self, if_true] at hpart
          simp [Event.taking, hpart]
      · simp [Event.taking, hch]
  | _ => rfl

/-- An agent to which a channel hands something out has called for it. -/
theorem recvCall_of_copied (hrun : Run Step State.initial history s) (a : A) :
    ((∃ got, s.call a = .receiving ch got) → .recvCall a ch ∈ history) ∧
    (∀ part, .copied a ch part ∈ history → .recvCall a ch ∈ history) := by
  refine hrun.history (P := fun history s ↦
    ((∃ got, s.call a = .receiving ch got) → .recvCall a ch ∈ history) ∧
    (∀ part, .copied a ch part ∈ history → .recvCall a ch ∈ history))
    ⟨fun ⟨_, h⟩ ↦ (nomatch h), fun _ h ↦ (nomatch h)⟩ ?_
  rintro history t e u ⟨hcalls, hcopies⟩ hstep
  have hold : (∃ got, t.call a = .receiving ch got) → .recvCall a ch ∈ history ++ [e] :=
    fun h ↦ List.mem_append_left _ (hcalls h)
  refine ⟨fun ⟨got, hgot⟩ ↦ ?_, fun part hpart ↦ ?_⟩
  · by_cases hsame : u.call a = t.call a
    · exact hold ⟨got, hsame ▸ hgot⟩
    · cases hstep with
      | copied b ch' got' part rest hcall hqueue =>
          by_cases hab : a = b
          · subst hab
            simp only [Function.update_self, Call.receiving.injEq] at hgot
            exact hold ⟨got', hgot.1 ▸ hcall⟩
          · exact absurd (Function.update_of_ne hab _ _) hsame
      | recvCall b ch' hcall =>
          by_cases hab : a = b
          · subst hab
            simp only [Function.update_self, Call.receiving.injEq] at hgot
            simp [hgot.1]
          · exact absurd (Function.update_of_ne hab _ _) hsame
      | sendCall b | taken b | sendRet b | recvRet b =>
          by_cases hab : a = b
          · subst hab
            simp at hgot
          · exact absurd (Function.update_of_ne hab _ _) hsame
  · rcases List.mem_append.mp hpart with hmem | hmem
    · exact List.mem_append_left _ (hcopies part hmem)
    · rw [List.mem_singleton] at hmem
      subst hmem
      cases hstep with
      | copied b ch' got _ rest hcall hqueue => exact hold ⟨got, hcall⟩

/-- What a channel has handed out went to agents that receive. -/
theorem copied_of_sole (hrun : Run Step State.initial history s) {a : A}
    (hsole : ∀ b, .recvCall b ch ∈ history → b = a) :
    copied ch history = history.flatMap (Event.copying (· = a) ch) := by
  refine List.flatMap_congr fun e he ↦ ?_
  cases e with
  | copied b ch' part =>
      by_cases hch : ch' = ch
      · subst hch
        simp [Event.copying, hsole b ((recvCall_of_copied hrun b).2 part he)]
      · simp [Event.copying, hch]
  | _ => rfl

/-- What receives have returned was received by agents that receive. -/
theorem received_of_sole (hrun : Run Step State.initial history s) {a : A}
    (hsole : ∀ b, .recvCall b ch ∈ history → b = a) :
    received ch history = history.flatMap (Event.result (· = a) ch) := by
  refine List.flatMap_congr fun e he ↦ ?_
  cases e with
  | recvRet b ch' data =>
      by_cases hch : ch' = ch
      · subst hch
        by_cases hba : b = a
        · simp [Event.result, hba]
        · have hcopying : history.flatMap (Event.copying (· = b) ch') = [] := by
            rw [List.flatMap_eq_nil_iff]
            intro e' he'
            cases e' with
            | copied c ch'' part =>
                simp only [Event.copying, ite_eq_right_iff]
                rintro ⟨rfl, rfl⟩
                exact absurd (hsole c ((recvCall_of_copied hrun c).2 part he')) hba
            | _ => rfl
          have hnone := List.prefix_nil.mp (hcopying ▸ result_isPrefix_copying hrun b)
          have hdata := List.flatMap_eq_nil_iff.mp hnone _ he
          simp only [Event.result, and_self, if_true] at hdata
          simp [Event.result, hdata]
      · simp [Event.result, hch]
  | _ => rfl

/-- With one sender and one receiver on a channel, what the completed receives have returned is a
leading part of what the sends were given. -/
theorem received_isPrefix_arguments (hrun : Run Step State.initial history s) {a b : A}
    (hsend : ∀ c data, .sendCall c ch data ∈ history → c = a)
    (hrecv : ∀ c, .recvCall c ch ∈ history → c = b) :
    received ch history <+: arguments ch history := by
  rw [received_of_sole hrun hrecv, arguments_of_sole hsend]
  refine (result_isPrefix_copying hrun b).trans ?_
  rw [← copied_of_sole hrun hrecv]
  refine (copied_isPrefix_taken hrun).trans ?_
  rw [taken_of_sole hrun hsend]
  exact taking_isPrefix_argument hrun a

end CppMtHw.Machine.Stream
