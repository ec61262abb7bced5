import CppMtHw.Machine.Transition

/-!
# Bounded first-in first-out queues

What a byte stream with a bounded store promises: a read takes the oldest elements,
a write appends a leading part of its argument and cuts it short only when the store
is full up to the slack. Along every run the elements handed out, followed by those
still stored, are the elements accepted.
-/

namespace CppMtHw.Machine.Fifo

variable {α : Type*} {bound : ℕ}

/-- A completed call: what was asked for and what came back. -/
inductive Call (α : Type*)
  | read (count : ℕ) (returned : List α)
  | write (src : List α) (accepted : ℕ)

/-- The calls a queue answers; a write that is cut short leaves at least `bound` elements. -/
inductive Step (bound : ℕ) : List α → Call α → List α → Prop
  | read (queue : List α) (count : ℕ) :
      Step bound queue (.read count (queue.take count)) (queue.drop count)
  | write (queue src : List α) (accepted : ℕ) (hle : accepted ≤ src.length)
      (hshort : accepted < src.length → bound ≤ (queue ++ src.take accepted).length) :
      Step bound queue (.write src accepted) (queue ++ src.take accepted)

def Call.received : Call α → List α
  | .read _ returned => returned
  | .write _ _ => []

def Call.accepted : Call α → List α
  | .read _ _ => []
  | .write src count => src.take count

def received (calls : List (Call α)) : List α := calls.flatMap Call.received

def accepted (calls : List (Call α)) : List α := calls.flatMap Call.accepted

theorem Step.conserve {queue queue' : List α} {call : Call α} (h : Step bound queue call queue') :
    call.received ++ queue' = queue ++ call.accepted := by
  cases h with
  | read => simp [Call.received, Call.accepted]
  | write => simp [Call.received, Call.accepted]

/-- Nothing is lost, repeated or reordered along a run. -/
theorem run_conserve {queue queue' : List α} {calls : List (Call α)}
    (hrun : Run (Step bound) queue calls queue') :
    received calls ++ queue' = queue ++ accepted calls := by
  induction hrun with
  | nil => simp [received, accepted]
  | @snoc t u calls call _ hstep ih =>
      simp only [received, accepted, List.flatMap_append, List.flatMap_singleton] at ih ⊢
      rw [List.append_assoc, hstep.conserve, ← List.append_assoc, ih, List.append_assoc]

end CppMtHw.Machine.Fifo
