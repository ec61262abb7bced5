import Mathlib.Data.List.Basic
import CppMtHw.Coroutines.Running
import CppMtHw.Machine.Fallible

/-!
# One stack for all coroutines

Every run on the one stack is a run on stacks apart, in which each coroutine finds what it has
left. Only bytes above `StackBottom` may differ: `Restore` copies the whole buffer, so it overruns
the stack of a coroutine that has been suspended with a larger one before.
-/

namespace CppMtHw.Coroutines

open Machine

/-! ## Addresses -/

/-- The addresses that the stack may have: down to `limit`, with all distances in an `int`. -/
structure StackArea where
  limit : ℕ
  bottom : ℕ
  fits : bottom < limit + 2 ^ 31

def StackArea.Holds (area : StackArea) (stackStart : ℕ) : Prop :=
  area.limit ≤ stackStart ∧ stackStart ≤ area.bottom

/-- The recursion of `Restore` reaches a frame below all stacks. -/
def StackArea.Left (area : StackArea) (frames : List ℕ) : Prop :=
  ∃ a ∈ frames, 0 < a ∧ a < area.limit

def StackArea.Fits (area : StackArea) (locals : Locals) : Prop :=
  area.Holds locals.stackStart ∧ area.Left locals.frames

def Move.Inside (area : StackArea) : Move → Prop
  | .run _ locals => area.Holds locals.stackStart
  | .sched _ _ locals => area.Fits locals
  | .ret _ locals idleFrames => area.Fits locals ∧ area.Left idleFrames

variable {area : StackArea} {ctx : SavedStack} {kept : Kept} {memory memory₁ memory₂ : Bytes}
  {stackStart : ℕ} {frames : List ℕ}

/-! ## One stack -/

/-- What a context's buffer has of the stack that it stands for. -/
structure Keeps (area : StackArea) (ctx : SavedStack) (kept : Kept) : Prop where
  sound : ctx.Sound
  size : ctx.bufSize = area.bottom - kept.deepest
  top : kept.stackPointer ≤ area.bottom
  restores : ∀ frames memory, area.Left frames →
    ∃ memory', ctx.restore frames memory = some memory' ∧ ∀ x, kept.stackPointer ≤ x →
      (x < area.bottom → memory' x = kept.memory x) ∧
      (area.bottom + kept.shrunk ≤ x → memory' x = memory x)

/-- Two memories have the same bytes on a stack and above it, except where `Restore` has overrun
it. -/
def Sees (area : StackArea) (kept : Kept) (memory₁ memory₂ : Bytes) : Prop :=
  ∀ x, kept.stackPointer ≤ x → x < area.bottom ∨ area.bottom + kept.shrunk ≤ x →
    memory₁ x = memory₂ x

theorem keeps_fresh : Keeps area SavedStack.fresh (Keeping.apart area.bottom).fresh where
  sound := SavedStack.sound_fresh
  size := (Nat.sub_self area.bottom).symm
  top := Nat.le_refl area.bottom
  restores frames memory hleft := by
    obtain ⟨a, ha, hpos, -⟩ := hleft
    refine ⟨_, SavedStack.restore_eq rfl ⟨a, ha, Or.inr hpos⟩, fun x hx ↦ ?_⟩
    have hoverrun : memory.blit 0 [] x = memory x := Bytes.blit_of_not_mem (Or.inr (Nat.zero_le x))
    exact ⟨fun hlt ↦ absurd hlt (Nat.not_lt.mpr hx), fun _ ↦ hoverrun⟩

/-- A stack that is stored inside the area is kept, whatever the buffer held before. -/
theorem Keeps.store (h : Keeps area ctx kept) (hat : area.Holds stackStart) :
    ∃ ctx', ctx.store area.bottom stackStart memory = some ctx' ∧
      Keeps area ctx' ⟨stackStart, min kept.deepest stackStart, memory⟩ := by
  obtain ⟨hlimit, hbottom⟩ := hat
  have hfits := area.fits
  set size := area.bottom - stackStart with hsize
  have hdepth : SavedStack.depth area.bottom stackStart = size := by
    rw [SavedStack.depth, Nat.max_eq_left hbottom, Nat.min_eq_right hbottom]
  have hmod : size % 2 ^ 32 = size := Nat.mod_eq_of_lt (by omega)
  have hstore : ctx.store area.bottom stackStart memory = _ :=
    SavedStack.store_eq_some h.sound (by rw [hdepth, hmod]; omega)
  have hsound := SavedStack.sound_store h.sound hstore
  rw [hdepth, hmod, Nat.min_eq_right hbottom, Nat.max_eq_left hbottom] at hstore hsound
  have hbufSize : max ctx.bufSize size = area.bottom - min kept.deepest stackStart := by
    rw [h.size]
    omega
  refine ⟨_, hstore, hsound, hbufSize, hbottom, fun frames memory' hleft ↦ ?_⟩
  have hlength : (memory.block stackStart size ++ ctx.buf.drop size).length =
      area.bottom - min kept.deepest stackStart := hsound.size.trans hbufSize
  obtain ⟨a, ha, -, hbelow⟩ := hleft
  refine ⟨memory'.blit stackStart (memory.block stackStart size ++ ctx.buf.drop size),
    SavedStack.restore_eq hsound.size
      ⟨a, ha, Or.inl (Nat.lt_of_lt_of_le hbelow hlimit)⟩, fun x hx ↦ ?_⟩
  change stackStart ≤ x at hx
  constructor
  · intro hlt
    have hin : x - stackStart < size := by omega
    have hblock : x - stackStart < (memory.block stackStart size).length := by
      rwa [Bytes.length_block]
    rw [Bytes.blit_of_mem hx (by omega), List.getD_eq_getElem?_getD,
      List.getElem?_append_left hblock,
      ← List.getD_eq_getElem?_getD, Bytes.getD_block hin, Nat.add_sub_cancel' hx]
  · intro habove
    change area.bottom + (stackStart - min kept.deepest stackStart) ≤ x at habove
    exact Bytes.blit_of_not_mem (by omega)

/-- One of the contexts has a stack stored. -/
theorem keeps_update {all₁ : Ctx → SavedStack} {all₂ : Ctx → Kept} {c c' : Ctx}
    (h : ∀ c, Keeps area (all₁ c) (all₂ c)) (hc : Keeps area ctx kept) :
    Keeps area (Function.update all₁ c ctx c') (Function.update all₂ c kept c') := by
  by_cases heq : c' = c
  · rw [heq, Function.update_self, Function.update_self]
    exact hc
  · rw [Function.update_of_ne heq, Function.update_of_ne heq]
    exact h c'

/-- The memory after a `Restore`, on one stack and on stacks apart. -/
theorem Keeps.sees (h : Keeps area ctx kept) (hleft : area.Left frames)
    (habove : ∀ x, area.bottom ≤ x → memory₁ x = memory₂ x) :
    ∃ memory₁' memory₂', (Keeping.copying area.bottom).restore ctx frames memory₁ = some memory₁' ∧
      (Keeping.apart area.bottom).restore kept frames memory₂ = some memory₂' ∧
      Sees area kept memory₁' memory₂' := by
  obtain ⟨memory₁', hrestore, hbytes⟩ := h.restores frames memory₁ hleft
  refine ⟨memory₁', _, hrestore, rfl, fun x hx hvisible ↦ ?_⟩
  obtain ⟨hbelow, hunchanged⟩ := hbytes x hx
  by_cases hlt : x < area.bottom
  · rw [hbelow hlt, if_pos hlt]
  · rw [hunchanged (hvisible.resolve_left hlt), if_neg hlt]
    exact habove x (Nat.not_lt.mp hlt)

/-! ## Runs -/

inductive Alike {α β : Type} (rel : α → β → Prop) : Sched α → Sched β → Prop
  | returned : Alike rel .returned .returned
  | switched {a : α} {b : β} (h : rel a b) : Alike rel (.switched a) (.switched b)

/-- Both engines have made the same decisions, and every stack is kept; the one of the idle context
has been stored once only. -/
structure Related (area : StackArea) (one : Running SavedStack) (apart : Running Kept) : Prop where
  engine : one.engine = apart.engine
  kept : ∀ c, Keeps area (one.kept c) (apart.kept c)
  idleCtx : Keeps area one.idleCtx apart.idleCtx
  idleShrunk : apart.idleCtx.shrunk = 0

structure Simulates (area : StackArea) (one : Running SavedStack) (apart : Running Kept) : Prop
    extends Related area one apart where
  sees : Sees area apart.current one.memory apart.memory

def SameAbove (area : StackArea) (one : Running SavedStack) (apart : Running Kept) : Prop :=
  ∀ x, area.bottom ≤ x → one.memory x = apart.memory x

variable {one : Running SavedStack} {apart : Running Kept} {c : Ctx} {locals : Locals}
  {idleMemory : Bytes} {idleStart : ℕ} {idleFrames : List ℕ} {move : Move} {moves : List Move}

theorem Related.simulates (h : Related area one apart) (hmemory : one.memory = apart.memory) :
    Simulates area one apart where
  toRelated := h
  sees x _ _ := congrFun hmemory x

theorem Related.store (h : Related area one apart) (hmemory : one.memory = apart.memory)
    (hat : area.Holds stackStart) :
    Agree (fun one' apart' ↦ Related area one' apart' ∧ one'.memory = apart'.memory)
      (one.store (.copying area.bottom) c stackStart)
        (apart.store (.apart area.bottom) c stackStart) := by
  have hkept : ∃ ctx, (one.kept c).store area.bottom stackStart one.memory = some ctx ∧
      Keeps area ctx ⟨stackStart, min (apart.kept c).deepest stackStart, one.memory⟩ :=
        (h.kept c).store hat
  obtain ⟨ctx, hstore, hkeeps⟩ := hkept
  simp only [Running.store, Keeping.copying, Keeping.apart, hstore, orFault, ok_bind]
  apply Agree.ok
  refine ⟨⟨h.engine, fun c' ↦ ?_, h.idleCtx, h.idleShrunk⟩, hmemory⟩
  rw [hmemory] at hkeeps
  exact keeps_update h.kept hkeeps

theorem Related.suspend (h : Related area one apart) (hat : area.Holds stackStart)
    (habove : SameAbove area one apart) (hmemory : apart.engine.curRoutine ≠ none →
      one.memory = apart.memory) :
    Agree (fun one' apart' ↦ Related area one' apart' ∧ SameAbove area one' apart')
      (one.suspend (.copying area.bottom) stackStart)
        (apart.suspend (.apart area.bottom) stackStart) := by
  rw [Running.suspend, Running.suspend, h.engine]
  cases hcur : apart.engine.curRoutine with
  | none => exact Agree.ok ⟨h, habove⟩
  | some cur =>
      have hsame := hmemory (by rw [hcur]; exact Option.some_ne_none cur)
      apply (h.store hsame hat).mono
      rintro one' apart' ⟨h', hmemory'⟩
      exact ⟨h', fun x _ ↦ congrFun hmemory' x⟩

/-- The engine makes its decision, and the chosen routine finds its stack. -/
theorem Related.sched (h : Related area one apart) (routine : Option Ctx)
    (hlocals : area.Fits locals) (habove : SameAbove area one apart)
    (hmemory : apart.engine.curRoutine ≠ none → one.memory = apart.memory) :
    Agree (Alike (Simulates area)) (one.sched (.copying area.bottom) routine locals)
      (apart.sched (.apart area.bottom) routine locals) := by
  apply (h.suspend hlocals.1 habove hmemory).bind
  rintro one' apart' ⟨h', habove'⟩
  rw [h'.engine]
  cases apart'.engine.sched routine with
  | error fault => exact Agree.error
  | ok outcome =>
      cases outcome with
      | returned => exact Agree.ok Alike.returned
      | switched e =>
          simp only [ok_bind]
          cases hcur : e.curRoutine with
          | none => exact Agree.error
          | some target =>
              obtain ⟨memory₁, memory₂, hcopied, hown, hsees⟩ :=
                (h'.kept target).sees hlocals.2 habove'
              simp only [Running.restore, hcopied, hown, orFault, ok_bind]
              apply Agree.ok
              apply Alike.switched
              refine ⟨⟨rfl, h'.kept, h'.idleCtx, h'.idleShrunk⟩, ?_⟩
              simpa only [Running.current, hcur] using hsees

/-- What follows a call of `sched`. -/
theorem agree_resume {E F : Type} {rel : E → F → Prop} {first : Except Fault E}
    {second : Except Fault F} {outcome : Except Fault (Sched E)} {outcome' : Except Fault (Sched F)}
    (houtcome : Agree (Alike rel) outcome outcome') (hreturned : Agree rel first second) :
    Agree rel (outcome >>= Sched.resume first) (outcome' >>= Sched.resume second) := by
  apply houtcome.bind
  intro a b halike
  cases halike with
  | returned => exact hreturned
  | switched h => exact Agree.ok h

/-- Either the idle context passes control on, or `start` returns from its own stack. -/
theorem Related.idle (h : Related area one apart) (hlocals : area.Fits locals)
    (hleft : area.Left idleFrames) (habove : SameAbove area one apart)
    (hcur : apart.engine.curRoutine = none) :
    Agree (Simulates area) (one.idle (.copying area.bottom) locals idleFrames)
      (apart.idle (.apart area.bottom) locals idleFrames) := by
  obtain ⟨memory₁, memory₂, hcopied, hown, hsees⟩ := h.idleCtx.sees hleft habove
  have hrelated : Related area { one with memory := memory₁ } { apart with memory := memory₂ } :=
    ⟨h.engine, h.kept, h.idleCtx, h.idleShrunk⟩
  have hstack : Sees area (Running.current { apart with memory := memory₂ }) memory₁ memory₂ := by
    simpa only [Running.current, hcur] using hsees
  have habove' : SameAbove area { one with memory := memory₁ }
      { apart with memory := memory₂ } := by
    intro x hx
    apply hsees x (Nat.le_trans h.idleCtx.top hx)
    rw [h.idleShrunk]
    exact Or.inr hx
  have hsched := hrelated.sched none hlocals habove' (absurd hcur)
  simp only [Running.idle, hcopied, hown, orFault, ok_bind]
  exact agree_resume hsched (Agree.ok ⟨hrelated, hstack⟩)

/-- `run` stores the stack of the caller for the new context. -/
theorem Simulates.run (h : Simulates area one apart) {e : Engine Unit}
    (hat : area.Holds stackStart) :
    Agree (Simulates area)
      (Running.store (.copying area.bottom) { one with
        engine := e, kept := Function.update one.kept c (Keeping.copying area.bottom).fresh,
        memory } c stackStart)
      (Running.store (.apart area.bottom) { apart with
        engine := e, kept := Function.update apart.kept c (Keeping.apart area.bottom).fresh,
        memory } c stackStart) := by
  have hrelated : Related area
      { one with
        engine := e, kept := Function.update one.kept c (Keeping.copying area.bottom).fresh,
        memory }
      { apart with
        engine := e, kept := Function.update apart.kept c (Keeping.apart area.bottom).fresh,
        memory } := by
    refine ⟨rfl, fun c' ↦ ?_, h.idleCtx, h.idleShrunk⟩
    exact keeps_update h.kept keeps_fresh
  apply (hrelated.store rfl hat).mono
  rintro one' apart' ⟨h', hmemory⟩
  exact h'.simulates hmemory

theorem curRoutine_of_complete {e e' : Engine Unit} {next : Option Ctx}
    (h : e.complete c = .ok (next, e')) : e'.curRoutine = none := by
  obtain ⟨_, -, h⟩ := ok_of_bind h
  obtain ⟨_, -, h⟩ := ok_of_bind h
  obtain ⟨_, -, h⟩ := ok_of_bind h
  obtain ⟨_, -, h⟩ := ok_of_bind h
  obtain ⟨_, -, h⟩ := ok_of_bind h
  obtain ⟨_, -, h⟩ := ok_of_bind h
  obtain ⟨_, -, h⟩ := ok_of_bind h
  split at h
  · split at h
    · obtain ⟨_, -, h⟩ := ok_of_bind h
      obtain ⟨-, rfl⟩ := Prod.mk.inj (Except.ok.inj h)
      rfl
    · cases h
  · obtain ⟨-, rfl⟩ := Prod.mk.inj (Except.ok.inj h)
    rfl

/-- One move keeps the simulation. -/
theorem Simulates.exec (h : Simulates area one apart) (hmove : move.Inside area) :
    Agree (Simulates area) (one.exec (.copying area.bottom) move)
      (apart.exec (.apart area.bottom) move) := by
  cases move with
  | run memory locals =>
      simp only [Running.exec, h.engine]
      cases apart.engine.run () with
      | error fault => exact Agree.error
      | ok result => exact h.run hmove
  | sched routine memory locals =>
      have hrelated : Related area { one with memory := memory } { apart with memory := memory } :=
        ⟨h.engine, h.kept, h.idleCtx, h.idleShrunk⟩
      have hsched := hrelated.sched routine hmove (fun _ _ ↦ rfl) fun _ ↦ rfl
      exact agree_resume hsched (Agree.ok (hrelated.simulates rfl))
  | ret memory locals idleFrames =>
      obtain ⟨hlocals, hleft⟩ := hmove
      simp only [Running.exec, h.engine]
      cases hcur : apart.engine.curRoutine with
      | none => exact Agree.error
      | some pc =>
          cases hcomplete : apart.engine.complete pc with
          | error fault =>
              simp only [hcomplete]
              exact Agree.error
          | ok result =>
              obtain ⟨next, e⟩ := result
              have hrelated : Related area { one with engine := e, memory := memory }
                  { apart with engine := e, memory := memory } :=
                    ⟨rfl, h.kept, h.idleCtx, h.idleShrunk⟩
              have hreturned :=
                hrelated.idle hlocals hleft (fun _ _ ↦ rfl) (curRoutine_of_complete hcomplete)
              simp only [hcomplete, ok_bind]
              cases next with
              | none => exact hreturned
              | some routine =>
                  have hsched := hrelated.sched (some routine) hlocals (fun _ _ ↦ rfl) fun _ ↦ rfl
                  exact agree_resume hsched hreturned

theorem Simulates.execAll (h : Simulates area one apart)
    (hmoves : ∀ move ∈ moves, move.Inside area) :
    Agree (Simulates area) (one.execAll (.copying area.bottom) moves)
      (apart.execAll (.apart area.bottom) moves) := by
  induction moves generalizing one apart with
  | nil => exact Agree.ok h
  | cons move moves ih =>
      obtain ⟨hmove, hrest⟩ := List.forall_mem_cons.mp hmoves
      apply (h.exec hmove).bind
      intro one' apart' h'
      exact ih h' hrest

end CppMtHw.Coroutines
