import OsLab.Coroutine
import OsLab.Lib.Run

/-!
# The life of a slot

What `coroutine_spawn` and `coroutine_resume` are to do with a slot, with no context in it: it is given a function, a context is
built for it, it is resumed any number of times, its function is called once, and when that has returned it can be given another
function. A run of `LifeStep` from `idle` is such a life. The deeds are read off the statements of the machine (`Machine.deed`).
-/

namespace OsLab.Coroutine

/-- How far a slot is: not in use, given a function, with a context for it, or with the function called. -/
inductive Life where
  | idle
  | bound (f : Body)
  | built (f : Body)
  | called (f : Body)

/-- What is done to a slot: `co->func = func`; `makecontext`, after which `coroutine_spawn` returns the slot; `swapcontext` in
`coroutine_resume`; the call of its function; and the end of it. -/
inductive Deed where
  | bind (f : Body)
  | build (f : Body)
  | resume
  | call (f : Body)
  | finish
  deriving DecidableEq

/-- What may be done to a slot, and where it leads. -/
inductive LifeStep : Life → Deed → Life → Prop where
  | bind (f : Body) : LifeStep .idle (.bind f) (.bound f)
  | build (f : Body) : LifeStep (.bound f) (.build f) (.built f)
  | resumeBuilt (f : Body) : LifeStep (.built f) .resume (.built f)
  | call (f : Body) : LifeStep (.built f) (.call f) (.called f)
  | resumeCalled (f : Body) : LifeStep (.called f) .resume (.called f)
  | finish (f : Body) : LifeStep (.called f) .finish .idle

namespace LifeAux

variable {a s : Life} {f : Body} {ds : List Deed}

/-- From the time it is given a function, a slot keeps it until it has been called and has ended. -/
theorem life_keeps (hs : s = .bound f ∨ s = .built f) (h : Run LifeStep s ds a) :
    a = s ∨ a = .built f ∨ (a = .called f ∧ .call f ∈ ds) ∨ (.call f ∈ ds ∧ .finish ∈ ds) := by
  refine Run.invariant
    (P := fun ds a => a = s ∨ a = .built f ∨ (a = .called f ∧ .call f ∈ ds) ∨ (.call f ∈ ds ∧ .finish ∈ ds)) (Or.inl rfl) ?_ h
  intro ds a d b _ ih hd
  have hbuilt : ∀ c, c = .built f → LifeStep c d b → b = .built f ∨ (b = .called f ∧ d = .call f) := by
    rintro c rfl hc
    cases hc with
    | resumeBuilt => exact Or.inl rfl
    | call => exact Or.inr ⟨rfl, rfl⟩
  rcases ih with rfl | hb | ⟨rfl, hcall⟩ | ⟨hcall, hfin⟩
  · rcases hs with rfl | hb
    · cases hd with
      | build => exact Or.inr (Or.inl rfl)
    · rcases hbuilt a hb hd with hb' | ⟨hb', rfl⟩
      · exact Or.inr (Or.inl hb')
      · exact Or.inr (Or.inr (Or.inl ⟨hb', List.mem_append_right _ List.mem_cons_self⟩))
  · rcases hbuilt a hb hd with hb' | ⟨hb', rfl⟩
    · exact Or.inr (Or.inl hb')
    · exact Or.inr (Or.inr (Or.inl ⟨hb', List.mem_append_right _ List.mem_cons_self⟩))
  · have hcall' : .call f ∈ ds ++ [d] := List.mem_append_left _ hcall
    cases hd with
    | resumeCalled => exact Or.inr (Or.inr (Or.inl ⟨rfl, hcall'⟩))
    | finish => exact Or.inr (Or.inr (Or.inr ⟨hcall', List.mem_append_right _ List.mem_cons_self⟩))
  · exact Or.inr (Or.inr (Or.inr ⟨List.mem_append_left _ hcall, List.mem_append_left _ hfin⟩))

/-- A slot that can be resumed has had its context built, and was only resumed and called since. -/
theorem life_built (h : Run LifeStep .idle ds a) :
    ∀ f, a = .built f ∨ a = .called f → ∃ pre since, ds = pre ++ .build f :: since ∧ ∀ d ∈ since, d = .resume ∨ d = .call f := by
  refine Run.invariant (P := fun ds a => ∀ f, a = .built f ∨ a = .called f →
    ∃ pre since, ds = pre ++ .build f :: since ∧ ∀ d ∈ since, d = .resume ∨ d = .call f) (by rintro f (h | h) <;> cases h) ?_ h
  intro ds a d b _ ih hd f hf
  have hlater : (a = .built f ∨ a = .called f) → (d = .resume ∨ d = .call f) →
      ∃ pre since, ds ++ [d] = pre ++ .build f :: since ∧ ∀ d ∈ since, d = .resume ∨ d = .call f := by
    intro ha hd
    obtain ⟨pre, since, rfl, hsince⟩ := ih f ha
    refine ⟨pre, since ++ [d], by simp, ?_⟩
    intro d' hd'
    rcases List.mem_append.1 hd' with hd' | hd'
    · exact hsince d' hd'
    · rw [List.mem_singleton.1 hd']
      exact hd
  cases hd with
  | bind g => rcases hf with hf | hf <;> cases hf
  | build g =>
    obtain rfl : g = f := by
      rcases hf with hf | hf
      · exact Life.built.inj hf
      · cases hf
    exact ⟨ds, [], rfl, nofun⟩
  | resumeBuilt g => exact hlater hf (Or.inl rfl)
  | call g =>
    rcases hf with hf | hf
    · cases hf
    · obtain rfl := Life.called.inj hf
      exact hlater (Or.inl rfl) (Or.inr rfl)
  | resumeCalled g => exact hlater hf (Or.inl rfl)
  | finish g => rcases hf with hf | hf <;> cases hf

/-- The life of a slot around two deeds. -/
theorem life_around {pre mid post : List Deed} {d e : Deed} (h : Run LifeStep .idle (pre ++ d :: (mid ++ e :: post)) a) :
    ∃ s₁ s₂ s₃ s₄, LifeStep s₁ d s₂ ∧ Run LifeStep s₂ mid s₃ ∧ LifeStep s₃ e s₄ := by
  obtain ⟨s₁, _, h⟩ := h.of_append
  obtain ⟨s₂, hd, h⟩ := h.of_cons
  obtain ⟨s₃, hmid, h⟩ := h.of_append
  obtain ⟨s₄, he, _⟩ := h.of_cons
  exact ⟨s₁, s₂, s₃, s₄, hd, hmid, he⟩

/-- Between two contexts built in a slot, the first function was called and has ended. -/
theorem life_build_build {pre mid post : List Deed} {g : Body}
    (h : Run LifeStep .idle (pre ++ .build f :: (mid ++ .build g :: post)) a) : .call f ∈ mid ∧ .finish ∈ mid := by
  obtain ⟨_, _, _, _, hd, hmid, he⟩ := life_around h
  cases hd with
  | build =>
    cases he with
    | build => simpa using life_keeps (Or.inr rfl) hmid

/-- Between two functions given to a slot, the first was called and has ended. -/
theorem life_bind_bind {pre mid post : List Deed} {g : Body}
    (h : Run LifeStep .idle (pre ++ .bind f :: (mid ++ .bind g :: post)) a) : .call f ∈ mid ∧ .finish ∈ mid := by
  obtain ⟨_, _, _, _, hd, hmid, he⟩ := life_around h
  cases hd with
  | bind =>
    cases he with
    | bind => simpa using life_keeps (Or.inl rfl) hmid

/-- Before a slot is resumed, its context was built, and since then it was only resumed and called. -/
theorem life_resume {pre post : List Deed} (h : Run LifeStep .idle (pre ++ .resume :: post) a) :
    ∃ f before since, pre = before ++ .build f :: since ∧ ∀ d ∈ since, d = .resume ∨ d = .call f := by
  obtain ⟨b, hpre, h⟩ := h.of_append
  obtain ⟨_, hb, _⟩ := h.of_cons
  cases hb with
  | resumeBuilt f => exact ⟨f, life_built hpre f (Or.inl rfl)⟩
  | resumeCalled f => exact ⟨f, life_built hpre f (Or.inr rfl)⟩

end LifeAux

/-! ## The deeds of the machine -/

/-- What a statement of `coroutine_spawn(f)` does to a slot. -/
def SpawnPc.deed (f : Body) : SpawnPc → Option (Slot × Deed)
  | .bind id => some (id, .bind f)
  | .makeContext id => some (id, .build f)
  | _ => none

/-- What the next statement does to a slot; a function is called, and ends, on the stack of its slot. -/
def Machine.deed (m : Machine) : Label → Option (Slot × Deed)
  | .signal => none
  | .statement =>
    match m.control with
    | .main (.spawning f _ pc) => pc.deed f
    | .main (.resuming i .swap) => some (i, .resume)
    | .main _ => none
    | .co _ (.spawning _ _ f pc) => pc.deed f
    | .co j (.call (some id)) => (m.func id).map (fun f => (j, .call f))
    | .co j (.finish _) => some (j, .finish)
    | .co _ _ => none

/-- The deed, if it is done to slot `i`. -/
def onSlot (i : Slot) : Option (Slot × Deed) → Option Deed
  | some (j, d) => if j = i then some d else none
  | none => none

/-- What was done to slot `i`, in order. -/
def deeds (i : Slot) (es : List (Option (Slot × Deed))) : List Deed := es.filterMap (onSlot i)

/-- A step of the machine that `ok` lets happen, with what it does to a slot. -/
def TraceStep (ok : Machine → Label → Prop) (m : Machine) (e : Option (Slot × Deed)) (m' : Machine) : Prop :=
  ∃ l, ok m l ∧ Step m l m' ∧ m.deed l = e

/-- A signal is delivered outside the window of `coroutine_resume`, and not to a coroutine in `coroutine_spawn` between the test
that found the slot and the end of `makecontext`. -/
def Machine.Guarded (m : Machine) (l : Label) : Prop :=
  m.Quiet l ∧ (l = .signal → ∀ j id rest f pc, m.control = .co j (.spawning id rest f pc) → pc.slot = none)

end OsLab.Coroutine
