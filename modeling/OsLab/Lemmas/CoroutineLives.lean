import OsLab.SlotLife
import OsLab.Lemmas.CoroutineMoves

/-!
# Every slot lives

With signals kept out of the two windows, whatever the bodies spawn: each slot is parked with a place of its own coroutine, or
free, or its coroutine has control, or it is the one slot that `coroutine_spawn` is making. In each case it is known how far the
slot is in its life (`Alive`), and every statement that does something to a slot takes the life one step further
(`Alive.statement`).
-/

namespace OsLab.Coroutine

/-! ## What is known of a slot -/

/-- How far the life of a slot with the function `f` is, when its coroutine is at the place. -/
def CoPc.life (f : Body) : CoPc → Life
  | .entry => .built f
  | .call _ => .built f
  | .clear _ => .idle
  | .exit _ => .idle
  | _ => .called f

/-- The slot that the coroutine is making at the place. -/
def CoPc.making : CoPc → Option Slot
  | .spawning _ _ _ pc => pc.slot
  | _ => none

/-- The context of the slot is a place of its own coroutine, outside the making of another. -/
def Stored (x : Life) (m : Machine) (i : Slot) : Prop :=
  ∃ f pc, m.func i = some f ∧ m.ctx i = some (.co i pc) ∧ pc.At i ∧ pc.state = .running ∧ pc.making = none ∧ x = pc.life f

/-- A slot whose coroutine does not have control, and that is not being made. -/
def Parked (x : Life) (m : Machine) (i : Slot) : Prop :=
  (m.state i = .free ∧ x = .idle) ∨ ((m.state i = .runnable ∨ m.state i = .suspend) ∧ Stored x m i)

/-- The slot that `coroutine_spawn(f)` is making. -/
def Making (x : Slot → Life) (m : Machine) (f : Body) : SpawnPc → Prop
  | .scan _ => True
  | .claim i => m.state i = .free ∧ x i = .idle
  | .bind i => m.state i = .runnable ∧ x i = .idle
  | .getContext i => m.state i = .runnable ∧ m.func i = some f ∧ x i = .bound f
  | .link i => m.state i = .runnable ∧ m.func i = some f ∧ x i = .bound f
  | .makeContext i => m.state i = .runnable ∧ m.func i = some f ∧ x i = .bound f

/-- `coroutine_spawn(f)` is at a place, called while the slots in `busy` are in use: all others are parked, but the one it is
making. -/
structure Spawns (busy : Slot → Prop) (x : Slot → Life) (m : Machine) (f : Body) (pc : SpawnPc) : Prop where
  used : ∀ j, busy j → m.state j ≠ .free
  other : ∀ j, pc.slot = some j → ¬busy j
  parked : ∀ j, ¬busy j → pc.slot ≠ some j → Parked (x j) m j
  making : Making x m f pc

/-! ## The regions -/

/-- The coroutine of slot `i` has control. -/
structure Lives (x : Slot → Life) (m : Machine) (i : Slot) (pc : CoPc) : Prop where
  place : InCo m i pc
  life : ∃ f, m.func i = some f ∧ x i = pc.life f
  parked : pc.making = none → ∀ j, j ≠ i → Parked (x j) m j
  spawns : ∀ id rest f spc, pc = .spawning id rest f spc → Spawns (· = i) x m f spc

/-- `main` is in its loop. -/
structure Tends (x : Slot → Life) (m : Machine) (pc : MainPc) : Prop where
  place : InLoop m pc
  parked : ∀ j, pc.selected ≠ some j → Parked (x j) m j
  selected : ∀ i, pc.selected = some i → Stored (x i) m i

/-- Where control is, with the slots at `x` in their lives. -/
inductive Alive (x : Slot → Life) (m : Machine) : Prop where
  | spawning {f : Body} {rest : List Body} {pc : SpawnPc} : m.control = .main (.spawning f rest pc) →
      m.inScheduler = true → m.currentId = none → Spawns (fun _ => False) x m f pc → Alive x m
  | looping {pc : MainPc} : m.control = .main pc → Tends x m pc → Alive x m
  | inside {i : Slot} {pc : CoPc} : m.control = .co i pc → Lives x m i pc → Alive x m

/-- The lives after a deed: the one of its slot a step further, the others as they were. -/
def Advances (x : Slot → Life) (e : Option (Slot × Deed)) (x' : Slot → Life) : Prop :=
  match e with
  | none => x' = x
  | some (i, d) => LifeStep (x i) d (x' i) ∧ ∀ j, j ≠ i → x' j = x j

variable {busy : Slot → Prop} {x x' : Slot → Life} {a : Life} {m m' : Machine} {f : Body} {i j : Slot}

namespace LivesAux

open CoroutineAux

/-! ## Changes elsewhere -/

theorem stored_congr (h : Stored a m i) (hf : m'.func i = m.func i) (hc : m'.ctx i = m.ctx i) : Stored a m' i := by
  unfold Stored
  rw [hf, hc]
  exact h

theorem parked_congr (h : Parked a m i) (hs : m'.state i = m.state i) (hf : m'.func i = m.func i)
    (hc : m'.ctx i = m.ctx i) : Parked a m' i := by
  unfold Parked
  rw [hs]
  exact h.imp id (And.imp id (fun hst => stored_congr hst hf hc))

theorem parked_untouched (h : Parked a m i) (hu : Untouched m m' i) : Parked a m' i :=
  parked_congr h hu.state hu.func hu.ctx

/-- A parked slot that is free is idle. -/
theorem idle_of_free (h : Parked a m i) (hfree : m.state i = .free) : a = .idle := by
  rcases h with ⟨_, ha⟩ | ⟨hs, _⟩
  · exact ha
  · rcases hs with hs | hs <;> exact nomatch hs.symm.trans hfree

/-- A parked slot that can be resumed holds a place. -/
theorem stored_of_ready (h : Parked a m i) (hr : m.state i = .runnable ∨ m.state i = .suspend) : Stored a m i := by
  rcases h with ⟨hs, _⟩ | ⟨_, hst⟩
  · rcases hr with hr | hr <;> exact nomatch hs.symm.trans hr
  · exact hst

/-- A deed done to one slot. -/
theorem advances_update (d : Deed) {b : Life} (h : LifeStep (x i) d b) : Advances x (some (i, d)) (Function.update x i b) := by
  refine ⟨?_, fun j hj => Function.update_of_ne hj _ _⟩
  rw [Function.update_self]
  exact h

/-- A place where the slot of the coroutine is running, it can be resumed at. -/
theorem lifeStep_resume {pc : CoPc} (h : pc.state = .running) : LifeStep (pc.life f) .resume (pc.life f) := by
  cases pc with
  | entry => exact LifeStep.resumeBuilt f
  | call id => exact LifeStep.resumeBuilt f
  | clear id => cases h
  | exit id => cases h
  | _ => exact LifeStep.resumeCalled f

/-- One step more of a run, seen from each slot. -/
theorem deeds_snoc {es : List (Option (Slot × Deed))} {e : Option (Slot × Deed)} (h : Advances x e x') (i : Slot)
    (hr : Run LifeStep .idle (deeds i es) (x i)) : Run LifeStep .idle (deeds i (es ++ [e])) (x' i) := by
  unfold deeds at hr ⊢
  rw [List.filterMap_append]
  cases e with
  | none =>
    obtain rfl : x' = x := h
    rw [List.filterMap_cons_none rfl, List.filterMap_nil, List.append_nil]
    exact hr
  | some jd =>
    obtain ⟨j, d⟩ := jd
    obtain ⟨hj, hother⟩ := h
    by_cases hji : j = i
    · subst hji
      rw [List.filterMap_cons_some (show onSlot j (some (j, d)) = some d from if_pos rfl), List.filterMap_nil]
      exact hr.snoc hj
    · rw [List.filterMap_cons_none (show onSlot i (some (j, d)) = none from if_neg hji), List.filterMap_nil, List.append_nil,
        hother i (Ne.symm hji)]
      exact hr

/-! ## `coroutine_spawn` -/

/-- Where a statement of `coroutine_spawn` leaves the slots: at another place of it, or back with its caller and no slot in the
making. -/
def SpawnEnds (busy : Slot → Prop) (x : Slot → Life) (m : Machine) (f : Body) (k : SpawnPc → Cont) (ret : Cont) : Prop :=
  (∃ pc, m.control = k pc ∧ Spawns busy x m f pc) ∨ (m.control = ret ∧ ∀ j, ¬busy j → Parked (x j) m j)

/-- What `coroutine_spawn` leaves to its caller: the flags, and the slots in use. -/
structure Leaves (busy : Slot → Prop) (x x' : Slot → Life) (m m' : Machine) : Prop where
  sched : m'.inScheduler = m.inScheduler
  current : m'.currentId = m.currentId
  main : m'.mainCtx = m.mainCtx
  state : ∀ j, busy j → m'.state j = m.state j
  func : ∀ j, busy j → m'.func j = m.func j
  life : ∀ j, busy j → x' j = x j

/-- A statement that changes the slot in the making only, and stays in `coroutine_spawn`. -/
theorem Spawns.go {pc : SpawnPc} {k : SpawnPc → Cont} {ret : Cont} (pc' : SpawnPc) (h : Spawns busy x m f pc)
    (hslot : pc.slot = some i) (hslot' : pc'.slot = some i) (hx : ∀ j, j ≠ i → x' j = x j)
    (hother : ∀ j, j ≠ i → m'.state j = m.state j ∧ m'.func j = m.func j ∧ m'.ctx j = m.ctx j) (hctl : m'.control = k pc')
    (hmaking : Making x' m' f pc') : SpawnEnds busy x' m' f k ret := by
  have hne : ∀ j, busy j → j ≠ i := by
    rintro j hj rfl
    exact h.other j hslot hj
  refine Or.inl ⟨pc', hctl, ?_, ?_, ?_, hmaking⟩
  · intro j hj
    rw [(hother j (hne j hj)).1]
    exact h.used j hj
  · intro j hj
    exact h.other j (hslot.trans (hslot'.symm.trans hj))
  · intro j hj hjs
    have hji : j ≠ i := by
      rintro rfl
      exact hjs hslot'
    obtain ⟨h1, h2, h3⟩ := hother j hji
    rw [hx j hji]
    exact parked_congr (h.parked j hj (by rw [hslot, ← hslot']; exact hjs)) h1 h2 h3

/-- A statement of `coroutine_spawn`, whoever has called it. -/
theorem Spawns.statement {pc : SpawnPc} (k : SpawnPc → Cont) (ret : Cont) (h : Spawns busy x m f pc) :
    ∃ x', Advances x (pc.deed f) x' ∧ Leaves busy x x' m (coroutineSpawn m f k ret pc) ∧
      SpawnEnds busy x' (coroutineSpawn m f k ret pc) f k ret := by
  have hsame : ∀ c, Leaves busy x x m (m.goto c) := fun c => ⟨rfl, rfl, rfl, fun _ _ => rfl, fun _ _ => rfl, fun _ _ => rfl⟩
  have hmake : ∀ i, pc.slot = some i → ∀ j, busy j → j ≠ i := by
    rintro i hi j hj rfl
    exact h.other j hi hj
  cases pc with
  | scan i =>
    simp only [coroutineSpawn]
    by_cases hi : m.state i = .free
    · rw [if_pos hi]
      -- the slot of the caller is running, so it is not the one found
      have hnb : ¬busy i := fun hb => h.used i hb hi
      refine ⟨x, rfl, hsame _, Or.inl ⟨.claim i, rfl, h.used, ?_, ?_, hi, idle_of_free (h.parked i hnb nofun) hi⟩⟩
      · intro j hj
        obtain rfl := Option.some.inj hj
        exact hnb
      · exact fun j hj _ => h.parked j hj nofun
    · rw [if_neg hi]
      by_cases hlast : i.val + 1 < maxCoroutines
      · rw [dif_pos hlast]
        exact ⟨x, rfl, hsame _, Or.inl ⟨.scan _, rfl, h.used, nofun, fun j hj _ => h.parked j hj nofun, trivial⟩⟩
      · rw [dif_neg hlast]
        exact ⟨x, rfl, hsame _, Or.inr ⟨rfl, fun j hj => h.parked j hj nofun⟩⟩
  | claim i =>
    obtain ⟨_, hidle⟩ := h.making
    refine ⟨x, rfl, ⟨rfl, rfl, rfl, fun j hj => state_setState_of_ne (hmake i rfl j hj), fun _ _ => rfl, fun _ _ => rfl⟩, ?_⟩
    refine Spawns.go (i := i) (.bind i) h rfl rfl (fun _ _ => rfl) ?_ rfl ⟨state_setState_self, hidle⟩
    exact fun j hj => ⟨state_setState_of_ne hj, rfl, rfl⟩
  | bind i =>
    obtain ⟨hrun, hidle⟩ := h.making
    have hstep : LifeStep (x i) (.bind f) (.bound f) := by
      rw [hidle]
      exact LifeStep.bind f
    refine ⟨Function.update x i (.bound f), advances_update _ hstep, ⟨rfl, rfl, rfl, fun _ _ => rfl, ?_, ?_⟩, ?_⟩
    · exact fun j hj => Function.update_of_ne (hmake i rfl j hj) _ _
    · exact fun j hj => Function.update_of_ne (hmake i rfl j hj) _ _
    · refine Spawns.go (i := i) (.getContext i) h rfl rfl (fun j hj => Function.update_of_ne hj _ _) ?_ rfl ?_
      · exact fun j hj => ⟨rfl, Function.update_of_ne hj _ _, rfl⟩
      · exact ⟨hrun, Function.update_self _ _ _, Function.update_self _ _ _⟩
  | getContext i =>
    -- what `getcontext` stores is a place of the caller: nothing is said of the context before `makecontext`
    refine ⟨x, rfl, ⟨rfl, rfl, rfl, fun _ _ => rfl, fun _ _ => rfl, fun _ _ => rfl⟩, ?_⟩
    refine Spawns.go (i := i) (.link i) h rfl rfl (fun _ _ => rfl) ?_ rfl h.making
    exact fun j hj => ⟨rfl, rfl, ctx_setCtx_of_ne hj⟩
  | link i =>
    refine ⟨x, rfl, hsame _, ?_⟩
    exact Spawns.go (i := i) (.makeContext i) h rfl rfl (fun _ _ => rfl) (fun _ _ => ⟨rfl, rfl, rfl⟩) rfl h.making
  | makeContext i =>
    obtain ⟨hrun, hfunc, hbound⟩ := h.making
    have hstep : LifeStep (x i) (.build f) (.built f) := by
      rw [hbound]
      exact LifeStep.build f
    refine ⟨Function.update x i (.built f), advances_update _ hstep,
      ⟨rfl, rfl, rfl, fun _ _ => rfl, fun _ _ => rfl, ?_⟩, Or.inr ⟨rfl, ?_⟩⟩
    · exact fun j hj => Function.update_of_ne (hmake i rfl j hj) _ _
    · intro j hj
      by_cases hji : j = i
      · subst hji
        rw [Function.update_self]
        exact Or.inr ⟨Or.inl hrun, f, .entry, hfunc, ctx_setCtx_self, trivial, rfl, rfl, rfl⟩
      · rw [Function.update_of_ne hji]
        refine parked_congr (h.parked j hj ?_) rfl rfl (ctx_setCtx_of_ne hji)
        exact fun he => hji (Option.some.inj he).symm

/-! ## The loop of `main` -/

/-- A coroutine has control at a place where no slot is in the making. -/
theorem lives_of_parked {pc : CoPc} (hin : InCo m i pc) (hlife : ∃ f, m.func i = some f ∧ x i = pc.life f)
    (hmaking : pc.making = none) (hparked : ∀ j, j ≠ i → Parked (x j) m j) : Lives x m i pc := by
  refine ⟨hin, hlife, fun _ => hparked, ?_⟩
  rintro id rest g spc rfl
  refine ⟨?_, fun j hj => ?_, fun j hj _ => hparked j hj, ?_⟩
  · rintro j rfl hfree
    exact nomatch hin.state.symm.trans hfree
  · exact nomatch hmaking.symm.trans hj
  · cases spc with
    | scan _ => trivial
    | _ => cases hmaking

/-- `main` goes on spawning, or starts its loop. -/
theorem alive_spawnNext {rest : List Body} (hctl : m.control = .main (.spawnNext rest)) (hs : m.inScheduler = true)
    (hc : m.currentId = none) (hp : ∀ j, Parked (x j) m j) : Alive x m := by
  cases rest with
  | nil =>
    refine Alive.looping hctl ⟨⟨nofun, hs, hc, nofun, nofun, ?_⟩, fun j _ => hp j, nofun⟩
    exact fun j hj => absurd hj (Nat.not_lt_zero _)
  | cons f rest => exact Alive.spawning hctl hs hc ⟨nofun, nofun, fun j _ _ => hp j, trivial⟩

/-- A statement of the loop. -/
theorem Tends.statement {pc : MainPc} (hctl : m.control = .main pc) (h : Tends x m pc) :
    ∃ m', main m pc = some m' ∧ Advances x (m.deed .statement) x ∧ Alive x m' := by
  have hctx : ∀ i, pc = .resuming i .swap → ∃ cpc, m.ctx i = some (.co i cpc) ∧ cpc.At i ∧ cpc.state = .running := by
    rintro i rfl
    obtain ⟨_, cpc, _, hcpc, hat, hrun, _⟩ := h.selected i rfl
    exact ⟨cpc, hcpc, hat, hrun⟩
  obtain ⟨m', hm', hmove⟩ := InLoop.statement h.place hctl hctx
  refine ⟨m', hm', ?_, ?_⟩
  · -- the one deed of the loop is to switch to the slot it has picked
    cases pc with
    | spawning f rest spc => exact absurd rfl (h.place.loop f rest spc)
    | resuming i rpc =>
      cases rpc with
      | swap =>
        obtain ⟨f, cpc, _, _, _, hrun, _, hx⟩ := h.selected i rfl
        simp only [Machine.deed, hctl]
        refine ⟨?_, fun _ _ => rfl⟩
        rw [hx]
        exact lifeStep_resume hrun
      | _ => simp only [Machine.deed, hctl, Advances]
    | _ => simp only [Machine.deed, hctl, Advances]
  · cases hmove with
    | still pc' hctl' hin hsel hsame =>
      refine Alive.looping hctl' ⟨hin, fun j hj => parked_untouched (h.parked j (hsel ▸ hj)) (hsame j), fun i hi => ?_⟩
      exact stored_congr (h.selected i (hsel ▸ hi)) (hsame i).func (hsame i).ctx
    | @pick i hctl' hin hsame hfunc hctx' _ =>
      have hst := stored_of_ready (h.parked i nofun) (h.place.ready i rfl)
      refine Alive.looping hctl' ⟨hin, fun j hj => ?_, fun i' hi' => ?_⟩
      · exact parked_untouched (h.parked j nofun) (hsame j (fun he => hj (congrArg some he.symm)))
      · obtain rfl := Option.some.inj hi'
        exact stored_congr hst hfunc hctx'
    | @switch i cpc hcpc hctl' hin hsame =>
      obtain ⟨f, cpc', hfunc, hcpc', _, _, hmaking, hx⟩ := h.selected i rfl
      obtain ⟨-, rfl⟩ := Cont.co.inj (Option.some.inj (hcpc'.symm.trans hcpc))
      refine Alive.inside hctl' (lives_of_parked hin ⟨f, (hsame i).func.trans hfunc, hx⟩ hmaking (fun j hj => ?_))
      exact parked_untouched (h.parked j (fun he => hj (Option.some.inj he).symm)) (hsame j)

/-! ## A coroutine has control -/

/-- A statement outside `coroutine_spawn` leads to a place where no slot is in the making. -/
theorem making_after {pc : CoPc} (hpc : ∀ id rest g spc, pc ≠ .spawning id rest g spc) : (pc.after i f).making = none := by
  cases pc with
  | body id r => cases r <;> rfl
  | yielding id r ypc => cases ypc <;> rfl
  | spawning id r g spc => exact absurd rfl (hpc id r g spc)
  | _ => rfl

/-- What the statement does to the slot of the coroutine takes its life to where it is at the next place. -/
theorem advances_after {pc : CoPc} (hctl : m.control = .co i pc) (hat : pc.At i) (hf : m.func i = some f)
    (hx : x i = pc.life f) (hpc : ∀ id rest g spc, pc ≠ .spawning id rest g spc) :
    Advances x (m.deed .statement) (Function.update x i ((pc.after i f).life f)) := by
  have hstay : (pc.after i f).life f = pc.life f → Advances x none (Function.update x i ((pc.after i f).life f)) := by
    intro he
    rw [he, ← hx]
    exact Function.update_eq_self i x
  cases pc with
  | call id =>
    obtain rfl : id = some i := hat
    simp only [Machine.deed, hctl, hf]
    exact advances_update _ (by rw [hx]; exact LifeStep.call f)
  | finish id =>
    simp only [Machine.deed, hctl]
    exact advances_update _ (by rw [hx]; exact LifeStep.finish f)
  | spawning id r g spc => exact absurd rfl (hpc id r g spc)
  | body id r =>
    simp only [Machine.deed, hctl]
    exact hstay (by cases r <;> rfl)
  | yielding id r ypc =>
    simp only [Machine.deed, hctl]
    exact hstay (by cases ypc <;> rfl)
  | _ =>
    simp only [Machine.deed, hctl]
    exact hstay rfl

/-- The coroutine goes back to `main`, with its slot parked. -/
theorem Lives.back {pc : CoPc} (h : Lives x m i pc) (hmaking : pc.making = none) (hctl : m'.control = .main (.resuming i .enter))
    (hin : InLoop m' (.resuming i .enter)) (hother : ∀ j, j ≠ i → Untouched m m' j) (hx : ∀ j, j ≠ i → x' j = x j)
    (hi : Parked (x' i) m' i) : Alive x' m' := by
  refine Alive.looping hctl ⟨hin, fun j _ => ?_, nofun⟩
  by_cases hji : j = i
  · rw [hji]
    exact hi
  · rw [hx j hji]
    exact parked_untouched (h.parked hmaking j hji) (hother j hji)

/-- A statement of a coroutine in `coroutine_spawn`. -/
theorem Lives.spawn {rest : Body} {spc : SpawnPc} (hctl : m.control = .co i (.spawning i rest f spc))
    (h : Lives x m i (.spawning i rest f spc)) :
    ∃ m' x', coroutineWrapper m i (.spawning i rest f spc) = some m' ∧ Advances x (m.deed .statement) x' ∧ Alive x' m' := by
  obtain ⟨x', hadv, hl, hends⟩ := Spawns.statement (fun pc => .co i (.spawning i rest f pc)) (.co i (.body i rest))
    (h.spawns i rest f spc rfl)
  generalize hm' : coroutineSpawn m f _ _ spc = m' at hl hends
  obtain ⟨g, hg, hx⟩ := h.life
  have hlife : ∃ g, m'.func i = some g ∧ x' i = .called g := ⟨g, (hl.func i rfl).trans hg, (hl.life i rfl).trans hx⟩
  have hin : ∀ pc : CoPc, pc.state = .running → pc.current i = some i → pc.At i → InCo m' i pc := by
    intro pc hs hc hat
    exact ⟨hl.sched.trans h.place.sched, hl.main.trans h.place.main, (hl.current.trans h.place.current).trans hc.symm,
      ((hl.state i rfl).trans h.place.state).trans hs.symm, hat⟩
  refine ⟨m', x', ?_, ?_, ?_⟩
  · simp only [coroutineWrapper, hm']
  · simp only [Machine.deed, hctl]
    exact hadv
  · rcases hends with ⟨pc, hctl', hsp⟩ | ⟨hctl', hparked⟩
    · refine Alive.inside hctl' ⟨hin _ rfl rfl rfl, hlife, ?_, ?_⟩
      · intro hnone j hj
        refine hsp.parked j hj (fun he => ?_)
        cases hnone.symm.trans he
      · rintro _ _ _ _ he
        cases he
        exact hsp
    · exact Alive.inside hctl' (lives_of_parked (hin _ rfl rfl rfl) hlife rfl hparked)

/-- A statement of a coroutine. -/
theorem Lives.statement {pc : CoPc} (hctl : m.control = .co i pc) (h : Lives x m i pc) :
    ∃ m' x', coroutineWrapper m i pc = some m' ∧ Advances x (m.deed .statement) x' ∧ Alive x' m' := by
  by_cases hpc : ∀ id rest g spc, pc ≠ .spawning id rest g spc
  · obtain ⟨f, hf, hx⟩ := h.life
    obtain ⟨m', hm', hmove⟩ := InCo.statement h.place hf hpc
    have hmaking : pc.making = none := by
      cases pc with
      | spawning id r g spc => exact absurd rfl (hpc id r g spc)
      | _ => rfl
    refine ⟨m', _, hm', advances_after hctl h.place.here hf hx hpc, ?_⟩
    have hother : ∀ j, j ≠ i → Function.update x i ((pc.after i f).life f) j = x j := fun j hj => Function.update_of_ne hj _ _
    cases hmove with
    | go hctl' hin hsame hfunc _ =>
      refine Alive.inside hctl' (lives_of_parked hin ⟨f, hfunc.trans hf, Function.update_self _ _ _⟩ (making_after hpc) ?_)
      intro j hj
      rw [hother j hj]
      exact parked_untouched (h.parked hmaking j hj) (hsame j hj)
    | leave hctl' hin hfree hsame =>
      refine Lives.back h hmaking hctl' hin (fun j _ => hsame j) hother (Or.inl ⟨hfree, ?_⟩)
      exact Function.update_self _ _ _
    | yield hctl' hin hsusp hsame hfunc hctx _ =>
      refine Lives.back h hmaking hctl' hin hsame hother (Or.inr ⟨Or.inr hsusp, f, _, hfunc.trans hf, hctx, rfl, rfl, rfl, ?_⟩)
      exact Function.update_self _ _ _
  · simp only [not_forall, not_not] at hpc
    obtain ⟨id, rest, g, spc, rfl⟩ := hpc
    obtain rfl : id = i := h.place.here
    exact Lives.spawn hctl h

end LivesAux

open CoroutineAux LivesAux

/-! ## Every step -/

/-- A statement takes the life of the slot it does something to a step further, and leaves it known where every slot is. -/
theorem Alive.statement (h : Alive x m) :
    ∃ m' x', step m .statement = some m' ∧ Advances x (m.deed .statement) x' ∧ Alive x' m' := by
  cases h with
  | @spawning f rest pc hctl hs hc hsp =>
    obtain ⟨x', hadv, hl, hends⟩ := Spawns.statement (fun pc => .main (.spawning f rest pc)) (.main (.spawnNext rest)) hsp
    generalize hm' : coroutineSpawn m f _ _ pc = m' at hl hends
    refine ⟨m', x', ?_, ?_, ?_⟩
    · simp only [step, hctl, main, hm']
    · simp only [Machine.deed, hctl]
      exact hadv
    · have hs' := hl.sched.trans hs
      have hc' := hl.current.trans hc
      rcases hends with ⟨pc', hctl', hsp'⟩ | ⟨hctl', hparked⟩
      · exact Alive.spawning hctl' hs' hc' hsp'
      · exact alive_spawnNext hctl' hs' hc' (fun j => hparked j id)
  | @looping pc hctl ht =>
    obtain ⟨m', hm', hadv, halive⟩ := Tends.statement hctl ht
    refine ⟨m', x, ?_, hadv, halive⟩
    simp only [step, hctl]
    exact hm'
  | @inside i pc hctl hl =>
    obtain ⟨m', x', hm', hadv, halive⟩ := Lives.statement hctl hl
    refine ⟨m', x', ?_, hadv, halive⟩
    simp only [step, hctl]
    exact hm'

/-- A signal outside the windows leaves it known where every slot is. -/
theorem Alive.signal (h : Alive x m) (hg : m.Guarded .signal) : ∃ m', step m .signal = some m' ∧ Alive x m' := by
  by_cases hp : ∃ i, m.Preempts i
  · obtain ⟨i, hp⟩ := hp
    cases h with
    | spawning _ hs _ _ => exact nomatch hs.symm.trans hp.1
    | looping hctl ht =>
      refine absurd hp (InLoop.not_preempts ht.place (fun j hj => ?_))
      exact hg.1 rfl j (hctl.trans (congrArg Cont.main hj))
    | @inside j pc hctl hl =>
      obtain ⟨rfl, hrun⟩ := InCo.preempts hl.place hp
      obtain ⟨f, hf, hx⟩ := hl.life
      -- the signal is not one that interrupts the making of a slot, so the place can be stored
      have hmaking : pc.making = none := by
        cases pc with
        | spawning id r g spc => exact hg.2 rfl i id r g spc hctl
        | _ => rfl
      obtain ⟨m', hm', hctl', hin, hsame, hstate, hfunc, hctx, _⟩ := InCo.signal hl.place hctl hp
      refine ⟨m', hm', Lives.back hl hmaking hctl' hin hsame (fun _ _ => rfl) (Or.inr ⟨Or.inl hstate, ?_⟩)⟩
      exact ⟨f, pc, hfunc.trans hf, hctx, hl.place.here, hrun, hmaking, hx⟩
  · exact ⟨m, handler_returns (fun i hi => hp ⟨i, hi⟩), h⟩

/-- The machine starts with every slot idle. -/
theorem alive_init (fs : List Body) : Alive (fun _ => .idle) (schedulerInit fs) := by
  have hctl : (schedulerInit fs).control = .main (.spawnNext fs) := rfl
  exact alive_spawnNext hctl rfl rfl (fun _ => Or.inl ⟨rfl, rfl⟩)

/-- Every run in which the signals are kept out of the windows: what is done to each slot is a life. -/
theorem run_alive {fs : List Body} {es : List (Option (Slot × Deed))}
    (h : Run (TraceStep Machine.Guarded) (schedulerInit fs) es m) :
    ∃ x, Alive x m ∧ ∀ i, Run LifeStep .idle (deeds i es) (x i) := by
  refine Run.invariant (P := fun es m => ∃ x, Alive x m ∧ ∀ i, Run LifeStep .idle (deeds i es) (x i))
    ⟨_, alive_init fs, fun _ => Run.nil _⟩ ?_ h
  rintro es m e m' _ ⟨x, hal, hlives⟩ ⟨l, hg, hs, rfl⟩
  obtain ⟨x', hadv, hal'⟩ : ∃ x', Advances x (m.deed l) x' ∧ Alive x' m' := by
    cases l with
    | statement =>
      obtain ⟨m₁, x', hm₁, hadv, hal'⟩ := hal.statement
      obtain rfl : m₁ = m' := Option.some.inj (hm₁.symm.trans hs)
      exact ⟨x', hadv, hal'⟩
    | signal =>
      obtain ⟨m₁, hm₁, hal'⟩ := hal.signal hg
      obtain rfl : m₁ = m' := Option.some.inj (hm₁.symm.trans hs)
      exact ⟨x, rfl, hal'⟩
  refine ⟨x', hal', fun i => ?_⟩
  exact deeds_snoc hadv i (hlives i)

end OsLab.Coroutine
