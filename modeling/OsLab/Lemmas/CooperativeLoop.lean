import OsLab.Lemmas.CooperativeInv

/-!
# What a step does to the loop and to a sleeper

Two things are read off the steps of a run (`Acts`): where the loop of `main` is, or will go on when the coroutine comes back
(`Machine.place`), and that a sleeping slot sleeps on until it is resumed.
-/

namespace OsLab.Cooperative

/-- The slot the loop of `main` comes to next, and 10 for its end. -/
def MainPc.place : MainPc → Option Nat
  | .scan i _ => some i.val
  | .decide _ => some maxCoroutines
  | _ => none

/-- Where the loop of `main` is, or will go on when the coroutine that has control comes back. -/
def Machine.place (m : Machine) : Option Nat :=
  match m.control with
  | .main pc => pc.place
  | .co _ _ =>
    match m.mainCtx with
    | some (.main pc) => pc.place
    | _ => none

namespace CooperativeAux

variable {m m' m'' : Machine} {es : List Event} {e : Event} {i k : Slot} {now : Int}

/-- The event of a step says which one it was: it leads to one machine only. -/
theorem Acts.functional (h : Acts m e m') (h' : Acts m e m'') : m' = m'' := by
  cases h with
  | _ => cases h' <;> simp_all

/-! ## The place of the loop -/

/-- After a slot the loop stands before the next one. -/
theorem place_next (k : Slot) (d : Bool) : (MainPc.next k d).place = some (k.val + 1) := by
  rcases next_cases k d with ⟨_, he⟩ | ⟨hk, he⟩
  · rw [he]
    rfl
  · rw [he, hk]
    rfl

/-- While `main` has control, the place is where it is. -/
theorem place_of_main {pc : MainPc} (h : m.control = .main pc) : m.place = pc.place := by
  simp only [Machine.place, h]

/-- While a coroutine has control, the place is where `main` will go on. -/
theorem place_of_co {pc : CoPc} {pc' : MainPc} (h : m.control = .co i pc) (hk : m.mainCtx = some (.main pc')) :
    m.place = pc'.place := by
  simp only [Machine.place, h, hk]

/-- The place of the loop after an event, for the place before. -/
def placeAfter (p : Option Nat) : Event → Option Nat
  | .passed k => some (k.val + 1)
  | .early k _ => some (k.val + 1)
  | .refused k => some (k.val + 1)
  | .resumed k _ => some (k.val + 1)
  | .scanned allDone => if allDone then none else some 0
  | .began => some 0
  | _ => p

/-- Who has visited a slot stands after it. -/
theorem placeAfter_visited {p : Option Nat} (h : e.visited = some k) : placeAfter p e = some (k.val + 1) := by
  cases e <;> simp_all [Event.visited, placeAfter]

/-- A visit of a slot and the end of a round move the loop on; everything else leaves it where it is. -/
theorem Acts.place_eq (h : Acts m e m') : m'.place = placeAfter m.place e := by
  cases h with
  | began hctl => rfl
  | spawnedByMain hctl => rw [place_of_main hctl]; rfl
  | passed hctl hs => exact place_next _ _
  | early hctl hs hlt => exact place_next _ _
  | woken hctl hs hle hctx => exact place_next _ _
  | resumed hctl hr hctx => exact place_next _ _
  | ended hctl => rfl
  | round hctl => rfl
  | called hctl hf => simp only [Machine.place, Machine.goto, hctl]; rfl
  | ran hctl => simp only [Machine.place, Machine.goto, hctl]; rfl
  | spawned hctl => simp only [Machine.place, Machine.goto, hctl, coroutineSpawn_mainCtx]; rfl
  | yielded hctl hi hk => rw [place_of_co hctl hk]; rfl
  | slept hctl hi hk => rw [place_of_co hctl hk]; rfl
  | finished hctl hi hk => rw [place_of_co hctl hk]; rfl

/-- A slot is visited when the loop comes to it, and is passed over when it is free, or asleep and too early; else it is resumed.
-/
theorem Acts.visit (h : Acts m e m') (hv : e.visited = some k) :
    m.InMain ∧ m.place = some k.val ∧
      ((e = .passed k ∧ m.state k = .free) ∨ (∃ now, e = .early k now ∧ m.state k = .sleeping ∧ now < m.wakeUpTime k) ∨
        (∃ now, e = .resumed k (some now) ∧ m.state k = .sleeping ∧ m.wakeUpTime k ≤ now) ∨
        (e = .resumed k none ∧ m.Ready k)) := by
  cases h with
  | passed hctl hs =>
    obtain rfl := Option.some.inj hv
    exact ⟨⟨_, hctl⟩, place_of_main hctl, Or.inl ⟨rfl, hs⟩⟩
  | early hctl hs hlt =>
    obtain rfl := Option.some.inj hv
    exact ⟨⟨_, hctl⟩, place_of_main hctl, Or.inr (Or.inl ⟨_, rfl, hs, hlt⟩)⟩
  | woken hctl hs hle hctx =>
    obtain rfl := Option.some.inj hv
    exact ⟨⟨_, hctl⟩, place_of_main hctl, Or.inr (Or.inr (Or.inl ⟨_, rfl, hs, hle⟩))⟩
  | resumed hctl hr hctx =>
    obtain rfl := Option.some.inj hv
    exact ⟨⟨_, hctl⟩, place_of_main hctl, Or.inr (Or.inr (Or.inr ⟨rfl, hr⟩))⟩
  | _ => cases hv

/-- The loop ends a round behind its last slot. -/
theorem Acts.place_of_scanned {d : Bool} (h : Acts m (.scanned d) m') : m.place = some maxCoroutines := by
  cases h with
  | ended hctl => exact place_of_main hctl
  | round hctl => exact place_of_main hctl

/-- A round begins only outside the loop over the slots. -/
theorem Acts.place_of_began (h : Acts m .began m') : m.place = none := by
  cases h with
  | began hctl => exact place_of_main hctl

/-! ## Sleepers -/

theorem coroutineSpawn_wakeUpTime {f : Body} : (coroutineSpawn m f).2.wakeUpTime = m.wakeUpTime := by
  unfold coroutineSpawn
  cases m.findFree <;> rfl

/-- A spawn does not touch a slot that is not free. -/
theorem coroutineSpawn_state {f : Body} (hi : m.state i ≠ .free) : (coroutineSpawn m f).2.state i = m.state i :=
  (coroutineSpawn_of_ne fun he => hi (coroutineSpawn_some he).1).1

/-- A sleeping slot sleeps on, with its time, until it is resumed. -/
theorem Acts.sleeping (h : Acts m e m') (hs : m.state i = .sleeping) (hno : ∀ x, e ≠ .resumed i x) :
    m'.state i = .sleeping ∧ m'.wakeUpTime i = m.wakeUpTime i := by
  have hfree : m.state i ≠ .free := by
    rw [hs]
    nofun
  have hne : ∀ {j}, m.state j = .running → i ≠ j := by
    rintro j hj rfl
    exact nomatch hs.symm.trans hj
  have hentered : ∀ {k x} {pc : CoPc}, e = .resumed k x →
      (m.entered k pc).state i = .sleeping ∧ (m.entered k pc).wakeUpTime i = m.wakeUpTime i := by
    rintro k x pc rfl
    refine ⟨(Function.update_of_ne ?_ _ _).trans hs, rfl⟩
    rintro rfl
    exact hno x rfl
  cases h with
  | began _ | passed _ _ | early _ _ _ | ended _ | round _ | called _ _ | ran _ => exact ⟨hs, rfl⟩
  | spawnedByMain _ | spawned _ =>
    exact ⟨(coroutineSpawn_state hfree).trans hs, congrFun coroutineSpawn_wakeUpTime i⟩
  | woken _ _ _ _ | resumed _ _ _ => exact hentered rfl
  | yielded _ hj _ | finished _ hj _ => exact ⟨(Function.update_of_ne (hne hj) _ _).trans hs, rfl⟩
  | slept _ hj _ =>
    exact ⟨(Function.update_of_ne (hne hj) _ _).trans hs, Function.update_of_ne (hne hj) _ _⟩

/-- A coroutine that calls `coroutine_sleep` sleeps until the sum of the seconds and the time. -/
theorem Acts.slept_sleeping {seconds now : Int} (h : Acts m (.slept i seconds now) m') :
    m'.state i = .sleeping ∧ m'.wakeUpTime i = Word.addInt seconds now := by
  cases h with
  | slept _ _ _ => exact ⟨Function.update_self .., Function.update_self ..⟩

/-- The loop resumes a sleeper it comes to at its time or later. -/
theorem Inv.wakes {d : Bool} (h : Inv es m) (hctl : m.control = .main (.scan i d)) (hs : m.state i = .sleeping)
    (hw : m.wakeUpTime i ≤ now) : ∃ m', Cooperative.step m now = some (.resumed i (some now), m') := by
  cases h with
  | inside hctl' _ => exact nomatch hctl.symm.trans hctl'
  | looping _ hl =>
    obtain ⟨pc, hctx, _⟩ := (hl.settled i).stored (by simp [hs])
    refine ⟨m.entered i pc, ?_⟩
    simp only [Cooperative.step, hctl, main, hs, if_pos hw]
    exact coroutineResume_woken hctx

end CooperativeAux

end OsLab.Cooperative
