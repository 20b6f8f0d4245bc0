import OsLab.Cooperative
import OsLab.Lib.Run
import Mathlib.Data.List.FinRange

/-!
# Where the sleeping coroutines are

Control is in `main` (`Looping`) or on the stack of one coroutine (`Inside`). Each slot whose coroutine does not have control is
free, with every body spawned into it run to its end, or holds the context of its last body, with the steps left that were not
executed (`Settled`). `Acts` lists what the steps do, one constructor for each. Where this holds, the next step is one of them, and
they all keep it, whatever the bodies and the clock do.
-/

namespace OsLab.Cooperative

/-- What the place has read of `current_id` is the slot `i`. -/
def CoPc.Own (i : Slot) : CoPc → Prop
  | .entry => True
  | .body id _ => id = i

/-- The plain steps that are left at a place of a coroutine with the body `f`. -/
def CoPc.steps (f : Body) : CoPc → List Nat
  | .entry => f.steps
  | .body _ rest => rest.steps

/-- How many slots the loop has found free since it set `all_done`. -/
def MainPc.seen : MainPc → Nat
  | .scan i true => i.val
  | .decide true => maxCoroutines
  | .done => maxCoroutines
  | _ => 0

/-- Of the bodies spawned into slot `i`, all but the last are complete, and the last is at the place `pc`. -/
def Pending (ls : List Life) (m : Machine) (i : Slot) (pc : CoPc) : Prop :=
  ∃ l rest, ls = l :: rest ∧ (∀ l' ∈ rest, l'.Complete) ∧ l.finished = false ∧ m.func i = some l.body ∧ pc.Own i ∧
    l.ran ++ pc.steps l.body = l.body.steps

/-- A slot whose coroutine does not have control: free, or stored. -/
def Settled (ls : List Life) (m : Machine) (i : Slot) : Prop :=
  (m.state i = .free ∧ ∀ l ∈ ls, l.Complete) ∨
    ((m.state i = .runnable ∨ m.state i = .suspend ∨ m.state i = .sleeping) ∧
      ∃ pc, m.ctx i = some (.co i pc) ∧ Pending ls m i pc)

/-- `main` has control, after the events `es`. -/
structure Looping (es : List Event) (m : Machine) (pc : MainPc) : Prop where
  current : m.currentId = none
  settled : ∀ j, Settled (lives j es) m j
  seen : ∀ j : Slot, j.val < pc.seen → m.state j = .free

/-- The coroutine of slot `i` has control. -/
structure Inside (es : List Event) (m : Machine) (i : Slot) (pc : CoPc) : Prop where
  current : m.currentId = some i
  state : m.state i = .running
  main : ∃ k, m.mainCtx = some (.main (.next k false))
  pending : Pending (lives i es) m i pc
  settled : ∀ j, j ≠ i → Settled (lives j es) m j

/-- Control is in one of the regions. -/
inductive Inv (es : List Event) (m : Machine) : Prop where
  | looping {pc : MainPc} : m.control = .main pc → Looping es m pc → Inv es m
  | inside {i : Slot} {pc : CoPc} : m.control = .co i pc → Inside es m i pc → Inv es m

/-! ## The steps of a run -/

/-- The machine when the loop has switched to slot `k`. -/
def Machine.entered (m : Machine) (k : Slot) (pc : CoPc) : Machine :=
  { m with
    state := Function.update m.state k .running
    currentId := some k
    mainCtx := some (.main (.next k false))
    control := .co k pc }

/-- The machine when slot `i` has switched back to `main`, where `k` is what follows. -/
def Machine.left (m : Machine) (i : Slot) (k : Cont) (x : State) (w : Slot → Int) (c : Slot → Option Cont) : Machine :=
  { m with
    state := Function.update m.state i x
    wakeUpTime := w
    ctx := c
    currentId := none
    control := k }

/-- What a step of a run does. -/
inductive Acts (m : Machine) : Event → Machine → Prop where
  | began (hctl : m.control = .main (.spawning [])) : Acts m .began (m.goto (.main (.scan ⟨0, by decide⟩ true)))
  | spawnedByMain {f : Body} {fs : List Body} (hctl : m.control = .main (.spawning (f :: fs))) :
      Acts m (.spawned f (coroutineSpawn m f).1) ((coroutineSpawn m f).2.goto (.main (.spawning fs)))
  | passed {k : Slot} {d : Bool} (hctl : m.control = .main (.scan k d)) (hs : m.state k = .free) :
      Acts m (.passed k) (m.goto (.main (.next k d)))
  | early {k : Slot} {d : Bool} {now : Int} (hctl : m.control = .main (.scan k d)) (hs : m.state k = .sleeping)
      (hlt : now < m.wakeUpTime k) : Acts m (.early k now) (m.goto (.main (.next k false)))
  | woken {k : Slot} {d : Bool} {now : Int} {pc : CoPc} (hctl : m.control = .main (.scan k d)) (hs : m.state k = .sleeping)
      (hle : m.wakeUpTime k ≤ now) (hctx : m.ctx k = some (.co k pc)) : Acts m (.resumed k (some now)) (m.entered k pc)
  | resumed {k : Slot} {d : Bool} {pc : CoPc} (hctl : m.control = .main (.scan k d)) (hr : m.Ready k)
      (hctx : m.ctx k = some (.co k pc)) : Acts m (.resumed k none) (m.entered k pc)
  | ended (hctl : m.control = .main (.decide true)) : Acts m (.scanned true) (m.goto (.main .done))
  | round (hctl : m.control = .main (.decide false)) :
      Acts m (.scanned false) (m.goto (.main (.scan ⟨0, by decide⟩ true)))
  | called {i : Slot} {f : Body} (hctl : m.control = .co i .entry) (hf : m.func i = some f) :
      Acts m (.called i i) (m.goto (.co i (.body i f)))
  | ran {i : Slot} {tag : Nat} {r : Body} (hctl : m.control = .co i (.body i (.step tag r))) :
      Acts m (.ran (some i) i tag) (m.goto (.co i (.body i r)))
  | spawned {i : Slot} {f r : Body} (hctl : m.control = .co i (.body i (.spawn f r))) :
      Acts m (.spawned f (coroutineSpawn m f).1) ((coroutineSpawn m f).2.goto (.co i (.body i r)))
  | yielded {i k : Slot} {r : Body} (hctl : m.control = .co i (.body i (.yield r))) (hi : m.state i = .running)
      (hk : m.mainCtx = some (.main (.next k false))) :
      Acts m (.yielded i)
        (m.left i (.main (.next k false)) .suspend m.wakeUpTime (Function.update m.ctx i (some (.co i (.body i r)))))
  | slept {i k : Slot} {seconds now : Int} {r : Body} (hctl : m.control = .co i (.body i (.sleep seconds r)))
      (hi : m.state i = .running) (hk : m.mainCtx = some (.main (.next k false))) :
      Acts m (.slept i seconds now)
        (m.left i (.main (.next k false)) .sleeping (Function.update m.wakeUpTime i (Word.addInt seconds now))
          (Function.update m.ctx i (some (.co i (.body i r)))))
  | finished {i k : Slot} (hctl : m.control = .co i (.body i .ret)) (hi : m.state i = .running)
      (hk : m.mainCtx = some (.main (.next k false))) :
      Acts m (.finished i) (m.left i (.main (.next k false)) .free m.wakeUpTime m.ctx)

variable {m m' : Machine} {es : List Event} {e : Event} {ls : List Life} {f : Body} {i j : Slot}

/-! ## What a slot holds -/

/-- Nobody runs in a slot that is settled. -/
theorem Settled.not_running (h : Settled ls m j) : m.state j ≠ .running := by
  rcases h with ⟨hs, _⟩ | ⟨hs | hs | hs, _⟩ <;> rw [hs] <;> nofun

/-- A slot is settled as long as it does not change. -/
theorem Settled.congr (h : Settled ls m j) (hs : m'.state j = m.state j) (hf : m'.func j = m.func j)
    (hc : m'.ctx j = m.ctx j) : Settled ls m' j := by
  unfold Settled Pending at h ⊢
  rw [hs, hf, hc]
  exact h

/-- Every body spawned into a slot has executed a prefix of its steps, and all of them once it has returned. -/
theorem Pending.ran_beginning {pc : CoPc} (h : Pending ls m i pc) {l : Life} (hl : l ∈ ls) :
    l.ran <+: l.body.steps ∧ (l.finished = true → l.ran = l.body.steps) := by
  obtain ⟨l', rest, rfl, hrest, hfin, _, _, hsteps⟩ := h
  rcases List.mem_cons.1 hl with rfl | hl
  · exact ⟨⟨_, hsteps⟩, fun hf => absurd (hfin.symm.trans hf) nofun⟩
  · have hc := hrest l hl
    exact ⟨hc.2 ▸ List.prefix_rfl, fun _ => hc.2⟩

/-- The unfinished body of a slot that holds one. -/
theorem Pending.unfinished {pc : CoPc} (h : Pending ls m i pc) : ∃ l ∈ ls, l.finished = false := by
  obtain ⟨l, rest, rfl, _, hfin, _⟩ := h
  exact ⟨l, List.mem_cons_self, hfin⟩

/-- Every life has run a beginning of its function, and the whole of it if it finished. -/
theorem Settled.ran_beginning (h : Settled ls m j) {l : Life} (hl : l ∈ ls) :
    l.ran <+: l.body.steps ∧ (l.finished = true → l.ran = l.body.steps) := by
  rcases h with ⟨_, hc⟩ | ⟨_, pc, _, hp⟩
  · exact ⟨(hc l hl).2 ▸ List.prefix_rfl, fun _ => (hc l hl).2⟩
  · exact hp.ran_beginning hl

/-- A slot that does not have control is not free exactly when it holds an unfinished body. -/
theorem Settled.not_free_iff (h : Settled ls m j) : m.state j ≠ .free ↔ ∃ l ∈ ls, l.finished = false := by
  rcases h with ⟨hs, hc⟩ | ⟨hs, pc, _, hp⟩
  · refine ⟨fun hn => absurd hs hn, ?_⟩
    rintro ⟨l, hl, hf⟩
    exact absurd ((hc l hl).1.symm.trans hf) nofun
  · refine ⟨fun _ => hp.unfinished, fun _ hfree => ?_⟩
    rcases hs with hs | hs | hs <;> exact nomatch hs.symm.trans hfree

/-- A slot that does not have control and is not free has its context on its own stack. -/
theorem Settled.stored (h : Settled ls m j) (hf : m.state j ≠ .free) :
    ∃ pc, m.ctx j = some (.co j pc) ∧ Pending ls m j pc := by
  rcases h with ⟨hs, _⟩ | ⟨_, h⟩
  · exact absurd hs hf
  · exact h

/-- The bodies of a free slot have run to their ends. -/
theorem Settled.complete_of_free (h : Settled ls m j) (hfree : m.state j = .free) : ∀ l ∈ ls, l.Complete := by
  rcases h with ⟨_, hc⟩ | ⟨hs, _⟩
  · exact hc
  · rcases hs with hs | hs | hs <;> exact nomatch hs.symm.trans hfree

namespace CooperativeAux

/-! ## The loop -/

/-- The loop of `main` goes to the next slot, or has seen all. -/
theorem next_cases (i : Slot) (d : Bool) :
    (∃ h : i.val + 1 < maxCoroutines, MainPc.next i d = .scan ⟨i.val + 1, h⟩ d) ∨
      (i.val + 1 = maxCoroutines ∧ MainPc.next i d = .decide d) := by
  unfold MainPc.next
  by_cases h : i.val + 1 < maxCoroutines
  · exact Or.inl ⟨h, dif_pos h⟩
  · have hi := i.isLt
    exact Or.inr ⟨by omega, dif_neg h⟩

theorem lives_snoc : lives i (es ++ [e]) = e.live i (lives i es) := by
  simp only [lives, List.foldl_append, List.foldl_cons, List.foldl_nil]

theorem seen_next_false : (MainPc.next i false).seen = 0 := by
  rcases next_cases i false with ⟨_, he⟩ | ⟨_, he⟩ <;> rw [he] <;> rfl

theorem seen_next_le {d : Bool} : (MainPc.next i d).seen ≤ (MainPc.scan i d).seen + 1 := by
  cases d with
  | false => rw [seen_next_false]; exact Nat.zero_le _
  | true =>
    rcases next_cases i true with ⟨_, he⟩ | ⟨h, he⟩
    · rw [he]; exact Nat.le_refl _
    · rw [he]; exact Nat.le_of_eq h.symm

/-! ## Spawning -/

/-- The slot found is free. -/
theorem findFree_eq_some (h : m.findFree = some i) : m.state i = .free := by
  have hp := List.find?_some h
  simpa using hp

/-- None is found when none is free. -/
theorem findFree_eq_none : m.findFree = none ↔ ∀ i, m.state i ≠ .free := by
  simp [Machine.findFree, List.find?_eq_none]

/-- `coroutine_spawn` does not touch what has control. -/
theorem coroutineSpawn_currentId : (coroutineSpawn m f).2.currentId = m.currentId := by
  unfold coroutineSpawn
  cases m.findFree <;> rfl

theorem coroutineSpawn_mainCtx : (coroutineSpawn m f).2.mainCtx = m.mainCtx := by
  unfold coroutineSpawn
  cases m.findFree <;> rfl

/-- `coroutine_spawn` changes the free slot it returns, and no other. -/
theorem coroutineSpawn_of_ne (h : (coroutineSpawn m f).1 ≠ some j) :
    (coroutineSpawn m f).2.state j = m.state j ∧ (coroutineSpawn m f).2.func j = m.func j ∧
      (coroutineSpawn m f).2.ctx j = m.ctx j := by
  unfold coroutineSpawn at h ⊢
  cases hf : m.findFree with
  | none => exact ⟨rfl, rfl, rfl⟩
  | some id =>
    simp only [hf] at h ⊢
    have hj : j ≠ id := fun he => h (congrArg some he.symm)
    exact ⟨Function.update_of_ne hj _ _, Function.update_of_ne hj _ _, Function.update_of_ne hj _ _⟩

/-- A coroutine that is spawned has a slot that was free, and is to start. -/
theorem coroutineSpawn_some (h : (coroutineSpawn m f).1 = some i) :
    m.state i = .free ∧ (coroutineSpawn m f).2.state i = .runnable ∧ (coroutineSpawn m f).2.func i = some f ∧
      (coroutineSpawn m f).2.ctx i = some (.co i .entry) := by
  unfold coroutineSpawn at h ⊢
  cases hf : m.findFree with
  | none => simp only [hf] at h; cases h
  | some id =>
    simp only [hf] at h ⊢
    cases h
    exact ⟨findFree_eq_some hf, Function.update_self .., Function.update_self .., Function.update_self ..⟩

/-- Spawning fails when no slot is free, and only then. -/
theorem coroutineSpawn_none : (coroutineSpawn m f).1 = none ↔ ∀ i, m.state i ≠ .free := by
  rw [← findFree_eq_none]
  unfold coroutineSpawn
  cases m.findFree <;> simp

/-- Slots other than the one returned keep the bodies spawned into them. -/
theorem live_spawned_of_ne {id : Option Slot} (h : id ≠ some j) : (Event.spawned f id).live j ls = ls := by
  cases id with
  | none => rfl
  | some id => exact if_neg (fun he => h (congrArg some he))

theorem live_ran_of_ne {id : Option Slot} {tag : Nat} (h : j ≠ i) : (Event.ran id i tag).live j ls = ls := if_neg (Ne.symm h)

theorem live_finished_of_ne (h : j ≠ i) : (Event.finished i).live j ls = ls := if_neg (Ne.symm h)

/-- A settled slot is settled after a spawn. -/
theorem settled_spawn (h : Settled ls m j) :
    Settled ((Event.spawned f (coroutineSpawn m f).1).live j ls) (coroutineSpawn m f).2 j := by
  by_cases hj : (coroutineSpawn m f).1 = some j
  · obtain ⟨hfree, hstate, hfunc, hctx⟩ := coroutineSpawn_some hj
    rw [hj]
    simp only [Event.live, if_true]
    exact Or.inr ⟨Or.inl hstate, .entry, hctx, _, ls, rfl, h.complete_of_free hfree, rfl, hfunc, trivial, rfl⟩
  · obtain ⟨hstate, hfunc, hctx⟩ := coroutineSpawn_of_ne hj
    rw [live_spawned_of_ne hj]
    exact h.congr hstate hfunc hctx

/-! ## Every step is in the list -/

variable {now : Int}

/-- While `main` has control, it is in its loop. -/
theorem Inv.looping_of {pc : MainPc} (h : Inv es m) (hctl : m.control = .main pc) : Looping es m pc := by
  cases h with
  | looping hctl' hl =>
    cases hctl.symm.trans hctl'
    exact hl
  | inside hctl' _ => cases hctl.symm.trans hctl'

/-- While a coroutine has control, it is in its slot. -/
theorem Inv.inside_of {pc : CoPc} (h : Inv es m) (hctl : m.control = .co i pc) : Inside es m i pc := by
  cases h with
  | looping hctl' _ => cases hctl.symm.trans hctl'
  | inside hctl' hi =>
    cases hctl.symm.trans hctl'
    exact hi

/-- The switch to `main`, at the end of a step with event `e`. -/
theorem toMain_map {k : Cont} (hk : m.mainCtx = some k) : m.toMain.map (Prod.mk e) = some (e, m.goto k) := by
  simp only [Machine.toMain, hk, Option.map_some]

/-- `coroutine_resume` of a slot that can be resumed, whose context is on its own stack. -/
theorem coroutineResume_eq {t : Option Int} {pc : CoPc} (hi : m.state i = .runnable ∨ m.state i = .suspend)
    (hctx : m.ctx i = some (.co i pc)) :
    coroutineResume m i t (.main (.next i false)) = some (.resumed i t, m.entered i pc) := by
  unfold coroutineResume
  rw [if_pos hi]
  simp only [Machine.toCo, Machine.setState, Machine.goto, hctx, Option.map_some]
  rfl

/-- `coroutine_resume` of a sleeping slot, that the loop has made runnable. -/
theorem coroutineResume_woken {pc : CoPc} (hctx : m.ctx i = some (.co i pc)) :
    coroutineResume (m.setState i .runnable) i (some now) (.main (.next i false)) =
      some (.resumed i (some now), m.entered i pc) := by
  have hi : (m.setState i .runnable).state i = .runnable := Function.update_self ..
  rw [coroutineResume_eq (Or.inl hi) hctx]
  simp [Machine.entered, Machine.setState]

/-- The next step of `main`, unless it has ended. -/
theorem main_acts {pc : MainPc} (h : Looping es m pc) (hctl : m.control = .main pc) (hpc : pc ≠ .done) :
    ∃ e m', main m now pc = some (e, m') ∧ Acts m e m' := by
  cases pc with
  | spawning fs =>
    cases fs with
    | nil => exact ⟨_, _, rfl, .began hctl⟩
    | cons f fs => exact ⟨_, _, rfl, .spawnedByMain hctl⟩
  | scan k d =>
    cases hk : m.state k with
    | free => exact ⟨_, _, by simp only [main, hk], .passed hctl hk⟩
    | sleeping =>
      by_cases hw : m.wakeUpTime k ≤ now
      · obtain ⟨pc, hctx, _⟩ := (h.settled k).stored (by simp [hk])
        exact ⟨_, _, by simp only [main, hk, if_pos hw, coroutineResume_woken hctx], .woken hctl hk hw hctx⟩
      · exact ⟨_, _, by simp only [main, hk, if_neg hw], .early hctl hk (Int.not_le.1 hw)⟩
    | running => exact absurd hk (h.settled k).not_running
    | runnable =>
      have hr : m.Ready k := ⟨by simp [hk], by simp [hk]⟩
      obtain ⟨pc, hctx, _⟩ := (h.settled k).stored hr.1
      exact ⟨_, _, by simp only [main, hk, coroutineResume_eq (Or.inl hk) hctx], .resumed hctl hr hctx⟩
    | suspend =>
      have hr : m.Ready k := ⟨by simp [hk], by simp [hk]⟩
      obtain ⟨pc, hctx, _⟩ := (h.settled k).stored hr.1
      exact ⟨_, _, by simp only [main, hk, coroutineResume_eq (Or.inr hk) hctx], .resumed hctl hr hctx⟩
  | decide d =>
    cases d with
    | true => exact ⟨_, _, rfl, .ended hctl⟩
    | false => exact ⟨_, _, rfl, .round hctl⟩
  | done => exact absurd rfl hpc

/-- The next step of a coroutine. -/
theorem coroutineWrapper_acts {pc : CoPc} (h : Inside es m i pc) (hctl : m.control = .co i pc) :
    ∃ e m', coroutineWrapper m i now pc = some (e, m') ∧ Acts m e m' := by
  obtain ⟨l, _, _, _, _, hfunc, hown, _⟩ := h.pending
  obtain ⟨k, hk⟩ := h.main
  cases pc with
  | entry => exact ⟨_, _, by simp only [coroutineWrapper, h.current, hfunc], .called hctl hfunc⟩
  | body id r =>
    obtain rfl : id = i := hown
    cases r with
    | ret =>
      refine ⟨_, _, ?_, .finished hctl h.state hk⟩
      simp only [coroutineWrapper]
      exact toMain_map hk
    | step tag r => exact ⟨_, _, by simp only [coroutineWrapper, h.current], .ran hctl⟩
    | yield r =>
      refine ⟨_, _, ?_, .yielded hctl h.state hk⟩
      simp only [coroutineWrapper, coroutineYield, h.current]
      exact toMain_map hk
    | sleep seconds r =>
      refine ⟨.slept id seconds now, _, ?_, .slept hctl h.state hk⟩
      simp only [coroutineWrapper, coroutineSleep, h.current]
      exact toMain_map hk
    | spawn f r => exact ⟨_, _, rfl, .spawned hctl⟩

/-- Where the program has not ended it takes a step, and the step is in the list. -/
theorem Inv.next_acts (now : Int) (h : Inv es m) (hd : m.control ≠ .main .done) :
    ∃ e m', step m now = some (e, m') ∧ Acts m e m' := by
  cases h with
  | looping hctl hl =>
    simp only [step, hctl]
    exact main_acts hl hctl (fun he => hd (hctl.trans (congrArg Cont.main he)))
  | inside hctl hi =>
    simp only [step, hctl]
    exact coroutineWrapper_acts hi hctl

/-- From where the invariant holds, a step is one of those that `Acts` lists. -/
theorem Inv.acts (h : Inv es m) (hs : Step m e m') : Acts m e m' := by
  obtain ⟨now, hs⟩ := hs
  have hd : m.control ≠ .main .done := by
    intro hd
    simp only [step, hd, main] at hs
    cases hs
  obtain ⟨e', m'', hs', ha⟩ := Inv.next_acts now h hd
  cases hs'.symm.trans hs
  exact ha

/-! ## Every step in the list keeps the invariant -/

/-- No step is executed and no body spawned or finished: the slots are settled as before. -/
theorem settled_quiet (hset : Settled (lives j es) m j) (he : e.live j (lives j es) = lives j es) :
    Settled (lives j (es ++ [e])) m j := by
  rw [lives_snoc, he]
  exact hset

/-- The loop goes on at another place. -/
theorem Looping.goto {pc pc' : MainPc} (h : Looping es m pc) (he : ∀ j ls, e.live j ls = ls)
    (hseen : ∀ j : Slot, j.val < pc'.seen → m.state j = .free) : Inv (es ++ [e]) (m.goto (.main pc')) :=
  Inv.looping rfl ⟨h.current, fun j => settled_quiet (h.settled j) (he j _), hseen⟩

/-- The loop switches to a slot. -/
theorem Looping.enter {pc : MainPc} {pc' : CoPc} {x : Option Int} (h : Looping es m pc) (hf : m.state i ≠ .free)
    (hctx : m.ctx i = some (.co i pc')) : Inv (es ++ [.resumed i x]) (m.entered i pc') := by
  obtain ⟨pc'', hctx', hp⟩ := (h.settled i).stored hf
  cases hctx.symm.trans hctx'
  refine Inv.inside rfl ⟨rfl, Function.update_self .., ⟨i, rfl⟩, ?_, fun j hj => ?_⟩
  · rw [lives_snoc]
    exact hp
  · exact (settled_quiet (h.settled j) rfl).congr (Function.update_of_ne hj _ _) rfl rfl

/-- A coroutine goes on at another place. -/
theorem Inside.goto {pc pc' : CoPc} (h : Inside es m i pc) (hp : Pending (e.live i (lives i es)) m i pc')
    (he : ∀ j, j ≠ i → e.live j (lives j es) = lives j es) : Inv (es ++ [e]) (m.goto (.co i pc')) := by
  refine Inv.inside rfl ⟨h.current, h.state, h.main, ?_, fun j hj => settled_quiet (h.settled j hj) (he j hj)⟩
  rw [lives_snoc]
  exact hp

/-- A coroutine switches back to `main`, with its slot settled. -/
theorem Inside.leave {pc : CoPc} {k : Slot} {x : State} {w : Slot → Int} {c : Slot → Option Cont} (h : Inside es m i pc)
    (hset : Settled (e.live i (lives i es)) (m.left i (.main (.next k false)) x w c) i)
    (he : ∀ j, j ≠ i → e.live j (lives j es) = lives j es) (hc : ∀ j, j ≠ i → c j = m.ctx j) :
    Inv (es ++ [e]) (m.left i (.main (.next k false)) x w c) := by
  refine Inv.looping rfl ⟨rfl, fun j => ?_, fun j hj => ?_⟩
  · by_cases hj : j = i
    · subst hj
      rw [lives_snoc]
      exact hset
    · exact (settled_quiet (h.settled j hj) (he j hj)).congr (Function.update_of_ne hj _ _) rfl (hc j hj)
  · rw [seen_next_false] at hj
    exact absurd hj (Nat.not_lt_zero _)

/-- A coroutine stores its place and switches back. -/
theorem Inside.suspend {pc pc' : CoPc} {k : Slot} {x : State} {w : Slot → Int} (h : Inside es m i pc)
    (hx : x = .suspend ∨ x = .sleeping) (hp : Pending (lives i es) m i pc') (he : ∀ j ls, e.live j ls = ls) :
    Inv (es ++ [e]) (m.left i (.main (.next k false)) x w (Function.update m.ctx i (some (.co i pc')))) := by
  refine Inside.leave h ?_ (fun j _ => he j _) (fun j hj => Function.update_of_ne hj _ _)
  rw [he]
  refine Or.inr ⟨Or.inr ?_, pc', Function.update_self .., hp⟩
  simpa [Machine.left] using hx

/-- The steps that `Acts` lists keep the invariant. -/
theorem Acts.inv (ha : Acts m e m') (h : Inv es m) : Inv (es ++ [e]) m' := by
  have hzero : ∀ j : Slot, j.val < 0 → m.state j = .free := fun j hj => absurd hj (Nat.not_lt_zero _)
  cases ha with
  | began hctl => exact Looping.goto (Inv.looping_of h hctl) (fun _ _ => rfl) hzero
  | @spawnedByMain f fs hctl =>
    have hl := Inv.looping_of h hctl
    refine Inv.looping rfl ⟨coroutineSpawn_currentId.trans hl.current, fun j => ?_, fun j hj => ?_⟩
    · rw [lives_snoc]
      exact settled_spawn (hl.settled j)
    · exact absurd hj (Nat.not_lt_zero _)
  | @passed k d hctl hs =>
    have hl := Inv.looping_of h hctl
    refine Looping.goto hl (fun _ _ => rfl) fun j hj => ?_
    -- the slots before this one were found free before, and this one is
    rcases Nat.lt_succ_iff_lt_or_eq.1 (Nat.lt_of_lt_of_le hj seen_next_le) with hj | hj
    · exact hl.seen j hj
    · cases d with
      | false => rw [seen_next_false] at *; omega
      | true => rw [Fin.ext hj]; exact hs
  | early hctl hs hlt =>
    refine Looping.goto (Inv.looping_of h hctl) (fun _ _ => rfl) ?_
    rw [seen_next_false]
    exact hzero
  | woken hctl hs hle hctx => exact Looping.enter (Inv.looping_of h hctl) (by simp [hs]) hctx
  | resumed hctl hr hctx => exact Looping.enter (Inv.looping_of h hctl) hr.1 hctx
  | ended hctl =>
    have hl := Inv.looping_of h hctl
    exact Looping.goto hl (fun _ _ => rfl) hl.seen
  | round hctl => exact Looping.goto (Inv.looping_of h hctl) (fun _ _ => rfl) hzero
  | called hctl hf =>
    have hi := Inv.inside_of h hctl
    obtain ⟨l, rest, hl, hrest, hfin, hfunc, _, hsteps⟩ := hi.pending
    obtain rfl := Option.some.inj (hfunc.symm.trans hf)
    exact Inside.goto hi ⟨l, rest, hl, hrest, hfin, hfunc, rfl, hsteps⟩ fun _ _ => rfl
  | @ran i tag r hctl =>
    have hi := Inv.inside_of h hctl
    obtain ⟨l, rest, hl, hrest, hfin, hfunc, _, hsteps⟩ := hi.pending
    refine Inside.goto hi ?_ fun _ hj => live_ran_of_ne hj
    rw [hl]
    simp only [Event.live, if_true, List.modifyHead_cons]
    exact ⟨_, rest, rfl, hrest, hfin, hfunc, rfl, (List.append_assoc _ _ _).trans hsteps⟩
  | @spawned i f r hctl =>
    have hi := Inv.inside_of h hctl
    obtain ⟨l, rest, hl, hrest, hfin, hfunc, _, hsteps⟩ := hi.pending
    obtain ⟨k, hk⟩ := hi.main
    -- the slot of the caller is running, so it is not the one the spawn returns
    have hne : (coroutineSpawn m f).1 ≠ some i := by
      intro he
      cases hi.state.symm.trans (coroutineSpawn_some he).1
    obtain ⟨hstate, hfunc', _⟩ := coroutineSpawn_of_ne hne
    refine Inv.inside rfl ⟨coroutineSpawn_currentId.trans hi.current, hstate.trans hi.state,
      ⟨k, coroutineSpawn_mainCtx.trans hk⟩, ?_, fun j hj => ?_⟩
    · rw [lives_snoc, live_spawned_of_ne hne]
      exact ⟨l, rest, hl, hrest, hfin, hfunc'.trans hfunc, rfl, hsteps⟩
    · rw [lives_snoc]
      exact settled_spawn (hi.settled j hj)
  | yielded hctl hs hk =>
    have hi := Inv.inside_of h hctl
    exact Inside.suspend hi (Or.inl rfl) hi.pending fun _ _ => rfl
  | slept hctl hs hk =>
    have hi := Inv.inside_of h hctl
    exact Inside.suspend hi (Or.inr rfl) hi.pending fun _ _ => rfl
  | finished hctl hs hk =>
    have hi := Inv.inside_of h hctl
    obtain ⟨l, rest, hl, hrest, _, _, _, hsteps⟩ := hi.pending
    refine Inside.leave hi (Or.inl ⟨Function.update_self .., ?_⟩) (fun _ hj => live_finished_of_ne hj) fun _ _ => rfl
    rw [hl]
    simp only [Event.live, if_true, List.modifyHead_cons]
    exact List.forall_mem_cons.2 ⟨⟨rfl, (List.append_nil _).symm.trans hsteps⟩, hrest⟩

/-- Where the program has not ended it takes a step, and every step keeps the invariant. -/
theorem Inv.progress (now : Int) (h : Inv es m) (hd : m.control ≠ .main .done) :
    ∃ e m', step m now = some (e, m') ∧ Inv (es ++ [e]) m' := by
  obtain ⟨e, m', hs, ha⟩ := Inv.next_acts now h hd
  exact ⟨e, m', hs, Acts.inv ha h⟩

/-- Every step keeps the invariant. -/
theorem Inv.step (h : Inv es m) (hs : Step m e m') : Inv (es ++ [e]) m' := Acts.inv (Inv.acts h hs) h

/-- The invariant holds after `scheduler_init`. -/
theorem inv_init (fs : List Body) : Inv [] (schedulerInit fs) :=
  Inv.looping rfl ⟨rfl, fun _ => Or.inl ⟨rfl, nofun⟩, fun _ hj => absurd hj (Nat.not_lt_zero _)⟩

/-- It holds after every run. -/
theorem run_inv {fs : List Body} (h : Run Step (schedulerInit fs) es m) : Inv es m :=
  Run.invariant (inv_init fs) (fun _ _ _ _ _ hinv hs => Inv.step hinv hs) h

end CooperativeAux

end OsLab.Cooperative
