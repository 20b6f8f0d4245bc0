import OsLab.Lemmas.CoroutineMoves
import Mathlib.Data.List.Basic

/-!
# Every statement and every signal keeps the regions

One lemma for each region and what can happen there: a statement of `main` while it spawns, a statement of the loop, a statement of
a coroutine, and a signal. Where the handler switches away it interrupts a coroutine at a place of its own, and stores that place.
-/

namespace OsLab.Coroutine

open CoroutineAux

variable {m m' : Machine} {fs bs rest : List Body} {f : Body} {i j : Slot}

/-! ## Places of a coroutine whose body is plain -/

/-- A coroutine at its own code is in its slot. -/
theorem CoPc.Own.here {pc : CoPc} (h : pc.Own i) : pc.At i := by
  cases pc with
  | body id r => exact h.1
  | yielding id r ypc => exact ⟨h.1, h.2.2⟩
  | spawning id r g spc => exact False.elim h
  | _ => exact h

theorem CoPc.Own.not_spawning {pc : CoPc} (h : pc.Own i) : ∀ id r g spc, pc ≠ .spawning id r g spc := by
  rintro id r g spc rfl
  exact h

/-- A statement leads from a place of the coroutine's own to another. -/
theorem CoPc.Own.after {pc : CoPc} (h : pc.Own i) (hf : f.Plain) : (pc.after i f).Own i := by
  cases pc with
  | entry => exact rfl
  | call id => exact ⟨rfl, hf⟩
  | body id r =>
    obtain ⟨rfl, hr⟩ := h
    cases r with
    | ret => exact rfl
    | step tag r => exact ⟨rfl, hr⟩
    | yield r => exact ⟨rfl, hr, trivial⟩
    | spawn g r => exact False.elim hr
  | yielding id r ypc =>
    obtain ⟨rfl, hr, hy⟩ := h
    cases ypc with
    | read => exact ⟨rfl, hr, rfl⟩
    | test id' => exact ⟨rfl, hr, rfl⟩
    | suspend id' => exact ⟨rfl, hr, hy⟩
    | clear id' => exact ⟨rfl, hr, hy⟩
    | swap id' => exact ⟨rfl, hr⟩
  | spawning id r g spc => exact False.elim h
  | _ => exact h

/-- What a statement executes and what is left after it is what was left before. -/
theorem CoPc.Own.emits_steps {pc : CoPc} (h : pc.Own i) : pc.emits ++ (pc.after i f).steps f = pc.steps f := by
  cases pc with
  | body id r =>
    cases r with
    | spawn g r => exact False.elim h.2
    | _ => rfl
  | yielding id r ypc => cases ypc <;> rfl
  | spawning id r g spc => exact False.elim h
  | _ => rfl

namespace CoroutineAux

/-- A slot that a step does not touch stays settled. -/
theorem settled_untouched (h : Settled fs m j) (hu : Untouched m m' j) : Settled fs m' j :=
  settled_congr h hu.state hu.func hu.ctx hu.tags

/-! ## `main` spawns -/

/-- While nothing has run, the free slots are those no body was spawned into. -/
theorem Fresh.free_iff (h : Fresh bs m j) : m.state j = .free ↔ bs.length ≤ j.val := by
  unfold Fresh at h
  rw [← List.getElem?_eq_none_iff]
  cases hb : bs[j.val]? with
  | none =>
    rw [hb] at h
    exact ⟨fun _ => rfl, fun _ => h.1⟩
  | some f =>
    rw [hb] at h
    refine ⟨fun hf => ?_, nofun⟩
    rw [h.1] at hf
    cases hf

/-- A body more changes no slot but its own. -/
theorem Fresh.snoc (h : Fresh bs m j) (hj : j.val ≠ bs.length) : Fresh (bs ++ [f]) m j := by
  have he : (bs ++ [f])[j.val]? = bs[j.val]? := by
    rcases Nat.lt_or_gt_of_ne hj with hlt | hgt
    · exact List.getElem?_append_left hlt
    · rw [List.getElem?_eq_none (Nat.le_of_lt hgt), List.getElem?_eq_none]
      rw [List.length_append, List.length_singleton]
      omega
  unfold Fresh
  rw [he]
  exact h

/-- Spawning goes on, or the loop starts. -/
theorem Inv.spawnNext (hfs : fs = bs ++ rest) (hs : m.inScheduler = true) (hc : m.currentId = none)
    (hfresh : ∀ j, Fresh bs m j) : Inv fs (m.goto (.main (.spawnNext rest))) := by
  have hfresh' : ∀ j, Fresh bs (m.goto (.main (.spawnNext rest))) j := fun j => fresh_congr (hfresh j) rfl rfl rfl rfl
  cases rest with
  | nil =>
    rw [List.append_nil] at hfs
    subst hfs
    refine Inv.looping rfl nofun ⟨hs, hc, fun j _ => settled_of_fresh (hfresh' j), nofun, nofun, ?_⟩
    exact fun j hj => absurd hj (Nat.not_lt_zero _)
  | cons g rest =>
    refine Inv.spawning rfl hfs ⟨hs, hc, fun j _ => hfresh' j, ?_, nofun, nofun, nofun⟩
    intro i hi j hj
    obtain rfl := SpawnPc.scan.inj hi
    exact absurd hj (Nat.not_lt_zero _)

/-- The scan finds the slot after the last one in use. -/
theorem Spawning.scan_free (h : Spawning bs m f (.scan i)) (hi : m.state i = .free) : i.val = bs.length := by
  refine Nat.le_antisymm ?_ ((Fresh.free_iff (h.fresh i nofun)).1 hi)
  refine Nat.le_of_not_lt (fun hlt => ?_)
  have hj := h.passed i rfl ⟨bs.length, Nat.lt_trans hlt i.isLt⟩ hlt
  exact hj ((Fresh.free_iff (h.fresh _ nofun)).2 (Nat.le_refl _))

/-- A scan that finds nothing has found every slot in use. -/
theorem Spawning.scan_full (h : Spawning bs m f (.scan i)) (hi : m.state i ≠ .free) (hlast : ¬ i.val + 1 < maxCoroutines)
    (j : Slot) : j.val ≠ bs.length := by
  have hji : j.val ≤ i.val := by
    have hlt := j.isLt
    omega
  intro he
  have hfree := (Fresh.free_iff (h.fresh j nofun)).2 (Nat.le_of_eq he.symm)
  rcases Nat.lt_or_eq_of_le hji with hlt | heq
  · exact h.passed i rfl j hlt hfree
  · exact hi (Fin.ext heq ▸ hfree)

/-- `coroutine_spawn` goes on with the slot it has claimed, and changes no other. -/
theorem Spawning.go {pc pc' : SpawnPc} (hfs : fs = bs ++ f :: rest) (h : Spawning bs m f pc) (hslot : pc.slot = some i)
    (hslot' : pc'.slot = some i) (hs : m'.inScheduler = m.inScheduler) (hc : m'.currentId = m.currentId)
    (hother : ∀ j, j ≠ i → m'.state j = m.state j ∧ m'.func j = m.func j ∧ m'.ctx j = m.ctx j ∧ m'.tags j = m.tags j)
    (htags : m'.tags i = m.tags i) (hclaimed : m'.state i = .runnable)
    (hbound : (∀ id, pc' ≠ .bind id) → m'.func i = some f) : Inv fs (m'.goto (.main (.spawning f rest pc'))) := by
  have hself : ∀ i', pc'.slot = some i' → i' = i := fun i' hi' => Option.some.inj (hi'.symm.trans hslot')
  refine Inv.spawning rfl hfs ⟨hs.trans h.sched, hc.trans h.current, ?_, ?_, ?_, ?_, ?_⟩
  · intro j hj
    rw [hslot'] at hj
    have hji : j ≠ i := fun he => hj (congrArg some he.symm)
    obtain ⟨h1, h2, h3, h4⟩ := hother j hji
    exact fresh_congr (h.fresh j (by rw [hslot]; exact hj)) h1 h2 h3 h4
  · rintro i' rfl
    cases hslot'
  · intro i' hi'
    obtain rfl := hself i' hi'
    exact ⟨(h.making i' hslot).1, htags.trans (h.making i' hslot).2⟩
  · intro i' hi'
    have hi : pc'.slot = some i' := by rcases hi' with rfl | rfl | rfl | rfl <;> rfl
    obtain rfl := hself i' hi
    exact hclaimed
  · intro i' hi'
    have hi : pc'.slot = some i' := by rcases hi' with rfl | rfl | rfl <;> rfl
    obtain rfl := hself i' hi
    exact hbound (by rcases hi' with rfl | rfl | rfl <;> nofun)

/-- A statement of `coroutine_spawn`, called by `main`. -/
theorem Spawning.statement {pc : SpawnPc} (hfs : fs = bs ++ f :: rest) (h : Spawning bs m f pc) :
    Inv fs (coroutineSpawn m f (fun pc => .main (.spawning f rest pc)) (.main (.spawnNext rest)) pc) := by
  have hfs' : fs = (bs ++ [f]) ++ rest := by rw [List.append_assoc]; exact hfs
  cases pc with
  | scan i =>
    simp only [coroutineSpawn]
    by_cases hi : m.state i = .free
    · rw [if_pos hi]
      have hlen := Spawning.scan_free h hi
      refine Inv.spawning rfl hfs ⟨h.sched, h.current, ?_, nofun, ?_, ?_, ?_⟩
      · exact fun j _ => fresh_congr (h.fresh j nofun) rfl rfl rfl rfl
      · intro i' hi'
        obtain rfl := Option.some.inj hi'
        have hfresh := h.fresh i nofun
        unfold Fresh at hfresh
        rw [List.getElem?_eq_none (Nat.le_of_eq hlen.symm)] at hfresh
        exact ⟨hlen, hfresh.2⟩
      · rintro i' (hi' | hi' | hi' | hi') <;> cases hi'
      · rintro i' (hi' | hi' | hi') <;> cases hi'
    · rw [if_neg hi]
      by_cases hlast : i.val + 1 < maxCoroutines
      · rw [dif_pos hlast]
        refine Inv.spawning rfl hfs ⟨h.sched, h.current, ?_, ?_, nofun, nofun, nofun⟩
        · exact fun j _ => fresh_congr (h.fresh j nofun) rfl rfl rfl rfl
        · intro i' hi' j hj
          obtain rfl := SpawnPc.scan.inj hi'
          rcases Nat.lt_or_eq_of_le (Nat.lt_succ_iff.1 hj) with hlt | heq
          · exact h.passed i rfl j hlt
          · rw [Fin.ext heq]
            exact hi
      · rw [dif_neg hlast]
        exact Inv.spawnNext hfs' h.sched h.current
          (fun j => Fresh.snoc (h.fresh j nofun) (Spawning.scan_full h hi hlast j))
  | claim i =>
    refine Spawning.go hfs h rfl rfl rfl rfl ?_ rfl state_setState_self (fun hb => absurd rfl (hb i))
    exact fun j hj => ⟨state_setState_of_ne hj, rfl, rfl, rfl⟩
  | bind i =>
    refine Spawning.go hfs h rfl rfl rfl rfl ?_ rfl (h.claimed i (Or.inl rfl)) (fun _ => Function.update_self _ _ _)
    exact fun j hj => ⟨rfl, Function.update_of_ne hj _ _, rfl, rfl⟩
  | getContext i =>
    refine Spawning.go hfs h rfl rfl rfl rfl ?_ rfl (h.claimed i (Or.inr (Or.inl rfl))) (fun _ => h.bound i (Or.inl rfl))
    exact fun j hj => ⟨rfl, rfl, ctx_setCtx_of_ne hj, rfl⟩
  | link i =>
    refine Spawning.go hfs h rfl rfl rfl rfl ?_ rfl (h.claimed i (Or.inr (Or.inr (Or.inl rfl))))
      (fun _ => h.bound i (Or.inr (Or.inl rfl)))
    exact fun j _ => ⟨rfl, rfl, rfl, rfl⟩
  | makeContext i =>
    obtain ⟨hlen, htags⟩ := h.making i rfl
    refine Inv.spawnNext (m := m.setCtx i (.co i .entry)) hfs' h.sched h.current ?_
    intro j
    by_cases hji : j = i
    · subst hji
      unfold Fresh
      rw [hlen, List.getElem?_concat_length]
      refine ⟨h.claimed j (Or.inr (Or.inr (Or.inr rfl))), h.bound j (Or.inr (Or.inr rfl)), .entry, ctx_setCtx_self, trivial,
        rfl, ?_⟩
      show m.tags j ++ f.steps = f.steps
      rw [htags, List.nil_append]
    · have hne : j.val ≠ bs.length := fun he => hji (Fin.ext (he.trans hlen.symm))
      refine Fresh.snoc (fresh_congr (h.fresh j ?_) rfl rfl (ctx_setCtx_of_ne hji) rfl) hne
      exact fun he => hji (Option.some.inj he).symm

/-! ## The loop of `main` -/

theorem Looping.inLoop {pc : MainPc} (hpc : ∀ f rest spc, pc ≠ .spawning f rest spc) (h : Looping fs m pc) : InLoop m pc :=
  ⟨hpc, h.sched, h.current, fun i hi => (h.selected i hi).1, h.ready, h.seen⟩

/-- A place of the loop, from what is known of the flags and of the slots. -/
theorem Inv.of_loop {pc : MainPc} (hctl : m.control = .main pc) (h : InLoop m pc)
    (hset : ∀ j, pc.selected ≠ some j → Settled fs m j)
    (hsel : ∀ i, pc.selected = some i → ∃ f, fs[i.val]? = some f ∧ Saved m f i) : Inv fs m :=
  Inv.looping hctl h.loop ⟨h.sched, h.current, hset, fun i hi => ⟨h.running i hi, hsel i hi⟩, h.ready, h.seen⟩

/-- A settled slot that can be resumed holds what is left of its body. -/
theorem Settled.saved (h : Settled fs m i) (hr : m.state i = .runnable ∨ m.state i = .suspend) :
    ∃ f, fs[i.val]? = some f ∧ Saved m f i := by
  unfold Settled at h
  cases hb : fs[i.val]? with
  | none =>
    rw [hb] at h
    rw [h.1] at hr
    rcases hr with hr | hr <;> cases hr
  | some f =>
    rw [hb] at h
    rcases h with ⟨hfree, _⟩ | ⟨_, hsaved⟩
    · rw [hfree] at hr
      rcases hr with hr | hr <;> cases hr
    · exact ⟨f, rfl, hsaved⟩

/-- A statement of the loop of `main`. -/
theorem Looping.statement {pc : MainPc} (hpc : ∀ f rest spc, pc ≠ .spawning f rest spc) (hctl : m.control = .main pc)
    (h : Looping fs m pc) : ∃ m', main m pc = some m' ∧ Inv fs m' := by
  have hctx : ∀ i, pc = .resuming i .swap → ∃ cpc, m.ctx i = some (.co i cpc) ∧ cpc.At i ∧ cpc.state = .running := by
    rintro i rfl
    obtain ⟨_, _, _, _, cpc, hcpc, hown, hrun, _⟩ := h.selected i rfl
    exact ⟨cpc, hcpc, hown.here, hrun⟩
  obtain ⟨m', hm', hmove⟩ := InLoop.statement (Looping.inLoop hpc h) hctl hctx
  refine ⟨m', hm', ?_⟩
  cases hmove with
  | still pc' hctl' hin hsel hsame =>
    refine Inv.of_loop hctl' hin (fun j hj => settled_untouched (h.settled j (hsel ▸ hj)) (hsame j)) ?_
    intro i hi
    obtain ⟨_, f, hf, hsaved⟩ := h.selected i (hsel ▸ hi)
    exact ⟨f, hf, saved_congr hsaved (hsame i).func (hsame i).ctx (hsame i).tags⟩
  | @pick i hctl' hin hsame hfunc hctx' htags =>
    obtain ⟨f, hf, hsaved⟩ := Settled.saved (h.settled i nofun) (h.ready i rfl)
    refine Inv.of_loop hctl' hin (fun j hj => ?_) (fun i' hi' => ?_)
    · exact settled_untouched (h.settled j nofun) (hsame j (fun he => hj (congrArg some he.symm)))
    · obtain rfl := Option.some.inj hi'
      exact ⟨f, hf, saved_congr hsaved hfunc hctx' htags⟩
  | @switch i cpc hcpc hctl' hin hsame =>
    obtain ⟨_, f, hf, hfunc, cpc', hcpc', hown, _, hsteps⟩ := h.selected i rfl
    obtain ⟨-, rfl⟩ := Cont.co.inj (Option.some.inj (hcpc'.symm.trans hcpc))
    refine Inv.inside hctl' ⟨hin.sched, hin.main, hin.current, hin.state, hf, (hsame i).func.trans hfunc, hown, ?_, ?_⟩
    · rw [(hsame i).tags]
      exact hsteps
    · exact fun j hj => settled_untouched (h.settled j (fun he => hj (Option.some.inj he).symm)) (hsame j)

/-! ## A coroutine has control -/

theorem Inside.inCo {pc : CoPc} (h : Inside fs m i f pc) : InCo m i pc :=
  ⟨h.sched, h.main, h.current, h.state, h.own.here⟩

/-- The coroutine goes back to `main`, and its slot is settled. -/
theorem Inside.back {pc : CoPc} (h : Inside fs m i f pc) (hctl : m'.control = .main (.resuming i .enter))
    (hin : InLoop m' (.resuming i .enter)) (hother : ∀ j, j ≠ i → Untouched m m' j)
    (hi : (m'.state i = .free ∧ m'.tags i = f.steps) ∨ ((m'.state i = .runnable ∨ m'.state i = .suspend) ∧ Saved m' f i)) :
    Inv fs m' := by
  refine Inv.of_loop hctl hin (fun j _ => ?_) nofun
  by_cases hji : j = i
  · subst hji
    unfold Settled
    rw [h.spawned]
    exact hi
  · exact settled_untouched (h.settled j hji) (hother j hji)

/-- A statement of a coroutine. -/
theorem Inside.statement {pc : CoPc} (hfs : ∀ f ∈ fs, f.Plain) (h : Inside fs m i f pc) :
    ∃ m', coroutineWrapper m i pc = some m' ∧ Inv fs m' := by
  have hplain : f.Plain := hfs f (List.mem_of_getElem? h.spawned)
  obtain ⟨m', hm', hmove⟩ := InCo.statement (Inside.inCo h) h.func h.own.not_spawning
  refine ⟨m', hm', ?_⟩
  have hsteps := h.steps
  cases hmove with
  | go hctl hin hsame hfunc htags =>
    refine Inv.inside hctl ⟨hin.sched, hin.main, hin.current, hin.state, h.spawned, hfunc.trans h.func,
      h.own.after hplain, ?_, fun j hj => settled_untouched (h.settled j hj) (hsame j hj)⟩
    rw [htags, List.append_assoc, h.own.emits_steps]
    exact hsteps
  | leave hctl hin hfree hsame =>
    refine Inside.back h hctl hin (fun j _ => hsame j) (Or.inl ⟨hfree, ?_⟩)
    rw [CoPc.steps, List.append_nil] at hsteps
    rw [(hsame i).tags]
    exact hsteps
  | yield hctl hin hsusp hsame hfunc hctx htags =>
    refine Inside.back h hctl hin hsame (Or.inr ⟨Or.inr hsusp, hfunc.trans h.func, _, hctx, ⟨rfl, h.own.2.1⟩, rfl, ?_⟩)
    rw [htags]
    exact hsteps

end CoroutineAux

/-- A statement keeps the regions. -/
theorem Inv.statement (hfs : ∀ f ∈ fs, f.Plain) (h : Inv fs m) : ∃ m', step m .statement = some m' ∧ Inv fs m' := by
  cases h with
  | spawning hctl heq hsp =>
    refine ⟨_, ?_, Spawning.statement heq hsp⟩
    simp only [step, hctl]
    rfl
  | looping hctl hpc hl =>
    obtain ⟨m', hm', hinv⟩ := Looping.statement hpc hctl hl
    refine ⟨m', ?_, hinv⟩
    simp only [step, hctl]
    exact hm'
  | inside hctl hi =>
    obtain ⟨m', hm', hinv⟩ := Inside.statement hfs hi
    refine ⟨m', ?_, hinv⟩
    simp only [step, hctl]
    exact hm'

/-- Where the handler switches away, the coroutine of `current_id` has control, and `main_ctx` is the place it goes back to. -/
theorem Inv.preempts (h : Inv fs m) (hq : m.Quiet .signal) (hp : m.Preempts i) :
    ∃ f pc, m.control = .co i pc ∧ Inside fs m i f pc ∧ pc.state = .running := by
  cases h with
  | spawning _ _ hsp =>
    have hs := hp.1
    rw [hsp.sched] at hs
    cases hs
  | looping hctl hpc hl =>
    refine absurd hp (InLoop.not_preempts (Looping.inLoop hpc hl) (fun j hj => ?_))
    exact hq rfl j (hctl.trans (congrArg Cont.main hj))
  | inside hctl hi =>
    obtain ⟨rfl, hrun⟩ := InCo.preempts (Inside.inCo hi) hp
    exact ⟨_, _, hctl, hi, hrun⟩

/-- A signal outside the window of `coroutine_resume` keeps the regions. -/
theorem Inv.signal (h : Inv fs m) (hq : m.Quiet .signal) : ∃ m', step m .signal = some m' ∧ Inv fs m' := by
  by_cases hp : ∃ i, m.Preempts i
  · obtain ⟨i, hp⟩ := hp
    obtain ⟨f, pc, hctl, hi, hrun⟩ := h.preempts hq hp
    obtain ⟨m', hm', hctl', hin, hsame, hstate, hfunc, hctx, htags⟩ := InCo.signal (Inside.inCo hi) hctl hp
    refine ⟨m', hm', Inside.back hi hctl' hin hsame (Or.inr ⟨Or.inl hstate, hfunc.trans hi.func, pc, hctx, hi.own, hrun, ?_⟩)⟩
    rw [htags]
    exact hi.steps
  · exact ⟨m, handler_returns (fun i hi => hp ⟨i, hi⟩), h⟩

/-- The machine starts in the regions. -/
theorem inv_init (fs : List Body) : Inv fs (schedulerInit fs) := by
  have hfs : fs = [] ++ fs := rfl
  exact Inv.spawnNext (m := schedulerInit fs) hfs rfl rfl (fun j => ⟨rfl, rfl⟩)

end OsLab.Coroutine
