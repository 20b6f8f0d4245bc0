import OsLab.Lemmas.CoroutineStep
import Mathlib.Data.List.Infix

/-!
# Preemption and the coroutines

A signal in `coroutine_resume` between `in_scheduler = 0` and `swapcontext` makes the handler store the scheduler's own place as
the context of the coroutine that was about to be resumed (`signal_in_resume_loses_coroutine`). Everywhere else signals are
harmless: in every run without signals in that window, preemption is transparent to the coroutines.
-/

namespace OsLab.Coroutine

variable {m m' : Machine} {fs : List Body} {l : Label} {ls : List Label}

namespace CoroutineAux

/-! ## Steps that are executed -/

/-- `coroutine_spawn` logs nothing. -/
theorem coroutineSpawn_log {f : Body} {k : SpawnPc → Cont} {ret : Cont} {pc : SpawnPc} :
    (coroutineSpawn m f k ret pc).log = m.log := by
  cases pc with
  | scan i =>
    simp only [coroutineSpawn]
    split
    · rfl
    · split <;> rfl
  | _ => rfl

/-- The switch to `main` logs nothing. -/
theorem toMain_log (h : m.toMain = some m') : m'.log = m.log := by
  unfold Machine.toMain at h
  cases hk : m.mainCtx with
  | none => rw [hk] at h; cases h
  | some k => rw [hk] at h; cases h; rfl

/-- The handler of the signal logs nothing. -/
theorem haddlePreemptiveScheduling_log (h : haddlePreemptiveScheduling m = some m') : m'.log = m.log := by
  unfold haddlePreemptiveScheduling at h
  split at h
  · cases h; rfl
  · split at h
    · cases h; rfl
    · split at h
      · exact (toMain_log h).trans rfl
      · cases h; rfl

/-- `main` logs nothing. -/
theorem main_log {pc : MainPc} (h : main m pc = some m') : m'.log = m.log := by
  cases pc with
  | spawning f rest pc => cases h; exact coroutineSpawn_log
  | resuming i pc =>
    cases pc with
    | check =>
      simp only [main, coroutineResume] at h
      split at h <;> cases h <;> rfl
    | swap =>
      simp only [main, coroutineResume, Machine.toCo] at h
      split at h
      · cases h
      · cases h; rfl
    | _ => cases h; rfl
  | test i d =>
    simp only [main] at h
    split at h <;> cases h <;> rfl
  | decide d =>
    simp only [main] at h
    split at h <;> cases h <;> rfl
  | _ => cases h; rfl

/-- `coroutine_yield` logs nothing: only bodies do. -/
theorem coroutineYield_log {k : YieldPc → Cont} {ret : Cont} {pc : YieldPc} (h : coroutineYield m k ret pc = some m') :
    m'.log = m.log := by
  cases pc with
  | test id =>
    cases id with
    | none => cases h; rfl
    | some id => cases h; rfl
  | swap id => exact toMain_log (m := m.setCtx id ret) h
  | _ => cases h; rfl

/-- A plain step is executed with `current_id` as it is, and nothing else is. -/
theorem coroutineWrapper_log {j : Slot} {pc : CoPc} (h : coroutineWrapper m j pc = some m') :
    m'.log = m.log ∨ ∃ id tag r, pc = .body id (.step tag r) ∧ m'.log = m.log ++ [Ran.mk m.currentId j tag] := by
  cases pc with
  | call id =>
    cases id with
    | none => cases h
    | some id =>
      simp only [coroutineWrapper] at h
      split at h
      · cases h
      · cases h; exact Or.inl rfl
  | body id r =>
    cases r with
    | step tag r => cases h; exact Or.inr ⟨id, tag, r, rfl, rfl⟩
    | _ => cases h; exact Or.inl rfl
  | yielding id r pc =>
    simp only [coroutineWrapper] at h
    exact Or.inl (coroutineYield_log h)
  | spawning id r f pc => cases h; exact Or.inl coroutineSpawn_log
  | exit id => exact Or.inl (toMain_log h)
  | _ => cases h; exact Or.inl rfl

/-- Every plain step is executed under the id of the stack it is on. -/
theorem filed_step (h : Inv fs m) (hs : step m l = some m') (hf : ∀ e ∈ m.log, e.id = some e.stack) :
    ∀ e ∈ m'.log, e.id = some e.stack := by
  cases l with
  | signal =>
    rw [haddlePreemptiveScheduling_log hs]
    exact hf
  | statement =>
    cases hctl : m.control with
    | main pc =>
      simp only [step, hctl] at hs
      rw [main_log hs]
      exact hf
    | co j pc =>
      simp only [step, hctl] at hs
      rcases coroutineWrapper_log hs with he | ⟨id, tag, r, rfl, he⟩
      · rw [he]
        exact hf
      · cases h with
        | spawning hctl' _ _ => rw [hctl] at hctl'; cases hctl'
        | looping hctl' _ _ => rw [hctl] at hctl'; cases hctl'
        | inside hctl' hi =>
          rw [hctl] at hctl'
          cases hctl'
          rw [he]
          intro e hmem
          rcases List.mem_append.1 hmem with hmem | hmem
          · exact hf e hmem
          · rw [List.mem_singleton.1 hmem]
            exact hi.current

/-! ## Runs -/

/-- What every run without a signal in `coroutine_yield` keeps. -/
theorem run_inv (hfs : ∀ f ∈ fs, f.Plain) (h : Run QuietStep (schedulerInit fs) ls m) :
    Inv fs m ∧ ∀ e ∈ m.log, e.id = some e.stack := by
  refine Run.invariant (P := fun _ m => Inv fs m ∧ ∀ e ∈ m.log, e.id = some e.stack) ⟨inv_init fs, nofun⟩ ?_ h
  rintro ls m l m' _ ⟨hinv, hf⟩ ⟨hq, hs⟩
  refine ⟨?_, filed_step hinv hs hf⟩
  cases l with
  | statement =>
    obtain ⟨m₁, hm₁, hinv₁⟩ := hinv.statement hfs
    obtain rfl : m₁ = m' := Option.some.inj (hm₁.symm.trans hs)
    exact hinv₁
  | signal =>
    obtain ⟨m₁, hm₁, hinv₁⟩ := hinv.signal hq
    obtain rfl : m₁ = m' := Option.some.inj (hm₁.symm.trans hs)
    exact hinv₁

/-! ## What is known of a slot -/

/-- Of a settled slot, that is not running: its body is finished, or what is left of it is stored. -/
theorem Settled.cases {i : Slot} {f : Body} (h : Settled fs m i) (hf : fs[i.val]? = some f) :
    (m.state i = .free ∧ m.tags i = f.steps) ∨ ∃ pc, m.ctx i = some (.co i pc) ∧ m.tags i ++ pc.steps f = f.steps := by
  unfold Settled at h
  rw [hf] at h
  rcases h with h | ⟨_, _, pc, hctx, _, _, hsteps⟩
  · exact Or.inl h
  · exact Or.inr ⟨pc, hctx, hsteps⟩

/-- In the loop: the body of every slot is finished, or what is left of it is the continuation of the slot's own coroutine. -/
theorem Inv.left {i : Slot} {f : Body} (h : Inv fs m) (hl : ∀ g rest pc, m.control ≠ .main (.spawning g rest pc))
    (hf : fs[i.val]? = some f) :
    (m.state i = .free ∧ m.tags i = f.steps) ∨ ∃ pc, m.cont i = some (.co i pc) ∧ m.tags i ++ pc.steps f = f.steps := by
  cases h with
  | spawning hctl _ _ => exact absurd hctl (hl _ _ _)
  | @looping pc hctl _ hloop =>
    have hcont : m.cont i = m.ctx i := by simp only [Machine.cont, hctl]
    rw [hcont]
    by_cases hsel : pc.selected = some i
    · obtain ⟨_, g, hg, _, cpc, hctx, _, _, hsteps⟩ := hloop.selected i hsel
      obtain rfl := Option.some.inj (hf.symm.trans hg)
      exact Or.inr ⟨cpc, hctx, hsteps⟩
    · exact Settled.cases (hloop.settled i hsel) hf
  | @inside j g pc hctl hi =>
    by_cases hji : j = i
    · subst hji
      obtain rfl := Option.some.inj (hf.symm.trans hi.spawned)
      refine Or.inr ⟨pc, ?_, hi.steps⟩
      simp only [Machine.cont, hctl, if_pos]
    · have hcont : m.cont i = m.ctx i := by simp only [Machine.cont, hctl, if_neg hji]
      rw [hcont]
      exact Settled.cases (hi.settled i (Ne.symm hji)) hf

/-- At any time, what has been executed of a body is a beginning of it. -/
theorem Inv.tags_prefix {i : Slot} {f : Body} (h : Inv fs m) (hf : fs[i.val]? = some f) : m.tags i <+: f.steps := by
  by_cases hl : ∀ g rest pc, m.control ≠ .main (.spawning g rest pc)
  · rcases Inv.left h hl hf with ⟨_, he⟩ | ⟨pc, _, he⟩
    · rw [he]
    · exact ⟨_, he⟩
  · cases h with
    | @spawning bs rest g pc _ heq hsp =>
      by_cases hslot : pc.slot = some i
      · rw [(hsp.making i hslot).2]
        exact List.nil_prefix
      · have hfresh := hsp.fresh i hslot
        unfold Fresh at hfresh
        cases hb : bs[i.val]? with
        | none =>
          rw [hb] at hfresh
          rw [hfresh.2]
          exact List.nil_prefix
        | some g' =>
          rw [hb] at hfresh
          rw [heq, List.getElem?_append_left (List.getElem?_eq_some_iff.1 hb).1, hb] at hf
          obtain rfl := Option.some.inj hf
          obtain ⟨_, _, cpc, _, _, _, hsteps⟩ := hfresh
          exact ⟨_, hsteps⟩
    | @looping pc hctl hpc _ => exact absurd (fun g rest spc he => hpc g rest spc (Cont.main.inj (hctl.symm.trans he))) hl
    | inside hctl _ => exact absurd (fun g rest spc he => nomatch hctl.symm.trans he) hl

/-- A slot with no body executes nothing. -/
theorem Inv.tags_nil {i : Slot} (h : Inv fs m) (hn : fs[i.val]? = none) : m.tags i = [] := by
  have hset : Settled fs m i → m.tags i = [] := by
    intro hs
    unfold Settled at hs
    rw [hn] at hs
    exact hs.2
  cases h with
  | @spawning bs rest g pc _ heq hsp =>
    by_cases hslot : pc.slot = some i
    · exact (hsp.making i hslot).2
    · have hfresh := hsp.fresh i hslot
      have hb : bs[i.val]? = none := by
        rw [List.getElem?_eq_none_iff] at hn ⊢
        rw [heq, List.length_append] at hn
        omega
      unfold Fresh at hfresh
      rw [hb] at hfresh
      exact hfresh.2
  | @looping pc _ _ hloop =>
    refine hset (hloop.settled i (fun hsel => ?_))
    obtain ⟨_, g, hg, _⟩ := hloop.selected i hsel
    exact nomatch hn.symm.trans hg
  | inside _ hi =>
    refine hset (hi.settled i ?_)
    rintro rfl
    exact nomatch hn.symm.trans hi.spawned

/-- The loop ends when every body is finished. -/
theorem Inv.done {i : Slot} {f : Body} (h : Inv fs m) (hd : m.control = .main .done) (hf : fs[i.val]? = some f) :
    m.tags i = f.steps := by
  cases h with
  | spawning hctl _ _ => exact nomatch hctl.symm.trans hd
  | looping hctl _ hloop =>
    obtain rfl := Cont.main.inj (hctl.symm.trans hd)
    have hset := hloop.settled i nofun
    have hfree := hloop.seen i i.isLt
    unfold Settled at hset
    rw [hf] at hset
    rcases hset with ⟨_, he⟩ | ⟨hr, _⟩
    · exact he
    · rw [hfree] at hr
      rcases hr with hr | hr <;> cases hr
  | inside hctl _ => exact nomatch hctl.symm.trans hd

/-- Statements in a row, with no signal. -/
def statements : Nat → Machine → Option Machine
  | 0, m => some m
  | n + 1, m => (step m .statement).bind (statements n)

/-- Statements one after another are a run. -/
theorem run_statements {n : Nat} (h : statements n m = some m') : Run QuietStep m (List.replicate n .statement) m' := by
  induction n generalizing m with
  | zero =>
    obtain rfl := Option.some.inj h
    exact Run.nil m
  | succ n ih =>
    obtain ⟨m₁, hm₁, h⟩ := Option.bind_eq_some_iff.1 h
    exact Run.append (Run.single ⟨nofun, hm₁⟩) (ih h)

end CoroutineAux

open CoroutineAux

/-! ## The window in `coroutine_resume` -/

/-- A signal between `in_scheduler = 0` and `swapcontext` in `coroutine_resume(0)`. On the first call, the handler goes to a
`main_ctx` that was never stored. On a later one, the place it stores as the context of coroutine 0 is the scheduler's, over the
place of the coroutine, which still has a step to execute. -/
theorem signal_in_resume_loses_coroutine :
    (∃ m, Run Step (schedulerInit [.step 7 .ret]) (List.replicate 13 .statement) m ∧
      m.Preempts ⟨0, by decide⟩ ∧ m.control = .main (.resuming ⟨0, by decide⟩ .swap) ∧ step m .signal = none) ∧
    ∃ m m', Run Step (schedulerInit [.yield (.step 7 .ret)]) (List.replicate 40 .statement) m ∧
      m.Preempts ⟨0, by decide⟩ ∧ m.control = .main (.resuming ⟨0, by decide⟩ .swap) ∧ Step m .signal m' ∧
      m'.ctx ⟨0, by decide⟩ = some (.main (.resuming ⟨0, by decide⟩ .swap)) ∧
      m'.control = .main (.resuming ⟨0, by decide⟩ .enter) ∧ m'.tags ⟨0, by decide⟩ = [] := by
  constructor
  · have h : statements 13 (schedulerInit [.step 7 .ret]) = some _ := rfl
    exact ⟨_, (run_statements h).mono (fun _ _ _ hs => hs.2), ⟨rfl, rfl, rfl⟩, rfl, rfl⟩
  · have h : statements 40 (schedulerInit [.yield (.step 7 .ret)]) = some _ := rfl
    exact ⟨_, _, (run_statements h).mono (fun _ _ _ hs => hs.2), ⟨rfl, rfl, rfl⟩, rfl, rfl, rfl, rfl, rfl⟩

/-! ## Preemption elsewhere -/

/-- For any bodies of plain steps and yields that `main` spawns, and any placement of signals outside the window of
`coroutine_resume`: the program goes on; where the handler switches away, the place it stores is one of the coroutine of
`current_id`, and `main_ctx` is the place in `coroutine_resume` where the scheduler is suspended; every step is executed under the
id of its coroutine; what has been executed of a body is a beginning of it, and once `main` is in its loop what is left is the
continuation of its coroutine, unless it is finished; and when the loop ends, every body is finished. -/
theorem preemption_transparent (hfs : ∀ f ∈ fs, f.Plain) (h : Run QuietStep (schedulerInit fs) ls m) :
    (∀ l, m.Quiet l → ∃ m', Step m l m') ∧
      (m.Quiet .signal → ∀ i, m.Preempts i →
        (∃ pc, m.control = .co i pc) ∧ m.mainCtx = some (.main (.resuming i .enter))) ∧
      (∀ e ∈ m.log, e.id = some e.stack) ∧
      (∀ (i : Slot) f, fs[i.val]? = some f → m.tags i <+: f.steps) ∧
      (∀ i : Slot, fs[i.val]? = none → m.tags i = []) ∧
      ((∀ g rest pc, m.control ≠ .main (.spawning g rest pc)) → ∀ (i : Slot) f, fs[i.val]? = some f →
        (m.state i = .free ∧ m.tags i = f.steps) ∨
          ∃ pc, m.cont i = some (.co i pc) ∧ m.tags i ++ pc.steps f = f.steps) ∧
      (m.control = .main .done → ∀ (i : Slot) f, fs[i.val]? = some f → m.tags i = f.steps) := by
  obtain ⟨hinv, hfiled⟩ := run_inv hfs h
  refine ⟨?_, ?_, hfiled, fun _ _ => Inv.tags_prefix hinv, fun _ => Inv.tags_nil hinv, fun hl _ _ => Inv.left hinv hl,
    fun hd _ _ => Inv.done hinv hd⟩
  · intro l hq
    cases l with
    | statement =>
      obtain ⟨m', hm', _⟩ := hinv.statement hfs
      exact ⟨m', hm'⟩
    | signal =>
      obtain ⟨m', hm', _⟩ := hinv.signal hq
      exact ⟨m', hm'⟩
  · intro hq i hp
    obtain ⟨f, pc, hctl, hi, _⟩ := hinv.preempts hq hp
    exact ⟨⟨pc, hctl⟩, hi.main⟩

/-- A coroutine that is preempted between its two steps. -/
def twoSteps : Body := .step 7 (.step 8 .ret)

/-- The coroutine is interrupted once, and ends. -/
theorem twoSteps_runs : ∃ m, Run QuietStep (schedulerInit [twoSteps])
    (List.replicate 17 .statement ++ [.signal] ++ List.replicate 47 .statement) m ∧ m.control = .main .done := by
  have h1 : statements 17 (schedulerInit [twoSteps]) = some _ := rfl
  have h2 := (run_statements h1).snoc (a := .signal) ⟨nofun, rfl⟩
  exact ⟨_, h2.append (run_statements (n := 47) rfl), rfl⟩

/-- Its two tags are there, in order. -/
theorem preemption_transparent_two_steps : ∃ m, Run QuietStep (schedulerInit [twoSteps])
    (List.replicate 17 .statement ++ [.signal] ++ List.replicate 47 .statement) m ∧ m.tags ⟨0, by decide⟩ = [7, 8] := by
  obtain ⟨m, hrun, hd⟩ := twoSteps_runs
  have hplain : ∀ f ∈ [twoSteps], f.Plain := by
    intro f hf
    rw [List.mem_singleton.1 hf]
    trivial
  obtain ⟨_, _, _, _, _, _, hdone⟩ := preemption_transparent hplain hrun
  exact ⟨m, hrun, hdone hd ⟨0, by decide⟩ twoSteps rfl⟩

end OsLab.Coroutine
