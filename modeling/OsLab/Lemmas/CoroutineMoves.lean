import OsLab.Lemmas.CoroutineInv

/-!
# What a statement does at each place

The flags `in_scheduler` and `current_id` and the state of the slot concerned are known from the place alone, in the loop of `main`
(`InLoop`) and on the stack of a coroutine (`InCo`). From there a statement has few outcomes: `LoopMove` lists those of the loop,
`CoMove` those of a coroutine outside `coroutine_spawn`. Invariants are kept by a look at these lists and at no statement.
-/

namespace OsLab.Coroutine

variable {m m' : Machine} {f : Body} {i j : Slot}

/-- The slot is as it was. -/
structure Untouched (m m' : Machine) (j : Slot) : Prop where
  state : m'.state j = m.state j
  func : m'.func j = m.func j
  ctx : m'.ctx j = m.ctx j
  tags : m'.tags j = m.tags j

/-! ## Places -/

/-- What the place has read of `current_id` is the slot `i`. -/
def CoPc.At (i : Slot) : CoPc → Prop
  | .entry => True
  | .call id => id = some i
  | .body id _ => id = i
  | .yielding id _ pc => id = i ∧ pc.Own i
  | .spawning id _ _ _ => id = i
  | .finish id => id = i
  | .clear id => id = i
  | .exit id => id = i

/-- The place after a statement of the coroutine of slot `i`, with the body `f`, where it keeps control. -/
def CoPc.after (i : Slot) (f : Body) : CoPc → CoPc
  | .entry => .call (some i)
  | .call _ => .body i f
  | .body id .ret => .finish id
  | .body id (.step _ rest) => .body id rest
  | .body id (.yield rest) => .yielding id rest .read
  | .body id (.spawn g rest) => .spawning id rest g (.scan ⟨0, maxCoroutines_pos⟩)
  | .yielding id rest .read => .yielding id rest (.test (some i))
  | .yielding id rest (.test _) => .yielding id rest (.suspend i)
  | .yielding id rest (.suspend id') => .yielding id rest (.clear id')
  | .yielding id rest (.clear id') => .yielding id rest (.swap id')
  | .yielding id rest (.swap _) => .body id rest
  | .spawning id rest g pc => .spawning id rest g pc
  | .finish id => .clear id
  | .clear id => .exit id
  | .exit id => .exit id

/-- The plain step that the statement at the place executes. -/
def CoPc.emits : CoPc → List Nat
  | .body _ (.step tag _) => [tag]
  | _ => []

/-- `main` is at a place of its loop: the flags, the slot it has picked, and the slots it has seen. -/
structure InLoop (m : Machine) (pc : MainPc) : Prop where
  loop : ∀ f rest spc, pc ≠ .spawning f rest spc
  sched : m.inScheduler = pc.sched
  current : m.currentId = pc.current
  running : ∀ i, pc.selected = some i → m.state i = .running
  ready : ∀ i, pc = .resuming i .setState → m.state i = .runnable ∨ m.state i = .suspend
  seen : ∀ j : Slot, j.val < pc.seen → m.state j = .free

/-- The coroutine of slot `i` is at a place: the flags and the state of its slot. -/
structure InCo (m : Machine) (i : Slot) (pc : CoPc) : Prop where
  sched : m.inScheduler = false
  main : m.mainCtx = some (.main (.resuming i .enter))
  current : m.currentId = pc.current i
  state : m.state i = pc.state
  here : pc.At i

/-- What a statement of the loop does: nothing to the slots, or it picks one, or it switches to the one picked. -/
inductive LoopMove (m m' : Machine) : MainPc → Prop where
  | still {pc : MainPc} (pc' : MainPc) : m'.control = .main pc' → InLoop m' pc' → pc'.selected = pc.selected →
      (∀ j, Untouched m m' j) → LoopMove m m' pc
  | pick {i : Slot} : m'.control = .main (.resuming i .setCurrent) → InLoop m' (.resuming i .setCurrent) →
      (∀ j, j ≠ i → Untouched m m' j) → m'.func i = m.func i → m'.ctx i = m.ctx i → m'.tags i = m.tags i →
      LoopMove m m' (.resuming i .setState)
  | switch {i : Slot} {cpc : CoPc} : m.ctx i = some (.co i cpc) → m'.control = .co i cpc → InCo m' i cpc →
      (∀ j, Untouched m m' j) → LoopMove m m' (.resuming i .swap)

/-- What a statement of the coroutine of slot `i` does: it goes on, or it goes back to `main`, finished or suspended. -/
inductive CoMove (m m' : Machine) (i : Slot) (f : Body) : CoPc → Prop where
  | go {pc : CoPc} : m'.control = .co i (pc.after i f) → InCo m' i (pc.after i f) → (∀ j, j ≠ i → Untouched m m' j) →
      m'.func i = m.func i → m'.tags i = m.tags i ++ pc.emits → CoMove m m' i f pc
  | leave {id : Slot} : m'.control = .main (.resuming i .enter) → InLoop m' (.resuming i .enter) → m'.state i = .free →
      (∀ j, Untouched m m' j) → CoMove m m' i f (.exit id)
  | yield {id id' : Slot} {rest : Body} : m'.control = .main (.resuming i .enter) → InLoop m' (.resuming i .enter) →
      m'.state i = .suspend → (∀ j, j ≠ i → Untouched m m' j) → m'.func i = m.func i →
      m'.ctx i = some (.co i (.body i rest)) → m'.tags i = m.tags i → CoMove m m' i f (.yielding id rest (.swap id'))

namespace CoroutineAux

/-! ## The loop of `main` -/

/-- The loop goes to another place with the same flags, where no slot is picked and none is known to be free. -/
theorem InLoop.goto {pc pc' : MainPc} (h : InLoop m pc) (hs : pc'.sched = pc.sched) (hc : pc'.current = pc.current)
    (hsel : pc'.selected = none) (hseen : pc'.seen = 0) (hready : ∀ i, pc' ≠ .resuming i .setState)
    (hpc : ∀ f rest spc, pc' ≠ .spawning f rest spc) : InLoop (m.goto (.main pc')) pc' := by
  refine ⟨hpc, h.sched.trans hs.symm, h.current.trans hc.symm, ?_, fun i hi => absurd hi (hready i), ?_⟩
  · intro i hi
    rw [hsel] at hi
    cases hi
  · intro j hj
    rw [hseen] at hj
    exact absurd hj (Nat.not_lt_zero _)

/-- The next iteration of the loop. -/
theorem inLoop_next {d : Bool} (hs : m.inScheduler = true) (hc : m.currentId = none)
    (hseen : d = true → ∀ j : Slot, j.val ≤ i.val → m.state j = .free) : InLoop m (.next i d) := by
  rcases next_cases i d with ⟨h, he⟩ | ⟨h, he⟩
  · rw [he]
    refine ⟨nofun, hs, hc, nofun, nofun, ?_⟩
    intro j hj
    cases d with
    | false => exact absurd hj (Nat.not_lt_zero _)
    | true => exact hseen rfl j (Nat.lt_succ_iff.1 hj)
  · rw [he]
    refine ⟨nofun, hs, hc, nofun, nofun, ?_⟩
    intro j hj
    cases d with
    | false => exact absurd hj (Nat.not_lt_zero _)
    | true =>
      have hlt := j.isLt
      exact hseen rfl j (by omega)

/-- The end of an iteration selects no slot. -/
theorem next_selected (i : Slot) (d : Bool) : (MainPc.next i d).selected = none := by
  rcases next_cases i d with ⟨_, he⟩ | ⟨_, he⟩ <;> rw [he] <;> rfl

/-- A statement of `coroutine_resume`, when the slot to switch to holds a place of its own coroutine. -/
theorem InLoop.resume {pc : ResumePc} (h : InLoop m (.resuming i pc))
    (hctx : pc = .swap → ∃ cpc, m.ctx i = some (.co i cpc) ∧ cpc.At i ∧ cpc.state = .running) :
    ∃ m', coroutineResume m i pc = some m' ∧ LoopMove m m' (.resuming i pc) := by
  cases pc with
  | check =>
    simp only [coroutineResume]
    by_cases hi : m.state i = .runnable ∨ m.state i = .suspend
    · rw [if_pos hi]
      refine ⟨_, rfl, LoopMove.still _ rfl ⟨nofun, h.sched, h.current, nofun, ?_, ?_⟩ rfl (fun _ => ⟨rfl, rfl, rfl, rfl⟩)⟩
      · intro i' hi'
        obtain ⟨rfl, -⟩ := MainPc.resuming.inj hi'
        exact hi
      · exact fun j hj => absurd hj (Nat.not_lt_zero _)
    · rw [if_neg hi]
      refine ⟨_, rfl, LoopMove.still _ rfl ?_ (next_selected i false) (fun _ => ⟨rfl, rfl, rfl, rfl⟩)⟩
      exact inLoop_next h.sched h.current nofun
  | setState =>
    refine ⟨_, rfl, LoopMove.pick rfl ⟨nofun, h.sched, h.current, ?_, nofun, ?_⟩ ?_ rfl rfl rfl⟩
    · intro i' hi'
      obtain rfl := Option.some.inj hi'
      exact state_setState_self
    · exact fun j hj => absurd hj (Nat.not_lt_zero _)
    · exact fun j hj => ⟨state_setState_of_ne hj, rfl, rfl, rfl⟩
  | setCurrent =>
    refine ⟨_, rfl, LoopMove.still _ rfl ⟨nofun, h.sched, rfl, h.running, nofun, ?_⟩ rfl (fun _ => ⟨rfl, rfl, rfl, rfl⟩)⟩
    exact fun j hj => absurd hj (Nat.not_lt_zero _)
  | leave =>
    refine ⟨_, rfl, LoopMove.still _ rfl ⟨nofun, rfl, h.current, h.running, nofun, ?_⟩ rfl (fun _ => ⟨rfl, rfl, rfl, rfl⟩)⟩
    exact fun j hj => absurd hj (Nat.not_lt_zero _)
  | swap =>
    obtain ⟨cpc, hcpc, hat, hrun⟩ := hctx rfl
    refine ⟨({ m with mainCtx := some (.main (.resuming i .enter)) } : Machine).goto (.co i cpc), ?_, ?_⟩
    · simp only [coroutineResume, Machine.toCo, hcpc]
    · refine LoopMove.switch hcpc rfl ⟨h.sched, rfl, ?_, (h.running i rfl).trans hrun.symm, hat⟩ (fun _ => ⟨rfl, rfl, rfl, rfl⟩)
      rw [current_of_running hrun]
      exact h.current
  | enter =>
    refine ⟨_, rfl, LoopMove.still _ rfl ?_ (next_selected i false) (fun _ => ⟨rfl, rfl, rfl, rfl⟩)⟩
    exact inLoop_next rfl h.current nofun

/-- A statement of the loop of `main`, when the slot to switch to holds a place of its own coroutine. -/
theorem InLoop.statement {pc : MainPc} (h : InLoop m pc) (hctl : m.control = .main pc)
    (hctx : ∀ i, pc = .resuming i .swap → ∃ cpc, m.ctx i = some (.co i cpc) ∧ cpc.At i ∧ cpc.state = .running) :
    ∃ m', main m pc = some m' ∧ LoopMove m m' pc := by
  cases pc with
  | spawning f rest spc => exact absurd rfl (h.loop f rest spc)
  | start => exact ⟨_, rfl, LoopMove.still _ rfl (InLoop.goto h rfl rfl rfl rfl nofun nofun) rfl (fun _ => ⟨rfl, rfl, rfl, rfl⟩)⟩
  | test i allDone =>
    simp only [main]
    by_cases hi : m.state i = .free
    · rw [if_neg (fun hne => hne hi)]
      refine ⟨_, rfl, LoopMove.still _ rfl ?_ (next_selected i allDone) (fun _ => ⟨rfl, rfl, rfl, rfl⟩)⟩
      refine inLoop_next h.sched h.current ?_
      rintro rfl j hj
      rcases Nat.lt_or_eq_of_le hj with hlt | heq
      · exact h.seen j hlt
      · rw [Fin.ext heq]
        exact hi
    · rw [if_pos hi]
      exact ⟨_, rfl, LoopMove.still _ rfl (InLoop.goto h rfl rfl rfl rfl nofun nofun) rfl (fun _ => ⟨rfl, rfl, rfl, rfl⟩)⟩
  | mark i => exact ⟨_, rfl, LoopMove.still _ rfl (InLoop.goto h rfl rfl rfl rfl nofun nofun) rfl (fun _ => ⟨rfl, rfl, rfl, rfl⟩)⟩
  | resuming i pc => exact InLoop.resume h (fun he => hctx i (congrArg (MainPc.resuming i) he))
  | decide allDone =>
    cases allDone with
    | false => exact ⟨_, rfl, LoopMove.still _ rfl (InLoop.goto h rfl rfl rfl rfl nofun nofun) rfl (fun _ => ⟨rfl, rfl, rfl, rfl⟩)⟩
    | true =>
      refine ⟨_, rfl, LoopMove.still _ rfl ?_ rfl (fun _ => ⟨rfl, rfl, rfl, rfl⟩)⟩
      exact ⟨nofun, h.sched, h.current, nofun, nofun, h.seen⟩
  | done => exact ⟨m, rfl, LoopMove.still _ hctl h rfl (fun _ => ⟨rfl, rfl, rfl, rfl⟩)⟩

/-! ## A coroutine has control -/

/-- The flags where a coroutine goes back to. -/
theorem inLoop_enter (hs : m.inScheduler = false) (hc : m.currentId = none) : InLoop m (.resuming i .enter) :=
  ⟨nofun, hs, hc, nofun, nofun, fun _ hj => absurd hj (Nat.not_lt_zero _)⟩

/-- A statement that only goes to the next place. -/
theorem InCo.plain {pc : CoPc} (h : InCo m i pc) (hs : (pc.after i f).state = pc.state)
    (hc : (pc.after i f).current i = pc.current i) (hat : (pc.after i f).At i) (he : pc.emits = []) :
    CoMove m (m.goto (.co i (pc.after i f))) i f pc := by
  refine CoMove.go rfl ⟨h.sched, h.main, h.current.trans hc.symm, h.state.trans hs.symm, hat⟩ (fun _ _ => ⟨rfl, rfl, rfl, rfl⟩)
    rfl ?_
  rw [he, List.append_nil]
  rfl

/-- A statement that sets the state of the slot. -/
theorem InCo.setState {pc : CoPc} (h : InCo m i pc) (hc : (pc.after i f).current i = pc.current i)
    (hat : (pc.after i f).At i) (he : pc.emits = []) :
    CoMove m ((m.setState i (pc.after i f).state).goto (.co i (pc.after i f))) i f pc := by
  refine CoMove.go rfl ⟨h.sched, h.main, h.current.trans hc.symm, state_setState_self, hat⟩ ?_ rfl ?_
  · exact fun j hj => ⟨state_setState_of_ne hj, rfl, rfl, rfl⟩
  · rw [he, List.append_nil]
    rfl

/-- A statement that sets `current_id` to -1. -/
theorem InCo.clear {pc : CoPc} (h : InCo m i pc) (hs : (pc.after i f).state = pc.state)
    (hc : (pc.after i f).current i = none) (hat : (pc.after i f).At i) (he : pc.emits = []) :
    CoMove m ({ m with currentId := none }.goto (.co i (pc.after i f))) i f pc := by
  refine CoMove.go rfl ⟨h.sched, h.main, hc.symm, h.state.trans hs.symm, hat⟩ (fun _ _ => ⟨rfl, rfl, rfl, rfl⟩) rfl ?_
  rw [he, List.append_nil]
  rfl

/-- A statement of `coroutine_yield`. -/
theorem InCo.yield {rest : Body} {pc : YieldPc} (h : InCo m i (.yielding i rest pc)) :
    ∃ m', coroutineYield m (fun pc => .co i (.yielding i rest pc)) (.co i (.body i rest)) pc = some m' ∧
      CoMove m m' i f (.yielding i rest pc) := by
  obtain ⟨_, hown⟩ := h.here
  cases pc with
  | read =>
    refine ⟨_, rfl, ?_⟩
    rw [h.current]
    exact InCo.plain h rfl rfl ⟨rfl, rfl⟩ rfl
  | test id =>
    obtain rfl : id = some i := hown
    exact ⟨_, rfl, InCo.plain h rfl rfl ⟨rfl, rfl⟩ rfl⟩
  | suspend id =>
    obtain rfl : id = i := hown
    exact ⟨_, rfl, InCo.setState h rfl ⟨rfl, rfl⟩ rfl⟩
  | clear id =>
    obtain rfl : id = i := hown
    exact ⟨_, rfl, InCo.clear h rfl rfl ⟨rfl, rfl⟩ rfl⟩
  | swap id =>
    obtain rfl : id = i := hown
    have hmain : (m.setCtx id (.co id (.body id rest))).mainCtx = some (.main (.resuming id .enter)) := h.main
    refine ⟨(m.setCtx id (.co id (.body id rest))).goto (.main (.resuming id .enter)), ?_, ?_⟩
    · simp only [coroutineYield, Machine.toMain, hmain]
    · exact CoMove.yield rfl (inLoop_enter h.sched h.current) h.state (fun j hj => ⟨rfl, rfl, ctx_setCtx_of_ne hj, rfl⟩) rfl
        ctx_setCtx_self rfl

/-- A statement of a coroutine outside `coroutine_spawn`. -/
theorem InCo.statement {pc : CoPc} (h : InCo m i pc) (hf : m.func i = some f)
    (hpc : ∀ id rest g spc, pc ≠ .spawning id rest g spc) : ∃ m', coroutineWrapper m i pc = some m' ∧ CoMove m m' i f pc := by
  have hat := h.here
  cases pc with
  | entry =>
    refine ⟨_, rfl, ?_⟩
    rw [h.current]
    exact InCo.plain h rfl rfl rfl rfl
  | call id =>
    obtain rfl : id = some i := hat
    refine ⟨m.goto (.co i (.body i f)), ?_, InCo.plain h rfl rfl rfl rfl⟩
    simp only [coroutineWrapper, hf]
  | body id r =>
    obtain rfl : id = i := hat
    cases r with
    | ret => exact ⟨_, rfl, InCo.plain h rfl rfl rfl rfl⟩
    | step tag r =>
      refine ⟨_, rfl, CoMove.go rfl ⟨h.sched, h.main, h.current, h.state, rfl⟩ ?_ rfl ?_⟩
      · refine fun j hj => ⟨rfl, rfl, rfl, ?_⟩
        show ({ m with log := m.log ++ [Ran.mk m.currentId id tag] } : Machine).tags j = m.tags j
        rw [tags_log, if_neg (Ne.symm hj)]
      · show ({ m with log := m.log ++ [Ran.mk m.currentId id tag] } : Machine).tags id = m.tags id ++ [tag]
        rw [tags_log, if_pos rfl]
    | yield r => exact ⟨_, rfl, InCo.plain h rfl rfl ⟨rfl, trivial⟩ rfl⟩
    | spawn g r => exact ⟨_, rfl, InCo.plain h rfl rfl rfl rfl⟩
  | yielding id r ypc =>
    obtain rfl : id = i := hat.1
    exact InCo.yield h
  | spawning id r g spc => exact absurd rfl (hpc id r g spc)
  | finish id =>
    obtain rfl : id = i := hat
    exact ⟨_, rfl, InCo.setState h rfl rfl rfl⟩
  | clear id =>
    obtain rfl : id = i := hat
    exact ⟨_, rfl, InCo.clear h rfl rfl rfl rfl⟩
  | exit id =>
    refine ⟨m.goto (.main (.resuming i .enter)), ?_, ?_⟩
    · simp only [coroutineWrapper, Machine.toMain, h.main]
    · exact CoMove.leave rfl (inLoop_enter h.sched h.current) h.state (fun _ => ⟨rfl, rfl, rfl, rfl⟩)

/-! ## A signal is delivered -/

/-- The handler returns at once. -/
theorem handler_returns (h : ∀ i, ¬ m.Preempts i) : haddlePreemptiveScheduling m = some m := by
  unfold haddlePreemptiveScheduling
  cases hs : m.inScheduler with
  | true => rw [if_pos rfl]
  | false =>
    rw [if_neg Bool.false_ne_true]
    cases hc : m.currentId with
    | none => rfl
    | some i => exact if_neg (fun hi => h i ⟨hs, hc, hi⟩)

/-- The handler switches away, and stores the place that it interrupted. -/
theorem handler_switches {k : Cont} (h : m.Preempts i) (hk : m.mainCtx = some k) :
    haddlePreemptiveScheduling m =
      some (({ m.setState i .runnable with currentId := none }.setCtx i m.control).goto k) := by
  obtain ⟨hs, hc, hi⟩ := h
  unfold haddlePreemptiveScheduling
  rw [hs, if_neg Bool.false_ne_true, hc]
  simp only [if_pos hi, Machine.toMain]
  have hk' : ({ m.setState i .runnable with currentId := none }.setCtx i m.control).mainCtx = some k := hk
  rw [hk']

/-- Where the handler switches away outside the window of `coroutine_resume`, a coroutine has control. -/
theorem InLoop.not_preempts {pc : MainPc} (h : InLoop m pc) (hq : ∀ i, pc ≠ .resuming i .swap) : ¬ m.Preempts i := by
  rintro ⟨hs, hc, _⟩
  rw [h.sched] at hs
  rw [h.current] at hc
  cases pc with
  | spawning f rest spc => exact h.loop f rest spc rfl
  | resuming j rpc =>
    cases rpc with
    | swap => exact hq j rfl
    | enter => cases hc
    | _ => cases hs
  | _ => cases hs

/-- The handler switches away from a coroutine at places of its own where its slot is running. -/
theorem InCo.preempts {pc : CoPc} (h : InCo m i pc) (hp : m.Preempts j) : j = i ∧ pc.state = .running := by
  obtain ⟨_, hc, hj⟩ := hp
  rw [h.current] at hc
  have hji : j = i := by
    cases pc with
    | yielding id r ypc => cases ypc <;> cases hc <;> rfl
    | exit id => cases hc
    | _ => cases hc; rfl
  subst hji
  exact ⟨rfl, h.state.symm.trans hj⟩

/-- Where the handler switches away, it leaves the slot of the coroutine runnable, with the place interrupted, and goes to the
place in `coroutine_resume` that waits for it. -/
theorem InCo.signal {pc : CoPc} (h : InCo m i pc) (hctl : m.control = .co i pc) (hp : m.Preempts i) :
    ∃ m', haddlePreemptiveScheduling m = some m' ∧ m'.control = .main (.resuming i .enter) ∧
      InLoop m' (.resuming i .enter) ∧ (∀ j, j ≠ i → Untouched m m' j) ∧ m'.state i = .runnable ∧ m'.func i = m.func i ∧
      m'.ctx i = some (.co i pc) ∧ m'.tags i = m.tags i := by
  refine ⟨_, handler_switches hp h.main, rfl, inLoop_enter h.sched rfl, ?_, state_setState_self, rfl, ?_, rfl⟩
  · exact fun j hj => ⟨state_setState_of_ne hj, rfl, ctx_setCtx_of_ne hj, rfl⟩
  · rw [← hctl]
    exact ctx_setCtx_self

end CoroutineAux

end OsLab.Coroutine
