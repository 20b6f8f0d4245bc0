import OsLab.Lemmas.BandwidthInv

/-!
# A pass of `distribute_cfs_runtime`

Nobody else acts during the pass. It goes over the throttled `cfs_rq`s in the order of the list and gives each as much as it lacks;
who gets less than that has emptied the pool, and the rest of the list gets nothing.
-/

namespace OsLab.Bandwidth

open TaskGroup

variable {n slice : Nat} {s t : TaskGroup n} {cpu thisCpu : Fin n}

/-- Throttled, and nobody is about to unthrottle it. -/
def Waiting (s : TaskGroup n) (cpu : Fin n) : Prop := (s.rq cpu).throttled = true ∧ (s.rq cpu).csd = .none

instance (s : TaskGroup n) (cpu : Fin n) : Decidable (Waiting s cpu) := inferInstanceAs (Decidable (_ ∧ _))

/-- What the other CPU finds on its list. -/
theorem async_spec (hne : cpu ≠ thisCpu) (hthrottled : (s.rq cpu).throttled = true) (hpos : 0 < (s.rq cpu).runtimeRemaining)
    (hcsd : (s.rq cpu).csd = .none) :
    unthrottleCfsRqAsync thisCpu s cpu = s.set cpu fun rq => { rq with csd := .queued } := by
  have hwrong : (!(s.rq cpu).throttled || decide ((s.rq cpu).runtimeRemaining ≤ 0)) = false := by
    rw [hthrottled, decide_eq_false (not_le.2 hpos)]
    rfl
  have hqueued : decide ((s.rq cpu).csd ≠ .none) = false := decide_eq_false (not_not.2 hcsd)
  unfold unthrottleCfsRqAsync
  simp only [hwrong, warn_false, hqueued, Bool.false_eq_true, if_false, if_neg hne]

/-- What a round does to a `cfs_rq` that waits: it gets what it lacks, or all there is. -/
structure Round (thisCpu cpu : Fin n) (s : TaskGroup n) (throttled : Bool) (r : TaskGroup n × Nat × Bool) : Prop where
  remaining : r.2.1 = r.1.b.runtime
  others : ∀ c, c ≠ cpu → r.1.rq c = s.rq c
  served : (r.2.2 = throttled ∧ (r.1.rq cpu).runtimeRemaining = 1 ∧ (r.1.rq cpu).csd ≠ .none ∧
      ((r.1.rq cpu).csd = .onStack → cpu = thisCpu)) ∨
    (r.2.2 = true ∧ r.1.b.runtime = 0 ∧ Waiting r.1 cpu)

/-- One round of the loop of `distribute_cfs_runtime`, at a queue that waits. -/
theorem distributeOne_round (h : Inv s) (hwaiting : Waiting s cpu) (remaining : Nat) (throttled : Bool) :
    Round thisCpu cpu s throttled (distributeOne thisCpu cpu s remaining throttled) := by
  obtain ⟨hthrottled, hcsd⟩ := hwaiting
  have hspent := h.spent cpu (Option.some_ne_none cpu).symm hthrottled hcsd
  have hskip : ¬(¬(s.rq cpu).throttled = true ∨ (s.rq cpu).csd ≠ .none) := by simp [hthrottled, hcsd]
  unfold distributeOne
  rw [if_neg hskip, decide_eq_false (not_lt.2 hspent), warn_false]
  dsimp only
  generalize hruntime : min (1 - (s.rq cpu).runtimeRemaining).toNat s.b.runtime = runtime
  generalize hgiven : (s.setB fun b => { b with runtime := b.runtime - runtime }).set cpu (fun rq =>
    { rq with runtimeRemaining := rq.runtimeRemaining + runtime }) = s₂
  have hself : s₂.rq cpu = { s.rq cpu with runtimeRemaining := (s.rq cpu).runtimeRemaining + runtime } := by
    rw [← hgiven, set_self, setB_rq]
  have hothers : ∀ c, c ≠ cpu → s₂.rq c = s.rq c := fun c hc => by rw [← hgiven, set_of_ne hc, setB_rq]
  have hpool : s₂.b.runtime = s.b.runtime - runtime := by rw [← hgiven, set_b, setB_b]
  have hthrottled₂ : (s₂.rq cpu).throttled = true := by rw [hself]; exact hthrottled
  have hcsd₂ : (s₂.rq cpu).csd = .none := by rw [hself]; exact hcsd
  have hremaining₂ : (s₂.rq cpu).runtimeRemaining = (s.rq cpu).runtimeRemaining + runtime := by rw [hself]
  split
  · rename_i hpos
    have hone : (s₂.rq cpu).runtimeRemaining = 1 := by omega
    split
    · rename_i hother
      rw [async_spec hother hthrottled₂ hpos hcsd₂]
      refine ⟨hpool.symm, fun c hc => ?_, Or.inl ⟨rfl, ?_, ?_, ?_⟩⟩
      · rw [set_of_ne hc, hothers c hc]
      · simpa using hone
      · simp
      · simp
    · rename_i hown
      obtain rfl := not_not.1 hown
      refine ⟨hpool.symm, fun c hc => ?_, Or.inl ⟨rfl, ?_, ?_, fun _ => rfl⟩⟩
      · dsimp only
        rw [set_of_ne hc, warn_rq, hothers c hc]
      · simpa using hone
      · simp
  · rename_i hnot
    have hall : runtime = s.b.runtime := by omega
    refine ⟨hpool.symm, hothers, Or.inr ⟨rfl, ?_, hthrottled₂, hcsd₂⟩⟩
    exact hpool.trans (Nat.sub_eq_zero_of_le hall.ge)

/-- One that does not wait is passed over. -/
theorem distributeOne_skip (hnot : ¬Waiting s cpu) (remaining : Nat) (throttled : Bool) :
    distributeOne thisCpu cpu s remaining throttled = (s, remaining, throttled) := by
  unfold distributeOne
  exact if_pos (not_and_or.1 hnot)

/-! ## The loop -/

/-- What the loop over `l` does. -/
structure Pass (thisCpu : Fin n) (l : List (Fin n)) (s t : TaskGroup n) (throttled : Bool) : Prop where
  inv : Inv t
  pool : throttled = true → t.b.runtime = 0
  none : throttled = false → ∀ cpu ∈ l, ¬Waiting t cpu
  outside : ∀ cpu, cpu ∉ l → t.rq cpu = s.rq cpu
  exact : ∀ cpu, t.rq cpu = s.rq cpu ∨ Waiting t cpu ∨
    (t.rq cpu).runtimeRemaining = 1 ∧ (t.rq cpu).csd ≠ .none ∧ ((t.rq cpu).csd = .onStack → cpu = thisCpu)
  fifo : l.Pairwise fun earlier later => t.rq later ≠ s.rq later → ¬Waiting t earlier

/-- The loop stops when nothing is left. -/
theorem distributeLoop_zero (thisCpu : Fin n) (l : List (Fin n)) (s : TaskGroup n) :
    distributeLoop thisCpu l s 0 true = (s, true) := by
  cases l with
  | nil => rfl
  | cons c l => exact if_pos rfl

/-- The loop does nothing more once the pool is empty. -/
theorem Pass.stopped (h : Inv s) (hpool : s.b.runtime = 0) (l : List (Fin n)) : Pass thisCpu l s s true where
  inv := h
  pool _ := hpool
  none hfalse := absurd hfalse.symm Bool.false_ne_true
  outside _ _ := rfl
  exact _ := Or.inl rfl
  fifo := List.pairwise_of_forall fun _ _ hne => absurd rfl hne

/-- The first is passed over. -/
theorem Pass.skip {l : List (Fin n)} {throttled : Bool} (hnot : ¬Waiting s cpu) (hnotin : cpu ∉ l)
    (h : Pass thisCpu l s t throttled) : Pass thisCpu (cpu :: l) s t throttled := by
  have hnot : ¬Waiting t cpu := by
    unfold Waiting
    rw [h.outside cpu hnotin]
    exact hnot
  refine ⟨h.inv, h.pool, fun hfalse => ?_, fun c hc => ?_, h.exact, ?_⟩
  · exact List.forall_mem_cons.2 ⟨hnot, h.none hfalse⟩
  · exact h.outside c fun hl => hc (List.mem_cons_of_mem cpu hl)
  · exact List.pairwise_cons.2 ⟨fun _ _ _ => hnot, h.fifo⟩

/-- The first is served. -/
theorem Pass.served {l : List (Fin n)} {throttled : Bool} {s₁ : TaskGroup n} (hothers : ∀ c, c ≠ cpu → s₁.rq c = s.rq c)
    (hone : (s₁.rq cpu).runtimeRemaining = 1 ∧ (s₁.rq cpu).csd ≠ .none ∧ ((s₁.rq cpu).csd = .onStack → cpu = thisCpu))
    (hnotin : cpu ∉ l) (h : Pass thisCpu l s₁ t throttled) : Pass thisCpu (cpu :: l) s t throttled := by
  have hcpu : t.rq cpu = s₁.rq cpu := h.outside cpu hnotin
  have hnot : ¬Waiting t cpu := fun hw => hone.2.1 (hcpu ▸ hw.2)
  have hne : ∀ c ∈ l, c ≠ cpu := fun c hc he => hnotin (he ▸ hc)
  refine ⟨h.inv, h.pool, fun hfalse => ?_, fun c hc => ?_, fun c => ?_, ?_⟩
  · exact List.forall_mem_cons.2 ⟨hnot, h.none hfalse⟩
  · obtain ⟨hc, hl⟩ := not_or.1 (mt List.mem_cons.2 hc)
    exact (h.outside c hl).trans (hothers c hc)
  · by_cases hc : c = cpu
    · subst hc
      rw [hcpu]
      exact Or.inr (Or.inr hone)
    · rw [← hothers c hc]
      exact h.exact c
  · refine List.pairwise_cons.2 ⟨fun _ _ _ => hnot, h.fifo.imp_of_mem fun _ hd hnot hchanged => hnot ?_⟩
    rw [hothers _ (hne _ hd)]
    exact hchanged

/-- The first gets all there is. -/
theorem Pass.starved {l : List (Fin n)} (hinv : Inv t) (hothers : ∀ c, c ≠ cpu → t.rq c = s.rq c) (hpool : t.b.runtime = 0)
    (hwaiting : Waiting t cpu) (hnotin : cpu ∉ l) : Pass thisCpu (cpu :: l) s t true := by
  have hne : ∀ c ∈ l, c ≠ cpu := fun c hc he => hnotin (he ▸ hc)
  refine ⟨hinv, fun _ => hpool, fun hfalse => absurd hfalse.symm Bool.false_ne_true, fun c hc => ?_, fun c => ?_, ?_⟩
  · exact hothers c (not_or.1 (mt List.mem_cons.2 hc)).1
  · by_cases hc : c = cpu
    · exact Or.inr (Or.inl (hc ▸ hwaiting))
    · exact Or.inl (hothers c hc)
  · refine List.pairwise_cons.2 ⟨fun c hc hchanged => absurd (hothers c (hne c hc)) hchanged, ?_⟩
    exact (List.pairwise_of_forall_mem_list fun _ _ d hd hchanged => absurd (hothers d (hne d hd)) hchanged)

/-- The loop, from any round on: what `remaining` and `throttled` say of the pool is so. -/
theorem distributeLoop_pass {l : List (Fin n)} (hnodup : l.Nodup) (h : Inv s) {remaining : Nat} {throttled : Bool}
    (hremaining : remaining = 0 → s.b.runtime = 0) (hthrottled : throttled = true → remaining = 0) :
    Pass thisCpu l s (distributeLoop thisCpu l s remaining throttled).1 (distributeLoop thisCpu l s remaining throttled).2 := by
  induction l generalizing s remaining throttled with
  | nil =>
    refine ⟨h, fun ht => hremaining (hthrottled ht), fun _ _ hc => ?_, fun _ _ => rfl, fun _ => Or.inl rfl, List.Pairwise.nil⟩
    cases hc
  | cons cpu l ih =>
    obtain ⟨hnotin, hnodup⟩ := List.nodup_cons.1 hnodup
    unfold distributeLoop
    by_cases hzero : remaining = 0
    · rw [if_pos hzero]
      exact Pass.stopped h (hremaining hzero) _
    · rw [if_neg hzero]
      by_cases hwaiting : Waiting s cpu
      · have hround : Round thisCpu cpu s throttled _ := distributeOne_round h hwaiting remaining throttled
        have hinv : Inv (distributeOne thisCpu cpu s remaining throttled).1 := distributeOne_inv h remaining throttled
        generalize distributeOne thisCpu cpu s remaining throttled = r at hround hinv
        obtain ⟨s₁, remaining₁, throttled₁⟩ := r
        dsimp only at hround hinv ⊢
        rcases hround.served with ⟨hsame, hone⟩ | ⟨htrue, hpool, hwaits⟩
        · refine Pass.served hround.others hone hnotin (ih hnodup hinv (fun hz => hround.remaining.symm.trans hz) fun ht => ?_)
          exact absurd (hthrottled (hsame.symm.trans ht)) hzero
        · obtain rfl : throttled₁ = true := htrue
          obtain rfl : remaining₁ = 0 := hround.remaining.trans hpool
          rw [distributeLoop_zero]
          exact Pass.starved hinv hround.others hpool hwaits hnotin
      · rw [distributeOne_skip hwaiting]
        exact Pass.skip hwaiting hnotin (ih hnodup h hremaining hthrottled)

/-! ## The local list -/

/-- What the second loop does: only the `cfs_rq` of the own CPU can be on the list, and it is unthrottled. -/
structure Finished (s t : TaskGroup n) : Prop where
  inv : Inv t
  pool : t.b.runtime = s.b.runtime
  rq : ∀ cpu, t.rq cpu = s.rq cpu ∨
    (s.rq cpu).csd = .onStack ∧ (t.rq cpu).runtimeRemaining = (s.rq cpu).runtimeRemaining ∧ (t.rq cpu).throttled = false

/-- A queue that has runtime is unthrottled; only it changes. -/
theorem unthrottle_spec (hpos : 0 < (s.rq cpu).runtimeRemaining) : (unthrottleCfsRq s cpu).b.runtime = s.b.runtime ∧
    (unthrottleCfsRq s cpu).rq = (s.set cpu fun rq => { rq with throttled := false, throttledClock := 0 }).rq := by
  unfold unthrottleCfsRq
  rw [if_neg fun hspent => absurd hspent.2 (not_le.2 hpos)]
  exact ⟨rfl, rfl⟩

/-- The queue put on the list of this CPU is unthrottled after the loop. -/
theorem unthrottleLocal_finished (h : Inv s) (hcsd : (s.rq thisCpu).csd = .onStack) (hpos : 0 < (s.rq thisCpu).runtimeRemaining) :
    Finished s (unthrottleLocal thisCpu s) := by
  have hlocal := h.locals thisCpu
  rw [if_pos hcsd] at hlocal
  suffices hframe : (unthrottleLocal thisCpu s).b.runtime = s.b.runtime ∧ ∀ cpu, (unthrottleLocal thisCpu s).rq cpu = s.rq cpu ∨
      (s.rq cpu).csd = .onStack ∧ ((unthrottleLocal thisCpu s).rq cpu).runtimeRemaining = (s.rq cpu).runtimeRemaining ∧
        ((unthrottleLocal thisCpu s).rq cpu).throttled = false from ⟨unthrottleLocal_inv h, hframe.1, hframe.2⟩
  unfold unthrottleLocal takeOff
  rw [hlocal]
  dsimp only
  generalize hoff : TaskGroup.set { s with localUnthrottle := Function.update s.localUnthrottle thisCpu [] } thisCpu
    (fun rq => { rq with csd := .none }) = s₁
  have hself : s₁.rq thisCpu = { s.rq thisCpu with csd := .none } := by rw [← hoff, set_self]
  have hothers : ∀ c, c ≠ thisCpu → s₁.rq c = s.rq c := fun c hc => by rw [← hoff, set_of_ne hc]
  have hpool : s₁.b.runtime = s.b.runtime := by rw [← hoff, set_b]
  have hpos₁ : 0 < (s₁.rq thisCpu).runtimeRemaining := by rw [hself]; exact hpos
  split
  · obtain ⟨hsame, hrq⟩ := unthrottle_spec hpos₁
    refine ⟨hsame.trans hpool, fun c => ?_⟩
    rw [hrq]
    by_cases hc : c = thisCpu
    · subst hc
      rw [set_self, hself]
      exact Or.inr ⟨hcsd, rfl, rfl⟩
    · rw [set_of_ne hc]
      exact Or.inl (hothers c hc)
  · rename_i hfalse
    refine ⟨hpool, fun c => ?_⟩
    by_cases hc : c = thisCpu
    · subst hc
      refine Or.inr ⟨hcsd, ?_, Bool.eq_false_iff.2 hfalse⟩
      rw [hself]
    · exact Or.inl (hothers c hc)

/-- So is every queue on that list, of which there is at most one. -/
theorem finishLocal_finished (h : Inv s) (hpos : (s.rq thisCpu).csd = .onStack → 0 < (s.rq thisCpu).runtimeRemaining) :
    Finished s ((s.localUnthrottle thisCpu).foldl (fun s _ => unthrottleLocal thisCpu s) s) := by
  rw [h.locals thisCpu]
  split
  · rename_i hcsd
    exact unthrottleLocal_finished h hcsd (hpos hcsd)
  · exact ⟨h, rfl, fun _ => Or.inl rfl⟩

/-- The second loop changes nothing for the queues that wait. -/
theorem Finished.waiting_iff (h : Finished s t) (cpu : Fin n) : Waiting t cpu ↔ Waiting s cpu := by
  unfold Waiting
  rcases h.rq cpu with he | ⟨hstack, _, hfalse⟩
  · rw [he]
  · rw [hfalse, hstack]
    simp

/-- The second loop hands out no runtime. -/
theorem Finished.remaining (h : Finished s t) (cpu : Fin n) : (t.rq cpu).runtimeRemaining = (s.rq cpu).runtimeRemaining := by
  rcases h.rq cpu with he | ⟨_, hsame, _⟩
  · rw [he]
  · exact hsame

/-! ## The pass -/

/-- What a pass does to a group whose list it goes over. -/
structure Distributed (s : TaskGroup n) (r : TaskGroup n × Bool) : Prop where
  pool : r.2 = true → r.1.b.runtime = 0
  none : r.2 = false → ∀ cpu, ¬Waiting r.1 cpu
  fifo : s.b.throttledCfsRq.Pairwise fun earlier later =>
    (r.1.rq later).runtimeRemaining ≠ (s.rq later).runtimeRemaining → ¬Waiting r.1 earlier
  exact : ∀ cpu, Waiting s cpu → ¬Waiting r.1 cpu → (r.1.rq cpu).runtimeRemaining = 1

/-- From both loops. -/
theorem Pass.distributed {u : TaskGroup n} {throttled : Bool} (h : Inv s) (hpass : Pass thisCpu s.b.throttledCfsRq s t throttled)
    (hend : Finished t u) : Distributed s (u, throttled) := by
  refine ⟨fun ht => hend.pool.trans (hpass.pool ht), fun hf cpu hw => ?_, ?_, fun cpu hw hnot => ?_⟩
  · have hw := (hend.waiting_iff cpu).1 hw
    by_cases hmem : cpu ∈ s.b.throttledCfsRq
    · exact hpass.none hf cpu hmem hw
    · refine hmem ((h.listed cpu).2 ?_)
      rw [← hpass.outside cpu hmem]
      exact hw.1
  · refine hpass.fifo.imp fun {earlier later} hnot hchanged hw => ?_
    refine hnot (fun he => hchanged ?_) ((hend.waiting_iff earlier).1 hw)
    rw [hend.remaining later, he]
  · rw [hend.remaining cpu]
    have hnot := mt (hend.waiting_iff cpu).2 hnot
    rcases hpass.exact cpu with he | hw' | hone
    · refine absurd ?_ hnot
      unfold Waiting
      rw [he]
      exact hw
    · exact absurd hw' hnot
    · exact hone.1

/-- `distribute_cfs_runtime` as a whole: one pass over the queues that wait, and then the queue of this CPU. -/
theorem distribute_pass (h : Inv s) (hlocal : s.localUnthrottle thisCpu = []) : Distributed s (distributeCfsRuntime thisCpu s) := by
  have hpass : Pass thisCpu s.b.throttledCfsRq s (distributeLoop thisCpu s.b.throttledCfsRq s 1 false).1 _ :=
    distributeLoop_pass h.nodup h (fun hzero => by cases hzero) (fun hfalse => by cases hfalse)
  have hnotStack : (s.rq thisCpu).csd ≠ .onStack := fun hstack => by
    have hone := h.locals thisCpu
    rw [hlocal, if_pos hstack] at hone
    cases hone
  unfold distributeCfsRuntime
  dsimp only
  refine hpass.distributed h (finishLocal_finished hpass.inv fun hstack => ?_)
  rcases hpass.exact thisCpu with he | hw | hone
  · exact absurd (he ▸ hstack) hnotStack
  · rw [hw.2] at hstack
    cases hstack
  · omega

end OsLab.Bandwidth
