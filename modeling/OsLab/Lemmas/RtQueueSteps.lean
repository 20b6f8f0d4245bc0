import OsLab.Lemmas.RtQueueSave

/-!
# Operations on the queue

Each keeps the invariant: it opens a stack, takes it off, and closes it. Where the task stays on its list (`schedChange`), what is
taken off is what comes back.
-/

namespace OsLab.RtQueue

open Rq

variable {Q E : Type} {H : Hierarchy Q E} {s t : Rq Q E} {q : Q} {x : E} {flags : Flags}

/-- The entity of a group, if it has one, is the only one to see that the group is throttled. -/
theorem Hierarchy.eq_of_rtSe {e g : E} (hg : H.rtSe q = some g) (hmy : H.myQ e = some q) : e = g :=
  Option.some.inj (((H.rtSe_iff q e).2 hmy).symm.trans hg)

theorem Hierarchy.ne_root {g : E} (hg : H.rtSe q = some g) : H.root ≠ q := fun heq => by
  rw [(H.rtSe_root q).2 heq.symm] at hg
  cases hg

variable [DecidableEq Q] [Fintype E]

/-- What holds between two operations. -/
structure Inv (H : Hierarchy Q E) (s : Rq Q E) : Prop where
  pre : Pre H [] s
  top : Top H s
  queued : (s.rq H.root).rtQueued = true ↔ (s.rq H.root).throttled = false ∧ (s.rq H.root).rtNrRunning ≠ 0

/-- Only the flags of one queue change. -/
theorem Pre.setFlags {opened : List E} (h : Pre H opened s) (rtThrottled rtQueued : Bool)
    (hrq : t.rq = Function.update s.rq q { s.rq q with rtThrottled := rtThrottled, rtQueued := rtQueued }) (hse : t.se = s.se)
    (hwarned : t.warned = false) {opened' : List E} (hsub : ∀ e ∈ opened, e ∈ opened')
    (hgroup : ∀ e, e ∉ opened' → H.myQ e = some q →
      ((s.se e).onRq = true ↔ (t.rq q).throttled = false ∧ (s.rq q).rtNrRunning ≠ 0)) : Pre H opened' t := by
  have hself : t.rq q = { s.rq q with rtThrottled := rtThrottled, rtQueued := rtQueued } := by rw [hrq, Function.update_self]
  have hothers : ∀ q', q' ≠ q → t.rq q' = s.rq q' := fun q' hq' => by rw [hrq, Function.update_of_ne hq']
  have hview : ∀ e, view H t e = view H s e := fun e => by
    unfold view
    cases hmy : H.myQ e with
    | none => simp only [hse]
    | some q' =>
      by_cases hq' : q' = q
      · subst hq'
        simp only [hself]
      · simp only [hothers q' hq']
  have hon : ∀ q' e, On H t q' e ↔ On H s q' e := fun q' e => by
    unfold On
    rw [hse]
  refine ⟨fun q' => ?_, fun e => ?_, fun e q' he hmy => ?_, fun e hmy => ?_, hwarned⟩
  · by_cases hq' : q' = q
    · subst hq'
      exact (h.queues q').congr hself (hon q') fun e _ => hview e
    · exact (h.queues q').congr (hothers q' hq') (hon q') fun e _ => hview e
  · rw [hse]
    exact h.listed e
  · rw [hse]
    by_cases hq' : q' = q
    · subst hq'
      have hnr : (t.rq q').rtNrRunning = (s.rq q').rtNrRunning := by rw [hself]
      rw [hnr]
      exact hgroup e he hmy
    · rw [hothers q' hq']
      exact h.group e q' (fun hmem => he (hsub e hmem)) hmy
  · rw [hse]
    exact h.prio e hmy

/-- Any stack may be opened. -/
theorem Pre.opens (h : Pre H [] s) (opened : List E) : Pre H opened s :=
  ⟨h.queues, h.listed, fun e q _ => h.group e q List.not_mem_nil, h.prio, h.warned⟩

/-- The lists of a queue in another order. -/
theorem Inv.permute (h : Inv H s) (q : Q) {queue : Nat → List E} (hperm : ∀ p, (queue p).Perm ((s.rq q).queue p)) :
    Inv H (s.setRq q fun rq => { rq with queue := queue }) := by
  generalize ht : s.setRq q (fun rq => { rq with queue := queue }) = t
  have hself : t.rq q = { s.rq q with queue := queue } := by rw [← ht, setRq_self]
  have hothers : ∀ q', q' ≠ q → t.rq q' = s.rq q' := fun q' hq' => by rw [← ht, setRq_of_ne hq']
  have hse : t.se = s.se := by rw [← ht, setRq_se]
  have hcounts : ∀ q', t.rq q' = { s.rq q' with queue := (t.rq q').queue } := fun q' => by
    by_cases hq' : q' = q
    · subst hq'
      rw [hself]
    · rw [hothers q' hq']
  have hview : ∀ e, view H t e = view H s e := fun e => by
    unfold view
    cases hmy : H.myQ e with
    | none => simp only [hse]
    | some q' =>
      dsimp only
      rw [hcounts q']
  have hon : ∀ q' e, On H t q' e ↔ On H s q' e := fun q' e => by
    unfold On
    rw [hse]
  have hlocal : Local H t q := by
    have hold := h.pre.queues q
    refine ⟨fun p => ?_, fun p e => ?_, fun p => ?_, fun e he => ?_, ?_, ?_, ?_, fun e he => ?_, ?_, ?_⟩
    · rw [hself]
      exact (hperm p).nodup_iff.2 (hold.nodup p)
    · rw [hself, hon, hview, ← hold.mem]
      exact (hperm p).mem_iff
    · have hnil : (s.rq q).queue p = [] ↔ queue p = [] := by
        rw [← List.length_eq_zero_iff, ← List.length_eq_zero_iff, (hperm p).length_eq]
      rw [hself]
      exact (hold.bits p).trans (or_congr_left (not_congr hnil))
    · rw [hview]
      exact hold.range e ((hon q e).1 he)
    · rw [tally_congr (hon q) fun e _ => hview e, hself]
      exact hold.nr
    · rw [tally_congr (hon q) fun e _ => hview e, hself]
      exact hold.rr
    · rw [tally_congr (hon q) fun e _ => hview e, hself]
      exact hold.boosted
    · rw [hview, hself]
      exact hold.highest_le e ((hon q e).1 he)
    · rw [hself]
      intro hne
      obtain ⟨e, he, hprio⟩ := hold.highest_on hne
      exact ⟨e, (hon q e).2 he, (congrArg View.prio (hview e)).trans hprio⟩
    · rw [hself]
      exact hold.highest_none
  refine ⟨⟨fun q' => ?_, fun e => ?_, fun e q' he hmy => ?_, fun e hmy => ?_, ?_⟩, ⟨?_, ?_⟩, ?_⟩
  · by_cases hq' : q' = q
    · exact hq' ▸ hlocal
    · exact (h.pre.queues q').congr (hothers q' hq') (hon q') fun e _ => hview e
  · rw [hse]
    exact h.pre.listed e
  · rw [hse, hcounts q']
    exact h.pre.group e q' he hmy
  · rw [hse]
    exact h.pre.prio e hmy
  · rw [← ht]
    exact h.pre.warned
  · rw [hcounts H.root, ← ht]
    exact h.top.count
  · rw [hcounts H.root]
    exact h.top.some
  · rw [hcounts H.root]
    exact h.queued

/-! ## The top -/

/-- `dequeue_top_rt_rq` subtracts what was added. -/
theorem dequeueTop_pre {opened : List E} (h : Pre H opened s) (count : Nat)
    (htop : (s.rq H.root).rtQueued = true → s.nrRunning = count ∧ count ≠ 0)
    (hnone : (s.rq H.root).rtQueued = false → s.nrRunning = 0) :
    Pre H opened (dequeueTop H s count) ∧ (dequeueTop H s count).nrRunning = 0 ∧
      ((dequeueTop H s count).rq H.root).rtQueued = false ∧ (dequeueTop H s count).se = s.se ∧
      ((dequeueTop H s count).rq H.root).throttled = (s.rq H.root).throttled := by
  unfold dequeueTop
  split
  · rename_i hqueued
    have hqueued := Bool.eq_false_iff.2 hqueued
    exact ⟨h, hnone hqueued, hqueued, rfl, rfl⟩
  · rename_i hqueued
    obtain ⟨hcount, hne⟩ := htop (not_not.1 hqueued)
    refine ⟨h.setFlags (q := H.root) (s.rq H.root).rtThrottled false ?_ ?_ ?_ (fun _ he => he)
      fun e _ hmy => absurd hmy (H.myQ_ne_root e), ?_, ?_, rfl, ?_⟩
    · rfl
    · rfl
    · simp [h.warned, hcount, hne]
    · simp [hcount]
    · simp
    · simp [RtRq.throttled]

/-- `enqueue_top_rt_rq` closes the change: the count is that of the root queue. -/
theorem enqueueTop_inv (h : Pre H [] s) (htop : Top H s)
    (hqueued : (s.rq H.root).rtQueued = true → (s.rq H.root).throttled = false) : Inv H (enqueueTop H s) := by
  unfold enqueueTop
  split
  · rename_i hno
    refine ⟨h, htop, fun hq => ⟨hqueued hq, htop.some hq⟩, fun hopen => ?_⟩
    rcases hno with hq | hthrottled | hzero
    · exact hq
    · exact absurd (hopen.1.symm.trans hthrottled) Bool.false_ne_true
    · exact absurd hzero hopen.2
  · rename_i hgo
    obtain ⟨hq, hthrottled, hne⟩ : ¬(s.rq H.root).rtQueued = true ∧ ¬(s.rq H.root).throttled = true ∧
        (s.rq H.root).rtNrRunning ≠ 0 := by
      simpa only [not_or] using hgo
    refine ⟨h.setFlags (q := H.root) (s.rq H.root).rtThrottled true ?_ ?_ ?_ (fun _ he => he)
      fun e _ hmy => absurd hmy (H.myQ_ne_root e), ?_, ?_⟩
    · rfl
    · rfl
    · exact h.warned
    · have htop' := enqueueTop_top htop
      unfold enqueueTop at htop'
      rwa [if_neg hgo] at htop'
    · simp only [setRq_self]
      exact iff_of_true trivial ⟨Bool.eq_false_iff.2 hthrottled, hne⟩

/-- The root goes back. -/
theorem Inv.enqueueTop_topOff (h : Inv H s) : enqueueTop H (topOff H s) = s := by
  have hcount := h.top.count
  unfold enqueueTop
  rw [topOff_root]
  by_cases hqueued : (s.rq H.root).rtQueued = true
  · obtain ⟨hthrottled, hne⟩ := h.queued.1 hqueued
    rw [if_pos hqueued] at hcount
    rw [if_neg]
    · ext1
      · refine funext fun q => ?_
        by_cases hq : q = H.root
        · rw [hq]
          refine (Function.update_self ..).trans ?_
          rw [topOff_root, ← hqueued]
        · exact (Function.update_of_ne hq ..).trans (topOff_of_ne hq)
      · rfl
      · exact (Nat.zero_add _).trans hcount.symm
      · rfl
    · exact fun hno => hno.elim (fun hq => by cases hq) fun hno => hno.elim (Bool.eq_false_iff.1 hthrottled) hne
  · have hzero : s.nrRunning = 0 := hcount.trans (if_neg hqueued)
    rw [if_pos, topOff_eq_self hzero (Bool.eq_false_iff.2 hqueued)]
    by_contra hgo
    obtain ⟨-, hgo⟩ := not_or.1 hgo
    obtain ⟨hthrottled, hne⟩ := not_or.1 hgo
    exact hqueued (h.queued.2 ⟨Bool.eq_false_iff.2 hthrottled, hne⟩)

/-- `rt_throttled` of a queue changes. -/
theorem Inv.setThrottled (h : Inv H s) (q : Q) (rtThrottled : Bool) {opened : List E}
    (hgroup : ∀ e, e ∉ opened → H.myQ e = some q → ((s.se e).onRq = true ↔
      ({ s.rq q with rtThrottled := rtThrottled } : RtRq E).throttled = false ∧ (s.rq q).rtNrRunning ≠ 0)) :
    Pre H opened (s.setRq q fun rq => { rq with rtThrottled := rtThrottled }) ∧
      Top H (s.setRq q fun rq => { rq with rtThrottled := rtThrottled }) := by
  refine ⟨h.pre.setFlags (q := q) rtThrottled (s.rq q).rtQueued ?_ ?_ ?_
    (fun e he => absurd he List.not_mem_nil) fun e he hmy => ?_, ?_⟩
  · rfl
  · rfl
  · exact h.pre.warned
  · rw [setRq_self]
    exact hgroup e he hmy
  · by_cases hq : H.root = q
    · subst hq
      refine ⟨?_, ?_⟩
      · rw [setRq_self]
        exact h.top.count
      · rw [setRq_self]
        exact h.top.some
    · refine ⟨?_, ?_⟩
      · rw [setRq_of_ne hq]
        exact h.top.count
      · rw [setRq_of_ne hq]
        exact h.top.some

/-- The stack of the entity of a group is open. -/
theorem Inv.openGroup (h : Inv H s) {g : E} (hg : H.rtSe q = some g) (rtThrottled : Bool) :
    Pre H (H.stack g) (s.setRq q fun rq => { rq with rtThrottled := rtThrottled }) ∧
      Top H (s.setRq q fun rq => { rq with rtThrottled := rtThrottled }) :=
  h.setThrottled q rtThrottled fun _ he hmy => absurd (H.eq_of_rtSe hg hmy ▸ H.mem_stack_self g) he

/-- The entity of a group is as it should be without an operation. -/
theorem Inv.keepGroup (h : Inv H s) {g : E} (hg : H.rtSe q = some g) {rtThrottled : Bool}
    (hgroup : (s.se g).onRq = true ↔ ({ s.rq q with rtThrottled := rtThrottled } : RtRq E).throttled = false ∧
      (s.rq q).rtNrRunning ≠ 0) :
    Inv H (s.setRq q fun rq => { rq with rtThrottled := rtThrottled }) := by
  have hthrottle : Pre H [] (s.setRq q fun rq => { rq with rtThrottled := rtThrottled }) ∧
      Top H (s.setRq q fun rq => { rq with rtThrottled := rtThrottled }) :=
    h.setThrottled q rtThrottled fun e _ hmy => H.eq_of_rtSe hg hmy ▸ hgroup
  obtain ⟨hpre, htop⟩ := hthrottle
  refine ⟨hpre, htop, ?_⟩
  rw [setRq_of_ne (H.ne_root hg)]
  exact h.queued

/-- The root has no entity. -/
theorem Inv.setRoot (h : Inv H s) (rtThrottled : Bool) :
    Pre H [] (s.setRq H.root fun rq => { rq with rtThrottled := rtThrottled }) ∧
      Top H (s.setRq H.root fun rq => { rq with rtThrottled := rtThrottled }) :=
  h.setThrottled H.root rtThrottled fun e _ hmy => absurd hmy (H.myQ_ne_root e)

/-- The stack is closed, and the top is put back. -/
theorem Off.finish {g : Rq Q E → E → Rq Q E}
    (hstep : ∀ x rest s, Off H (x :: rest) s → Above H rest s x → x ∉ rest → Off H rest (g s x) ∧ Same s (g s x))
    (h : Off H (H.stack x) s) (hzero : s.nrRunning = 0) (hqueued : (s.rq H.root).rtQueued = false) :
    Inv H (enqueueTop H ((H.stack x).foldl g s)) := by
  obtain ⟨hoff, hsame⟩ := Off.close hstep x s h
  have hq := (hsame.queued H.root).trans hqueued
  refine enqueueTop_inv hoff.pre ⟨?_, fun hon => ?_⟩ fun hon => ?_
  · rw [hsame.nrRunning, hzero, hq]
    rfl
  · exact absurd (hq.symm.trans hon) Bool.false_ne_true
  · exact absurd (hq.symm.trans hon) Bool.false_ne_true

variable [DecidableEq E]

/-! ## Enqueue and dequeue -/

/-- After `dequeue_rt_stack`. -/
theorem dequeueRtStack_off (hmove : moveEntity flags = true) (h : Pre H (H.stack x) s) (htop : Top H s) :
    Off H (H.stack x) (dequeueRtStack H s x flags) ∧ (dequeueRtStack H s x flags).nrRunning = 0 ∧
      ((dequeueRtStack H s x flags).rq H.root).rtQueued = false := by
  obtain ⟨hpre, hsame, hse⟩ := h.takeOff hmove x (fun _ hy => hy) s
  unfold dequeueRtStack
  dsimp only
  generalize (H.stack x).reverse.foldl (fun s x => if (s.se x).onRq then dequeueEntity H s x flags else s) s = t at hpre hsame hse
  have hcount := htop.count
  obtain ⟨hpre', hzero, hqueued, hse', _⟩ := dequeueTop_pre hpre (s.rq H.root).rtNrRunning
    (fun hq => by
      rw [hsame.queued] at hq
      rw [if_pos hq] at hcount
      exact ⟨hsame.nrRunning.trans hcount, htop.some hq⟩)
    fun hq => by
      rw [hsame.queued] at hq
      rw [hq] at hcount
      exact hsame.nrRunning.trans hcount
  refine ⟨⟨hpre', fun e he => ?_⟩, hzero, hqueued⟩
  rw [hse', hse e, if_pos he]

/-- The stack is taken off, and put back with the entity. -/
theorem enqueueRtEntity_inv (hmove : moveEntity flags = true) (h : Pre H (H.stack x) s) (htop : Top H s) :
    Inv H (enqueueRtEntity H s x flags) := by
  obtain ⟨hoff, hzero, hqueued⟩ := dequeueRtStack_off hmove h htop
  exact hoff.finish (fun _ _ _ h habove hnot => h.enqueue hmove habove hnot) hzero hqueued

/-- The stack is taken off, and the groups that are not empty are put back. -/
theorem dequeueRtEntity_inv (hmove : moveEntity flags = true) (h : Pre H (H.stack x) s) (htop : Top H s) :
    Inv H (dequeueRtEntity H s x flags) := by
  obtain ⟨hoff, hzero, hqueued⟩ := dequeueRtStack_off hmove h htop
  exact hoff.finish (fun _ _ _ h habove hnot => h.putBack hmove habove hnot) hzero hqueued

/-! ## Throttling -/

/-- The group of a throttled queue is dequeued, or the whole queue does not count any more. -/
theorem throttle_inv (h : Inv H s) (q : Q) : Inv H (throttle H s q) := by
  unfold throttle
  dsimp only
  rw [setRq_self]
  cases hg : H.rtSe q with
  | none =>
    obtain rfl := (H.rtSe_root q).1 hg
    obtain ⟨hpre, htop⟩ := h.setRoot true
    split
    · rename_i hthrottled
      unfold schedRtRqDequeue
      rw [hg]
      dsimp only
      obtain ⟨hpre', hzero, hqueued, _, hsame⟩ := dequeueTop_pre hpre _
        (fun hq => ⟨htop.count.trans (if_pos hq), htop.some hq⟩) fun hq => htop.count.trans (if_neg (Bool.eq_false_iff.1 hq))
      refine ⟨hpre', ⟨?_, fun hq => ?_⟩, iff_of_false (Bool.eq_false_iff.1 hqueued) fun hopen => ?_⟩
      · rw [hzero, hqueued]
        rfl
      · exact absurd (hqueued.symm.trans hq) Bool.false_ne_true
      · rw [hsame, setRq_self, hthrottled] at hopen
        exact absurd hopen.1.symm Bool.false_ne_true
    · rename_i hthrottled
      refine ⟨hpre, htop, ?_⟩
      have hq := h.queued
      simp only [RtRq.throttled, Bool.true_and, setRq_self] at hthrottled hq ⊢
      simpa [Bool.eq_false_iff.2 hthrottled] using hq
  | some g =>
    split
    · rename_i hthrottled
      unfold schedRtRqDequeue
      rw [hg]
      dsimp only
      split
      · obtain ⟨hpre, htop⟩ := h.openGroup hg true
        exact dequeueRtEntity_inv rfl hpre htop
      · rename_i hoff
        refine h.keepGroup hg (iff_of_false hoff fun hopen => ?_)
        exact absurd (hopen.1.symm.trans hthrottled) Bool.false_ne_true
    · rename_i hthrottled
      refine h.keepGroup hg ?_
      have hgroup := h.pre.group g q List.not_mem_nil ((H.rtSe_iff q g).1 hg)
      simp only [RtRq.throttled, Bool.true_and] at hthrottled hgroup ⊢
      simpa [Bool.eq_false_iff.2 hthrottled] using hgroup

/-- The group is enqueued if its queue has anybody. -/
theorem unthrottle_inv (h : Inv H s) (q : Q) : Inv H (unthrottle H s q) := by
  have hopen : ({ s.rq q with rtThrottled := false } : RtRq E).throttled = false := rfl
  unfold unthrottle schedRtRqEnqueue
  rw [setRq_self]
  cases hg : H.rtSe q with
  | none =>
    obtain rfl := (H.rtSe_root q).1 hg
    obtain ⟨hpre, htop⟩ := h.setRoot false
    dsimp only
    split
    · rename_i hzero
      refine ⟨hpre, htop, ?_⟩
      rw [setRq_self]
      exact iff_of_false (fun hq => htop.some (by rw [setRq_self]; exact hq) (by rw [setRq_self]; exact hzero))
        fun hne => hne.2 hzero
    · refine enqueueTop_inv hpre htop fun _ => ?_
      rw [setRq_self]
      exact hopen
  | some g =>
    have hgroup := h.pre.group g q List.not_mem_nil ((H.rtSe_iff q g).1 hg)
    dsimp only
    split
    · rename_i hzero
      exact h.keepGroup hg (iff_of_false (fun hon => (hgroup.1 hon).2 hzero) fun hne => hne.2 hzero)
    · rename_i hne
      split
      · rename_i hon
        exact h.keepGroup hg (iff_of_true hon ⟨hopen, hne⟩)
      · obtain ⟨hpre, htop⟩ := h.openGroup hg false
        exact enqueueRtEntity_inv rfl hpre htop

/-! ## Priorities and places -/

/-- The priority of a task that is not queued changes. -/
theorem setPrio_inv (h : Inv H s) (hoff : (s.se x).onRq = false) {f : RtSe → RtSe}
    (hf : (f (s.se x)).onRq = false ∧ (f (s.se x)).onList = (s.se x).onList ∧ (f (s.se x)).prio < maxRtPrio) :
    Inv H (s.setSe x f) := by
  have hse : ∀ e, ((s.setSe x f).se e).onRq = (s.se e).onRq := fun e => by
    by_cases he : e = x
    · subst he
      rw [setSe_self, hf.1, hoff]
    · rw [setSe_of_ne he]
  have hview : ∀ q e, On H s q e → view H (s.setSe x f) e = view H s e := fun q e hon => by
    have he : e ≠ x := fun heq => absurd (hoff.symm.trans (heq ▸ hon.2)) Bool.false_ne_true
    unfold view
    rw [setSe_of_ne he]
    rfl
  refine ⟨⟨fun q => (h.pre.queues q).congr rfl (fun e => ?_) (hview q), fun e => ?_, fun e q he hmy => ?_, fun e hmy => ?_,
    h.pre.warned⟩, ⟨h.top.count, h.top.some⟩, h.queued⟩
  · unfold On
    rw [hse]
  · by_cases he : e = x
    · subst he
      rw [setSe_self, hf.2.1, hf.1, h.pre.listed, hoff]
    · rw [setSe_of_ne he]
      exact h.pre.listed e
  · rw [hse]
    exact h.pre.group e q he hmy
  · by_cases he : e = x
    · subst he
      rw [setSe_self]
      exact hf.2.2
    · rw [setSe_of_ne he]
      exact h.pre.prio e hmy

/-- An entity goes to an end of its list. -/
theorem requeueEntity_inv (h : Inv H s) (head : Bool) (x : E) : Inv H (requeueEntity H head s x) := by
  unfold requeueEntity
  split
  · exact h
  · rename_i hon
    have hself : On H s (H.rtRq x) x := ⟨rfl, not_not.1 hon⟩
    have hlocal := h.pre.queues (H.rtRq x)
    generalize hprio : (view H s x).prio = prio
    have hperm : ∀ p, (Function.update (fun p => ((s.rq (H.rtRq x)).queue p).erase x) prio
        (if head then x :: ((s.rq (H.rtRq x)).queue prio).erase x else ((s.rq (H.rtRq x)).queue prio).erase x ++ [x]) p).Perm
        ((s.rq (H.rtRq x)).queue p) := fun p => by
      by_cases hp : p = prio
      · subst hp
        have hmem : x ∈ (s.rq (H.rtRq x)).queue p := (hlocal.mem p x).2 ⟨hself, hprio⟩
        rw [Function.update_self]
        split
        · exact (List.perm_cons_erase hmem).symm
        · exact (List.perm_append_singleton x _).trans (List.perm_cons_erase hmem).symm
      · have hnot : x ∉ (s.rq (H.rtRq x)).queue p := fun hmem => hp (((hlocal.mem p x).1 hmem).2.symm.trans hprio)
        rw [Function.update_of_ne hp, List.erase_of_not_mem hnot]
    exact h.permute (H.rtRq x) hperm

/-- The order on a list does not matter to the books. -/
theorem requeueTask_inv (h : Inv H s) (x : E) (head : Bool) : Inv H (requeueTask H s x head) := by
  unfold requeueTask
  induction H.stack x generalizing s with
  | nil => exact h
  | cons e l ih => exact ih (requeueEntity_inv h head e)

/-! ## Saved and restored -/

/-- `sched_change` with `DEQUEUE_SAVE` alone changes nothing. -/
theorem Inv.schedChange_eq_self (h : Inv H s) (htask : H.myQ x = none) (hon : (s.se x).onRq = true) (hsteady : Steady H s x) :
    schedChange H s x = s := by
  have hstay : moveEntity saveOnly = false := rfl
  have hpre : Pre H [] (topOff H s) := h.pre.setFlags (q := H.root) (t := topOff H s) (s.rq H.root).rtThrottled false rfl rfl
    h.pre.warned (fun _ he => he) fun e _ hmy => absurd hmy (H.myQ_ne_root e)
  have hsteady' : Steady H (topOff H s) x := fun y hy q hq => by
    rw [topOff_of_ne fun heq : q = H.root => H.myQ_ne_root y (heq ▸ hq)]
    exact hsteady y hy q hq
  -- the dequeue takes the stack off, and puts groups back, which the enqueue takes off again
  have hoff : dequeueRtStack H s x saveOnly = takeOff H saveOnly (topOff H s) x := dequeueRtStack_stay hstay h.top
  have hlow := takeOff_lowered hstay hpre x
  have hmid : Mid H (topOff H s) x (takeOff H saveOnly (topOff H s) x) :=
    ⟨hlow.rq, hlow.se, fun q hq => absurd (htask.symm.trans hq) (Option.some_ne_none q).symm⟩
  have hback := takeOff_putBack hstay hpre x hsteady' _ hmid
  have hsame := (takeOff_same hstay).trans (foldl_putBack_same (H := H) (s := takeOff H saveOnly (topOff H s) x) hstay (H.stack x))
  generalize ht : (H.stack x).foldl (putBack H saveOnly) (takeOff H saveOnly (topOff H s) x) = t at hback hsame
  have hzero : t.nrRunning = 0 := hsame.nrRunning
  have hqueued : (t.rq H.root).rtQueued = false := (hsame.queued _).trans (congrArg RtRq.rtQueued topOff_root)
  have htop : Top H t := ⟨by rw [hzero, hqueued]; rfl, fun hq => absurd (hqueued.symm.trans hq) Bool.false_ne_true⟩
  have hagain : dequeueRtStack H (enqueueTop H t) x saveOnly = takeOff H saveOnly (topOff H s) x := by
    rw [dequeueRtStack_stay hstay (enqueueTop_top htop), topOff_enqueueTop, topOff_eq_self hzero hqueued, hback]
  unfold schedChange enqueueRtEntity dequeueRtEntity
  rw [hoff, ht, hagain, restore_takeOff hstay hpre x fun _ => hon, h.enqueueTop_topOff]

/-! ## Runs -/

/-- Every operation keeps the invariant. -/
theorem next_inv (h : Inv H s) (act : Act Q E) (hsteady : ∀ e, act = .schedChange e → Steady H s e) : Inv H (next H s act) := by
  cases act with
  | enqueueTask e flags =>
    unfold next
    dsimp only
    split
    · rename_i hact
      exact enqueueRtEntity_inv hact.2.2 (h.pre.opens _) h.top
    · exact h
  | dequeueTask e flags =>
    unfold next
    dsimp only
    split
    · rename_i hact
      exact dequeueRtEntity_inv hact.2.2 (h.pre.opens _) h.top
    · exact h
  | schedChange e =>
    unfold next
    dsimp only
    split
    · rename_i hact
      rw [h.schedChange_eq_self hact.1 hact.2 (hsteady e rfl)]
      exact h
    · exact h
  | requeueTask e head =>
    unfold next
    dsimp only
    split
    · exact requeueTask_inv h e head
    · exact h
  | setPrio e prio normalPrio isRr =>
    unfold next
    dsimp only
    split
    · rename_i hact
      have hoff := Bool.eq_false_iff.2 hact.2.1
      exact setPrio_inv h hoff ⟨hoff, rfl, hact.2.2⟩
    · exact h
  | throttle q => exact throttle_inv h q
  | unthrottle q => exact unthrottle_inv h q

/-- A steady run keeps the invariant. -/
theorem run_inv (h : Inv H s) (acts : List (Act Q E)) (hsteady : SteadyRun H s acts) : Inv H (run H s acts) := by
  induction acts generalizing s with
  | nil => exact h
  | cons act acts ih => exact ih (next_inv h act hsteady.1) hsteady.2

end OsLab.RtQueue
