import OsLab.Lemmas.EevdfLag

/-!
# The fair run queue

Along every run the tree, the counters and the sums agree with who is on the queue (`cfs_rq_books`). As long as the virtual times
stay close together, `pick_eevdf` always finds somebody, and the earliest deadline among those eligible (`pick_earliest_eligible`);
`avg_vruntime` tells the eligible entities from the others (`eligible_iff_not_after_average`); and the two operations that move an
entity on purpose keep the lag it has, but for rounding (`enqueue_keeps_lag`, `reweight_keeps_keys`).
-/

namespace OsLab.Fair

variable {cfg : Config} {env : Env} {se : Nat → SchedEntity} {zero : U64} {acts : List Act} {rq rq' : CfsRq} {r : Nat}

/-! ## A run to look at -/

/-- Entities of the default weight that are on no queue, with a lag. -/
def freshEntities (vlag : U64) : Nat → SchedEntity := fun _ =>
  { weight := nice0Load, vruntime := 0, deadline := 0, minVruntime := 0, slice := 0, vlag := vlag, vprot := 0, onRq := false,
    schedDelayed := false, relDeadline := false, customSlice := false }

/-- A machine with `PLACE_LAG` and no other optional feature. -/
def plainConfig : Config :=
  { paranoidAvg := false, placeLag := true, placeDeadlineInitial := false, placeRelDeadline := false, runToParity := false,
    delayDequeue := false, delayZero := false, pickBuddy := false, baseSlice := 700000, normalizedBaseSlice := 700000,
    tickNsec := 1000000 }

/-- A tree that leans to the right, and a millisecond that has passed. -/
def plainEnv : Env :=
  { shape := SearchTree.ofList, inorder_shape := SearchTree.inorder_ofList, deltaExec := 1000000, minSlice := 700000,
    maxSlice := 700000 }

/-- One entity has come, -/
def oneQueued (vlag : U64) : CfsRq :=
  (enqueueEntity plainConfig plainEnv (initCfsRq (freshEntities vlag) 0) 0 false).getD (initCfsRq (freshEntities vlag) 0)

/-- it runs, -/
def oneRuns (vlag : U64) : CfsRq := setNextEntity plainConfig plainEnv (oneQueued vlag) 0 true

/-- and another one comes a millisecond later. -/
def twoQueued (vlag : U64) : CfsRq := (enqueueEntity plainConfig plainEnv (oneRuns vlag) 1 false).getD (oneRuns vlag)

/-- None of them is on a queue. -/
theorem freshEntities_off (vlag : U64) (r : Nat) : (freshEntities vlag r).onRq = false := rfl

/-- The first comes and is picked. -/
theorem run_one (vlag : U64) : Run (Step plainConfig) (initCfsRq (freshEntities vlag) 0)
    [.enqueue plainEnv 0 false, .setNext plainEnv 0 true] (oneRuns vlag) :=
  ((Run.nil _).snoc (.enqueue rfl rfl)).snoc (.setNext rfl)

/-- The second comes. -/
theorem run_two (vlag : U64) : Run (Step plainConfig) (initCfsRq (freshEntities vlag) 0)
    [.enqueue plainEnv 0 false, .setNext plainEnv 0 true, .enqueue plainEnv 1 false] (twoQueued vlag) :=
  (run_one vlag).snoc (.enqueue rfl rfl)

/-! ## The books -/

/-- The books hold along every run from the empty queue. -/
theorem books_of_run (hse : ∀ r, (se r).onRq = false) (hrun : Run (Step cfg) (initCfsRq se zero) acts rq) : Books rq :=
  hrun.invariant (P := fun _ rq => Books rq) (books_init hse zero) fun _ _ _ _ _ h hs => (hs.books h).1

/-- The tree has those on the queue that do not run; `nr_queued` and the load count the queue, and the sums add up the tree; every
node has the smallest virtual runtime below it as the callback computes it; and the buddy is on the queue. -/
theorem cfs_rq_books (hse : ∀ r, (se r).onRq = false) (hrun : Run (Step cfg) (initCfsRq se zero) acts rq) :
    (∀ r, r ∈ rq.tasksTimeline.inorder ↔ (rq.se r).onRq = true ∧ rq.curr ≠ some r) ∧
      rq.nrQueued = rq.queue.length ∧ rq.load = (rq.queue.map fun r => (rq.se r).weight).sum ∧
      rq.sumWeight = totalWeight rq.se rq.sumShift rq.tasksTimeline.inorder ∧
      rq.sumWVruntime = totalKey rq.se rq.zeroVruntime rq.sumShift rq.tasksTimeline.inorder ∧
      Heaped rq.se rq.tasksTimeline ∧ ∀ n, rq.next = some n → (rq.se n).onRq = true := by
  have h := books_of_run hse hrun
  exact ⟨h.mem_iff, h.queued, h.load, h.tallied.weight, h.tallied.key, h.tallied.heap, h.buddy⟩

/-- Two entities, one of them running. -/
theorem cfs_rq_books_two : (twoQueued 0).queue = [1, 0] ∧ (twoQueued 0).nrQueued = (twoQueued 0).queue.length :=
  ⟨by rfl, (cfs_rq_books (freshEntities_off 0) (run_two 0)).2.1⟩

/-! ## The pick -/

/-- A run in which every step leaves the deadlines close together leaves the tree in their order. -/
theorem sorted_of_run (hse : ∀ r, (se r).onRq = false)
    (hrun : Run (fun rq a rq' => Step cfg rq a rq' ∧ Compact rq') (initCfsRq se zero) acts rq) : Books rq ∧ Sorted rq := by
  refine hrun.invariant (P := fun _ rq => Books rq ∧ Sorted rq) ⟨books_init hse zero, List.Pairwise.nil⟩ ?_
  rintro _ _ _ _ _ ⟨hb, hs⟩ ⟨hstep, hc⟩
  obtain ⟨hb', hres⟩ := hstep.books hb
  exact ⟨hb', hres.sorted hs hc⟩

/-- In every run in which the deadlines stay close together, with sums that fit a word: from a queue that is not empty `pick_eevdf`
returns an entity that is on it. When there is a choice the entity is eligible, and unless it is the buddy or `curr` within its
protected slice, no eligible entity has an earlier deadline. -/
theorem pick_earliest_eligible (hse : ∀ r, (se r).onRq = false)
    (hrun : Run (fun rq a rq' => Step cfg rq a rq' ∧ Compact rq') (initCfsRq se zero) acts rq) (hc : Compact rq) (hf : Fits rq)
    (hq : rq.nrQueued ≠ 0) (protect : Bool) :
    ∃ r, pickEevdf cfg rq protect = some r ∧ (rq.se r).onRq = true ∧
      (rq.nrQueued ≠ 1 → entityEligible rq r = true ∧
        (protect = true ∧ (rq.next = some r ∨ rq.curr = some r ∧ protectSlice (rq.se r) = true) ∨
          ∀ a, (rq.se a).onRq = true → entityEligible rq a = true → ¬entityBefore (rq.se a) (rq.se r))) := by
  obtain ⟨hb, hs⟩ := sorted_of_run hse hrun
  exact pickEevdf_spec hb hs hc hf hq protect

/-- Nothing overflows there. -/
theorem fits_two : Fits (twoQueued 0) := ⟨by decide, by decide, by decide, by decide, by decide⟩

/-- All virtual runtimes are close together. -/
theorem compact_two : Compact (twoQueued 0) := ⟨0, by decide⟩

/-- And so they were all the way. -/
theorem compact_run_two : Run (fun rq a rq' => Step plainConfig rq a rq' ∧ Compact rq') (initCfsRq (freshEntities 0) 0)
    [.enqueue plainEnv 0 false, .setNext plainEnv 0 true, .enqueue plainEnv 1 false] (twoQueued 0) := by
  have hone : Compact (oneQueued 0) := ⟨0, by decide⟩
  have hruns : Compact (oneRuns 0) := ⟨0, by decide⟩
  exact (((Run.nil _).snoc ⟨.enqueue rfl rfl, hone⟩).snoc ⟨.setNext rfl, hruns⟩).snoc ⟨.enqueue rfl rfl, compact_two⟩

/-- The one that has just come is behind the average, and is picked. -/
theorem pick_earliest_eligible_two : pickEevdf plainConfig (twoQueued 0) false = some 1 ∧
    ∃ r, pickEevdf plainConfig (twoQueued 0) false = some r ∧ ((twoQueued 0).se r).onRq = true := by
  obtain ⟨r, hr, hon, _⟩ :=
    pick_earliest_eligible (freshEntities_off 0) compact_run_two compact_two fits_two (by decide) false
  exact ⟨by rfl, r, hr, hon⟩

/-! ## The average -/

/-- In every state of a run, with sums that fit a word: `avg_vruntime` goes to the floor of the weighted average, an entity is
eligible if and only if its virtual runtime is not after the value returned, and the call itself makes nobody eligible or stops
anybody from being so. -/
theorem eligible_iff_not_after_average (hse : ∀ r, (se r).onRq = false) (hrun : Run (Step cfg) (initCfsRq se zero) acts rq)
    (hf : Fits rq) (hq : rq.nrQueued ≠ 0) :
    ((avgVruntime rq).zeroVruntime - rq.zeroVruntime).toInt = rq.allKeys / rq.allWeight ∧
      ∀ v, Serial.Near rq.zeroVruntime v →
        (vruntimeEligible rq v = true ↔ Serial.key (avgVruntime rq).zeroVruntime v ≤ 0) ∧
        vruntimeEligible (avgVruntime rq) v = vruntimeEligible rq v := by
  have hb := books_of_run hse hrun
  have hne : rq.queue ≠ [] := fun he => hq (hb.queued.trans (congrArg List.length he))
  refine ⟨?_, fun v hv => ⟨?_, vruntimeEligible_avgVruntime hb.tallied hf hne hv⟩⟩
  · have hd : (avgVruntime rq).zeroVruntime - rq.zeroVruntime = avgDelta rq := add_sub_cancel_left _ _
    rw [hd]
    exact avgDelta_toInt hb.tallied hf
  · rw [vruntimeEligible_iff_average hb.tallied hf hne, key_avgVruntime hb.tallied hf hv]
    exact sub_nonpos.symm

/-- One has run for a millisecond and the other has not; the average is between them. -/
theorem eligible_iff_not_after_average_two :
    ((avgVruntime (twoQueued 0)).zeroVruntime - (twoQueued 0).zeroVruntime).toInt =
      (twoQueued 0).allKeys / (twoQueued 0).allWeight :=
  (eligible_iff_not_after_average (freshEntities_off 0) (run_two 0) fits_two (by decide)).1

/-- The two ways `vruntime_eligible` is compiled on 64 bits agree, as long as the load has not overflowed. -/
theorem eligible_variants_agree (rq : CfsRq) (hload : 0 ≤ (sumsWithCurr rq).2.toInt) (v : U64) :
    vruntimeEligibleNoInt128 rq v = vruntimeEligible rq v := by
  have hlow := BitVec.le_toInt (sumsWithCurr rq).1
  have hhigh := BitVec.toInt_lt (x := (sumsWithCurr rq).1)
  unfold vruntimeEligibleNoInt128 vruntimeEligible
  dsimp only
  generalize (sumsWithCurr rq).1.toInt = avg at hlow hhigh
  generalize (sumsWithCurr rq).2.toInt = load at hload
  generalize (v - rq.zeroVruntime).toInt = key
  split
  · rename_i hover
    have hor : key * load < -2 ^ 63 ∨ 2 ^ 63 ≤ key * load := by simpa [overflows] using hover
    -- a product outside the range has the sign of the key
    have hsign : (key ≤ 0 → key * load ≤ 0) ∧ (0 ≤ key → 0 ≤ key * load) :=
      ⟨fun h => mul_nonpos_of_nonpos_of_nonneg h hload, fun h => mul_nonneg h hload⟩
    rw [decide_eq_decide]
    omega
  · rfl

/-- A virtual runtime so far ahead that the product overflows: not eligible, either way. -/
theorem eligible_variants_agree_two :
    overflows (((4611686018427387904 : U64) - (twoQueued 0).zeroVruntime).toInt * (sumsWithCurr (twoQueued 0)).2.toInt) = true ∧
      vruntimeEligibleNoInt128 (twoQueued 0) 4611686018427387904 = false ∧
      vruntimeEligible (twoQueued 0) 4611686018427387904 = false :=
  have hover : vruntimeEligibleNoInt128 (twoQueued 0) 4611686018427387904 = false := by decide
  ⟨by decide, hover, (eligible_variants_agree (twoQueued 0) (by decide) _).symm.trans hover⟩

/-! ## The lag -/

/-- Nothing overflows with a lag of 1000 either, before and after. -/
theorem fits_lagging : Fits (updateCurr plainConfig plainEnv (oneRuns 1000)) ∧ Fits (twoQueued 1000) :=
  ⟨⟨by decide, by decide, by decide, by decide, by decide⟩, ⟨by decide, by decide, by decide, by decide, by decide⟩⟩

/-- `reweight_entity` leaves the average where it is, but for rounding: the weighted keys, measured from the same point before and
after, change by less than the new weight, and so does the weighted lag of the entity itself. -/
theorem reweight_keeps_keys {q : CfsRq} {w : U64} (hse : ∀ r, (se r).onRq = false)
    (hrun : Run (Step cfg) (initCfsRq se zero) acts rq) (hr : (rq.se r).onRq = true)
    (he : reweightEntity cfg env rq r w = some rq') (hw : 0 < w.toInt) (hold : 0 ≤ (q.se r).weight.toInt)
    (hq : q = avgVruntime (updateCurr cfg env rq)) (hshift : q.sumShift = 0) (hshift' : rq'.sumShift = 0)
    (hf : Fits (updateCurr cfg env rq))
    (hlag : entityLag cfg env (q.se r) q.zeroVruntime = q.zeroVruntime - (q.se r).vruntime)
    (hfit : |q.keyOf r * (q.se r).weight.toInt| < 2 ^ 62) :
    rq'.zeroVruntime = q.zeroVruntime ∧
      |rq'.allKeys - q.allKeys| < w.toInt ∧
      rq'.keyOf r * w.toInt - q.keyOf r * (q.se r).weight.toInt = rq'.allKeys - q.allKeys := by
  have hb := books_of_run hse hrun
  have hbc : Books (updateCurr cfg env rq) := hb.keeps hb.updateCurr
  have hx := reweightEntity_reweighted hb hr he
  have hbq : Books (avgVruntime (updateCurr cfg env rq)) := hbc.keeps (Keeps.avgVruntime _)
  have hmem : r ∈ (avgVruntime (updateCurr cfg env rq)).queue :=
    hbq.mem_queue.2 ((hb.updateCurr.onRq r).trans hr)
  have hkey : |(avgVruntime (updateCurr cfg env rq)).keyOf r| < 2 ^ 62 := by
    have hk : (avgVruntime (updateCurr cfg env rq)).keyOf r =
        (updateCurr cfg env rq).keyOf r - (updateCurr cfg env rq).average :=
      key_avgVruntime hbc.tallied hf (hf.near r hmem)
    obtain ⟨h0, h1⟩ := hf.average_bounds
    obtain ⟨h2, h3⟩ := hf.key r hmem
    rw [hk, abs_lt]
    omega
  rw [← hq] at hx hbq hmem hkey
  have hnew : rq'.weightOf r = w.toInt := by
    unfold CfsRq.weightOf
    rw [hshift', hx.weight]
    exact weightOf_zero hw.le
  have hpre : q.weightOf r = (q.se r).weight.toInt := by
    unfold CfsRq.weightOf
    rw [hshift]
    exact weightOf_zero hold
  have hall := hx.allKeys hbq.queue_nodup hmem (hshift'.trans hshift.symm)
  rw [hnew, hpre] at hall
  refine ⟨hx.zero, ?_, hall.symm⟩
  have hdiv := Int.mul_tdiv_add_tmod (q.keyOf r * (q.se r).weight.toInt) w.toInt
  have hlt := Int.tmod_lt_of_pos (q.keyOf r * (q.se r).weight.toInt) hw
  have hgt := Int.lt_tmod_of_pos (q.keyOf r * (q.se r).weight.toInt) hw
  rw [hall, hx.keyOf hw hlag hkey hfit, mul_comm _ w.toInt, abs_lt]
  omega

/-- The entity that comes later gets three times its weight. -/
theorem reweight_keeps_keys_thrice : ∃ rq', reweightEntity plainConfig plainEnv (twoQueued 0) 1 3145728 = some rq' ∧
    |rq'.allKeys - (avgVruntime (updateCurr plainConfig plainEnv (twoQueued 0))).allKeys| < 3145728 := by
  have hf : Fits (updateCurr plainConfig plainEnv (twoQueued 0)) := ⟨by decide, by decide, by decide, by decide, by decide⟩
  refine ⟨_, rfl, ?_⟩
  exact (reweight_keeps_keys (freshEntities_off 0) (run_two 0) (r := 1) (w := 3145728)
    rfl rfl (by decide) (by decide) rfl rfl rfl hf
    (by rfl) (by decide)).2.1

end OsLab.Fair
