import OsLab.Lemmas.RtQueueInv

/-!
# A task that is saved and restored

With `DEQUEUE_SAVE` and no `DEQUEUE_MOVE` a dequeue leaves the lists and the bitmaps, and takes back only what is counted; the
enqueue that follows counts it again. The stack comes off from the top and goes back from the bottom, so the two undo each other
one entity after the other (`restore_takeOff`). In between, `dequeue_rt_entity` puts the groups back that are not empty, and the
enqueue takes them off again (`takeOff_putBack`). Only a group that is throttled as soon as the task does not boost it would be
taken off its list.
-/

namespace OsLab.RtQueue

open Rq

variable {Q E : Type}

/-! ## Counters -/

section Counters

variable {v w : View} {rq rq' : RtRq E}

/-- What goes and comes back. -/
theorem RtRq.inc_dec (hnr : v.nr ≤ rq.rtNrRunning) (hrr : v.rr ≤ rq.rrNrRunning) (hboosts : v.boosts ≤ rq.rtNrBoosted)
    (hprio : v.prio < maxRtPrio) (hle : rq.highestPrio ≤ v.prio) (hfirst : findFirstBit rq.bitmap = rq.highestPrio)
    (honly : v.nr = rq.rtNrRunning → v.prio = rq.highestPrio) : (rq.dec v).inc v = rq := by
  unfold View.boosts at hboosts
  ext
  · rfl
  · rfl
  · exact Nat.sub_add_cancel hnr
  · exact Nat.sub_add_cancel hrr
  · simp only [RtRq.inc, RtRq.dec, hfirst]
    split_ifs <;> omega
  · rfl
  · simp only [RtRq.inc, RtRq.dec]
    split_ifs at hboosts ⊢ <;> omega
  · rfl

/-- What comes and goes again. -/
theorem RtRq.dec_inc (hle : rq.rtNrRunning ≠ 0 → rq.highestPrio ≤ v.prio ∧ findFirstBit rq.bitmap = rq.highestPrio)
    (hnone : rq.rtNrRunning = 0 → rq.highestPrio = maxRtPrio - 1) : (rq.inc v).dec v = rq := by
  ext
  · rfl
  · rfl
  · exact Nat.add_sub_cancel ..
  · exact Nat.add_sub_cancel ..
  · simp only [RtRq.inc, RtRq.dec, Nat.add_sub_cancel]
    by_cases hzero : rq.rtNrRunning = 0
    · rw [if_neg (not_not.2 hzero), hnone hzero]
    · obtain ⟨hhigh, hfirst⟩ := hle hzero
      simp only [if_pos hzero, hfirst, if_neg (not_lt.2 hhigh), ite_self]
  · rfl
  · simp only [RtRq.inc, RtRq.dec]
    split_ifs <;> omega
  · rfl

/-- An `rt_rq` with less counted in it, and the same lists. -/
structure Thin (rq rq' : RtRq E) : Prop where
  bitmap : rq'.bitmap = rq.bitmap
  throttled : rq'.rtThrottled = rq.rtThrottled
  nr : rq'.rtNrRunning ≤ rq.rtNrRunning
  boosted : rq'.rtNrBoosted ≤ rq.rtNrBoosted
  highest : rq'.rtNrRunning ≠ 0 → rq'.highestPrio = rq.highestPrio
  empty : rq'.rtNrRunning = 0 → rq'.highestPrio = maxRtPrio - 1 ∧ rq'.rtNrBoosted = 0

end Counters

variable {H : Hierarchy Q E} {s t u : Rq Q E} {q : Q} {x p : E} {flags : Flags}

/-- What an entity looks like depends on itself and on the queue of its group. -/
theorem view_congr (hmy : ∀ q, H.myQ x = some q → t.rq q = s.rq q) (hprio : (t.se x).prio = (s.se x).prio)
    (hnormal : (t.se x).normalPrio = (s.se x).normalPrio) (hrr : (t.se x).isRr = (s.se x).isRr) : view H t x = view H s x := by
  unfold view
  cases h : H.myQ x with
  | none => simp only [hprio, hnormal, hrr]
  | some q => simp only [hmy q h]

/-- The queues of a stack are above the queue an entity below is on. -/
theorem Hierarchy.rtRq_ne_of_parent (hp : H.rtSe (H.rtRq x) = some p) {y : E} (hy : y ∈ H.stack p)
    (hq : H.depth (H.rtRq x) ≤ H.depth q) : H.rtRq y ≠ q := fun heq => by
  have hle := H.depth_le_of_mem_stack p y hy
  have hlt := H.depth_lt hp
  rw [heq] at hle
  omega

/-- The queue of a group is below the one the group is on. -/
theorem Hierarchy.depth_le_myQ (h : H.myQ x = some q) : H.depth (H.rtRq x) ≤ H.depth q := by
  rw [H.depth_myQ x q h]
  exact Nat.le_succ _

/-- The queue of an entity with the entity off, if it was on. -/
def lowered (H : Hierarchy Q E) (s : Rq Q E) (x : E) : RtRq E :=
  if (s.se x).onRq then (s.rq (H.rtRq x)).dec (view H s x) else s.rq (H.rtRq x)

/-- The stack of `p` is off, and the group of `p` has less in it than in `s`. -/
structure Mid (H : Hierarchy Q E) (s : Rq Q E) (p : E) (u : Rq Q E) : Prop where
  rq : ∀ y ∈ H.stack p, u.rq (H.rtRq y) = lowered H s y
  se : ∀ y ∈ H.stack p, u.se y = { s.se y with onRq := false }
  group : ∀ q, H.myQ p = some q → Thin (s.rq q) (u.rq q)

/-- The entity itself is marked as off. -/
theorem Mid.off (hm : Mid H s p u) : (u.se p).onRq = false := by rw [hm.se p (H.mem_stack_self p)]

variable [DecidableEq Q]

/-- `rq` without the root, which `dequeue_top_rt_rq` takes off. -/
def topOff (H : Hierarchy Q E) (s : Rq Q E) : Rq Q E :=
  { s.setRq H.root fun rq => { rq with rtQueued := false } with nrRunning := 0 }

theorem topOff_of_ne (hq : q ≠ H.root) : (topOff H s).rq q = s.rq q := Function.update_of_ne hq ..

theorem topOff_root : (topOff H s).rq H.root = { s.rq H.root with rtQueued := false } := Function.update_self ..

/-- Nothing is to be taken off. -/
theorem topOff_eq_self (hzero : s.nrRunning = 0) (hqueued : (s.rq H.root).rtQueued = false) : topOff H s = s := by
  ext1
  · refine funext fun q => ?_
    by_cases hq : q = H.root
    · rw [hq, topOff_root, ← hqueued]
    · exact topOff_of_ne hq
  · rfl
  · exact hzero.symm
  · rfl

/-- What the enqueue of the root does is undone. -/
theorem topOff_enqueueTop : topOff H (enqueueTop H s) = topOff H s := by
  unfold enqueueTop
  split
  · rfl
  · ext1
    · refine funext fun q => ?_
      by_cases hq : q = H.root
      · rw [hq, topOff_root, topOff_root]
        simp
      · rw [topOff_of_ne hq, topOff_of_ne hq]
        exact Function.update_of_ne hq ..
    all_goals rfl

/-- `enqueue_top_rt_rq` counts what is there. -/
theorem enqueueTop_top (htop : Top H s) : Top H (enqueueTop H s) := by
  unfold enqueueTop
  split
  · exact htop
  · rename_i hgo
    obtain ⟨hq, -, hne⟩ : ¬(s.rq H.root).rtQueued = true ∧ ¬(s.rq H.root).throttled = true ∧ (s.rq H.root).rtNrRunning ≠ 0 := by
      simpa only [not_or] using hgo
    have hcount := htop.count
    rw [if_neg hq] at hcount
    refine ⟨?_, fun _ => ?_⟩
    · simp [hcount]
    · simpa using hne

/-- A queue whose flags stay. -/
theorem Same.setRq (h : Same s t) {f : RtRq E → RtRq E}
    (hf : ∀ rq, (f rq).rtThrottled = rq.rtThrottled ∧ (f rq).rtQueued = rq.rtQueued) : Same s (t.setRq q f) := by
  refine ⟨h.nrRunning, fun q' => ?_, fun q' => ?_⟩
  all_goals by_cases hq : q' = q
  · rw [hq, setRq_self, (hf _).1, h.throttled]
  · rw [setRq_of_ne hq, h.throttled]
  · rw [hq, setRq_self, (hf _).2, h.queued]
  · rw [setRq_of_ne hq, h.queued]

/-- What becomes of a queue does not depend on whether the root counts. -/
theorem topOff_setRq {f : RtRq E → RtRq E} (hf : ∀ rq, f { rq with rtQueued := false } = { f rq with rtQueued := false }) :
    topOff H (s.setRq q f) = (topOff H s).setRq q f := by
  ext1
  · refine funext fun q' => ?_
    by_cases hroot : q' = H.root
    · rw [hroot, topOff_root]
      by_cases hq : H.root = q
      · rw [← hq, setRq_self, setRq_self, topOff_root, hf]
      · rw [setRq_of_ne hq, setRq_of_ne hq, topOff_root]
    · rw [topOff_of_ne hroot]
      by_cases hq : q' = q
      · rw [hq, setRq_self, setRq_self, topOff_of_ne (hq ▸ hroot)]
      · rw [setRq_of_ne hq, setRq_of_ne hq, topOff_of_ne hroot]
  all_goals rfl

variable [DecidableEq E]

section Local

variable [Fintype E]

/-- One that is all that is counted is alone. -/
theorem Local.eq_of_nr_eq (h : Local H s q) (hx : On H s q x) (hnr : (view H s x).nr = (s.rq q).rtNrRunning) {e : E}
    (he : On H s q e) : e = x := by
  by_contra hne
  have hsum := h.nr
  rw [← hnr, tally, ← Finset.sum_erase_add _ _ (Finset.mem_univ x), if_pos hx] at hsum
  have hle := Finset.single_le_sum (f := fun e => if On H s q e then (view H s e).nr else 0) (fun _ _ => Nat.zero_le _)
    (Finset.mem_erase.2 ⟨hne, Finset.mem_univ e⟩)
  rw [if_pos he] at hle
  have hpos := (h.range e he).2
  omega

end Local

section Lowered

variable [Fintype E]

/-- It comes back as it was. -/
theorem Local.inc_lowered (h : Local H s (H.rtRq x)) (hon : (s.se x).onRq = true) :
    (lowered H s x).inc (view H s x) = s.rq (H.rtRq x) := by
  have hx : On H s (H.rtRq x) x := ⟨rfl, hon⟩
  have hne := h.nr_ne_zero hx
  unfold lowered
  rw [if_pos hon]
  refine RtRq.inc_dec (h.nr ▸ le_tally hx View.nr) (h.rr ▸ le_tally hx View.rr) (h.boosted ▸ le_tally hx View.boosts)
    (h.range x hx).1 (h.highest_le x hx) (h.findFirstBit_eq hne) fun hall => ?_
  obtain ⟨e, he, hprio⟩ := h.highest_on hne
  obtain rfl := h.eq_of_nr_eq hx hall he
  exact hprio

/-- With one entity off, an `rt_rq` has less counted in it, and the same lists. -/
theorem Local.thin_lowered (h : Local H s (H.rtRq x)) : Thin (s.rq (H.rtRq x)) (lowered H s x) := by
  unfold lowered
  split
  · rename_i hon
    have hx : On H s (H.rtRq x) x := ⟨rfl, hon⟩
    refine ⟨rfl, rfl, Nat.sub_le .., ?_, fun hne => ?_, fun hzero => ⟨?_, ?_⟩⟩
    · rw [RtRq.dec_rtNrBoosted]
      exact Nat.sub_le ..
    · simp only [RtRq.dec] at hne ⊢
      rw [if_pos hne, h.findFirstBit_eq (h.nr_ne_zero hx)]
      split_ifs with hprio
      · rfl
      · rfl
    · simp only [RtRq.dec] at hzero ⊢
      rw [if_neg (not_not.2 hzero)]
    · -- the entity was alone, and what is boosted was the entity
      have hle := le_tally hx View.nr
      rw [← h.nr] at hle
      have hall : (view H s x).nr = (s.rq (H.rtRq x)).rtNrRunning := by
        simp only [RtRq.dec] at hzero
        omega
      have hboosted : tally H s View.boosts (H.rtRq x) = (view H s x).boosts := by
        unfold tally
        rw [Finset.sum_eq_single x (fun e _ hne => if_neg fun he => hne (h.eq_of_nr_eq hx hall he))
          (fun hno => absurd (Finset.mem_univ x) hno), if_pos hx]
      rw [RtRq.dec_rtNrBoosted, h.boosted, hboosted, Nat.sub_self]
  · exact ⟨rfl, rfl, le_refl _, le_refl _, fun _ => rfl, fun hzero => ⟨h.highest_none hzero, h.boosted_eq_zero hzero⟩⟩

/-- There is nothing to warn of. -/
theorem Local.decWarns_eq_false (h : Local H s (H.rtRq x)) (hon : (s.se x).onRq = true) :
    decWarns (view H s x) (s.rq (H.rtRq x)) ((s.rq (H.rtRq x)).dec (view H s x)) = false := by
  have hx : On H s (H.rtRq x) x := ⟨rfl, hon⟩
  have hthin := h.thin_lowered
  unfold lowered at hthin
  rw [if_pos hon] at hthin
  exact RtQueue.decWarns_eq_false (h.range x hx).1 (h.nr_ne_zero hx) (h.highest_le x hx) fun hzero => (hthin.empty hzero).2

/-- A group that was on its queue comes back with less in it, and with its priority. -/
theorem Local.thin_raised (h : Local H s (H.rtRq x)) (hon : (s.se x).onRq = true) {w : View} (hprio : w.prio = (view H s x).prio)
    (hne : w.nr ≠ 0) (hnr : w.nr ≤ (view H s x).nr) (hboosts : w.boosts ≤ (view H s x).boosts) :
    Thin (s.rq (H.rtRq x)) ((lowered H s x).inc w) := by
  have hback := h.inc_lowered hon
  have hbackNr := congrArg RtRq.rtNrRunning hback
  have hbackBoosted := congrArg RtRq.rtNrBoosted hback
  have hbackHigh := congrArg RtRq.highestPrio hback
  have hthin := h.thin_lowered
  rw [RtRq.inc_rtNrBoosted] at hbackBoosted
  rw [RtRq.inc_highestPrio] at hbackHigh
  simp only [RtRq.inc] at hbackNr
  refine ⟨hthin.bitmap, hthin.throttled, ?_, ?_, fun _ => ?_, fun hzero => ?_⟩
  · simp only [RtRq.inc]
    omega
  · rw [RtRq.inc_rtNrBoosted]
    omega
  · rw [RtRq.inc_highestPrio, hprio, hbackHigh]
  · simp only [RtRq.inc] at hzero
    omega

end Lowered

/-! ## One entity -/

/-- A round of `dequeue_rt_stack`. -/
def takeOne (H : Hierarchy Q E) (flags : Flags) (s : Rq Q E) (x : E) : Rq Q E :=
  if (s.se x).onRq then dequeueEntity H s x flags else s

/-- `__dequeue_rt_entity` without `DEQUEUE_MOVE` leaves the list and the bitmap. -/
theorem dequeueEntity_stay (hstay : moveEntity flags = false) : dequeueEntity H s x flags =
    ((s.setSe x fun se => { se with onRq := false }).warn
      (decWarns (view H s x) (s.rq (H.rtRq x)) ((s.rq (H.rtRq x)).dec (view H s x)))).setRq (H.rtRq x) (RtRq.dec (view H s x)) := by
  unfold dequeueEntity
  rw [hstay]
  rfl

/-- `__enqueue_rt_entity` without `ENQUEUE_MOVE` leaves them too. -/
theorem putOn_stay (hstay : moveEntity flags = false) : putOn H s x flags =
    ((s.setSe x fun se => { se with onRq := true }).warn (decide (maxRtPrio ≤ (view H s x).prio))).setRq (H.rtRq x)
      (RtRq.inc (view H s x)) := by
  unfold putOn
  rw [hstay]
  rfl

/-- What an entity looks like does not depend on whether it is on its queue, or on the queue. -/
theorem view_write (on warns : Bool) (f : RtRq E → RtRq E) :
    view H (((s.setSe x fun se => { se with onRq := on }).warn warns).setRq (H.rtRq x) f) x = view H s x := by
  refine view_congr (fun q h => ?_) ?_ ?_ ?_
  · rw [setRq_of_ne fun heq : q = H.rtRq x => H.myQ_ne x (heq ▸ h)]
    rfl
  all_goals simp

/-- An entity and its queue are written twice, and are what they were. -/
theorem write_write {on : Bool} {f g : RtRq E → RtRq E} (hon : (s.se x).onRq = on) (hback : g (f (s.rq q)) = s.rq q) :
    (((((s.setSe x fun se => { se with onRq := !on }).warn false).setRq q f).setSe x
      fun se => { se with onRq := on }).warn false).setRq q g = s := by
  ext1
  · refine funext fun q' => ?_
    by_cases hq : q' = q
    · subst hq
      simpa using hback
    · simp [setRq_of_ne hq]
  · refine funext fun e => ?_
    by_cases he : e = x
    · subst he
      simp [← hon]
    · simp [setSe_of_ne he]
  · rfl
  · simp

/-- An entity goes and comes back. -/
theorem putOn_dequeueEntity (hstay : moveEntity flags = false) (hon : (s.se x).onRq = true)
    (hback : ((s.rq (H.rtRq x)).dec (view H s x)).inc (view H s x) = s.rq (H.rtRq x))
    (hwarns : decWarns (view H s x) (s.rq (H.rtRq x)) ((s.rq (H.rtRq x)).dec (view H s x)) = false)
    (hprio : (view H s x).prio < maxRtPrio) : putOn H (dequeueEntity H s x flags) x flags = s := by
  rw [putOn_stay hstay, dequeueEntity_stay hstay, view_write, hwarns, decide_eq_false (not_le.2 hprio)]
  exact write_write hon hback

/-- An entity comes and goes again. -/
theorem dequeueEntity_putOn (hstay : moveEntity flags = false) (hoff : (s.se x).onRq = false)
    (hback : ((s.rq (H.rtRq x)).inc (view H s x)).dec (view H s x) = s.rq (H.rtRq x))
    (hwarns : decWarns (view H s x) ((s.rq (H.rtRq x)).inc (view H s x)) (s.rq (H.rtRq x)) = false)
    (hprio : (view H s x).prio < maxRtPrio) : dequeueEntity H (putOn H s x flags) x flags = s := by
  have hself : (putOn H s x flags).rq (H.rtRq x) = (s.rq (H.rtRq x)).inc (view H s x) := by
    rw [putOn_stay hstay, setRq_self]
    rfl
  rw [dequeueEntity_stay hstay, hself, putOn_stay hstay, view_write, hback, hwarns, decide_eq_false (not_le.2 hprio)]
  exact write_write hoff hback

/-- An entity is marked, and its queue keeps its flags. -/
theorem same_write {on warns : Bool} {f : RtRq E → RtRq E}
    (hf : ∀ rq, (f rq).rtThrottled = rq.rtThrottled ∧ (f rq).rtQueued = rq.rtQueued) :
    Same s (((s.setSe x fun se => { se with onRq := on }).warn warns).setRq q f) := by
  refine Same.setRq (t := Rq.warn _ _) ?_ hf
  exact ⟨rfl, fun _ => rfl, fun _ => rfl⟩

/-! ## The stack -/

/-- What `dequeue_rt_stack` does before the top. -/
def takeOff (H : Hierarchy Q E) (flags : Flags) (s : Rq Q E) (x : E) : Rq Q E := (H.stack x).reverse.foldl (takeOne H flags) s

theorem takeOff_root (hp : H.rtSe (H.rtRq x) = none) : takeOff H flags s x = takeOne H flags s x := by
  unfold takeOff
  rw [Hierarchy.stack_root hp]
  rfl

theorem takeOff_parent (hp : H.rtSe (H.rtRq x) = some p) :
    takeOff H flags s x = takeOne H flags (takeOff H flags s p) x := by
  unfold takeOff
  rw [Hierarchy.stack_parent hp, List.reverse_cons, List.foldl_append]
  rfl

/-- `t` is `s` with the entities of `l` off. -/
structure Lowered (H : Hierarchy Q E) (l : List E) (s t : Rq Q E) : Prop where
  rq : ∀ y ∈ l, t.rq (H.rtRq y) = lowered H s y
  se : ∀ y ∈ l, t.se y = { s.se y with onRq := false }
  rqOthers : ∀ q, (∀ y ∈ l, H.rtRq y ≠ q) → t.rq q = s.rq q
  seOthers : ∀ e, e ∉ l → t.se e = s.se e
  warned : t.warned = false

section Stack

variable [Fintype E]

/-- One more entity, on a queue that is as it was. -/
theorem Lowered.takeOne {l : List E} (hstay : moveEntity flags = false) (h : Pre H [] s) (hl : Lowered H l s t)
    (hrq : ∀ y ∈ l, H.rtRq y ≠ H.rtRq x) (hmy : ∀ q, H.myQ x = some q → ∀ y ∈ l, H.rtRq y ≠ q) :
    Lowered H (x :: l) s (takeOne H flags t x) := by
  have hx : x ∉ l := fun hmem => hrq x hmem rfl
  have hview : view H t x = view H s x := by
    refine view_congr (fun q hq => hl.rqOthers q (hmy q hq)) ?_ ?_ ?_
    all_goals rw [hl.seOthers x hx]
  have hself : t.rq (H.rtRq x) = s.rq (H.rtRq x) := hl.rqOthers _ hrq
  have hres : (RtQueue.takeOne H flags t x).rq (H.rtRq x) = lowered H s x ∧
      (RtQueue.takeOne H flags t x).se x = { s.se x with onRq := false } ∧
      (∀ q, q ≠ H.rtRq x → (RtQueue.takeOne H flags t x).rq q = t.rq q) ∧
      (∀ e, e ≠ x → (RtQueue.takeOne H flags t x).se e = t.se e) ∧ (RtQueue.takeOne H flags t x).warned = false := by
    unfold RtQueue.takeOne lowered
    rw [hl.seOthers x hx]
    split
    · rename_i hon
      rw [dequeueEntity_stay hstay, hview, hself, (h.queues _).decWarns_eq_false hon]
      refine ⟨?_, ?_, fun q hq => ?_, fun e he => ?_, ?_⟩
      · rw [setRq_self]
        exact congrArg _ hself
      · rw [setRq_se, warn_se, setSe_self, hl.seOthers x hx]
      · rw [setRq_of_ne hq]
        rfl
      · rw [setRq_se, warn_se, setSe_of_ne he]
      · simp [hl.warned]
    · rename_i hoff
      refine ⟨hself, ?_, fun _ _ => rfl, fun _ _ => rfl, hl.warned⟩
      rw [hl.seOthers x hx, ← Bool.eq_false_iff.2 hoff]
  obtain ⟨hrqx, hsex, hrqs, hses, hwarned⟩ := hres
  refine ⟨List.forall_mem_cons.2 ⟨hrqx, fun y hy => ?_⟩, List.forall_mem_cons.2 ⟨hsex, fun y hy => ?_⟩, fun q hq => ?_,
    fun e he => ?_, hwarned⟩
  · rw [hrqs _ (hrq y hy), hl.rq y hy]
  · rw [hses y fun heq => hx (heq ▸ hy), hl.se y hy]
  · obtain ⟨hqx, hql⟩ := List.forall_mem_cons.1 hq
    rw [hrqs q hqx.symm, hl.rqOthers q hql]
  · obtain ⟨hex, hel⟩ := not_or.1 (mt List.mem_cons.2 he)
    rw [hses e hex, hl.seOthers e hel]

/-- After the walk down, every entity of the stack is counted as gone, and nothing else has changed. -/
theorem takeOff_lowered (hstay : moveEntity flags = false) (h : Pre H [] s) :
    ∀ x, Lowered H (H.stack x) s (takeOff H flags s x) := by
  have hnone : Lowered H [] s s :=
    ⟨fun _ hy => absurd hy List.not_mem_nil, fun _ hy => absurd hy List.not_mem_nil, fun _ _ => rfl, fun _ _ => rfl, h.warned⟩
  refine Hierarchy.stack_induction (H := H) (fun x hp => ?_) fun x p hp ih => ?_
  · rw [Hierarchy.stack_root hp, takeOff_root hp]
    exact hnone.takeOne hstay h (fun _ hy => absurd hy List.not_mem_nil) fun _ _ _ hy => absurd hy List.not_mem_nil
  · rw [Hierarchy.stack_parent hp, takeOff_parent hp]
    exact ih.takeOne hstay h (fun y hy => Hierarchy.rtRq_ne_of_parent hp hy (le_refl _)) fun q hq y hy =>
      Hierarchy.rtRq_ne_of_parent hp hy (Hierarchy.depth_le_myQ hq)

/-- The entity comes back to a queue that is as it was. -/
theorem enqueueEntity_takeOne (hstay : moveEntity flags = false) (h : Pre H [] s) (htask : H.myQ x = none → (s.se x).onRq = true)
    (hrq : t.rq (H.rtRq x) = s.rq (H.rtRq x)) (hmy : ∀ q, H.myQ x = some q → t.rq q = s.rq q) (hse : t.se x = s.se x) :
    enqueueEntity H (takeOne H flags t x) x flags = t := by
  have hview : view H t x = view H s x := view_congr hmy (by rw [hse]) (by rw [hse]) (by rw [hse])
  by_cases hon : (s.se x).onRq = true
  · have hback : putOn H (dequeueEntity H t x flags) x flags = t := by
      refine putOn_dequeueEntity hstay (hse ▸ hon) ?_ ?_ ?_
      · rw [hview, hrq]
        have hlow := (h.queues (H.rtRq x)).inc_lowered hon
        unfold lowered at hlow
        rwa [if_pos hon] at hlow
      · rw [hview, hrq]
        exact (h.queues _).decWarns_eq_false hon
      · rw [hview]
        exact ((h.queues _).range x ⟨rfl, hon⟩).1
    unfold takeOne enqueueEntity
    rw [hse, if_pos hon]
    split
    · exact hback
    · rename_i q hq
      obtain ⟨hthrottled, hne⟩ := (h.group x q List.not_mem_nil hq).1 hon
      have hsame : (dequeueEntity H t x flags).rq q = s.rq q := by
        rw [dequeueEntity_stay hstay, setRq_of_ne fun heq : q = H.rtRq x => H.myQ_ne x (heq ▸ hq)]
        exact hmy q hq
      rw [hsame, if_neg (not_or.2 ⟨Bool.eq_false_iff.1 hthrottled, hne⟩)]
      exact hback
  · -- a group that was off its queue is throttled or empty, and on no list
    unfold takeOne enqueueEntity
    rw [hse, if_neg hon]
    split
    · rename_i hnone
      exact absurd (htask hnone) hon
    · rename_i q hq
      have hlist : ¬(s.se x).onList = true := by rwa [h.listed x]
      have hclosed : (s.rq q).throttled = true ∨ (s.rq q).rtNrRunning = 0 := by
        by_contra hopen
        obtain ⟨hthrottled, hne⟩ := not_or.1 hopen
        exact hon ((h.group x q List.not_mem_nil hq).2 ⟨Bool.eq_false_iff.2 hthrottled, hne⟩)
      rw [hmy q hq, if_pos hclosed, hse, if_neg hlist]

/-- What is taken off is restored. -/
theorem restore_takeOff (hstay : moveEntity flags = false) (h : Pre H [] s) : ∀ x, (H.myQ x = none → (s.se x).onRq = true) →
    (H.stack x).foldl (fun s x => enqueueEntity H s x flags) (takeOff H flags s x) = s := by
  refine Hierarchy.stack_induction (H := H) (fun x hp htask => ?_) fun x p hp ih htask => ?_
  · rw [Hierarchy.stack_root hp, takeOff_root hp]
    exact enqueueEntity_takeOne hstay h htask rfl (fun _ _ => rfl) rfl
  · have hl := takeOff_lowered hstay h p
    rw [Hierarchy.stack_parent hp, takeOff_parent hp, List.foldl_cons, enqueueEntity_takeOne hstay h htask]
    · refine ih fun hnone => ?_
      rw [(H.rtSe_iff _ p).1 hp] at hnone
      cases hnone
    · exact hl.rqOthers _ fun y hy => Hierarchy.rtRq_ne_of_parent hp hy (le_refl _)
    · exact fun q hq => hl.rqOthers q fun y hy => Hierarchy.rtRq_ne_of_parent hp hy (Hierarchy.depth_le_myQ hq)
    · exact hl.seOthers x (Hierarchy.not_mem_stack_parent hp)

/-! ## Groups that are put back meanwhile -/

/-- A group is not put back, or it was on its queue and looks like it did but for what it counts. -/
theorem Mid.putBack_cases (flags : Flags) (h : Pre H [] s) (hm : Mid H s p u)
    (hsteady : ∀ q, H.myQ p = some q → (s.rq q).rtThrottled = true → (s.rq q).rtNrBoosted = 0) :
    putBack H flags u p = u ∨ putBack H flags u p = putOn H u p flags ∧ (s.se p).onRq = true ∧
      (view H u p).prio = (view H s p).prio ∧ (view H u p).nr ≠ 0 ∧ (view H u p).nr ≤ (view H s p).nr ∧
      (view H u p).boosts ≤ (view H s p).boosts := by
  unfold putBack
  cases hq : H.myQ p with
  | none => exact Or.inl rfl
  | some q =>
    dsimp only
    by_cases hzero : (u.rq q).rtNrRunning = 0
    · exact Or.inl (if_neg (not_not.2 hzero))
    · rw [if_pos hzero]
      have hthin := hm.group q hq
      unfold enqueueEntity
      rw [hq]
      dsimp only
      have hsne : (s.rq q).rtNrRunning ≠ 0 := by
        have := hthin.nr
        omega
      by_cases hthrottled : (u.rq q).throttled = true
      · -- it was throttled before, and so on no list
        have hs : (s.rq q).throttled = true := by
          unfold RtRq.throttled at hthrottled ⊢
          rw [Bool.and_eq_true, hthin.throttled] at hthrottled
          rw [hthrottled.1, hsteady q hq hthrottled.1]
          rfl
        have hoff : ¬(s.se p).onRq = true := fun hon => by
          rw [((h.group p q List.not_mem_nil hq).1 hon).1] at hs
          cases hs
        have hlist : ¬(u.se p).onList = true := by
          rw [hm.se p (H.mem_stack_self p)]
          exact fun hl => hoff ((h.listed p).symm.trans hl)
        rw [if_pos (Or.inl hthrottled), if_neg hlist]
        exact Or.inl rfl
      · rw [if_neg (not_or.2 ⟨hthrottled, hzero⟩)]
        have hs : (s.rq q).throttled = false := by
          unfold RtRq.throttled at hthrottled ⊢
          rw [hthin.throttled] at hthrottled
          cases hrt : (s.rq q).rtThrottled with
          | false => rfl
          | true =>
            have hle := hthin.boosted
            rw [hsteady q hq hrt] at hle
            rw [hrt, Nat.le_zero.1 hle] at hthrottled
            exact absurd rfl hthrottled
        refine Or.inr ⟨rfl, (h.group p q List.not_mem_nil hq).2 ⟨hs, hsne⟩, ?_⟩
        have hbo := hthin.boosted
        unfold view View.boosts
        rw [hq]
        dsimp only
        refine ⟨hthin.highest hzero, hzero, hthin.nr, ?_⟩
        by_cases hb : (u.rq q).rtNrBoosted = 0
        · simp [hb]
        · have hsb : (s.rq q).rtNrBoosted ≠ 0 := by omega
          simp [hb, hsb]

/-- A group that was put back is taken off again. -/
theorem Mid.takeOne_putBack (hstay : moveEntity flags = false) (h : Pre H [] s) (hm : Mid H s p u)
    (hsteady : ∀ q, H.myQ p = some q → (s.rq q).rtThrottled = true → (s.rq q).rtNrBoosted = 0) :
    takeOne H flags (putBack H flags u p) p = u := by
  rcases hm.putBack_cases flags h hsteady with heq | ⟨heq, hon, hprio, hne, -, -⟩
  · rw [heq, takeOne, if_neg (Bool.eq_false_iff.1 hm.off)]
  · have hx : On H s (H.rtRq p) p := ⟨rfl, hon⟩
    have hl := h.queues (H.rtRq p)
    have hthin := hl.thin_lowered
    have hrange : (view H u p).prio < maxRtPrio := hprio ▸ (hl.range p hx).1
    have hrq := hm.rq p (H.mem_stack_self p)
    have hback : ((u.rq (H.rtRq p)).inc (view H u p)).dec (view H u p) = u.rq (H.rtRq p) := by
      rw [hrq]
      refine RtRq.dec_inc (fun hsome => ?_) fun hzero => (hthin.empty hzero).1
      rw [hthin.highest hsome, hthin.bitmap, hprio]
      exact ⟨hl.highest_le p hx, hl.findFirstBit_eq (hl.nr_ne_zero hx)⟩
    have hwarns : decWarns (view H u p) ((u.rq (H.rtRq p)).inc (view H u p)) (u.rq (H.rtRq p)) = false := by
      refine decWarns_eq_false hrange ?_ ?_ fun hzero => ?_
      · simp only [RtRq.inc]
        omega
      · rw [RtRq.inc_highestPrio]
        exact min_le_left ..
      · rw [hrq] at hzero ⊢
        exact (hthin.empty hzero).2
    rw [heq, takeOne, if_pos, dequeueEntity_putOn hstay hm.off hback hwarns hrange]
    rw [putOn_stay hstay]
    simp

/-- The group above has less in it as well. -/
theorem Mid.parent {g : E} (hstay : moveEntity flags = false) (h : Pre H [] s) (hm : Mid H s p u)
    (hsteady : ∀ q, H.myQ p = some q → (s.rq q).rtThrottled = true → (s.rq q).rtNrBoosted = 0)
    (hp : H.rtSe (H.rtRq p) = some g) : Mid H s g (putBack H flags u p) := by
  have hsub : ∀ y ∈ H.stack g, y ∈ H.stack p := fun y hy => Hierarchy.stack_parent hp ▸ List.mem_cons_of_mem p hy
  have hl := h.queues (H.rtRq p)
  have hg : ∀ q, H.myQ g = some q → q = H.rtRq p := fun q hq => Option.some.inj (hq.symm.trans ((H.rtSe_iff _ g).1 hp))
  rcases hm.putBack_cases flags h hsteady with heq | ⟨heq, hon, hprio, hne, hnr, hboosts⟩
  · rw [heq]
    refine ⟨fun y hy => hm.rq y (hsub y hy), fun y hy => hm.se y (hsub y hy), fun q hq => ?_⟩
    rw [hg q hq, hm.rq p (H.mem_stack_self p)]
    exact hl.thin_lowered
  · rw [heq, putOn_stay hstay]
    refine ⟨fun y hy => ?_, fun y hy => ?_, fun q hq => ?_⟩
    · rw [setRq_of_ne (Hierarchy.rtRq_ne_of_parent hp hy (le_refl _))]
      exact hm.rq y (hsub y hy)
    · rw [setRq_se, warn_se, setSe_of_ne fun heq : y = p => Hierarchy.not_mem_stack_parent hp (heq ▸ hy)]
      exact hm.se y (hsub y hy)
    · rw [hg q hq, setRq_self, warn_rq, setSe_rq, hm.rq p (H.mem_stack_self p)]
      exact hl.thin_raised hon hprio hne hnr hboosts

/-- The groups that `dequeue_rt_entity` puts back are taken off again. -/
theorem takeOff_putBack (hstay : moveEntity flags = false) (h : Pre H [] s) : ∀ x, Steady H s x → ∀ u, Mid H s x u →
    takeOff H flags ((H.stack x).foldl (putBack H flags) u) x = u := by
  refine Hierarchy.stack_induction (H := H) (fun x hp hsteady u hm => ?_) fun x p hp ih hsteady u hm => ?_
  · rw [takeOff_root hp, Hierarchy.stack_root hp]
    exact hm.takeOne_putBack hstay h (hsteady x (H.mem_stack_self x))
  · have hx := hsteady x (H.mem_stack_self x)
    have habove : Steady H s p := fun y hy => hsteady y (Hierarchy.stack_parent hp ▸ List.mem_cons_of_mem x hy)
    rw [takeOff_parent hp, Hierarchy.stack_parent hp, List.foldl_cons, ih habove _ (hm.parent hstay h hx hp)]
    exact hm.takeOne_putBack hstay h hx

end Stack

/-! ## The top -/

/-- The root is not looked at when the stack is taken off. -/
theorem takeOne_topOff (hstay : moveEntity flags = false) : takeOne H flags (topOff H s) x = topOff H (takeOne H flags s x) := by
  have hview : view H (topOff H s) x = view H s x :=
    view_congr (fun q hq => topOff_of_ne fun heq : q = H.root => H.myQ_ne_root x (heq ▸ hq)) rfl rfl rfl
  have hwarns : decWarns (view H s x) ((topOff H s).rq (H.rtRq x)) (((topOff H s).rq (H.rtRq x)).dec (view H s x)) =
      decWarns (view H s x) (s.rq (H.rtRq x)) ((s.rq (H.rtRq x)).dec (view H s x)) := by
    by_cases hroot : H.rtRq x = H.root
    · rw [hroot, topOff_root]
      rfl
    · rw [topOff_of_ne hroot]
  have hse : (topOff H s).se = s.se := rfl
  unfold takeOne
  rw [hse]
  split
  · rw [dequeueEntity_stay hstay, dequeueEntity_stay hstay, hview, hwarns, topOff_setRq fun _ => rfl]
    rfl
  · rfl

/-- The walk does not read whether the root queue counts. -/
theorem takeOff_topOff (hstay : moveEntity flags = false) : takeOff H flags (topOff H s) x = topOff H (takeOff H flags s x) := by
  unfold takeOff
  induction (H.stack x).reverse generalizing s with
  | nil => rfl
  | cons y l ih =>
    rw [List.foldl_cons, takeOne_topOff hstay, ih]
    rfl

/-- A round of the walk leaves the count of the CPU and the throttling alone. -/
theorem takeOne_same (hstay : moveEntity flags = false) : Same s (takeOne H flags s x) := by
  unfold takeOne
  split
  · rw [dequeueEntity_stay hstay]
    exact same_write fun _ => ⟨rfl, rfl⟩
  · exact Same.refl s

/-- So does the walk. -/
theorem takeOff_same (hstay : moveEntity flags = false) : Same s (takeOff H flags s x) := by
  unfold takeOff
  exact List.foldlRecOn (motive := Same s) _ _ (Same.refl s) fun _ h _ _ => h.trans (takeOne_same hstay)

/-- So does putting a group back. -/
theorem putBack_same (hstay : moveEntity flags = false) : Same s (putBack H flags s x) := by
  have hput : Same s (putOn H s x flags) := by
    rw [putOn_stay hstay]
    exact same_write fun _ => ⟨rfl, rfl⟩
  unfold putBack enqueueEntity
  cases H.myQ x with
  | none => exact Same.refl s
  | some q =>
    dsimp only
    split_ifs
    · have hlist : Same s (s.setRq (H.rtRq x) (RtRq.delist x (view H s x).prio)) := (Same.refl s).setRq fun _ => ⟨rfl, rfl⟩
      exact ⟨hlist.nrRunning, hlist.throttled, hlist.queued⟩
    · exact Same.refl s
    · exact hput
    · exact Same.refl s

/-- And putting back the groups of a stack. -/
theorem foldl_putBack_same (hstay : moveEntity flags = false) (l : List E) : Same s (l.foldl (putBack H flags) s) :=
  List.foldlRecOn (motive := Same s) _ _ (Same.refl s) fun _ h _ _ => h.trans (putBack_same hstay)

/-- `dequeue_rt_stack` takes the top off, and the stack. -/
theorem dequeueRtStack_stay (hstay : moveEntity flags = false) (htop : Top H s) :
    dequeueRtStack H s x flags = takeOff H flags (topOff H s) x := by
  have hsame : Same s (takeOff H flags s x) := takeOff_same hstay
  have hcount := htop.count
  rw [takeOff_topOff hstay]
  show dequeueTop H (takeOff H flags s x) (s.rq H.root).rtNrRunning = _
  unfold dequeueTop
  rw [hsame.queued, hsame.nrRunning]
  split
  · rename_i hqueued
    have hqueued := Bool.eq_false_iff.2 hqueued
    rw [hqueued] at hcount
    exact (topOff_eq_self (hsame.nrRunning.trans hcount) ((hsame.queued _).trans hqueued)).symm
  · rename_i hqueued
    have hqueued := not_not.1 hqueued
    rw [if_pos hqueued] at hcount
    rw [hcount, decide_eq_false (htop.some hqueued), Nat.sub_self]
    unfold topOff warn
    rw [Bool.or_false]

end OsLab.RtQueue
