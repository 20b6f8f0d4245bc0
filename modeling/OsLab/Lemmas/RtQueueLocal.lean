import OsLab.RtQueue
import Mathlib.Algebra.BigOperators.Group.Finset.Basic
import Mathlib.Algebra.Order.BigOperators.Group.Finset

/-!
# One `rt_rq`

What the lists, the bitmap, the counters and the highest priority of an `rt_rq` say of the entities that are on it, and that an
entity coming or going keeps it so. The entity above has to be off its queue meanwhile.
-/

namespace OsLab.RtQueue

variable {Q E : Type}

namespace Rq

section

variable [DecidableEq Q]

@[simp] theorem setRq_self (s : Rq Q E) (q : Q) (f : RtRq E → RtRq E) : (s.setRq q f).rq q = f (s.rq q) := Function.update_self ..

theorem setRq_of_ne {q q' : Q} (h : q' ≠ q) (s : Rq Q E) (f : RtRq E → RtRq E) : (s.setRq q f).rq q' = s.rq q' :=
  Function.update_of_ne h ..

@[simp] theorem setRq_se (s : Rq Q E) (q : Q) (f : RtRq E → RtRq E) : (s.setRq q f).se = s.se := rfl

@[simp] theorem setRq_nrRunning (s : Rq Q E) (q : Q) (f : RtRq E → RtRq E) : (s.setRq q f).nrRunning = s.nrRunning := rfl

@[simp] theorem setRq_warned (s : Rq Q E) (q : Q) (f : RtRq E → RtRq E) : (s.setRq q f).warned = s.warned := rfl

end

section

variable [DecidableEq E]

@[simp] theorem setSe_self (s : Rq Q E) (e : E) (f : RtSe → RtSe) : (s.setSe e f).se e = f (s.se e) := Function.update_self ..

theorem setSe_of_ne {e e' : E} (h : e' ≠ e) (s : Rq Q E) (f : RtSe → RtSe) : (s.setSe e f).se e' = s.se e' :=
  Function.update_of_ne h ..

@[simp] theorem setSe_rq (s : Rq Q E) (e : E) (f : RtSe → RtSe) : (s.setSe e f).rq = s.rq := rfl

@[simp] theorem setSe_nrRunning (s : Rq Q E) (e : E) (f : RtSe → RtSe) : (s.setSe e f).nrRunning = s.nrRunning := rfl

@[simp] theorem setSe_warned (s : Rq Q E) (e : E) (f : RtSe → RtSe) : (s.setSe e f).warned = s.warned := rfl

end

@[simp] theorem warn_rq (s : Rq Q E) (c : Bool) : (s.warn c).rq = s.rq := rfl

@[simp] theorem warn_se (s : Rq Q E) (c : Bool) : (s.warn c).se = s.se := rfl

@[simp] theorem warn_nrRunning (s : Rq Q E) (c : Bool) : (s.warn c).nrRunning = s.nrRunning := rfl

@[simp] theorem warn_warned (s : Rq Q E) (c : Bool) : (s.warn c).warned = (s.warned || c) := rfl

end Rq

variable {H : Hierarchy Q E} {s t : Rq Q E} {q : Q} {x : E}

open Rq

/-- A group is not in itself. -/
theorem Hierarchy.myQ_ne (H : Hierarchy Q E) (x : E) : H.myQ x ≠ some (H.rtRq x) := fun h => by
  have := H.depth_myQ x _ h
  omega

/-! ## Counters -/

/-- Whether it is boosted, as a number. -/
def View.boosts (v : View) : Nat := if v.boosted then 1 else 0

/-- The better of the two priorities. -/
theorem RtRq.inc_highestPrio (v : View) (rq : RtRq E) : (rq.inc v).highestPrio = min v.prio rq.highestPrio := by
  unfold RtRq.inc
  dsimp only
  split <;> omega

/-- One more is boosted, or none. -/
theorem RtRq.inc_rtNrBoosted (v : View) (rq : RtRq E) : (rq.inc v).rtNrBoosted = rq.rtNrBoosted + v.boosts := by
  unfold RtRq.inc View.boosts
  dsimp only
  split <;> rfl

/-- One less is boosted, or none. -/
theorem RtRq.dec_rtNrBoosted (v : View) (rq : RtRq E) : (rq.dec v).rtNrBoosted = rq.rtNrBoosted - v.boosts := by
  unfold RtRq.dec View.boosts
  dsimp only
  split <;> rfl

/-- `dec_rt_tasks` has nothing to warn of when the entity was counted and was no better than the best, and nothing boosted is left
in an empty queue. -/
theorem decWarns_eq_false {v : View} {rq rq' : RtRq E} (hprio : v.prio < maxRtPrio) (hne : rq.rtNrRunning ≠ 0)
    (hle : rq.highestPrio ≤ v.prio) (hnone : rq'.rtNrRunning = 0 → rq'.rtNrBoosted = 0) : decWarns v rq rq' = false := by
  unfold decWarns
  rw [decide_eq_false (not_le.2 hprio), decide_eq_false hne, decide_eq_false (not_lt.2 hle)]
  by_cases hzero : rq'.rtNrRunning = 0
  · rw [hnone hzero]
    simp
  · simp [hzero]

/-- A place on a list is no priority. -/
theorem RtRq.list_highestPrio (x : E) (prio : Nat) (head : Bool) (rq : RtRq E) :
    (rq.list x prio head).highestPrio = rq.highestPrio := rfl

/-! ## The bitmap -/

/-- No bit that is set comes before the first. -/
theorem findFirstBit_le {bitmap : Nat → Bool} {p : Nat} (hbit : bitmap p = true) : findFirstBit bitmap ≤ p := by
  unfold findFirstBit
  by_contra hlt
  have hnot := List.not_of_lt_findIdx (not_le.1 hlt)
  rw [List.getElem_range, hbit] at hnot
  cases hnot

/-- The first bit is set, if one is. -/
theorem findFirstBit_set {bitmap : Nat → Bool} {p : Nat} (hp : p ≤ maxRtPrio) (hbit : bitmap p = true) :
    bitmap (findFirstBit bitmap) = true := by
  have hlt : findFirstBit bitmap < (List.range (maxRtPrio + 1)).length := by
    rw [List.length_range]
    exact Nat.lt_succ_of_le ((findFirstBit_le hbit).trans hp)
  have hget : bitmap ((List.range (maxRtPrio + 1))[findFirstBit bitmap]) = true := List.findIdx_getElem
  rwa [List.getElem_range] at hget

/-- The first bit is that of the first list that is not empty. -/
theorem findFirstBit_queue {rq : RtRq E} (hbits : ∀ p, rq.bitmap p = true ↔ rq.queue p ≠ [] ∨ p = maxRtPrio) {p : Nat}
    (hp : p < maxRtPrio) (hne : rq.queue p ≠ []) : findFirstBit rq.bitmap ≤ p ∧ rq.queue (findFirstBit rq.bitmap) ≠ [] := by
  have hbit : rq.bitmap p = true := (hbits p).2 (Or.inl hne)
  have hle := findFirstBit_le hbit
  exact ⟨hle, ((hbits _).1 (findFirstBit_set hp.le hbit)).resolve_right (hle.trans_lt hp).ne⟩

/-! ## What is on a queue -/

section

variable [DecidableEq Q]

/-- On the queue. -/
def On (H : Hierarchy Q E) (s : Rq Q E) (q : Q) (e : E) : Prop := H.rtRq e = q ∧ (s.se e).onRq = true

instance (H : Hierarchy Q E) (s : Rq Q E) (q : Q) (e : E) : Decidable (On H s q e) := inferInstanceAs (Decidable (_ ∧ _))

/-- A sum over what is on a queue. -/
def tally [Fintype E] (H : Hierarchy Q E) (s : Rq Q E) (f : View → Nat) (q : Q) : Nat :=
  ∑ e, if On H s q e then f (view H s e) else 0

/-- What an `rt_rq` says is so. -/
structure Local [Fintype E] (H : Hierarchy Q E) (s : Rq Q E) (q : Q) : Prop where
  nodup : ∀ p, ((s.rq q).queue p).Nodup
  mem : ∀ p e, e ∈ (s.rq q).queue p ↔ On H s q e ∧ (view H s e).prio = p
  bits : ∀ p, (s.rq q).bitmap p = true ↔ (s.rq q).queue p ≠ [] ∨ p = maxRtPrio
  range : ∀ e, On H s q e → (view H s e).prio < maxRtPrio ∧ (view H s e).nr ≠ 0
  nr : (s.rq q).rtNrRunning = tally H s View.nr q
  rr : (s.rq q).rrNrRunning = tally H s View.rr q
  boosted : (s.rq q).rtNrBoosted = tally H s View.boosts q
  highest_le : ∀ e, On H s q e → (s.rq q).highestPrio ≤ (view H s e).prio
  highest_on : (s.rq q).rtNrRunning ≠ 0 → ∃ e, On H s q e ∧ (view H s e).prio = (s.rq q).highestPrio
  highest_none : (s.rq q).rtNrRunning = 0 → (s.rq q).highestPrio = maxRtPrio - 1

/-! ## Sums -/

section Tally

variable [Fintype E]

/-- The sums are over the same. -/
theorem tally_congr (h : ∀ e, On H t q e ↔ On H s q e) (hview : ∀ e, On H s q e → view H t e = view H s e) (f : View → Nat) :
    tally H t f q = tally H s f q := by
  refine Finset.sum_congr rfl fun e _ => ?_
  by_cases he : On H s q e
  · rw [if_pos he, if_pos ((h e).2 he), hview e he]
  · rw [if_neg he, if_neg (mt (h e).1 he)]

/-- One entity comes. -/
theorem tally_come [DecidableEq E] (hoff : ¬On H s q x) (hon : On H t q x) (h : ∀ e, e ≠ x → (On H t q e ↔ On H s q e))
    (hview : ∀ e, On H t q e → view H t e = view H s e) (f : View → Nat) :
    tally H t f q = tally H s f q + f (view H s x) := by
  unfold tally
  rw [← Finset.sum_erase_add _ _ (Finset.mem_univ x),
    ← Finset.sum_erase_add (f := fun e => if On H s q e then f (view H s e) else 0)
    _ (Finset.mem_univ x), if_pos hon, if_neg hoff, hview x hon, add_zero]
  congr 1
  refine Finset.sum_congr rfl fun e he => ?_
  have hne := Finset.ne_of_mem_erase he
  by_cases hon : On H s q e
  · rw [if_pos hon, if_pos ((h e hne).2 hon), hview e ((h e hne).2 hon)]
  · rw [if_neg hon, if_neg (mt (h e hne).1 hon)]

/-- One is counted among all. -/
theorem le_tally (hon : On H s q x) (f : View → Nat) : f (view H s x) ≤ tally H s f q := by
  have h := Finset.single_le_sum (f := fun e => if On H s q e then f (view H s e) else 0) (fun _ _ => Nat.zero_le _)
    (Finset.mem_univ x)
  rwa [if_pos hon] at h

/-- Nothing is counted where nothing is queued. -/
theorem tally_eq_zero (h : ∀ e, ¬On H s q e) (f : View → Nat) : tally H s f q = 0 :=
  Finset.sum_eq_zero fun e _ => if_neg (h e)

end Tally

end

/-! ## An entity comes or goes -/

/-- What is done to an entity and the queue it belongs to. -/
structure Moved (H : Hierarchy Q E) (x : E) (s t : Rq Q E) (on : Bool) (f : RtRq E → RtRq E) : Prop where
  self : t.rq (H.rtRq x) = f (s.rq (H.rtRq x))
  others : ∀ q, q ≠ H.rtRq x → t.rq q = s.rq q
  seSelf : t.se x = { s.se x with onRq := on, onList := on }
  seOthers : ∀ e, e ≠ x → t.se e = s.se e
  nrRunning : t.nrRunning = s.nrRunning

section

variable [DecidableEq Q] [DecidableEq E]

/-- `__enqueue_rt_entity` for what is to be queued. -/
theorem putOn_moved (H : Hierarchy Q E) (s : Rq Q E) (x : E) {flags : Flags} (hmove : moveEntity flags = true) :
    Moved H x s (putOn H s x flags) true fun rq => (rq.list x (view H s x).prio flags.head).inc (view H s x) := by
  unfold putOn
  simp only [if_pos hmove]
  constructor
  · simp
  · intro q hq
    simp [setRq_of_ne hq]
  · simp
  · intro e he
    simp [setSe_of_ne he]
  · simp

/-- `__dequeue_rt_entity`. -/
theorem dequeueEntity_moved (H : Hierarchy Q E) (s : Rq Q E) (x : E) {flags : Flags} (hmove : moveEntity flags = true) :
    Moved H x s (dequeueEntity H s x flags) false fun rq => (rq.delist x (view H s x).prio).dec (view H s x) := by
  have hview : view H (s.warn (!(s.se x).onList)) x = view H s x := rfl
  unfold dequeueEntity delist
  simp only [if_pos hmove, hview]
  constructor
  · simp
  · intro q hq
    simp [setRq_of_ne hq]
  · simp
  · intro e he
    simp [setSe_of_ne he]
  · simp

/-- What `__enqueue_rt_entity` warns of. -/
theorem putOn_warned (H : Hierarchy Q E) (s : Rq Q E) (x : E) {flags : Flags} (hmove : moveEntity flags = true) :
    (putOn H s x flags).warned = (s.warned || (s.se x).onList || decide (maxRtPrio ≤ (view H s x).prio)) := by
  unfold putOn
  simp only [if_pos hmove]
  rfl

/-- What `__dequeue_rt_entity` warns of. -/
theorem dequeueEntity_warned (H : Hierarchy Q E) (s : Rq Q E) (x : E) {flags : Flags} (hmove : moveEntity flags = true) :
    (dequeueEntity H s x flags).warned = (s.warned || !(s.se x).onList ||
      decWarns (view H s x) (s.rq (H.rtRq x)) ((dequeueEntity H s x flags).rq (H.rtRq x))) := by
  rw [(dequeueEntity_moved H s x hmove).self]
  unfold dequeueEntity delist
  simp only [if_pos hmove]
  simp [decWarns, RtRq.delist, RtRq.dec, view]

end

/-- Only the entity above sees the queue of this one. -/
theorem Moved.view_eq [DecidableEq E] {on : Bool} {f : RtRq E → RtRq E} (h : Moved H x s t on f) {e : E}
    (he : H.myQ e ≠ some (H.rtRq x)) : view H t e = view H s e := by
  unfold view
  cases hq : H.myQ e with
  | some q =>
    have hne : q ≠ H.rtRq x := fun heq => he (hq.trans (congrArg some heq))
    simp only [h.others q hne]
  | none =>
    by_cases hex : e = x
    · subst hex
      simp only [h.seSelf]
    · simp only [h.seOthers e hex]

/-- The other entities are on their queues or not, as before. -/
theorem Moved.on_iff {on : Bool} {f : RtRq E → RtRq E} (h : Moved H x s t on f) {e : E} (he : e ≠ x) (q : Q) :
    On H t q e ↔ On H s q e := by
  unfold On
  rw [h.seOthers e he]

section

variable [DecidableEq Q] [Fintype E]

/-- A queue is as before if only its flags have changed, and nothing that is on it looks different. -/
theorem Local.congr (h : Local H s q) {rtThrottled rtQueued : Bool}
    (hrq : t.rq q = { s.rq q with rtThrottled := rtThrottled, rtQueued := rtQueued }) (hon : ∀ e, On H t q e ↔ On H s q e)
    (hview : ∀ e, On H s q e → view H t e = view H s e) : Local H t q where
  nodup := by rw [hrq]; exact h.nodup
  mem p e := by
    rw [hrq, hon e]
    refine (h.mem p e).trans (and_congr_right fun he => ?_)
    rw [hview e he]
  bits := by rw [hrq]; exact h.bits
  range e he := by
    have he := (hon e).1 he
    rw [hview e he]
    exact h.range e he
  nr := by rw [hrq, tally_congr hon hview]; exact h.nr
  rr := by rw [hrq, tally_congr hon hview]; exact h.rr
  boosted := by rw [hrq, tally_congr hon hview]; exact h.boosted
  highest_le e he := by
    have he := (hon e).1 he
    rw [hrq, hview e he]
    exact h.highest_le e he
  highest_on hne := by
    rw [hrq] at hne ⊢
    obtain ⟨e, he, hprio⟩ := h.highest_on hne
    refine ⟨e, (hon e).2 he, ?_⟩
    rw [hview e he]
    exact hprio
  highest_none := by rw [hrq]; exact h.highest_none

/-- A queue something is on counts something. -/
theorem Local.nr_ne_zero (h : Local H s q) (hon : On H s q x) : (s.rq q).rtNrRunning ≠ 0 := by
  have hle := le_tally hon View.nr
  have hne := (h.range x hon).2
  rw [h.nr]
  omega

/-- The first bit is that of the highest priority. -/
theorem Local.findFirstBit_eq (h : Local H s q) (hne : (s.rq q).rtNrRunning ≠ 0) :
    findFirstBit (s.rq q).bitmap = (s.rq q).highestPrio := by
  obtain ⟨a, hon, hprio⟩ := h.highest_on hne
  obtain ⟨hle, hlist⟩ := findFirstBit_queue h.bits (hprio ▸ (h.range a hon).1) (List.ne_nil_of_mem ((h.mem _ a).2 ⟨hon, hprio⟩))
  obtain ⟨e, hmem⟩ := List.exists_mem_of_ne_nil _ hlist
  obtain ⟨hone, hfirst⟩ := (h.mem _ e).1 hmem
  have hlow := h.highest_le e hone
  omega

/-- Nothing is boosted where nothing is counted. -/
theorem Local.boosted_eq_zero (h : Local H s q) (hzero : (s.rq q).rtNrRunning = 0) : (s.rq q).rtNrBoosted = 0 := by
  rw [h.boosted]
  exact tally_eq_zero (fun e he => h.nr_ne_zero he hzero) View.boosts

variable [DecidableEq E]

/-- The queue an entity comes to. -/
theorem Local.come {head : Bool} (h : Local H s (H.rtRq x)) (hoff : (s.se x).onRq = false) (hprio : (view H s x).prio < maxRtPrio)
    (hnr : (view H s x).nr ≠ 0)
    (hmoved : Moved H x s t true fun rq => (rq.list x (view H s x).prio head).inc (view H s x)) : Local H t (H.rtRq x) := by
  have hview : ∀ e, On H t (H.rtRq x) e → view H t e = view H s e := fun e he => by
    refine hmoved.view_eq fun hq => ?_
    have hdepth := H.depth_myQ e _ hq
    rw [he.1] at hdepth
    omega
  have hnot : ¬On H s (H.rtRq x) x := fun he => absurd (hoff.symm.trans he.2) Bool.false_ne_true
  have hself : On H t (H.rtRq x) x := ⟨rfl, by rw [hmoved.seSelf]⟩
  have hon : ∀ e, On H t (H.rtRq x) e ↔ e = x ∨ On H s (H.rtRq x) e := fun e => by
    by_cases he : e = x
    · subst he
      simp [hself]
    · simp [hmoved.on_iff he, he]
  have htally := fun f => tally_come hnot hself (fun e he => hmoved.on_iff he _) hview f
  have hqueue : ∀ p e, e ∈ (t.rq (H.rtRq x)).queue p ↔ (e = x ∧ (view H s x).prio = p) ∨ e ∈ (s.rq (H.rtRq x)).queue p :=
    fun p e => by
    rw [hmoved.self]
    simp only [RtRq.inc, RtRq.list]
    by_cases hp : p = (view H s x).prio
    · subst hp
      rw [Function.update_self]
      split <;> simp [or_comm]
    · rw [Function.update_of_ne hp]
      simp [Ne.symm hp]
  have hviewx := hview x hself
  refine ⟨fun p => ?_, fun p e => ?_, fun p => ?_, fun e he => ?_, ?_, ?_, ?_, fun e he => ?_, fun _ => ?_, fun hzero => ?_⟩
  · have hnotin : x ∉ (s.rq (H.rtRq x)).queue p := fun hmem => hnot ((h.mem p x).1 hmem).1
    rw [hmoved.self]
    simp only [RtRq.inc, RtRq.list]
    by_cases hp : p = (view H s x).prio
    · subst hp
      rw [Function.update_self]
      split
      · exact List.nodup_cons.2 ⟨hnotin, h.nodup _⟩
      · exact (h.nodup _).append (List.nodup_singleton x) (by simpa using hnotin)
    · rw [Function.update_of_ne hp]
      exact h.nodup p
  · rw [hqueue, h.mem, hon]
    by_cases he : e = x
    · subst he
      simp [hnot, hviewx]
    · simp only [he, false_and, false_or]
      refine and_congr_right fun hone => ?_
      rw [hview e ((hon e).2 (Or.inr hone))]
  · by_cases hp : p = (view H s x).prio
    · have hmem : x ∈ (t.rq (H.rtRq x)).queue p := (hqueue p x).2 (Or.inl ⟨rfl, hp.symm⟩)
      have hbit : (t.rq (H.rtRq x)).bitmap p = true := by
        rw [hmoved.self, hp]
        simp [RtRq.inc, RtRq.list]
      exact iff_of_true hbit (Or.inl (List.ne_nil_of_mem hmem))
    · rw [hmoved.self]
      simp only [RtRq.inc, RtRq.list, Function.update_of_ne hp]
      exact h.bits p
  · rw [hview e he]
    rcases (hon e).1 he with rfl | hone
    · exact ⟨hprio, hnr⟩
    · exact h.range e hone
  · rw [htally, ← h.nr, hmoved.self]
    rfl
  · rw [htally, ← h.rr, hmoved.self]
    rfl
  · rw [htally, ← h.boosted, hmoved.self, RtRq.inc_rtNrBoosted]
    rfl
  · rw [hview e he, hmoved.self, RtRq.inc_highestPrio, RtRq.list_highestPrio]
    rcases (hon e).1 he with rfl | hone
    · exact min_le_left ..
    · exact (min_le_right ..).trans (h.highest_le e hone)
  · rw [hmoved.self, RtRq.inc_highestPrio, RtRq.list_highestPrio]
    by_cases hfirst : (view H s x).prio ≤ (s.rq (H.rtRq x)).highestPrio
    · refine ⟨x, hself, ?_⟩
      rw [hviewx, min_eq_left hfirst]
    · -- without anything queued the highest priority is the last there is
      have hne : (s.rq (H.rtRq x)).rtNrRunning ≠ 0 := fun hzero => by
        have hnone := h.highest_none hzero
        omega
      obtain ⟨e, hone, hhigh⟩ := h.highest_on hne
      have hone' := (hon e).2 (Or.inr hone)
      refine ⟨e, hone', ?_⟩
      rw [hview e hone', hhigh, min_eq_right (not_le.1 hfirst).le]
  · rw [hmoved.self] at hzero
    simp only [RtRq.inc, RtRq.list] at hzero
    omega

/-- The queue an entity leaves, and that there is nothing to warn of. -/
theorem Local.go (h : Local H s (H.rtRq x)) (hself : On H s (H.rtRq x) x)
    (hmoved : Moved H x s t false fun rq => (rq.delist x (view H s x).prio).dec (view H s x)) :
    Local H t (H.rtRq x) ∧ decWarns (view H s x) (s.rq (H.rtRq x)) (t.rq (H.rtRq x)) = false := by
  have hview : ∀ e, On H s (H.rtRq x) e → view H t e = view H s e := fun e he => by
    refine hmoved.view_eq fun hq => ?_
    have hdepth := H.depth_myQ e _ hq
    rw [he.1] at hdepth
    omega
  have hnot : ¬On H t (H.rtRq x) x := fun he => by
    have hon := he.2
    rw [hmoved.seSelf] at hon
    cases hon
  have hon : ∀ e, On H t (H.rtRq x) e ↔ e ≠ x ∧ On H s (H.rtRq x) e := fun e => by
    by_cases he : e = x
    · subst he
      simp [hnot]
    · simp [hmoved.on_iff he, he]
  have htally := fun f => tally_come hnot hself (fun e he => (hmoved.on_iff he _).symm) (fun e he => (hview e he).symm) f
  rw [hview x hself] at htally
  have hqueue : ∀ p, (t.rq (H.rtRq x)).queue p = ((s.rq (H.rtRq x)).queue p).erase x := fun p => by rw [hmoved.self]; rfl
  have hmem : ∀ p e, e ∈ (t.rq (H.rtRq x)).queue p ↔ e ≠ x ∧ e ∈ (s.rq (H.rtRq x)).queue p := fun p e => by
    rw [hqueue, (h.nodup p).mem_erase_iff]
  have hbits : ∀ p, (t.rq (H.rtRq x)).bitmap p = true ↔ (t.rq (H.rtRq x)).queue p ≠ [] ∨ p = maxRtPrio := fun p => by
    rw [hqueue, hmoved.self]
    simp only [RtRq.dec, RtRq.delist]
    by_cases hp : p = (view H s x).prio
    · subst hp
      have hold := h.bits (view H s x).prio
      by_cases hempty : ((s.rq (H.rtRq x)).queue (view H s x).prio).erase x = []
      · rw [if_pos (List.isEmpty_iff.2 hempty), Function.update_self]
        simp [hempty, (h.range x hself).1.ne]
      · rw [if_neg (mt List.isEmpty_iff.1 hempty), hold]
        simp [hempty, List.ne_nil_of_mem ((h.mem _ x).2 ⟨hself, rfl⟩)]
    · have hnotin : x ∉ (s.rq (H.rtRq x)).queue p := fun hx => hp ((h.mem p x).1 hx).2.symm
      rw [List.erase_of_not_mem hnotin, ← h.bits p]
      split
      · rw [Function.update_of_ne hp]
      · rfl
  have hnr : (t.rq (H.rtRq x)).rtNrRunning = tally H t View.nr (H.rtRq x) := by
    have hsum := htally View.nr
    rw [← h.nr] at hsum
    rw [hmoved.self]
    simp only [RtRq.dec, RtRq.delist]
    omega
  have hboosted : (t.rq (H.rtRq x)).rtNrBoosted = tally H t View.boosts (H.rtRq x) := by
    have hsum := htally View.boosts
    rw [← h.boosted] at hsum
    rw [hmoved.self, RtRq.dec_rtNrBoosted]
    simp only [RtRq.delist]
    omega
  have hhigh : (t.rq (H.rtRq x)).highestPrio = if (t.rq (H.rtRq x)).rtNrRunning ≠ 0 then
      if (view H s x).prio = (s.rq (H.rtRq x)).highestPrio then findFirstBit (t.rq (H.rtRq x)).bitmap
      else (s.rq (H.rtRq x)).highestPrio
    else maxRtPrio - 1 := by
    rw [hmoved.self]
    rfl
  have hrange : ∀ e, On H t (H.rtRq x) e → (view H t e).prio < maxRtPrio ∧ (view H t e).nr ≠ 0 := fun e he => by
    have hone := ((hon e).1 he).2
    rw [hview e hone]
    exact h.range e hone
  have hmem' : ∀ p e, e ∈ (t.rq (H.rtRq x)).queue p ↔ On H t (H.rtRq x) e ∧ (view H t e).prio = p := fun p e => by
    rw [hmem, h.mem, hon, and_assoc]
    exact and_congr_right fun _ => and_congr_right fun hone => by rw [hview e hone]
  have hexists : (t.rq (H.rtRq x)).rtNrRunning ≠ 0 → ∃ e, On H t (H.rtRq x) e := fun hne => by
    by_contra hnone
    exact hne (hnr.trans (tally_eq_zero (not_exists.1 hnone) View.nr))
  refine ⟨⟨fun p => ?_, hmem', hbits, hrange, hnr, ?_, hboosted, fun e he => ?_, fun hne => ?_, fun hzero => ?_⟩, ?_⟩
  · rw [hqueue]
    exact (h.nodup p).erase x
  · have hsum := htally View.rr
    rw [← h.rr] at hsum
    rw [hmoved.self]
    simp only [RtRq.dec, RtRq.delist]
    omega
  · have hle := le_tally he View.nr
    have hne : (t.rq (H.rtRq x)).rtNrRunning ≠ 0 := by
      have := (hrange e he).2
      omega
    rw [hhigh, if_pos hne]
    split
    · exact findFirstBit_le ((hbits _).2 (Or.inl (List.ne_nil_of_mem ((hmem' _ e).2 ⟨he, rfl⟩))))
    · rw [hview e ((hon e).1 he).2]
      exact h.highest_le e ((hon e).1 he).2
  · rw [hhigh, if_pos hne]
    split
    · obtain ⟨e, he⟩ := hexists hne
      obtain ⟨_, hlist⟩ := findFirstBit_queue hbits (hrange e he).1 (List.ne_nil_of_mem ((hmem' _ e).2 ⟨he, rfl⟩))
      obtain ⟨e', he'⟩ := List.exists_mem_of_ne_nil _ hlist
      exact ⟨e', (hmem' _ e').1 he'⟩
    · rename_i hprio
      obtain ⟨e, hone, hfirst⟩ := h.highest_on (h.nr_ne_zero hself)
      have hne' : e ≠ x := fun heq => hprio (heq ▸ hfirst)
      refine ⟨e, (hon e).2 ⟨hne', hone⟩, ?_⟩
      rw [hview e hone]
      exact hfirst
  · rw [hhigh, if_neg (not_not.2 hzero)]
  · refine decWarns_eq_false (h.range x hself).1 (h.nr_ne_zero hself) (h.highest_le x hself) fun hzero => ?_
    refine hboosted.trans (tally_eq_zero (fun e he => ?_) _)
    have hle := le_tally he View.nr
    have := (hrange e he).2
    omega

end

end OsLab.RtQueue
