import OsLab.Lemmas.RtQueueSteps

/-!
# What is under a queue

`Reaches` says that an entity and all that are above it, up to one of the queue `q`, are on their queues. What an `rt_rq` counts
and its highest priority are those of the tasks that reach it, and the pick goes down to the best of them.
-/

namespace OsLab.RtQueue

open Rq

variable {Q E : Type} {H : Hierarchy Q E} {s : Rq Q E} {q : Q} {e t : E}

/-- On its queue, and so all that are above it up to one of `q`. -/
inductive Reaches (H : Hierarchy Q E) (s : Rq Q E) (q : Q) : E → Prop where
  | here {e : E} : On H s q e → Reaches H s q e
  | up {e p : E} : (s.se e).onRq = true → H.rtSe (H.rtRq e) = some p → Reaches H s q p → Reaches H s q e

/-- It is the entity itself, or in the group of the entity. -/
def Below (H : Hierarchy Q E) (s : Rq Q E) (e t : E) : Prop := t = e ∨ ∃ q, H.myQ e = some q ∧ Reaches H s q t

theorem Reaches.through {g : E} {q' : Q} (hg : On H s q g) (hmy : H.myQ g = some q') (h : Reaches H s q' t) : Reaches H s q t := by
  induction h with
  | here hon => exact .up hon.2 ((H.rtSe_iff _ g).2 (hon.1 ▸ hmy)) (.here hg)
  | up hon hp _ ih => exact .up hon hp ih

/-- The entity of the queue that it is under. -/
theorem reaches_iff : Reaches H s q t ↔ ∃ e, On H s q e ∧ Below H s e t := by
  constructor
  · intro h
    induction h with
    | here hon => exact ⟨_, hon, Or.inl rfl⟩
    | @up e p hon hp _ ih =>
      obtain ⟨g, hg, rfl | ⟨q', hmy, hreach⟩⟩ := ih
      · exact ⟨p, hg, Or.inr ⟨H.rtRq e, (H.rtSe_iff _ p).1 hp, .here ⟨rfl, hon⟩⟩⟩
      · exact ⟨g, hg, Or.inr ⟨q', hmy, .up hon hp hreach⟩⟩
  · rintro ⟨g, hg, rfl | ⟨q', hmy, hreach⟩⟩
    · exact .here hg
    · exact hreach.through hg hmy

theorem Below.mem_stack (h : Below H s e t) : e ∈ H.stack t := by
  rcases h with rfl | ⟨q, hmy, hreach⟩
  · exact H.mem_stack_self t
  · induction hreach with
    | @here t hon =>
      have hp : H.rtSe (H.rtRq t) = some e := (H.rtSe_iff _ e).2 (hon.1 ▸ hmy)
      rw [Hierarchy.stack_parent hp]
      exact List.mem_cons_of_mem t (H.mem_stack_self e)
    | @up t p _ hp _ ih =>
      rw [Hierarchy.stack_parent hp]
      exact List.mem_cons_of_mem t ih

/-- A stack has one entity of a queue. -/
theorem Hierarchy.eq_of_mem_stack (H : Hierarchy Q E) :
    ∀ t a b : E, a ∈ H.stack t → b ∈ H.stack t → H.rtRq a = H.rtRq b → a = b := by
  refine Hierarchy.stack_induction (H := H) (fun t hp a b ha hb _ => ?_) fun t p hp ih a b ha hb heq => ?_
  · rw [Hierarchy.stack_root hp, List.mem_singleton] at ha hb
    rw [ha, hb]
  · rw [Hierarchy.stack_parent hp] at ha hb
    have hdeep : ∀ c ∈ H.stack p, H.rtRq c ≠ H.rtRq t := fun c hc he => by
      have hle := H.depth_le_of_mem_stack p c hc
      have hlt := H.depth_lt hp
      rw [he] at hle
      omega
    rcases List.mem_cons.1 ha with hat | hap <;> rcases List.mem_cons.1 hb with hbt | hbp
    · rw [hat, hbt]
    · exact absurd (heq.symm.trans (congrArg H.rtRq hat)) (hdeep b hbp)
    · exact absurd (heq.trans (congrArg H.rtRq hbt)) (hdeep a hap)
    · exact ih a b hap hbp heq

variable [DecidableEq Q] [Fintype E]

/-! ## Counting -/

open Classical in
/-- `rt_nr_running` is the number of tasks under the queue. -/
theorem Pre.nr_eq_card (h : Pre H [] s) (q : Q) :
    (s.rq q).rtNrRunning = (Finset.univ.filter fun t => H.myQ t = none ∧ Reaches H s q t).card := by
  -- from the bottom up
  induction hk : H.height - H.depth q using Nat.strong_induction_on generalizing q with
  | _ k ih =>
    have hview : ∀ e, On H s q e → (view H s e).nr = (Finset.univ.filter fun t => H.myQ t = none ∧ Below H s e t).card :=
      fun e he => by
      cases hmy : H.myQ e with
      | none =>
        have hself : (Finset.univ.filter fun t => H.myQ t = none ∧ Below H s e t) = {e} := by
          ext t
          simp only [Finset.mem_filter, Finset.mem_univ, true_and, Finset.mem_singleton, Below, hmy]
          constructor
          · rintro ⟨_, rfl | ⟨_, hno, _⟩⟩
            · rfl
            · cases hno
          · rintro rfl
            exact ⟨hmy, Or.inl rfl⟩
        rw [hself, Finset.card_singleton]
        unfold view
        rw [hmy]
      | some q' =>
        have hdepth := H.depth_myQ e q' hmy
        have hle := H.depth_le q'
        rw [he.1] at hdepth
        have hsame : (Finset.univ.filter fun t => H.myQ t = none ∧ Below H s e t) =
            Finset.univ.filter fun t => H.myQ t = none ∧ Reaches H s q' t := by
          ext t
          simp only [Finset.mem_filter, Finset.mem_univ, true_and, Below, hmy]
          refine and_congr_right fun htask => ⟨?_, fun hr => Or.inr ⟨q', rfl, hr⟩⟩
          rintro (rfl | ⟨_, hq, hr⟩)
          · exact absurd (htask.symm.trans hmy) (Option.some_ne_none q').symm
          · exact Option.some.inj hq ▸ hr
        rw [hsame, ← ih _ (by omega) q' rfl]
        unfold view
        rw [hmy]
    have hunion : (Finset.univ.filter fun t => H.myQ t = none ∧ Reaches H s q t) =
        (Finset.univ.filter fun e => On H s q e).biUnion fun e => Finset.univ.filter fun t => H.myQ t = none ∧ Below H s e t := by
      ext t
      simp only [Finset.mem_filter, Finset.mem_univ, true_and, Finset.mem_biUnion, reaches_iff]
      exact ⟨fun ⟨htask, e, hon, hb⟩ => ⟨e, hon, htask, hb⟩, fun ⟨e, hon, htask, hb⟩ => ⟨htask, e, hon, hb⟩⟩
    rw [(h.queues q).nr, hunion, Finset.card_biUnion]
    · unfold tally
      rw [← Finset.sum_filter]
      exact Finset.sum_congr (Finset.filter_congr_decidable ..) fun e he => hview e (Finset.mem_filter.1 he).2
    · intro a ha b hb hne
      refine Finset.disjoint_left.2 fun t hta htb => hne ?_
      have ha := (Finset.mem_filter.1 ha).2
      have hb := (Finset.mem_filter.1 hb).2
      exact H.eq_of_mem_stack t a b (Finset.mem_filter.1 hta).2.2.mem_stack (Finset.mem_filter.1 htb).2.2.mem_stack
        (ha.1.trans hb.1.symm)

/-! ## The pick -/

/-- No task under a queue is better than its highest priority. -/
theorem Pre.highest_le_view (h : Pre H [] s) (hreach : Reaches H s q e) : (s.rq q).highestPrio ≤ (view H s e).prio := by
  induction hreach with
  | here hon => exact (h.queues q).highest_le _ hon
  | @up e p hon hp _ ih =>
    have hview : (view H s p).prio = (s.rq (H.rtRq e)).highestPrio := by
      unfold view
      rw [(H.rtSe_iff _ p).1 hp]
    exact (hview ▸ ih).trans ((h.queues (H.rtRq e)).highest_le e ⟨rfl, hon⟩)

/-- `pick_next_rt_entity` takes one of the highest priority. -/
theorem Local.pick (h : Local H s q) (hne : (s.rq q).rtNrRunning ≠ 0) :
    ∃ e, pickNextRtEntity (s.rq q) = some e ∧ On H s q e ∧ (view H s e).prio = (s.rq q).highestPrio := by
  obtain ⟨a, ha⟩ := h.highest_on hne
  obtain ⟨e, l, hhead⟩ := List.exists_cons_of_ne_nil (List.ne_nil_of_mem ((h.mem _ a).2 ha))
  refine ⟨e, ?_, (h.mem _ e).1 (hhead ▸ List.mem_cons_self)⟩
  unfold pickNextRtEntity
  rw [h.findFirstBit_eq hne, hhead]
  rfl

/-- The loop of `_pick_next_task_rt` ends with a task of the highest priority there is under the queue. -/
theorem Pre.pickFrom (h : Pre H [] s) {k : Nat} (hk : H.height < k + H.depth q) (hne : (s.rq q).rtNrRunning ≠ 0) :
    ∃ t, pickFrom H s k q = some t ∧ H.myQ t = none ∧ Reaches H s q t ∧ (s.se t).prio = (s.rq q).highestPrio := by
  induction k generalizing q with
  | zero =>
    have hle := H.depth_le q
    omega
  | succ k ih =>
    obtain ⟨e, hpick, hon, hprio⟩ := (h.queues q).pick hne
    unfold RtQueue.pickFrom
    rw [hpick]
    dsimp only
    unfold view at hprio
    cases hmy : H.myQ e with
    | none =>
      rw [hmy] at hprio
      exact ⟨e, rfl, hmy, .here hon, hprio⟩
    | some q' =>
      rw [hmy] at hprio
      have hdepth := H.depth_myQ e q' hmy
      have hgroup := (h.group e q' List.not_mem_nil hmy).1 hon.2
      rw [hon.1] at hdepth
      obtain ⟨t, hfrom, htask, hreach, hhigh⟩ := ih (by omega) hgroup.2
      exact ⟨t, hfrom, htask, hreach.through hon hmy, hhigh.trans hprio⟩

end OsLab.RtQueue
