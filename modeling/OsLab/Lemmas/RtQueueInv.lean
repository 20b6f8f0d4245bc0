import OsLab.Lemmas.RtQueueLocal

/-!
# The queue and its groups

An entity of a group is on its queue if and only if the group is not throttled and has something in it. An operation opens the
stack of an entity: `Pre` leaves out the groups in it, and `Off` says that they are off their queues. The stack is taken off from
the top, and closed again from the bottom.
-/

namespace OsLab.RtQueue

open Rq

variable {Q E : Type} {H : Hierarchy Q E} {s t u : Rq Q E} {q : Q} {x e : E}

/-! ## Stacks -/

namespace Hierarchy

/-- A stack that ends here. -/
theorem stack_root (hp : H.rtSe (H.rtRq x) = none) : H.stack x = [x] := by
  unfold stack
  cases H.depth (H.rtRq x) with
  | zero => rfl
  | succ k =>
    unfold stackFrom
    rw [hp]

/-- A stack that goes on above. -/
theorem stack_parent {p : E} (hp : H.rtSe (H.rtRq x) = some p) : H.stack x = x :: H.stack p := by
  have hdepth := H.depth_myQ p _ ((H.rtSe_iff _ p).1 hp)
  unfold stack
  rw [hdepth, stackFrom, hp]

/-- Those above are less deep. -/
theorem depth_lt {p : E} (hp : H.rtSe (H.rtRq x) = some p) : H.depth (H.rtRq p) < H.depth (H.rtRq x) := by
  have hdepth := H.depth_myQ p _ ((H.rtSe_iff _ p).1 hp)
  omega

/-- The rule for what goes up the stack. -/
theorem stack_induction {P : E → Prop} (htop : ∀ x, H.rtSe (H.rtRq x) = none → P x)
    (hup : ∀ x p, H.rtSe (H.rtRq x) = some p → P p → P x) (x : E) : P x := by
  induction hk : H.depth (H.rtRq x) using Nat.strong_induction_on generalizing x with
  | _ k ih =>
    cases hp : H.rtSe (H.rtRq x) with
    | none => exact htop x hp
    | some p => exact hup x p hp (ih _ (hk ▸ H.depth_lt hp) p rfl)

/-- Nothing in a stack is deeper than its bottom. -/
theorem depth_le_of_mem_stack (H : Hierarchy Q E) : ∀ x y : E, y ∈ H.stack x → H.depth (H.rtRq y) ≤ H.depth (H.rtRq x) := by
  refine stack_induction (H := H) (fun x hp y hy => ?_) fun x p hp ih y hy => ?_
  · rw [stack_root hp, List.mem_singleton] at hy
    rw [hy]
  · rw [stack_parent hp] at hy
    rcases List.mem_cons.1 hy with rfl | hy
    · exact le_refl _
    · exact (ih y hy).trans (H.depth_lt hp).le

/-- The stack above an entity is without it. -/
theorem not_mem_stack_parent {p : E} (hp : H.rtSe (H.rtRq x) = some p) : x ∉ H.stack p := fun hmem =>
  absurd (H.depth_le_of_mem_stack p x hmem) (not_le.2 (H.depth_lt hp))

theorem mem_stack_self (H : Hierarchy Q E) (x : E) : x ∈ H.stack x := by
  cases hp : H.rtSe (H.rtRq x) with
  | none => rw [stack_root hp]; exact List.mem_singleton_self x
  | some p => rw [stack_parent hp]; exact List.mem_cons_self

/-- The root is the queue of no entity. -/
theorem myQ_ne_root (H : Hierarchy Q E) (e : E) : H.myQ e ≠ some H.root := fun h => by
  have hnone := (H.rtSe_root H.root).2 rfl
  rw [(H.rtSe_iff H.root e).2 h] at hnone
  cases hnone

end Hierarchy

/-! ## The invariant, with a stack open -/

/-- What coming and going leaves alone. -/
structure Same (s t : Rq Q E) : Prop where
  nrRunning : t.nrRunning = s.nrRunning
  throttled : ∀ q, (t.rq q).rtThrottled = (s.rq q).rtThrottled
  queued : ∀ q, (t.rq q).rtQueued = (s.rq q).rtQueued

theorem Same.refl (s : Rq Q E) : Same s s := ⟨rfl, fun _ => rfl, fun _ => rfl⟩

theorem Same.trans (h : Same s t) (h' : Same t u) : Same s u :=
  ⟨h'.nrRunning.trans h.nrRunning, fun q => (h'.throttled q).trans (h.throttled q), fun q => (h'.queued q).trans (h.queued q)⟩

/-- `nr_running` counts the queue if it is there. -/
structure Top (H : Hierarchy Q E) (s : Rq Q E) : Prop where
  count : s.nrRunning = if (s.rq H.root).rtQueued then (s.rq H.root).rtNrRunning else 0
  some : (s.rq H.root).rtQueued = true → (s.rq H.root).rtNrRunning ≠ 0

/-- The flags of all queues stay. -/
theorem Moved.same [DecidableEq Q] {on : Bool} {f : RtRq E → RtRq E} (h : Moved H x s t on f)
    (hf : ∀ rq, (f rq).rtThrottled = rq.rtThrottled ∧ (f rq).rtQueued = rq.rtQueued) : Same s t := by
  refine ⟨h.nrRunning, fun q => ?_, fun q => ?_⟩
  · by_cases hq : q = H.rtRq x
    · rw [hq, h.self]
      exact (hf _).1
    · rw [h.others q hq]
  · by_cases hq : q = H.rtRq x
    · rw [hq, h.self]
      exact (hf _).2
    · rw [h.others q hq]

variable [DecidableEq Q] [Fintype E]

/-- What holds while the groups of `opened` are being looked after. -/
structure Pre (H : Hierarchy Q E) (opened : List E) (s : Rq Q E) : Prop where
  queues : ∀ q, Local H s q
  listed : ∀ e, (s.se e).onList = (s.se e).onRq
  group : ∀ e q, e ∉ opened → H.myQ e = some q → ((s.se e).onRq = true ↔ (s.rq q).throttled = false ∧ (s.rq q).rtNrRunning ≠ 0)
  prio : ∀ e, H.myQ e = none → (s.se e).prio < maxRtPrio
  warned : s.warned = false

/-- The entity above is open, and off its queue. -/
def Above (H : Hierarchy Q E) (opened : List E) (s : Rq Q E) (x : E) : Prop :=
  ∀ p, H.rtSe (H.rtRq x) = some p → p ∈ opened ∧ (s.se p).onRq = false

/-- The stack is open, and off. -/
structure Off (H : Hierarchy Q E) (opened : List E) (s : Rq Q E) : Prop where
  pre : Pre H opened s
  off : ∀ e ∈ opened, (s.se e).onRq = false

/-- Closing the stack, from the bottom up. -/
theorem Off.close {g : Rq Q E → E → Rq Q E}
    (hstep : ∀ x rest s, Off H (x :: rest) s → Above H rest s x → x ∉ rest → Off H rest (g s x) ∧ Same s (g s x)) :
    ∀ x s, Off H (H.stack x) s → Off H [] ((H.stack x).foldl g s) ∧ Same s ((H.stack x).foldl g s) := by
  refine Hierarchy.stack_induction (H := H) (fun x hp s h => ?_) fun x p hp ih s h => ?_
  · rw [Hierarchy.stack_root hp] at h ⊢
    exact hstep x [] s h (fun p hp' => absurd (hp.symm.trans hp') (Option.some_ne_none p).symm) List.not_mem_nil
  · rw [Hierarchy.stack_parent hp] at h ⊢
    have habove : Above H (H.stack p) s x := fun p' hp' => by
      obtain rfl := Option.some.inj (hp.symm.trans hp')
      exact ⟨H.mem_stack_self p, h.off p (List.mem_cons_of_mem x (H.mem_stack_self p))⟩
    obtain ⟨hoff, hsame⟩ := hstep x _ s h habove (Hierarchy.not_mem_stack_parent hp)
    obtain ⟨hclosed, hsame'⟩ := ih _ hoff
    exact ⟨hclosed, hsame.trans hsame'⟩

variable [DecidableEq E]

/-- The other queues, when an entity comes or goes. -/
theorem Moved.local_of_ne {on : Bool} {f : RtRq E → RtRq E} (h : Moved H x s t on f) {opened : List E} (habove : Above H opened s x)
    (hq : q ≠ H.rtRq x) (hlocal : Local H s q) : Local H t q := by
  refine hlocal.congr (h.others q hq) (fun e => ?_) fun e he => h.view_eq fun hmy => ?_
  · by_cases hex : e = x
    · subst hex
      exact iff_of_false (fun hon => hq hon.1.symm) fun hon => hq hon.1.symm
    · exact h.on_iff hex q
  · have hoff := (habove e ((H.rtSe_iff _ e).2 hmy)).2
    exact absurd (hoff.symm.trans he.2) Bool.false_ne_true

/-- The rest of the invariant, when an entity comes or goes. -/
theorem Pre.moved {on : Bool} {f : RtRq E → RtRq E} {opened rest : List E} (h : Pre H opened s) (hmoved : Moved H x s t on f)
    (habove : Above H rest s x) (hopened : ∀ e, e ∉ rest → e ≠ x → e ∉ opened) (hlocal : Local H t (H.rtRq x))
    (hgroup : ∀ q, x ∉ rest → H.myQ x = some q → (on = true ↔ (s.rq q).throttled = false ∧ (s.rq q).rtNrRunning ≠ 0))
    (hwarned : t.warned = false) : Pre H rest t := by
  refine ⟨fun q => ?_, fun e => ?_, fun e q he hmy => ?_, fun e hmy => ?_, hwarned⟩
  · by_cases hq : q = H.rtRq x
    · exact hq ▸ hlocal
    · exact hmoved.local_of_ne habove hq (h.queues q)
  · by_cases hex : e = x
    · subst hex
      rw [hmoved.seSelf]
    · rw [hmoved.seOthers e hex]
      exact h.listed e
  · have hq : q ≠ H.rtRq x := fun heq => he (habove e ((H.rtSe_iff _ e).2 (heq ▸ hmy))).1
    rw [hmoved.others q hq]
    by_cases hex : e = x
    · subst hex
      rw [hmoved.seSelf]
      exact hgroup q he hmy
    · rw [hmoved.seOthers e hex]
      exact h.group e q (hopened e he hex) hmy
  · by_cases hex : e = x
    · subst hex
      rw [hmoved.seSelf]
      exact h.prio e hmy
    · rw [hmoved.seOthers e hex]
      exact h.prio e hmy

/-! ## One entity -/

/-- `__dequeue_rt_entity`. -/
theorem Pre.dequeue {opened : List E} {flags : Flags} (hmove : moveEntity flags = true) (h : Pre H opened s) (hx : x ∈ opened)
    (hon : (s.se x).onRq = true) (habove : Above H opened s x) :
    Pre H opened (dequeueEntity H s x flags) ∧ Same s (dequeueEntity H s x flags) ∧
      ∀ e, ((dequeueEntity H s x flags).se e).onRq = if e = x then false else (s.se e).onRq := by
  have hmoved := dequeueEntity_moved H s x hmove
  obtain ⟨hlocal, hwarns⟩ := (h.queues (H.rtRq x)).go ⟨rfl, hon⟩ hmoved
  have hwarned : (dequeueEntity H s x flags).warned = false := by
    rw [dequeueEntity_warned H s x hmove, hwarns, h.warned, h.listed x, hon]
    rfl
  refine ⟨h.moved hmoved habove (fun e he _ => he) hlocal (fun q hnot _ => absurd hx hnot) hwarned,
    hmoved.same fun rq => ⟨rfl, rfl⟩, fun e => ?_⟩
  split
  · rename_i hex
    rw [hex, hmoved.seSelf]
  · rename_i hex
    rw [hmoved.seOthers e hex]

/-- `__enqueue_rt_entity` for one that is to be queued. -/
theorem Off.putOn {rest : List E} {flags : Flags} (hmove : moveEntity flags = true) (h : Off H (x :: rest) s)
    (habove : Above H rest s x) (hsome : ∀ q, H.myQ x = some q → (s.rq q).throttled = false ∧ (s.rq q).rtNrRunning ≠ 0)
    (hnot : x ∉ rest) : Off H rest (putOn H s x flags) ∧ Same s (putOn H s x flags) := by
  have hmoved := putOn_moved H s x hmove
  have hoff := h.off x List.mem_cons_self
  have hview : (view H s x).prio < maxRtPrio ∧ (view H s x).nr ≠ 0 := by
    unfold view
    cases hmy : H.myQ x with
    | none => exact ⟨h.pre.prio x hmy, one_ne_zero⟩
    | some q =>
      have hne := (hsome q hmy).2
      obtain ⟨e, hon, hprio⟩ := (h.pre.queues q).highest_on hne
      refine ⟨?_, hne⟩
      show (s.rq q).highestPrio < maxRtPrio
      rw [← hprio]
      exact ((h.pre.queues q).range e hon).1
  have hlocal := (h.pre.queues (H.rtRq x)).come hoff hview.1 hview.2 hmoved
  have hwarned : (RtQueue.putOn H s x flags).warned = false := by
    rw [putOn_warned H s x hmove, h.pre.warned, h.pre.listed x, hoff, decide_eq_false (not_le.2 hview.1)]
    rfl
  refine ⟨⟨h.pre.moved hmoved habove (fun e he hex hmem => ?_) hlocal (fun q _ hmy => iff_of_true rfl (hsome q hmy)) hwarned,
    fun e he => ?_⟩, hmoved.same fun rq => ⟨rfl, rfl⟩⟩
  · exact (List.mem_cons.1 hmem).elim hex he
  · rw [hmoved.seOthers e fun hex => hnot (hex ▸ he)]
    exact h.off e (List.mem_cons_of_mem x he)

/-- A group that is to stay off its queue. -/
theorem Off.leave {rest : List E} (h : Off H (x :: rest) s)
    (hnone : ∀ q, H.myQ x = some q → ¬((s.rq q).throttled = false ∧ (s.rq q).rtNrRunning ≠ 0)) : Off H rest s := by
  have hoff := h.off x List.mem_cons_self
  refine ⟨⟨h.pre.queues, h.pre.listed, fun e q he hmy => ?_, h.pre.prio, h.pre.warned⟩,
    fun e he => h.off e (List.mem_cons_of_mem x he)⟩
  by_cases hex : e = x
  · subst hex
    exact iff_of_false (Bool.eq_false_iff.1 hoff) (hnone q hmy)
  · exact h.pre.group e q (fun hmem => (List.mem_cons.1 hmem).elim hex he) hmy

/-- `__enqueue_rt_entity`. -/
theorem Off.enqueue {rest : List E} {flags : Flags} (hmove : moveEntity flags = true) (h : Off H (x :: rest) s)
    (habove : Above H rest s x) (hnot : x ∉ rest) :
    Off H rest (enqueueEntity H s x flags) ∧ Same s (enqueueEntity H s x flags) := by
  have hlist : (s.se x).onList = false := (h.pre.listed x).trans (h.off x List.mem_cons_self)
  unfold enqueueEntity
  split
  · rename_i hmy
    exact h.putOn hmove habove (fun q hq => absurd (hmy.symm.trans hq) (Option.some_ne_none q).symm) hnot
  · rename_i q hmy
    split
    · rename_i hclosed
      rw [if_neg (Bool.eq_false_iff.1 hlist)]
      refine ⟨h.leave fun q' hq' hopen => ?_, .refl s⟩
      obtain rfl := Option.some.inj (hmy.symm.trans hq')
      rcases hclosed with ht | hz
      · exact absurd (hopen.1.symm.trans ht) Bool.false_ne_true
      · exact hopen.2 hz
    · rename_i hopen
      obtain ⟨hthrottled, hne⟩ := not_or.1 hopen
      refine h.putOn hmove habove (fun q' hq' => ?_) hnot
      obtain rfl := Option.some.inj (hmy.symm.trans hq')
      exact ⟨Bool.eq_false_iff.2 hthrottled, hne⟩

/-- A group goes back if there is something in it. -/
theorem Off.putBack {rest : List E} {flags : Flags} (hmove : moveEntity flags = true) (h : Off H (x :: rest) s)
    (habove : Above H rest s x) (hnot : x ∉ rest) : Off H rest (putBack H flags s x) ∧ Same s (putBack H flags s x) := by
  unfold RtQueue.putBack
  split
  · rename_i hmy
    exact ⟨h.leave fun q hq => absurd (hmy.symm.trans hq) (Option.some_ne_none q).symm, .refl s⟩
  · rename_i q hmy
    split
    · exact h.enqueue hmove habove hnot
    · rename_i hzero
      refine ⟨h.leave fun q' hq' hopen => hopen.2 ?_, .refl s⟩
      obtain rfl := Option.some.inj (hmy.symm.trans hq')
      exact not_not.1 hzero

/-! ## The stack -/

/-- Taking it off, from the top down. -/
theorem Pre.takeOff {flags : Flags} (hmove : moveEntity flags = true) {opened : List E} : ∀ x, (∀ y ∈ H.stack x, y ∈ opened) →
    ∀ s, Pre H opened s →
      let t := (H.stack x).reverse.foldl (fun s x => if (s.se x).onRq then dequeueEntity H s x flags else s) s
      Pre H opened t ∧ Same s t ∧ ∀ e, (t.se e).onRq = if e ∈ H.stack x then false else (s.se e).onRq := by
  -- the last step, with those above off
  have hlast : ∀ x s, x ∈ opened → Pre H opened s → Above H opened s x →
      let t := if (s.se x).onRq then dequeueEntity H s x flags else s
      Pre H opened t ∧ Same s t ∧ ∀ e, (t.se e).onRq = if e = x then false else (s.se e).onRq := fun x s hx h habove => by
    by_cases hon : (s.se x).onRq = true
    · dsimp only
      rw [if_pos hon]
      exact h.dequeue hmove hx hon habove
    · dsimp only
      rw [if_neg hon]
      refine ⟨h, .refl s, fun e => ?_⟩
      split
      · rename_i hex
        exact hex ▸ Bool.eq_false_iff.2 hon
      · rfl
  refine Hierarchy.stack_induction (H := H) (fun x hp hsub s h => ?_) fun x p hp ih hsub s h => ?_
  · rw [Hierarchy.stack_root hp] at hsub ⊢
    simp only [List.reverse_singleton, List.foldl_cons, List.foldl_nil, List.mem_singleton]
    exact hlast x s (hsub x (List.mem_singleton_self x)) h fun p hp' => absurd (hp.symm.trans hp') (Option.some_ne_none p).symm
  · rw [Hierarchy.stack_parent hp] at hsub ⊢
    obtain ⟨hpre, hsame, hse⟩ := ih (fun y hy => hsub y (List.mem_cons_of_mem x hy)) s h
    rw [List.reverse_cons, List.foldl_append]
    generalize (H.stack p).reverse.foldl (fun s x => if (s.se x).onRq then dequeueEntity H s x flags else s) s = t at hpre hsame hse
    have habove : Above H opened t x := fun p' hp' => by
      obtain rfl := Option.some.inj (hp.symm.trans hp')
      exact ⟨hsub p (List.mem_cons_of_mem x (H.mem_stack_self p)), (hse p).trans (if_pos (H.mem_stack_self p))⟩
    obtain ⟨hpre', hsame', hse'⟩ := hlast x t (hsub x List.mem_cons_self) hpre habove
    refine ⟨hpre', hsame.trans hsame', fun e => ?_⟩
    rw [List.foldl_cons, List.foldl_nil, hse' e, hse e]
    simp only [List.mem_cons]
    by_cases hex : e = x <;> simp [hex]

end OsLab.RtQueue
