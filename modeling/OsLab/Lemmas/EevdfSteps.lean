import OsLab.Lemmas.EevdfBooks

/-!
# What the operations of the fair run queue keep

Every operation keeps the books. Of the tree it keeps the order, but for one entity that is put where its deadline belongs
(`Resorted`).
-/

namespace OsLab.Fair

/-- Everybody stays, and the sums are right if they were. -/
structure Keeps (rq rq' : CfsRq) : Prop extends Frame rq rq' where
  tally : Tallied rq → Tallied rq'

/-- The same, but for the deadline of one entity, which is about to be taken out. -/
structure KeepsBut (r : Nat) (rq rq' : CfsRq) : Prop extends Same rq rq' where
  tree : rq'.tasksTimeline = rq.tasksTimeline
  deadline : ∀ a ∈ rq.tasksTimeline.inorder, a ≠ r → (rq'.se a).deadline = (rq.se a).deadline
  tally : Tallied rq → Tallied rq'

/-- An entity changes while it is out of the tree. -/
structure Away (r : Nat) (rq rq' : CfsRq) : Prop where
  curr : rq'.curr = rq.curr
  next : ∀ n, rq'.next = some n → rq.next = some n
  nrQueued : rq'.nrQueued = rq.nrQueued
  tree : rq'.tasksTimeline = rq.tasksTimeline
  onRq : ∀ a, (rq'.se a).onRq = (rq.se a).onRq
  weight : ∀ a, a ≠ r → (rq'.se a).weight = (rq.se a).weight
  deadline : ∀ a ∈ rq.tasksTimeline.inorder, (rq'.se a).deadline = (rq.se a).deadline
  tally : Tallied rq → Tallied rq'

/-- The nodes that stay are in the order they were in, with the deadlines they had; at most one is added among them. -/
def Resorted (rq rq' : CfsRq) : Prop :=
  ∃ t : SearchTree Nat, t.inorder.Sublist rq.tasksTimeline.inorder ∧
    (∀ a ∈ t.inorder, (rq'.se a).deadline = (rq.se a).deadline) ∧
    (rq'.tasksTimeline.inorder = t.inorder ∨
      ∃ r, r ∉ t.inorder ∧
        rq'.tasksTimeline.inorder = (t.add (fun a b => entityBefore (rq'.se a) (rq'.se b)) r).inorder)

variable {cfg : Config} {env : Env} {rq rq' rq'' : CfsRq} {r : Nat}

/-! ## Steps that move nobody -/

theorem Keeps.refl (rq : CfsRq) : Keeps rq rq := ⟨Frame.refl rq, id⟩

theorem Keeps.trans (h : Keeps rq rq') (h' : Keeps rq' rq'') : Keeps rq rq'' :=
  ⟨Frame.trans h.toFrame h'.toFrame, fun ht => h'.tally (h.tally ht)⟩

/-- An entity changes, but for what the tree and the sums are made of if it is in the tree. -/
theorem Keeps.set {f : SchedEntity → SchedEntity} (ho : (f (rq.se r)).onRq = (rq.se r).onRq)
    (hw : (f (rq.se r)).weight = (rq.se r).weight)
    (hf : r ∈ rq.tasksTimeline.inorder → (f (rq.se r)).vruntime = (rq.se r).vruntime ∧
      (f (rq.se r)).minVruntime = (rq.se r).minVruntime ∧ (f (rq.se r)).deadline = (rq.se r).deadline) :
    Keeps rq (rq.set r f) := by
  refine ⟨⟨Same.set ho hw, rfl, fun a ha => ?_⟩, fun ht => Tallied.set ht fun hr => ⟨hw, (hf hr).1, (hf hr).2.1⟩⟩
  by_cases har : a = r
  · subst har
    rw [set_self, (hf ha).2.2]
  · rw [set_of_ne har]

/-- An entity outside the tree changes. -/
theorem Keeps.set_out {f : SchedEntity → SchedEntity} (ho : (f (rq.se r)).onRq = (rq.se r).onRq)
    (hw : (f (rq.se r)).weight = (rq.se r).weight) (hr : r ∉ rq.tasksTimeline.inorder) : Keeps rq (rq.set r f) :=
  Keeps.set ho hw fun h => absurd h hr

theorem Keeps.but (h : Keeps rq rq') (r : Nat) : KeepsBut r rq rq' :=
  ⟨h.toSame, h.tree, fun a ha _ => h.deadline a ha, h.tally⟩

/-- The entity that is about to be taken out may change its deadline. -/
theorem Keeps.but_set {f : SchedEntity → SchedEntity} (h : Keeps rq rq') (ho : (f (rq'.se r)).onRq = (rq'.se r).onRq)
    (hw : (f (rq'.se r)).weight = (rq'.se r).weight) (hv : (f (rq'.se r)).vruntime = (rq'.se r).vruntime)
    (hm : (f (rq'.se r)).minVruntime = (rq'.se r).minVruntime) : KeepsBut r rq (rq'.set r f) := by
  refine ⟨h.toSame.trans (Same.set ho hw), h.tree, fun a ha har => ?_, fun ht => (h.tally ht).set fun _ => ⟨hw, hv, hm⟩⟩
  rw [set_of_ne har, h.deadline a ha]

theorem Keeps.updateZeroVruntime (rq : CfsRq) (delta : U64) : Keeps rq (updateZeroVruntime rq delta) :=
  ⟨⟨⟨rfl, fun _ => id, rfl, rfl, fun _ => rfl, fun _ => rfl⟩, rfl, fun _ _ => rfl⟩, fun ht => ht.updateZeroVruntime delta⟩

theorem Keeps.avgVruntime (rq : CfsRq) : Keeps rq (avgVruntime rq) := Keeps.updateZeroVruntime rq _

/-- Clearing the buddy changes nobody on the queue. -/
theorem Keeps.clearBuddies (rq : CfsRq) (r : Nat) : Keeps rq (clearBuddies rq r) := by
  unfold Fair.clearBuddies
  split
  · exact ⟨⟨⟨rfl, fun _ h => (Option.some_ne_none _ h.symm).elim, rfl, rfl, fun _ => rfl, fun _ => rfl⟩, rfl, fun _ _ => rfl⟩,
      fun h => ⟨h.nodup, h.weight, h.key, h.heap⟩⟩
  · exact Keeps.refl rq

/-- After `clear_buddies` the entity is not the buddy. -/
theorem clearBuddies_next (rq : CfsRq) (r : Nat) : (clearBuddies rq r).next ≠ some r := by
  unfold clearBuddies
  split
  · exact (Option.some_ne_none r).symm
  · assumption

/-- An entity out of the tree gets a deadline. -/
theorem Keeps.updateDeadline (cfg : Config) (hr : r ∉ rq.tasksTimeline.inorder) : Keeps rq (updateDeadline cfg rq r).1 := by
  unfold Fair.updateDeadline
  split
  · exact Keeps.refl rq
  · exact ((Keeps.set_out rfl rfl hr).trans (Keeps.set_out rfl rfl hr)).trans (Keeps.avgVruntime _)

/-- Time is charged to `curr`, which is out of the tree. -/
theorem Keeps.updateCurr (cfg : Config) (env : Env) (hc : ∀ c, rq.curr = some c → c ∉ rq.tasksTimeline.inorder) :
    Keeps rq (updateCurr cfg env rq) := by
  unfold Fair.updateCurr
  split
  · exact Keeps.refl rq
  · rename_i c hcurr
    split
    · exact Keeps.refl rq
    · have hrun : Keeps rq
          (Fair.updateDeadline cfg (rq.set c fun se => { se with vruntime := se.vruntime + calcDeltaFair env.deltaExec se }) c).1 :=
        (Keeps.set_out rfl rfl (hc c hcurr)).trans (Keeps.updateDeadline cfg (hc c hcurr))
      dsimp only
      split
      · exact hrun
      · split
        · exact hrun.trans (Keeps.clearBuddies _ _)
        · exact hrun

/-- `update_entity_lag` writes the lag, which neither the tree nor the sums are made of. -/
theorem Keeps.updateEntityLag (cfg : Config) (env : Env) (rq : CfsRq) (r : Nat) : Keeps rq (updateEntityLag cfg env rq r).1 := by
  refine (Keeps.avgVruntime rq).trans ?_
  unfold Fair.updateEntityLag
  dsimp only
  exact Keeps.set rfl rfl fun _ => ⟨rfl, rfl, rfl⟩

/-- An entity is placed while it is out of the tree. -/
theorem Keeps.placeEntity (cfg : Config) (initial : Bool) (hr : r ∉ rq.tasksTimeline.inorder) :
    Keeps rq (placeEntity cfg rq r initial) := by
  unfold Fair.placeEntity
  dsimp only
  have hslice : Keeps rq ((Fair.avgVruntime rq).set r fun se =>
      { se with slice := if se.customSlice then se.slice else cfg.baseSlice }) :=
    (Keeps.avgVruntime rq).trans (Keeps.set_out rfl rfl hr)
  generalize (Fair.avgVruntime rq).set r (fun se => { se with slice := if se.customSlice then se.slice else cfg.baseSlice }) = q
    at hslice
  have hq : r ∉ q.tasksTimeline.inorder := hslice.tree ▸ hr
  generalize placeLag cfg q (q.se r) = lag
  have hplaced : Keeps rq
      (if lag.2 = true then
        Fair.updateZeroVruntime (q.set r fun se => { se with vruntime := (Fair.avgVruntime rq).zeroVruntime - lag.1 }) (-lag.1)
      else q.set r fun se => { se with vruntime := (Fair.avgVruntime rq).zeroVruntime - lag.1 }) := by
    have hv := hslice.trans
      (Keeps.set_out (f := fun se => { se with vruntime := (Fair.avgVruntime rq).zeroVruntime - lag.1 }) rfl rfl hq)
    split
    · exact hv.trans (Keeps.updateZeroVruntime _ _)
    · exact hv
  generalize (if lag.2 = true then
      Fair.updateZeroVruntime (q.set r fun se => { se with vruntime := (Fair.avgVruntime rq).zeroVruntime - lag.1 }) (-lag.1)
    else q.set r fun se => { se with vruntime := (Fair.avgVruntime rq).zeroVruntime - lag.1 }) = p at hplaced
  split
  · exact hplaced.trans (Keeps.set_out rfl rfl (hplaced.tree ▸ hr))
  · exact hplaced.trans (Keeps.set_out rfl rfl (hplaced.tree ▸ hr))

/-! ## Into the tree and out of it -/

/-- The tree and the sums do not depend on what is counted beside them. -/
theorem Tallied.counts (h : Tallied rq) (n : Nat) (l : U64) : Tallied { rq with nrQueued := n, load := l } :=
  ⟨h.nodup, h.weight, h.key, h.heap⟩

/-- The entity is put into the tree, unless it runs. -/
theorem join_spec (ht : Tallied rq) (hr : r ∉ rq.tasksTimeline.inorder)
    (he : (if rq.curr = some r then some rq else enqueueNode cfg env rq r) = some rq') :
    Tallied rq' ∧ Relinked rq rq' ∧ Joins rq rq' r ∧ Resorted rq rq' := by
  split at he
  · rename_i hc
    obtain rfl := Option.some.inj he
    exact ⟨ht, ⟨rfl, rfl, rfl, rfl, rfl, fun _ => rfl⟩, ⟨rfl, fun _ => rfl, fun h => absurd hc h, fun _ _ => rfl⟩,
      rq.tasksTimeline, List.Sublist.refl _, fun _ _ => rfl, Or.inl rfl⟩
  · rename_i hc
    obtain ⟨ht', hrel, htree⟩ := enqueueNode_spec ht hr he
    refine ⟨ht', hrel, ⟨hrel.curr, fun h => absurd h hc, fun _ => ?_, fun a _ => by rw [hrel.se a]⟩,
      rq.tasksTimeline, List.Sublist.refl _, fun a _ => by rw [hrel.se a], Or.inr ⟨r, hr, htree⟩⟩
    rw [htree]
    exact SearchTree.add_perm _ _ _

/-- The entity is taken out, unless it runs. -/
theorem leave_spec (env : Env) (ht : Tallied rq) (hm : r ∈ rq.tasksTimeline.inorder ↔ rq.curr ≠ some r) :
    Tallied (if rq.curr = some r then rq else dequeueNode env rq r) ∧
      Relinked rq (if rq.curr = some r then rq else dequeueNode env rq r) ∧
      Joins (if rq.curr = some r then rq else dequeueNode env rq r) rq r ∧
      (if rq.curr = some r then rq else dequeueNode env rq r).tasksTimeline.inorder = rq.tasksTimeline.inorder.erase r := by
  split
  · rename_i hc
    have hr : r ∉ rq.tasksTimeline.inorder := fun h => hm.1 h hc
    exact ⟨ht, ⟨rfl, rfl, rfl, rfl, rfl, fun _ => rfl⟩, ⟨rfl, fun _ => rfl, fun h => absurd hc h, fun _ _ => rfl⟩,
      (List.erase_of_not_mem hr).symm⟩
  · rename_i hc
    have hr := hm.2 hc
    obtain ⟨ht', hrel, htree⟩ := dequeueNode_spec env ht hr
    refine ⟨ht', hrel, ⟨hrel.curr.symm, fun h => absurd (hrel.curr ▸ h) hc, fun _ => ?_, fun a _ => by rw [hrel.se a]⟩, htree⟩
    rw [htree]
    exact List.perm_cons_erase hr

/-! ## Order -/

theorem Resorted.of_frame (h : Frame rq rq') : Resorted rq rq' :=
  ⟨rq.tasksTimeline, List.Sublist.refl _, h.deadline, Or.inl (by rw [h.tree])⟩

/-- A step before that keeps or takes out nodes. -/
theorem Resorted.after (h : Resorted rq' rq'') (hs : rq'.tasksTimeline.inorder.Sublist rq.tasksTimeline.inorder)
    (hd : ∀ a ∈ rq'.tasksTimeline.inorder, (rq'.se a).deadline = (rq.se a).deadline) : Resorted rq rq'' := by
  obtain ⟨t, hsub, hdl, ht⟩ := h
  exact ⟨t, hsub.trans hs, fun a ha => (hdl a ha).trans (hd a (hsub.subset ha)), ht⟩

/-- A step after that keeps the tree and all deadlines. -/
theorem Resorted.before (h : Resorted rq rq') (ht : rq''.tasksTimeline = rq'.tasksTimeline)
    (hd : ∀ a, (rq''.se a).deadline = (rq'.se a).deadline) : Resorted rq rq'' := by
  obtain ⟨t, hsub, hdl, hor⟩ := h
  refine ⟨t, hsub, fun a ha => (hd a).trans (hdl a ha), ?_⟩
  rw [ht]
  refine hor.imp_right fun ⟨r, hr, htree⟩ => ⟨r, hr, htree.trans (congrArg _ (SearchTree.add_congr _ fun a _ => ?_))⟩
  unfold entityBefore
  rw [hd a, hd r]

/-! ## The operations -/

theorem set_deadline {f : SchedEntity → SchedEntity} (h : ∀ se, (f se).deadline = se.deadline) (a : Nat) :
    ((rq.set r f).se a).deadline = (rq.se a).deadline := by
  by_cases ha : a = r
  · subst ha
    rw [set_self, h]
  · rw [set_of_ne ha]

theorem set_onRq_on (rq : CfsRq) (r : Nat) (b : Bool) :
    (rq.set r fun se => { se with onRq := b }).on = Function.update rq.on r b := by
  funext a
  unfold CfsRq.on
  by_cases ha : a = r
  · subst ha
    rw [set_self, Function.update_self]
  · rw [set_of_ne ha, Function.update_of_ne ha]

theorem Books.not_curr_mem (h : Books rq) : ∀ c, rq.curr = some c → c ∉ rq.tasksTimeline.inorder :=
  fun c hc hm => ((h.mem_iff c).1 hm).2 hc

/-- An entity on the queue is in the tree unless it is `curr`. -/
theorem Books.mem_iff_of_on (h : Books rq) (hr : (rq.se r).onRq = true) : r ∈ rq.tasksTimeline.inorder ↔ rq.curr ≠ some r := by
  rw [h.mem_iff]
  exact and_iff_right hr

/-- A step in which everybody stays keeps the books. -/
theorem Books.keeps (h : Books rq) (hk : Keeps rq rq') : Books rq' := by
  have hon := hk.toSame.on
  exact ⟨hon ▸ h.same hk.toSame hk.tree (hk.tally h.tallied), fun n hn => hon ▸ h.buddy n (hk.next n hn)⟩

/-- `curr` is out of the tree, so it can be charged. -/
theorem Books.updateCurr (h : Books rq) : Keeps rq (updateCurr cfg env rq) := Keeps.updateCurr cfg env (Books.not_curr_mem h)

/-- What `enqueue_entity` does before it counts the entity in: its own virtual runtime is placed, that of `curr` moves. -/
theorem enqueue_keeps (cfg : Config) (env : Env) (initial : Bool) (h : Books rq) (hr : r ∉ rq.tasksTimeline.inorder) :
    Keeps rq (let rq₁ := Fair.updateCurr cfg env (if rq.curr = some r then placeEntity cfg rq r initial else rq)
      if rq.curr = some r then rq₁ else placeEntity cfg rq₁ r initial) := by
  dsimp only
  by_cases hc : rq.curr = some r
  · rw [if_pos hc, if_pos hc]
    have hk := Keeps.placeEntity cfg initial hr
    exact hk.trans (Books.updateCurr (Books.keeps h hk))
  · rw [if_neg hc, if_neg hc]
    have hk : Keeps rq (Fair.updateCurr cfg env rq) := Books.updateCurr h
    exact hk.trans (Keeps.placeEntity cfg initial (hk.tree ▸ hr))

/-- `enqueue_entity` of an entity that is not on the queue. -/
theorem enqueueEntity_books {initial : Bool} (h : Books rq) (hr : (rq.se r).onRq = false)
    (he : enqueueEntity cfg env rq r initial = some rq') : Books rq' ∧ Resorted rq rq' := by
  have hnot : r ∉ rq.tasksTimeline.inorder := fun hm => Bool.false_ne_true (hr.symm.trans ((h.mem_iff r).1 hm).1)
  have hk := enqueue_keeps cfg env initial h hnot
  unfold enqueueEntity at he
  dsimp only at he hk
  generalize hq : (if rq.curr = some r then Fair.updateCurr cfg env (if rq.curr = some r then placeEntity cfg rq r initial else rq)
    else placeEntity cfg (Fair.updateCurr cfg env (if rq.curr = some r then placeEntity cfg rq r initial else rq)) r initial) = q
    at he hk
  obtain ⟨rq₁, hjoin, rfl⟩ := Option.map_eq_some_iff.1 he
  rw [← hk.curr] at hjoin
  have hnotq : r ∉ q.tasksTimeline.inorder := hk.tree ▸ hnot
  obtain ⟨ht, hrel, hj, hs⟩ :=
    join_spec (Tallied.counts (hk.tally h.tallied) (q.nrQueued + 1) (q.load + (q.se r).weight)) hnotq hjoin
  have hbooks : BooksOf rq.on q := h.same hk.toSame hk.tree (hk.tally h.tallied)
  have hset : Tallied (rq₁.set r fun se => { se with onRq := true }) := Tallied.set ht fun _ => ⟨rfl, rfl, rfl⟩
  refine ⟨?_, ?_⟩
  · have hon : (rq₁.set r fun se => { se with onRq := true }).on = Function.update rq.on r true := by
      rw [set_onRq_on, hrel.same.on, ← hk.toSame.on]
      rfl
    refine ⟨hon ▸ hbooks.join hr ⟨hj.curr, hj.same, hj.node, fun a ha => ?_⟩ hset hrel.nrQueued ?_, fun n hn => ?_⟩
    · rw [set_of_ne ha]
      exact hj.weight a ha
    · rw [set_load, hrel.load, set_self, hrel.se r]
    · rw [hon, Function.update_apply]
      split
      · rfl
      · exact h.buddy n (hk.next n (hrel.same.next n hn))
  · have hs' := Resorted.before hs (set_tasksTimeline rq₁ r fun se => { se with onRq := true }) (set_deadline fun _ => rfl)
    exact hs'.after (hk.tree ▸ List.Sublist.refl _) fun a ha => hk.deadline a (hk.tree ▸ ha)

/-- The nodes without one, when its deadline may have changed. -/
theorem KeepsBut.resorted_erase {q : CfsRq} (hk : KeepsBut r rq rq') (hn : rq.tasksTimeline.inorder.Nodup)
    (ht : q.tasksTimeline.inorder = rq'.tasksTimeline.inorder.erase r)
    (hd : ∀ a, a ≠ r → (q.se a).deadline = (rq'.se a).deadline) : Resorted rq q := by
  rw [hk.tree] at ht
  refine ⟨q.tasksTimeline, ht ▸ List.erase_sublist, fun a ha => ?_, Or.inl rfl⟩
  rw [ht] at ha
  have har : a ≠ r := by
    rintro rfl
    exact hn.not_mem_erase ha
  rw [hd a har, hk.deadline a (List.mem_of_mem_erase ha) har]

/-- The end of `dequeue_entity`: the entity is taken off the queue and counted out. -/
theorem leave_books {q : CfsRq} (env : Env) (h : Books rq) (hr : (rq.se r).onRq = true) (hk : KeepsBut r rq q)
    (hnext : q.next ≠ some r) :
    let q₁ := (if q.curr = some r then q else dequeueNode env q r).set r fun se => { se with onRq := false }
    let q₂ := { q₁ with load := q₁.load - (q₁.se r).weight, nrQueued := q₁.nrQueued - 1 }
    Books q₂ ∧ Resorted rq q₂ := by
  have ht := hk.tally h.tallied
  have hbooks : BooksOf rq.on q := h.same hk.toSame hk.tree ht
  have hm : r ∈ q.tasksTimeline.inorder ↔ q.curr ≠ some r := by
    rw [hk.tree, hk.curr]
    exact h.mem_iff_of_on hr
  obtain ⟨ht₁, hrel, hj, htree₁⟩ := leave_spec env ht hm
  generalize (if q.curr = some r then q else dequeueNode env q r) = q₀ at ht₁ hrel hj htree₁
  have hset : Tallied (q₀.set r fun se => { se with onRq := false }) := Tallied.set ht₁ fun _ => ⟨rfl, rfl, rfl⟩
  refine ⟨?_, hk.resorted_erase h.tallied.nodup htree₁ fun a ha => ?_⟩
  · have hon : (q₀.set r fun se => { se with onRq := false }).on = Function.update rq.on r false := by
      rw [set_onRq_on, hrel.same.on, hk.toSame.on]
    refine ⟨hon ▸ hbooks.leave hr ⟨hj.curr, hj.same, hj.node, fun a ha => ?_⟩ (Tallied.counts hset _ _) ?_ ?_ ?_, fun n hn => ?_⟩
    · rw [hj.weight a ha, set_of_ne ha]
    · show r ∉ q₀.tasksTimeline.inorder
      rw [htree₁]
      exact ht.nodup.not_mem_erase
    · exact congrArg (· - 1) hrel.nrQueued
    · show q₀.load - ((q₀.set r fun se => { se with onRq := false }).se r).weight = _
      rw [set_self, hrel.load, hrel.same.weight]
    · have hqn : q.next = some n := hrel.same.next n hn
      have hnr : n ≠ r := fun he => hnext (he ▸ hqn)
      show (q₀.set r fun se => { se with onRq := false }).on n = true
      rw [hon, Function.update_of_ne hnr]
      exact h.buddy n (hk.next n hqn)
  · show ((q₀.set r fun se => { se with onRq := false }).se a).deadline = _
    rw [set_of_ne ha, hrel.se a]

/-- `dequeue_entity` of an entity on the queue, also when it is only delayed. -/
theorem dequeueEntity_books {flags : DequeueFlags} (h : Books rq) (hr : (rq.se r).onRq = true) :
    Books (dequeueEntity cfg env rq r flags).1 ∧ Resorted rq (dequeueEntity cfg env rq r flags).1 := by
  have hk₀ : Keeps rq (clearBuddies (Fair.updateCurr cfg env rq) r) := h.updateCurr.trans (Keeps.clearBuddies _ _)
  have hk : Keeps rq (Fair.updateEntityLag cfg env (clearBuddies (Fair.updateCurr cfg env rq) r) r).1 :=
    hk₀.trans (Keeps.updateEntityLag _ _ _ _)
  have hnext : (Fair.updateEntityLag cfg env (clearBuddies (Fair.updateCurr cfg env rq) r) r).1.next ≠ some r :=
    clearBuddies_next _ r
  unfold dequeueEntity
  dsimp only
  generalize (Fair.updateEntityLag cfg env (clearBuddies (Fair.updateCurr cfg env rq) r) r).1 = q at hk hnext
  split
  · have hd : Keeps rq (q.set r fun se => { se with schedDelayed := true }) :=
      hk.trans (Keeps.set rfl rfl fun _ => ⟨rfl, rfl, rfl⟩)
    exact ⟨h.keeps hd, Resorted.of_frame hd.toFrame⟩
  · -- the deadline may be made relative while the entity is still in the tree
    have hbut : KeepsBut r rq (if cfg.placeRelDeadline = true ∧ ¬flags.sleep = true then
        q.set r fun se => { se with deadline := se.deadline - se.vruntime, relDeadline := true } else q) := by
      split
      · exact hk.but_set rfl rfl rfl rfl
      · exact hk.but r
    have hnext' : (if cfg.placeRelDeadline = true ∧ ¬flags.sleep = true then
        q.set r fun se => { se with deadline := se.deadline - se.vruntime, relDeadline := true } else q).next ≠ some r := by
      split
      · exact hnext
      · exact hnext
    generalize (if cfg.placeRelDeadline = true ∧ ¬flags.sleep = true then
        q.set r fun se => { se with deadline := se.deadline - se.vruntime, relDeadline := true } else q) = p at hbut hnext'
    obtain ⟨hbooks, hsort⟩ := leave_books env h hr hbut hnext'
    dsimp only
    by_cases hdel : flags.delayed = true
    · rw [if_pos hdel]
      refine ⟨hbooks.keeps (Keeps.set rfl rfl fun _ => ⟨rfl, rfl, rfl⟩), hsort.before rfl ?_⟩
      apply set_deadline
      exact fun _ => rfl
    · rw [if_neg hdel]
      exact ⟨hbooks, hsort⟩

/-- The entity that is to run is taken out of the tree and goes on competing. -/
theorem books_run {q : CfsRq} (h : Books rq) (hc : rq.curr = none) (ht : Tallied q) (hs : Same rq q)
    (htree : q.tasksTimeline.inorder = rq.tasksTimeline.inorder.erase r)
    (hm : r ∈ rq.tasksTimeline.inorder ↔ rq.on r = true) : Books { q with curr := some r } := by
  have hon : CfsRq.on { q with curr := some r } = rq.on := hs.on
  refine ⟨hon ▸ h.perm ⟨ht.nodup, ht.weight, ht.key, ht.heap⟩ (fun a => ?_) ?_ hs.nrQueued hs.load hs.weight,
    fun n hn => hon ▸ h.buddy n (hs.next n hn)⟩
  · show a ∈ q.tasksTimeline.inorder ↔ rq.on a = true ∧ some r ≠ some a
    rw [htree, h.tallied.nodup.mem_erase_iff, h.mem_iff, hc]
    simp only [ne_eq, reduceCtorEq, not_false_eq_true, and_true, Option.some.injEq]
    tauto
  · show (q.tasksTimeline.inorder ++ (Option.filter rq.on (some r)).toList).Perm
      (rq.tasksTimeline.inorder ++ (rq.curr.filter rq.on).toList)
    rw [htree, hc, Option.filter_none, Option.toList_none, List.append_nil]
    by_cases hon : rq.on r = true
    · rw [Option.filter_some, if_pos hon]
      exact (List.perm_append_singleton r _).trans (List.perm_cons_erase (hm.2 hon)).symm
    · rw [Option.filter_some, if_neg hon, Option.toList_none, List.append_nil, List.erase_of_not_mem fun h => hon (hm.1 h)]

/-- `set_next_entity`, when there is no `curr`. -/
theorem setNextEntity_books {first : Bool} (h : Books rq) (hc : rq.curr = none) :
    Books (setNextEntity cfg env rq r first) ∧ Resorted rq (setNextEntity cfg env rq r first) := by
  have hk := Keeps.clearBuddies rq r
  unfold setNextEntity
  dsimp only
  generalize clearBuddies rq r = q at hk
  have hq : Books q := h.keeps hk
  have hcq : q.curr = none := hk.curr.trans hc
  have hm : r ∈ q.tasksTimeline.inorder ↔ q.on r = true := by
    rw [hq.mem_iff, hcq]
    exact and_iff_left (Option.some_ne_none r).symm
  have hafter : ∀ q', Resorted q q' → Resorted rq q' := fun q' hs =>
    hs.after (hk.tree ▸ List.Sublist.refl _) fun a ha => hk.deadline a (hk.tree ▸ ha)
  by_cases hon : (q.se r).onRq = true
  · rw [if_pos hon]
    obtain ⟨ht, hrel, htree⟩ := dequeueNode_spec env hq.tallied (hm.2 hon)
    have hprot : Keeps (dequeueNode env q r)
        (if first = true then setProtectSlice cfg env (dequeueNode env q r) r else dequeueNode env q r) := by
      split
      · unfold setProtectSlice
        dsimp only
        exact Keeps.set rfl rfl fun _ => ⟨rfl, rfl, rfl⟩
      · exact Keeps.refl _
    have hdl : ∀ a, a ≠ r → ((if first = true then setProtectSlice cfg env (dequeueNode env q r) r
        else dequeueNode env q r).se a).deadline = (q.se a).deadline := by
      intro a ha
      split
      · rw [setProtectSlice, set_of_ne ha, hrel.se a]
      · rw [hrel.se a]
    generalize (if first = true then setProtectSlice cfg env (dequeueNode env q r) r else dequeueNode env q r) = p at hprot hdl
    have htreep : p.tasksTimeline.inorder = q.tasksTimeline.inorder.erase r := by rw [hprot.tree, htree]
    exact ⟨books_run hq hcq (hprot.tally ht) (hrel.same.trans hprot.toSame) htreep hm,
      hafter _ (((Keeps.refl q).but r).resorted_erase hq.tallied.nodup htreep hdl)⟩
  · rw [if_neg hon]
    have htree : q.tasksTimeline.inorder = q.tasksTimeline.inorder.erase r :=
      (List.erase_of_not_mem fun h => hon (hm.1 h)).symm
    exact ⟨books_run hq hcq hq.tallied (Same.refl q) htree hm,
      hafter _ ⟨q.tasksTimeline, List.Sublist.refl _, fun _ _ => rfl, Or.inl rfl⟩⟩

/-- `put_prev_entity` of `curr`. -/
theorem putPrevEntity_books (h : Books rq) (hc : rq.curr = some r) (he : putPrevEntity cfg env rq r = some rq') :
    Books rq' ∧ Resorted rq rq' := by
  unfold putPrevEntity at he
  dsimp only at he
  have hk : Keeps rq (if (rq.se r).onRq = true then Fair.updateCurr cfg env rq else rq) := by
    split
    · exact h.updateCurr
    · exact Keeps.refl rq
  generalize (if (rq.se r).onRq = true then Fair.updateCurr cfg env rq else rq) = q at he hk
  have hq : Books q := h.keeps hk
  have hcq : q.curr = some r := hk.curr.trans hc
  have hnot : r ∉ q.tasksTimeline.inorder := hq.not_curr_mem r hcq
  have hafter : ∀ q', Resorted q q' → Resorted rq q' := fun q' hs =>
    hs.after (hk.tree ▸ List.Sublist.refl _) fun a ha => hk.deadline a (hk.tree ▸ ha)
  obtain ⟨q₁, hput, rfl⟩ := Option.map_eq_some_iff.1 he
  -- the tree has `r` afterwards if and only if it is on the queue
  have hspec : Tallied q₁ ∧ Relinked q q₁ ∧ Resorted q q₁ ∧
      q₁.tasksTimeline.inorder.Perm ((Option.filter q.on (some r)).toList ++ q.tasksTimeline.inorder) := by
    change (if q.on r = true then _ else _) = _ at hput
    by_cases hon : q.on r = true
    · have hnode : enqueueNode cfg env q r = some q₁ := by rw [← hput, if_pos hon]
      obtain ⟨ht, hrel, htree⟩ := enqueueNode_spec hq.tallied hnot hnode
      refine ⟨ht, hrel, ⟨q.tasksTimeline, List.Sublist.refl _, fun a _ => by rw [hrel.se a], Or.inr ⟨r, hnot, htree⟩⟩, ?_⟩
      rw [Option.filter_some, if_pos hon, htree]
      exact SearchTree.add_perm _ _ _
    · obtain rfl : q = q₁ := by
        rw [if_neg hon] at hput
        exact Option.some.inj hput
      rw [Option.filter_some, if_neg hon]
      exact ⟨hq.tallied, ⟨rfl, rfl, rfl, rfl, rfl, fun _ => rfl⟩, Resorted.of_frame (Frame.refl q), List.Perm.refl _⟩
  obtain ⟨ht, hrel, hsort, hperm⟩ := hspec
  refine ⟨?_, hafter _ (hsort.before rfl fun _ => rfl)⟩
  have hon : CfsRq.on { q₁ with curr := none } = q.on := hrel.same.on
  refine ⟨hon ▸ hq.perm ⟨ht.nodup, ht.weight, ht.key, ht.heap⟩ (fun a => ?_) ?_ hrel.nrQueued hrel.load hrel.same.weight,
    fun n hn => hon ▸ hq.buddy n (hrel.same.next n hn)⟩
  · show a ∈ q₁.tasksTimeline.inorder ↔ q.on a = true ∧ none ≠ some a
    rw [hperm.mem_iff, List.mem_append, hq.mem_iff, hcq, Option.mem_toList, Option.filter_eq_some_iff]
    simp only [ne_eq, reduceCtorEq, not_false_eq_true, and_true]
    tauto
  · show (q₁.tasksTimeline.inorder ++ (Option.filter q.on none).toList).Perm
      (q.tasksTimeline.inorder ++ (q.curr.filter q.on).toList)
    rw [Option.filter_none, Option.toList_none, List.append_nil, hcq]
    exact hperm.trans List.perm_append_comm

/-- An entity whose deadline may have changed is taken out: the tree and the sums of the rest are right. -/
theorem takeOut_spec {q : CfsRq} (env : Env) (h : Books rq) (hr : (rq.se r).onRq = true) (hk : KeepsBut r rq q) :
    Tallied (takeOut env q r) ∧ Relinked { q with nrQueued := q.nrQueued - 1 } (takeOut env q r) ∧ Joins (takeOut env q r) q r ∧
      (takeOut env q r).tasksTimeline.inorder = q.tasksTimeline.inorder.erase r ∧
      r ∉ (takeOut env q r).tasksTimeline.inorder := by
  have ht := hk.tally h.tallied
  have hmem : r ∈ q.tasksTimeline.inorder ↔ q.curr ≠ some r := by
    rw [hk.tree, hk.curr]
    exact h.mem_iff_of_on hr
  obtain ⟨ht₁, hrel, hj, htree⟩ := leave_spec env (ht.counts (q.nrQueued - 1) q.load) hmem
  exact ⟨ht₁, hrel, ⟨hj.curr, hj.same, hj.node, hj.weight⟩, htree, fun hm => ht.nodup.not_mem_erase (htree ▸ hm)⟩

/-- The entity is taken out, changed and put back. -/
theorem putBack_books {q q₂ : CfsRq} (h : Books rq) (hr : (rq.se r).onRq = true) (hk : KeepsBut r rq q)
    (haway : Away r (takeOut env q r) q₂) (he : putBack cfg env q₂ r = some rq')
    (hl : q₂.load = rq.load - (rq.se r).weight + (q₂.se r).weight) : Books rq' ∧ Resorted rq rq' := by
  have htq := hk.tally h.tallied
  obtain ⟨ht₁, hrel₁, hj₁, htree₁, hnot₁⟩ := takeOut_spec env h hr hk
  have ht₂ := haway.tally ht₁
  have hnot₂ : r ∉ q₂.tasksTimeline.inorder := haway.tree ▸ hnot₁
  obtain ⟨p, hjoin, rfl⟩ := Option.map_eq_some_iff.1 he
  obtain ⟨ht, hrel, hj, hsort⟩ := join_spec ht₂ hnot₂ hjoin
  have hbooks : BooksOf rq.on q := h.same hk.toSame hk.tree htq
  refine ⟨?_, ?_⟩
  · have hon : p.on = rq.on := by
      funext a
      exact (hrel.same.onRq a).trans ((haway.onRq a).trans ((hrel₁.same.onRq a).trans (hk.onRq a)))
    have hpos : 0 < q.nrQueued := by
      rw [hbooks.queued]
      exact List.length_pos_of_mem ((mem_queueOf hbooks).2 hr)
    have hon' : CfsRq.on { p with nrQueued := p.nrQueued + 1 } = rq.on := hon
    refine ⟨hon' ▸ hbooks.again hr hj₁ hnot₁ ht₁ haway.curr (by rw [haway.tree]) haway.weight ht₂
      ⟨hj.curr, hj.same, hj.node, hj.weight⟩ (ht.counts _ p.load) ?_ ?_, fun n hn => hon' ▸ h.buddy n ?_⟩
    · show p.nrQueued + 1 = q.nrQueued
      rw [hrel.nrQueued, haway.nrQueued, hrel₁.nrQueued]
      exact Nat.sub_add_cancel hpos
    · show p.load = _
      rw [hrel.load, hl, hk.load, hk.weight r]
      congr 1
      exact (hrel.same.weight r).symm
    · exact hk.next n (hrel₁.same.next n (haway.next n (hrel.same.next n hn)))
  · have hsub : q₂.tasksTimeline.inorder.Sublist rq.tasksTimeline.inorder := by
      rw [haway.tree, htree₁, ← hk.tree]
      exact List.erase_sublist
    refine (hsort.before rfl fun _ => rfl).after hsub fun a ha => ?_
    rw [haway.deadline a (haway.tree ▸ ha), hrel₁.se a]
    exact hk.deadline a (hsub.subset ha) (ne_of_mem_of_not_mem ha hnot₂)

theorem Away.trans (h : Away r rq rq') (h' : Away r rq' rq'') : Away r rq rq'' :=
  ⟨h'.curr.trans h.curr, fun n hn => h.next n (h'.next n hn), h'.nrQueued.trans h.nrQueued, h'.tree.trans h.tree,
    fun a => (h'.onRq a).trans (h.onRq a), fun a ha => (h'.weight a ha).trans (h.weight a ha),
    fun a ha => (h'.deadline a (h.tree ▸ ha)).trans (h.deadline a ha), fun ht => h'.tally (h.tally ht)⟩

theorem Keeps.away (h : Keeps rq rq') (r : Nat) : Away r rq rq' :=
  ⟨h.curr, h.next, h.nrQueued, h.tree, h.onRq, fun a _ => h.weight a, h.deadline, h.tally⟩

/-- An entity out of the tree changes. -/
theorem Away.set {f : SchedEntity → SchedEntity} (ho : (f (rq.se r)).onRq = (rq.se r).onRq)
    (hr : r ∉ rq.tasksTimeline.inorder) : Away r rq (rq.set r f) := by
  refine ⟨rfl, fun _ => id, rfl, rfl, fun a => ?_, fun a ha => ?_, fun a ha => ?_, fun ht => ht.set fun h => absurd h hr⟩
  · by_cases ha : a = r
    · subst ha
      rw [set_self, ho]
    · rw [set_of_ne ha]
  · rw [set_of_ne ha]
  · rw [set_of_ne (ne_of_mem_of_not_mem ha hr)]

theorem Away.load (rq : CfsRq) (r : Nat) (l : U64) : Away r rq { rq with load := l } :=
  ⟨rfl, fun _ => id, rfl, rfl, fun _ => rfl, fun _ _ => rfl, fun _ _ => rfl, fun h => ⟨h.nodup, h.weight, h.key, h.heap⟩⟩

/-- An entity off the queue changes, its weight too. -/
theorem Books.set_off {f : SchedEntity → SchedEntity} (h : Books rq) (hr : (rq.se r).onRq = false)
    (ho : (f (rq.se r)).onRq = (rq.se r).onRq) : Books (rq.set r f) ∧ Resorted rq (rq.set r f) := by
  have hnot : r ∉ rq.tasksTimeline.inorder := fun hm => Bool.false_ne_true (hr.symm.trans ((h.mem_iff r).1 hm).1)
  have haway : Away r rq (rq.set r f) := Away.set ho hnot
  have hon : (rq.set r f).on = rq.on := funext haway.onRq
  refine ⟨?_, rq.tasksTimeline, List.Sublist.refl _, haway.deadline, Or.inl rfl⟩
  refine ⟨hon ▸ ⟨haway.tally h.tallied, h.mem_iff, h.queued,
    h.load.trans (congrArg List.sum (List.map_congr_left fun a ha => ?_))⟩, fun n hn => hon ▸ h.buddy n hn⟩
  refine (haway.weight a ?_).symm
  rintro rfl
  exact Bool.false_ne_true (hr.symm.trans ((mem_queueOf h.toBooksOf).1 ha))

/-- `reweight_entity`, of any entity. -/
theorem reweightEntity_books {weight : U64} (h : Books rq) (he : reweightEntity cfg env rq r weight = some rq') :
    Books rq' ∧ Resorted rq rq' := by
  unfold reweightEntity at he
  by_cases hon : (rq.se r).onRq = true
  · rw [if_pos hon] at he
    dsimp only at he
    have hk : Keeps rq (avgVruntime (Fair.updateCurr cfg env rq)) := h.updateCurr.trans (Keeps.avgVruntime _)
    generalize avgVruntime (Fair.updateCurr cfg env rq) = q at he hk
    generalize (decide (q.curr = some r ∧ protectSlice (q.se r) = true)) = relVprot at he
    have hbut : KeepsBut r rq (q.set r (relativeTo cfg env q.zeroVruntime relVprot)) := hk.but_set rfl rfl rfl rfl
    generalize q.set r (relativeTo cfg env q.zeroVruntime relVprot) = q₀ at he hbut
    obtain ⟨-, hrel, -, -, hnot⟩ := takeOut_spec env h hon hbut
    generalize htake : takeOut env q₀ r = q₁ at he hrel hnot
    refine putBack_books h hon hbut ?_ he ?_
    · rw [htake]
      have hscaled : Away r { q₁ with load := q₁.load - (q₁.se r).weight } (CfsRq.set
          { q₁ with load := q₁.load - (q₁.se r).weight } r fun se => { rescaleEntity weight relVprot se with weight := weight }) :=
        Away.set rfl hnot
      exact (((Away.load q₁ r _).trans hscaled).trans (Away.set rfl hnot)).trans (Away.load _ r _)
    · show q₁.load - (q₁.se r).weight + _ = _
      rw [hrel.load, hrel.same.weight, ← hbut.load, ← hbut.weight r]
  · rw [if_neg hon] at he
    obtain rfl := Option.some.inj he
    exact h.set_off (Bool.eq_false_of_not_eq_true hon) rfl

/-- `requeue_delayed_entity` of an entity on the queue. -/
theorem requeueDelayedEntity_books (h : Books rq) (hr : (rq.se r).onRq = true)
    (he : requeueDelayedEntity cfg env rq r = some rq') : Books rq' ∧ Resorted rq rq' := by
  unfold requeueDelayedEntity at he
  have hk := Keeps.updateEntityLag cfg env rq r
  generalize Fair.updateEntityLag cfg env rq r = lag at he hk
  obtain ⟨q, modified⟩ := lag
  dsimp only at he hk
  obtain ⟨p, hp, rfl⟩ := Option.map_eq_some_iff.1 he
  have hbooks : Books p ∧ Resorted rq p := by
    split at hp
    · obtain ⟨-, hrel, -, -, hnot⟩ := takeOut_spec env h hr (hk.but r)
      have hplace := Keeps.placeEntity cfg false hnot
      refine putBack_books h hr (hk.but r) (hplace.away r) hp ?_
      rw [hplace.load, hplace.weight, hrel.load, hrel.same.weight]
      show q.load = rq.load - (rq.se r).weight + (q.se r).weight
      rw [hk.load, hk.weight, sub_add_cancel]
    · obtain rfl := Option.some.inj hp
      exact ⟨h.keeps hk, Resorted.of_frame hk.toFrame⟩
  refine ⟨hbooks.1.keeps (Keeps.set rfl rfl fun _ => ⟨rfl, rfl, rfl⟩), hbooks.2.before rfl ?_⟩
  apply set_deadline
  exact fun _ => rfl

/-- What one act does to the queue. -/
theorem Step.books {a : Act} (h : Books rq) (hs : Step cfg rq a rq') : Books rq' ∧ Resorted rq rq' := by
  cases hs with
  | enqueue hr he => exact enqueueEntity_books h hr he
  | dequeue hr => exact dequeueEntity_books h hr
  | setNext hc => exact setNextEntity_books h hc
  | putPrev hc he => exact putPrevEntity_books h hc he
  | tick => exact ⟨h.keeps h.updateCurr, Resorted.of_frame h.updateCurr.toFrame⟩
  | reweight _ he => exact reweightEntity_books h he
  | requeueDelayed hr he => exact requeueDelayedEntity_books h hr he
  | setNextBuddy hr =>
    refine ⟨⟨⟨⟨h.tallied.nodup, h.tallied.weight, h.tallied.key, h.tallied.heap⟩, h.mem_iff, h.queued, h.load⟩, ?_⟩,
      rq.tasksTimeline, List.Sublist.refl _, fun _ _ => rfl, Or.inl rfl⟩
    rintro n hn
    obtain rfl := Option.some.inj hn
    exact hr

/-- A new queue is empty, and its books are right. -/
theorem books_init {se : Nat → SchedEntity} (hse : ∀ r, (se r).onRq = false) (zero : U64) : Books (initCfsRq se zero) := by
  refine ⟨⟨⟨List.nodup_nil, rfl, rfl, trivial⟩, fun r => ?_, rfl, rfl⟩, fun n hn => (Option.some_ne_none n hn.symm).elim⟩
  constructor
  · exact fun h => absurd h List.not_mem_nil
  · exact fun h => (Bool.false_ne_true ((hse r).symm.trans h.1)).elim

end OsLab.Fair
