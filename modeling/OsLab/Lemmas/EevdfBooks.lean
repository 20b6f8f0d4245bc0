import OsLab.Eevdf
import OsLab.Lib.Run
import Mathlib.Algebra.BigOperators.Group.List.Basic
import Mathlib.Tactic.Ring

/-!
# The books of the fair run queue

The tree holds the entities that are on the queue and do not run. The sums are those over the tree, modulo `2 ^ 64` and with the
weights as they are scaled at the time, and every node has the smallest virtual runtime below it as the callback computes it
(`Tallied`). Every operation is a composition of steps that change entities outside the tree, move `zero_vruntime`, or put an
entity into the tree or take it out.
-/

namespace OsLab.Fair

/-- A weight as `avg_vruntime_weight` scales it. -/
def weightOf (shift : Nat) (w : U64) : U64 := if shift ≠ 0 then if w >>> shift < 2 then 2 else w >>> shift else w

/-- The scaled weights of the entities, added up. -/
def totalWeight (se : Nat → SchedEntity) (shift : Nat) (l : List Nat) : U64 := (l.map fun r => weightOf shift (se r).weight).sum

/-- Their weighted keys, added up. -/
def totalKey (se : Nat → SchedEntity) (zero : U64) (shift : Nat) (l : List Nat) : U64 :=
  (l.map fun r => ((se r).vruntime - zero) * weightOf shift (se r).weight).sum

/-- Every node has what the callback computes from its children. -/
def Heaped (se : Nat → SchedEntity) : SearchTree Nat → Prop
  | .nil => True
  | .node left r right =>
    Heaped se left ∧ Heaped se right ∧ (se r).minVruntime = minVruntimeUpdate se r left.root right.root

/-- The tree and the sums agree. -/
structure Tallied (rq : CfsRq) : Prop where
  nodup : rq.tasksTimeline.inorder.Nodup
  weight : rq.sumWeight = totalWeight rq.se rq.sumShift rq.tasksTimeline.inorder
  key : rq.sumWVruntime = totalKey rq.se rq.zeroVruntime rq.sumShift rq.tasksTimeline.inorder
  heap : Heaped rq.se rq.tasksTimeline

/-- The entities that compete: those in the tree, and `curr` when it is on the queue. -/
def queueOf (on : Nat → Bool) (rq : CfsRq) : List Nat := rq.tasksTimeline.inorder ++ (rq.curr.filter on).toList

/-- The books, when the entities `on` holds of are on the queue. -/
structure BooksOf (on : Nat → Bool) (rq : CfsRq) : Prop where
  tallied : Tallied rq
  mem_iff : ∀ r, r ∈ rq.tasksTimeline.inorder ↔ on r = true ∧ rq.curr ≠ some r
  queued : rq.nrQueued = (queueOf on rq).length
  load : rq.load = ((queueOf on rq).map fun r => (rq.se r).weight).sum

/-- The entities on the queue, by their `on_rq`. -/
def CfsRq.on (rq : CfsRq) (r : Nat) : Bool := (rq.se r).onRq

/-- What holds between two calls. -/
structure Books (rq : CfsRq) : Prop extends BooksOf rq.on rq where
  buddy : ∀ n, rq.next = some n → rq.on n = true

/-- Who is on the queue, with which weight, and what is counted of that is the same; the buddy may be cleared. -/
structure Same (rq rq' : CfsRq) : Prop where
  curr : rq'.curr = rq.curr
  next : ∀ n, rq'.next = some n → rq.next = some n
  nrQueued : rq'.nrQueued = rq.nrQueued
  load : rq'.load = rq.load
  onRq : ∀ r, (rq'.se r).onRq = (rq.se r).onRq
  weight : ∀ r, (rq'.se r).weight = (rq.se r).weight

/-- Only the tree, the sums and what the callback writes change. -/
structure Relinked (rq rq' : CfsRq) : Prop where
  curr : rq'.curr = rq.curr
  next : rq'.next = rq.next
  nrQueued : rq'.nrQueued = rq.nrQueued
  load : rq'.load = rq.load
  zero : rq'.zeroVruntime = rq.zeroVruntime
  se : ∀ r, rq'.se r = { rq.se r with minVruntime := (rq'.se r).minVruntime }

/-- Nobody moves in the tree either. -/
structure Frame (rq rq' : CfsRq) : Prop extends Same rq rq' where
  tree : rq'.tasksTimeline = rq.tasksTimeline
  deadline : ∀ r ∈ rq.tasksTimeline.inorder, (rq'.se r).deadline = (rq.se r).deadline

/-- `rq'` is `rq` with the entity `r` beside: in the tree, unless it runs. -/
structure Joins (rq rq' : CfsRq) (r : Nat) : Prop where
  curr : rq'.curr = rq.curr
  same : rq.curr = some r → rq'.tasksTimeline.inorder = rq.tasksTimeline.inorder
  node : rq.curr ≠ some r → rq'.tasksTimeline.inorder.Perm (r :: rq.tasksTimeline.inorder)
  weight : ∀ a, a ≠ r → (rq'.se a).weight = (rq.se a).weight

variable {cfg : Config} {env : Env} {rq rq' rq'' : CfsRq} {se se' : Nat → SchedEntity} {r : Nat} {l l' : List Nat}
  {t : SearchTree Nat}

@[simp] theorem set_self (rq : CfsRq) (r : Nat) (f : SchedEntity → SchedEntity) : (rq.set r f).se r = f (rq.se r) :=
  Function.update_self ..

theorem set_of_ne {a : Nat} (h : a ≠ r) (rq : CfsRq) (f : SchedEntity → SchedEntity) : (rq.set r f).se a = rq.se a :=
  Function.update_of_ne h ..

@[simp] theorem set_tasksTimeline (rq : CfsRq) (r : Nat) (f : SchedEntity → SchedEntity) :
    (rq.set r f).tasksTimeline = rq.tasksTimeline := rfl

@[simp] theorem set_curr (rq : CfsRq) (r : Nat) (f : SchedEntity → SchedEntity) : (rq.set r f).curr = rq.curr := rfl

@[simp] theorem set_nrQueued (rq : CfsRq) (r : Nat) (f : SchedEntity → SchedEntity) : (rq.set r f).nrQueued = rq.nrQueued := rfl

@[simp] theorem set_load (rq : CfsRq) (r : Nat) (f : SchedEntity → SchedEntity) : (rq.set r f).load = rq.load := rfl

@[simp] theorem set_zeroVruntime (rq : CfsRq) (r : Nat) (f : SchedEntity → SchedEntity) :
    (rq.set r f).zeroVruntime = rq.zeroVruntime := rfl

@[simp] theorem set_sumShift (rq : CfsRq) (r : Nat) (f : SchedEntity → SchedEntity) : (rq.set r f).sumShift = rq.sumShift := rfl

@[simp] theorem set_sumWeight (rq : CfsRq) (r : Nat) (f : SchedEntity → SchedEntity) : (rq.set r f).sumWeight = rq.sumWeight := rfl

@[simp] theorem set_sumWVruntime (rq : CfsRq) (r : Nat) (f : SchedEntity → SchedEntity) :
    (rq.set r f).sumWVruntime = rq.sumWVruntime := rfl

theorem Same.refl (rq : CfsRq) : Same rq rq := ⟨rfl, fun _ => id, rfl, rfl, fun _ => rfl, fun _ => rfl⟩

theorem Same.trans (h : Same rq rq') (h' : Same rq' rq'') : Same rq rq'' :=
  ⟨h'.curr.trans h.curr, fun n hn => h.next n (h'.next n hn), h'.nrQueued.trans h.nrQueued, h'.load.trans h.load,
    fun r => (h'.onRq r).trans (h.onRq r), fun r => (h'.weight r).trans (h.weight r)⟩

/-- A change of the tree changes nothing that is counted. -/
theorem Relinked.same (h : Relinked rq rq') : Same rq rq' :=
  ⟨h.curr, fun _ hn => h.next ▸ hn, h.nrQueued, h.load, fun r => by rw [h.se r], fun r => by rw [h.se r]⟩

/-- An entity changes in what is not counted. -/
theorem Same.set {f : SchedEntity → SchedEntity} (ho : (f (rq.se r)).onRq = (rq.se r).onRq)
    (hw : (f (rq.se r)).weight = (rq.se r).weight) : Same rq (rq.set r f) := by
  refine ⟨rfl, fun _ => id, rfl, rfl, fun a => ?_, fun a => ?_⟩
  all_goals
    by_cases ha : a = r
    · subst ha
      simpa using by assumption
    · rw [set_of_ne ha]

/-! ## Sums -/

/-- The sum of the weights depends on the weights alone. -/
theorem totalWeight_congr {shift : Nat} (h : ∀ r ∈ l, (se' r).weight = (se r).weight) :
    totalWeight se' shift l = totalWeight se shift l := by
  unfold totalWeight
  rw [List.map_congr_left fun r hr => by rw [h r hr]]

/-- The sum of the keys depends on the weights and virtual runtimes alone. -/
theorem totalKey_congr {zero : U64} {shift : Nat} (hw : ∀ r ∈ l, (se' r).weight = (se r).weight)
    (hv : ∀ r ∈ l, (se' r).vruntime = (se r).vruntime) : totalKey se' zero shift l = totalKey se zero shift l := by
  unfold totalKey
  rw [List.map_congr_left fun r hr => by rw [hw r hr, hv r hr]]

theorem totalWeight_perm {shift : Nat} (h : l.Perm l') : totalWeight se shift l = totalWeight se shift l' :=
  (h.map _).sum_eq

theorem totalKey_perm {zero : U64} {shift : Nat} (h : l.Perm l') : totalKey se zero shift l = totalKey se zero shift l' :=
  (h.map _).sum_eq

@[simp] theorem totalWeight_cons {shift : Nat} :
    totalWeight se shift (r :: l) = weightOf shift (se r).weight + totalWeight se shift l := by
  simp [totalWeight]

@[simp] theorem totalKey_cons {zero : U64} {shift : Nat} :
    totalKey se zero shift (r :: l) = ((se r).vruntime - zero) * weightOf shift (se r).weight + totalKey se zero shift l := by
  simp [totalKey]

/-- The keys measured from another point. -/
theorem totalKey_move (zero delta : U64) (shift : Nat) (l : List Nat) :
    totalKey se (zero + delta) shift l = totalKey se zero shift l - totalWeight se shift l * delta := by
  induction l with
  | nil => simp [totalKey, totalWeight]
  | cons r l ih =>
    rw [totalKey_cons, totalKey_cons, totalWeight_cons, ih]
    ring

/-- The sums over the nodes, added to what was there. -/
theorem foldl_addOne (l : List Nat) (rq : CfsRq) :
    l.foldl (fun rq r => sumWVruntimeAddOne rq (rq.se r)) rq =
      { rq with
        sumWVruntime := rq.sumWVruntime + totalKey rq.se rq.zeroVruntime rq.sumShift l
        sumWeight := rq.sumWeight + totalWeight rq.se rq.sumShift l } := by
  induction l generalizing rq with
  | nil => simp [totalKey, totalWeight]
  | cons r l ih =>
    rw [List.foldl_cons, ih, totalKey_cons, totalWeight_cons]
    simp only [sumWVruntimeAddOne, ← add_assoc]
    rfl

/-- The loop adds up what the sums stand for. -/
theorem resum_eq (rq : CfsRq) :
    resum rq =
      { rq with
        sumWVruntime := totalKey rq.se rq.zeroVruntime rq.sumShift rq.tasksTimeline.inorder
        sumWeight := totalWeight rq.se rq.sumShift rq.tasksTimeline.inorder } := by
  unfold resum
  rw [foldl_addOne]
  simp

/-! ## The heap -/

/-- The callback writes `min_vruntime` and nothing else. -/
theorem augment_fields (se : Nat → SchedEntity) (t : SearchTree Nat) (r : Nat) :
    augment se t r = { se r with minVruntime := (augment se t r).minVruntime } := by
  induction t generalizing se with
  | nil => rfl
  | node left a right ihl ihr =>
    have h : augment (augment se left) right r =
        { se r with minVruntime := (augment (augment se left) right r).minVruntime } := by
      rw [ihr, ihl]
    simp only [augment]
    by_cases hr : r = a
    · subst hr
      rw [Function.update_self, h]
    · rw [Function.update_of_ne hr, h]

/-- The callback is called for the nodes of the tree only. -/
theorem augment_of_not_mem (h : r ∉ t.inorder) : augment se t r = se r := by
  induction t generalizing se with
  | nil => rfl
  | node left a right ihl ihr =>
    simp only [SearchTree.inorder_node, List.mem_append, List.mem_cons, not_or] at h
    obtain ⟨hl, ha, hr⟩ := h
    rw [augment, Function.update_of_ne ha, ihr hr, ihl hl]

theorem lowerTo_congr {m : U64} {o : Option Nat} (h : ∀ r, o = some r → (se' r).minVruntime = (se r).minVruntime) :
    lowerTo se' m o = lowerTo se m o := by
  cases o with
  | none => rfl
  | some r => simp only [lowerTo, h r rfl]

/-- The callback reads the virtual runtime of the node and what it wrote in its children. -/
theorem minVruntimeUpdate_congr {left right : Option Nat} (hv : (se' r).vruntime = (se r).vruntime)
    (hl : ∀ a, left = some a → (se' a).minVruntime = (se a).minVruntime)
    (hr : ∀ a, right = some a → (se' a).minVruntime = (se a).minVruntime) :
    minVruntimeUpdate se' r left right = minVruntimeUpdate se r left right := by
  unfold minVruntimeUpdate
  rw [hv, lowerTo_congr hl, lowerTo_congr hr]

/-- A tree whose nodes keep their virtual runtimes and what the callback wrote stays right. -/
theorem heaped_congr (hv : ∀ r ∈ t.inorder, (se' r).vruntime = (se r).vruntime)
    (hm : ∀ r ∈ t.inorder, (se' r).minVruntime = (se r).minVruntime) (h : Heaped se t) : Heaped se' t := by
  induction t with
  | nil => trivial
  | node left a right ihl ihr =>
    obtain ⟨hl, hr, ha⟩ := h
    have hleft : ∀ r ∈ left.inorder, r ∈ (SearchTree.node left a right).inorder := by simp +contextual
    have hright : ∀ r ∈ right.inorder, r ∈ (SearchTree.node left a right).inorder := by simp +contextual
    refine ⟨ihl (fun r h => hv r (hleft r h)) (fun r h => hm r (hleft r h)) hl,
      ihr (fun r h => hv r (hright r h)) (fun r h => hm r (hright r h)) hr, ?_⟩
    have hself : a ∈ (SearchTree.node left a right).inorder := by simp
    rw [hm a hself, ha, minVruntimeUpdate_congr (hv a hself) (fun r h => hm r (hleft r (SearchTree.root_mem h)))
      (fun r h => hm r (hright r (SearchTree.root_mem h)))]

/-- The callback, run from the leaves up, leaves a heap. -/
theorem heaped_augment (h : t.inorder.Nodup) : Heaped (augment se t) t := by
  induction t generalizing se with
  | nil => trivial
  | node left a right ihl ihr =>
    simp only [SearchTree.inorder_node, List.nodup_append, List.nodup_cons, List.mem_cons] at h
    obtain ⟨hl, ⟨har, hr⟩, hd⟩ := h
    have hla : ∀ b ∈ left.inorder, b ≠ a := fun b hb => hd b hb a (Or.inl rfl)
    have hra : ∀ b ∈ right.inorder, b ≠ a := fun b hb he => har (he ▸ hb)
    have hlr : ∀ b ∈ left.inorder, b ∉ right.inorder := fun b hb hb' => hd b hb b (Or.inr hb') rfl
    simp only [augment]
    -- what is done to the node and to the right subtree does not touch the left one
    have hleft : ∀ b ∈ left.inorder,
        Function.update (augment (augment se left) right) a
          { augment (augment se left) right a with
            minVruntime := minVruntimeUpdate (augment (augment se left) right) a left.root right.root } b =
          augment se left b := by
      intro b hb
      rw [Function.update_of_ne (hla b hb), augment_of_not_mem (hlr b hb)]
    have hright : ∀ b ∈ right.inorder,
        Function.update (augment (augment se left) right) a
          { augment (augment se left) right a with
            minVruntime := minVruntimeUpdate (augment (augment se left) right) a left.root right.root } b =
          augment (augment se left) right b := fun b hb => Function.update_of_ne (hra b hb) _ _
    refine ⟨heaped_congr (fun b hb => by rw [hleft b hb]) (fun b hb => by rw [hleft b hb]) (ihl hl),
      heaped_congr (fun b hb => by rw [hright b hb]) (fun b hb => by rw [hright b hb]) (ihr hr), ?_⟩
    refine Eq.trans (by rw [Function.update_self]) (minVruntimeUpdate_congr ?_ (fun b hb => ?_) fun b hb => ?_).symm
    · rw [Function.update_self]
    · rw [Function.update_of_ne (hla b (SearchTree.root_mem hb))]
    · rw [Function.update_of_ne (hra b (SearchTree.root_mem hb))]

/-! ## Steps outside the tree -/

/-- The books of the tree stay when the nodes keep what is added up. -/
theorem Tallied.congr (h : Tallied rq) (ht : rq'.tasksTimeline = rq.tasksTimeline) (hz : rq'.zeroVruntime = rq.zeroVruntime)
    (hs : rq'.sumShift = rq.sumShift) (hsw : rq'.sumWeight = rq.sumWeight) (hsk : rq'.sumWVruntime = rq.sumWVruntime)
    (hw : ∀ r ∈ rq.tasksTimeline.inorder, (rq'.se r).weight = (rq.se r).weight)
    (hv : ∀ r ∈ rq.tasksTimeline.inorder, (rq'.se r).vruntime = (rq.se r).vruntime)
    (hm : ∀ r ∈ rq.tasksTimeline.inorder, (rq'.se r).minVruntime = (rq.se r).minVruntime) : Tallied rq' := by
  refine ⟨?_, ?_, ?_, ?_⟩
  · rw [ht]
    exact h.nodup
  · rw [ht, hs, hsw, totalWeight_congr hw, h.weight]
  · rw [ht, hs, hz, hsk, totalKey_congr hw hv, h.key]
  · rw [ht]
    exact heaped_congr hv hm h.heap

/-- An entity changes that is not in the tree, or not in what is added up. -/
theorem Tallied.set {f : SchedEntity → SchedEntity} (h : Tallied rq)
    (hf : r ∈ rq.tasksTimeline.inorder → (f (rq.se r)).weight = (rq.se r).weight ∧ (f (rq.se r)).vruntime = (rq.se r).vruntime ∧
      (f (rq.se r)).minVruntime = (rq.se r).minVruntime) : Tallied (rq.set r f) := by
  have hse : ∀ a ∈ rq.tasksTimeline.inorder, ((rq.set r f).se a).weight = (rq.se a).weight ∧
      ((rq.set r f).se a).vruntime = (rq.se a).vruntime ∧ ((rq.set r f).se a).minVruntime = (rq.se a).minVruntime := by
    intro a ha
    by_cases har : a = r
    · subst har
      simpa using hf ha
    · simp [set_of_ne har]
  exact Tallied.congr h rfl rfl rfl rfl rfl (fun a ha => (hse a ha).1) (fun a ha => (hse a ha).2.1)
    (fun a ha => (hse a ha).2.2)

/-- Moving the zero point moves the sum along. -/
theorem Tallied.updateZeroVruntime (h : Tallied rq) (delta : U64) : Tallied (updateZeroVruntime rq delta) := by
  refine ⟨h.nodup, h.weight, ?_, h.heap⟩
  show rq.sumWVruntime - rq.sumWeight * delta = totalKey rq.se (rq.zeroVruntime + delta) rq.sumShift rq.tasksTimeline.inorder
  rw [totalKey_move, ← h.key, ← h.weight]

/-- `avg_vruntime` moves the point the keys are taken from, and the sums with it. -/
theorem Tallied.avgVruntime (h : Tallied rq) : Tallied (avgVruntime rq) := Tallied.updateZeroVruntime h _

/-! ## Steps of the tree -/

/-- `sum_w_vruntime_add_paranoid` adds the entity, to sums computed again when the shift had to grow. -/
theorem sumWVruntimeAddParanoid_spec (e : SchedEntity) (rq : CfsRq) (h : Tallied rq)
    (hr : sumWVruntimeAddParanoid rq e = some rq') :
    ∃ rq₁, Tallied rq₁ ∧ rq₁ = { rq with sumShift := rq₁.sumShift, sumWVruntime := rq₁.sumWVruntime, sumWeight := rq₁.sumWeight } ∧
      rq' = sumWVruntimeAddOne rq₁ e := by
  fun_induction sumWVruntimeAddParanoid rq e with
  | case1 rq weight key hfits =>
    exact ⟨rq, h, rfl, (Option.some.inj hr).symm⟩
  | case2 => cases hr
  | case3 rq weight key hfits hlt hshift ih =>
    have htallied : Tallied (resum { rq with sumShift := rq.sumShift + 1 }) := by
      rw [resum_eq]
      exact ⟨h.nodup, rfl, rfl, h.heap⟩
    obtain ⟨rq₁, h1, h2, h3⟩ := ih htallied hr
    refine ⟨rq₁, h1, ?_, h3⟩
    rw [h2, resum_eq]

/-- `sum_w_vruntime_add` adds up anew, with a greater shift, when the sum overflows, and then adds the entity. -/
theorem sumWVruntimeAdd_spec {e : SchedEntity} (h : Tallied rq) (hr : sumWVruntimeAdd cfg rq e = some rq') :
    ∃ rq₁, Tallied rq₁ ∧ rq₁ = { rq with sumShift := rq₁.sumShift, sumWVruntime := rq₁.sumWVruntime, sumWeight := rq₁.sumWeight } ∧
      rq' = sumWVruntimeAddOne rq₁ e := by
  unfold sumWVruntimeAdd at hr
  by_cases hp : cfg.paranoidAvg = true
  · rw [if_pos hp] at hr
    exact sumWVruntimeAddParanoid_spec e rq h hr
  · rw [if_neg hp] at hr
    exact ⟨rq, h, rfl, (Option.some.inj hr).symm⟩

theorem rebuild_fields (rq : CfsRq) (env : Env) (l : List Nat) (r : Nat) :
    (rq.rebuild env l).se r = { rq.se r with minVruntime := ((rq.rebuild env l).se r).minVruntime } := augment_fields _ _ _

/-- The tree made of a list has the list in it, in order. -/
theorem rebuild_inorder (rq : CfsRq) (env : Env) (l : List Nat) : (rq.rebuild env l).tasksTimeline.inorder = l :=
  env.inorder_shape l

/-- The tree rebuilt over nodes whose sums are known. -/
theorem tallied_rebuild (hn : l.Nodup) (hw : rq.sumWeight = totalWeight rq.se rq.sumShift l)
    (hk : rq.sumWVruntime = totalKey rq.se rq.zeroVruntime rq.sumShift l) : Tallied (rq.rebuild env l) := by
  have hin := rebuild_inorder rq env l
  have hf := rebuild_fields rq env l
  refine ⟨by rwa [hin], ?_, ?_, ?_⟩
  · rw [hin, totalWeight_congr fun r _ => by rw [hf r]]
    exact hw
  · rw [hin, totalKey_congr (fun r _ => by rw [hf r]) (fun r _ => by rw [hf r])]
    exact hk
  · refine heaped_augment ?_
    rw [env.inorder_shape]
    exact hn

theorem set_minVruntime_fields (rq : CfsRq) (r a : Nat) :
    (rq.set r fun se => { se with minVruntime := se.vruntime }).se a =
      { rq.se a with minVruntime := ((rq.set r fun se => { se with minVruntime := se.vruntime }).se a).minVruntime } := by
  by_cases ha : a = r
  · subst ha
    rw [set_self]
  · rw [set_of_ne ha]

/-- `__enqueue_entity` puts the entity into the tree, by its deadline, and adds it to the sums. -/
theorem enqueueNode_spec (h : Tallied rq) (hr : r ∉ rq.tasksTimeline.inorder) (he : enqueueNode cfg env rq r = some rq') :
    Tallied rq' ∧ Relinked rq rq' ∧
      rq'.tasksTimeline.inorder = (rq.tasksTimeline.add (fun a b => entityBefore (rq'.se a) (rq'.se b)) r).inorder := by
  unfold enqueueNode at he
  obtain ⟨rq₂, hadd, rfl⟩ := Option.map_eq_some_iff.1 he
  obtain ⟨rq₁, h1, heq, rfl⟩ := sumWVruntimeAdd_spec h hadd
  have htree : rq₁.tasksTimeline = rq.tasksTimeline := by rw [heq]
  have hse : rq₁.se = rq.se := by rw [heq]
  have hnew : r ∉ rq₁.tasksTimeline.inorder := htree ▸ hr
  have h0 : Relinked rq rq₁ := by
    rw [heq]
    exact ⟨rfl, rfl, rfl, rfl, rfl, fun _ => rfl⟩
  rw [← htree, ← hse]
  -- the node starts with its own virtual runtime as the smallest
  generalize hq : (sumWVruntimeAddOne rq₁ (rq₁.se r)).set r (fun se => { se with minVruntime := se.vruntime }) = q
  have hq' : ∀ a, q.se a = { rq₁.se a with minVruntime := (q.se a).minVruntime } := by
    intro a
    subst hq
    exact set_minVruntime_fields _ _ _
  have hqw : ∀ a ∈ r :: rq₁.tasksTimeline.inorder, (q.se a).weight = (rq₁.se a).weight := fun a _ => by rw [hq' a]
  have hqv : ∀ a ∈ r :: rq₁.tasksTimeline.inorder, (q.se a).vruntime = (rq₁.se a).vruntime := fun a _ => by rw [hq' a]
  have htreeq : q.tasksTimeline = rq₁.tasksTimeline := by rw [← hq]; rfl
  have hperm := SearchTree.add_perm (fun a b => entityBefore (q.se a) (q.se b)) r rq₁.tasksTimeline
  simp only [htreeq]
  refine ⟨tallied_rebuild ?_ ?_ ?_, ⟨?_, ?_, ?_, ?_, ?_, fun a => ?_⟩, ?_⟩
  · exact hperm.nodup_iff.2 (List.nodup_cons.2 ⟨hnew, h1.nodup⟩)
  · rw [totalWeight_perm hperm, totalWeight_congr hqw, totalWeight_cons, add_comm, ← hq]
    show rq₁.sumWeight + weightOf rq₁.sumShift (rq₁.se r).weight = _
    rw [h1.weight]
    rfl
  · rw [totalKey_perm hperm, totalKey_congr hqw hqv, totalKey_cons, add_comm, ← hq]
    show rq₁.sumWVruntime + ((rq₁.se r).vruntime - rq₁.zeroVruntime) * weightOf rq₁.sumShift (rq₁.se r).weight = _
    rw [h1.key]
    rfl
  · rw [← h0.curr, ← hq]
    rfl
  · rw [← h0.next, ← hq]
    rfl
  · rw [← h0.nrQueued, ← hq]
    rfl
  · rw [← h0.load, ← hq]
    rfl
  · rw [← h0.zero, ← hq]
    rfl
  · rw [rebuild_fields, hq' a, hse]
  · rw [rebuild_inorder]
    refine congrArg _ (SearchTree.add_congr _ fun a _ => ?_)
    unfold entityBefore
    rw [rebuild_fields q env _ r, rebuild_fields q env _ a]

/-- `__dequeue_entity` takes the entity out of the tree and out of the sums. -/
theorem dequeueNode_spec (env : Env) (h : Tallied rq) (hr : r ∈ rq.tasksTimeline.inorder) :
    Tallied (dequeueNode env rq r) ∧ Relinked rq (dequeueNode env rq r) ∧
      (dequeueNode env rq r).tasksTimeline.inorder = rq.tasksTimeline.inorder.erase r := by
  have hf := rebuild_fields rq env (rq.tasksTimeline.inorder.erase r)
  have hperm := List.perm_cons_erase hr
  refine ⟨?_, ⟨rfl, rfl, rfl, rfl, rfl, hf⟩, env.inorder_shape _⟩
  have htallied : Tallied (CfsRq.rebuild
      { rq with
        sumWeight := rq.sumWeight - weightOf rq.sumShift (rq.se r).weight
        sumWVruntime := rq.sumWVruntime - ((rq.se r).vruntime - rq.zeroVruntime) * weightOf rq.sumShift (rq.se r).weight }
      env (rq.tasksTimeline.inorder.erase r)) := by
    refine tallied_rebuild (h.nodup.erase r) ?_ ?_
    · show rq.sumWeight - _ = _
      rw [h.weight, totalWeight_perm hperm, totalWeight_cons, add_sub_cancel_left]
    · show rq.sumWVruntime - _ = _
      rw [h.key, totalKey_perm hperm, totalKey_cons, add_sub_cancel_left]
  refine Tallied.congr htallied rfl rfl rfl ?_ ?_ (fun _ _ => rfl) (fun _ _ => rfl) (fun _ _ => rfl)
  · show rq.sumWeight - weightOf rq.sumShift ((rq.rebuild env _).se r).weight = _
    rw [hf r]
    rfl
  · show rq.sumWVruntime - (((rq.rebuild env _).se r).vruntime - rq.zeroVruntime) *
      weightOf rq.sumShift ((rq.rebuild env _).se r).weight = _
    rw [hf r]
    rfl

/-! ## Who is on the queue -/

theorem Frame.refl (rq : CfsRq) : Frame rq rq := ⟨Same.refl rq, rfl, fun _ _ => rfl⟩

theorem Frame.trans (h : Frame rq rq') (h' : Frame rq' rq'') : Frame rq rq'' := by
  refine ⟨Same.trans h.toSame h'.toSame, h'.tree.trans h.tree, fun r hr => ?_⟩
  rw [h'.deadline r (h.tree ▸ hr), h.deadline r hr]

/-- The same entities are on the queue. -/
theorem Same.on (h : Same rq rq') : rq'.on = rq.on := funext h.onRq

/-- The same entities compete, in the tree or as `curr`. -/
theorem BooksOf.perm {on : Nat → Bool} (h : BooksOf on rq) (ht : Tallied rq')
    (hm : ∀ r, r ∈ rq'.tasksTimeline.inorder ↔ on r = true ∧ rq'.curr ≠ some r) (hq : (queueOf on rq').Perm (queueOf on rq))
    (hn : rq'.nrQueued = rq.nrQueued) (hl : rq'.load = rq.load) (hw : ∀ r, (rq'.se r).weight = (rq.se r).weight) :
    BooksOf on rq' := by
  refine ⟨ht, hm, ?_, ?_⟩
  · rw [hn, hq.length_eq, h.queued]
  · rw [hl, h.load, List.map_congr_left fun r _ => hw r, (hq.map _).sum_eq]

/-- What changes nobody on the queue keeps the books, if the sums are right. -/
theorem BooksOf.same {on : Nat → Bool} (h : BooksOf on rq) (hs : Same rq rq') (htree : rq'.tasksTimeline = rq.tasksTimeline)
    (ht : Tallied rq') : BooksOf on rq' := by
  refine h.perm ht (fun r => ?_) ?_ hs.nrQueued hs.load hs.weight
  · rw [htree, hs.curr]
    exact h.mem_iff r
  · rw [queueOf, queueOf, htree, hs.curr]

theorem filter_update_of_ne {o : Option Nat} {on : Nat → Bool} {b : Bool} (h : o ≠ some r) :
    o.filter (Function.update on r b) = o.filter on := by
  cases o with
  | none => rfl
  | some c =>
    have hc : c ≠ r := fun hc => h (congrArg some hc)
    simp only [Option.filter, Function.update_of_ne hc]

/-- One entity more competes. -/
theorem Joins.queue (h : Joins rq rq' r) (on : Nat → Bool) :
    (queueOf (Function.update on r true) rq').Perm (r :: queueOf (Function.update on r false) rq) := by
  unfold queueOf
  rw [h.curr]
  by_cases hc : rq.curr = some r
  · rw [h.same hc, hc]
    simp only [Option.filter_some, Function.update_self, if_true, Bool.false_eq_true, if_false, Option.toList_some,
      Option.toList_none, List.append_nil]
    exact List.perm_append_singleton r rq.tasksTimeline.inorder
  · rw [filter_update_of_ne hc, filter_update_of_ne hc, ← List.cons_append]
    exact (h.node hc).append_right _

/-- An entity that joins adds its weight to the load. -/
theorem Joins.load {on : Nat → Bool} (h : Joins rq rq' r) (hr : r ∉ queueOf (Function.update on r false) rq) :
    ((queueOf (Function.update on r true) rq').map fun a => (rq'.se a).weight).sum =
      ((queueOf (Function.update on r false) rq).map fun a => (rq.se a).weight).sum + (rq'.se r).weight := by
  rw [((h.queue on).map _).sum_eq, List.map_cons, List.sum_cons, add_comm,
    List.map_congr_left fun a ha => h.weight a (ne_of_mem_of_not_mem ha hr)]

/-- Who competes is who is on the queue. -/
theorem mem_queueOf {on : Nat → Bool} (h : BooksOf on rq) : r ∈ queueOf on rq ↔ on r = true := by
  unfold queueOf
  rw [List.mem_append, h.mem_iff, Option.mem_toList, Option.filter_eq_some_iff]
  tauto

/-- The entity comes to the queue. -/
theorem BooksOf.join {on : Nat → Bool} (h : BooksOf on rq) (hr : on r = false) (hj : Joins rq rq' r) (ht : Tallied rq')
    (hn : rq'.nrQueued = rq.nrQueued + 1) (hl : rq'.load = rq.load + (rq'.se r).weight) :
    BooksOf (Function.update on r true) rq' := by
  have hoff : Function.update on r false = on := by rw [← hr, Function.update_eq_self]
  have hnot : r ∉ queueOf (Function.update on r false) rq := by
    rw [hoff, mem_queueOf h, hr]
    exact Bool.false_ne_true
  refine ⟨ht, fun a => ?_, ?_, ?_⟩
  · rw [hj.curr]
    by_cases hc : rq.curr = some r
    · rw [hj.same hc, h.mem_iff]
      by_cases ha : a = r
      · subst ha
        simp [hc]
      · rw [Function.update_of_ne ha]
    · rw [(hj.node hc).mem_iff, List.mem_cons, h.mem_iff]
      by_cases ha : a = r
      · subst ha
        simp [hc]
      · rw [Function.update_of_ne ha]
        simp [ha]
  · rw [hn, (hj.queue on).length_eq, hoff, List.length_cons, h.queued]
  · rw [hl, Joins.load hj hnot, hoff, h.load]

/-- The entity leaves it. -/
theorem BooksOf.leave {on : Nat → Bool} (h : BooksOf on rq') (hr : on r = true) (hj : Joins rq rq' r) (ht : Tallied rq)
    (hnot : r ∉ rq.tasksTimeline.inorder) (hn : rq.nrQueued = rq'.nrQueued - 1) (hl : rq.load = rq'.load - (rq'.se r).weight) :
    BooksOf (Function.update on r false) rq := by
  have hon : Function.update on r true = on := by rw [← hr, Function.update_eq_self]
  have hmem : ∀ a, a ∈ rq.tasksTimeline.inorder ↔ Function.update on r false a = true ∧ rq.curr ≠ some a := by
    intro a
    by_cases ha : a = r
    · subst ha
      simp [hnot]
    · have hiff := h.mem_iff a
      rw [hj.curr] at hiff
      rw [Function.update_of_ne ha, ← hiff]
      by_cases hc : rq.curr = some r
      · rw [hj.same hc]
      · rw [(hj.node hc).mem_iff, List.mem_cons]
        simp [ha]
  have hq : r ∉ queueOf (Function.update on r false) rq := by
    unfold queueOf
    rw [List.mem_append, Option.mem_toList, Option.filter_eq_some_iff]
    simp [hnot]
  refine ⟨ht, hmem, ?_, ?_⟩
  · rw [hn, h.queued, ← hon, (hj.queue on).length_eq, List.length_cons, hon, Nat.add_sub_cancel]
  · rw [hl, h.load]
    nth_rewrite 1 [← hon]
    rw [Joins.load hj hq, add_sub_cancel_right]

/-- The entity leaves the queue, changes, and comes back. -/
theorem BooksOf.again {on : Nat → Bool} {rq₁ rq₂ : CfsRq} (h : BooksOf on rq) (hr : on r = true) (hout : Joins rq₁ rq r)
    (hnot : r ∉ rq₁.tasksTimeline.inorder) (ht₁ : Tallied rq₁) (hcurr : rq₂.curr = rq₁.curr)
    (htree : rq₂.tasksTimeline.inorder = rq₁.tasksTimeline.inorder) (hw : ∀ a, a ≠ r → (rq₂.se a).weight = (rq₁.se a).weight)
    (ht₂ : Tallied rq₂) (hin : Joins rq₂ rq' r) (ht : Tallied rq') (hn : rq'.nrQueued = rq.nrQueued)
    (hl : rq'.load = rq.load - (rq.se r).weight + (rq'.se r).weight) : BooksOf on rq' := by
  -- the counts as they are while the entity is away
  have haway : BooksOf (Function.update on r false)
      { rq₁ with nrQueued := rq.nrQueued - 1, load := rq.load - (rq.se r).weight } :=
    h.leave hr ⟨hout.curr, hout.same, hout.node, hout.weight⟩ ⟨ht₁.nodup, ht₁.weight, ht₁.key, ht₁.heap⟩ hnot rfl rfl
  have hq : queueOf (Function.update on r false) rq₂ = queueOf (Function.update on r false) rq₁ := by
    rw [queueOf, queueOf, hcurr, htree]
  have hchanged : BooksOf (Function.update on r false)
      { rq₂ with nrQueued := rq.nrQueued - 1, load := rq.load - (rq.se r).weight } := by
    refine ⟨⟨ht₂.nodup, ht₂.weight, ht₂.key, ht₂.heap⟩, fun a => ?_, haway.queued.trans (congrArg _ hq.symm),
      haway.load.trans ?_⟩
    · show a ∈ rq₂.tasksTimeline.inorder ↔ _ ∧ rq₂.curr ≠ some a
      rw [htree, hcurr]
      exact haway.mem_iff a
    · show ((queueOf _ rq₁).map _).sum = ((queueOf _ rq₂).map _).sum
      have hmem : ∀ a ∈ queueOf (Function.update on r false) rq₁, a ≠ r := by
        intro a ha hne
        have hon := (mem_queueOf haway).1 ha
        rw [hne, Function.update_self] at hon
        exact Bool.false_ne_true hon
      rw [hq, List.map_congr_left fun a ha => hw a (hmem a ha)]
  have hpos : 0 < rq.nrQueued := by
    rw [h.queued]
    exact List.length_pos_of_mem ((mem_queueOf h).2 hr)
  have hback := hchanged.join (Function.update_self ..) ⟨hin.curr, hin.same, hin.node, hin.weight⟩ ht
    (by rw [hn]; exact (Nat.sub_add_cancel hpos).symm) hl
  rwa [Function.update_idem, ← hr, Function.update_eq_self] at hback

end OsLab.Fair
