import OsLab.Lemmas.EevdfPick
import Mathlib.Algebra.Order.Ring.Abs

/-!
# The average virtual runtime and the lag

`avg_vruntime` moves `zero_vruntime` to the floor of the average. Nobody becomes eligible by that or stops being so.
-/

namespace OsLab.Fair

variable {cfg : Config} {env : Env} {rq rq' : CfsRq} {r : Nat}

theorem updateZeroVruntime_se (rq : CfsRq) (delta : U64) : (updateZeroVruntime rq delta).se = rq.se := rfl

theorem avgVruntime_se (rq : CfsRq) : (avgVruntime rq).se = rq.se := rfl

/-- The floor of the average, from `zero_vruntime` on. -/
def CfsRq.average (rq : CfsRq) : Int := rq.allKeys / rq.allWeight

/-- Weights are positive, so those of a queue that is not empty add up to more than 0. -/
theorem Fits.weight_pos (hf : Fits rq) (hq : rq.queue ≠ []) : 0 < rq.allWeight := Average.weight_pos hq hf.pos

/-- Where there is weight there is an entity. -/
theorem queue_ne_nil_of_sumWeight (h : Tallied rq) (hw : rq.sumWeight ≠ 0) : rq.queue ≠ [] := by
  intro hq
  have htree : rq.tasksTimeline.inorder = [] := (List.append_eq_nil_iff.1 hq).1
  apply hw
  rw [h.weight, htree]
  rfl

/-- Without weight in the tree, the tree is empty. -/
theorem tree_nil_of_sumWeight (h : Tallied rq) (hf : Fits rq) (hw : rq.sumWeight = 0) : rq.tasksTimeline.inorder = [] := by
  by_contra hne
  have hpos := Average.weight_pos hne fun a ha => hf.pos a (mem_queue_of_tree ha)
  have hle : Average.weight rq.tasksTimeline.inorder rq.weightOf ≤ rq.allWeight := by
    have hsplit : rq.allWeight =
        Average.weight rq.tasksTimeline.inorder rq.weightOf + Average.weight rq.currOn.toList rq.weightOf := by
      show Average.weight (rq.tasksTimeline.inorder ++ rq.currOn.toList) rq.weightOf = _
      simp [Average.weight]
    have hrest : 0 ≤ Average.weight rq.currOn.toList rq.weightOf :=
      Average.weight_nonneg fun a ha => hf.pos a (List.mem_append_right _ ha)
    omega
  have hlt := hf.weight
  have htoInt : rq.sumWeight.toInt = Average.weight rq.tasksTimeline.inorder rq.weightOf := by
    rw [h.weight, totalWeight_eq_ofInt]
    exact toInt_ofInt_of_fits (i := Average.weight rq.tasksTimeline.inorder rq.weightOf) (by omega) (by omega)
  rw [hw] at htoInt
  simp at htoInt
  omega

/-- `avg_vruntime` moves by the floor of the average. -/
theorem avgDelta_toInt (h : Tallied rq) (hf : Fits rq) : (avgDelta rq).toInt = rq.average := by
  unfold avgDelta
  split
  · rename_i hw
    have hq := queue_ne_nil_of_sumWeight h hw
    have hpos := hf.weight_pos hq
    obtain ⟨hk, hwt⟩ := sums_toInt h hf
    have hlow := hf.low
    have hhigh := hf.high
    have hweight := hf.weight
    dsimp only
    generalize (sumsWithCurr rq).1 = runtime at hk
    generalize (sumsWithCurr rq).2 = weight at hwt
    have hone : (weight - 1).toInt = weight.toInt - 1 := by
      apply Serial.toInt_sub_of_fits <;> simp <;> omega
    have hnum : (if runtime.toInt < 0 then runtime - (weight - 1) else runtime).toInt =
        if runtime.toInt < 0 then runtime.toInt - (weight.toInt - 1) else runtime.toInt := by
      split
      · rw [Serial.toInt_sub_of_fits, hone] <;> rw [hone] <;> omega
      · rfl
    rw [BitVec.toInt_sdiv_of_ne_or_ne, hnum, hwt, hk, Average.tdiv_eq_floor _ hpos]
    · rfl
    · right
      intro he
      rw [he] at hwt
      simp at hwt
      omega
  · rename_i hw
    have htree := tree_nil_of_sumWeight h hf (not_not.1 hw)
    have hqueue : rq.queue = rq.currOn.toList := by
      show rq.tasksTimeline.inorder ++ rq.currOn.toList = _
      rw [htree, List.nil_append]
    unfold CfsRq.average CfsRq.allKeys CfsRq.allWeight
    cases hc : rq.currOn with
    | none => simp [hqueue, hc]
    | some c =>
      have hpos := hf.pos c (by rw [hqueue, hc]; exact List.mem_singleton_self c)
      rw [hqueue, hc, Option.toList_some, Average.total_cons, Average.weight_cons, Average.total_nil, Average.weight_nil,
        add_zero, add_zero, Int.mul_ediv_cancel _ hpos.ne']
      rfl

/-- The average is near `zero_vruntime`, as all it is taken of is. -/
theorem Fits.average_bounds (hf : Fits rq) : -2 ^ 61 ≤ rq.average ∧ rq.average < 2 ^ 61 := by
  by_cases hq : rq.queue = []
  · have havg : rq.average = 0 := by simp [CfsRq.average, CfsRq.allKeys, hq]
    omega
  · obtain ⟨h0, h1⟩ := Average.floor_bounds hq hf.pos (fun r hr => (hf.key r hr).1)
      fun r hr => Int.le_sub_one_iff.2 (hf.key r hr).2
    unfold CfsRq.average CfsRq.allKeys CfsRq.allWeight
    omega

/-- A virtual runtime measured from the average. -/
theorem key_avgVruntime (h : Tallied rq) (hf : Fits rq) {v : U64} (hv : Serial.Near rq.zeroVruntime v) :
    Serial.key (avgVruntime rq).zeroVruntime v = Serial.key rq.zeroVruntime v - rq.average := by
  have he : v - (rq.zeroVruntime + avgDelta rq) = (v - rq.zeroVruntime) - avgDelta rq := (sub_sub v _ _).symm
  obtain ⟨h0, h1⟩ := hv
  obtain ⟨h2, h3⟩ := hf.average_bounds
  have hd := avgDelta_toInt h hf
  unfold Serial.key at *
  show (v - (rq.zeroVruntime + avgDelta rq)).toInt = _
  rw [he, ← hd]
  apply Serial.toInt_sub_of_fits <;> omega

/-- After `avg_vruntime` the keys are taken from the average, so their sum has lost as much for each unit of weight. -/
theorem allKeys_avgVruntime (h : Tallied rq) (hf : Fits rq) :
    (avgVruntime rq).allKeys = rq.allKeys - rq.average * rq.allWeight := by
  have hcongr : (avgVruntime rq).allKeys = Average.total rq.queue rq.weightOf fun r => rq.keyOf r - rq.average := by
    refine congrArg List.sum (List.map_congr_left fun r hr => ?_)
    show (avgVruntime rq).keyOf r * rq.weightOf r = (rq.keyOf r - rq.average) * rq.weightOf r
    rw [show (avgVruntime rq).keyOf r = rq.keyOf r - rq.average from key_avgVruntime h hf (hf.near r hr)]
  rw [hcongr, Average.total_sub]
  rfl

/-- What is left of the weighted keys, measured from the average: less than one unit. -/
theorem allKeys_avgVruntime_bounds (h : Tallied rq) (hf : Fits rq) (hq : rq.queue ≠ []) :
    0 ≤ (avgVruntime rq).allKeys ∧ (avgVruntime rq).allKeys < rq.allWeight := by
  have hpos := hf.weight_pos hq
  have he := Int.mul_ediv_add_emod rq.allKeys rq.allWeight
  have h0 := Int.emod_nonneg rq.allKeys hpos.ne'
  have h1 := Int.emod_lt_of_pos rq.allKeys hpos
  rw [allKeys_avgVruntime h hf, CfsRq.average, mul_comm]
  omega

/-- An entity is eligible when its virtual runtime is not after the average. -/
theorem vruntimeEligible_iff_average (h : Tallied rq) (hf : Fits rq) (hq : rq.queue ≠ []) (v : U64) :
    vruntimeEligible rq v = true ↔ Serial.key rq.zeroVruntime v ≤ rq.average := by
  rw [vruntimeEligible_iff h hf, CfsRq.average, Int.le_ediv_iff_mul_le (hf.weight_pos hq)]

/-- After `avg_vruntime` the words still hold the sums. -/
theorem sums_avgVruntime (h : Tallied rq) (hf : Fits rq) (hq : rq.queue ≠ []) :
    (sumsWithCurr (avgVruntime rq)).1.toInt = (avgVruntime rq).allKeys ∧
      (sumsWithCurr (avgVruntime rq)).2.toInt = rq.allWeight := by
  obtain ⟨h0, h1⟩ := allKeys_avgVruntime_bounds h hf hq
  have hw := hf.weight
  rw [sumsWithCurr_eq h.avgVruntime, totalKey_eq_ofInt, totalWeight_eq_ofInt]
  exact ⟨toInt_ofInt_of_fits (i := (avgVruntime rq).allKeys) (by omega) (by omega),
    toInt_ofInt_of_fits (i := rq.allWeight) (by omega) (by omega)⟩

/-- The call of `avg_vruntime` makes no difference to who is eligible. -/
theorem vruntimeEligible_avgVruntime (h : Tallied rq) (hf : Fits rq) (hq : rq.queue ≠ []) {v : U64}
    (hv : Serial.Near rq.zeroVruntime v) : vruntimeEligible (avgVruntime rq) v = vruntimeEligible rq v := by
  obtain ⟨hk, hw⟩ := sums_avgVruntime h hf hq
  rw [Bool.eq_iff_iff, vruntimeEligible_iff h hf]
  unfold vruntimeEligible
  rw [hk, hw, decide_eq_true_iff, allKeys_avgVruntime h hf]
  have hkey := key_avgVruntime h hf hv
  unfold Serial.key at hkey ⊢
  rw [hkey, sub_mul]
  omega

/-- The distance of an entity from the average, before it is limited: the weighted distances of the others from it, averaged. -/
theorem lag_eq (h : Tallied rq) (hf : Fits rq) (hr : r ∈ rq.queue) :
    ((avgVruntime rq).zeroVruntime - (rq.se r).vruntime).toInt =
      Average.total rq.queue rq.weightOf (fun a => rq.keyOf a - rq.keyOf r) / rq.allWeight := by
  have hkey : ((rq.se r).vruntime - (avgVruntime rq).zeroVruntime).toInt = rq.keyOf r - rq.average :=
    key_avgVruntime h hf (hf.near r hr)
  have hpos : 0 < rq.allWeight := hf.weight_pos (List.ne_nil_of_mem hr)
  obtain ⟨h0, h1⟩ := hf.average_bounds
  obtain ⟨h2, h3⟩ := hf.key r hr
  have hneg : (avgVruntime rq).zeroVruntime - (rq.se r).vruntime = -((rq.se r).vruntime - (avgVruntime rq).zeroVruntime) :=
    (neg_sub _ _).symm
  have hdiv : Average.total rq.queue rq.weightOf (fun a => rq.keyOf a - rq.keyOf r) / rq.allWeight =
      rq.average - rq.keyOf r := by
    rw [Average.total_sub]
    exact Int.sub_mul_ediv_right _ _ hpos.ne'
  rw [hdiv, hneg, Serial.toInt_neg_of_fits, hkey] <;> omega

/-! ## Placing an entity -/

/-- Running time goes to `curr` alone. -/
theorem updateCurr_se_of_ne {a : Nat} (ha : rq.curr ≠ some a) : (updateCurr cfg env rq).se a = rq.se a := by
  unfold updateCurr
  split
  · rfl
  · rename_i c hc
    have hac : a ≠ c := fun h => ha (h ▸ hc)
    split
    · rfl
    · have hdead : ∀ q : CfsRq, (updateDeadline cfg q c).1.se a = q.se a := by
        intro q
        unfold updateDeadline
        split
        · rfl
        · dsimp only
          rw [avgVruntime_se, set_of_ne hac, set_of_ne hac]
      have hclear : ∀ q : CfsRq, (clearBuddies q c).se a = q.se a := by
        intro q
        unfold clearBuddies
        split <;> rfl
      dsimp only
      split
      · rw [hdead, set_of_ne hac]
      · split
        · rw [hclear, hdead, set_of_ne hac]
        · rw [hdead, set_of_ne hac]

theorem updateCurr_sumShift (rq : CfsRq) : (updateCurr cfg env rq).sumShift = rq.sumShift := by
  unfold updateCurr updateDeadline clearBuddies
  dsimp only
  repeat' split
  all_goals rfl

/-- The distance `place_entity` takes from the average. -/
def placedLag (cfg : Config) (rq : CfsRq) (r : Nat) : U64 :=
  (placeLag cfg ((avgVruntime rq).set r fun se => { se with slice := if se.customSlice then se.slice else cfg.baseSlice })
    (((avgVruntime rq).set r fun se => { se with slice := if se.customSlice then se.slice else cfg.baseSlice }).se r)).1

/-- `place_entity` puts the entity at that distance and touches no other. -/
theorem placeEntity_spec (cfg : Config) (rq : CfsRq) (r : Nat) (initial : Bool) :
    ((placeEntity cfg rq r initial).se r).vruntime = (avgVruntime rq).zeroVruntime - placedLag cfg rq r ∧
      (∀ a, a ≠ r → (placeEntity cfg rq r initial).se a = rq.se a) ∧
      (placeEntity cfg rq r initial).sumShift = rq.sumShift := by
  unfold placeEntity placedLag
  dsimp only
  generalize hq : (avgVruntime rq).set r (fun se => { se with slice := if se.customSlice then se.slice else cfg.baseSlice }) = q
  generalize hlag : placeLag cfg q (q.se r) = lag
  generalize hp : (if lag.2 = true then
      updateZeroVruntime (q.set r fun se => { se with vruntime := (avgVruntime rq).zeroVruntime - lag.1 }) (-lag.1)
    else q.set r fun se => { se with vruntime := (avgVruntime rq).zeroVruntime - lag.1 }) = p
  have hpv : (p.se r).vruntime = (avgVruntime rq).zeroVruntime - lag.1 ∧ (∀ a, a ≠ r → p.se a = rq.se a) ∧
      p.sumShift = rq.sumShift := by
    have hse : ∀ a, a ≠ r → (q.set r fun se => { se with vruntime := (avgVruntime rq).zeroVruntime - lag.1 }).se a = rq.se a := by
      intro a ha
      rw [set_of_ne ha, ← hq, set_of_ne ha]
      rfl
    rw [← hp]
    split
    · exact ⟨by rw [updateZeroVruntime_se, set_self], hse, by rw [← hq]; rfl⟩
    · exact ⟨by rw [set_self], hse, by rw [← hq]; rfl⟩
  obtain ⟨hv, hse, hshift⟩ := hpv
  split
  · exact ⟨by rw [set_self]; exact hv, fun a ha => by rw [set_of_ne ha, hse a ha], hshift⟩
  · exact ⟨by rw [set_self]; exact hv, fun a ha => by rw [set_of_ne ha, hse a ha], hshift⟩

/-- An entity off the queue has no part in the sums. -/
theorem sumsWithCurr_set {f : SchedEntity → SchedEntity} (hr : r ∉ rq.queue) (ho : (f (rq.se r)).onRq = (rq.se r).onRq) :
    sumsWithCurr (rq.set r f) = sumsWithCurr rq := by
  have hon : (rq.set r f).on = rq.on := by
    funext a
    unfold CfsRq.on
    by_cases ha : a = r
    · subst ha
      rw [set_self, ho]
    · rw [set_of_ne ha]
  have hcurr : (rq.set r f).currOn = rq.currOn := congrArg (fun on => rq.curr.filter on) hon
  unfold sumsWithCurr
  rw [hcurr]
  cases hc : rq.currOn with
  | none => rfl
  | some c =>
    have hcr : c ≠ r := by
      rintro rfl
      exact hr (mem_queue_iff.2 (Or.inr hc))
    dsimp only
    rw [set_of_ne hcr]
    rfl

/-- The arithmetic of `place_entity`, without overflow. -/
theorem sdiv_mul_toInt {vlag load weight : U64} {W w : Int} (hload : load.toInt = W) (hweight : (weight.toNat : Int) = w)
    (hpos : 0 < W) (hW : W + w < 2 ^ 63) (hlag : |vlag.toInt| * (W + w) < 2 ^ 62) :
    ((vlag * (load + weight)).sdiv (if load = 0 then 1 else load)).toInt = (vlag.toInt * (W + w)).tdiv W := by
  have hne : load ≠ 0 := by
    rintro rfl
    simp at hload
    omega
  have hweight' : weight.toInt = w := by
    rw [BitVec.toInt_eq_toNat_of_lt (by omega), hweight]
  have hsum : (load + weight).toInt = W + w := by
    rw [Serial.toInt_add_of_fits, hload, hweight'] <;> omega
  have habs : |vlag.toInt * (W + w)| < 2 ^ 62 := by
    rw [abs_mul, abs_of_nonneg (show 0 ≤ W + w by omega)]
    exact hlag
  have hprod : (vlag * (load + weight)).toInt = vlag.toInt * (W + w) := by
    have hb := abs_lt.1 habs
    rw [BitVec.toInt_mul, hsum]
    apply Int.bmod_eq_of_le_mul_two <;> push_cast <;> omega
  rw [if_neg hne, BitVec.toInt_sdiv_of_ne_or_ne, hprod, hload]
  right
  rintro rfl
  simp at hload
  omega

/-- The distance that is taken. -/
theorem placedLag_toInt (hcfg : cfg.placeLag = true) (h : Tallied rq) (hf : Fits rq) (hq : rq.queue ≠ []) (hn : rq.nrQueued ≠ 0)
    (hr : r ∉ rq.queue) (hvlag : (rq.se r).vlag ≠ 0) (hW : rq.allWeight + rq.weightOf r < 2 ^ 63)
    (hlag : |(rq.se r).vlag.toInt| * (rq.allWeight + rq.weightOf r) < 2 ^ 62) :
    (placedLag cfg rq r).toInt = ((rq.se r).vlag.toInt * (rq.allWeight + rq.weightOf r)).tdiv rq.allWeight := by
  unfold placedLag placeLag
  rw [sumsWithCurr_set (show r ∉ (avgVruntime rq).queue from hr) rfl, set_self, if_pos ⟨hcfg, hn, hvlag⟩]
  exact sdiv_mul_toInt (sums_avgVruntime h hf hq).2 rfl (hf.weight_pos hq) hW hlag

/-- The entity `r` has been placed and put into the queue of `rq`, and nobody else has moved. -/
structure Placed (cfg : Config) (rq rq' : CfsRq) (r : Nat) : Prop where
  queue : rq'.queue.Perm (r :: rq.queue)
  shift : rq'.sumShift = rq.sumShift
  weight : ∀ a, (rq'.se a).weight = (rq.se a).weight
  vruntime : ∀ a ∈ rq.queue, (rq'.se a).vruntime = (rq.se a).vruntime
  placed : (rq'.se r).vruntime = (avgVruntime rq).zeroVruntime - placedLag cfg rq r

/-- The others' distances from the placed entity. -/
theorem Placed.key (hp : Placed cfg rq rq' r) (h : Tallied rq) (hf : Fits rq) (hf' : Fits rq') {L : Int}
    (hL : (placedLag cfg rq r).toInt = L) (hL0 : |L| < 2 ^ 62) {a : Nat} (ha : a ∈ rq.queue) :
    rq'.keyOf a - rq'.keyOf r = (rq.keyOf a - rq.average) + L := by
  have ha' : a ∈ rq'.queue := hp.queue.mem_iff.2 (List.mem_cons_of_mem r ha)
  have hr' : r ∈ rq'.queue := hp.queue.mem_iff.2 List.mem_cons_self
  have hkey := Serial.key_eq_sub (hf'.near a ha') (hf'.near r hr')
  have hbv : (rq'.se a).vruntime - (rq'.se r).vruntime =
      ((rq.se a).vruntime - (avgVruntime rq).zeroVruntime) + placedLag cfg rq r := by
    rw [hp.vruntime a ha, hp.placed]
    exact (sub_add _ _ _).symm
  have havg : ((rq.se a).vruntime - (avgVruntime rq).zeroVruntime).toInt = rq.keyOf a - rq.average :=
    key_avgVruntime h hf (hf.near a ha)
  obtain ⟨h0, h1⟩ := hf.average_bounds
  obtain ⟨h2, h3⟩ := hf.key a ha
  obtain ⟨h4, h5⟩ := abs_lt.1 hL0
  unfold CfsRq.keyOf at *
  rw [← hkey]
  unfold Serial.key at *
  rw [hbv, Serial.toInt_add_of_fits, havg, hL] <;> rw [havg, hL] <;> omega

/-- Placing an entity changes no weight. -/
theorem Placed.weightOf (hp : Placed cfg rq rq' r) (a : Nat) : rq'.weightOf a = rq.weightOf a := by
  unfold CfsRq.weightOf
  rw [hp.shift, hp.weight a]

/-- The placed entity adds its weight. -/
theorem Placed.allWeight (hp : Placed cfg rq rq' r) : rq'.allWeight = rq.allWeight + rq.weightOf r := by
  unfold CfsRq.allWeight Average.weight
  rw [(hp.queue.map _).sum_eq, List.map_cons, List.sum_cons, hp.weightOf r, List.map_congr_left fun a _ => hp.weightOf a,
    add_comm]

/-- The entity's distance from the new average. -/
theorem Placed.lag (hp : Placed cfg rq rq' r) (h : Tallied rq) (h' : Tallied rq') (hf : Fits rq) (hf' : Fits rq') {L : Int}
    (hL : (placedLag cfg rq r).toInt = L) (hL0 : |L| < 2 ^ 62) :
    ((avgVruntime rq').zeroVruntime - (rq'.se r).vruntime).toInt =
      ((avgVruntime rq).allKeys + L * rq.allWeight) / (rq.allWeight + rq.weightOf r) := by
  have hr' : r ∈ rq'.queue := hp.queue.mem_iff.2 List.mem_cons_self
  have htotal : Average.total rq'.queue rq'.weightOf (fun a => rq'.keyOf a - rq'.keyOf r) =
      Average.total rq.queue rq.weightOf fun a => rq.keyOf a - (rq.average - L) := by
    unfold Average.total
    rw [(hp.queue.map _).sum_eq, List.map_cons, List.sum_cons]
    dsimp only
    rw [sub_self, zero_mul, zero_add]
    refine congrArg List.sum (List.map_congr_left fun a ha => ?_)
    rw [hp.key h hf hf' hL hL0 ha, hp.weightOf a]
    ring
  rw [lag_eq h' hf' hr', htotal, hp.allWeight, Average.total_sub, allKeys_avgVruntime h hf]
  congr 1
  show rq.allKeys - (rq.average - L) * rq.allWeight = _
  ring

/-- `enqueue_entity` places the entity after it has accounted `curr`. -/
theorem enqueueEntity_placed {initial : Bool} (h : Books rq) (hr : (rq.se r).onRq = false) (hc : rq.curr ≠ some r)
    (he : enqueueEntity cfg env rq r initial = some rq') (hshift : rq'.sumShift = rq.sumShift) :
    Placed cfg (updateCurr cfg env rq) rq' r := by
  have hk : Keeps rq (updateCurr cfg env rq) := h.updateCurr
  have hbooks : Books (updateCurr cfg env rq) := h.keeps hk
  have hrq : ((updateCurr cfg env rq).se r).onRq = false := (hk.onRq r).trans hr
  have hshiftq : (updateCurr cfg env rq).sumShift = rq.sumShift := updateCurr_sumShift rq
  unfold enqueueEntity at he
  dsimp only at he
  rw [if_neg hc, if_neg hc, if_neg hc] at he
  generalize updateCurr cfg env rq = q at he hk hbooks hrq hshiftq
  have hnot : r ∉ q.queue := fun hm => Bool.false_ne_true (hrq.symm.trans (hbooks.mem_queue.1 hm))
  have hnotree : r ∉ q.tasksTimeline.inorder := fun hm => hnot (mem_queue_of_tree hm)
  have hplace : Keeps q (placeEntity cfg q r initial) := Keeps.placeEntity cfg initial hnotree
  obtain ⟨hv, hothers, -⟩ := placeEntity_spec cfg q r initial
  generalize placeEntity cfg q r initial = q₁ at he hplace hv hothers
  obtain ⟨p, hp, rfl⟩ := Option.map_eq_some_iff.1 he
  have ht₁ : Tallied { q₁ with load := q₁.load + (q₁.se r).weight, nrQueued := q₁.nrQueued + 1 } :=
    (hplace.tally hbooks.tallied).counts _ _
  obtain ⟨-, hrel, htree⟩ := enqueueNode_spec ht₁ (hplace.tree ▸ hnotree) hp
  have hse : ∀ a, (p.set r fun se => { se with onRq := true }).se a =
      { q₁.se a with
        minVruntime := (p.se a).minVruntime
        onRq := ((p.set r fun se => { se with onRq := true }).se a).onRq } := by
    intro a
    by_cases ha : a = r
    · subst ha
      rw [set_self, hrel.se a]
    · rw [set_of_ne ha, hrel.se a]
  refine ⟨?_, hshift.trans hshiftq.symm, fun a => ?_, fun a ha => ?_, ?_⟩
  · have hcq : q.curr ≠ some r := hk.curr ▸ hc
    have hj : Joins q (p.set r fun se => { se with onRq := true }) r := by
      refine ⟨hrel.curr.trans hplace.curr, fun h => absurd h hcq, fun _ => ?_, fun a _ => by rw [hse a, hplace.weight a]⟩
      show p.tasksTimeline.inorder.Perm _
      rw [htree, ← hplace.tree]
      exact SearchTree.add_perm _ _ _
    have hon : (p.set r fun se => { se with onRq := true }).on = Function.update q.on r true := by
      rw [set_onRq_on, hrel.same.on]
      exact congrArg (Function.update · r true) hplace.toSame.on
    have hoff : Function.update q.on r false = q.on := by
      rw [← hrq]
      exact Function.update_eq_self r q.on
    have hperm := hj.queue q.on
    rwa [hoff, ← hon] at hperm
  · rw [hse a]
    exact hplace.weight a
  · rw [hse a, ← hothers a (ne_of_mem_of_not_mem ha hnot)]
  · rw [hse r]
    exact hv

/-! ## Changing a weight -/

/-- What `reweight_entity` computes for the entity itself, from the average on. -/
def reweighted (cfg : Config) (env : Env) (q : CfsRq) (r : Nat) (weight : U64) : U64 :=
  (entityLag cfg env (q.se r) q.zeroVruntime * (q.se r).weight).sdiv weight

/-- The entity `r` has got the weight and a virtual runtime around the average `q` has, and nobody else has moved. -/
structure Reweighted (cfg : Config) (env : Env) (q rq' : CfsRq) (r : Nat) (w : U64) : Prop where
  queue : rq'.queue.Perm q.queue
  zero : rq'.zeroVruntime = q.zeroVruntime
  others : ∀ a, a ≠ r → (rq'.se a).vruntime = (q.se a).vruntime ∧ (rq'.se a).weight = (q.se a).weight
  weight : (rq'.se r).weight = w
  vruntime : (rq'.se r).vruntime = q.zeroVruntime - reweighted cfg env q r w

/-- What `putBack` leaves as it is. -/
theorem putBack_spec {q : CfsRq} (ht : Tallied q) (hr : r ∉ q.tasksTimeline.inorder) (he : putBack cfg env q r = some rq') :
    Joins q rq' r ∧ rq'.zeroVruntime = q.zeroVruntime ∧
      ∀ a, rq'.se a = { q.se a with minVruntime := (rq'.se a).minVruntime } := by
  obtain ⟨p, hjoin, rfl⟩ := Option.map_eq_some_iff.1 he
  obtain ⟨-, hrel, hj, -⟩ := join_spec ht hr hjoin
  exact ⟨⟨hj.curr, hj.same, hj.node, hj.weight⟩, hrel.zero, hrel.se⟩

/-- What `reweight_entity` does to an entity on the queue, after `update_curr` and `avg_vruntime`. -/
theorem reweightEntity_reweighted {weight : U64} (h : Books rq) (hr : (rq.se r).onRq = true)
    (he : reweightEntity cfg env rq r weight = some rq') :
    Reweighted cfg env (avgVruntime (updateCurr cfg env rq)) rq' r weight := by
  have hk : Keeps rq (avgVruntime (updateCurr cfg env rq)) := h.updateCurr.trans (Keeps.avgVruntime _)
  unfold reweightEntity at he
  rw [if_pos hr] at he
  dsimp only at he
  generalize avgVruntime (updateCurr cfg env rq) = q at he hk
  generalize (decide (q.curr = some r ∧ protectSlice (q.se r) = true)) = relVprot at he
  have hbut : KeepsBut r rq (q.set r (relativeTo cfg env q.zeroVruntime relVprot)) := hk.but_set rfl rfl rfl rfl
  obtain ⟨ht₁, hrel₁, hj₁, -, hnot₁⟩ := takeOut_spec env h hr hbut
  generalize takeOut env (q.set r (relativeTo cfg env q.zeroVruntime relVprot)) r = q₁ at he ht₁ hrel₁ hj₁ hnot₁
  have hse₁ : ∀ a, a ≠ r → q₁.se a = { q.se a with minVruntime := (q₁.se a).minVruntime } := by
    intro a ha
    rw [hrel₁.se a, set_of_ne ha]
  have hself₁ : q₁.se r =
      { relativeTo cfg env q.zeroVruntime relVprot (q.se r) with minVruntime := (q₁.se r).minVruntime } := by
    rw [hrel₁.se r, set_self]
  -- the entity as it is put back
  have hscaled : Tallied (CfsRq.set { q₁ with load := q₁.load - (q₁.se r).weight } r fun se =>
      { rescaleEntity weight relVprot se with weight := weight }) :=
    ((ht₁.counts q₁.nrQueued _).set fun hm => absurd hm hnot₁)
  have hput := hscaled.set (f := placedAt q.zeroVruntime relVprot) fun hm => absurd hm hnot₁
  obtain ⟨hj, hzero, hse⟩ := putBack_spec (hput.counts _ _) hnot₁ he
  have hothers : ∀ a, a ≠ r → rq'.se a = { q.se a with minVruntime := (rq'.se a).minVruntime } := by
    intro a ha
    rw [hse a]
    dsimp only
    rw [set_of_ne ha, set_of_ne ha, hse₁ a ha]
  have hself : rq'.se r = { placedAt q.zeroVruntime relVprot { rescaleEntity weight relVprot (q₁.se r) with weight := weight } with
      minVruntime := (rq'.se r).minVruntime } := by
    rw [hse r]
    dsimp only
    rw [set_self, set_self]
  have hon : rq'.on = q.on := by
    funext a
    unfold CfsRq.on
    by_cases ha : a = r
    · subst ha
      rw [hself, hself₁]
      rfl
    · rw [hothers a ha]
  have honr : Function.update q.on r true = q.on := by
    rw [← show q.on r = true from (hk.onRq r).trans hr]
    exact Function.update_eq_self r q.on
  refine ⟨?_, hzero.trans hrel₁.zero, fun a ha => ⟨by rw [hothers a ha], by rw [hothers a ha]⟩, ?_, ?_⟩
  · have hin := hj.queue q.on
    have hout := hj₁.queue q.on
    rw [honr] at hin hout
    unfold CfsRq.queue
    rw [hon]
    exact hin.trans hout.symm
  · rw [hself]
    rfl
  · rw [hself, hself₁]
    rfl

/-- The entity's new distance from the average: the old one scaled by the weights, rounded to zero. -/
theorem Reweighted.keyOf {q : CfsRq} {w : U64} (hx : Reweighted cfg env q rq' r w) (hw : 0 < w.toInt)
    (hlag : entityLag cfg env (q.se r) q.zeroVruntime = q.zeroVruntime - (q.se r).vruntime)
    (hkey : |q.keyOf r| < 2 ^ 62) (hfit : |q.keyOf r * (q.se r).weight.toInt| < 2 ^ 62) :
    rq'.keyOf r = (q.keyOf r * (q.se r).weight.toInt).tdiv w.toInt := by
  have hk := abs_lt.1 hkey
  have hb := abs_lt.1 hfit
  have hneg : (q.zeroVruntime - (q.se r).vruntime).toInt = -q.keyOf r := by
    rw [← neg_sub (q.se r).vruntime, Serial.toInt_neg_of_fits]
    · rfl
    · show -2 ^ 64 < 2 * q.keyOf r
      omega
  have hmul : (entityLag cfg env (q.se r) q.zeroVruntime * (q.se r).weight).toInt = -(q.keyOf r * (q.se r).weight.toInt) := by
    rw [hlag, BitVec.toInt_mul, hneg, neg_mul]
    apply Int.bmod_eq_of_le_mul_two <;> push_cast <;> omega
  have hdiv : (reweighted cfg env q r w).toInt = -(q.keyOf r * (q.se r).weight.toInt).tdiv w.toInt := by
    unfold reweighted
    rw [BitVec.toInt_sdiv_of_ne_or_ne, hmul, Int.neg_tdiv]
    right
    rintro rfl
    simp at hw
  have hle : |(q.keyOf r * (q.se r).weight.toInt).tdiv w.toInt| < 2 ^ 62 := by
    refine lt_of_le_of_lt ?_ hfit
    rw [Int.abs_eq_natAbs, Int.abs_eq_natAbs]
    exact_mod_cast Int.natAbs_tdiv_le_natAbs _ _
  have hle' := abs_lt.1 hle
  have hbv : (rq'.se r).vruntime - rq'.zeroVruntime = -reweighted cfg env q r w := by
    rw [hx.vruntime, hx.zero]
    exact sub_sub_cancel_left _ _
  show ((rq'.se r).vruntime - rq'.zeroVruntime).toInt = _
  rw [hbv, Serial.toInt_neg_of_fits, hdiv, neg_neg]
  omega

/-- An entity competes once: `curr` is not in the tree. -/
theorem Books.queue_nodup (h : Books rq) : rq.queue.Nodup := by
  have hcurr : (rq.curr.filter rq.on).toList.Nodup := by
    cases rq.curr.filter rq.on <;> simp
  refine List.Nodup.append h.tallied.nodup hcurr ?_
  intro a ha hc
  rw [Option.mem_toList, Option.filter_eq_some_iff] at hc
  exact h.not_curr_mem a hc.1 ha

/-- Without a shift the weight is the one the entity has. -/
theorem weightOf_zero {w : U64} (hw : 0 ≤ w.toInt) : ((weightOf 0 w).toNat : Int) = w.toInt := by
  have hlt : 2 * w.toNat < 2 ^ 64 := by
    rw [BitVec.toInt_eq_toNat_cond] at hw
    split at hw <;> omega
  rw [BitVec.toInt_eq_toNat_of_lt hlt]
  rfl

/-- All weighted keys change by what is rounded off. -/
theorem Reweighted.allKeys {q : CfsRq} {w : U64} (hx : Reweighted cfg env q rq' r w) (hn : q.queue.Nodup) (hr : r ∈ q.queue)
    (hshift : rq'.sumShift = q.sumShift) :
    rq'.allKeys - q.allKeys = rq'.keyOf r * rq'.weightOf r - q.keyOf r * q.weightOf r := by
  have hperm := List.perm_cons_erase hr
  have hrest : ∀ a ∈ q.queue.erase r, rq'.keyOf a * rq'.weightOf a = q.keyOf a * q.weightOf a := by
    intro a ha
    have har : a ≠ r := by
      rintro rfl
      exact hn.not_mem_erase ha
    unfold CfsRq.keyOf CfsRq.weightOf
    rw [hx.zero, hshift, (hx.others a har).1, (hx.others a har).2]
  have hnew : rq'.allKeys = rq'.keyOf r * rq'.weightOf r +
      Average.total (q.queue.erase r) rq'.weightOf rq'.keyOf := by
    unfold CfsRq.allKeys
    rw [← Average.total_cons]
    exact ((hx.queue.trans hperm).map _).sum_eq
  have hold : q.allKeys = q.keyOf r * q.weightOf r + Average.total (q.queue.erase r) q.weightOf q.keyOf := by
    unfold CfsRq.allKeys
    rw [← Average.total_cons]
    exact (hperm.map _).sum_eq
  have heq : Average.total (q.queue.erase r) rq'.weightOf rq'.keyOf = Average.total (q.queue.erase r) q.weightOf q.keyOf :=
    congrArg List.sum (List.map_congr_left hrest)
  rw [hnew, hold, heq]
  ring

end OsLab.Fair
