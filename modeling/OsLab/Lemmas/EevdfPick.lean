import OsLab.Lemmas.EevdfSteps
import OsLab.Lib.Average

/-!
# Averages, eligibility and the order of the tree

As long as the sums fit a word, the words are the integer sums over the queue, `vruntime_eligible` compares with their average, and
the smallest virtual runtime below a node says whether somebody below is eligible. The tree is in the order of the deadlines as
long as those are close together whenever an entity is put into it.
-/

namespace OsLab.Fair

/-- The entities that compete. -/
def CfsRq.queue (rq : CfsRq) : List Nat := queueOf rq.on rq

/-- The scaled weight of an entity, as a number. -/
def CfsRq.weightOf (rq : CfsRq) (r : Nat) : Int := (Fair.weightOf rq.sumShift (rq.se r).weight).toNat

/-- Its virtual runtime from `zero_vruntime` on. -/
def CfsRq.keyOf (rq : CfsRq) (r : Nat) : Int := Serial.key rq.zeroVruntime (rq.se r).vruntime

/-- All weights of the queue together. -/
def CfsRq.allWeight (rq : CfsRq) : Int := Average.weight rq.queue rq.weightOf

/-- All weighted keys of the queue together. -/
def CfsRq.allKeys (rq : CfsRq) : Int := Average.total rq.queue rq.weightOf rq.keyOf

/-- The virtual runtimes are near `zero_vruntime`, and their sums fit a word. -/
structure Fits (rq : CfsRq) : Prop where
  key : ∀ r ∈ rq.queue, -2 ^ 61 ≤ rq.keyOf r ∧ rq.keyOf r < 2 ^ 61
  pos : ∀ r ∈ rq.queue, 0 < rq.weightOf r
  weight : rq.allWeight < 2 ^ 63
  low : -2 ^ 63 ≤ rq.allKeys - rq.allWeight
  high : rq.allKeys < 2 ^ 63

/-- The deadlines on the queue are near some point. -/
def Compact (rq : CfsRq) : Prop := ∃ z, ∀ r ∈ rq.queue, Serial.Near z (rq.se r).deadline

/-- No node has an earlier deadline than one before it. -/
def Sorted (rq : CfsRq) : Prop := rq.tasksTimeline.inorder.Pairwise fun a b => ¬entityBefore (rq.se b) (rq.se a)

variable {cfg : Config} {rq rq' : CfsRq} {se : Nat → SchedEntity} {t : SearchTree Nat} {z : U64} {r : Nat}

/-- Virtual runtimes on the queue are close enough to `zero_vruntime` to be compared with it. -/
theorem Fits.near (hf : Fits rq) (r : Nat) (hr : r ∈ rq.queue) : Serial.Near rq.zeroVruntime (rq.se r).vruntime := by
  have hkey := hf.key r hr
  unfold CfsRq.keyOf at hkey
  unfold Serial.Near
  omega

/-- Who competes is who has `on_rq` set. -/
theorem Books.mem_queue (h : Books rq) : r ∈ rq.queue ↔ (rq.se r).onRq = true := mem_queueOf h.toBooksOf

theorem mem_queue_of_tree (h : r ∈ rq.tasksTimeline.inorder) : r ∈ rq.queue := List.mem_append_left _ h

/-! ## The sums as integers -/

theorem toInt_ofInt_of_fits {i : Int} (h0 : -2 ^ 63 ≤ i) (h1 : i < 2 ^ 63) : (BitVec.ofInt 64 i).toInt = i := by
  rw [BitVec.toInt_ofInt]
  apply Int.bmod_eq_of_le_mul_two <;> push_cast <;> omega

/-- The sum in words is the sum of the integers, cut to a word. -/
theorem totalWeight_eq_ofInt (shift : Nat) (l : List Nat) :
    totalWeight se shift l = BitVec.ofInt 64 (Average.weight l fun r => (weightOf shift (se r).weight).toNat) := by
  induction l with
  | nil => rfl
  | cons r l ih => rw [totalWeight_cons, Average.weight_cons, BitVec.ofInt_add, ih, BitVec.ofInt_natCast, BitVec.ofNat_toNat,
      BitVec.setWidth_eq]

/-- The same for the keys. -/
theorem totalKey_eq_ofInt (zero : U64) (shift : Nat) (l : List Nat) :
    totalKey se zero shift l = BitVec.ofInt 64
      (Average.total l (fun r => (weightOf shift (se r).weight).toNat) fun r => Serial.key zero (se r).vruntime) := by
  induction l with
  | nil => rfl
  | cons r l ih =>
    rw [totalKey_cons, Average.total_cons, BitVec.ofInt_add, BitVec.ofInt_mul, ih, BitVec.ofInt_natCast, BitVec.ofNat_toNat,
      BitVec.setWidth_eq, Serial.key, BitVec.ofInt_toInt]

/-- The sums that `avg_vruntime` and `vruntime_eligible` compute are those over the queue. -/
theorem sumsWithCurr_eq (h : Tallied rq) :
    sumsWithCurr rq = (totalKey rq.se rq.zeroVruntime rq.sumShift rq.queue, totalWeight rq.se rq.sumShift rq.queue) := by
  have hqueue : rq.queue = rq.tasksTimeline.inorder ++ rq.currOn.toList := rfl
  unfold sumsWithCurr
  rw [hqueue]
  cases hc : rq.currOn with
  | none => rw [Option.toList_none, List.append_nil, h.weight, h.key]
  | some c =>
    have hperm : (rq.tasksTimeline.inorder ++ [c]).Perm (c :: rq.tasksTimeline.inorder) := List.perm_append_singleton _ _
    rw [Option.toList_some, totalKey_perm hperm, totalWeight_perm hperm, totalKey_cons, totalWeight_cons, ← h.weight, ← h.key]
    dsimp only
    rw [add_comm rq.sumWVruntime, add_comm rq.sumWeight]
    rfl

/-- As long as they fit, the words hold the sums over the queue, `curr` included. -/
theorem sums_toInt (h : Tallied rq) (hf : Fits rq) :
    (sumsWithCurr rq).1.toInt = rq.allKeys ∧ (sumsWithCurr rq).2.toInt = rq.allWeight := by
  have hnonneg : 0 ≤ rq.allWeight := Average.weight_nonneg hf.pos
  have hlow := hf.low
  have hw := hf.weight
  rw [sumsWithCurr_eq h, totalKey_eq_ofInt, totalWeight_eq_ofInt]
  exact ⟨toInt_ofInt_of_fits (i := rq.allKeys) (by omega) hf.high, toInt_ofInt_of_fits (i := rq.allWeight) (by omega) hw⟩

/-- A virtual runtime is eligible when it is not above the average. -/
theorem vruntimeEligible_iff (h : Tallied rq) (hf : Fits rq) (v : U64) :
    vruntimeEligible rq v = true ↔ Serial.key rq.zeroVruntime v * rq.allWeight ≤ rq.allKeys := by
  obtain ⟨hk, hw⟩ := sums_toInt h hf
  unfold vruntimeEligible Serial.key
  rw [hk, hw, decide_eq_true_iff]

/-- Somebody on the queue is eligible. -/
theorem exists_eligible (h : Tallied rq) (hf : Fits rq) (hq : rq.queue ≠ []) : ∃ r ∈ rq.queue, entityEligible rq r = true := by
  obtain ⟨r, hr, hle⟩ := Average.exists_le (k := rq.keyOf) hq hf.pos
  exact ⟨r, hr, (vruntimeEligible_iff h hf _).2 hle⟩

/-! ## The heap -/

/-- What `lowerTo` leaves is one of the two, and not after either. -/
theorem lowerTo_spec {m : U64} {o : Option Nat} (hm : Serial.Near z m)
    (ho : ∀ r, o = some r → Serial.Near z (se r).minVruntime) :
    (lowerTo se m o = m ∨ ∃ r, o = some r ∧ lowerTo se m o = (se r).minVruntime) ∧
      Serial.key z (lowerTo se m o) ≤ Serial.key z m ∧
      ∀ r, o = some r → Serial.key z (lowerTo se m o) ≤ Serial.key z (se r).minVruntime := by
  cases o with
  | none => exact ⟨Or.inl rfl, le_refl _, fun r h => (Option.some_ne_none r h.symm).elim⟩
  | some r =>
    have hkey := Serial.key_eq_sub hm (ho r rfl)
    by_cases hlt : 0 < Serial.key (se r).minVruntime m
    · have he : lowerTo se m (some r) = (se r).minVruntime := if_pos hlt
      rw [he]
      refine ⟨Or.inr ⟨r, rfl, rfl⟩, by omega, ?_⟩
      rintro _ ⟨⟩
      exact le_refl _
    · have he : lowerTo se m (some r) = m := if_neg hlt
      rw [he]
      refine ⟨Or.inl rfl, le_refl _, ?_⟩
      rintro _ ⟨⟩
      omega

/-- A node has the smallest virtual runtime of its subtree. -/
theorem heaped_min (h : Heaped se t) (hn : ∀ a ∈ t.inorder, Serial.Near z (se a).vruntime) (hr : t.root = some r) :
    (∃ b ∈ t.inorder, (se r).minVruntime = (se b).vruntime) ∧
      ∀ c ∈ t.inorder, Serial.key z (se r).minVruntime ≤ Serial.key z (se c).vruntime := by
  induction t generalizing r with
  | nil => cases hr
  | node left a right ihl ihr =>
    obtain rfl : a = r := Option.some.inj hr
    obtain ⟨hl, hr, ha⟩ := h
    simp only [SearchTree.inorder_node, List.mem_append, List.mem_cons] at hn ⊢
    have hleft := fun b (hb : left.root = some b) => ihl hl (fun c hc => hn c (Or.inl hc)) hb
    have hright := fun b (hb : right.root = some b) => ihr hr (fun c hc => hn c (Or.inr (Or.inr hc))) hb
    have hnear : Serial.Near z (se a).vruntime := hn a (Or.inr (Or.inl rfl))
    have hnearl : ∀ b, left.root = some b → Serial.Near z (se b).minVruntime := by
      intro b hb
      obtain ⟨⟨c, hc, he⟩, _⟩ := hleft b hb
      exact he ▸ hn c (Or.inl hc)
    have hnearr : ∀ b, right.root = some b → Serial.Near z (se b).minVruntime := by
      intro b hb
      obtain ⟨⟨c, hc, he⟩, _⟩ := hright b hb
      exact he ▸ hn c (Or.inr (Or.inr hc))
    -- first the right child is taken into account, then the left one
    obtain ⟨hfrom, hself, hrest⟩ := lowerTo_spec hnear hnearr
    have hnearm : Serial.Near z (lowerTo se (se a).vruntime right.root) := by
      rcases hfrom with he | ⟨b, hb, he⟩
      · rwa [he]
      · rw [he]
        exact hnearr b hb
    obtain ⟨hfrom', hself', hrest'⟩ := lowerTo_spec hnearm hnearl
    unfold minVruntimeUpdate at ha
    rw [ha]
    refine ⟨?_, fun c hc => ?_⟩
    · rcases hfrom' with he' | ⟨b, hb, he'⟩
      · rcases hfrom with he | ⟨b, hb, he⟩
        · exact ⟨a, Or.inr (Or.inl rfl), he'.trans he⟩
        · obtain ⟨⟨c, hc, hec⟩, _⟩ := hright b hb
          exact ⟨c, Or.inr (Or.inr hc), (he'.trans he).trans hec⟩
      · obtain ⟨⟨c, hc, hec⟩, _⟩ := hleft b hb
        exact ⟨c, Or.inl hc, he'.trans hec⟩
    · rcases hc with hc | rfl | hc
      · obtain ⟨b, hb⟩ := SearchTree.root_of_mem hc
        exact (hrest' b hb).trans ((hleft b hb).2 c hc)
      · exact hself'.trans hself
      · obtain ⟨b, hb⟩ := SearchTree.root_of_mem hc
        exact hself'.trans ((hrest b hb).trans ((hright b hb).2 c hc))

/-- The smallest virtual runtime below a node is eligible when one of those below is. -/
theorem guided_of_heaped (h : Tallied rq) (hf : Fits rq) (hheap : Heaped rq.se t)
    (ht : ∀ a ∈ t.inorder, a ∈ rq.queue) :
    SearchTree.Guided (fun r => vruntimeEligible rq (rq.se r).minVruntime) (entityEligible rq) t := by
  induction t with
  | nil => trivial
  | node left a right ihl ihr =>
    have hleft : ∀ b ∈ left.inorder, b ∈ rq.queue := fun b hb => ht b (by simp [hb])
    have hright : ∀ b ∈ right.inorder, b ∈ rq.queue := fun b hb => ht b (by simp [hb])
    refine ⟨ihl hheap.1 hleft, ihr hheap.2.1 hright, ?_⟩
    obtain ⟨⟨b, hb, he⟩, hmin⟩ := heaped_min hheap (fun c hc => hf.near c (ht c hc)) rfl
    constructor
    · exact fun hel => ⟨b, hb, by rwa [entityEligible, ← he]⟩
    · rintro ⟨c, hc, hel⟩
      rw [entityEligible, vruntimeEligible_iff h hf] at hel
      rw [vruntimeEligible_iff h hf]
      exact (mul_le_mul_of_nonneg_right (hmin c hc) (Average.weight_nonneg hf.pos)).trans hel

/-! ## The order -/

/-- `entity_before` compares the deadlines, as long as both are near one point. -/
theorem entityBefore_iff {a b : SchedEntity} (ha : Serial.Near z a.deadline) (hb : Serial.Near z b.deadline) :
    entityBefore a b ↔ Serial.key z a.deadline < Serial.key z b.deadline := Serial.before_iff ha hb

/-- An entity that is put in by its deadline leaves the tree in order. -/
theorem Resorted.sorted (h : Resorted rq rq') (hs : Sorted rq) (hc : Compact rq') : Sorted rq' := by
  obtain ⟨t, hsub, hd, htree⟩ := h
  obtain ⟨z, hz⟩ := hc
  have ht : t.inorder.Pairwise fun a b => ¬entityBefore (rq'.se b) (rq'.se a) := by
    refine (hs.sublist hsub).imp_of_mem fun {a b} ha hb hab => ?_
    unfold entityBefore at hab ⊢
    rwa [hd a ha, hd b hb]
  unfold Sorted
  rcases htree with htree | ⟨r, -, htree⟩
  · rwa [htree]
  · have hmem : ∀ a, a = r ∨ a ∈ t.inorder → Serial.Near z (rq'.se a).deadline := by
      intro a ha
      refine hz a (mem_queue_of_tree ?_)
      rw [htree, (SearchTree.add_perm _ _ _).mem_iff]
      exact List.mem_cons.2 ha
    have hr := hmem r (Or.inl rfl)
    rw [htree]
    apply SearchTree.add_pairwise
    · intro a ha hra
      have hna := hmem a (Or.inr ha)
      rw [entityBefore_iff hr hna] at hra
      rw [entityBefore_iff hna hr]
      omega
    · exact fun a _ hra => hra
    · intro a ha b hb hab hra
      have hna := hmem a (Or.inr ha)
      have hnb := hmem b (Or.inr hb)
      rw [entityBefore_iff hr hna] at hra
      rw [entityBefore_iff hnb hna] at hab
      rw [entityBefore_iff hr hnb]
      omega
    · exact ht

/-! ## The pick -/

/-- In a list in order, the first with a property is before all others with it. -/
theorem find?_first {α : Type*} {R : α → α → Prop} {p : α → Bool} {l : List α} {b : α} (hl : l.Pairwise R)
    (h : l.find? p = some b) : p b = true ∧ b ∈ l ∧ ∀ c ∈ l, p c = true → c = b ∨ R b c := by
  obtain ⟨hp, as, bs, rfl, has⟩ := List.find?_eq_some_iff_append.1 h
  refine ⟨hp, by simp, fun c hc hpc => ?_⟩
  rcases List.mem_append.1 hc with hc | hc
  · have hnot := has c hc
    rw [hpc] at hnot
    exact absurd hnot Bool.false_ne_true
  · rcases List.mem_cons.1 hc with rfl | hc
    · exact Or.inl rfl
    · exact Or.inr ((List.pairwise_cons.1 (List.pairwise_append.1 hl).2.1).1 c hc)

/-- Of the tree, `pick_eevdf` takes the first eligible entity. -/
theorem bestInTree_eq (h : Tallied rq) (hf : Fits rq) : bestInTree rq = rq.tasksTimeline.inorder.find? (entityEligible rq) := by
  have hsearch := SearchTree.search_eq_find? (guided_of_heaped h hf h.heap fun a ha => mem_queue_of_tree ha)
  unfold bestInTree
  rw [hsearch, SearchTree.first_eq_head?]
  cases rq.tasksTimeline.inorder with
  | nil => rfl
  | cons a l =>
    rw [List.head?_cons, Option.filter_some, List.find?_cons]
    cases entityEligible rq a <;> rfl

theorem not_entityBefore_self (a : SchedEntity) : ¬entityBefore a a := by
  unfold entityBefore Serial.key
  rw [sub_self]
  exact lt_irrefl _

/-- The first eligible entity of the tree is the earliest one there. -/
theorem find?_earliest {b : Nat} (hs : Sorted rq) (hb : rq.tasksTimeline.inorder.find? (entityEligible rq) = some b) :
    b ∈ rq.tasksTimeline.inorder ∧ entityEligible rq b = true ∧
      ∀ a ∈ rq.tasksTimeline.inorder, entityEligible rq a = true → ¬entityBefore (rq.se a) (rq.se b) := by
  obtain ⟨hel, hmem, hfirst⟩ := find?_first hs hb
  refine ⟨hmem, hel, fun a ha hela => ?_⟩
  rcases hfirst a ha hela with rfl | hab
  · exact not_entityBefore_self _
  · exact hab

theorem mem_queue_iff : r ∈ rq.queue ↔ r ∈ rq.tasksTimeline.inorder ∨ rq.currOn = some r := by
  show r ∈ rq.tasksTimeline.inorder ++ rq.currOn.toList ↔ _
  rw [List.mem_append, Option.mem_toList]

/-- The end of `pick_eevdf`: the earlier one of the best in the tree and `curr`, if that is eligible. -/
theorem earliest_spec (h : Tallied rq) (hs : Sorted rq) (hc : Compact rq) (hf : Fits rq) (hq : rq.queue ≠ []) :
    ∃ r, earlierOf rq (bestInTree rq) (rq.currOn.filter (entityEligible rq)) = some r ∧ r ∈ rq.queue ∧
      entityEligible rq r = true ∧ ∀ a ∈ rq.queue, entityEligible rq a = true → ¬entityBefore (rq.se a) (rq.se r) := by
  rw [bestInTree_eq h hf]
  cases hb : rq.tasksTimeline.inorder.find? (entityEligible rq) with
  | none =>
    -- the eligible entity there is can only be `curr`
    have htree : ∀ a ∈ rq.tasksTimeline.inorder, entityEligible rq a = true → False :=
      fun a ha hel => List.find?_eq_none.1 hb a ha hel
    obtain ⟨c, hcq, hel⟩ := exists_eligible h hf hq
    have hcurr : rq.currOn = some c := (mem_queue_iff.1 hcq).resolve_left fun hm => htree c hm hel
    refine ⟨c, by simp [earlierOf, hcurr, hel], hcq, hel, fun a ha hela => ?_⟩
    rcases mem_queue_iff.1 ha with hm | hm
    · exact (htree a hm hela).elim
    · obtain rfl : c = a := Option.some.inj (hcurr.symm.trans hm)
      exact not_entityBefore_self _
  | some b =>
    obtain ⟨hmem, hel, hfirst⟩ := find?_earliest hs hb
    have hbq : b ∈ rq.queue := mem_queue_of_tree hmem
    cases hcurr : rq.currOn.filter (entityEligible rq) with
    | none =>
      refine ⟨b, rfl, hbq, hel, fun a ha hela => ?_⟩
      rcases mem_queue_iff.1 ha with hm | hm
      · exact hfirst a hm hela
      · simp [hm, hela] at hcurr
    | some c =>
      obtain ⟨hc', helc⟩ := Option.filter_eq_some_iff.1 hcurr
      have hcq : c ∈ rq.queue := mem_queue_iff.2 (Or.inr hc')
      obtain ⟨z, hz⟩ := hc
      have hiff := entityBefore_iff (hz c hcq) (hz b hbq)
      by_cases hcb : entityBefore (rq.se c) (rq.se b)
      · refine ⟨c, if_pos hcb, hcq, helc, fun a ha hela => ?_⟩
        rcases mem_queue_iff.1 ha with hm | hm
        · have hab := hfirst a hm hela
          rw [entityBefore_iff (hz a ha) (hz b hbq)] at hab
          rw [entityBefore_iff (hz a ha) (hz c hcq)]
          rw [hiff] at hcb
          omega
        · obtain rfl : c = a := Option.some.inj (hc'.symm.trans hm)
          exact not_entityBefore_self _
      · refine ⟨b, if_neg hcb, hbq, hel, fun a ha hela => ?_⟩
        rcases mem_queue_iff.1 ha with hm | hm
        · exact hfirst a hm hela
        · obtain rfl : c = a := Option.some.inj (hc'.symm.trans hm)
          exact hcb

/-- The only entity on the queue is picked. -/
theorem pickEevdf_single (cfg : Config) (h : Books rq) (hq : rq.nrQueued = 1) (protect : Bool) :
    ∃ r, pickEevdf cfg rq protect = some r ∧ r ∈ rq.queue := by
  unfold pickEevdf
  rw [if_pos hq]
  cases hc : rq.currOn with
  | some c => exact ⟨c, rfl, mem_queue_iff.2 (Or.inr hc)⟩
  | none =>
    have hlen : rq.tasksTimeline.inorder.length = 1 := by
      have hqueue : rq.nrQueued = (rq.tasksTimeline.inorder ++ rq.currOn.toList).length := h.queued
      rw [hq, hc, Option.toList_none, List.append_nil] at hqueue
      exact hqueue.symm
    obtain ⟨r, hr⟩ := List.length_eq_one_iff.1 hlen
    refine ⟨r, ?_, mem_queue_of_tree (by rw [hr]; exact List.mem_singleton_self r)⟩
    show rq.tasksTimeline.first = some r
    rw [SearchTree.first_eq_head?, hr, List.head?_cons]

/-- `pick_eevdf` finds an entity on the queue. With a choice it is an eligible one, and the earliest of those unless it is the
buddy or may finish its slice. -/
theorem pickEevdf_spec (h : Books rq) (hs : Sorted rq) (hc : Compact rq) (hf : Fits rq) (hq : rq.nrQueued ≠ 0) (protect : Bool) :
    ∃ r, pickEevdf cfg rq protect = some r ∧ (rq.se r).onRq = true ∧
      (rq.nrQueued ≠ 1 → entityEligible rq r = true ∧
        (protect = true ∧ (rq.next = some r ∨ rq.curr = some r ∧ protectSlice (rq.se r) = true) ∨
          ∀ a, (rq.se a).onRq = true → entityEligible rq a = true → ¬entityBefore (rq.se a) (rq.se r))) := by
  by_cases hone : rq.nrQueued = 1
  · obtain ⟨r, hr, hmem⟩ := pickEevdf_single cfg h hone protect
    exact ⟨r, hr, h.mem_queue.1 hmem, fun hne => absurd hone hne⟩
  have hne : rq.queue ≠ [] := by
    intro he
    exact hq (by rw [h.queued]; exact congrArg List.length he)
  unfold pickEevdf
  rw [if_neg hone]
  dsimp only
  cases hnext : rq.next.filter fun n => cfg.pickBuddy && protect && entityEligible rq n with
  | some n =>
    obtain ⟨hn, hel⟩ := Option.filter_eq_some_iff.1 hnext
    simp only [Bool.and_eq_true] at hel
    exact ⟨n, rfl, h.buddy n hn, fun _ => ⟨hel.2, Or.inl ⟨hel.1.2, Or.inl hn⟩⟩⟩
  | none =>
    dsimp only
    cases hcurr : (rq.currOn.filter (entityEligible rq)).filter fun c => protect && protectSlice (rq.se c) with
    | some c =>
      obtain ⟨hcel, hprot⟩ := Option.filter_eq_some_iff.1 hcurr
      obtain ⟨hon, hel⟩ := Option.filter_eq_some_iff.1 hcel
      obtain ⟨hcur, hon⟩ := Option.filter_eq_some_iff.1 hon
      simp only [Bool.and_eq_true] at hprot
      exact ⟨c, rfl, hon, fun _ => ⟨hel, Or.inl ⟨hprot.1, Or.inr ⟨hcur, hprot.2⟩⟩⟩⟩
    | none =>
      obtain ⟨r, hr, hmem, hel, hmin⟩ := earliest_spec h.tallied hs hc hf hne
      exact ⟨r, hr, h.mem_queue.1 hmem, fun _ => ⟨hel, Or.inr fun a ha hela => hmin a (h.mem_queue.2 ha) hela⟩⟩

end OsLab.Fair
