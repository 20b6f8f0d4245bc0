import OsLab.Uclamp
import OsLab.Lib.Ledger
import Mathlib.Algebra.Order.BigOperators.Group.Finset
import Mathlib.Data.Fintype.Basic

/-!
# One clamp of a run queue

The counts of the buckets are exact, a bucket with tasks has a value of its own that is no less than theirs, and the clamp is the
value of the topmost such bucket. As the buckets are in the order of their values, no task is above the clamp.
-/

namespace OsLab.Uclamp

variable {T : Type} {B : Buckets} {c : Clamp T} {p : T} {b v : Nat} {idle : Bool} {clampId : ClampId}

/-- What a task counts for in a bucket. -/
def weight (B : Buckets) (b : Nat) (se : UclampSe) : Int := if se.active = true ∧ B.bucketId se.value = b then 1 else 0

theorem weight_nonneg (B : Buckets) (b : Nat) (se : UclampSe) : 0 ≤ weight B b se := by
  unfold weight
  split <;> decide

/-- Buckets are ordered as the values in them are. -/
theorem Buckets.lt_of_lt (B : Buckets) {u w : Nat} (h : B.bucketId u < B.bucketId w) : u < w := by
  by_contra hle
  exact absurd (B.mono w u (not_lt.1 hle)) (not_le.2 h)

/-! ## What is written -/

section

variable [DecidableEq T]

/-- `uclamp_rq_inc_id`, without its branches. -/
theorem uclampRqIncId_eq (B : Buckets) (idle : Bool) (c : Clamp T) (p : T) (v : Nat) :
    uclampRqIncId B idle c p v =
      { value := if idle then v else max c.value v
        tasks := Function.update c.tasks (B.bucketId v) (c.tasks (B.bucketId v) + 1)
        bucketValue := Function.update c.bucketValue (B.bucketId v)
          (if c.tasks (B.bucketId v) = 0 then v else max (c.bucketValue (B.bucketId v)) v)
        se := Function.update c.se p ⟨v, true⟩ } := by
  have hbucket : (if c.tasks (B.bucketId v) + 1 = 1 ∨ c.bucketValue (B.bucketId v) < v
      then Function.update c.bucketValue (B.bucketId v) v else c.bucketValue) = Function.update c.bucketValue (B.bucketId v)
        (if c.tasks (B.bucketId v) = 0 then v else max (c.bucketValue (B.bucketId v)) v) := by
    by_cases hzero : c.tasks (B.bucketId v) = 0
    · simp [hzero]
    · by_cases hlt : c.bucketValue (B.bucketId v) < v
      · simp [hzero, hlt, max_eq_right hlt.le]
      · simp [hzero, hlt, max_eq_left (not_lt.1 hlt)]
  rw [← hbucket]
  unfold uclampRqIncId
  by_cases hmax : c.tasks (B.bucketId v) + 1 = 1 ∨ c.bucketValue (B.bucketId v) < v
  · cases idle with
    | true => simp only [if_true, Function.update_self, if_pos hmax, lt_irrefl, if_false]
    | false =>
      by_cases hlt : c.value < v
      · simp only [Bool.false_eq_true, if_false, Function.update_self, if_pos hmax, if_pos hlt, max_eq_right hlt.le]
      · simp only [Bool.false_eq_true, if_false, Function.update_self, if_pos hmax, if_neg hlt, max_eq_left (not_lt.1 hlt)]
  · cases idle with
    | true => simp only [if_true, Function.update_self, if_neg hmax, lt_irrefl, if_false]
    | false =>
      by_cases hlt : c.value < v
      · simp only [Bool.false_eq_true, if_false, Function.update_self, if_neg hmax, if_pos hlt, max_eq_right hlt.le]
      · simp only [Bool.false_eq_true, if_false, Function.update_self, if_neg hmax, if_neg hlt, max_eq_left (not_lt.1 hlt)]

/-- What is left without the task. -/
def Clamp.without (B : Buckets) (c : Clamp T) (p : T) : Clamp T :=
  { c with
    tasks := Function.update c.tasks (B.bucketId (c.se p).value) (c.tasks (B.bucketId (c.se p).value) - 1)
    se := Function.update c.se p ⟨(c.se p).value, false⟩ }

/-- Where tasks are left there were tasks. -/
theorem tasks_of_without {b : Nat} (hb : (c.without B p).tasks b ≠ 0) : c.tasks b ≠ 0 := by
  unfold Clamp.without at hb
  dsimp only at hb
  rw [Function.update_apply] at hb
  split at hb
  · next heq =>
    rw [heq]
    omega
  · exact hb

end

/-! ## What holds -/

variable [Fintype T]

/-- What holds of a clamp. -/
structure Clamp.Inv (B : Buckets) (c : Clamp T) : Prop where
  count : ∀ b, (c.tasks b : Int) = Ledger.total (weight B b) c.se
  above : ∀ p, (c.se p).active = true → (c.se p).value ≤ c.bucketValue (B.bucketId (c.se p).value)
  within : ∀ b, c.tasks b ≠ 0 → B.bucketId (c.bucketValue b) = b
  top : ∀ b, c.tasks b ≠ 0 → (∀ b', b < b' → c.tasks b' = 0) → c.value = c.bucketValue b

/-- A task that is counted makes its bucket count. -/
theorem Clamp.Inv.pos_of_active (h : c.Inv B) (hp : (c.se p).active = true) : c.tasks (B.bucketId (c.se p).value) ≠ 0 := by
  intro hzero
  have hle : weight B (B.bucketId (c.se p).value) (c.se p) ≤ Ledger.total (weight B (B.bucketId (c.se p).value)) c.se :=
    Finset.single_le_sum (fun q _ => weight_nonneg B _ (c.se q)) (Finset.mem_univ p)
  rw [← h.count, hzero, weight, if_pos ⟨hp, rfl⟩] at hle
  exact absurd hle (by decide)

/-- A bucket that counts has a task. -/
theorem Clamp.Inv.exists_active (h : c.Inv B) (hb : c.tasks b ≠ 0) :
    ∃ p, (c.se p).active = true ∧ B.bucketId (c.se p).value = b := by
  have hne : Ledger.total (weight B b) c.se ≠ 0 := by
    rw [← h.count]
    exact Int.natCast_ne_zero.2 hb
  obtain ⟨p, -, hp⟩ := Finset.exists_ne_zero_of_sum_ne_zero hne
  unfold weight at hp
  split at hp
  · next hactive => exact ⟨p, hactive⟩
  · exact absurd rfl hp

/-- All buckets are empty when no task is counted. -/
theorem Clamp.Inv.empty_iff (h : c.Inv B) : (∀ b, c.tasks b = 0) ↔ ∀ p, (c.se p).active = false := by
  constructor
  · intro hzero p
    by_contra hp
    exact h.pos_of_active (Bool.eq_true_of_not_eq_false hp) (hzero _)
  · intro hnone b
    by_contra hb
    obtain ⟨p, hp, -⟩ := h.exists_active hb
    rw [hnone p] at hp
    cases hp

/-- No bucket beyond the last one counts. -/
theorem Clamp.Inv.lt_count (h : c.Inv B) (hb : c.tasks b ≠ 0) : b < B.count := by
  obtain ⟨p, -, rfl⟩ := h.exists_active hb
  exact B.lt _

/-! ## The topmost bucket -/

/-- The loop from the top finds the highest bucket that counts. -/
theorem topBucket_eq_some {tasks : Nat → Nat} {n t : Nat} (h : topBucket tasks n = some t) :
    tasks t ≠ 0 ∧ ∀ b, t < b → b < n → tasks b = 0 := by
  induction n with
  | zero => cases h
  | succ n ih =>
    unfold topBucket at h
    split at h
    · next hzero =>
      obtain ⟨ht, habove⟩ := ih h
      refine ⟨ht, fun b hb hn => ?_⟩
      rcases Nat.lt_succ_iff_lt_or_eq.1 hn with hlt | rfl
      · exact habove b hb hlt
      · exact hzero
    · next hne =>
      obtain rfl := Option.some.inj h
      exact ⟨hne, fun b hb hn => by omega⟩

/-- The loop finds none when none counts. -/
theorem topBucket_eq_none {tasks : Nat → Nat} {n : Nat} (h : topBucket tasks n = none) : ∀ b, b < n → tasks b = 0 := by
  induction n with
  | zero => exact fun b hb => absurd hb (Nat.not_lt_zero b)
  | succ n ih =>
    unfold topBucket at h
    split at h
    · next hzero =>
      intro b hb
      rcases Nat.lt_succ_iff_lt_or_eq.1 hb with hlt | rfl
      · exact ih h b hlt
      · exact hzero
    · cases h

/-- Above a bucket that counts there is a highest one. -/
theorem Clamp.Inv.exists_top (h : c.Inv B) (hb : c.tasks b ≠ 0) :
    ∃ t, b ≤ t ∧ c.tasks t ≠ 0 ∧ ∀ b', t < b' → c.tasks b' = 0 := by
  have hbeyond : ∀ b', B.count ≤ b' → c.tasks b' = 0 := fun b' hle => by
    by_contra hne
    exact absurd (h.lt_count hne) (not_lt.2 hle)
  cases htop : topBucket c.tasks B.count with
  | none => exact absurd (topBucket_eq_none htop b (h.lt_count hb)) hb
  | some t =>
    obtain ⟨ht, habove⟩ := topBucket_eq_some htop
    have hall : ∀ b', t < b' → c.tasks b' = 0 := fun b' hlt => by
      by_cases hle : b' < B.count
      · exact habove b' hlt hle
      · exact hbeyond b' (not_lt.1 hle)
    exact ⟨t, not_lt.1 fun hlt => hb (hall b hlt), ht, hall⟩

/-- The clamp is in the topmost bucket, and no less than the value of any bucket. -/
theorem Clamp.Inv.bucketValue_le (h : c.Inv B) (hb : c.tasks b ≠ 0) : c.bucketValue b ≤ c.value := by
  obtain ⟨t, hle, ht, habove⟩ := h.exists_top hb
  rw [h.top t ht habove]
  rcases Nat.lt_or_eq_of_le hle with hlt | rfl
  · refine (B.lt_of_lt ?_).le
    rwa [h.within b hb, h.within t ht]
  · exact le_refl _

/-- The clamp is at least what every counted task asks for. -/
theorem Clamp.Inv.value_le (h : c.Inv B) (hp : (c.se p).active = true) : (c.se p).value ≤ c.value :=
  (h.above p hp).trans (h.bucketValue_le (h.pos_of_active hp))

/-- All tasks are in buckets below that of a value, so the clamp is no greater. -/
theorem Clamp.Inv.value_le_of_below (h : c.Inv B) {v : Nat} (hzero : ∀ b, B.bucketId v ≤ b → c.tasks b = 0)
    (hempty : (∀ b, c.tasks b = 0) → c.value = 0) : c.value ≤ v := by
  by_cases hall : ∀ b, c.tasks b = 0
  · rw [hempty hall]
    exact Nat.zero_le v
  · obtain ⟨b, hb⟩ := not_forall.1 hall
    obtain ⟨t, -, ht, habove⟩ := h.exists_top hb
    have hlt : t < B.bucketId v := not_le.1 fun hle => ht (hzero t hle)
    refine (B.lt_of_lt ?_).le
    rwa [h.top t ht habove, h.within t ht]

variable [DecidableEq T]

/-! ## A task comes -/

/-- One more task is counted, in its bucket. -/
theorem Clamp.Inv.inc_count (h : c.Inv B) (hp : (c.se p).active = false) (v b : Nat) :
    ((uclampRqIncId B idle c p v).tasks b : Int) = Ledger.total (weight B b) (uclampRqIncId B idle c p v).se := by
  rw [uclampRqIncId_eq]
  dsimp only
  rw [Ledger.total_update, ← h.count b]
  have hold : weight B b (c.se p) = 0 := by simp [weight, hp]
  by_cases heq : b = B.bucketId v
  · subst heq
    rw [Function.update_self, hold, weight, if_pos ⟨rfl, rfl⟩]
    omega
  · rw [Function.update_of_ne heq, hold, weight, if_neg fun hx => heq hx.2.symm]
    omega

/-- The value of the bucket is raised to what the new task asks for. -/
theorem Clamp.Inv.inc_above (h : c.Inv B) (v : Nat) {q : T} (hq : ((uclampRqIncId B idle c p v).se q).active = true) :
    ((uclampRqIncId B idle c p v).se q).value ≤
      (uclampRqIncId B idle c p v).bucketValue (B.bucketId ((uclampRqIncId B idle c p v).se q).value) := by
  rw [uclampRqIncId_eq] at hq ⊢
  dsimp only at hq ⊢
  by_cases heq : q = p
  · subst heq
    rw [Function.update_self]
    dsimp only
    rw [Function.update_self]
    split
    · exact le_refl v
    · exact le_max_right _ _
  · rw [Function.update_of_ne heq] at hq ⊢
    have hle := h.above q hq
    by_cases hb : B.bucketId (c.se q).value = B.bucketId v
    · rw [hb, Function.update_self, if_neg (hb ▸ h.pos_of_active hq)]
      exact (hb ▸ hle).trans (le_max_left _ _)
    · rwa [Function.update_of_ne hb]

/-- The value of a bucket stays within the bucket. -/
theorem Clamp.Inv.inc_within (h : c.Inv B) (v : Nat) {b : Nat} (hb : (uclampRqIncId B idle c p v).tasks b ≠ 0) :
    B.bucketId ((uclampRqIncId B idle c p v).bucketValue b) = b := by
  rw [uclampRqIncId_eq] at hb ⊢
  dsimp only at hb ⊢
  by_cases heq : b = B.bucketId v
  · subst heq
    rw [Function.update_self]
    split
    · rfl
    · next hne =>
      rcases max_choice (c.bucketValue (B.bucketId v)) v with hmax | hmax <;> rw [hmax]
      exact h.within _ hne
  · rw [Function.update_of_ne heq] at hb ⊢
    exact h.within b hb

/-- The task is counted. The flag is set only if there was no task; if it is not, there was one or the clamp was 0. -/
theorem Clamp.Inv.inc (h : c.Inv B) (hp : (c.se p).active = false) (hidle : idle = true → ∀ b, c.tasks b = 0)
    (hempty : (∀ b, c.tasks b = 0) → idle = true ∨ c.value = 0) (v : Nat) : (uclampRqIncId B idle c p v).Inv B := by
  refine ⟨h.inc_count hp v, fun q => h.inc_above v, fun b => h.inc_within v, fun t ht habove => ?_⟩
  rw [uclampRqIncId_eq] at ht habove ⊢
  dsimp only at ht habove ⊢
  -- the bucket of the task has a task in now, so it is no higher than the topmost
  have hle : B.bucketId v ≤ t := not_lt.1 fun hlt => by
    have hzero := habove _ hlt
    rw [Function.update_self] at hzero
    cases hzero
  have hzero : ∀ b, t < b → c.tasks b = 0 := fun b hlt => by
    have hnow := habove b hlt
    rwa [Function.update_of_ne (show b ≠ B.bucketId v by omega)] at hnow
  rcases Nat.lt_or_eq_of_le hle with hlt | rfl
  · have hne : t ≠ B.bucketId v := hlt.ne'
    rw [Function.update_of_ne hne] at ht
    have htop := h.top t ht hzero
    have hvalue : v < c.value := B.lt_of_lt (by rwa [htop, h.within t ht])
    rw [Function.update_of_ne hne, ← htop]
    cases idle with
    | true => exact absurd (hidle rfl t) ht
    | false => exact max_eq_left hvalue.le
  · rw [Function.update_self]
    cases idle with
    | true =>
      rw [if_pos (hidle rfl _)]
      rfl
    | false =>
      rw [if_neg Bool.false_ne_true]
      split
      · next hb =>
        refine max_eq_right (h.value_le_of_below (fun b hge => ?_) fun hall => (hempty hall).resolve_left Bool.false_ne_true)
        rcases Nat.lt_or_eq_of_le hge with hlt | rfl
        · exact hzero b hlt
        · exact hb
      · next hb => rw [h.top _ hb hzero]

/-! ## A task goes -/

/-- One task less is counted, in the bucket it was counted in. -/
theorem Clamp.Inv.without_count (h : c.Inv B) (hp : (c.se p).active = true) (b : Nat) :
    ((c.without B p).tasks b : Int) = Ledger.total (weight B b) (c.without B p).se := by
  have hpos := h.pos_of_active hp
  unfold Clamp.without
  dsimp only
  rw [Ledger.total_update, ← h.count b]
  have hnew : weight B b ⟨(c.se p).value, false⟩ = 0 := by simp [weight]
  by_cases heq : b = B.bucketId (c.se p).value
  · subst heq
    rw [Function.update_self, hnew, weight, if_pos ⟨hp, rfl⟩]
    omega
  · rw [Function.update_of_ne heq, hnew, weight, if_neg fun hx => heq hx.2.symm]
    omega

/-- All but the clamp itself is as it should be. -/
theorem Clamp.Inv.of_without (h : c.Inv B) (hp : (c.se p).active = true) {value : Nat}
    (htop : ∀ b, (c.without B p).tasks b ≠ 0 → (∀ b', b < b' → (c.without B p).tasks b' = 0) → value = c.bucketValue b) :
    Clamp.Inv B { c.without B p with value := value } := by
  refine ⟨h.without_count hp, fun q hq => ?_, fun b hb => h.within b (tasks_of_without hb), htop⟩
  have hne : q ≠ p := fun heq => by
    simp [heq, Clamp.without] at hq
  simp only [Clamp.without, Function.update_of_ne hne] at hq ⊢
  exact h.above q hq

/-- What `uclamp_rq_dec_id` leaves for a task that is counted: no warning, and the flag if the last task has gone and the clamp is
the greatest utilisation; the least one is 0 then. -/
structure DecSpec (B : Buckets) (c : Clamp T) (clampId : ClampId) (p : T) (r : Clamp T × Bool × Bool) : Prop where
  inv : r.1.Inv B
  se : r.1.se = Function.update c.se p ⟨(c.se p).value, false⟩
  warned : r.2.2 = false
  idle : r.2.1 = true ↔ clampId = .max ∧ ∀ b, r.1.tasks b = 0
  least : clampId = .min → (∀ b, r.1.tasks b = 0) → r.1.value = 0

/-- The bucket a task goes from may have been the highest one; then the value of the next one is taken. -/
theorem Clamp.Inv.dec (h : c.Inv B) (hp : (c.se p).active = true) (clampId : ClampId) :
    DecSpec B c clampId p (uclampRqDecId B c clampId p) := by
  have hpos := h.pos_of_active hp
  have hle := h.bucketValue_le hpos
  have hwithout : ∀ b, b ≠ B.bucketId (c.se p).value → (c.without B p).tasks b = c.tasks b := fun b hb =>
    Function.update_of_ne hb ..
  unfold uclampRqDecId
  rw [if_neg (by rw [hp]; decide)]
  dsimp only
  split
  · next hmore =>
    -- the bucket is not empty, and the topmost bucket is what it was
    have hmore' : (c.without B p).tasks (B.bucketId (c.se p).value) ≠ 0 := hmore
    have hsame : ∀ b, (c.without B p).tasks b = 0 → c.tasks b = 0 := fun b hb => by
      have hne : b ≠ B.bucketId (c.se p).value := fun heq => hmore' (heq ▸ hb)
      rwa [← hwithout b hne]
    refine ⟨h.of_without hp fun b hb habove => h.top b (tasks_of_without hb) fun b' hlt => hsame b' (habove b' hlt),
      rfl, ?_, ?_, ?_⟩
    · exact decide_eq_false hpos
    · exact ⟨fun hfalse => (by cases hfalse), fun hall => absurd (hall.2 _) hmore'⟩
    · exact fun _ hall => absurd (hall _) hmore'
  · next hlast =>
    have hwarn : (decide (c.tasks (B.bucketId (c.se p).value) = 0) ||
        decide (c.value < c.bucketValue (B.bucketId (c.se p).value))) = false :=
      Bool.or_eq_false_iff.2 ⟨decide_eq_false hpos, decide_eq_false (not_lt.2 hle)⟩
    split
    · -- the clamp is that of the topmost bucket left
      unfold uclampRqMaxValue
      split
      · next t htop =>
        obtain ⟨ht, habove⟩ := topBucket_eq_some (show topBucket (c.without B p).tasks B.count = some t from htop)
        refine ⟨h.of_without hp fun b hb hzero => ?_, rfl, hwarn, ?_, fun _ hall => absurd (hall t) ht⟩
        · rcases Nat.lt_trichotomy b t with hlt | rfl | hgt
          · exact absurd (hzero t hlt) ht
          · rfl
          · exact absurd (habove b hgt (h.lt_count (tasks_of_without hb))) hb
        · exact ⟨fun hfalse => (by cases hfalse), fun hall => absurd (hall.2 t) ht⟩
      · next htop =>
        have hnone := topBucket_eq_none (show topBucket (c.without B p).tasks B.count = none from htop)
        have hall : ∀ b, (c.without B p).tasks b = 0 := fun b => by
          by_contra hb
          exact hb (hnone b (h.lt_count (tasks_of_without hb)))
        cases clampId with
        | min =>
          exact ⟨h.of_without hp fun b hb => absurd (hall b) hb, rfl, hwarn,
            ⟨fun hfalse => (by cases hfalse), fun hmax => (by cases hmax.1)⟩, fun _ _ => rfl⟩
        | max =>
          exact ⟨h.of_without hp fun b hb => absurd (hall b) hb, rfl, hwarn, ⟨fun _ => ⟨rfl, hall⟩, fun _ => rfl⟩,
            fun hmin => (by cases hmin)⟩
    · next hless =>
      -- the clamp is that of another bucket, above the one that is empty now
      obtain ⟨t, -, ht, habove⟩ := h.exists_top hpos
      have hne : t ≠ B.bucketId (c.se p).value := fun heq => hless (by rw [← heq, ← h.top t ht habove])
      have ht' : (c.without B p).tasks t ≠ 0 := by rwa [hwithout t hne]
      refine ⟨h.of_without hp fun b hb hzero => ?_, rfl, hwarn, ?_, fun _ hall => absurd (hall t) ht'⟩
      · rcases Nat.lt_trichotomy b t with hlt | rfl | hgt
        · exact absurd (hzero t hlt) ht'
        · exact h.top b ht habove
        · exact absurd (habove b hgt) (tasks_of_without hb)
      · exact ⟨fun hfalse => (by cases hfalse), fun hall => absurd (hall.2 t) ht'⟩

end OsLab.Uclamp
