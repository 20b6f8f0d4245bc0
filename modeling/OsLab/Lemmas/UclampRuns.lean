import OsLab.Lemmas.UclampClamp

/-!
# The two clamps of a run queue

A task is counted for both or for neither, and only while it is on the queue and not delayed. The flag says that no task is
counted.
-/

namespace OsLab.Uclamp

variable {T : Type} {B : Buckets} {rq rq' : Rq T} {p : T}

/-- The task is counted. -/
def Rq.active (rq : Rq T) (p : T) : Bool := ((rq.clamp .max).se p).active

section

variable [DecidableEq T]

theorem Rq.active_eq_ite (hp : rq.active p = false) (q : T) : rq.active q = if q = p then false else rq.active q := by
  split
  · next heq => exact heq ▸ hp
  · rfl

/-- A task that is not counted goes without a trace. -/
theorem uclampRqDecId_of_not_active {c : Clamp T} (hp : (c.se p).active = false) (clampId : ClampId) :
    uclampRqDecId B c clampId p = (c, false, false) := if_pos hp

/-- `uclamp_rq_dec_id` changes the one clamp. -/
theorem Rq.decId_clamp (rq : Rq T) (p : T) (clampId clampId' : ClampId) :
    (rq.decId B p clampId).clamp clampId' =
      if clampId' = clampId then (uclampRqDecId B (rq.clamp clampId) clampId p).1 else rq.clamp clampId' := by
  unfold Rq.decId
  dsimp only
  rw [Function.update_apply]

/-- `uclamp_rq_dec` changes the clamps and the flag. -/
theorem Rq.dec_frame (rq : Rq T) (p : T) :
    (rq.dec B p).used = rq.used ∧ (rq.dec B p).enabled = rq.enabled ∧ (rq.dec B p).onRq = rq.onRq ∧
      (rq.dec B p).delayed = rq.delayed := by
  unfold Rq.dec
  split <;> exact ⟨rfl, rfl, rfl, rfl⟩

/-- `uclamp_rq_reinc_id` changes the clamps and the flag. -/
theorem Rq.reincId_frame (rq : Rq T) (p : T) (v : Nat) (clampId : ClampId) :
    (rq.reincId B p v clampId).used = rq.used ∧ (rq.reincId B p v clampId).enabled = rq.enabled ∧
      (rq.reincId B p v clampId).onRq = rq.onRq ∧ (rq.reincId B p v clampId).delayed = rq.delayed := by
  unfold Rq.reincId
  split
  · exact ⟨rfl, rfl, rfl, rfl⟩
  · dsimp only
    split <;> exact ⟨rfl, rfl, rfl, rfl⟩

/-- After `uclamp_rq_inc_id` the task is counted too. -/
theorem active_inc (idle : Bool) (c : Clamp T) (p : T) (v : Nat) (q : T) :
    ((uclampRqIncId B idle c p v).se q).active = if q = p then true else (c.se q).active := by
  rw [uclampRqIncId_eq]
  dsimp only
  rw [Function.update_apply]
  split <;> rfl

end

variable [Fintype T]

/-- What holds of the clamps and the flag. -/
structure Core (B : Buckets) (rq : Rq T) : Prop where
  clamp : ∀ clampId, (rq.clamp clampId).Inv B
  same : ∀ p, ((rq.clamp .min).se p).active = rq.active p
  idle : rq.idle = true ↔ ∀ p, rq.active p = false
  least : (∀ p, rq.active p = false) → (rq.clamp .min).value = 0
  warned : rq.warned = false

/-- What every act keeps. -/
structure Inv (B : Buckets) (rq : Rq T) : Prop extends Core B rq where
  counted : ∀ p, rq.active p = true → rq.used = true ∧ rq.enabled p = true ∧ rq.onRq p = true ∧ rq.delayed p = false

/-- Both clamps are empty when no task is counted. -/
theorem Core.empty_iff (h : Core B rq) (clampId : ClampId) : (∀ b, (rq.clamp clampId).tasks b = 0) ↔ ∀ p, rq.active p = false := by
  rw [(h.clamp clampId).empty_iff]
  cases clampId with
  | min => simp only [h.same]
  | max => rfl

/-- A task is counted in both clamps or in none. -/
theorem Core.active_eq (h : Core B rq) (clampId : ClampId) (p : T) : ((rq.clamp clampId).se p).active = rq.active p := by
  cases clampId with
  | min => exact h.same p
  | max => rfl

/-- The flag is not set while a task is counted. -/
theorem Core.not_idle (h : Core B rq) (hp : rq.active p = true) : rq.idle = false := Bool.eq_false_iff.2 fun hidle => by
  rw [h.idle.1 hidle p] at hp
  cases hp

/-- The other fields of the queue do not matter. -/
theorem Core.of_eq {r : Rq T} (h : Core B rq) (hclamp : r.clamp = rq.clamp) (hidle : r.idle = rq.idle)
    (hwarned : r.warned = rq.warned) : Core B r := by
  have hactive : r.active = rq.active := by
    unfold Rq.active
    rw [hclamp]
  refine ⟨?_, ?_, ?_, ?_, hwarned.trans h.warned⟩ <;> simp only [hclamp, hidle, hactive]
  · exact h.clamp
  · exact h.same
  · exact h.idle
  · exact h.least

/-- A task that is counted is on the queue and not delayed, so it is not queued again. -/
theorem Inv.not_active_of_enqueue (h : Inv B rq) {flag : Bool} (hp : rq.onRq p = false ∨ (rq.delayed p = true ∧ flag = true)) :
    rq.active p = false := Bool.eq_false_iff.2 fun hactive => by
  obtain ⟨-, -, honRq, hdelayed⟩ := h.counted p hactive
  simp [honRq, hdelayed] at hp

/-- At first no task is counted, and the flag is set. -/
theorem initUclampRq_inv (B : Buckets) (enabled : T → Bool) : Inv B (initUclampRq enabled) where
  clamp clampId := by
    refine ⟨fun b => ?_, fun p hp => ?_, fun b hb => absurd rfl hb, fun t ht _ => absurd rfl ht⟩
    · simp [initUclampRq, weight, Ledger.total]
    · cases hp
  same _ := rfl
  idle := ⟨fun _ _ => rfl, fun _ => rfl⟩
  least _ := rfl
  warned := rfl
  counted p hp := by cases hp

variable [DecidableEq T]

/-- After `uclamp_rq_dec_id` the task is not counted. -/
theorem DecSpec.active {c : Clamp T} {clampId : ClampId} {r : Clamp T × Bool × Bool} (h : DecSpec B c clampId p r) (q : T) :
    (r.1.se q).active = if q = p then false else (c.se q).active := by
  rw [h.se, Function.update_apply]
  split <;> rfl

/-! ## A task more, a task less -/

/-- The loop of `uclamp_rq_inc`. -/
theorem Core.inc (h : Core B rq) (hp : rq.active p = false) (eff : ClampId → Nat) {r : Rq T}
    (hr : r = { (rq.incId B p (eff .min) .min).incId B p (eff .max) .max with idle := false }) :
    Core B r ∧ ∀ q, r.active q = if q = p then true else rq.active q := by
  have hone : ∀ clampId v, (uclampRqIncId B rq.idle (rq.clamp clampId) p v).Inv B := fun clampId v =>
    (h.clamp clampId).inc ((h.active_eq clampId p).trans hp) (fun hidle => (h.empty_iff clampId).2 (h.idle.1 hidle))
      (fun hempty => .inl (h.idle.2 ((h.empty_iff clampId).1 hempty))) v
  have hclamp : ∀ clampId, r.clamp clampId = uclampRqIncId B rq.idle (rq.clamp clampId) p (eff clampId) := fun clampId => by
    rw [hr]
    cases clampId <;> rfl
  have hactive : ∀ q, r.active q = if q = p then true else rq.active q := fun q => by
    rw [Rq.active, hclamp, active_inc]
    rfl
  have hbusy : ¬∀ q, r.active q = false := fun hnone => by
    have hself := hnone p
    rw [hactive, if_pos rfl] at hself
    cases hself
  refine ⟨⟨fun clampId => ?_, fun q => ?_, ?_, fun hnone => absurd hnone hbusy, ?_⟩, hactive⟩
  · rw [hclamp]
    exact hone clampId _
  · rw [hactive, hclamp, active_inc, h.same]
  · exact iff_of_false (by rw [hr]; exact Bool.false_ne_true) hbusy
  · rw [hr]
    exact h.warned

/-- The loop of `uclamp_rq_dec`. -/
theorem Core.dec (h : Core B rq) (p : T) :
    Core B ((rq.decId B p .min).decId B p .max) ∧
      ∀ q, ((rq.decId B p .min).decId B p .max).active q = if q = p then false else rq.active q := by
  have hclamp : ∀ clampId, ((rq.decId B p .min).decId B p .max).clamp clampId = (uclampRqDecId B (rq.clamp clampId) clampId p).1 :=
    fun clampId => by
      cases clampId with
      | min => simp [Rq.decId_clamp]
      | max => simp [Rq.decId_clamp]
  have hidle : ((rq.decId B p .min).decId B p .max).idle = (rq.idle || (uclampRqDecId B (rq.clamp .min) .min p).2.1 ||
      (uclampRqDecId B (rq.clamp .max) .max p).2.1) := by
    simp [Rq.decId]
  have hwarned : ((rq.decId B p .min).decId B p .max).warned = (rq.warned || (uclampRqDecId B (rq.clamp .min) .min p).2.2 ||
      (uclampRqDecId B (rq.clamp .max) .max p).2.2) := by
    simp [Rq.decId]
  generalize (rq.decId B p .min).decId B p .max = r at hclamp hidle hwarned
  cases hp : rq.active p with
  | false =>
    have hnothing : ∀ clampId, uclampRqDecId B (rq.clamp clampId) clampId p = (rq.clamp clampId, false, false) := fun clampId =>
      uclampRqDecId_of_not_active ((h.active_eq clampId p).trans hp) clampId
    simp only [hnothing, Bool.or_false] at hclamp hidle hwarned
    refine ⟨h.of_eq (funext hclamp) hidle hwarned, fun q => ?_⟩
    rw [Rq.active, hclamp]
    exact rq.active_eq_ite hp q
  | true =>
    have hspec : ∀ clampId, DecSpec B (rq.clamp clampId) clampId p (uclampRqDecId B (rq.clamp clampId) clampId p) := fun clampId =>
      (h.clamp clampId).dec ((h.active_eq clampId p).trans hp) clampId
    have hactive : ∀ clampId q, ((r.clamp clampId).se q).active = if q = p then false else rq.active q := fun clampId q => by
      rw [hclamp, (hspec clampId).active, h.active_eq]
    have hempty : ∀ clampId, (∀ b, (uclampRqDecId B (rq.clamp clampId) clampId p).1.tasks b = 0) ↔ ∀ q, r.active q = false :=
      fun clampId => by
        rw [(hspec clampId).inv.empty_iff, ← hclamp]
        simp only [Rq.active, hactive]
    have hbusy : rq.idle = false := h.not_idle hp
    have hmin : (uclampRqDecId B (rq.clamp .min) .min p).2.1 = false := Bool.eq_false_iff.2 fun hset => by
      cases ((hspec .min).idle.1 hset).1
    refine ⟨⟨fun clampId => hclamp clampId ▸ (hspec clampId).inv, fun q => ?_, ?_, fun hnone => ?_, ?_⟩, hactive .max⟩
    · rw [Rq.active, hactive, hactive]
    · rw [hidle, hbusy, hmin, Bool.false_or, Bool.false_or, (hspec .max).idle, hempty]
      exact ⟨fun hset => hset.2, fun hnone => ⟨rfl, hnone⟩⟩
    · rw [hclamp]
      exact (hspec .min).least rfl ((hempty .min).2 hnone)
    · rw [hwarned, h.warned, (hspec .min).warned, (hspec .max).warned]
      rfl

/-- `uclamp_rq_reinc_id` of a task that is counted. The flag is raised by the last task that asks for a greatest utilisation, and
taken down again. -/
theorem Core.reincId_fields (h : Core B rq) {clampId : ClampId} (hse : ((rq.clamp clampId).se p).active = true) (v : Nat)
    {d : Clamp T × Bool × Bool} (hd : uclampRqDecId B (rq.clamp clampId) clampId p = d) :
    (rq.reincId B p v clampId).clamp = Function.update rq.clamp clampId (uclampRqIncId B d.2.1 d.1 p v) ∧
      (rq.reincId B p v clampId).idle = false ∧ (rq.reincId B p v clampId).warned = false := by
  have hbusy : rq.idle = false := h.not_idle ((h.active_eq clampId p).symm.trans hse)
  have hspec : DecSpec B (rq.clamp clampId) clampId p d := hd ▸ (h.clamp clampId).dec hse clampId
  have hclamp : ((rq.decId B p clampId).incId B p v clampId).clamp =
      Function.update rq.clamp clampId (uclampRqIncId B d.2.1 d.1 p v) := by
    simp [Rq.incId, Rq.decId, hbusy, hd]
  have hwarned : ((rq.decId B p clampId).incId B p v clampId).warned = false := by
    simp [Rq.incId, Rq.decId, h.warned, hd, hspec.warned]
  unfold Rq.reincId
  rw [if_neg (by rw [hse]; decide)]
  dsimp only
  split
  · exact ⟨hclamp, rfl, hwarned⟩
  · next hmin =>
    have hflag : d.2.1 = false := Bool.eq_false_iff.2 fun hset => hmin (hspec.idle.1 hset).1
    exact ⟨hclamp, by simp [Rq.incId, Rq.decId, hbusy, hd, hflag], hwarned⟩

/-- `uclamp_rq_reinc_id`: the task is counted elsewhere, and the queue is not idle in between. -/
theorem Core.reinc (h : Core B rq) (p : T) (v : Nat) (clampId : ClampId) :
    Core B (rq.reincId B p v clampId) ∧ ∀ q, (rq.reincId B p v clampId).active q = rq.active q := by
  cases hse : ((rq.clamp clampId).se p).active with
  | false =>
    rw [Rq.reincId, if_pos hse]
    exact ⟨h, fun q => rfl⟩
  | true =>
    have hp : rq.active p = true := (h.active_eq clampId p).symm.trans hse
    have hspec := (h.clamp clampId).dec hse clampId
    generalize hd : uclampRqDecId B (rq.clamp clampId) clampId p = d at hspec
    have hinc : (uclampRqIncId B d.2.1 d.1 p v).Inv B := by
      refine hspec.inv.inc (by rw [hspec.active, if_pos rfl]) (fun hidle => (hspec.idle.1 hidle).2) (fun hempty => ?_) v
      cases hid : clampId with
      | min => exact .inr (hspec.least hid hempty)
      | max => exact .inl (hspec.idle.2 ⟨hid, hempty⟩)
    have hcounted : ∀ q, ((uclampRqIncId B d.2.1 d.1 p v).se q).active = rq.active q := fun q => by
      rw [active_inc, hspec.active, h.active_eq]
      split
      · next heq => rw [heq, hp]
      · rfl
    obtain ⟨hclamp, hidle, hwarned⟩ := h.reincId_fields hse v hd
    generalize rq.reincId B p v clampId = r at hclamp hidle hwarned
    have hactive : ∀ id q, ((r.clamp id).se q).active = rq.active q := fun id q => by
      rw [hclamp, Function.update_apply]
      split
      · exact hcounted q
      · exact h.active_eq id q
    have hsome : ¬∀ q, r.active q = false := fun hnone => by
      rw [← hactive .max, show ((r.clamp .max).se p).active = false from hnone p] at hp
      cases hp
    refine ⟨⟨fun id => ?_, fun q => (hactive .min q).trans (hactive .max q).symm, iff_of_false (by simp [hidle]) hsome,
      fun hnone => absurd hnone hsome, hwarned⟩, hactive .max⟩
    rw [hclamp, Function.update_apply]
    split
    · exact hinc
    · exact h.clamp id

/-! ## Runs -/

/-- A task that is counted satisfies the guards of `uclamp_rq_dec`, so they never leave one behind. -/
theorem Inv.dec (h : Inv B rq) (p : T) :
    Core B (rq.dec B p) ∧ ∀ q, (rq.dec B p).active q = if q = p then false else rq.active q := by
  unfold Rq.dec
  split
  · next hguard =>
    have hp : rq.active p = false := Bool.eq_false_iff.2 fun hp => by
      obtain ⟨hused, henabled, -, hdelayed⟩ := h.counted p hp
      simp [hused, henabled, hdelayed] at hguard
    exact ⟨h.toCore, rq.active_eq_ite hp⟩
  · exact h.toCore.dec p

/-- Only `onRq`, `delayed` and `enabled` of one task have changed since the clamps were right, and that task is not counted. -/
theorem Inv.of_frame {r : Rq T} (h : Inv B rq) (hr : Core B r) (hactive : ∀ q, r.active q = if q = p then false else rq.active q)
    (hused : rq.used = true → r.used = true)
    (hframe : ∀ q, q ≠ p → r.enabled q = rq.enabled q ∧ r.onRq q = rq.onRq q ∧ r.delayed q = rq.delayed q) : Inv B r := by
  refine ⟨hr, fun q hq => ?_⟩
  rw [hactive] at hq
  split at hq
  · cases hq
  · next hne =>
    obtain ⟨hu, henabled, honRq, hdelayed⟩ := h.counted q hq
    obtain ⟨he, ho, hd⟩ := hframe q hne
    exact ⟨hused hu, he.trans henabled, ho.trans honRq, hd.trans hdelayed⟩

/-- A task that is dequeued, or only delayed, is not counted any more. -/
theorem Inv.dequeue (h : Inv B rq) (p : T) (outcome : Outcome) : Inv B (rq.dequeueTask B p outcome) := by
  obtain ⟨hcore, hactive⟩ := h.dec p
  obtain ⟨hused, henabled, honRq, hdelayed⟩ := rq.dec_frame (B := B) p
  have hcore' : Core B (rq.dequeueTask B p outcome) := by
    cases outcome <;> exact hcore.of_eq rfl rfl rfl
  refine h.of_frame (p := p) hcore' (fun q => ?_) (fun hu => ?_) fun q hne => ?_
  · cases outcome <;> exact hactive q
  · cases outcome <;> exact hused.trans hu
  · cases outcome <;> simp [Rq.dequeueTask, Function.update_of_ne hne, henabled, honRq, hdelayed]

/-- A task that is enqueued was not counted: it was off the queue, or delayed. -/
theorem Inv.enqueue (h : Inv B rq) {flag : Bool} (hp : rq.onRq p = false ∨ (rq.delayed p = true ∧ flag = true))
    (eff : ClampId → Nat) : Inv B (rq.enqueueTask B p flag eff) := by
  have hnot := h.not_active_of_enqueue hp
  unfold Rq.enqueueTask Rq.inc
  split
  · refine h.of_frame (h.toCore.of_eq rfl rfl rfl) (rq.active_eq_ite hnot) id fun q hne => ?_
    exact ⟨rfl, Function.update_of_ne hne .., Function.update_of_ne hne ..⟩
  · next hguard =>
    obtain ⟨hcore, hactive⟩ := h.toCore.inc hnot eff rfl
    refine ⟨hcore.of_eq rfl rfl rfl, fun q hq => ?_⟩
    have hq' := (hactive q).symm.trans hq
    by_cases hne : q = p
    · subst hne
      simp only [not_or, not_and, Bool.not_eq_false] at hguard
      refine ⟨hguard.1, hguard.2.1, Function.update_self .., ?_⟩
      dsimp only [Rq.incId]
      rw [Function.update_self]
      cases hd : rq.delayed q with
      | false => rfl
      | true => rw [hguard.2.2 hd]; rfl
    · rw [if_neg hne] at hq'
      obtain ⟨hused, henabled, honRq, hdelayed⟩ := h.counted q hq'
      exact ⟨hused, henabled, (Function.update_of_ne hne ..).trans honRq, (Function.update_of_ne hne ..).trans hdelayed⟩

/-- A task that is counted is taken out and counted anew, and the flag is set only in between. -/
theorem Inv.reinc (h : Inv B rq) (p : T) (v : Nat) (clampId : ClampId) : Inv B (rq.reincId B p v clampId) := by
  obtain ⟨hcore, hactive⟩ := h.toCore.reinc p v clampId
  obtain ⟨hused, henabled, honRq, hdelayed⟩ := rq.reincId_frame (B := B) p v clampId
  refine ⟨hcore, fun q hq => ?_⟩
  rw [hused, henabled, honRq, hdelayed]
  exact h.counted q ((hactive q).symm.trans hq)

/-- Every act keeps the invariant. -/
theorem next_inv (h : Inv B rq) {a : Act T} (hnext : next B rq a = some rq') : Inv B rq' := by
  cases a with
  | enqueue p flag eff =>
    obtain ⟨hp, heq⟩ := Option.ite_none_right_eq_some.1 hnext
    exact Option.some.inj heq ▸ h.enqueue hp eff
  | dequeue p outcome =>
    obtain ⟨-, heq⟩ := Option.ite_none_right_eq_some.1 hnext
    exact Option.some.inj heq ▸ h.dequeue p outcome
  | update p eff =>
    exact Option.some.inj hnext ▸ (h.reinc p (eff .min) .min).reinc p (eff .max) .max
  | setClass p enabled =>
    obtain ⟨hp, heq⟩ := Option.ite_none_right_eq_some.1 hnext
    have hnot : rq.active p = false := Bool.eq_false_iff.2 fun hactive => by
      rw [(h.counted p hactive).2.2.1] at hp
      cases hp
    refine Option.some.inj heq ▸ h.of_frame (h.toCore.of_eq rfl rfl rfl) (rq.active_eq_ite hnot) id fun q hne => ?_
    exact ⟨Function.update_of_ne hne .., rfl, rfl⟩
  | use =>
    cases hnext
    exact ⟨h.toCore.of_eq rfl rfl rfl, fun q hq => ⟨rfl, (h.counted q hq).2⟩⟩

/-- A run keeps the invariant. -/
theorem run_inv (as : List (Act T)) (h : Inv B rq) (hrun : run B rq as = some rq') : Inv B rq' := by
  induction as generalizing rq with
  | nil => exact Option.some.inj hrun ▸ h
  | cons a as ih =>
    obtain ⟨r, hnext, hrest⟩ := Option.bind_eq_some_iff.1 hrun
    exact ih (next_inv h hnext) hrest

/-! ## Clamps that are used from the start -/

/-- No task that should be counted is left out. -/
structure Full (rq : Rq T) : Prop where
  used : rq.used = true
  counts : ∀ p, rq.enabled p = true → rq.onRq p = true → rq.delayed p = false → rq.active p = true

/-- The task enqueued is counted if it should be. -/
theorem Full.enqueue (hf : Full rq) (h : Inv B rq) {flag : Bool} (hp : rq.onRq p = false ∨ (rq.delayed p = true ∧ flag = true))
    (eff : ClampId → Nat) : Full (rq.enqueueTask B p flag eff) := by
  have hnot := h.not_active_of_enqueue hp
  unfold Rq.enqueueTask Rq.inc
  split
  · next hguard =>
    refine ⟨hf.used, fun q henabled honRq hdelayed => ?_⟩
    by_cases hne : q = p
    · -- the clamps are used, so the class is not counted or the task stays delayed
      subst hne
      rw [hf.used] at hguard
      rcases hguard with hused | hclass | ⟨hd, hflag⟩
      · cases hused
      · exact absurd (henabled.symm.trans hclass) (by decide)
      · dsimp only at hdelayed
        rw [Function.update_self, hd, hflag] at hdelayed
        cases hdelayed
    · exact hf.counts q henabled ((Function.update_of_ne hne ..).symm.trans honRq)
        ((Function.update_of_ne hne ..).symm.trans hdelayed)
  · obtain ⟨-, hactive⟩ := h.toCore.inc hnot eff rfl
    refine ⟨hf.used, fun q henabled honRq hdelayed => (hactive q).trans ?_⟩
    by_cases hne : q = p
    · rw [if_pos hne]
    · rw [if_neg hne]
      exact hf.counts q henabled ((Function.update_of_ne hne ..).symm.trans honRq)
        ((Function.update_of_ne hne ..).symm.trans hdelayed)

/-- The task dequeued should not be counted any more. -/
theorem Full.dequeue (hf : Full rq) (h : Inv B rq) (p : T) (outcome : Outcome) : Full (rq.dequeueTask B p outcome) := by
  obtain ⟨-, hactive⟩ := h.dec p
  obtain ⟨hused, henabled, honRq, hdelayed⟩ := rq.dec_frame (B := B) p
  refine ⟨by cases outcome <;> exact hused.trans hf.used, fun q he ho hd => ?_⟩
  by_cases hne : q = p
  · subst hne
    cases outcome <;> simp [Rq.dequeueTask] at ho hd
  · have hold : rq.active q = true := by
      refine hf.counts q ?_ ?_ ?_
      · cases outcome <;> exact (congrFun henabled q).symm.trans he
      · cases outcome <;> simpa [Rq.dequeueTask, Function.update_of_ne hne, honRq] using ho
      · cases outcome <;> simpa [Rq.dequeueTask, Function.update_of_ne hne, hdelayed] using hd
    have hnow := (hactive q).trans ((if_neg hne).trans hold)
    cases outcome <;> exact hnow

/-- A task counted anew is counted. -/
theorem Full.reinc (hf : Full rq) (h : Inv B rq) (p : T) (v : Nat) (clampId : ClampId) : Full (rq.reincId B p v clampId) := by
  obtain ⟨-, hactive⟩ := h.toCore.reinc p v clampId
  obtain ⟨hused, henabled, honRq, hdelayed⟩ := rq.reincId_frame (B := B) p v clampId
  refine ⟨hused.trans hf.used, fun q => ?_⟩
  rw [henabled, honRq, hdelayed, hactive]
  exact hf.counts q

/-- Every act keeps that no task is left out. -/
theorem next_full (hf : Full rq) (h : Inv B rq) {a : Act T} (hnext : next B rq a = some rq') : Full rq' := by
  cases a with
  | enqueue p flag eff =>
    obtain ⟨hp, heq⟩ := Option.ite_none_right_eq_some.1 hnext
    exact Option.some.inj heq ▸ hf.enqueue h hp eff
  | dequeue p outcome =>
    obtain ⟨-, heq⟩ := Option.ite_none_right_eq_some.1 hnext
    exact Option.some.inj heq ▸ hf.dequeue h p outcome
  | update p eff =>
    exact Option.some.inj hnext ▸ (hf.reinc h p (eff .min) .min).reinc (h.reinc p (eff .min) .min) p (eff .max) .max
  | setClass p enabled =>
    obtain ⟨hp, heq⟩ := Option.ite_none_right_eq_some.1 hnext
    refine Option.some.inj heq ▸ ⟨hf.used, fun q henabled honRq hdelayed => ?_⟩
    have hne : q ≠ p := fun hqp => absurd (honRq.symm.trans (hqp ▸ hp)) (by decide)
    exact hf.counts q ((Function.update_of_ne hne ..).symm.trans henabled) honRq hdelayed
  | use =>
    cases hnext
    exact ⟨rfl, hf.counts⟩

/-- A run leaves no task out. -/
theorem run_full (as : List (Act T)) (hf : Full rq) (h : Inv B rq) (hrun : run B rq as = some rq') : Full rq' := by
  induction as generalizing rq with
  | nil => exact Option.some.inj hrun ▸ hf
  | cons a as ih =>
    obtain ⟨r, hnext, hrest⟩ := Option.bind_eq_some_iff.1 hrun
    exact ih (next_full hf h hnext) (next_inv h hnext) hrest

end OsLab.Uclamp
