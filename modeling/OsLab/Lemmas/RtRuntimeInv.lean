import OsLab.Lib.Ledger
import OsLab.RtRuntime
import Mathlib.Algebra.Order.BigOperators.Group.Finset
import Mathlib.Tactic.Linarith

/-!
# What is lent is owed

Over the CPUs that are online, the runtimes differ from that of the group by nothing in sum. While `__disable_runtime` takes back
what its CPU has lent, the rest of the domain is above by what it still wants.
-/

namespace OsLab.RtRuntime

variable {n : Nat} {s t : RtGroup n} {cpu i : Fin n} {R : Int}

namespace RtGroup

@[simp] theorem set_self (s : RtGroup n) (cpu : Fin n) (f : RtRq → RtRq) : (s.set cpu f).rq cpu = f (s.rq cpu) :=
  Function.update_self ..

theorem set_of_ne {c : Fin n} (h : c ≠ cpu) (s : RtGroup n) (f : RtRq → RtRq) : (s.set cpu f).rq c = s.rq c :=
  Function.update_of_ne h ..

@[simp] theorem set_holder (s : RtGroup n) (cpu : Fin n) (f : RtRq → RtRq) : (s.set cpu f).holder = s.holder := rfl

@[simp] theorem set_rtRuntime (s : RtGroup n) (cpu : Fin n) (f : RtRq → RtRq) : (s.set cpu f).rtRuntime = s.rtRuntime := rfl

@[simp] theorem add_self (s : RtGroup n) (cpu : Fin n) (d : Int) : ((s.add cpu d).rq cpu).rtRuntime = (s.rq cpu).rtRuntime + d := by
  simp [add]

theorem add_of_ne {c : Fin n} (h : c ≠ cpu) (s : RtGroup n) (d : Int) : (s.add cpu d).rq c = s.rq c := set_of_ne h s _

@[simp] theorem add_online (s : RtGroup n) (cpu : Fin n) (d : Int) (c : Fin n) : ((s.add cpu d).rq c).online = (s.rq c).online := by
  by_cases h : c = cpu
  · subst h
    simp [add]
  · rw [add_of_ne h]

@[simp] theorem add_throttled (s : RtGroup n) (cpu : Fin n) (d : Int) (c : Fin n) :
    ((s.add cpu d).rq c).rtThrottled = (s.rq c).rtThrottled := by
  by_cases h : c = cpu
  · subst h
    simp [add]
  · rw [add_of_ne h]

end RtGroup

open RtGroup

/-- What a CPU that is online has beyond its own. -/
def RtRq.beyond (R : Int) (rq : RtRq) : Int := if rq.online then rq.rtRuntime - R else 0

/-- What they have together. -/
def beyond (R : Int) (s : RtGroup n) : Int := Ledger.total (RtRq.beyond R) s.rq

/-- A change of one queue changes the sum by what it changes there. -/
theorem beyond_set (R : Int) (s : RtGroup n) (cpu : Fin n) (f : RtRq → RtRq) :
    beyond R (s.set cpu f) = beyond R s - (s.rq cpu).beyond R + (f (s.rq cpu)).beyond R :=
  Ledger.total_update ..

theorem beyond_of_online {rq : RtRq} (h : rq.online = true) (R : Int) : rq.beyond R = rq.rtRuntime - R := if_pos h

/-- What an online queue gains the sum gains. -/
theorem beyond_add (R : Int) (s : RtGroup n) {cpu : Fin n} (honline : (s.rq cpu).online = true) (d : Int) :
    beyond R (s.add cpu d) = beyond R s + d := by
  unfold RtGroup.add
  rw [beyond_set, beyond_of_online honline]
  unfold RtRq.beyond
  dsimp only
  rw [if_pos honline]
  omega

/-- What the CPUs but one have together. -/
theorem beyond_erase (R : Int) (s : RtGroup n) (cpu : Fin n) :
    ∑ c ∈ Finset.univ.erase cpu, (s.rq c).beyond R = beyond R s - (s.rq cpu).beyond R := by
  unfold beyond Ledger.total
  rw [← Finset.add_sum_erase _ _ (Finset.mem_univ cpu)]
  omega

/-- What the holder of the lock is about. -/
def Phase (R : Int) (s : RtGroup n) : Holder n → Prop
  | .free => beyond R s = 0
  | .balance cpu _ => (s.rq cpu).online = true ∧ beyond R s = 0
  | .reclaim cpu rest want => (s.rq cpu).online = true ∧ beyond R s = (s.rq cpu).rtRuntime - R + want ∧
      (want ≠ 0 → ∀ c, c ∉ rest → c ≠ cpu → (s.rq c).online = true → 0 < want ∧ (s.rq c).rtRuntime = 0)

/-- What holds between two sections. -/
structure Inv (R : Int) (s : RtGroup n) : Prop where
  period : 0 ≤ s.rtPeriod
  group : s.rtRuntime = R
  warned : s.warned = false
  offline : ∀ cpu, (s.rq cpu).online = false → (s.rq cpu).rtRuntime = runtimeInf ∧ (s.rq cpu).rtThrottled = false
  bounds : ∀ cpu, (s.rq cpu).online = true → 0 ≤ (s.rq cpu).rtRuntime ∧ (s.rq cpu).rtRuntime ≤ n * R
  phase : Phase R s s.holder

/-- No online queue can have so much runtime that it looks unlimited. -/
theorem Inv.limited (h : Inv R s) (hfits : n * R < runtimeInf) (honline : (s.rq cpu).online = true) :
    (s.rq cpu).rtRuntime ≠ runtimeInf := by
  have hle := (h.bounds cpu honline).2
  omega

/-- A queue with a limit is online. -/
theorem Inv.online (h : Inv R s) (hlimited : (s.rq cpu).rtRuntime ≠ runtimeInf) : (s.rq cpu).online = true := by
  by_contra hoff
  exact hlimited (h.offline cpu (Bool.eq_false_iff.2 hoff)).1

/-- Where a set of CPUs has nothing beyond its own in sum, none of them has more than the runtime of the group for each CPU. -/
theorem runtime_le (hR : 0 ≤ R) {S : Finset (Fin n)} (hmem : cpu ∈ S)
    (hnonneg : ∀ c, (s.rq c).online = true → 0 ≤ (s.rq c).rtRuntime)
    (honline : (s.rq cpu).online = true) (hsum : ∑ c ∈ S, (s.rq c).beyond R ≤ 0) : (s.rq cpu).rtRuntime ≤ n * R := by
  have hpos : 0 < S.card := Finset.card_pos.2 ⟨cpu, hmem⟩
  have hcard : S.card ≤ n := by simpa using S.card_le_univ
  have hothers := Finset.card_nsmul_le_sum (S.erase cpu) (fun c => (s.rq c).beyond R) (-R) fun c _ => by
    unfold RtRq.beyond
    split
    · rename_i hc
      have := hnonneg c hc
      omega
    · omega
  rw [nsmul_eq_mul, Finset.card_erase_of_mem hmem, Nat.cast_sub hpos] at hothers
  rw [← Finset.add_sum_erase _ _ hmem, beyond_of_online honline] at hsum
  have hall : (S.card : Int) * R ≤ n * R := mul_le_mul_of_nonneg_right (by exact_mod_cast hcard) hR
  push_cast at hothers
  linarith

/-! ## Sections that leave the runtimes alone -/

/-- The sum depends on the runtimes and on who is online. -/
theorem beyond_congr (hrq : ∀ c, (t.rq c).rtRuntime = (s.rq c).rtRuntime ∧ (t.rq c).online = (s.rq c).online) (R : Int) :
    beyond R t = beyond R s := by
  unfold beyond Ledger.total
  refine Finset.sum_congr rfl fun c _ => ?_
  unfold RtRq.beyond
  rw [(hrq c).1, (hrq c).2]

/-- What holds while somebody has the lock depends on the runtimes and on who is online. -/
theorem Phase.congr (hrq : ∀ c, (t.rq c).rtRuntime = (s.rq c).rtRuntime ∧ (t.rq c).online = (s.rq c).online) {holder : Holder n}
    (h : Phase R s holder) : Phase R t holder := by
  cases holder with
  | free => exact (beyond_congr hrq R).trans h
  | balance cpu rest => exact ⟨(hrq cpu).2.trans h.1, (beyond_congr hrq R).trans h.2⟩
  | reclaim cpu rest want =>
    refine ⟨(hrq cpu).2.trans h.1, ?_, fun hwant c hrest hne honline => ?_⟩
    · rw [beyond_congr hrq R, (hrq cpu).1]
      exact h.2.1
    · rw [(hrq c).1]
      exact h.2.2 hwant c hrest hne ((hrq c).2.symm.trans honline)

/-- Only times and `rt_throttled` change, and nothing of a CPU that is down is throttled. -/
theorem Inv.set_time (h : Inv R s) {f : RtRq → RtRq} (hruntime : (f (s.rq cpu)).rtRuntime = (s.rq cpu).rtRuntime)
    (honline : (f (s.rq cpu)).online = (s.rq cpu).online)
    (hthrottled : (s.rq cpu).rtRuntime = runtimeInf → (s.rq cpu).rtThrottled = false → (f (s.rq cpu)).rtThrottled = false) :
    Inv R (s.set cpu f) := by
  have hrq : ∀ c, ((s.set cpu f).rq c).rtRuntime = (s.rq c).rtRuntime ∧ ((s.set cpu f).rq c).online = (s.rq c).online := fun c => by
    by_cases hc : c = cpu
    · subst hc
      rw [set_self]
      exact ⟨hruntime, honline⟩
    · rw [set_of_ne hc]
      exact ⟨rfl, rfl⟩
  refine ⟨h.period, h.group, h.warned, fun c hoff => ?_, fun c hon => ?_, h.phase.congr hrq⟩
  · have hc := h.offline c ((hrq c).2.symm.trans hoff)
    refine ⟨(hrq c).1.trans hc.1, ?_⟩
    by_cases he : c = cpu
    · subst he
      rw [set_self]
      exact hthrottled hc.1 hc.2
    · rw [set_of_ne he]
      exact hc.2
  · rw [(hrq c).1]
    exact h.bounds c ((hrq c).2.symm.trans hon)

/-- Charging time changes no runtime. -/
theorem charge_inv (h : Inv R s) (deltaExec : Nat) : Inv R (s.set cpu fun rq => charge rq deltaExec) := by
  unfold charge
  refine h.set_time ?_ ?_ fun _ hthrottled => ?_
  · split <;> rfl
  · split <;> rfl
  · split <;> exact hthrottled

/-- Throttling changes no runtime, and an offline queue is not throttled. -/
theorem exceeded_inv (h : Inv R s) : Inv R (s.set cpu (exceeded s.rtRuntime)) := by
  unfold exceeded
  refine h.set_time ?_ ?_ fun hinf hthrottled => ?_
  · split
    · rfl
    · split <;> rfl
  · split
    · rfl
    · split <;> rfl
  · rw [if_pos (Or.inr (Or.inl hinf))]
    exact hthrottled

/-- The period timer changes no runtime. -/
theorem replenish_inv (h : Inv R s) (overrun : Nat) : Inv R (s.set cpu (replenish overrun)) := by
  refine h.set_time rfl rfl fun _ hthrottled => ?_
  unfold replenish
  dsimp only
  rw [hthrottled, Bool.false_and]

/-! ## Borrowing -/

/-- Nobody lends more than it has, and who borrows does not come below nothing. -/
theorem loan_bounds {rtPeriod : Int} (hperiod : 0 ≤ rtPeriod) (weight : Nat) {rq iter : RtRq}
    (hrq : 0 ≤ rq.rtRuntime) (hspare : 0 < iter.rtRuntime - iter.rtTime) :
    loan rtPeriod weight rq iter ≤ iter.rtRuntime ∧ 0 ≤ rq.rtRuntime + loan rtPeriod weight rq iter := by
  have hle : (iter.rtRuntime - iter.rtTime) / weight ≤ iter.rtRuntime - iter.rtTime :=
    Int.ediv_le_self _ hspare.le
  have hnonneg : 0 ≤ (iter.rtRuntime - iter.rtTime) / weight := Int.ediv_nonneg hspare.le (Int.natCast_nonneg _)
  unfold loan
  dsimp only
  split <;> omega

/-- Runtime goes from one CPU that is online to another. -/
theorem Inv.transfer (hR : 0 ≤ R) (h : Inv R s) (hi : (s.rq i).online = true) (hcpu : (s.rq cpu).online = true) (hne : i ≠ cpu)
    (hsum : beyond R s = 0) {d : Int} (hlender : d ≤ (s.rq i).rtRuntime) (hborrower : 0 ≤ (s.rq cpu).rtRuntime + d)
    (rest : List (Fin n)) : Inv R { (s.add i (-d)).add cpu d with holder := .balance cpu rest } := by
  have honline : ∀ c, (((s.add i (-d)).add cpu d).rq c).online = (s.rq c).online := fun c => by simp
  have hsum' : beyond R ((s.add i (-d)).add cpu d) = 0 := by
    rw [beyond_add R _ (by simpa using hcpu), beyond_add R s hi]
    omega
  have hnonneg : ∀ c, (((s.add i (-d)).add cpu d).rq c).online = true → 0 ≤ (((s.add i (-d)).add cpu d).rq c).rtRuntime :=
    fun c hc => by
      by_cases hcc : c = cpu
      · subst hcc
        rw [add_self, add_of_ne hne.symm]
        exact hborrower
      · rw [add_of_ne hcc]
        by_cases hci : c = i
        · subst hci
          rw [add_self]
          omega
        · rw [add_of_ne hci]
          exact (h.bounds c ((honline c).symm.trans hc)).1
  refine ⟨h.period, h.group, h.warned, fun c hc => ?_, fun c hc => ⟨hnonneg c hc, ?_⟩, (honline cpu).trans hcpu, hsum'⟩
  · have hoff : (s.rq c).online = false := (honline c).symm.trans hc
    have hci : c ≠ i := fun he => absurd (he ▸ hi) (Bool.eq_false_iff.1 hoff)
    have hcc : c ≠ cpu := fun he => absurd (he ▸ hcpu) (Bool.eq_false_iff.1 hoff)
    dsimp only
    rw [add_of_ne hcc, add_of_ne hci]
    exact h.offline c hoff
  · exact runtime_le hR (Finset.mem_univ c) hnonneg hc hsum'.le

/-- What `do_balance_runtime` takes from one queue it gives to its own. -/
theorem balanceOne_inv (hR : 0 ≤ R) (h : Inv R s) {rest rest' : List (Fin n)} (hholder : s.holder = .balance cpu rest') :
    Inv R (balanceOne s cpu i rest) := by
  have hphase : Phase R s (.balance cpu rest') := hholder ▸ h.phase
  obtain ⟨hcpu, hsum⟩ := hphase
  unfold balanceOne
  split
  · exact ⟨h.period, h.group, h.warned, h.offline, h.bounds, hcpu, hsum⟩
  · rename_i hskip
    obtain ⟨hne, hlimited, hspare⟩ : i ≠ cpu ∧ (s.rq i).rtRuntime ≠ runtimeInf ∧ ¬(s.rq i).rtRuntime - (s.rq i).rtTime ≤ 0 := by
      simpa only [not_or] using hskip
    obtain ⟨hlender, hborrower⟩ := loan_bounds h.period n (h.bounds cpu hcpu).1 (not_le.1 hspare)
    exact h.transfer hR (h.online hlimited) hcpu hne hsum hlender hborrower _

/-! ## Taking back -/

/-- Runtime is taken from a CPU that is online, or given to it. -/
theorem Inv.takeBack (h : Inv R s) (hi : (s.rq i).online = true) (hne : i ≠ cpu) {want diff : Int} {rest rest' : List (Fin n)}
    (hphase : Phase R s (.reclaim cpu rest want)) (hle : diff ≤ (s.rq i).rtRuntime) (hbound : (s.rq i).rtRuntime - diff ≤ n * R)
    (hvisited : want - diff ≠ 0 → ∀ c, c ∉ rest' → c ≠ cpu → (s.rq c).online = true →
      0 < want - diff ∧ ((s.add i (-diff)).rq c).rtRuntime = 0) :
    Inv R { s.add i (-diff) with holder := .reclaim cpu rest' (want - diff) } := by
  obtain ⟨hcpu, hsum, _⟩ := hphase
  have honline : ∀ c, ((s.add i (-diff)).rq c).online = (s.rq c).online := fun c => by simp
  refine ⟨h.period, h.group, h.warned, fun c hc => ?_, fun c hc => ?_, (honline cpu).trans hcpu, ?_,
    fun hwant c hrest hc hon => hvisited hwant c hrest hc ((honline c).symm.trans hon)⟩
  · have hoff : (s.rq c).online = false := (honline c).symm.trans hc
    have hci : c ≠ i := fun he => absurd (he ▸ hi) (Bool.eq_false_iff.1 hoff)
    dsimp only
    rw [add_of_ne hci]
    exact h.offline c hoff
  · by_cases hci : c = i
    · subst hci
      dsimp only
      rw [add_self]
      exact ⟨by omega, by omega⟩
    · dsimp only
      rw [add_of_ne hci]
      exact h.bounds c ((honline c).symm.trans hc)
  · show beyond R (s.add i (-diff)) = _
    rw [beyond_add R s hi, hsum]
    dsimp only
    rw [add_of_ne hne.symm]
    omega

/-- What is still wanted shrinks by what is taken from one queue; what is owed is given to the first. -/
theorem reclaimOne_inv (hR : 0 ≤ R) (hfits : n * R < runtimeInf) (h : Inv R s) {rest : List (Fin n)} {want : Int}
    (hholder : s.holder = .reclaim cpu (i :: rest) want) : Inv R (reclaimOne s cpu i rest want) := by
  have hphase : Phase R s (.reclaim cpu (i :: rest) want) := hholder ▸ h.phase
  obtain ⟨hcpu, hsum, hvisited⟩ := hphase
  unfold reclaimOne
  split
  · rename_i hskip
    refine ⟨h.period, h.group, h.warned, h.offline, h.bounds, hcpu, hsum, fun hwant c hrest hne honline => ?_⟩
    refine hvisited hwant c (fun hmem => ?_) hne honline
    rcases List.mem_cons.1 hmem with rfl | hmem
    · exact hskip.elim hne (h.limited hfits honline)
    · exact hrest hmem
  · rename_i hskip
    obtain ⟨hne, hlimited⟩ : i ≠ cpu ∧ (s.rq i).rtRuntime ≠ runtimeInf := not_or.1 hskip
    have hi : (s.rq i).online = true := h.online hlimited
    obtain ⟨hnonneg, hle⟩ := h.bounds i hi
    dsimp only
    by_cases hpos : 0 < want
    · rw [if_pos hpos]
      refine h.takeBack hi hne ⟨hcpu, hsum, hvisited⟩ (min_le_left ..) (by omega) fun hleft c hrest hc hon => ?_
      -- it had less than is wanted, and has nothing now
      rw [if_neg hleft] at hrest
      refine ⟨by omega, ?_⟩
      by_cases hci : c = i
      · subst hci
        rw [add_self]
        omega
      · rw [add_of_ne hci]
        exact (hvisited hpos.ne' c (fun hmem => (List.mem_cons.1 hmem).elim hci hrest) hc hon).2
    · rw [if_neg hpos]
      refine h.takeBack hi hne ⟨hcpu, hsum, hvisited⟩ (by omega) ?_ fun hleft => absurd (sub_self want) hleft
      -- the rest of the domain is even again
      have hi' : ((s.add i (-want)).rq i).online = true := by simpa using hi
      have hothers := beyond_erase R (s.add i (-want)) cpu
      rw [beyond_add R s hi, add_of_ne hne.symm, beyond_of_online hcpu] at hothers
      have hle := runtime_le hR (Finset.mem_erase.2 ⟨hne, Finset.mem_univ i⟩) (fun c hc => ?_) hi' (by omega)
      · rw [add_self] at hle
        omega
      · by_cases hci : c = i
        · subst hci
          rw [add_self]
          omega
        · rw [add_of_ne hci] at hc ⊢
          exact (h.bounds c hc).1

/-- At the end of the loop nothing is wanted. -/
theorem want_eq_zero (hR : 0 ≤ R) {want : Int} (hphase : Phase R s (.reclaim cpu [] want)) : want = 0 := by
  obtain ⟨hcpu, hsum, hvisited⟩ := hphase
  have hothers := beyond_erase R s cpu
  rw [hsum, beyond_of_online hcpu] at hothers
  by_contra hwant
  have hnone : ∀ c ∈ Finset.univ.erase cpu, (s.rq c).beyond R ≤ 0 ∧ (want < 0 → (s.rq c).beyond R = 0) := fun c hc => by
    unfold RtRq.beyond
    split
    · obtain ⟨hpos, hzero⟩ := hvisited hwant c List.not_mem_nil (Finset.ne_of_mem_erase hc) ‹_›
      exact ⟨by omega, fun hneg => absurd hneg (not_lt.2 hpos.le)⟩
    · exact ⟨le_refl _, fun _ => rfl⟩
  rcases lt_or_gt_of_ne hwant with hneg | hpos
  · rw [Finset.sum_eq_zero fun c hc => (hnone c hc).2 hneg] at hothers
    omega
  · have hle := Finset.sum_nonpos fun c hc => (hnone c hc).1
    omega

/-- A CPU that has its own runtime, or has it back, goes down. -/
theorem balanced_inv (h : Inv R s) (hcpu : (s.rq cpu).online = true) (hsum : beyond R s = (s.rq cpu).rtRuntime - R) :
    Inv R (balanced s cpu) := by
  unfold balanced
  refine ⟨h.period, h.group, h.warned, fun c hc => ?_, fun c hc => ?_, ?_⟩
  · dsimp only at hc ⊢
    by_cases hcc : c = cpu
    · subst hcc
      rw [set_self]
      exact ⟨rfl, rfl⟩
    · rw [set_of_ne hcc] at hc ⊢
      exact h.offline c hc
  · dsimp only at hc ⊢
    by_cases hcc : c = cpu
    · subst hcc
      rw [set_self] at hc
      exact absurd hc Bool.false_ne_true
    · rw [set_of_ne hcc] at hc ⊢
      exact h.bounds c hc
  · have heven : beyond R (s.set cpu fun rq => { rq with rtRuntime := runtimeInf, rtThrottled := false, online := false }) = 0 := by
      rw [beyond_set, hsum, beyond_of_online hcpu]
      unfold RtRq.beyond
      simp
    exact heven

/-- A round of whichever loop holds the lock. -/
theorem loop_inv (hR : 0 ≤ R) (hfits : n * R < runtimeInf) (h : Inv R s) : Inv R (loop s) := by
  have hphase := h.phase
  unfold loop
  split
  · exact h
  · rename_i hholder
    rw [hholder] at hphase
    exact ⟨h.period, h.group, h.warned, h.offline, h.bounds, hphase.2⟩
  · exact balanceOne_inv hR h ‹_›
  · rename_i hholder
    rw [hholder] at hphase
    obtain rfl := want_eq_zero hR hphase
    refine balanced_inv ⟨h.period, h.group, ?_, h.offline, h.bounds, h.phase⟩ hphase.1 (hphase.2.1.trans (add_zero _))
    simpa using h.warned
  · exact reclaimOne_inv hR hfits h ‹_›

/-- What the queue that goes offline has lent or borrowed is left to the loop. -/
theorem disable_inv (hfits : n * R < runtimeInf) (h : Inv R s) (hholder : s.holder = .free) : Inv R (disableRuntime s cpu) := by
  have hphase := h.phase
  rw [hholder] at hphase
  have hsum : beyond R s = 0 := hphase
  unfold disableRuntime
  split
  · exact h
  · rename_i hcpu
    have hcpu := not_not.1 hcpu
    split
    · rename_i hown
      have hown := (hown.resolve_left (h.limited hfits hcpu)).trans h.group
      refine balanced_inv h hcpu (hsum.trans ?_)
      rw [hown, sub_self]
    · refine ⟨h.period, h.group, h.warned, h.offline, h.bounds, hcpu, hsum.trans ?_, fun _ c hc => ?_⟩
      · dsimp only
        rw [h.group]
        omega
      · exact absurd (List.mem_finRange c) hc

/-- The queue that comes online has the runtime of the group. -/
theorem enable_inv (hR : 0 ≤ R) (h : Inv R s) (hholder : s.holder = .free) : Inv R (enableRuntime s cpu) := by
  have hphase := h.phase
  rw [hholder] at hphase
  have hsum : beyond R s = 0 := hphase
  unfold enableRuntime
  split
  · exact h
  · rename_i hcpu
    refine ⟨h.period, h.group, h.warned, fun c hc => ?_, fun c hc => ?_, ?_⟩
    · by_cases hcc : c = cpu
      · subst hcc
        rw [set_self] at hc
        exact absurd hc.symm Bool.false_ne_true
      · rw [set_of_ne hcc] at hc ⊢
        exact h.offline c hc
    · by_cases hcc : c = cpu
      · subst hcc
        rw [set_self]
        dsimp only
        rw [h.group]
        exact ⟨hR, le_mul_of_one_le_left hR (by exact_mod_cast c.pos)⟩
      · rw [set_of_ne hcc] at hc ⊢
        exact h.bounds c hc
    · rw [set_holder, hholder]
      show beyond R (s.set cpu _) = 0
      rw [beyond_set, hsum]
      unfold RtRq.beyond
      simp [hcpu, h.group]

/-- The loop starts with nothing taken. -/
theorem beginBalance_inv (h : Inv R s) (hholder : s.holder = .free) : Inv R (beginBalance s cpu) := by
  have hphase := h.phase
  rw [hholder] at hphase
  unfold beginBalance
  split
  · exact h
  · exact ⟨h.period, h.group, h.warned, h.offline, h.bounds, h.online ‹_›, hphase⟩

/-! ## Runs -/

/-- A section that needs the lock waits until it is free. -/
theorem whenFree_inv (h : Inv R s) (ht : s.holder = .free → Inv R t) : Inv R (whenFree s t) := by
  unfold whenFree
  split
  · exact ht ‹_›
  · exact h

/-- Every section keeps the invariant. -/
theorem next_inv (hR : 0 ≤ R) (hfits : n * R < runtimeInf) (h : Inv R s) (act : Act n) : Inv R (next s act) := by
  cases act with
  | charge cpu deltaExec => exact charge_inv h deltaExec
  | exceeded cpu => exact exceeded_inv h
  | replenish cpu overrun => exact replenish_inv h overrun
  | beginBalance cpu => exact whenFree_inv h (beginBalance_inv h)
  | disable cpu => exact whenFree_inv h (disable_inv hfits h)
  | enable cpu => exact whenFree_inv h (enable_inv hR h)
  | loop => exact loop_inv hR hfits h

/-- A run keeps the invariant. -/
theorem run_inv (hR : 0 ≤ R) (hfits : n * R < runtimeInf) (h : Inv R s) (acts : List (Act n)) : Inv R (run s acts) := by
  induction acts generalizing s with
  | nil => exact h
  | cons act acts ih => exact ih (next_inv hR hfits h act)

end OsLab.RtRuntime
