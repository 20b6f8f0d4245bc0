import OsLab.Lemmas.CfsQuotaInv

/-!
# The quotas between the acts

Every act leaves the equations of `handDown` solvable, and solved by `hierarchical_quota` unless `stale` says otherwise.
-/

namespace OsLab.CfsQuota

open TaskGroup Descend

variable {G : Type} {dfl : Bool} {root tg parent : G} {s s' : State G} {d : CfsSchedulableData G} {fuel : Nat}

/-- The limit of a group as the walk computes it. -/
def State.norm (s : State G) (g : G) : Nat :=
  if tgGetCfsQuota s g = runtimeInf then runtimeInf else toRatio (tgGetCfsPeriod s g) (tgGetCfsQuota s g)

/-- No limit, or one that `tg_set_bandwidth` has let pass. -/
def Ranged (period quota : Nat) : Prop :=
  quota = runtimeInf ∨ ∃ p q, period = p * 1000 ∧ quota = q * 1000 ∧ 1000 ≤ p ∧ q ≤ maxBwRuntimeUs

/-- What every act keeps. -/
structure Inv (dfl : Bool) (root : G) (s : State G) : Prop where
  tree : Tree s.groups root
  rootParent : s.groups.parent root = none
  ranged : ∀ g, Ranged (s.period g) (s.quota g)
  once : (s.pending.map Prod.fst).Nodup
  pending : ∀ p ∈ s.pending, p.1 ∉ s.groups.taskGroups ∧ p.2 ∈ s.groups.taskGroups ∧ s.quota p.1 = runtimeInf
  copied : s.stale = false → ∀ p ∈ s.pending, s.hierarchicalQuota p.1 = s.hierarchicalQuota p.2
  solved : s.stale = false → ∀ g ∈ s.groups.taskGroups, Solves (handDown dfl s.groups.parent s.norm) s.hierarchicalQuota g
  solvable : ∃ v, ∀ g ∈ s.groups.taskGroups, Solves (handDown dfl s.groups.parent s.norm) v g

/-! ## Limits -/

theorem State.norm_congr {g : G} (hperiod : s'.period g = s.period g) (hquota : s'.quota g = s.quota g) : s'.norm g = s.norm g := by
  unfold State.norm tgGetCfsQuota tgGetCfsPeriod
  rw [hperiod, hquota]

/-- A group without a quota has the share `RUNTIME_INF`. -/
theorem State.norm_of_inf {g : G} (h : s.quota g = runtimeInf) : s.norm g = runtimeInf := by
  unfold State.norm tgGetCfsQuota
  rw [if_pos h, if_pos rfl]

/-- Nothing is shifted out: a limit is the share of a CPU, rounded down. -/
theorem Ranged.norm_eq {g : G} (h : Ranged (s.period g) (s.quota g)) (hlimited : s.quota g ≠ runtimeInf) :
    s.norm g = s.quota g * 2 ^ 20 / s.period g ∧ s.norm g < 2 ^ 63 := by
  obtain ⟨p, q, hp, hq, hple, hqle⟩ := h.resolve_left hlimited
  unfold maxBwRuntimeUs at hqle
  have hinf : q ≠ runtimeInf := by
    unfold runtimeInf
    omega
  have hnorm : s.norm g = q * 2 ^ 20 / p := by
    unfold State.norm tgGetCfsQuota tgGetCfsPeriod toRatio
    rw [if_neg hlimited, hq, hp, Nat.mul_div_cancel q (by decide), Nat.mul_div_cancel p (by decide), if_neg hinf, if_neg hinf,
      if_neg (by omega), Nat.mod_eq_of_lt (by omega)]
  refine ⟨?_, ?_⟩
  · rw [hnorm, hp, hq, Nat.mul_right_comm q 1000, Nat.mul_div_mul_right _ _ (by decide)]
  · rw [hnorm]
    exact Nat.div_lt_of_lt_mul (by omega)

/-- Within the range, no quota has a share that looks unlimited. -/
theorem Ranged.norm_eq_inf {g : G} (h : Ranged (s.period g) (s.quota g)) : s.norm g = runtimeInf ↔ s.quota g = runtimeInf := by
  refine ⟨fun hnorm => ?_, State.norm_of_inf⟩
  by_contra hlimited
  have hlt := (h.norm_eq hlimited).2
  rw [hnorm] at hlt
  exact absurd hlt (by decide)

/-- Within the range, the share fits the arithmetic of the walk. -/
theorem Ranged.fits {g : G} (h : Ranged (s.period g) (s.quota g)) : Fits s.norm g := by
  by_cases hinf : s.quota g = runtimeInf
  · exact .inl (State.norm_of_inf hinf)
  · exact .inr (h.norm_eq hinf).2

/-! ## The walk -/

/-- The equation of a group is about the group and its parent. -/
theorem handDown_congr {parent parent' : G → Option G} {norm norm' : G → Nat} {hq hq' : G → Int} {g : G}
    (hparent : parent' g = parent g) (hnorm : norm' g = norm g) (hup : ∀ p, parent g = some p → hq' p = hq p) :
    handDown dfl parent' norm' g hq' = handDown dfl parent norm g hq := by
  unfold handDown
  rw [hparent, hnorm]
  cases hp : parent g with
  | none => rfl
  | some p => simp only [hup p hp]

/-- What a group is handed down depends on the group and its parent. -/
theorem solves_congr {parent parent' : G → Option G} {norm norm' : G → Nat} {hq hq' : G → Int} {g : G}
    (h : Solves (handDown dfl parent norm) hq g) (hparent : parent' g = parent g) (hnorm : norm' g = norm g) (hself : hq' g = hq g)
    (hup : ∀ p, parent g = some p → hq' p = hq p) : Solves (handDown dfl parent' norm') hq' g := by
  rw [Solves, handDown_congr hparent hnorm hup, hself]
  exact h

/-- At first there is the root group, without a quota. -/
theorem start_inv (dfl : Bool) (root : G) : Inv dfl root (start root) := by
  have hsolved : ∀ g ∈ [root], Solves (handDown dfl (rootOnly root).parent (start root).norm) (start root).hierarchicalQuota g :=
    fun _ _ => rfl
  exact ⟨rootOnly_tree root, rfl, fun _ => .inl rfl, List.nodup_nil, fun _ hp => absurd hp List.not_mem_nil,
    fun _ _ hp => absurd hp List.not_mem_nil, fun _ => hsolved, ⟨_, hsolved⟩⟩

variable [DecidableEq G]

/-- A walk that returns 0 has solved all equations. One that refuses has solved those of a set of groups with all that is above
them, and refuses a group below. -/
theorem Inv.walk (h : Inv dfl root s) (hfits : ∀ g, Fits (normalizeCfsQuota s d) g) {hq : G → Int} {r : (G → Int) × Int}
    (hwalk : walkTgTreeFrom s.groups fuel root (tgCfsSchedulableDown dfl s d) tgNop hq = some r) :
    (r.2 = 0 ∧ ∀ g ∈ s.groups.taskGroups, Solves (handDown dfl s.groups.parent (normalizeCfsQuota s d)) r.1 g) ∨
      (r.2 = -22 ∧ ∃ x ∈ s.groups.taskGroups, ∃ seen : Set G, (∀ y ∈ (s.groups.parent x).toList, y ∈ seen) ∧
        (∀ y ∈ seen, ∀ z ∈ (s.groups.parent y).toList, z ∈ seen) ∧
        (∀ y ∈ seen, Solves (handDown dfl s.groups.parent (normalizeCfsQuota s d)) r.1 y) ∧
        handDown dfl s.groups.parent (normalizeCfsQuota s d) x r.1 = none) := by
  obtain ⟨k, hshallow⟩ := h.tree.shallow
  have hvisitor : tgCfsSchedulableDown dfl s d = assign (handDown dfl s.groups.parent (normalizeCfsQuota s d)) (-22) := by
    funext g hq
    exact tgCfsSchedulableDown_eq (hfits g) hq
  have hr : r = visitAll (assign (handDown dfl s.groups.parent (normalizeCfsQuota s d)) (-22))
      (preorder s.groups.children k root) hq := by
    rw [hvisitor] at hwalk
    exact (eq_of_walkTgTreeFrom h.tree.linked hshallow hwalk).trans (visit_nop s.groups.children _ k root hq)
  have hmem : ∀ g, g ∈ preorder s.groups.children k root ↔ g ∈ s.groups.taskGroups := fun g =>
    hshallow.mem_preorder.trans (h.tree.listed g).symm
  have hready : ReadyOrder (fun g => (s.groups.parent g).toList) ∅ (preorder s.groups.children k root) := by
    refine readyOrder_preorder (fun g c hc y hy => ?_) fun y hy => ?_
    · rw [h.tree.linked.parent g c hc] at hy
      exact List.mem_singleton.1 hy
    · rw [h.rootParent] at hy
      cases hy
  have hneeds : ∀ (x : G) (s₁ s₂ : G → Int), (∀ y ∈ (s.groups.parent x).toList, s₁ y = s₂ y) →
      handDown dfl s.groups.parent (normalizeCfsQuota s d) x s₁ = handDown dfl s.groups.parent (normalizeCfsQuota s d) x s₂ :=
    fun x s₁ s₂ hsame => handDown_congr rfl rfl fun p hp => hsame p (by rw [hp]; exact List.mem_singleton.2 rfl)
  have hnodup := hshallow.preorder_nodup h.tree.linked.same_parent h.tree.linked.nodup
  rw [hr]
  rcases visitAll_assign hneeds (show (-22 : Int) ≠ 0 by decide) hready hnodup (fun _ _ => Set.notMem_empty _)
    (fun _ hy => hy.elim) (fun _ hy => hy.elim) (s := hq) with ⟨hzero, hall⟩ | ⟨herr, x, hx, hseen⟩
  · exact .inl ⟨hzero, fun g hg => hall g (.inr ((hmem g).2 hg))⟩
  · exact .inr ⟨herr, x, (hmem x).1 hx, hseen⟩

/-! ## The acts -/

/-- What `tg_set_bandwidth` lets pass. -/
structure InRange (periodUs quotaUs burstUs : Nat) : Prop where
  period : 1000 ≤ periodUs ∧ periodUs ≤ 1000000
  quota : quotaUs = runtimeInf ∨ 1000 ≤ quotaUs ∧ burstUs ≤ quotaUs ∧ burstUs + quotaUs ≤ maxBwRuntimeUs
  burst : burstUs ≤ (2 ^ 64 - 1) / 1000

/-- A quota in nanoseconds. -/
def askedQuota (quotaUs : Nat) : Nat := if quotaUs = runtimeInf then runtimeInf else quotaUs * 1000

/-- What the walk is given. -/
def askedData (tg : G) (periodUs quotaUs : Nat) : CfsSchedulableData G :=
  if quotaUs = runtimeInf then ⟨tg, periodUs * 1000, runtimeInf⟩ else ⟨tg, periodUs, quotaUs⟩

/-- The bandwidth of a group after the walk has been accepted. -/
def State.granted (s : State G) (tg : G) (period quota burst : Nat) (hierarchicalQuota : G → Int) : State G :=
  { s with
    period := Function.update s.period tg period
    quota := Function.update s.quota tg quota
    burst := Function.update s.burst tg burst
    hierarchicalQuota := hierarchicalQuota
    stale := decide (s.pending ≠ []) }

variable {periodUs quotaUs burstUs : Nat}

/-- A limit survives the change of units. -/
theorem InRange.units (h : InRange periodUs quotaUs burstUs) (hinf : quotaUs ≠ runtimeInf) :
    quotaUs * 1000 % 2 ^ 64 = quotaUs * 1000 ∧ quotaUs * 1000 ≠ runtimeInf ∧ quotaUs ≤ maxBwRuntimeUs := by
  have hquota := h.quota.resolve_left hinf
  unfold maxBwRuntimeUs at hquota ⊢
  unfold runtimeInf
  omega

/-- What passes the checks of `tg_set_bandwidth` is within the range. -/
theorem InRange.ranged (h : InRange periodUs quotaUs burstUs) : Ranged (periodUs * 1000) (askedQuota quotaUs) := by
  unfold askedQuota
  by_cases hinf : quotaUs = runtimeInf
  · exact .inl (if_pos hinf)
  · exact .inr ⟨periodUs, quotaUs, rfl, if_neg hinf, h.period.1, (h.units hinf).2.2⟩

/-- The walk looks at the limits that will be. -/
theorem InRange.normalize_eq (h : InRange periodUs quotaUs burstUs) (s : State G) (tg : G) (burst : Nat) (hq : G → Int) :
    normalizeCfsQuota s (askedData tg periodUs quotaUs) = (s.granted tg (periodUs * 1000) (askedQuota quotaUs) burst hq).norm := by
  funext g
  unfold normalizeCfsQuota State.norm tgGetCfsQuota tgGetCfsPeriod State.granted askedData askedQuota
  by_cases hinf : quotaUs = runtimeInf
  · by_cases hg : g = tg
    · simp only [hg, hinf, if_true, Function.update_self]
    · simp only [hinf, if_true, if_neg hg, Function.update_of_ne hg]
  · obtain ⟨-, hne, -⟩ := h.units hinf
    by_cases hg : g = tg
    · simp only [hg, if_neg hinf, if_neg hne, if_true, Function.update_self, Nat.mul_div_cancel _ (Nat.succ_pos 999)]
    · simp only [if_neg hinf, if_neg hg, Function.update_of_ne hg]

/-- A call that lets its arguments pass is the walk, and what follows. -/
theorem InRange.tgSetCfsBandwidth_eq (h : InRange periodUs quotaUs burstUs) :
    tgSetCfsBandwidth dfl root fuel s tg periodUs quotaUs burstUs =
      (walkTgTreeFrom s.groups fuel root (tgCfsSchedulableDown dfl s (askedData tg periodUs quotaUs)) tgNop s.hierarchicalQuota).map
        fun r => if r.2 ≠ 0 then ({ s with hierarchicalQuota := r.1, stale := true }, r.2)
          else (s.granted tg (periodUs * 1000) (askedQuota quotaUs) (burstUs * 1000 % 2 ^ 64) r.1, 0) := by
  have hperiod : periodUs * 1000 % 2 ^ 64 = periodUs * 1000 := Nat.mod_eq_of_lt (by have := h.period; omega)
  unfold tgSetCfsBandwidth cfsSchedulable askedData askedQuota
  dsimp only
  by_cases hinf : quotaUs = runtimeInf
  · simp only [hperiod, if_pos hinf, ne_eq, not_true_eq_false, if_false]
    rfl
  · obtain ⟨hmod, hne, -⟩ := h.units hinf
    simp only [hperiod, hmod, if_neg hinf, ne_eq, hne, not_false_eq_true, if_true, Nat.mul_div_cancel _ (Nat.succ_pos 999)]
    rfl

/-- A call leaves everything as it is, or goes on with arguments in range. -/
theorem tgSetBandwidth_cases (dfl : Bool) (root : G) (fuel : Nat) (s : State G) (tg : G) (periodUs quotaUs burstUs : Nat) :
    tgSetBandwidth dfl root fuel s tg periodUs quotaUs burstUs = some (s, -22) ∨
      InRange periodUs quotaUs burstUs ∧
        tgSetBandwidth dfl root fuel s tg periodUs quotaUs burstUs =
          tgSetCfsBandwidth dfl root fuel s tg periodUs quotaUs burstUs := by
  unfold tgSetBandwidth
  dsimp only
  split
  · exact .inl rfl
  split
  · exact .inl rfl
  next hmax =>
  split
  · exact .inl rfl
  split
  · exact .inl rfl
  split
  · exact .inl rfl
  split
  · exact .inl rfl
  · exact .inr ⟨⟨by omega, by omega, by omega⟩, rfl⟩

/-- What passes the checks goes on to `tg_set_cfs_bandwidth`. -/
theorem InRange.tgSetBandwidth_eq (h : InRange periodUs quotaUs burstUs) (htg : tg ≠ root) :
    tgSetBandwidth dfl root fuel s tg periodUs quotaUs burstUs = tgSetCfsBandwidth dfl root fuel s tg periodUs quotaUs burstUs := by
  obtain ⟨hperiod, hquota, hburst⟩ := h
  have hmax : quotaUs = runtimeInf ∨ quotaUs ≤ 2 ^ 44 - 1 := by
    unfold maxBwRuntimeUs at hquota
    omega
  have hinf : quotaUs = runtimeInf → 1000 ≤ quotaUs := fun heq => heq ▸ (by decide)
  unfold tgSetBandwidth
  rw [if_neg htg, if_neg (by omega), if_neg (by omega), if_neg (by omega), if_neg (by unfold maxBwRuntimeUs; omega),
    if_neg (by omega)]

/-- What is granted is in range too. -/
theorem Inv.granted_ranged (h : Inv dfl root s) (hrange : InRange periodUs quotaUs burstUs) (tg : G) (burst : Nat) (hq : G → Int)
    (g : G) : Ranged ((s.granted tg (periodUs * 1000) (askedQuota quotaUs) burst hq).period g)
      ((s.granted tg (periodUs * 1000) (askedQuota quotaUs) burst hq).quota g) := by
  simp only [State.granted]
  by_cases hg : g = tg
  · subst hg
    simpa only [Function.update_self] using hrange.ranged
  · simpa only [Function.update_of_ne hg] using h.ranged g

/-- `tg_set_bandwidth` changes one group, and only if the walk accepts it. -/
theorem Inv.set (h : Inv dfl root s) {err : Int}
    (hset : tgSetBandwidth dfl root fuel s tg periodUs quotaUs burstUs = some (s', err))
    (htg : tg ∈ s.groups.taskGroups) : Inv dfl root s' := by
  rcases tgSetBandwidth_cases dfl root fuel s tg periodUs quotaUs burstUs with heq | ⟨hrange, heq⟩
  · cases heq.symm.trans hset
    exact h
  rw [heq, hrange.tgSetCfsBandwidth_eq] at hset
  obtain ⟨r, hwalk, hr⟩ := Option.map_eq_some_iff.1 hset
  have hnorm := hrange.normalize_eq s tg (burstUs * 1000 % 2 ^ 64) r.1
  have hranged := h.granted_ranged hrange tg (burstUs * 1000 % 2 ^ 64) r.1
  rcases h.walk (fun g => hnorm ▸ (hranged g).fits) hwalk with ⟨hzero, hall⟩ | ⟨herr, -⟩
  · rw [if_neg (not_not.2 hzero)] at hr
    cases hr
    rw [hnorm] at hall
    refine ⟨h.tree, h.rootParent, hranged, h.once, fun p hp => ?_, fun hstale p hp => ?_, fun _ => hall, ⟨r.1, hall⟩⟩
    · obtain ⟨hoff, hon, hinf⟩ := h.pending p hp
      refine ⟨hoff, hon, ?_⟩
      simpa only [State.granted, Function.update_of_ne (ne_of_mem_of_not_mem htg hoff).symm] using hinf
    · have hnone : s.pending = [] := not_not.1 (of_decide_eq_false hstale)
      rw [State.granted, hnone] at hp
      cases hp
  · have hne : r.2 ≠ 0 := by
      rw [herr]
      decide
    rw [if_pos hne] at hr
    cases hr
    exact ⟨h.tree, h.rootParent, h.ranged, h.once, h.pending, fun hstale => (by cases hstale), fun hstale => (by cases hstale),
      h.solvable⟩

/-- A new group is not in the tree yet. -/
theorem Inv.alloc (h : Inv dfl root s) (htg : tg ∉ s.groups.taskGroups) (hpending : ∀ p ∈ s.pending, p.1 ≠ tg)
    (hparent : parent ∈ s.groups.taskGroups) : Inv dfl root (alloc s tg parent) := by
  have hold : ∀ {g}, g ∈ s.groups.taskGroups → g ≠ tg := fun hg => ne_of_mem_of_not_mem hg htg
  have hnorm : ∀ {g}, g ∈ s.groups.taskGroups → (CfsQuota.alloc s tg parent).norm g = s.norm g := fun hg =>
    State.norm_congr (Function.update_of_ne (hold hg) ..) (Function.update_of_ne (hold hg) ..)
  refine ⟨h.tree, h.rootParent, fun g => ?_, ?_, fun p hp => ?_, fun hstale p hp => ?_, fun hstale g hg => ?_, ?_⟩
  · by_cases hg : g = tg
    · exact .inl (by simp [CfsQuota.alloc, hg])
    · simpa only [CfsQuota.alloc, Function.update_of_ne hg] using h.ranged g
  · refine List.nodup_cons.2 ⟨fun hmem => ?_, h.once⟩
    obtain ⟨p, hp, heq⟩ := List.mem_map.1 hmem
    exact hpending p hp heq
  · rcases List.mem_cons.1 hp with rfl | hp
    · exact ⟨htg, hparent, by simp [CfsQuota.alloc]⟩
    · simpa only [CfsQuota.alloc, Function.update_of_ne (hpending p hp)] using h.pending p hp
  · rcases List.mem_cons.1 hp with rfl | hp
    · simp only [CfsQuota.alloc, Function.update_self, Function.update_of_ne (hold hparent)]
    · simpa only [CfsQuota.alloc, Function.update_of_ne (hpending p hp), Function.update_of_ne (hold (h.pending p hp).2.1)] using
        h.copied hstale p hp
  · refine solves_congr (h.solved hstale g hg) rfl (hnorm hg) (Function.update_of_ne (hold hg) ..) fun p hp => ?_
    exact Function.update_of_ne (hold (h.tree.parent_mem h.rootParent hg hp)) ..
  · obtain ⟨v, hv⟩ := h.solvable
    exact ⟨v, fun g hg => solves_congr (hv g hg) rfl (hnorm hg) rfl fun _ _ => rfl⟩

/-- A group with the value of its parent comes into the tree. -/
theorem Inv.online (h : Inv dfl root s) (hpending : (tg, parent) ∈ s.pending) :
    Inv dfl root { s with groups := schedOnlineGroup s.groups tg parent, pending := s.pending.erase (tg, parent) } := by
  obtain ⟨htg, hparent, hinf⟩ := h.pending _ hpending
  have hold : ∀ {g}, g ∈ s.groups.taskGroups → g ≠ tg := fun hg => ne_of_mem_of_not_mem hg htg
  have hsame : ∀ {g}, g ∈ s.groups.taskGroups → (schedOnlineGroup s.groups tg parent).parent g = s.groups.parent g := fun hg =>
    Function.update_of_ne (hold hg) ..
  have hmem : ∀ {g}, g ∈ (schedOnlineGroup s.groups tg parent).taskGroups ↔ g ∈ s.groups.taskGroups ∨ g = tg := fun {g} => by
    simp [schedOnlineGroup]
  -- the equation of the new group, whatever solves the others
  have hnew : ∀ v : G → Int, v tg = v parent → Solves (handDown dfl (schedOnlineGroup s.groups tg parent).parent s.norm) v tg :=
    fun v hv => by
      have hup : (schedOnlineGroup s.groups tg parent).parent tg = some parent := Function.update_self ..
      rw [Solves, handDown, hup]
      dsimp only
      rw [if_pos (State.norm_of_inf hinf), hv]
  have hpend : ∀ p ∈ s.pending.erase (tg, parent), p ∈ s.pending ∧ p.1 ≠ tg := fun p hp => by
    have hnodup : s.pending.Nodup := h.once.of_map
    obtain ⟨hne, hp⟩ := hnodup.mem_erase_iff.1 hp
    exact ⟨hp, fun heq => hne (List.inj_on_of_nodup_map h.once hp hpending heq)⟩
  refine ⟨h.tree.online htg hparent, ?_, h.ranged, (List.erase_sublist.map Prod.fst).nodup h.once, fun p hp => ?_,
    fun hstale p hp => h.copied hstale p (hpend p hp).1, fun hstale g hg => ?_, ?_⟩
  · exact (hsame h.tree.root_mem).trans h.rootParent
  · obtain ⟨hp, hne⟩ := hpend p hp
    obtain ⟨hoff, hon, hpinf⟩ := h.pending p hp
    refine ⟨fun hmem' => ?_, hmem.2 (.inl hon), hpinf⟩
    exact (hmem.1 hmem').elim hoff hne
  · rcases hmem.1 hg with hg | rfl
    · exact solves_congr (h.solved hstale g hg) (hsame hg) rfl rfl fun _ _ => rfl
    · exact hnew _ (h.copied hstale _ hpending)
  · obtain ⟨v, hv⟩ := h.solvable
    refine ⟨Function.update v tg (v parent), fun g hg => ?_⟩
    rcases hmem.1 hg with hg | rfl
    · refine solves_congr (hv g hg) (hsame hg) rfl (Function.update_of_ne (hold hg) ..) fun p hp => ?_
      exact Function.update_of_ne (hold (h.tree.parent_mem h.rootParent hg hp)) ..
    · exact hnew _ (by rw [Function.update_self, Function.update_of_ne (hold hparent)])

/-- A group goes that has no children and is to get none. -/
theorem Inv.release (h : Inv dfl root s) (hroot : tg ≠ root) (hleaf : s.groups.children tg = [])
    (hpending : ∀ p ∈ s.pending, p.2 ≠ tg) : Inv dfl root { s with groups := schedReleaseGroup s.groups tg } := by
  have hmem : ∀ {g}, g ∈ (schedReleaseGroup s.groups tg).taskGroups → g ∈ s.groups.taskGroups := fun hg => List.mem_of_mem_erase hg
  refine ⟨h.tree.release hroot hleaf, h.rootParent, h.ranged, h.once, fun p hp => ?_, h.copied,
    fun hstale g hg => h.solved hstale g (hmem hg), ?_⟩
  · obtain ⟨hoff, hon, hinf⟩ := h.pending p hp
    exact ⟨fun hg => hoff (hmem hg), (List.mem_erase_of_ne (hpending p hp)).2 hon, hinf⟩
  · obtain ⟨v, hv⟩ := h.solvable
    exact ⟨v, fun g hg => hv g (hmem hg)⟩

/-! ## Runs -/

/-- Every act keeps the invariant. -/
theorem next_inv (h : Inv dfl root s) {a : Act G} (hnext : next dfl root fuel s a = some s') : Inv dfl root s' := by
  cases a with
  | set tg periodUs quotaUs burstUs =>
    obtain ⟨htg, hcall⟩ := Option.ite_none_right_eq_some.1 hnext
    obtain ⟨⟨t, err⟩, hset, rfl⟩ := Option.map_eq_some_iff.1 hcall
    exact h.set hset htg
  | alloc tg parent =>
    obtain ⟨⟨htg, hpending, hparent⟩, hsome⟩ := Option.ite_none_right_eq_some.1 hnext
    cases hsome
    exact h.alloc htg hpending hparent
  | online tg parent =>
    obtain ⟨hpending, hsome⟩ := Option.ite_none_right_eq_some.1 hnext
    cases hsome
    exact h.online hpending
  | release tg =>
    obtain ⟨⟨-, hroot, hleaf, hpending⟩, hsome⟩ := Option.ite_none_right_eq_some.1 hnext
    cases hsome
    exact h.release hroot hleaf hpending

/-- A run keeps the invariant. -/
theorem run_inv {acts : List (Act G)} (h : Inv dfl root s) (hrun : run dfl root fuel s acts = some s') : Inv dfl root s' := by
  induction acts generalizing s with
  | nil =>
    cases hrun
    exact h
  | cons a acts ih =>
    obtain ⟨t, hnext, hrest⟩ := Option.bind_eq_some_iff.1 hrun
    exact ih (next_inv h hnext) hrest

end OsLab.CfsQuota
