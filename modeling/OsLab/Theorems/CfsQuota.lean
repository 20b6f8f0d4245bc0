import OsLab.Lemmas.CfsQuotaRuns

/-!
# The quotas of nested groups

Over every order of calls of `tg_set_bandwidth` and of groups that come and go, on both hierarchies of control groups.
-/

namespace OsLab.CfsQuota

open TaskGroup Descend

variable {G : Type} {dfl : Bool} {root : G} {s : State G} {fuel : Nat}

/-- The first group is the second or above it. -/
def State.Above (s : State G) (a g : G) : Prop := Relation.ReflTransGen (ChildOf s.groups.children) a g

/-- The share of a CPU a group is limited to, in parts of 2 ^ 20 and rounded down as `to_ratio` does. -/
def State.share (s : State G) (g : G) : Nat := s.quota g * 2 ^ 20 / s.period g

/-- The shares that the group, and the groups above it but the root, are limited to. -/
def State.shares (s : State G) (root g : G) : Set Int :=
  {r | ∃ a, s.Above a g ∧ a ≠ root ∧ s.quota a ≠ runtimeInf ∧ r = s.share a}

/-- No group is given more than one above it, by shares rounded down. -/
def State.Nested (s : State G) (root : G) : Prop :=
  ∀ a g, g ∈ s.groups.taskGroups → s.Above a g → a ≠ root → g ≠ root → s.quota a ≠ runtimeInf → s.quota g ≠ runtimeInf →
    s.share g ≤ s.share a

/-- `normalize_cfs_quota` of a group with a limit. -/
theorem share_eq (hranged : ∀ g, Ranged (s.period g) (s.quota g)) {g : G} (hlimited : s.quota g ≠ runtimeInf) :
    s.norm g = s.share g := ((hranged g).norm_eq hlimited).1

/-- The walk sees the shares. -/
theorem shares_eq (hranged : ∀ g, Ranged (s.period g) (s.quota g)) (g : G) : s.shares root g = limits s.groups root s.norm g := by
  ext r
  constructor
  · rintro ⟨a, ha, hroot, hlimited, rfl⟩
    exact ⟨a, ha, hroot, fun hinf => hlimited ((hranged a).norm_eq_inf.1 hinf), by rw [share_eq hranged hlimited]⟩
  · rintro ⟨a, ha, hroot, hlimited, rfl⟩
    have hquota : s.quota a ≠ runtimeInf := fun hinf => hlimited (State.norm_of_inf hinf)
    exact ⟨a, ha, hroot, hquota, by rw [share_eq hranged hquota]⟩

/-- All that is above a group of the tree is in it. -/
theorem Above.mem {T : Groups G} (htree : Tree T root) {a g : G} (hg : g ∈ T.taskGroups)
    (ha : Relation.ReflTransGen (ChildOf T.children) a g) : a ∈ T.taskGroups := by
  by_contra hoff
  rcases Relation.ReflTransGen.cases_head ha with rfl | ⟨c, hc, -⟩
  · exact hoff hg
  · rw [ChildOf, htree.off a hoff] at hc
    cases hc

/-- The limits as the walk sees them are nested, if the equations can be solved. -/
theorem nested_of_solves {v : G → Int} {t : State G} (htree : Tree t.groups root) (hroot : t.groups.parent root = none)
    (hranged : ∀ g, Ranged (t.period g) (t.quota g))
    (hv : ∀ g ∈ t.groups.taskGroups, Solves (handDown false t.groups.parent t.norm) v g) : t.Nested root := by
  intro a g hg ha haroot hgroot halimited hglimited
  rw [← share_eq hranged halimited, ← share_eq hranged hglimited]
  exact limit_le_of_solves htree.linked hroot ((htree.listed g).1 hg) (fun b hb => hv b (Above.mem htree hg hb)) hgroot
    (fun hinf => hglimited ((hranged g).norm_eq_inf.1 hinf)) ha haroot fun hinf => halimited ((hranged a).norm_eq_inf.1 hinf)

variable [DecidableEq G]

/-- Half a CPU for a group, and four fifths of one for a group below it. -/
def twoLimits : List (Act Nat) :=
  [.alloc 1 0, .online 1 0, .alloc 2 1, .online 2 1, .set 1 100000 50000 0, .set 2 100000 80000 0]

-- a group allocated before the limit of its parent is changed keeps the old value
example : (run true 0 20 (start 0) [.alloc 1 0, .online 1 0, .alloc 2 1, .set 1 100000 50000 0, .online 2 1]).map
    (fun s => (s.hierarchicalQuota 1, s.hierarchicalQuota 2, s.stale)) = some (524288, -1, true) := by rfl

-- the refused call leaves what it has written above the group
example : (run false 0 20 (start 0) (twoLimits ++ [.set 2 100000 30000 0, .set 1 100000 20000 0])).map
    (fun s => (s.share 1, s.hierarchicalQuota 1, s.stale)) = some (524288, 209715, true) := by rfl

/-- The groups with what is asked for in the place of what the group has. -/
def State.asked (s : State G) (tg : G) (periodUs quotaUs : Nat) : State G :=
  { s with period := Function.update s.period tg (periodUs * 1000), quota := Function.update s.quota tg (askedQuota quotaUs) }

end OsLab.CfsQuota
