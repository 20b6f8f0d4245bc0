import OsLab.CfsQuota
import OsLab.Lib.Inherit
import OsLab.Lemmas.TaskGroupTree
import OsLab.Lemmas.TaskGroupWalk
import Mathlib.Order.Bounds.Basic

/-!
# What is handed down

The walk solves one equation for each group, with the value of the parent on the right. From the equations alone the value of a
group is the least of the limits on its path (`least_of_solves`).
-/

namespace OsLab.CfsQuota

open TaskGroup Descend

variable {G : Type} {dfl : Bool} {root tg : G} {s s' : State G} {d : CfsSchedulableData G} {fuel : Nat} {T : Groups G}
  {norm : G → Nat} {hq : G → Int}

/-- The value of a group, by the limits and the value of its parent; nothing if the group has to be refused. -/
def handDown (dfl : Bool) (parent : G → Option G) (norm : G → Nat) (tg : G) (hq : G → Int) : Option Int :=
  match parent tg with
  | none => some (-1)
  | some p =>
    if norm tg = runtimeInf then some (hq p)
    else if hq p = -1 then some (norm tg)
    else if dfl then some (min (norm tg) (hq p))
    else if hq p < norm tg then none
    else some (norm tg)

/-- A limit is a signed word. -/
def Fits (norm : G → Nat) (g : G) : Prop := norm g = runtimeInf ∨ norm g < 2 ^ 63

theorem toInt_norm {g : G} (h : norm g < 2 ^ 63) : Word.toInt (norm g) = norm g ∧ Word.toInt (norm g) ≠ -1 := by
  rw [Word.toInt_of_lt h]
  exact ⟨rfl, by omega⟩

/-- The visitor sets what is handed down, or refuses. -/
theorem tgCfsSchedulableDown_eq [DecidableEq G] (hfits : Fits (normalizeCfsQuota s d) tg) (hq : G → Int) :
    tgCfsSchedulableDown dfl s d tg hq = assign (handDown dfl s.groups.parent (normalizeCfsQuota s d)) (-22) tg hq := by
  unfold tgCfsSchedulableDown assign handDown
  cases s.groups.parent tg with
  | none => rfl
  | some p =>
    dsimp only
    by_cases hinf : normalizeCfsQuota s d tg = runtimeInf
    · have hminus : Word.toInt runtimeInf = -1 := rfl
      simp only [hinf, hminus, if_true, ite_self]
    · obtain ⟨heq, hne⟩ := toInt_norm (hfits.resolve_left hinf)
      rw [heq] at hne
      simp only [heq, hinf, if_false, if_neg hne]
      by_cases hp : hq p = -1
      · simp [hp]
      · cases dfl
        · by_cases hlt : hq p < normalizeCfsQuota s d tg <;> simp [hp, hlt]
        · simp [hp]

/-! ## The equations -/

/-- The limits on the path from the root, which has none, to a group. -/
def limits (T : Groups G) (root : G) (norm : G → Nat) (g : G) : Set Int :=
  {r | ∃ a, Relation.ReflTransGen (ChildOf T.children) a g ∧ a ≠ root ∧ norm a ≠ runtimeInf ∧ r = norm a}

/-- The least of some limits, -1 if there are none. -/
def Least (S : Set Int) (q : Int) : Prop := S = ∅ ∧ q = -1 ∨ IsLeast S q

/-- A quota that a group is limited to is not negative. -/
theorem limits_nonneg {g : G} {r : Int} (h : r ∈ limits T root norm g) : 0 ≤ r := by
  obtain ⟨a, -, -, -, rfl⟩ := h
  exact Int.natCast_nonneg _

/-- The path to a child is the path to its parent, and the child. -/
theorem limits_child (hlinked : Linked T) {g c : G} (hc : c ∈ T.children g) (hroot : c ≠ root) :
    limits T root norm c = if norm c = runtimeInf then limits T root norm g else insert (norm c : Int) (limits T root norm g) := by
  have hpath : ∀ a, Relation.ReflTransGen (ChildOf T.children) a c ↔ a = c ∨ Relation.ReflTransGen (ChildOf T.children) a g :=
    fun a => by
    constructor
    · intro h
      rcases Relation.ReflTransGen.cases_tail h with heq | ⟨p, hp, hpc⟩
      · exact .inl heq.symm
      · exact .inr (hlinked.same_parent p g c hpc hc ▸ hp)
    · rintro (rfl | h)
      · exact .refl
      · exact h.tail hc
  ext r
  split
  · next hinf =>
    constructor
    · rintro ⟨a, ha, har, hlimit, hr⟩
      rcases (hpath a).1 ha with rfl | ha
      · exact absurd hinf hlimit
      · exact ⟨a, ha, har, hlimit, hr⟩
    · rintro ⟨a, ha, hrest⟩
      exact ⟨a, (hpath a).2 (.inr ha), hrest⟩
  · next hlimited =>
    constructor
    · rintro ⟨a, ha, har, hlimit, hr⟩
      rcases (hpath a).1 ha with rfl | ha
      · exact .inl hr
      · exact .inr ⟨a, ha, har, hlimit, hr⟩
    · rintro (hr | ⟨a, ha, hrest⟩)
      · exact ⟨c, .refl, hroot, hlimited, hr⟩
      · exact ⟨a, (hpath a).2 (.inr ha), hrest⟩

/-- One more limit. -/
theorem Least.insert {S : Set Int} {q : Int} {n : Nat} (h : Least S q) (hS : ∀ r ∈ S, 0 ≤ r) :
    Least (insert (n : Int) S) (if q = -1 then n else min n q) := by
  rcases h with ⟨rfl, rfl⟩ | hleast
  · right
    simp
  · have hq : q ≠ -1 := by
      have := hS q hleast.1
      omega
    rw [if_neg hq]
    exact .inr (hleast.insert _)

/-- Where the equations hold along the path to a group, its value is the least limit on the path. -/
theorem least_of_solves (hlinked : Linked T) (hparent : T.parent root = none) {g : G}
    (hg : Relation.ReflTransGen (ChildOf T.children) root g)
    (hsolves : ∀ a, Relation.ReflTransGen (ChildOf T.children) a g → Solves (handDown dfl T.parent norm) hq a) :
    Least (limits T root norm g) (hq g) := by
  induction hg with
  | refl =>
    have hnone : limits T root norm root = ∅ := Set.eq_empty_of_forall_notMem fun r hr => by
      obtain ⟨a, ha, har, -⟩ := hr
      rcases Relation.ReflTransGen.cases_tail ha with heq | ⟨p, -, hp⟩
      · exact har heq.symm
      · rw [hlinked.parent p root hp] at hparent
        cases hparent
    have hroot := hsolves root .refl
    rw [Solves, handDown, hparent] at hroot
    exact .inl ⟨hnone, (Option.some.inj hroot).symm⟩
  | @tail p c _ hc ih =>
    have hne : c ≠ root := fun heq => by
      rw [← heq, hlinked.parent p c hc] at hparent
      cases hparent
    have hp := ih fun a ha => hsolves a (ha.tail hc)
    have heq := hsolves c .refl
    rw [Solves, handDown, hlinked.parent p c hc] at heq
    dsimp only at heq
    rw [limits_child hlinked hc hne]
    split at heq
    · next hinf =>
      rw [if_pos hinf, ← Option.some.inj heq]
      exact hp
    · next hlimited =>
      rw [if_neg hlimited]
      have hinsert := hp.insert (n := norm c) fun r hr => limits_nonneg hr
      split at heq
      · next hfree =>
        rw [if_pos hfree] at hinsert
        rwa [← Option.some.inj heq]
      · next hbound =>
        rw [if_neg hbound] at hinsert
        split at heq
        · rwa [← Option.some.inj heq]
        · split at heq
          · cases heq
          · next hle =>
            rw [min_eq_left (not_lt.1 hle)] at hinsert
            rwa [← Option.some.inj heq]

/-- On the first hierarchy the limit of a group is the least on its path. -/
theorem limit_le_of_solves (hlinked : Linked T) (hparent : T.parent root = none) {a g : G}
    (hg : Relation.ReflTransGen (ChildOf T.children) root g)
    (hsolves : ∀ a, Relation.ReflTransGen (ChildOf T.children) a g → Solves (handDown false T.parent norm) hq a)
    (hroot : g ≠ root) (hlimited : norm g ≠ runtimeInf) (ha : Relation.ReflTransGen (ChildOf T.children) a g) (haroot : a ≠ root)
    (halimited : norm a ≠ runtimeInf) : norm g ≤ norm a := by
  have hmem : (norm a : Int) ∈ limits T root norm g := ⟨a, ha, haroot, halimited, rfl⟩
  have hleast : hq g ≤ norm a := by
    rcases least_of_solves hlinked hparent hg hsolves with ⟨hempty, -⟩ | hleast
    · rw [hempty] at hmem
      cases hmem
    · exact hleast.2 hmem
  have hown : hq g = norm g := by
    obtain ⟨p, -, hp⟩ := (Relation.ReflTransGen.cases_tail hg).resolve_left hroot
    have heq := hsolves g .refl
    rw [Solves, handDown, hlinked.parent p g hp] at heq
    dsimp only at heq
    rw [if_neg hlimited] at heq
    split at heq
    · exact (Option.some.inj heq).symm
    · rw [if_neg Bool.false_ne_true] at heq
      split at heq
      · cases heq
      · exact (Option.some.inj heq).symm
  omega

/-- On the second hierarchy no group is refused. -/
theorem handDown_ne_none {parent : G → Option G} : handDown true parent norm tg hq ≠ none := by
  unfold handDown
  split
  · simp
  · split
    · simp
    · split <;> simp

/-- A group that is refused has a lower limit above it, if the equations hold there. -/
theorem lower_above_of_refused (hlinked : Linked T) (hparent : T.parent root = none) {x : G}
    (hx : Relation.ReflTransGen (ChildOf T.children) root x) {seen : Set G} (hneeds : ∀ y ∈ (T.parent x).toList, y ∈ seen)
    (hclosed : ∀ y ∈ seen, ∀ z ∈ (T.parent y).toList, z ∈ seen) (hsolves : ∀ y ∈ seen, Solves (handDown dfl T.parent norm) hq y)
    (hrefused : handDown dfl T.parent norm x hq = none) :
    x ≠ root ∧ norm x ≠ runtimeInf ∧
      ∃ a, Relation.ReflTransGen (ChildOf T.children) a x ∧ a ≠ root ∧ norm a ≠ runtimeInf ∧ norm a < norm x := by
  have hroot : x ≠ root := fun heq => by
    rw [handDown, heq, hparent] at hrefused
    cases hrefused
  obtain ⟨p, hp, hc⟩ := (Relation.ReflTransGen.cases_tail hx).resolve_left hroot
  have hup : T.parent x = some p := hlinked.parent p x hc
  have hpseen : p ∈ seen := hneeds p (by rw [hup]; exact List.mem_singleton.2 rfl)
  -- all that is above the parent has been seen
  have habove : ∀ {a}, Relation.ReflTransGen (ChildOf T.children) a p → a ∈ seen := fun ha => by
    induction ha using Relation.ReflTransGen.head_induction_on with
    | refl => exact hpseen
    | head hac _ ih => exact hclosed _ ih _ (by rw [hlinked.parent _ _ hac]; exact List.mem_singleton.2 rfl)
  have hleast := least_of_solves hlinked hparent hp fun a ha => hsolves a (habove ha)
  rw [handDown, hup] at hrefused
  dsimp only at hrefused
  split at hrefused
  · cases hrefused
  next hlimited =>
  split at hrefused
  · cases hrefused
  next hbound =>
  split at hrefused
  · cases hrefused
  split at hrefused
  · next hlt =>
    rcases hleast with ⟨-, hfree⟩ | hleast
    · exact absurd hfree hbound
    · obtain ⟨a, ha, har, halimited, heq⟩ := hleast.1
      exact ⟨hroot, hlimited, a, ha.tail hc, har, halimited, by omega⟩
  · cases hrefused

end OsLab.CfsQuota
