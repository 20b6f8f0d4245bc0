import OsLab.TaskGroup

/-!
# The groups stay a tree

A group comes in with nothing below it, and goes when nothing is below it any more.
-/

namespace OsLab.TaskGroup

open Descend

variable {G : Type} {T : Groups G} {root tg parent : G}

/-- A group is on one list. -/
theorem Linked.same_parent (h : Linked T) (g g' c : G) (hc : c ∈ T.children g) (hc' : c ∈ T.children g') : g = g' :=
  Option.some.inj ((h.parent g c hc).symm.trans (h.parent g' c hc'))

/-- What is on a list is a group of the tree. -/
theorem Tree.mem_taskGroups (h : Tree T root) {g c : G} (hc : c ∈ T.children g) : c ∈ T.taskGroups := by
  have hg : g ∈ T.taskGroups := by
    by_contra hoff
    rw [h.off g hoff] at hc
    cases hc
  exact (h.listed c).2 (((h.listed g).1 hg).tail hc)

/-- So is the root. -/
theorem Tree.root_mem (h : Tree T root) : root ∈ T.taskGroups := (h.listed root).2 .refl

/-- And what is above a group. -/
theorem Tree.parent_mem (h : Tree T root) (hroot : T.parent root = none) {g p : G} (hg : g ∈ T.taskGroups)
    (hp : T.parent g = some p) : p ∈ T.taskGroups := by
  rcases Relation.ReflTransGen.cases_tail ((h.listed g).1 hg) with rfl | ⟨q, hq, hc⟩
  · rw [hroot] at hp
    cases hp
  · obtain rfl : q = p := Option.some.inj ((h.linked.parent q g hc).symm.trans hp)
    exact (h.listed q).2 hq

/-- The root alone. -/
theorem rootOnly_tree (root : G) : Tree (rootOnly root) root where
  linked := ⟨fun g c hc => absurd hc (List.not_mem_nil), fun g => List.nodup_nil⟩
  shallow := ⟨0, rfl⟩
  nodup := List.nodup_singleton root
  off _ _ := rfl
  listed g := by
    constructor
    · intro hg
      rw [List.mem_singleton.1 hg]
    · intro hpath
      rcases Relation.ReflTransGen.cases_tail hpath with heq | ⟨c, -, hc⟩
      · exact List.mem_singleton.2 heq
      · cases hc

section Online

variable (h : Tree T root) (htg : tg ∉ T.taskGroups) (hparent : parent ∈ T.taskGroups)

include htg hparent in
/-- The new group is not its own parent. -/
theorem ne_parent : tg ≠ parent := fun heq => htg (heq ▸ hparent)

variable [DecidableEq G]

include h htg hparent in
/-- The group is first below its parent; nothing else changes. -/
theorem children_online (g : G) :
    (schedOnlineGroup T tg parent).children g = if g = parent then tg :: T.children g else T.children g := by
  have hne := ne_parent htg hparent
  simp only [schedOnlineGroup, Function.update_apply]
  split
  · next heq => rw [heq]
  · split
    · next heq => rw [heq, h.off tg htg]
    · rfl

include h htg hparent in
/-- `sched_online_group` keeps the tree. -/
theorem Tree.online : Tree (schedOnlineGroup T tg parent) root := by
  have hchildren := children_online h htg hparent
  have hne := ne_parent htg hparent
  have hleaf : (schedOnlineGroup T tg parent).children tg = [] := by rw [hchildren, if_neg hne, h.off tg htg]
  have hsub : ∀ g, (schedOnlineGroup T tg parent).children g ⊆ tg :: T.children g := fun g => by
    rw [hchildren]
    split
    · exact List.Subset.refl _
    · exact List.subset_cons_self _ _
  have hkeep : ∀ g, T.children g ⊆ (schedOnlineGroup T tg parent).children g := fun g => by
    rw [hchildren]
    split
    · exact List.subset_cons_self _ _
    · exact List.Subset.refl _
  have hnew : ∀ g, tg ∉ T.children g := fun g hg => htg (h.mem_taskGroups hg)
  have hmono : ∀ {g}, Relation.ReflTransGen (ChildOf T.children) root g →
      Relation.ReflTransGen (ChildOf (schedOnlineGroup T tg parent).children) root g := fun hpath =>
    Relation.ReflTransGen.mono (fun g _ hc => hkeep g hc) _ _ hpath
  refine ⟨⟨fun g c hc => ?_, fun g => ?_⟩, ?_, ?_, fun g hg => ?_, fun g => ?_⟩
  · rw [hchildren] at hc
    simp only [schedOnlineGroup, Function.update_apply]
    split at hc
    · next heq =>
      rcases List.mem_cons.1 hc with rfl | hold
      · rw [if_pos rfl, heq]
      · rw [if_neg (ne_of_mem_of_not_mem hold (hnew g)), h.linked.parent g c hold]
    · rw [if_neg (ne_of_mem_of_not_mem hc (hnew g)), h.linked.parent g c hc]
  · rw [hchildren]
    split
    · exact List.nodup_cons.2 ⟨hnew g, h.linked.nodup g⟩
    · exact h.linked.nodup g
  · obtain ⟨k, hk⟩ := h.shallow
    exact ⟨k + 1, hk.of_leaf hleaf hsub⟩
  · exact List.nodup_append.2 ⟨h.nodup, List.nodup_singleton tg, fun x hx y hy =>
      ne_of_mem_of_not_mem hx (List.mem_singleton.1 hy ▸ htg)⟩
  · simp only [schedOnlineGroup, List.mem_append, List.mem_singleton, not_or] at hg
    rw [hchildren, if_neg (ne_of_mem_of_not_mem hparent hg.1).symm, h.off g hg.1]
  · simp only [schedOnlineGroup, List.mem_append, List.mem_singleton]
    constructor
    · rintro (hg | rfl)
      · exact hmono ((h.listed g).1 hg)
      · refine (hmono ((h.listed parent).1 hparent)).tail ?_
        rw [ChildOf, hchildren, if_pos rfl]
        exact List.mem_cons_self
    · intro hpath
      induction hpath with
      | refl => exact .inl h.root_mem
      | tail _ hc _ =>
        rcases List.mem_cons.1 (hsub _ hc) with heq | hold
        · exact .inr heq
        · exact .inl (h.mem_taskGroups hold)

end Online

section Release

variable [DecidableEq G] (h : Tree T root) (hroot : tg ≠ root) (hleaf : T.children tg = [])

include h in
/-- Nothing but the group is gone from the lists. -/
theorem mem_children_release {g c : G} : c ∈ (schedReleaseGroup T tg).children g ↔ c ≠ tg ∧ c ∈ T.children g := by
  simp only [schedReleaseGroup]
  split
  · exact (h.linked.nodup g).mem_erase_iff
  · next hp =>
    constructor
    · exact fun hc => ⟨fun heq => hp (h.linked.parent g tg (heq ▸ hc)), hc⟩
    · exact fun hc => hc.2

include h hroot hleaf in
/-- `sched_release_group` keeps it too. -/
theorem Tree.release : Tree (schedReleaseGroup T tg) root := by
  have hmem : ∀ {g c}, c ∈ (schedReleaseGroup T tg).children g ↔ c ≠ tg ∧ c ∈ T.children g := mem_children_release h
  refine ⟨⟨fun g c hc => h.linked.parent g c (hmem.1 hc).2, fun g => ?_⟩, ?_, h.nodup.erase tg, fun g hg => ?_, fun g => ?_⟩
  · simp only [schedReleaseGroup]
    split
    · exact (h.linked.nodup g).erase tg
    · exact h.linked.nodup g
  · obtain ⟨k, hk⟩ := h.shallow
    exact ⟨k, hk.of_subset fun g c hc => (hmem.1 hc).2⟩
  · refine List.eq_nil_iff_forall_not_mem.2 fun c hc => ?_
    have hold := (hmem.1 hc).2
    rw [schedReleaseGroup, h.nodup.mem_erase_iff] at hg
    by_cases heq : g = tg
    · rw [heq, hleaf] at hold
      cases hold
    · rw [h.off g fun hin => hg ⟨heq, hin⟩] at hold
      cases hold
  · rw [schedReleaseGroup, h.nodup.mem_erase_iff, h.listed g]
    constructor
    · rintro ⟨hne, hpath⟩
      -- the path does not lead through the group, which has nothing below it
      induction hpath with
      | refl => exact .refl
      | @tail x y _ hc ih =>
        have hx : x ≠ tg := fun heq => by
          rw [ChildOf, heq, hleaf] at hc
          cases hc
        exact (ih hx).tail (hmem.2 ⟨hne, hc⟩)
    · intro hpath
      refine ⟨?_, Relation.ReflTransGen.mono (fun _ _ hc => ((mem_children_release h).1 hc).2) _ _ hpath⟩
      rcases Relation.ReflTransGen.cases_tail hpath with rfl | ⟨c, -, hc⟩
      · exact hroot.symm
      · exact (hmem.1 hc).1

end Release

end OsLab.TaskGroup
