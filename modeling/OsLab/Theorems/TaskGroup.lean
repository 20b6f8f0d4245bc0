import OsLab.Lemmas.TaskGroupWalk
import OsLab.Lemmas.TaskGroupTree

/-!
# The walk over the task groups

For groups that form a tree of finite height, whatever the visitors do and return.
-/

namespace OsLab.TaskGroup

open Descend

variable {G σ : Type} [DecidableEq G] {T : Groups G} {start : G} {k : Nat}

/-- With three rounds for each group the walk returns, and it has done what the recursion over the tree does: `down`, all of what
is below, `up`, until one of them returns something else than 0. If there is nothing to do on the way out, `down` has been called
for the groups in an order in which each group that can be reached is once, and nothing else. -/
theorem walk_is_recursion (hlinked : Linked T) (hshallow : Shallow T.children k start) (fuel : Nat)
    (hfuel : 3 * (preorder T.children k start).length ≤ fuel) (down up : G → σ → σ × Int) (data : σ) :
    walkTgTreeFrom T fuel start down up data = some (visit T.children down up k start data) ∧
      walkTgTreeFrom T fuel start down tgNop data = some (visitAll down (preorder T.children k start) data) ∧
      (preorder T.children k start).Nodup ∧
      ∀ x, x ∈ preorder T.children k start ↔ Relation.ReflTransGen (ChildOf T.children) start x := by
  refine ⟨walkTgTreeFrom_eq hlinked hshallow hfuel data, ?_, hshallow.preorder_nodup hlinked.same_parent hlinked.nodup,
    fun x => hshallow.mem_preorder⟩
  rw [walkTgTreeFrom_eq hlinked hshallow hfuel]
  exact congrArg some (visit_nop T.children down k start data)

/-- Two groups below the root, one below the second of them. -/
def fourGroups : Groups Nat where
  taskGroups := [0, 1, 2, 3]
  children g := if g = 0 then [1, 2] else if g = 2 then [3] else []
  parent g := if g = 1 ∨ g = 2 then some 0 else if g = 3 then some 2 else none

/-- Children and parents agree. -/
theorem fourGroups_linked : Linked fourGroups where
  parent g c hc := by
    simp only [fourGroups] at hc
    split at hc
    · rcases List.mem_pair.1 hc with rfl | rfl <;> simp [fourGroups, *]
    · split at hc
      · obtain rfl := List.mem_singleton.1 hc
        simp [fourGroups, *]
      · cases hc
  nodup g := by
    simp only [fourGroups]
    split
    · decide
    · split <;> simp

/-- Two levels below the root. -/
theorem fourGroups_shallow : Shallow fourGroups.children 2 0 := by
  simp [Shallow, fourGroups]

/-- The calls of a walk, in order, with one that refuses the group 3 on the way in. -/
theorem walk_is_recursion_four :
    walkTgTreeFrom fourGroups 12 0 (fun g calls => (calls ++ [(g, true)], if g = 3 then -22 else 0))
        (fun g calls => (calls ++ [(g, false)], 0)) [] =
      some ([(0, true), (1, true), (1, false), (2, true), (3, true)], -22) :=
  (walk_is_recursion fourGroups_linked fourGroups_shallow 12 (by decide)
    (fun g calls => (calls ++ [(g, true)], if g = 3 then -22 else 0))
    (fun g calls => (calls ++ [(g, false)], 0)) []).1.trans (by rfl)

end OsLab.TaskGroup
