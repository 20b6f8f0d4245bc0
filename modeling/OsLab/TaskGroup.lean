import OsLab.Lib.Descend
import Mathlib.Algebra.Group.Nat.Defs
import Mathlib.Logic.Function.Basic

/-!
# The tree of task groups, `core.c`

`walk_tg_tree_from` goes over the groups below one without recursion: two labels, `goto` into the loop over the children, and the
pointers to the parents. The lists of children are those of `siblings`, as they are while the walk holds `rcu_lock`.
`sched_online_group` and `sched_release_group` put a group on these lists and take it off, and `to_ratio` is the share of a CPU
that both kinds of bandwidth are compared by.
-/

namespace OsLab.TaskGroup

open Descend

/-- The groups: the list `task_groups`, what is on `children` of one, in order, and `parent`. -/
structure Groups (G : Type) where
  taskGroups : List G
  children : G → List G
  parent : G → Option G

/-- Where the walk is: at the label `down`; at the head of the loop over the children of `parent`, with `rest` to come. -/
inductive At (G : Type) where
  | down (parent : G)
  | loop (parent : G) (rest : List G)

variable {G σ : Type} [DecidableEq G]

/-- What is on the list after `child`. -/
def after (child : G) : List G → List G
  | [] => []
  | g :: gs => if g = child then gs else after child gs

/-- One round: the next place and the data, or the return value and the data. -/
def walkStep (T : Groups G) (start : G) (down up : G → σ → σ × Int) : At G → σ → (At G × σ) ⊕ (σ × Int)
  | .down parent, data =>
    let (data, ret) := down parent data
    if ret ≠ 0 then .inr (data, ret) else .inl (.loop parent (T.children parent), data)
  | .loop _ (child :: _), data => .inl (.down child, data)
  | .loop parent [], data =>
    let (data, ret) := up parent data
    if ret ≠ 0 ∨ parent = start then .inr (data, ret)
    else
      match T.parent parent with
      | none => .inr (data, ret)
      | some grandparent => .inl (.loop grandparent (after parent (T.children grandparent)), data)

/-- So many rounds at most. -/
def walkLoop (T : Groups G) (start : G) (down up : G → σ → σ × Int) : Nat → At G → σ → Option (σ × Int)
  | 0, _, _ => none
  | n + 1, place, data =>
    match walkStep T start down up place data with
    | .inr r => some r
    | .inl (place, data) => walkLoop T start down up n place data

/-- `walk_tg_tree_from`. -/
def walkTgTreeFrom (T : Groups G) (fuel : Nat) (start : G) (down up : G → σ → σ × Int) (data : σ) : Option (σ × Int) :=
  walkLoop T start down up fuel (.down start) data

/-- `tg_nop`. -/
def tgNop (_ : G) (data : σ) : σ × Int := (data, 0)

/-- `sched_online_group`. -/
def schedOnlineGroup (T : Groups G) (tg parent : G) : Groups G where
  taskGroups := T.taskGroups ++ [tg]
  children := Function.update (Function.update T.children tg []) parent (tg :: T.children parent)
  parent := Function.update T.parent tg (some parent)

/-- `sched_release_group`: `list_del_rcu` twice. -/
def schedReleaseGroup (T : Groups G) (tg : G) : Groups G where
  taskGroups := T.taskGroups.erase tg
  children g := if T.parent tg = some g then (T.children g).erase tg else T.children g
  parent := T.parent

/-- The root alone, as `sched_init` leaves it. -/
def rootOnly (root : G) : Groups G where
  taskGroups := [root]
  children _ := []
  parent _ := none

/-- `RUNTIME_INF`. -/
def runtimeInf : Nat := 2 ^ 64 - 1

/-- `BW_UNIT`. -/
def bwUnit : Nat := 2 ^ 20

/-- `to_ratio`. -/
def toRatio (period runtime : Nat) : Nat :=
  if runtime = runtimeInf then bwUnit else if period = 0 then 0 else runtime * 2 ^ 20 % 2 ^ 64 / period

/-- A child has its parent as parent, and is on one list once. -/
structure Linked (T : Groups G) : Prop where
  parent : ∀ g, ∀ c ∈ T.children g, T.parent c = some g
  nodup : ∀ g, (T.children g).Nodup

/-- The groups of `task_groups` are a tree of finite height below the root. -/
structure Tree (T : Groups G) (root : G) : Prop where
  linked : Linked T
  shallow : ∃ k, Shallow T.children k root
  nodup : T.taskGroups.Nodup
  off : ∀ g, g ∉ T.taskGroups → T.children g = []
  listed : ∀ g, g ∈ T.taskGroups ↔ Relation.ReflTransGen (ChildOf T.children) root g

end OsLab.TaskGroup
