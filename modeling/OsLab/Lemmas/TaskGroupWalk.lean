import OsLab.TaskGroup

/-!
# The walk over the groups is a recursion

By induction on the height below a group: the loop comes back to the list the group is on, at what follows it, with what the
recursion has left of the data.
-/

namespace OsLab.TaskGroup

open Descend

variable {G σ : Type} {T : Groups G} {start g p : G} {down up : G → σ → σ × Int} {k n : Nat}

/-- The walk goes on if 0 was returned, and is over if not. -/
def resume (r : σ × Int) (f : σ → Option (σ × Int)) : Option (σ × Int) := if r.2 = 0 then f r.1 else some r

theorem resume_andThen (r : σ × Int) (f : σ → σ × Int) (h : σ → Option (σ × Int)) :
    resume (andThen r f) h = resume r fun s => resume (f s) h := by
  unfold resume andThen
  by_cases hr : r.2 = 0 <;> simp [hr]

/-- How many rounds the walk takes for a group and what is below it. -/
def cost (T : Groups G) : Nat → G → Nat
  | 0, _ => 2
  | k + 1, g => ((T.children g).map fun c => cost T k c + 1).sum + 2

/-- Three rounds for a group, less one. -/
theorem cost_succ (T : Groups G) : ∀ k g, cost T k g + 1 = 3 * (preorder T.children k g).length
  | 0, g => rfl
  | k + 1, g => by
    have hsum : ∀ l : List G, (l.map fun c => cost T k c + 1).sum = 3 * (l.flatMap (preorder T.children k)).length := fun l => by
      induction l with
      | nil => rfl
      | cons c l ih =>
        rw [List.map_cons, List.sum_cons, ih, cost_succ T k c, List.flatMap_cons, List.length_append]
        omega
    rw [cost, hsum, preorder, List.length_cons]
    omega

variable [DecidableEq G]

/-- What comes after a child on a list it is on once. -/
theorem after_append {child : G} {l m : List G} (h : child ∉ l) : after child (l ++ child :: m) = m := by
  induction l with
  | nil => simp [after]
  | cons g l ih =>
    have hne : g ≠ child := fun heq => h (heq ▸ List.mem_cons_self)
    rw [List.cons_append, after, if_neg hne]
    exact ih fun hmem => h (List.mem_cons_of_mem g hmem)

theorem walkLoop_down (s : σ) : walkLoop T start down up (n + 1) (.down g) s =
    resume (down g s) fun s => walkLoop T start down up n (.loop g (T.children g)) s := by
  unfold resume
  rw [walkLoop, walkStep]
  by_cases hr : (down g s).2 = 0 <;> simp [hr]

/-- On the way out the walk goes on after the group. -/
theorem walkLoop_up (hg : g ≠ start) (hp : T.parent g = some p) (s : σ) : walkLoop T start down up (n + 1) (.loop g []) s =
    resume (up g s) fun s => walkLoop T start down up n (.loop p (after g (T.children p))) s := by
  unfold resume
  rw [walkLoop, walkStep]
  by_cases hr : (up g s).2 = 0 <;> simp [hr, hg, hp]

/-- At the group it started from the walk ends. -/
theorem walkLoop_end (s : σ) : walkLoop T start down up (n + 1) (.loop start []) s = some (up start s) := by
  rw [walkLoop, walkStep]
  simp

/-- What follows a group on the list it is on, given that the walk comes back there from each of them. -/
theorem walkLoop_children (hlinked : Linked T) {rest : List G} (hrest : ∃ l, T.children g = l ++ rest)
    (hchild : ∀ c ∈ T.children g, ∀ n s, walkLoop T start down up (n + cost T k c) (.down c) s =
      resume (visit T.children down up k c s) fun s => walkLoop T start down up n (.loop g (after c (T.children g))) s) (s : σ) :
    walkLoop T start down up (n + (rest.map fun c => cost T k c + 1).sum) (.loop g rest) s =
      resume (visitAll (visit T.children down up k) rest s) fun s => walkLoop T start down up n (.loop g []) s := by
  induction rest generalizing s with
  | nil => rfl
  | cons c rest ih =>
    obtain ⟨l, hl⟩ := hrest
    have hnotin : c ∉ l := fun hmem => by
      have hnodup := hlinked.nodup g
      rw [hl] at hnodup
      exact (List.nodup_append.1 hnodup).2.2 c hmem c List.mem_cons_self rfl
    have hfuel : n + ((c :: rest).map fun c => cost T k c + 1).sum = n + (rest.map fun c => cost T k c + 1).sum + cost T k c + 1 := by
      rw [List.map_cons, List.sum_cons]
      omega
    rw [hfuel, walkLoop, walkStep]
    dsimp only
    rw [hchild c (hl ▸ List.mem_append_right l List.mem_cons_self), visitAll, resume_andThen, hl, after_append hnotin]
    congr 1
    funext t
    exact ih ⟨l ++ [c], by rw [hl, List.append_assoc]; rfl⟩ t

/-- The walk below a group that is not the one it started from. -/
theorem walkLoop_below (hlinked : Linked T) : ∀ {k : Nat} {g p : G}, Shallow T.children k g → T.parent g = some p → g ≠ start →
    (∀ x, Relation.TransGen (ChildOf T.children) g x → x ≠ start) → ∀ n s, walkLoop T start down up (n + cost T k g) (.down g) s =
      resume (visit T.children down up k g s) fun s => walkLoop T start down up n (.loop p (after g (T.children p))) s
  | 0, g, p, hshallow, hp, hg, _, n, s => by
    rw [cost, walkLoop_down, show T.children g = [] from hshallow, visit, resume_andThen]
    simp only [walkLoop_up hg hp]
  | k + 1, g, p, hshallow, hp, hg, hbelow, n, s => by
    have hchild : ∀ c ∈ T.children g, ∀ n s, walkLoop T start down up (n + cost T k c) (.down c) s =
        resume (visit T.children down up k c s)
          fun s => walkLoop T start down up n (.loop g (after c (T.children g))) s := fun c hc =>
      walkLoop_below hlinked (hshallow c hc) (hlinked.parent g c hc) (hbelow c (.single hc)) fun x hx => hbelow x (.head hc hx)
    rw [cost, ← Nat.add_assoc, walkLoop_down, visit, andThen_assoc, resume_andThen]
    congr 1
    funext t
    rw [show n + ((T.children g).map fun c => cost T k c + 1).sum + 1 =
        n + 1 + ((T.children g).map fun c => cost T k c + 1).sum by omega,
      walkLoop_children hlinked ⟨[], rfl⟩ hchild, resume_andThen]
    simp only [walkLoop_up hg hp]

/-- The walk from a group. -/
theorem walkLoop_start (hlinked : Linked T) (hshallow : Shallow T.children k start) (s : σ) :
    walkLoop T start down up (n + cost T k start) (.down start) s = some (visit T.children down up k start s) := by
  have hend : ∀ r : σ × Int, resume r (fun s => some (up start s)) = some (andThen r (up start)) := fun r => by
    unfold resume andThen
    split <;> rfl
  cases k with
  | zero =>
    rw [cost, walkLoop_down, show T.children start = [] from hshallow, visit]
    simp only [walkLoop_end]
    exact hend _
  | succ k =>
    have hbelow : ∀ x, Relation.TransGen (ChildOf T.children) start x → x ≠ start := fun x hx hxs => hshallow.not_below (hxs ▸ hx)
    have hchild : ∀ c ∈ T.children start, ∀ n s, walkLoop T start down up (n + cost T k c) (.down c) s =
        resume (visit T.children down up k c s) fun s => walkLoop T start down up n (.loop start (after c (T.children start))) s :=
      fun c hc => walkLoop_below hlinked (hshallow c hc) (hlinked.parent start c hc) (hbelow c (.single hc))
        fun x hx => hbelow x (.head hc hx)
    rw [cost, ← Nat.add_assoc, walkLoop_down, visit, ← hend, resume_andThen]
    congr 1
    funext t
    rw [show n + ((T.children start).map fun c => cost T k c + 1).sum + 1 =
      n + 1 + ((T.children start).map fun c => cost T k c + 1).sum by omega, walkLoop_children hlinked ⟨[], rfl⟩ hchild]
    simp only [walkLoop_end]

/-- With three rounds for each group the walk returns, and does what the recursion does. -/
theorem walkTgTreeFrom_eq (hlinked : Linked T) (hshallow : Shallow T.children k start) {fuel : Nat}
    (hfuel : 3 * (preorder T.children k start).length ≤ fuel) (s : σ) :
    walkTgTreeFrom T fuel start down up s = some (visit T.children down up k start s) := by
  have hcost := cost_succ T k start
  obtain ⟨n, rfl⟩ : ∃ n, fuel = n + cost T k start := ⟨fuel - cost T k start, by omega⟩
  exact walkLoop_start hlinked hshallow s

theorem walkLoop_mono {place : At G} {s : σ} {r : σ × Int} (h : walkLoop T start down up n place s = some r) (hn : n ≤ k) :
    walkLoop T start down up k place s = some r := by
  induction n generalizing k place s with
  | zero => cases h
  | succ n ih =>
    obtain ⟨k, rfl⟩ : ∃ m, k = m + 1 := ⟨k - 1, by omega⟩
    rw [walkLoop] at h ⊢
    split at h
    · exact h
    · exact ih h (by omega)

/-- Whatever the rounds, a walk that returns has done what the recursion does. -/
theorem eq_of_walkTgTreeFrom (hlinked : Linked T) (hshallow : Shallow T.children k start) {fuel : Nat} {s : σ} {r : σ × Int}
    (h : walkTgTreeFrom T fuel start down up s = some r) : r = visit T.children down up k start s := by
  have hmore := walkLoop_mono h (Nat.le_add_right fuel (3 * (preorder T.children k start).length))
  exact Option.some.inj (hmore.symm.trans (walkTgTreeFrom_eq hlinked hshallow (Nat.le_add_left _ fuel) s))

/-- A walk that only looks returns 0 if every group below gives 0. -/
theorem look_eq_zero {f : G → Int} (hlinked : Linked T) (hshallow : Shallow T.children k start) {fuel : Nat} {r : Unit × Int}
    (h : walkTgTreeFrom T fuel start (fun g data => (data, f g)) tgNop () = some r) :
    r.2 = 0 ↔ ∀ x, Relation.ReflTransGen (ChildOf T.children) start x → f x = 0 := by
  have hr : r = visitAll (fun g data => (data, f g)) (preorder T.children k start) () :=
    (eq_of_walkTgTreeFrom hlinked hshallow h).trans (visit_nop T.children _ k start ())
  rw [hr, visitAll_look fun _ => rfl]
  simp only [← hshallow.mem_preorder]
  cases hfind : ((preorder T.children k start).map f).find? (· ≠ 0) with
  | none => simpa using hfind
  | some v =>
    have hv : v ≠ 0 := by simpa using List.find?_some hfind
    obtain ⟨x, hx, hxv⟩ := List.mem_map.1 (List.mem_of_find?_eq_some hfind)
    exact iff_of_false hv fun hall => hv (hxv.symm.trans (hall x hx))

end OsLab.TaskGroup
