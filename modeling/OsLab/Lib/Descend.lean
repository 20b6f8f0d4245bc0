import Mathlib.Algebra.BigOperators.Group.Finset.Basic
import Mathlib.Algebra.GroupWithZero.Nat
import Mathlib.Algebra.Order.BigOperators.Group.Finset
import Mathlib.Data.List.Nodup
import Mathlib.Data.List.Pairwise
import Mathlib.Logic.Relation
import Mathlib.Order.Antichain

/-!
# Trees given by the children of a node

A function gives the children of a node, in order; below a node that is `Shallow` there is a tree of finite height. A visitor goes
over the tree with a state and stops at the first one that does not return 0. `visit_nop`: with nothing to do on the way out, a
walk goes over the nodes in pre-order. `antichain_le`: where every node weighs at least as much as its children together, nodes
none of which is below another weigh no more than the root.
-/

namespace Descend

variable {G σ : Type*}

section Tree

variable (children : G → List G)

/-- No path down from the node has more than so many edges. -/
def Shallow : Nat → G → Prop
  | 0, g => children g = []
  | k + 1, g => ∀ c ∈ children g, Shallow k c

/-- The node and what is below it, a node before what is below it. -/
def preorder : Nat → G → List G
  | 0, g => [g]
  | k + 1, g => g :: (children g).flatMap (preorder k)

/-- The second is a child of the first. -/
def ChildOf (g c : G) : Prop := c ∈ children g

variable {children}

/-- A tree that is shallow is so at one level more. -/
theorem Shallow.succ : ∀ {k : Nat} {g : G}, Shallow children k g → Shallow children (k + 1) g
  | 0, g, h => fun c hc => by
    rw [show children g = [] from h] at hc
    cases hc
  | _ + 1, _, h => fun c hc => (h c hc).succ

/-- And at any number more. -/
theorem Shallow.mono {k l : Nat} {g : G} (h : Shallow children k g) (hl : k ≤ l) : Shallow children l g := by
  induction hl with
  | refl => exact h
  | step _ ih => exact ih.succ

/-- With less below the nodes, nothing is deeper. -/
theorem Shallow.of_subset {children' : G → List G} (hsub : ∀ g, children' g ⊆ children g) :
    ∀ {k : Nat} {g : G}, Shallow children k g → Shallow children' k g
  | 0, g, h => List.subset_nil.1 ((show children g = [] from h) ▸ hsub g)
  | _ + 1, g, h => fun c hc => (h c (hsub g hc)).of_subset hsub

/-- A new leaf makes a tree deeper by one at most. -/
theorem Shallow.of_leaf {children' : G → List G} {t : G} (hleaf : children' t = []) (hsub : ∀ g, children' g ⊆ t :: children g) :
    ∀ {k : Nat} {g : G}, Shallow children k g → Shallow children' (k + 1) g
  | 0, g, h => fun c hc => by
    rw [show c = t by simpa [show children g = [] from h] using hsub g hc]
    exact hleaf
  | k + 1, g, h => fun c hc => by
    rcases List.mem_cons.1 (hsub g hc) with rfl | hold
    · exact (show Shallow children' 0 c from hleaf).mono (Nat.zero_le _)
    · exact (h c hold).of_leaf hleaf hsub

/-- A node is in its own pre-order. -/
theorem mem_preorder_self (k : Nat) (g : G) : g ∈ preorder children k g := by
  cases k <;> simp [preorder]

/-- What is below a node is below, or is, one of its children. -/
theorem mem_preorder_succ {k : Nat} {g x : G} :
    x ∈ preorder children (k + 1) g ↔ x = g ∨ ∃ c ∈ children g, x ∈ preorder children k c := by
  simp [preorder]

/-- What is in it otherwise is below the node. -/
theorem below_of_mem_preorder : ∀ {k : Nat} {g x : G}, x ∈ preorder children k g → x = g ∨ Relation.TransGen (ChildOf children) g x
  | 0, g, x, h => .inl (by simpa [preorder] using h)
  | k + 1, g, x, h => by
    rcases mem_preorder_succ.1 h with rfl | ⟨c, hc, hx⟩
    · exact .inl rfl
    · rcases below_of_mem_preorder hx with rfl | hbelow
      · exact .inr (.single hc)
      · exact .inr (.head hc hbelow)

/-- A node is not below itself. -/
theorem Shallow.not_below : ∀ {k : Nat} {g : G}, Shallow children k g → ¬Relation.TransGen (ChildOf children) g g
  | 0, g, h, hbelow => by
    obtain ⟨c, hc, -⟩ := Relation.TransGen.head'_iff.1 hbelow
    rw [ChildOf, show children g = [] from h] at hc
    cases hc
  | k + 1, g, h, hbelow => by
    obtain ⟨c, hc, hpath⟩ := Relation.TransGen.head'_iff.1 hbelow
    exact (h c hc).not_below (Relation.TransGen.tail' hpath hc)

/-- What is below a node of finite height is what its children lead to. -/
theorem Shallow.mem_preorder : ∀ {k : Nat} {g x : G}, Shallow children k g →
    (x ∈ preorder children k g ↔ Relation.ReflTransGen (ChildOf children) g x)
  | k, g, x, h => by
    constructor
    · intro hx
      rcases below_of_mem_preorder hx with rfl | hbelow
      · exact .refl
      · exact hbelow.to_reflTransGen
    · intro hpath
      rcases Relation.ReflTransGen.cases_head hpath with rfl | ⟨c, hc, hrest⟩
      · exact mem_preorder_self k g
      · cases k with
        | zero =>
          rw [ChildOf, show children g = [] from h] at hc
          cases hc
        | succ k => exact mem_preorder_succ.2 (.inr ⟨c, hc, (h c hc).mem_preorder.2 hrest⟩)

/-- Where a node is the child of one node, and once, the walk over a tree comes to each node once. -/
theorem Shallow.preorder_nodup (hparent : ∀ g h c, c ∈ children g → c ∈ children h → g = h) (hnodup : ∀ g, (children g).Nodup) :
    ∀ {k : Nat} {g : G}, Shallow children k g → (preorder children k g).Nodup
  | 0, g, _ => List.nodup_singleton g
  | k + 1, g, h => by
    -- a child that is below another child has their parent above itself
    have hup : ∀ {c d}, c ∈ children g → d ∈ children g → ¬Relation.TransGen (ChildOf children) d c := fun {c d} hc hd hbelow => by
      obtain ⟨e, hpath, he⟩ := Relation.TransGen.tail'_iff.1 hbelow
      obtain rfl : e = g := hparent e g c he hc
      exact h.not_below (.head' hd hpath)
    have hdisjoint : ∀ {c d}, c ∈ children g → d ∈ children g → c ≠ d →
        (preorder children k c).Disjoint (preorder children k d) := fun {c d} hc hd hne x hxc hxd => by
      have hback : ∀ {y}, y ∈ children g → x ∈ preorder children k y →
          Relation.ReflTransGen (Function.swap (ChildOf children)) x y := fun hy hx =>
        Relation.reflTransGen_swap.2 ((h _ hy).mem_preorder.1 hx)
      have hunique : Relator.RightUnique (Function.swap (ChildOf children)) := fun x y z hy hz => hparent y z x hy hz
      rcases Relation.ReflTransGen.total_of_right_unique hunique (hback hc hxc) (hback hd hxd) with hpath | hpath
      · rcases Relation.reflTransGen_iff_eq_or_transGen.1 (Relation.reflTransGen_swap.1 hpath) with heq | hbelow
        · exact hne heq
        · exact hup hc hd hbelow
      · rcases Relation.reflTransGen_iff_eq_or_transGen.1 (Relation.reflTransGen_swap.1 hpath) with heq | hbelow
        · exact hne heq.symm
        · exact hup hd hc hbelow
    rw [preorder, List.nodup_cons]
    refine ⟨fun hmem => ?_, List.nodup_flatMap.2 ⟨fun c hc => (h c hc).preorder_nodup hparent hnodup, ?_⟩⟩
    · obtain ⟨c, hc, hg⟩ := List.mem_flatMap.1 hmem
      exact h.not_below (.head' hc ((h c hc).mem_preorder.1 hg))
    · exact (hnodup g).pairwise_of_forall_ne fun c hc d hd hne => hdisjoint hc hd hne

/-! ## Weights -/

/-- Leaves are not below each other. -/
theorem antichain_of_leaves {S : Set G} (hS : ∀ g ∈ S, children g = []) : IsAntichain (Relation.TransGen (ChildOf children)) S := by
  intro x hx y _ _ hbelow
  obtain ⟨c, hc, -⟩ := Relation.TransGen.head'_iff.1 hbelow
  rw [ChildOf, hS x hx] at hc
  cases hc

/-- Nodes that lie in some parts weigh no more than what bounds the weight in each of the parts. -/
theorem sum_le_of_cover [DecidableEq G] (w : G → Nat) (part : G → List G) {ok : Finset G → Prop}
    (hok : ∀ {R S}, R ⊆ S → ok S → ok R) {cs : List G}
    (hpart : ∀ c ∈ cs, ∀ R, ok R → (∀ x ∈ R, x ∈ part c) → ∑ x ∈ R, w x ≤ w c) {R : Finset G} (hR : ok R)
    (hcover : ∀ x ∈ R, ∃ c ∈ cs, x ∈ part c) : ∑ x ∈ R, w x ≤ (cs.map w).sum := by
  induction cs generalizing R with
  | nil =>
    have hempty : R = ∅ := Finset.eq_empty_of_forall_notMem fun x hx => by
      obtain ⟨c, hc, -⟩ := hcover x hx
      cases hc
    rw [hempty, Finset.sum_empty, List.map_nil, List.sum_nil]
  | cons c cs ih =>
    have hleft : ∑ x ∈ R with x ∈ part c, w x ≤ w c :=
      hpart c List.mem_cons_self _ (hok (Finset.filter_subset _ _) hR) fun x hx => (Finset.mem_filter.1 hx).2
    have hright : ∑ x ∈ R with x ∉ part c, w x ≤ (cs.map w).sum := by
      refine ih (fun d hd => hpart d (List.mem_cons_of_mem c hd)) (hok (Finset.filter_subset _ _) hR) fun x hx => ?_
      obtain ⟨hxR, hxc⟩ := Finset.mem_filter.1 hx
      obtain ⟨d, hd, hxd⟩ := hcover x hxR
      rcases List.mem_cons.1 hd with rfl | hd
      · exact absurd hxd hxc
      · exact ⟨d, hd, hxd⟩
    rw [List.map_cons, List.sum_cons, ← Finset.sum_filter_add_sum_filter_not R fun x => x ∈ part c]
    exact Nat.add_le_add hleft hright

/-- Nodes none of which is below another weigh no more than the root. -/
theorem antichain_le [DecidableEq G] (w : G → Nat) : ∀ {k : Nat} {g : G}, Shallow children k g →
    (∀ x ∈ preorder children k g, ((children x).map w).sum ≤ w x) → ∀ S : Finset G,
    IsAntichain (Relation.TransGen (ChildOf children)) (S : Set G) → (∀ x ∈ S, x ∈ preorder children k g) → ∑ x ∈ S, w x ≤ w g
  | k, g, hshallow, hw, S, hanti, hS => by
    by_cases hg : g ∈ S
    · -- everything else would be below the root
      have hone : ∀ x ∈ S, x = g := fun x hx => by
        rcases below_of_mem_preorder (hS x hx) with heq | hbelow
        · exact heq
        · by_contra hne
          exact hanti hg hx (Ne.symm hne) hbelow
      rw [Finset.eq_singleton_iff_unique_mem.2 ⟨hg, hone⟩, Finset.sum_singleton]
    · cases k with
      | zero =>
        have hempty : S = ∅ := Finset.eq_empty_of_forall_notMem fun x hx => by
          obtain rfl : x = g := by simpa [preorder] using hS x hx
          exact hg hx
        rw [hempty, Finset.sum_empty]
        exact Nat.zero_le _
      | succ k =>
        have hchild : ∀ c ∈ children g, ∀ R : Finset G, IsAntichain (Relation.TransGen (ChildOf children)) (R : Set G) →
            (∀ x ∈ R, x ∈ preorder children k c) → ∑ x ∈ R, w x ≤ w c := fun c hc =>
          antichain_le w (hshallow c hc) fun x hx => hw x (mem_preorder_succ.2 (.inr ⟨c, hc, hx⟩))
        refine (sum_le_of_cover w (preorder children k) (fun hsub h => h.subset hsub) hchild hanti fun x hx => ?_).trans
          (hw g (mem_preorder_self _ g))
        rcases mem_preorder_succ.1 (hS x hx) with rfl | hx'
        · exact absurd hx hg
        · exact hx'

end Tree

/-! ## Visitors -/

/-- Go on if 0 was returned. -/
def andThen (r : σ × Int) (f : σ → σ × Int) : σ × Int := if r.2 = 0 then f r.1 else r

@[simp] theorem andThen_zero (s : σ) (f : σ → σ × Int) : andThen (s, 0) f = f s := rfl

/-- A refusal ends it. -/
theorem andThen_of_ne {r : σ × Int} (h : r.2 ≠ 0) (f : σ → σ × Int) : andThen r f = r := if_neg h

/-- Three visits in a row. -/
theorem andThen_assoc (r : σ × Int) (f g : σ → σ × Int) : andThen (andThen r f) g = andThen r fun s => andThen (f s) g := by
  unfold andThen
  by_cases hr : r.2 = 0
  · simp [hr]
  · simp [hr]

/-- Each of the nodes in turn. -/
def visitAll (f : G → σ → σ × Int) : List G → σ → σ × Int
  | [], s => (s, 0)
  | g :: gs, s => andThen (f g s) (visitAll f gs)

/-- A node on the way in, what is below it, and the node on the way out. -/
def visit (children : G → List G) (down up : G → σ → σ × Int) : Nat → G → σ → σ × Int
  | 0, g, s => andThen (down g s) (up g)
  | k + 1, g, s => andThen (andThen (down g s) (visitAll (visit children down up k) (children g))) (up g)

/-- Two lists, one after the other. -/
theorem visitAll_append (f : G → σ → σ × Int) (l m : List G) (s : σ) :
    visitAll f (l ++ m) s = andThen (visitAll f l s) (visitAll f m) := by
  induction l generalizing s with
  | nil => rfl
  | cons g l ih =>
    simp only [List.cons_append, visitAll, andThen_assoc]
    congr 1
    funext t
    exact ih t

/-- Visits that are themselves visits of lists. -/
theorem visitAll_flatMap {f h : G → σ → σ × Int} {e : G → List G} (hf : ∀ g s, f g s = visitAll h (e g) s) (l : List G) (s : σ) :
    visitAll f l s = visitAll h (l.flatMap e) s := by
  induction l generalizing s with
  | nil => rfl
  | cons g l ih =>
    rw [List.flatMap_cons, visitAll_append, visitAll, hf]
    congr 1
    funext t
    exact ih t

/-- Nothing more is done. -/
theorem andThen_nop (r : σ × Int) : andThen r (fun s => (s, 0)) = r := by
  unfold andThen
  split
  · rename_i hr
    exact Prod.ext rfl hr.symm
  · rfl

/-- With nothing to do on the way out, a walk is over the nodes in pre-order. -/
theorem visit_nop (children : G → List G) (down : G → σ → σ × Int) : ∀ (k : Nat) (g : G) (s : σ),
    visit children down (fun _ s => (s, 0)) k g s = visitAll down (preorder children k g) s
  | 0, g, s => by simp only [visit, preorder, visitAll, andThen_nop]
  | k + 1, g, s => by
    simp only [visit, preorder, visitAll, andThen_nop]
    congr 1
    funext t
    exact visitAll_flatMap (fun c s => visit_nop children down k c s) _ t

/-- A visitor that only looks returns 0 for all, or what the first returns that does not. -/
theorem visitAll_look {f : G → σ → σ × Int} {s : σ} (hf : ∀ g, (f g s).1 = s) (l : List G) :
    visitAll f l s = (s, ((l.map fun g => (f g s).2).find? (· ≠ 0)).getD 0) := by
  induction l with
  | nil => rfl
  | cons g l ih =>
    rw [visitAll, andThen, List.map_cons, List.find?_cons]
    by_cases hg : (f g s).2 = 0
    · simp only [hg, if_true, ne_eq, not_true_eq_false, decide_false]
      rw [hf, ih]
    · simp only [hg, if_false, ne_eq, not_false_eq_true, decide_true]
      exact Prod.ext (hf g) rfl

end Descend
