import Mathlib.Data.List.Basic
import Mathlib.Data.List.Perm.Lattice

/-!
# Binary trees searched by what is below a node

A tree is read through its in-order list, which is all that rebalancing keeps. `add` puts an element where a descent that compares
it with the nodes ends. `search` looks for the first element, in order, with a property, and skips a left subtree when its root
says that there is none in it.
-/

variable {α : Type*}

/-- A binary tree. -/
inductive SearchTree (α : Type*) where
  | nil
  | node (left : SearchTree α) (a : α) (right : SearchTree α)

namespace SearchTree

/-- The elements in order. -/
def inorder : SearchTree α → List α
  | nil => []
  | node l a r => l.inorder ++ a :: r.inorder

/-- The root. -/
def root : SearchTree α → Option α
  | nil => none
  | node _ a _ => some a

/-- The leftmost element. -/
def first : SearchTree α → Option α
  | nil => none
  | node l a _ => l.first.or (some a)

/-- The tree with `x` at the place where the descent to it ends: left of the nodes it is less than, right of the others. -/
def add (less : α → α → Prop) [DecidableRel less] (x : α) : SearchTree α → SearchTree α
  | nil => node nil x nil
  | node l a r => if less x a then node (l.add less x) a r else node l a (r.add less x)

/-- The elements in one line, as right children. -/
def ofList : List α → SearchTree α
  | [] => nil
  | a :: l => node nil a (ofList l)

/-- The search: to the left when the root there says `below`, else the node itself when it is `good`, else to the right. -/
def search (below good : α → Bool) : SearchTree α → Option α
  | nil => none
  | node l a r =>
    if l.root.any below then l.search below good
    else if good a then some a
    else r.search below good

@[simp] theorem inorder_nil : (nil : SearchTree α).inorder = [] := rfl

@[simp] theorem inorder_node {l r : SearchTree α} {a : α} : (node l a r).inorder = l.inorder ++ a :: r.inorder := rfl

@[simp] theorem inorder_ofList (l : List α) : (ofList l).inorder = l := by
  induction l with
  | nil => rfl
  | cons a l ih => simp [ofList, ih]

/-- The leftmost node is the first in order. -/
theorem first_eq_head? (t : SearchTree α) : t.first = t.inorder.head? := by
  induction t with
  | nil => rfl
  | node l a r ihl _ => rw [first, ihl, inorder_node, List.head?_append, List.head?_cons]

/-- The root is in the tree. -/
theorem root_mem {t : SearchTree α} {a : α} (h : t.root = some a) : a ∈ t.inorder := by
  cases t with
  | nil => cases h
  | node l b r =>
    obtain rfl := Option.some.inj h
    simp

/-- A tree with a node has a root. -/
theorem root_of_mem {t : SearchTree α} {a : α} (h : a ∈ t.inorder) : ∃ b, t.root = some b := by
  cases t with
  | nil => cases h
  | node l b r => exact ⟨b, rfl⟩

section Add

variable (less : α → α → Prop) [DecidableRel less]

/-- The descent adds the element and moves no other. -/
theorem add_inorder (x : α) (t : SearchTree α) :
    ∃ l₁ l₂, t.inorder = l₁ ++ l₂ ∧ (t.add less x).inorder = l₁ ++ x :: l₂ := by
  induction t with
  | nil => exact ⟨[], [], rfl, rfl⟩
  | node l a r ihl ihr =>
    by_cases h : less x a
    · obtain ⟨l₁, l₂, he, ha⟩ := ihl
      exact ⟨l₁, l₂ ++ a :: r.inorder, by simp [he], by simp [add, h, ha]⟩
    · obtain ⟨l₁, l₂, he, ha⟩ := ihr
      exact ⟨l.inorder ++ a :: l₁, l₂, by simp [he], by simp [add, h, ha]⟩

/-- What is added is there, with what was. -/
theorem add_perm (x : α) (t : SearchTree α) : (t.add less x).inorder.Perm (x :: t.inorder) := by
  obtain ⟨l₁, l₂, he, ha⟩ := add_inorder less x t
  rw [he, ha]
  exact List.perm_middle

/-- Only comparisons with the nodes matter. -/
theorem add_congr {less' : α → α → Prop} [DecidableRel less'] {x : α} {t : SearchTree α}
    (h : ∀ a ∈ t.inorder, less x a ↔ less' x a) : t.add less x = t.add less' x := by
  induction t with
  | nil => rfl
  | node l a r ihl ihr =>
    simp only [inorder_node, List.mem_append, List.mem_cons] at h
    simp only [add, h a (Or.inr (Or.inl rfl)), ihl fun b hb => h b (Or.inl hb), ihr fun b hb => h b (Or.inr (Or.inr hb))]

/-- A tree in order stays in order, when the comparison with the new element goes along with the order. -/
theorem add_pairwise {R : α → α → Prop} {x : α} {t : SearchTree α} (hl : ∀ a ∈ t.inorder, less x a → R x a)
    (hr : ∀ a ∈ t.inorder, ¬less x a → R a x) (hup : ∀ a ∈ t.inorder, ∀ b ∈ t.inorder, R a b → less x a → less x b)
    (h : t.inorder.Pairwise R) : (t.add less x).inorder.Pairwise R := by
  induction t with
  | nil => simp [add]
  | node l a r ihl ihr =>
    simp only [inorder_node, List.pairwise_append, List.pairwise_cons, List.mem_cons] at h
    obtain ⟨hpl, ⟨har, hpr⟩, hlr⟩ := h
    have ha : a ∈ (node l a r).inorder := by simp
    have hleft : ∀ b ∈ l.inorder, b ∈ (node l a r).inorder := by simp +contextual
    have hright : ∀ b ∈ r.inorder, b ∈ (node l a r).inorder := by simp +contextual
    by_cases hx : less x a
    · simp only [add, if_pos hx, inorder_node, List.pairwise_append, List.pairwise_cons]
      refine ⟨ihl (fun b hb => hl b (hleft b hb)) (fun b hb => hr b (hleft b hb))
        (fun b hb c hc => hup b (hleft b hb) c (hleft c hc)) hpl, ⟨har, hpr⟩, ?_⟩
      intro b hb c hc
      rcases List.mem_cons.1 ((add_perm less x l).mem_iff.1 hb) with rfl | hb
      · rcases List.mem_cons.1 hc with rfl | hc
        · exact hl _ ha hx
        · exact hl _ (hright c hc) (hup _ ha _ (hright c hc) (har c hc) hx)
      · exact hlr b hb c (List.mem_cons.1 hc)
    · simp only [add, if_neg hx, inorder_node, List.pairwise_append, List.pairwise_cons]
      have hax : ∀ c ∈ (r.add less x).inorder, R a c := by
        intro c hc
        rcases List.mem_cons.1 ((add_perm less x r).mem_iff.1 hc) with rfl | hc
        · exact hr _ ha hx
        · exact har c hc
      refine ⟨hpl, ⟨hax, ihr (fun b hb => hl b (hright b hb)) (fun b hb => hr b (hright b hb))
        (fun b hb c hc => hup b (hright b hb) c (hright c hc)) hpr⟩, ?_⟩
      intro b hb c hc
      have hba : R b a := hlr b hb a (Or.inl rfl)
      rcases List.mem_cons.1 hc with rfl | hc
      · exact hba
      · rcases List.mem_cons.1 ((add_perm less x r).mem_iff.1 hc) with rfl | hc
        · exact hr _ (hleft b hb) fun hxb => hx (hup _ (hleft b hb) _ ha hba hxb)
        · exact hlr b hb c (Or.inr hc)

end Add

/-! ## The search -/

/-- At every node, `below` says whether there is a good element in its subtree. -/
def Guided (below good : α → Bool) : SearchTree α → Prop
  | nil => True
  | node l a r => Guided below good l ∧ Guided below good r ∧ (below a = true ↔ ∃ b ∈ (node l a r).inorder, good b = true)

/-- The root tells whether there is a good node. -/
theorem Guided.root_any {below good : α → Bool} {t : SearchTree α} (h : Guided below good t) :
    t.root.any below = true ↔ ∃ b ∈ t.inorder, good b = true := by
  cases t with
  | nil => simp [root]
  | node l a r => exact h.2.2

/-- The search finds the first good element in order, if there is one. -/
theorem search_eq_find? {below good : α → Bool} {t : SearchTree α} (h : Guided below good t) :
    t.search below good = t.inorder.find? good := by
  induction t with
  | nil => rfl
  | node l a r ihl ihr =>
    obtain ⟨hl, hr, _⟩ := h
    rw [search, inorder_node, List.find?_append, List.find?_cons]
    by_cases hb : l.root.any below = true
    · rw [if_pos hb, ihl hl]
      obtain ⟨b, hmem, hgood⟩ := hl.root_any.1 hb
      obtain ⟨c, hc⟩ := Option.isSome_iff_exists.1 (List.find?_isSome.2 ⟨b, hmem, hgood⟩)
      rw [hc]
      rfl
    · -- no element of the left subtree is good
      have hnone : l.inorder.find? good = none := by
        rw [List.find?_eq_none]
        intro b hmem hgood
        exact hb (hl.root_any.2 ⟨b, hmem, hgood⟩)
      rw [if_neg hb, hnone, ihr hr, Option.none_or]
      cases good a <;> rfl

end SearchTree
