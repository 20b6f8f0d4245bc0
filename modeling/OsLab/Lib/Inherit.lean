import OsLab.Lib.Descend
import Mathlib.Data.Set.Insert
import Mathlib.Logic.Function.Basic

/-!
# Values handed down a tree

A visitor computes the value of a node from the values of some other nodes, or refuses. In an order in which these come first, a
walk that refuses nothing ends with every value what is computed from the values there are then (`visitAll_assign`): nothing that
was there before the walk matters. A walk that refuses does so for a node whose like values say it has to.
-/

namespace Descend

variable {G β : Type*}

/-- What a node needs comes before it. -/
def ReadyOrder (needs : G → List G) : Set G → List G → Prop
  | _, [] => True
  | done, x :: xs => (∀ y ∈ needs x, y ∈ done) ∧ ReadyOrder needs (insert x done) xs

variable {needs : G → List G} {done done' : Set G} {l m : List G}

/-- More may be there already. -/
theorem ReadyOrder.mono (h : ReadyOrder needs done l) (hsub : done ⊆ done') : ReadyOrder needs done' l := by
  induction l generalizing done done' with
  | nil => trivial
  | cons x l ih => exact ⟨fun y hy => hsub (h.1 y hy), ih h.2 (Set.insert_subset_insert hsub)⟩

/-- Two lists, one after the other. -/
theorem ReadyOrder.append (hl : ReadyOrder needs done l) (hm : ReadyOrder needs done m) : ReadyOrder needs done (l ++ m) := by
  induction l generalizing done with
  | nil => exact hm
  | cons x l ih => exact ⟨hl.1, ih hl.2 (hm.mono (Set.subset_insert x done))⟩

/-- Many of them. -/
theorem readyOrder_flatMap {e : G → List G} (h : ∀ x ∈ l, ReadyOrder needs done (e x)) : ReadyOrder needs done (l.flatMap e) := by
  induction l with
  | nil => trivial
  | cons x l ih =>
    rw [List.flatMap_cons]
    exact (h x List.mem_cons_self).append (ih fun y hy => h y (List.mem_cons_of_mem x hy))

/-- Where a node needs its parent only, pre-order is such an order. -/
theorem readyOrder_preorder {children : G → List G} (hneeds : ∀ g, ∀ c ∈ children g, ∀ y ∈ needs c, y = g) :
    ∀ {k : Nat} {g : G} {done : Set G}, (∀ y ∈ needs g, y ∈ done) → ReadyOrder needs done (preorder children k g)
  | 0, _, _, hg => ⟨hg, trivial⟩
  | k + 1, g, done, hg => by
    refine ⟨hg, readyOrder_flatMap fun c hc => readyOrder_preorder hneeds fun y hy => ?_⟩
    rw [hneeds g c hc y hy]
    exact Set.mem_insert g done

variable [DecidableEq G]

/-- The visitor that sets the value of a node, or refuses. -/
def assign (f : G → (G → β) → Option β) (err : Int) (g : G) (s : G → β) : (G → β) × Int :=
  match f g s with
  | none => (s, err)
  | some v => (Function.update s g v, 0)

/-- The value is what is computed. -/
def Solves (f : G → (G → β) → Option β) (s : G → β) (g : G) : Prop := f g s = some (s g)

/-- A walk ends with all values what is computed from them; or at a node that is refused, with what it needs what is computed. -/
theorem visitAll_assign {f : G → (G → β) → Option β} (hf : ∀ x s t, (∀ y ∈ needs x, s y = t y) → f x s = f x t) {err : Int}
    (herr : err ≠ 0) {s : G → β} (hready : ReadyOrder needs done l) (hnodup : l.Nodup) (hfresh : ∀ x ∈ l, x ∉ done)
    (hclosed : ∀ y ∈ done, ∀ z ∈ needs y, z ∈ done) (hdone : ∀ y ∈ done, Solves f s y) :
    ((visitAll (assign f err) l s).2 = 0 ∧ ∀ x, x ∈ done ∨ x ∈ l → Solves f (visitAll (assign f err) l s).1 x) ∨
      ((visitAll (assign f err) l s).2 = err ∧ ∃ x ∈ l, ∃ seen : Set G, (∀ y ∈ needs x, y ∈ seen) ∧
        (∀ y ∈ seen, ∀ z ∈ needs y, z ∈ seen) ∧ (∀ y ∈ seen, Solves f (visitAll (assign f err) l s).1 y) ∧
        f x (visitAll (assign f err) l s).1 = none) := by
  induction l generalizing done s with
  | nil => exact .inl ⟨rfl, fun x hx => hdone x (hx.resolve_right List.not_mem_nil)⟩
  | cons x l ih =>
    rw [visitAll]
    cases hx : f x s with
    | none =>
      have hstop : andThen (assign f err x s) (visitAll (assign f err) l) = (s, err) := by
        rw [assign, hx]
        exact andThen_of_ne herr _
      rw [hstop]
      exact .inr ⟨rfl, x, List.mem_cons_self, done, hready.1, hclosed, hdone, hx⟩
    | some v =>
      have hgo : andThen (assign f err x s) (visitAll (assign f err) l) = visitAll (assign f err) l (Function.update s x v) := by
        rw [assign, hx]
        rfl
      rw [hgo]
      obtain ⟨hxl, hnodup⟩ := List.nodup_cons.1 hnodup
      have hxdone : x ∉ done := hfresh x List.mem_cons_self
      -- what has been set before does not need the node
      have hsame : ∀ y ∈ done, Function.update s x v y = s y := fun y hy =>
        Function.update_of_ne (ne_of_mem_of_not_mem hy hxdone) v s
      have hset : ∀ y, (∀ z ∈ needs y, z ∈ done) → f y (Function.update s x v) = f y s := fun y hy =>
        hf y _ _ fun z hz => hsame z (hy z hz)
      have hnew : ∀ y ∈ insert x done, Solves f (Function.update s x v) y := by
        rintro y (rfl | hy)
        · rw [Solves, hset y hready.1, hx, Function.update_self]
        · rw [Solves, hset y (hclosed y hy), hsame y hy]
          exact hdone y hy
      have hclosed' : ∀ y ∈ insert x done, ∀ z ∈ needs y, z ∈ insert x done := by
        rintro y (rfl | hy) z hz
        · exact .inr (hready.1 z hz)
        · exact .inr (hclosed y hy z hz)
      have hfresh' : ∀ y ∈ l, y ∉ insert x done := by
        rintro y hy (rfl | hydone)
        · exact hxl hy
        · exact hfresh y (List.mem_cons_of_mem x hy) hydone
      rcases ih hready.2 hnodup hfresh' hclosed' hnew with ⟨hzero, hall⟩ | ⟨hr, y, hy, hseen⟩
      · refine .inl ⟨hzero, fun y hy => hall y ?_⟩
        rcases hy with hy | hy
        · exact .inl (.inr hy)
        · rcases List.mem_cons.1 hy with rfl | hy
          · exact .inl (.inl rfl)
          · exact .inr hy
      · exact .inr ⟨hr, y, List.mem_cons_of_mem x hy, hseen⟩

end Descend
