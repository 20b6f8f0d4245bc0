import Mathlib.Data.List.Pairwise

/-!
# Linked segments

A linked structure seen as a list. A node `b` stands at `addr b`, links to `next b`, and `holds b` says that the store has the
node as `b` describes it. `Seg addr holds next p bs q` says that the links lead from `p` through exactly the nodes `bs` to `q`.
The segment is a function of its end points and of the nodes it runs over: `Seg.congr` moves it to a store that agrees there.
-/

variable {κ β : Type*} {addr next next' : β → κ} {holds holds' : β → Prop}

/-- The links lead from `p` through the nodes `bs`, in this order, to `q`. -/
def Seg (addr : β → κ) (holds : β → Prop) (next : β → κ) : κ → List β → κ → Prop
  | p, [], q => p = q
  | p, b :: bs, q => p = addr b ∧ holds b ∧ Seg addr holds next (next b) bs q

namespace Seg

@[simp] theorem nil_iff {p q : κ} : Seg addr holds next p [] q ↔ p = q := Iff.rfl

@[simp] theorem cons_iff {p q : κ} {b : β} {bs : List β} :
    Seg addr holds next p (b :: bs) q ↔ p = addr b ∧ holds b ∧ Seg addr holds next (next b) bs q := Iff.rfl

/-- Segments compose, and a segment splits at any node boundary. -/
theorem append_iff {p q : κ} {bs cs : List β} :
    Seg addr holds next p (bs ++ cs) q ↔ ∃ r, Seg addr holds next p bs r ∧ Seg addr holds next r cs q := by
  induction bs generalizing p with
  | nil => simp
  | cons b bs ih =>
    simp only [List.cons_append, cons_iff, ih]
    constructor
    · rintro ⟨h1, h2, r, h3, h4⟩
      exact ⟨r, ⟨h1, h2, h3⟩, h4⟩
    · rintro ⟨r, ⟨h1, h2, h3⟩, h4⟩
      exact ⟨h1, h2, r, h3, h4⟩

/-- Every node of a segment is held. -/
theorem holds_of_mem {p q : κ} {bs : List β} (h : Seg addr holds next p bs q) : ∀ b ∈ bs, holds b := by
  induction bs generalizing p with
  | nil => intro b hb; cases hb
  | cons c cs ih =>
    intro b hb
    rcases List.mem_cons.1 hb with rfl | hb
    · exact h.2.1
    · exact ih h.2.2 b hb

/-- A segment over the same nodes is a segment in a store that holds them with the same links. -/
theorem congr {p q : κ} {bs : List β} (h : Seg addr holds next p bs q) (hh : ∀ b ∈ bs, holds b → holds' b)
    (hn : ∀ b ∈ bs, next' b = next b) : Seg addr holds' next' p bs q := by
  induction bs generalizing p with
  | nil => exact h
  | cons b bs ih =>
    obtain ⟨h1, h2, h3⟩ := h
    refine ⟨h1, hh b (by simp) h2, ?_⟩
    rw [hn b (by simp)]
    exact ih h3 (fun c hc => hh c (by simp [hc])) (fun c hc => hn c (by simp [hc]))

end Seg
