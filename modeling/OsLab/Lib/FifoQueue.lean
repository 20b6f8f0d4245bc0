import OsLab.Lib.History
import Mathlib.Data.List.Infix
import Mathlib.Data.List.Nodup

/-!
# First-in, first-out replacement

At most `cap` items are kept. Touching an item that is not kept loads it, after evicting the item that was loaded first when
there is no room. The items kept are a queue, in the order of their loads.

`kept`, `LoadsAbsent` and `EvictsFirst` say what the moves of any such replacement should be; `Replaced` is what is kept from
touch to touch, whichever item is evicted.
-/

namespace FifoQueue

variable {α : Type*} [DecidableEq α]

/-- An item comes or goes. -/
inductive Move (α : Type*) where
  | load (a : α)
  | evict (a : α)
  deriving DecidableEq

/-- The queue without its first item when it is full, and the eviction. -/
def room (cap : Nat) (q : List α) : List α × List (Move α) :=
  if q.length < cap then (q, [])
  else
    match q with
    | [] => ([], [])
    | v :: q => (q, [.evict v])

/-- Touching an item: the queue after it, and what came and went. -/
def touch (cap : Nat) (q : List α) (a : α) : List α × List (Move α) :=
  if a ∈ q then (q, []) else ((room cap q).1 ++ [a], (room cap q).2 ++ [.load a])

/-- Touching items one after the other. -/
def touchAll (cap : Nat) (as : List α) : List α × List (Move α) :=
  as.foldl (fun r a => ((touch cap r.1 a).1, r.2 ++ (touch cap r.1 a).2)) ([], [])

/-- One access more. -/
theorem touchAll_snoc (cap : Nat) (as : List α) (a : α) :
    touchAll cap (as ++ [a]) = ((touch cap (touchAll cap as).1 a).1, (touchAll cap as).2 ++ (touch cap (touchAll cap as).1 a).2) := by
  unfold touchAll
  rw [List.foldl_append]
  rfl

/-! ## Moves -/

/-- The items kept after one more move. -/
def keep (q : List α) : Move α → List α
  | .load a => q ++ [a]
  | .evict a => q.erase a

/-- The items kept after the moves, in the order of their most recent loads. -/
def kept (ms : List (Move α)) : List α := ms.foldl keep []

/-- Only items that are not kept are loaded, and none is evicted just before its own load. -/
def LoadsAbsent (ms : List (Move α)) : Prop :=
  ∀ pre a post, ms = pre ++ .load a :: post → a ∉ kept pre ∧ ∀ pre' b, pre = pre' ++ [.evict b] → b ≠ a

/-- Of the items kept, the one whose most recent load is the earliest is evicted. -/
def EvictsFirst (ms : List (Move α)) : Prop := ∀ pre a post, ms = pre ++ .evict a :: post → ∃ rest, kept pre = a :: rest

variable {ms : List (Move α)} {q rest : List α} {a v : α}

/-- One move more. -/
theorem kept_snoc (m : Move α) : kept (ms ++ [m]) = keep (kept ms) m := by
  unfold kept
  rw [List.foldl_append]
  rfl

/-- What is not there is loaded. -/
theorem LoadsAbsent.load (h : LoadsAbsent ms) (ha : a ∉ kept ms) (hb : ∀ pre b, ms = pre ++ [.evict b] → b ≠ a) :
    LoadsAbsent (ms ++ [.load a]) := by
  intro pre x post he
  rcases split_snoc he with ⟨rfl, hx⟩ | ⟨post', he⟩
  · obtain rfl := Move.load.inj hx
    exact ⟨ha, hb⟩
  · exact h pre x post' he

/-- An eviction loads nothing. -/
theorem LoadsAbsent.evict (h : LoadsAbsent ms) : LoadsAbsent (ms ++ [.evict v]) := by
  intro pre x post he
  rcases split_snoc he with ⟨_, hx⟩ | ⟨post', he⟩
  · cases hx
  · exact h pre x post' he

/-- A load evicts nothing. -/
theorem EvictsFirst.load (h : EvictsFirst ms) : EvictsFirst (ms ++ [.load a]) := by
  intro pre x post he
  rcases split_snoc he with ⟨_, hx⟩ | ⟨post', he⟩
  · cases hx
  · exact h pre x post' he

/-- The first is evicted. -/
theorem EvictsFirst.evict (h : EvictsFirst ms) (hk : kept ms = v :: rest) : EvictsFirst (ms ++ [.evict v]) := by
  intro pre x post he
  rcases split_snoc he with ⟨rfl, hx⟩ | ⟨post', he⟩
  · obtain rfl := Move.evict.inj hx
    exact ⟨rest, hk⟩
  · exact h pre x post' he

/-- No item is kept twice. -/
theorem LoadsAbsent.nodup (h : LoadsAbsent ms) : (kept ms).Nodup := by
  induction ms using List.reverseRecOn with
  | nil => exact List.nodup_nil
  | append_singleton ms m ih =>
    have hms : LoadsAbsent ms := by
      intro pre x post he
      exact h pre x (post ++ [m]) (by rw [he, List.append_assoc]; rfl)
    rw [kept_snoc]
    cases m with
    | load a =>
      have ha := (h ms a [] rfl).1
      exact (ih hms).append (List.nodup_singleton a) (List.disjoint_singleton.2 ha)
    | evict a => exact (ih hms).erase a

/-- After the moves the items `q` are kept, only absent items were loaded, and no item is missing its load. -/
structure Replaced (ms : List (Move α)) (q : List α) : Prop where
  kept : kept ms = q
  absent : LoadsAbsent ms
  loaded : ∀ pre b, ms ≠ pre ++ [.evict b]

/-- No moves, and nothing kept. -/
theorem Replaced.nil : Replaced ([] : List (Move α)) [] := by
  refine ⟨rfl, ?_, ?_⟩
  · intro pre a post h
    exact absurd h.symm (List.append_ne_nil_of_right_ne_nil _ (List.cons_ne_nil _ _))
  · intro pre b h
    exact absurd h.symm (List.append_ne_nil_of_right_ne_nil _ (List.cons_ne_nil _ _))

/-- Nothing is kept twice. -/
theorem Replaced.nodup (h : Replaced ms q) : q.Nodup := h.kept ▸ h.absent.nodup

/-- An item is loaded where there is room. -/
theorem Replaced.fill (h : Replaced ms q) (ha : a ∉ q) : Replaced (ms ++ [.load a]) (q ++ [a]) := by
  refine ⟨?_, h.absent.load (h.kept ▸ ha) (fun pre b he => absurd he (h.loaded pre b)), ?_⟩
  · rw [kept_snoc, h.kept]
    rfl
  · intro pre b he
    exact nomatch (List.append_inj' he rfl).2

/-- An item is loaded after another is evicted. -/
theorem Replaced.swap (h : Replaced ms q) (hv : v ∈ q) (ha : a ∉ q) :
    Replaced (ms ++ [.evict v] ++ [.load a]) (q.erase v ++ [a]) := by
  have hk : FifoQueue.kept (ms ++ [.evict v]) = q.erase v := by
    rw [kept_snoc, h.kept]
    rfl
  refine ⟨?_, h.absent.evict.load ?_ ?_, ?_⟩
  · rw [kept_snoc, hk]
    rfl
  · rw [hk]
    exact fun hm => ha (List.mem_of_mem_erase hm)
  · intro pre b he
    obtain ⟨_, hb⟩ := List.append_inj' he rfl
    obtain rfl := Move.evict.inj (List.singleton_inj.1 hb)
    rintro rfl
    exact ha hv
  · intro pre b he
    exact nomatch (List.append_inj' he rfl).2

/-- The moves of the queue: only absent items are loaded, and the first is evicted. -/
theorem touchAll_replaced (cap : Nat) (as : List α) :
    Replaced (touchAll cap as).2 (touchAll cap as).1 ∧ EvictsFirst (touchAll cap as).2 := by
  induction as using List.reverseRecOn with
  | nil =>
    refine ⟨Replaced.nil, ?_⟩
    intro pre a post h
    exact absurd h.symm (List.append_ne_nil_of_right_ne_nil _ (List.cons_ne_nil _ _))
  | append_singleton as a ih =>
    obtain ⟨hr, hf⟩ := ih
    rw [touchAll_snoc]
    unfold touch
    split
    · rw [List.append_nil]
      exact ⟨hr, hf⟩
    · rename_i ha
      unfold room
      split
      · exact ⟨hr.fill ha, hf.load⟩
      · generalize (touchAll cap as).1 = q at hr ha
        cases q with
        | nil => exact ⟨hr.fill ha, hf.load⟩
        | cons v q =>
          have hs := hr.swap List.mem_cons_self ha
          rw [List.erase_cons_head, List.append_assoc] at hs
          have he := (hf.evict hr.kept).load (a := a)
          rw [List.append_assoc] at he
          exact ⟨hs, he⟩

end FifoQueue
