import Mathlib.Data.Finmap
import Mathlib.Data.Fintype.Card
import Mathlib.Data.List.FinRange
import Mathlib.Logic.Equiv.Fintype

/-!
# Tables of slots as finite maps

A table has `n` slots, each empty or holding a key and a value. When no key is in two slots the table is a finite map of at
most `n` entries, whatever slots they are in. `Rep t m` says that the table `t` is the map `m`; changing the value of a slot,
filling an empty one and emptying one are `insert`, `insert` and `erase` of the map.
-/

/-- A table of `n` slots. -/
abbrev Slots (n : Nat) (κ ν : Type*) := Fin n → Option (κ × ν)

namespace Slots

variable {n : Nat} {κ ν : Type*} {t : Slots n κ ν} {i j : Fin n} {k k' : κ} {v v' : ν}

/-- No key is in two slots. -/
def Unique (t : Slots n κ ν) : Prop := ∀ i j k v v', t i = some (k, v) → t j = some (k, v') → i = j

/-- The keys in the table, in the order of the slots. -/
def keyList (t : Slots n κ ν) : List κ := (List.finRange n).filterMap (fun i => (t i).map Prod.fst)

/-- The keys are those of used slots. -/
theorem mem_keyList : k ∈ t.keyList ↔ ∃ i v, t i = some (k, v) := by
  simp [keyList]

/-- In a table without repeated keys the keys are listed once each. -/
theorem Unique.nodup_keyList (h : Unique t) : t.keyList.Nodup := by
  unfold keyList
  refine List.Nodup.filterMap ?_ (List.nodup_finRange n)
  intro i j k hi hj
  simp only [Option.mem_def, Option.map_eq_some_iff] at hi hj
  obtain ⟨⟨_, v⟩, hi, rfl⟩ := hi
  obtain ⟨⟨_, v'⟩, hj, hk⟩ := hj
  simp only at hk
  subst hk
  exact h i j _ v v' hi hj

section Maps

variable [DecidableEq κ] {m : Finmap (fun _ : κ => ν)}

/-- The table is the map. -/
structure Rep (t : Slots n κ ν) (m : Finmap (fun _ : κ => ν)) : Prop where
  unique : Unique t
  lookup_iff : ∀ k v, m.lookup k = some v ↔ ∃ i, t i = some (k, v)

/-- The empty table is the empty map. -/
theorem rep_empty (h : ∀ i, t i = none) : Rep t (∅ : Finmap (fun _ : κ => ν)) := by
  refine ⟨?_, ?_⟩
  · intro i j k v v' hi
    rw [h i] at hi
    cases hi
  · intro k v
    simp [h]

/-- A used slot is in the map. -/
theorem Rep.lookup (h : Rep t m) (hi : t i = some (k, v)) : m.lookup k = some v :=
  (h.lookup_iff k v).2 ⟨i, hi⟩

/-- What no slot has is not. -/
theorem Rep.lookup_none (h : Rep t m) (hk : ∀ i v, t i ≠ some (k, v)) : m.lookup k = none := by
  cases hl : m.lookup k with
  | none => rfl
  | some v =>
    obtain ⟨i, hi⟩ := (h.lookup_iff k v).1 hl
    exact absurd hi (hk i v)

/-- A key is in the map when it is in some slot. -/
theorem Rep.mem_iff (h : Rep t m) : k ∈ m ↔ ∃ i v, t i = some (k, v) := by
  rw [Finmap.mem_iff]
  constructor
  · rintro ⟨v, hv⟩
    obtain ⟨i, hi⟩ := (h.lookup_iff k v).1 hv
    exact ⟨i, v, hi⟩
  · rintro ⟨i, v, hi⟩
    exact ⟨v, h.lookup hi⟩

/-- The keys of the table are the keys of the map. -/
theorem Rep.mem_keyList_iff (h : Rep t m) : k ∈ t.keyList ↔ k ∈ m.keys := by
  rw [mem_keyList, Finmap.mem_keys, h.mem_iff]

/-- Emptying a slot. -/
theorem Rep.erase (h : Rep t m) (hi : t i = some (k, v)) : Rep (Function.update t i none) (m.erase k) := by
  have hold : ∀ a w, Function.update t i none a = some w → a ≠ i ∧ t a = some w := by
    intro a w ha
    by_cases hai : a = i
    · subst hai
      rw [Function.update_self] at ha
      cases ha
    · rw [Function.update_of_ne hai] at ha
      exact ⟨hai, ha⟩
  refine ⟨?_, ?_⟩
  · intro a b q w w' ha hb
    exact h.unique _ _ _ _ _ (hold _ _ ha).2 (hold _ _ hb).2
  · intro q w
    by_cases hq : q = k
    · subst hq
      rw [Finmap.lookup_erase]
      constructor
      · intro hw
        cases hw
      · rintro ⟨a, ha⟩
        obtain ⟨hai, ha⟩ := hold _ _ ha
        exact absurd (h.unique _ _ _ _ _ ha hi) hai
    · rw [Finmap.lookup_erase_ne hq, h.lookup_iff]
      constructor
      · rintro ⟨a, ha⟩
        refine ⟨a, ?_⟩
        rw [Function.update_of_ne, ha]
        rintro rfl
        rw [hi] at ha
        simp only [Option.some.injEq, Prod.mk.injEq] at ha
        exact hq ha.1.symm
      · rintro ⟨a, ha⟩
        exact ⟨a, (hold _ _ ha).2⟩

/-- Filling an empty slot with a new key. -/
theorem Rep.insert (h : Rep t m) (hi : t i = none) (hk : ∀ j w, t j ≠ some (k, w)) (v : ν) :
    Rep (Function.update t i (some (k, v))) (m.insert k v) := by
  have hcases : ∀ a q w, Function.update t i (some (k, v)) a = some (q, w) →
      (a = i ∧ q = k ∧ w = v) ∨ (a ≠ i ∧ q ≠ k ∧ t a = some (q, w)) := by
    intro a q w ha
    by_cases hai : a = i
    · subst hai
      rw [Function.update_self] at ha
      simp only [Option.some.injEq, Prod.mk.injEq] at ha
      exact Or.inl ⟨rfl, ha.1.symm, ha.2.symm⟩
    · rw [Function.update_of_ne hai] at ha
      refine Or.inr ⟨hai, ?_, ha⟩
      rintro rfl
      exact hk a w ha
  refine ⟨?_, ?_⟩
  · intro a b q w w' ha hb
    rcases hcases a q w ha with ⟨rfl, rfl, _⟩ | ⟨_, hq, ha'⟩
    · rcases hcases b _ w' hb with ⟨rfl, _⟩ | ⟨_, hq, _⟩
      · rfl
      · exact absurd rfl hq
    · rcases hcases b q w' hb with ⟨_, hq', _⟩ | ⟨_, _, hb'⟩
      · exact absurd hq' hq
      · exact h.unique _ _ _ _ _ ha' hb'
  · intro q w
    by_cases hq : q = k
    · subst hq
      rw [Finmap.lookup_insert]
      constructor
      · intro hw
        obtain rfl : v = w := by simpa using hw
        exact ⟨i, Function.update_self i _ t⟩
      · rintro ⟨a, ha⟩
        rcases hcases a q w ha with ⟨_, _, rfl⟩ | ⟨_, hq, _⟩
        · rfl
        · exact absurd rfl hq
    · rw [Finmap.lookup_insert_of_ne _ hq, h.lookup_iff]
      constructor
      · rintro ⟨a, ha⟩
        refine ⟨a, ?_⟩
        rw [Function.update_of_ne, ha]
        rintro rfl
        rw [hi] at ha
        cases ha
      · rintro ⟨a, ha⟩
        rcases hcases a q w ha with ⟨_, hqk, _⟩ | ⟨_, _, ha'⟩
        · exact absurd hqk hq
        · exact ⟨a, ha'⟩

/-- Changing the value in a slot: the slot is emptied and filled again. -/
theorem Rep.set (h : Rep t m) (hi : t i = some (k, v)) (v' : ν) :
    Rep (Function.update t i (some (k, v'))) (m.insert k v') := by
  have hfresh : ∀ j w, Function.update t i none j ≠ some (k, w) := by
    intro j w hj
    by_cases hji : j = i
    · subst hji
      rw [Function.update_self] at hj
      cases hj
    · rw [Function.update_of_ne hji] at hj
      exact hji (h.unique _ _ _ _ _ hj hi)
  have hr := (h.erase hi).insert (Function.update_self i none t) hfresh v'
  rw [Function.update_idem] at hr
  have hm : (m.erase k).insert k v' = m.insert k v' := by
    apply Finmap.ext_lookup
    intro q
    by_cases hq : q = k
    · subst hq
      rw [Finmap.lookup_insert, Finmap.lookup_insert]
    · rw [Finmap.lookup_insert_of_ne _ hq, Finmap.lookup_insert_of_ne _ hq, Finmap.lookup_erase_ne hq]
  rw [hm] at hr
  exact hr

/-- The map has as many keys as the table lists. -/
theorem Rep.card_keys (h : Rep t m) : m.keys.card = t.keyList.length := by
  have hk : m.keys = t.keyList.toFinset := by
    ext k
    rw [List.mem_toFinset, h.mem_keyList_iff]
  rw [hk, List.toFinset_card_of_nodup h.unique.nodup_keyList]

/-- Two tables that are the same map hold the same entries, up to a permutation of the slots. -/
theorem Rep.perm {t' : Slots n κ ν} (h : Rep t m) (h' : Rep t' m) : ∃ π : Equiv.Perm (Fin n), ∀ i, t' (π i) = t i := by
  have hex : ∀ i : {i // t i ≠ none}, ∃ j : {j // t' j ≠ none}, t' j = t i := by
    rintro ⟨i, hi⟩
    obtain ⟨⟨k, v⟩, hkv⟩ := Option.ne_none_iff_exists'.1 hi
    obtain ⟨j, hj⟩ := (h'.lookup_iff k v).1 (h.lookup hkv)
    exact ⟨⟨j, hj ▸ nofun⟩, hj.trans hkv.symm⟩
  choose g hg using hex
  have hinj : Function.Injective g := by
    intro a b hab
    obtain ⟨⟨k, v⟩, hkv⟩ := Option.ne_none_iff_exists'.1 a.2
    have hb : t b = some (k, v) := by rw [← hg b, ← hab, hg a, hkv]
    exact Subtype.ext (h.unique _ _ _ _ _ hkv hb)
  have hsurj : Function.Surjective g := by
    rintro ⟨j, hj⟩
    obtain ⟨⟨k, v⟩, hkv⟩ := Option.ne_none_iff_exists'.1 hj
    obtain ⟨i, hi⟩ := (h.lookup_iff k v).1 (h'.lookup hkv)
    refine ⟨⟨i, hi ▸ nofun⟩, Subtype.ext (h'.unique _ _ k v v ?_ hkv)⟩
    rw [hg, hi]
  let e := Equiv.ofBijective g ⟨hinj, hsurj⟩
  refine ⟨e.extendSubtype, fun i => ?_⟩
  -- the slots in use go where their entries are, the others where there is none
  by_cases hi : t i = none
  · have hn := e.extendSubtype_not_mem i (not_not.2 hi)
    rw [hi]
    exact not_not.1 hn
  · rw [e.extendSubtype_apply_of_mem i hi]
    exact hg ⟨i, hi⟩

end Maps

/-- The table is full when it lists as many keys as it has slots. -/
theorem length_keyList_eq_iff (t : Slots n κ ν) : t.keyList.length = n ↔ ∀ i, t i ≠ none := by
  have h : t.keyList.length = (List.finRange n).countP (fun i => (t i).isSome) := by
    unfold keyList
    rw [List.length_filterMap_eq_countP]
    congr 1
    funext i
    cases t i <;> rfl
  rw [h]
  have hn : n = (List.finRange n).length := (List.length_finRange).symm
  conv_lhs => rhs; rw [hn]
  rw [List.countP_eq_length]
  simp [Option.isSome_iff_ne_none]

end Slots
