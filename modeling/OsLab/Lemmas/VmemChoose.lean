import OsLab.Vmem

/-!
# Choosing a victim

`choose_victim_fifo` finds the resident page that was loaded first. The clock hand of `choose_victim_second_chance` finds a
resident page within two rounds, and changes nothing but referenced bits.
-/

namespace OsLab.Vmem

namespace ChooseAux

variable {n : Nat} {pageTable : Fin n → PageEntry}

/-! ## First in, first out -/

/-- One iteration of `choose_victim_fifo`. -/
def oldest (pageTable : Fin n → PageEntry) (acc : Option (Fin n) × Nat) (i : Fin n) : Option (Fin n) × Nat :=
  if (pageTable i).state = .resident ∧ (pageTable i).loadTime < acc.2 then (some i, (pageTable i).loadTime) else acc

/-- `v` is resident and was loaded before every other resident page. -/
def First (pageTable : Fin n → PageEntry) (v : Fin n) : Prop :=
  (pageTable v).state = .resident ∧
    ∀ i, i ≠ v → (pageTable i).state = .resident → (pageTable v).loadTime < (pageTable i).loadTime

/-- Once found, the first page stays. -/
theorem foldl_oldest_stays {v : Fin n} (h : First pageTable v) (l : List (Fin n)) :
    l.foldl (oldest pageTable) (some v, (pageTable v).loadTime) = (some v, (pageTable v).loadTime) := by
  induction l with
  | nil => rfl
  | cons i l ih =>
    have hi : oldest pageTable (some v, (pageTable v).loadTime) i = (some v, (pageTable v).loadTime) := by
      refine if_neg ?_
      rintro ⟨hres, hlt⟩
      by_cases hv : i = v
      · subst hv
        exact Nat.lt_irrefl _ hlt
      · exact Nat.lt_asymm hlt (h.2 i hv hres)
    rw [List.foldl_cons, hi, ih]

/-- It is found when the list has it and the best time so far is later. -/
theorem foldl_oldest_finds {v : Fin n} (h : First pageTable v) (l : List (Fin n)) (hl : v ∈ l) (acc : Option (Fin n) × Nat)
    (ha : (pageTable v).loadTime < acc.2) : (l.foldl (oldest pageTable) acc).1 = some v := by
  induction l generalizing acc with
  | nil => exact absurd hl List.not_mem_nil
  | cons i l ih =>
    rw [List.foldl_cons]
    by_cases hv : i = v
    · subst hv
      have hi : oldest pageTable acc i = (some i, (pageTable i).loadTime) := if_pos ⟨h.1, ha⟩
      rw [hi, foldl_oldest_stays h]
    · refine ih ((List.mem_cons.1 hl).resolve_left (fun he => hv he.symm)) _ ?_
      unfold oldest
      split
      · rename_i hc
        exact h.2 i hv hc.1
      · exact ha

/-- `choose_victim_fifo` chooses the page that was loaded first. -/
theorem chooseVictimFifo_first {v : Fin n} (h : First pageTable v) (ht : (pageTable v).loadTime < ulongMax) :
    chooseVictimFifo pageTable = some v :=
  foldl_oldest_finds h _ (List.mem_finRange v) (none, ulongMax) ht

end ChooseAux

/-! ## Second chance -/

namespace SecondChance

variable {n : Nat} {pageTable : Fin n → PageEntry} {hand : Fin n}

/-- The hand, so many steps on. -/
def advance (hand : Fin n) (k : Nat) : Fin n := ⟨(hand + k) % n, Nat.mod_lt _ (Nat.zero_lt_of_lt hand.isLt)⟩

theorem advance_zero : advance hand 0 = hand := Fin.ext (Nat.mod_eq_of_lt hand.isLt)

theorem advance_succ (k : Nat) : advance hand (k + 1) = nextHand (advance hand k) := by
  apply Fin.ext
  simp only [advance, nextHand, Nat.mod_add_mod]
  rfl

/-- One round brings the hand back. -/
theorem advance_round : advance hand n = hand := by
  apply Fin.ext
  simp only [advance, Nat.add_mod_right]
  exact Nat.mod_eq_of_lt hand.isLt

/-- The hand comes to every page within a round. -/
theorem exists_advance (hand p : Fin n) : ∃ k < n, advance hand k = p := by
  have hh := hand.isLt
  have hp := p.isLt
  by_cases hle : hand.val ≤ p.val
  · refine ⟨p.val - hand.val, by omega, Fin.ext ?_⟩
    simp only [advance]
    rw [Nat.add_sub_cancel' hle, Nat.mod_eq_of_lt hp]
  · refine ⟨n + p.val - hand.val, by omega, Fin.ext ?_⟩
    simp only [advance]
    rw [Nat.add_sub_cancel' (by omega), Nat.add_mod_left, Nat.mod_eq_of_lt hp]

/-- Within a round the hand does not come back. -/
theorem advance_ne {k : Nat} (h0 : 0 < k) (hk : k < n) : advance hand k ≠ hand := by
  intro he
  have hh := hand.isLt
  have hv := congrArg Fin.val he
  simp only [advance] at hv
  by_cases hlt : hand.val + k < n
  · rw [Nat.mod_eq_of_lt hlt] at hv
    omega
  · rw [Nat.mod_eq_sub_mod (by omega), Nat.mod_eq_of_lt (by omega)] at hv
    omega

/-- The page would be chosen by the hand. -/
def Choosable (e : PageEntry) : Prop := e.state = .resident ∧ e.referenced = false

/-! ### What the hand passes -/

theorem advance_add (j k : Nat) : advance (advance hand j) k = advance hand (j + k) := by
  apply Fin.ext
  simp only [advance, Nat.mod_add_mod, Nat.add_assoc]

/-- Within a round the hand comes to no page twice. -/
theorem advance_ne_advance {j k : Nat} (hjk : j < k) (hk : k < n) : advance hand j ≠ advance hand k := by
  obtain ⟨d, rfl⟩ := Nat.exists_eq_add_of_lt hjk
  rw [Nat.add_assoc, ← advance_add]
  exact (advance_ne (Nat.succ_pos d) (by omega)).symm

/-- The page table after the hand has gone so many steps without a choice: the bits of the resident pages it passed are cleared. -/
def cleared (pageTable : Fin n → PageEntry) (hand : Fin n) (k : Nat) : Fin n → PageEntry := fun p =>
  if (pageTable p).state = .resident ∧ ∃ j < k, advance hand j = p then { pageTable p with referenced := false } else pageTable p

theorem cleared_zero : cleared pageTable hand 0 = pageTable := by
  funext p
  simp [cleared]

/-- The page the hand comes to is as it was. -/
theorem cleared_advance {k : Nat} (hk : k < n) : cleared pageTable hand k (advance hand k) = pageTable (advance hand k) := by
  refine if_neg ?_
  rintro ⟨_, j, hj, he⟩
  exact advance_ne_advance hj hk he

/-- Passing a page that is not resident clears nothing. -/
theorem cleared_succ_of_not_resident {k : Nat} (hres : (pageTable (advance hand k)).state ≠ .resident) :
    cleared pageTable hand (k + 1) = cleared pageTable hand k := by
  funext p
  unfold cleared
  refine if_congr (and_congr_right fun hp => ?_) rfl rfl
  constructor
  · rintro ⟨j, hj, rfl⟩
    refine ⟨j, Nat.lt_of_le_of_ne (Nat.le_of_lt_succ hj) ?_, rfl⟩
    rintro rfl
    exact hres hp
  · rintro ⟨j, hj, rfl⟩
    exact ⟨j, Nat.lt_succ_of_lt hj, rfl⟩

/-- Passing a resident page clears its bit. -/
theorem cleared_succ_of_resident {k : Nat} (hk : k < n) (hres : (pageTable (advance hand k)).state = .resident) :
    cleared pageTable hand (k + 1) =
      Function.update (cleared pageTable hand k) (advance hand k)
        { cleared pageTable hand k (advance hand k) with referenced := false } := by
  funext p
  by_cases hp : p = advance hand k
  · subst hp
    rw [Function.update_self, cleared_advance hk]
    exact if_pos ⟨hres, k, Nat.lt_succ_self k, rfl⟩
  · rw [Function.update_of_ne hp]
    unfold cleared
    refine if_congr (and_congr_right fun _ => ⟨?_, ?_⟩) rfl rfl
    · rintro ⟨j, hj, rfl⟩
      refine ⟨j, Nat.lt_of_le_of_ne (Nat.le_of_lt_succ hj) ?_, rfl⟩
      rintro rfl
      exact hp rfl
    · rintro ⟨j, hj, he⟩
      exact ⟨j, Nat.lt_succ_of_lt hj, he⟩

/-- A scan that meets no page it would choose in its first steps goes on behind them, with the bits of what it passed cleared. -/
theorem scan_pass (k : Nat) (hk : k ≤ n) (hpass : ∀ j, j < k → ¬Choosable (pageTable (advance hand j))) :
    ∀ fuel, ∃ l, scan (fuel + k) pageTable hand =
      (scan fuel (cleared pageTable hand k) (advance hand k)).map (fun r => { r with skipped := l ++ r.skipped }) := by
  induction k with
  | zero =>
    intro fuel
    refine ⟨[], ?_⟩
    rw [cleared_zero, advance_zero]
    exact Option.map_id'.symm
  | succ k ih =>
    intro fuel
    obtain ⟨l, hl⟩ := ih (Nat.le_of_succ_le hk) (fun j hj => hpass j (Nat.lt_succ_of_lt hj)) (fuel + 1)
    have hentry : cleared pageTable hand k (advance hand k) = pageTable (advance hand k) :=
      cleared_advance (Nat.lt_of_succ_le hk)
    rw [Nat.add_comm k 1, ← Nat.add_assoc, hl, Nat.add_comm 1 k, advance_succ]
    simp only [scan]
    by_cases hres : (pageTable (advance hand k)).state = .resident
    · -- a page passed is referenced, or it would be chosen
      have href : (pageTable (advance hand k)).referenced = true := by
        by_contra h
        exact hpass k (Nat.lt_succ_self k) ⟨hres, by simpa using h⟩
      refine ⟨l ++ [advance hand k], ?_⟩
      rw [cleared_succ_of_resident (Nat.lt_of_succ_le hk) hres, hentry, if_pos hres, if_pos href, Option.map_map]
      congr 1
      funext r
      simp
    · refine ⟨l, ?_⟩
      rw [cleared_succ_of_not_resident hres, hentry, if_neg hres]

/-- A scan that comes to a page it would choose ends there. -/
theorem scan_choose {k fuel : Nat} (hk : k < n) (hpass : ∀ j, j < k → ¬Choosable (pageTable (advance hand j)))
    (hc : Choosable (pageTable (advance hand k))) (hfuel : k < fuel) :
    ∃ l, scan fuel pageTable hand = some { victim := advance hand k, pageTable := cleared pageTable hand k,
                                           hand := nextHand (advance hand k), skipped := l } := by
  obtain ⟨m, rfl⟩ := Nat.exists_eq_add_of_lt hfuel
  obtain ⟨l, hl⟩ := scan_pass k (Nat.le_of_lt hk) hpass (m + 1)
  refine ⟨l, ?_⟩
  rw [show k + m + 1 = m + 1 + k by omega, hl]
  simp only [scan]
  rw [cleared_advance hk, if_pos hc.1, if_neg (by simp [hc.2])]
  simp

/-- The first place in a round where something holds that holds somewhere. -/
theorem exists_first {P : Fin n → Prop} (hand : Fin n) (h : ∃ p, P p) :
    ∃ k < n, P (advance hand k) ∧ ∀ j, j < k → ¬P (advance hand j) := by
  classical
  have hex : ∃ k, k < n ∧ P (advance hand k) := by
    obtain ⟨p, hp⟩ := h
    obtain ⟨k, hk, rfl⟩ := exists_advance hand p
    exact ⟨k, hk, hp⟩
  refine ⟨Nat.find hex, (Nat.find_spec hex).1, (Nat.find_spec hex).2, fun j hj hp => ?_⟩
  exact Nat.find_min hex hj ⟨Nat.lt_trans hj (Nat.find_spec hex).1, hp⟩

/-- The scan when no resident page is unreferenced: after a round that clears every bit, the first resident page is chosen. -/
theorem scan_second_round {k fuel : Nat} (hk : k < n) (hnone : ∀ p, ¬Choosable (pageTable p))
    (hres : (pageTable (advance hand k)).state = .resident)
    (hfirst : ∀ j, j < k → (pageTable (advance hand j)).state ≠ .resident) (hfuel : n + k < fuel) :
    ∃ l, scan fuel pageTable hand = some { victim := advance hand k, pageTable := cleared pageTable hand n,
                                           hand := nextHand (advance hand k), skipped := l } := by
  have hstate : ∀ p, (cleared pageTable hand n p).state = (pageTable p).state := by
    intro p
    unfold cleared
    split <;> rfl
  obtain ⟨m, rfl⟩ := Nat.exists_eq_add_of_lt hfuel
  obtain ⟨l, hl⟩ := scan_pass n (Nat.le_refl n) (fun j _ => hnone (advance hand j)) (k + m + 1)
  have hchoose : Choosable (cleared pageTable hand n (advance hand k)) := by
    refine ⟨(hstate _).trans hres, ?_⟩
    unfold cleared
    rw [if_pos ⟨hres, k, hk, rfl⟩]
  have hpass : ∀ j, j < k → ¬Choosable (cleared pageTable hand n (advance hand j)) :=
    fun j hj hc => hfirst j hj ((hstate _).symm.trans hc.1)
  -- in the second round the hand passes no resident page, and clears nothing more
  have hsame : cleared (cleared pageTable hand n) hand k = cleared pageTable hand n := by
    funext p
    refine if_neg ?_
    rintro ⟨hp, j, hj, rfl⟩
    exact hfirst j hj ((hstate _).symm.trans hp)
  obtain ⟨l', hl'⟩ := scan_choose hk hpass hchoose (show k < k + m + 1 by omega)
  refine ⟨l ++ l', ?_⟩
  rw [show n + k + m + 1 = k + m + 1 + n by omega, hl, advance_round, hl', hsame]
  rfl

/-- With a resident page the scan ends within two rounds. -/
theorem scan_terminates (hand : Fin n) {p : Fin n} (hp : (pageTable p).state = .resident) {fuel : Nat} (hf : 2 * n ≤ fuel) :
    ∃ r, scan fuel pageTable hand = some r := by
  by_cases hex : ∃ p, Choosable (pageTable p)
  · obtain ⟨k, hk, hc, hpass⟩ := exists_first hand hex
    obtain ⟨l, hl⟩ := scan_choose hk hpass hc (show k < fuel by omega)
    exact ⟨_, hl⟩
  · obtain ⟨k, hk, hres, hfirst⟩ := exists_first (P := fun p => (pageTable p).state = .resident) hand ⟨p, hp⟩
    obtain ⟨l, hl⟩ := scan_second_round hk (not_exists.1 hex) hres hfirst (show n + k < fuel by omega)
    exact ⟨_, hl⟩

/-- The victim of a scan is resident, and the scan changes referenced bits only. -/
theorem scan_some {fuel : Nat} {r : Scan n} (h : scan fuel pageTable hand = some r) :
    (pageTable r.victim).state = .resident ∧
      ∀ p, r.pageTable p = { pageTable p with referenced := (r.pageTable p).referenced } := by
  induction fuel generalizing pageTable hand r with
  | zero => cases h
  | succ fuel ih =>
    simp only [scan] at h
    by_cases hres : (pageTable hand).state = .resident
    · rw [if_pos hres] at h
      by_cases href : (pageTable hand).referenced = true
      · rw [if_pos href, Option.map_eq_some_iff] at h
        obtain ⟨r', h, rfl⟩ := h
        obtain ⟨hv, ht⟩ := ih h
        have hsame : ∀ p, Function.update pageTable hand { pageTable hand with referenced := false } p =
            { pageTable p with referenced :=
                (Function.update pageTable hand { pageTable hand with referenced := false } p).referenced } := by
          intro p
          by_cases hp : p = hand
          · subst hp
            rw [Function.update_self]
          · rw [Function.update_of_ne hp]
        refine ⟨?_, ?_⟩
        · rw [hsame] at hv
          exact hv
        · intro p
          have := ht p
          rw [hsame] at this
          exact this
      · rw [if_neg href] at h
        obtain rfl := Option.some.inj h
        exact ⟨hres, fun _ => rfl⟩
    · rw [if_neg hres] at h
      exact ih h

end SecondChance

end OsLab.Vmem
