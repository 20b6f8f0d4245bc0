import OsLab.Lemmas.VmemChoose

/-!
# The victim of the clock hand

`choose_victim_second_chance` on a page table of any length. The loop has no bound of its own; it ends in the second round at the
latest, because the first one clears the bits of the pages it passes.
-/

namespace OsLab.Vmem

namespace SecondChance

/-- The scan ends within two rounds. It chooses the first resident page without its bit from the hand on, or the first resident
page if all have it; it clears the bits of the resident pages it passed before, which are all resident ones in the second case,
changes nothing else, and leaves the hand behind the victim. -/
theorem second_chance_scan {n : Nat} (pageTable : Fin n → PageEntry) (hand : Fin n)
    (hres : ∃ p, (pageTable p).state = .resident) :
    ∀ fuel, 2 * n ≤ fuel → ∃ r k, scan fuel pageTable hand = some r ∧ k < n ∧ r.victim = advance hand k ∧
      r.hand.val = (r.victim.val + 1) % n ∧
      ((∃ p, Choosable (pageTable p)) →
        Choosable (pageTable r.victim) ∧ (∀ j, j < k → ¬Choosable (pageTable (advance hand j))) ∧
        ∀ p, r.pageTable p = if (pageTable p).state = .resident ∧ ∃ j < k, advance hand j = p then
          { pageTable p with referenced := false } else pageTable p) ∧
      ((∀ p, ¬Choosable (pageTable p)) →
        (pageTable r.victim).state = .resident ∧ (∀ j, j < k → (pageTable (advance hand j)).state ≠ .resident) ∧
        ∀ p, r.pageTable p = if (pageTable p).state = .resident then { pageTable p with referenced := false } else pageTable p) := by
  intro fuel hfuel
  by_cases hex : ∃ p, Choosable (pageTable p)
  · obtain ⟨k, hk, hc, hpass⟩ := exists_first hand hex
    obtain ⟨l, hl⟩ := scan_choose hk hpass hc (show k < fuel by omega)
    refine ⟨_, k, hl, hk, rfl, rfl, fun _ => ⟨hc, hpass, fun p => rfl⟩, fun hnone => ?_⟩
    obtain ⟨p, hp⟩ := hex
    exact absurd hp (hnone p)
  · obtain ⟨k, hk, hresident, hfirst⟩ := exists_first (P := fun p => (pageTable p).state = .resident) hand hres
    obtain ⟨l, hl⟩ := scan_second_round hk (not_exists.1 hex) hresident hfirst (show n + k < fuel by omega)
    refine ⟨_, k, hl, hk, rfl, rfl, fun h => absurd h hex, fun _ => ⟨hresident, hfirst, fun p => ?_⟩⟩
    -- every page is passed in the first round
    obtain ⟨j, hj, hjp⟩ := exists_advance hand p
    exact if_congr (and_iff_left ⟨j, hj, hjp⟩) rfl rfl

/-- Three pages, the first two resident and referenced. -/
def twoReferenced : Fin 3 → PageEntry := fun i =>
  { state := if i.val < 2 then .resident else .empty, dirty := false, referenced := true, inSwap := false, loadTime := 0 }

/-- From the last page on, the hand clears both bits and chooses the first page in its second round. -/
theorem second_chance_scan_wraps :
    ∃ r k, scan 6 twoReferenced ⟨2, by decide⟩ = some r ∧ k < 3 ∧ r.victim = advance ⟨2, by decide⟩ k ∧ r.hand.val = 1 ∧
      ∀ p, (r.pageTable p).referenced = decide (p.val = 2) := by
  obtain ⟨r, k, hr, hk, hv, hhand, _, hnone⟩ := second_chance_scan twoReferenced ⟨2, by decide⟩ ⟨⟨0, by decide⟩, rfl⟩ 6 (by decide)
  obtain ⟨_, _, htable⟩ := hnone (by simp [Choosable, twoReferenced])
  have hscan : (scan 6 twoReferenced ⟨2, by decide⟩).map (fun r => r.hand.val) = some 1 := by decide
  rw [hr] at hscan
  refine ⟨r, k, hr, hk, hv, Option.some.inj hscan, fun p => ?_⟩
  rw [htable p]
  revert p
  decide

end SecondChance

end OsLab.Vmem
