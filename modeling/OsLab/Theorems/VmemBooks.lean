import OsLab.Lemmas.VmemClock
import OsLab.Theorems.Vmem

/-!
# The books of the pagers

After every access the count, the states and the protections of the pages agree, and the log shows that pages were loaded only
when they were away (`residency_books`). The first and the third program evict the page that was loaded first; the second evicts no
page that was accessed since the clock hand last passed over it (`evicted_had_second_chance`).
-/

namespace OsLab.Vmem

open PagesAux PagerAux RunAux

variable {L : Layout} {s : Vm} {q : List (Fin numVpages)}

namespace BooksAux

/-- The pages listed are counted. -/
theorem booked_of_replaced (hr : FifoQueue.Replaced (moves s.log) q) (hm : ∀ p, p ∈ q ↔ (s.pageTable p).state = .resident)
    (hc : s.residentCount = q.length) (hl : q.length ≤ maxResident) : Booked s := by
  have hset : Finset.univ.filter (fun p => (s.pageTable p).state = .resident) = q.toFinset := by
    ext p
    rw [Finset.mem_filter, List.mem_toFinset, hm]
    exact ⟨fun h => h.2, fun h => ⟨Finset.mem_univ p, h⟩⟩
  refine ⟨?_, ?_, ?_, hr.absent⟩
  · rw [hset, List.toFinset_card_of_nodup hr.nodup, hc]
  · rw [hc]
    exact Int.ofNat_le.2 hl
  · intro p
    rw [hr.kept]
    exact hm p

/-- Pages that moved as in the queue are booked, and went first in, first out. -/
theorem booked_of_queued {good : Page L.pageSize → Prop} {as : List Access} (h : Inv good s q) (hq : Queued L as s q) :
    Booked s ∧ FifoQueue.EvictsFirst (moves s.log) := by
  obtain ⟨hr, hf⟩ := FifoQueue.touchAll_replaced maxResident (pagesOf L as)
  unfold Queued at hq
  rw [hq] at hr hf
  exact ⟨booked_of_replaced hr h.mem_iff h.count h.length_le, hf⟩

end BooksAux

open BooksAux

namespace SecondChance

/-- An access of the second program: `vmem_read` or `vmem_write`, or an access to a byte of the region without them. -/
def accessAny (fuel : Nat) (L : Layout) (limit : Nat) (s : Vm) : PageAccess ⊕ Access → Except Fault (Vm × Option UInt8)
  | .inl a => access fuel L limit s a
  | .inr a => accessWithin (segvHandler fuel L) L limit s a

/-- `vmem_read` and `vmem_write` of a page bring it in, make the access and set the bit. -/
theorem access_bits {fuel : Nat} (hfuel : 2 * numVpages ≤ fuel) (h : Books s q) {a : PageAccess} (ha : a.Valid L) :
    ∃ p s₁ q₁ en, access fuel L 2 s a = .ok ((perform s₁ (a.byte L) p).1.setEntry p en, (perform s₁ (a.byte L) p).2) ∧
      Brings fuel L s q p s₁ q₁ ∧ en.referenced = true ∧ en.state = ((perform s₁ (a.byte L) p).1.pageTable p).state := by
  obtain ⟨p, _, _, hi, hpage⟩ := byte_page ha
  obtain ⟨s₁, q₁, hacc, hb⟩ := h.access hfuel hi 1
  unfold access
  rw [hacc]
  simp only [hpage]
  cases a.store with
  | none => exact ⟨p, s₁, q₁, _, rfl, hb, rfl, rfl⟩
  | some value => exact ⟨p, s₁, q₁, _, rfl, hb, rfl, rfl⟩

/-- The books of the second program, for accesses of both kinds. -/
theorem run_books {fuel : Nat} (hfuel : 2 * numVpages ≤ fuel) (as : List (PageAccess ⊕ Access))
    (hv : ∀ a ∈ as, a.elim (PageAccess.Valid L) (fun a => L.Contains a.addr)) :
    ∃ s outs, Exec.run (accessAny fuel L 2) initVmem as = .ok (s, outs) ∧ ∃ q, Books s q := by
  have hguard : Exec.Along (accessAny fuel L 2) (fun _ => True) initVmem as := fun _ _ _ _ _ => trivial
  refine Exec.run_invariant (I := fun _ s _ => ∃ q, Books s q) ⟨[], books_init⟩ ?_ as hv hguard
  rintro as s outs a ⟨q, h⟩ _ ha
  cases a with
  | inl a =>
    obtain ⟨p, s₁, q₁, en, hacc, hb, _, hst⟩ := access_bits hfuel h ha
    exact ⟨_, _, hacc, q₁, ((hb.books h).1.perform (a.byte L) p).setEntry hst⟩
  | inr a =>
    obtain ⟨p, o, _, hi⟩ := exists_page ha
    obtain ⟨s₁, q₁, hacc, hb⟩ := h.access hfuel hi 1
    exact ⟨_, _, hacc, q₁, (hb.books h).1.perform a p⟩

/-- The second program is fair to the pages it accesses with `vmem_read` and `vmem_write`. -/
theorem run_fair {fuel : Nat} (hfuel : 2 * numVpages ≤ fuel) (as : List PageAccess) (hv : ∀ a ∈ as, a.Valid L) :
    ∃ s outs, Exec.run (access fuel L 2) initVmem as = .ok (s, outs) ∧ (∃ q, Books s q) ∧ Fair s := by
  have hguard : Exec.Along (access fuel L 2) (fun _ => True) initVmem as := fun _ _ _ _ _ => trivial
  refine Exec.run_invariant (I := fun _ s _ => (∃ q, Books s q) ∧ Fair s) ⟨⟨[], books_init⟩, fair_init⟩ ?_ as hv hguard
  rintro as s outs a ⟨⟨q, h⟩, hfair⟩ _ ha
  obtain ⟨p, s₁, q₁, en, hacc, hb, hen, hst⟩ := access_bits hfuel h ha
  obtain ⟨hdue, hev⟩ := hfair.brings hb
  exact ⟨_, _, hacc, ⟨q₁, ((hb.books h).1.perform (a.byte L) p).setEntry hst⟩, Fair.access hdue hev hen⟩

end SecondChance

/-! ## Residency -/

/-- For each program, any sequence of accesses to the region succeeds, so that `load_page` never fails to find a victim, and
leaves the books right. In the first two programs a page is accessible exactly when it is resident; in the third it is read-only
when it is resident and clean, and read-write when it is resident and dirty. The first and the third evict the page that was loaded
first of those that are resident. -/
theorem residency_books (L : Layout) {fuel : Nat} (hfuel : 2 * numVpages ≤ fuel) :
    (∀ as : List Access, (∀ a ∈ as, L.Contains a.addr) → Exec.Along (Fifo.access L 2) FewLoads initVmem as →
      ∃ s outs, Exec.run (Fifo.access L 2) initVmem as = .ok (s, outs) ∧ Booked s ∧
        (∀ p, s.prot p = if (s.pageTable p).state = .resident then .readWrite else .none) ∧
        FifoQueue.EvictsFirst (moves s.log)) ∧
    (∀ as : List (SecondChance.PageAccess ⊕ Access),
      (∀ a ∈ as, a.elim (SecondChance.PageAccess.Valid L) (fun a => L.Contains a.addr)) →
      ∃ s outs, Exec.run (SecondChance.accessAny fuel L 2) initVmem as = .ok (s, outs) ∧ Booked s ∧
        ∀ p, s.prot p = if (s.pageTable p).state = .resident then .readWrite else .none) ∧
    (∀ as : List Access, (∀ a ∈ as, L.Contains a.addr) → Exec.Along (DirtyTracking.access L 2) FewLoads initVmem as →
      ∃ s outs, Exec.run (DirtyTracking.access L 2) initVmem as = .ok (s, outs) ∧ Booked s ∧
        (∀ p, s.prot p = if (s.pageTable p).state = .resident then (if (s.pageTable p).dirty then .readWrite else .read)
          else .none) ∧
        FifoQueue.EvictsFirst (moves s.log)) := by
  refine ⟨?_, ?_, ?_⟩
  · intro as hr hf
    obtain ⟨s, outs, hrun, q, hs, hq, _⟩ := Fifo.run_ok as hr hf
    obtain ⟨hbooked, hfirst⟩ := booked_of_queued hs.inv hq
    refine ⟨s, outs, hrun, hbooked, fun p => ?_, hfirst⟩
    have hgood : Plain (s.pages L p) := hs.inv.good p
    split
    · rename_i hres
      exact (hgood.1 hres).1
    · rename_i hres
      exact hgood.2 hres
  · intro as hv
    obtain ⟨s, outs, hrun, q, hb⟩ := SecondChance.run_books hfuel as hv
    exact ⟨s, outs, hrun, booked_of_replaced hb.replaced hb.mem_iff hb.count hb.length_le, hb.prot⟩
  · intro as hr hf
    obtain ⟨s, outs, hrun, q, hs, hq, _⟩ := DirtyTracking.run_ok as hr hf
    obtain ⟨hbooked, hfirst⟩ := booked_of_queued hs.inv hq
    refine ⟨s, outs, hrun, hbooked, fun p => ?_, hfirst⟩
    have hgood : Tracked (s.pages L p) := hs.inv.good p
    split
    · rename_i hres
      split
      · rename_i hd
        exact hgood.dirty hres hd
      · rename_i hd
        exact (hgood.clean hres (Bool.eq_false_iff.2 hd)).1
    · rename_i hres
      exact (hgood.away hres).1

/-- The books are kept by all three policies. -/
theorem residency_books_small :
    (∃ s outs, Exec.run (Fifo.access smallLayout 2) initVmem smallBytes = .ok (s, outs) ∧ Booked s ∧
      FifoQueue.EvictsFirst (moves s.log)) ∧
    (∃ s outs, Exec.run (SecondChance.accessAny 16 smallLayout 2) initVmem (smallRun.map Sum.inl ++ smallBytes.map Sum.inr) =
      .ok (s, outs) ∧ Booked s) ∧
    ∃ s outs, Exec.run (DirtyTracking.access smallLayout 2) initVmem smallBytes = .ok (s, outs) ∧ Booked s := by
  obtain ⟨hfifo, hchance, hdirty⟩ := residency_books smallLayout (by decide : 2 * numVpages ≤ 16)
  obtain ⟨s₁, outs₁, hrun₁, hb₁, _, hf₁⟩ := hfifo smallBytes smallBytes_contains (along_of_inits rfl)
  obtain ⟨s₂, outs₂, hrun₂, hb₂, _⟩ := hchance (smallRun.map Sum.inl ++ smallBytes.map Sum.inr) (by
    intro a ha
    rcases List.mem_append.1 ha with ha | ha
    · obtain ⟨b, hb, rfl⟩ := List.mem_map.1 ha
      exact (by unfold SecondChance.PageAccess.Valid; decide : ∀ b ∈ smallRun, b.Valid smallLayout) b hb
    · obtain ⟨b, hb, rfl⟩ := List.mem_map.1 ha
      exact smallBytes_contains b hb)
  obtain ⟨s₃, outs₃, hrun₃, hb₃, _, _⟩ := hdirty smallBytes smallBytes_contains (along_of_inits rfl)
  exact ⟨⟨s₁, outs₁, hrun₁, hb₁, hf₁⟩, ⟨s₂, outs₂, hrun₂, hb₂⟩, s₃, outs₃, hrun₃, hb₃⟩

/-! ## Second chances -/

/-- In every run of the second program, by `vmem_read` and `vmem_write` inside the region: a page that is evicted was accessed, and
since its last access the clock hand passed over it once and cleared its bit, before it came back and chose it. -/
theorem evicted_had_second_chance (L : Layout) {fuel : Nat} (hfuel : 2 * numVpages ≤ fuel)
    (as : List SecondChance.PageAccess) (hr : ∀ a ∈ as, a.Valid L) :
    ∃ s outs, Exec.run (SecondChance.access fuel L 2) initVmem as = .ok (s, outs) ∧
      ∀ pre v wrote post, s.log = pre ++ .evict v wrote :: post → Chanced v pre := by
  obtain ⟨s, outs, hrun, _, hfair⟩ := SecondChance.run_fair hfuel as hr
  exact ⟨s, outs, hrun, hfair.evicted⟩

/-- The event is in the log of the run. -/
def logged (e : Event) (r : Except Fault (Vm × List (Option UInt8))) : Bool :=
  match r with
  | .ok (s, _) => decide (e ∈ s.log)
  | .error _ => false

/-- Page 0 is evicted when the fifth page comes in. -/
theorem evicted_had_second_chance_small :
    ∃ s outs pre post, Exec.run (SecondChance.access 16 smallLayout 2) initVmem smallRun = .ok (s, outs) ∧
      s.log = pre ++ .evict ⟨0, by decide⟩ true :: post ∧ Chanced ⟨0, by decide⟩ pre := by
  obtain ⟨s, outs, hrun, h⟩ := evicted_had_second_chance smallLayout (by decide : 2 * numVpages ≤ 16) smallRun
    (by unfold SecondChance.PageAccess.Valid; decide)
  have hl : logged (.evict ⟨0, by decide⟩ true) (Exec.run (SecondChance.access 16 smallLayout 2) initVmem smallRun) = true := by
    rfl
  rw [hrun] at hl
  obtain ⟨pre, post, heq⟩ := List.append_of_mem (of_decide_eq_true hl)
  exact ⟨s, outs, pre, post, hrun, heq, h pre _ true post heq⟩

end OsLab.Vmem
