import OsLab.Lemmas.VmemChoose
import OsLab.Lemmas.VmemPager

/-!
# The three pagers are lawful

For each program: which pages are good, what eviction and mapping do to a page, and that a victim is found. In the first two a
resident page is dirty from its load on, so its eviction saves it. In the third a clean page is as its slot in the swap file, or
zero if it has none, so nothing is lost when it is dropped.
-/

namespace OsLab.Vmem

open PagesAux PagerAux ChooseAux

variable {L : Layout} {s s' : Vm} {p v : Fin numVpages} {q q' : List (Fin numVpages)}

namespace ProgramsAux

@[simp] theorem saveIf_pageTable (d : Bool) : (s.saveIf L v d).pageTable = s.pageTable := by cases d <;> rfl

@[simp] theorem saveIf_residentCount (d : Bool) : (s.saveIf L v d).residentCount = s.residentCount := by cases d <;> rfl

@[simp] theorem saveIf_clockTick (d : Bool) : (s.saveIf L v d).clockTick = s.clockTick := by cases d <;> rfl

@[simp] theorem saveIf_log (d : Bool) : (s.saveIf L v d).log = s.log := by cases d <;> rfl

@[simp] theorem fetch_pageTable (d : Bool) : (s.fetch L p d).pageTable = s.pageTable := by cases d <;> rfl

@[simp] theorem fetch_residentCount (d : Bool) : (s.fetch L p d).residentCount = s.residentCount := by cases d <;> rfl

@[simp] theorem fetch_clockTick (d : Bool) : (s.fetch L p d).clockTick = s.clockTick := by cases d <;> rfl

@[simp] theorem fetch_log (d : Bool) : (s.fetch L p d).log = s.log := by cases d <;> rfl

/-- A page is saved or not, unmapped, and its entry is written. -/
theorem pages_save (d : Bool) (prot : Prot) (e : PageEntry) :
    (((s.saveIf L v d).mprotect v prot).setEntry v e).pages L =
      Function.update (s.pages L) v
        { entry := e, prot := prot, frame := (s.pages L v).frame,
          slot := if d then (s.pages L v).frame else (s.pages L v).slot } := by
  rw [pages_setEntry, pages_mprotect, Function.update_self, Function.update_idem]
  cases d with
  | true => simp only [Vm.saveIf, if_true, pages_swapOut, Function.update_self, Function.update_idem]
  | false => rfl

/-- A page is mapped and filled, from its slot or with zeros, and its entry is written. -/
theorem pages_fetch (d : Bool) (prot : Prot) (e : PageEntry) :
    (((s.mprotect p prot).fetch L p d).setEntry p e).pages L =
      Function.update (s.pages L) p
        { entry := e, prot := prot, frame := if d then (s.pages L p).slot else fun _ => 0, slot := (s.pages L p).slot } := by
  rw [pages_setEntry]
  cases d with
  | true =>
    rw [Vm.fetch, if_pos rfl, pages_swapIn, pages_mprotect]
    simp only [Function.update_self, Function.update_idem, if_true]
  | false =>
    rw [Vm.fetch, if_neg (by decide), pages_zeroPage, pages_mprotect]
    simp only [Function.update_self, Function.update_idem, Bool.false_eq_true, if_false]

end ProgramsAux

open ProgramsAux

/-! ## First in, first out -/

/-- Resident pages are mapped read-write and dirty, and the others are not mapped. -/
def Plain {n : Nat} (g : Page n) : Prop :=
  (g.entry.state = .resident → g.prot = .readWrite ∧ g.entry.dirty = true) ∧ (g.entry.state ≠ .resident → g.prot = .none)

/-- A page with a protection is resident. -/
theorem Plain.resident_of_prot {n : Nat} {g : Page n} (h : Plain g) (hp : g.prot ≠ .none) : g.entry.state = .resident := by
  by_cases hr : g.entry.state = .resident
  · exact hr
  · exact absurd (h.2 hr) hp

/-- A page saved to its slot when it is dirty, as a plain resident page is, keeps what it holds. -/
theorem Plain.contents_saved {n : Nat} {g g' : Page n} (h : Plain g) (hr : g.entry.state = .resident)
    (hs : g'.entry.state = .swapped) (hslot : g'.slot = if g.entry.dirty then g.frame else g.slot) :
    g'.contents = g.contents := by
  simp only [Page.contents, hs, hr, hslot, (h.1 hr).2, if_true]

/-- A page fetched from its slot when it is swapped, and zeroed else, keeps what it holds. -/
theorem contents_fetched {n : Nat} {g g' : Page n} (hr : g.entry.state ≠ .resident) (hs : g'.entry.state = .resident)
    (hframe : g'.frame = if decide (g.entry.state = .swapped) then g.slot else fun _ => 0) : g'.contents = g.contents := by
  cases hst : g.entry.state with
  | resident => exact absurd hst hr
  | empty => simp [Page.contents, hs, hframe, hst]
  | swapped => simp [Page.contents, hs, hframe, hst]

/-- The page that was loaded first is chosen. -/
theorem Fifo.chooseVictim_head {good : Page L.pageSize → Prop} (h : Inv good s (v :: q)) (hf : FewLoads s) :
    Fifo.chooseVictim s = .ok (s, v) := by
  have hsorted := List.pairwise_cons.1 h.sorted
  have hfirst : First s.pageTable v := by
    refine ⟨(h.mem_iff v).1 List.mem_cons_self, ?_⟩
    intro i hi hres
    have hm : i ∈ q := (List.mem_cons.1 ((h.mem_iff i).2 hres)).resolve_left hi
    exact hsorted.1 i hm
  have htime : (s.pageTable v).loadTime < ulongMax := by
    have := h.le_tick v List.mem_cons_self
    rw [h.tick] at this
    exact Nat.lt_of_le_of_lt this hf
  unfold Fifo.chooseVictim
  rw [chooseVictimFifo_first hfirst htime]

/-- When all frames are taken, FIFO finds a resident page, and changes nothing that matters. -/
theorem Fifo.exists_victim {good : Page L.pageSize → Prop} (h : Inv good s q) (hq : q.length = maxResident) (hf : FewLoads s) :
    ∃ s₁ v, Fifo.chooseVictim s = .ok (s₁, v) ∧ v ∈ q ∧ Inv good s₁ q ∧ Same L s s₁ := by
  cases q with
  | nil => cases hq
  | cons v q =>
    exact ⟨s, v, Fifo.chooseVictim_head h hf, List.mem_cons_self, h, ⟨fun _ => rfl, rfl, rfl⟩⟩

/-- The first program's pager is lawful. -/
def Fifo.lawful (L : Layout) : Lawful Fifo.pager L where
  good := Plain
  evicted g :=
    { entry := { g.entry with state := .swapped, dirty := false, loadTime := 0 }, prot := .none, frame := g.frame,
      slot := if g.entry.dirty then g.frame else g.slot }
  mapped t g :=
    { entry := { g.entry with state := .resident, dirty := true, loadTime := t }, prot := .readWrite,
      frame := if decide (g.entry.state = .swapped) then g.slot else fun _ => 0, slot := g.slot }
  pages_evict s v := by
    refine (pages_save (s.pageTable v).dirty .none _).trans ?_
    simp only [Vm.mprotect, saveIf_pageTable]
    rfl
  count_evict s v := by simp [pager, evictPage, Vm.mprotect, Vm.setEntry]
  tick_evict s v := by simp [pager, evictPage, Vm.mprotect, Vm.setEntry]
  log_evict s v := by simp [pager, evictPage, Vm.mprotect, Vm.setEntry]
  pages_map s p := by
    refine (pages_fetch (decide ((s.pageTable p).state = .swapped)) .readWrite _).trans ?_
    simp only [Vm.mprotect, fetch_pageTable, fetch_clockTick]
    rfl
  count_map s p := by simp [pager, mapPage, Vm.mprotect, Vm.setEntry]
  tick_map s p := by simp [pager, mapPage, Vm.mprotect]
  log_map s p := by simp [pager, mapPage, Vm.mprotect, Vm.setEntry]
  good_evicted g _ _ := ⟨fun h => PageState.noConfusion h, fun _ => rfl⟩
  state_evicted g h := PageState.noConfusion h
  contents_evicted g h hr := h.contents_saved hr rfl rfl
  good_mapped t g _ _ := ⟨fun _ => ⟨rfl, rfl⟩, fun h => absurd rfl h⟩
  state_mapped t g := rfl
  time_mapped t g := rfl
  contents_mapped t g _ hr := contents_fetched hr rfl rfl
  resident_of_prot g h hp := h.resident_of_prot hp
  good_store g f h _ := h
  choose s q h hq hf := Fifo.exists_victim h hq hf

/-! ## Second chance -/

/-- The scan changes referenced bits only, so it leaves the books. -/
theorem SecondChance.exists_victim {fuel : Nat} (hfuel : 2 * numVpages ≤ fuel) (h : Inv (Plain (n := L.pageSize)) s q)
    (hq : q.length = maxResident) :
    ∃ s₁ v, SecondChance.chooseVictim fuel s = .ok (s₁, v) ∧ v ∈ q ∧ Inv (Plain (n := L.pageSize)) s₁ q ∧ Same L s s₁ := by
  obtain ⟨p, hp⟩ := List.exists_mem_of_length_pos (l := q) (by rw [hq]; decide)
  obtain ⟨r, hr⟩ := SecondChance.scan_terminates s.clockCircle ((h.mem_iff p).1 hp) hfuel
  obtain ⟨hv, hbits⟩ := SecondChance.scan_some hr
  have hskip : ∀ l : List (Fin numVpages), moves (l.map .secondChance) = [] ∧ (l.map .secondChance).countP Event.isLoad = 0 := by
    intro l
    induction l with
    | nil => exact ⟨rfl, rfl⟩
    | cons _ _ ih => exact ih
  have hstate : ∀ p, (r.pageTable p).state = (s.pageTable p).state := fun p => by rw [hbits p]
  have htime : ∀ p, (r.pageTable p).loadTime = (s.pageTable p).loadTime := fun p => by rw [hbits p]
  unfold SecondChance.chooseVictim
  rw [hr]
  refine ⟨_, _, rfl, (h.mem_iff _).2 hv, ?_, ?_, ?_, ?_⟩
  · refine Inv.congr h ?_ hstate htime rfl rfl (loads_same rfl (hskip r.skipped).2)
    intro p
    have hgood := h.good p
    unfold Plain at hgood ⊢
    simp only [Vm.pages] at hgood ⊢
    rw [hbits p]
    exact hgood
  · intro p
    simp only [Page.contents, Vm.pages, hstate p]
  · rw [moves_append, (hskip r.skipped).1, List.append_nil]
  · exact loads_same rfl (hskip r.skipped).2

/-- The second program's pager is lawful, with the scan given two rounds. -/
def SecondChance.lawful (L : Layout) {fuel : Nat} (hfuel : 2 * numVpages ≤ fuel) : Lawful (SecondChance.pager fuel) L where
  good := Plain
  evicted g :=
    { entry := { g.entry with state := .swapped, dirty := false, referenced := false, loadTime := 0 }, prot := .none,
      frame := g.frame, slot := if g.entry.dirty then g.frame else g.slot }
  mapped t g :=
    { entry := { g.entry with state := .resident, dirty := true, referenced := false, loadTime := t }, prot := .readWrite,
      frame := if decide (g.entry.state = .swapped) then g.slot else fun _ => 0, slot := g.slot }
  pages_evict s v := by
    refine (pages_save (s.pageTable v).dirty .none _).trans ?_
    simp only [Vm.mprotect, saveIf_pageTable]
    rfl
  count_evict s v := by simp [pager, evictPage, Vm.mprotect, Vm.setEntry]
  tick_evict s v := by simp [pager, evictPage, Vm.mprotect, Vm.setEntry]
  log_evict s v := by simp [pager, evictPage, Vm.mprotect, Vm.setEntry]
  pages_map s p := by
    refine (pages_fetch (decide ((s.pageTable p).state = .swapped)) .readWrite _).trans ?_
    simp only [Vm.mprotect, fetch_pageTable, fetch_clockTick]
    rfl
  count_map s p := by simp [pager, mapPage, Vm.mprotect, Vm.setEntry]
  tick_map s p := by simp [pager, mapPage, Vm.mprotect]
  log_map s p := by simp [pager, mapPage, Vm.mprotect, Vm.setEntry]
  good_evicted g _ _ := ⟨fun h => PageState.noConfusion h, fun _ => rfl⟩
  state_evicted g h := PageState.noConfusion h
  contents_evicted g h hr := h.contents_saved hr rfl rfl
  good_mapped t g _ _ := ⟨fun _ => ⟨rfl, rfl⟩, fun h => absurd rfl h⟩
  state_mapped t g := rfl
  time_mapped t g := rfl
  contents_mapped t g _ hr := contents_fetched hr rfl rfl
  resident_of_prot g h hp := h.resident_of_prot hp
  good_store g f h _ := h
  choose s q h hq _ := SecondChance.exists_victim hfuel h hq

/-! ## Dirty tracking -/

/-- A dirty page is mapped read-write. A clean one is mapped read-only and is as its slot, or zero if it has none. A page that
is not resident is not mapped, and has a slot exactly when it is swapped. -/
structure Tracked {n : Nat} (g : Page n) : Prop where
  dirty : g.entry.state = .resident → g.entry.dirty = true → g.prot = .readWrite
  clean : g.entry.state = .resident → g.entry.dirty = false →
    g.prot = .read ∧ g.frame = if g.entry.inSwap then g.slot else fun _ => 0
  away : g.entry.state ≠ .resident → g.prot = .none ∧ (g.entry.state = .swapped ↔ g.entry.inSwap = true)

/-- The third program's pager is lawful. -/
def DirtyTracking.lawful (L : Layout) : Lawful DirtyTracking.pager L where
  good := Tracked
  evicted g :=
    { entry :=
        { g.entry with
          inSwap := if g.entry.dirty then true else g.entry.inSwap
          state := if (if g.entry.dirty then true else g.entry.inSwap) then .swapped else .empty
          dirty := false
          loadTime := 0 }
      prot := .none, frame := g.frame, slot := if g.entry.dirty then g.frame else g.slot }
  mapped t g :=
    { entry := { g.entry with state := .resident, dirty := false, loadTime := t }, prot := .read,
      frame := if decide (g.entry.state = .swapped) && g.entry.inSwap then g.slot else fun _ => 0, slot := g.slot }
  pages_evict s v := by
    refine (pages_save (s.pageTable v).dirty .none _).trans ?_
    simp only [Vm.mprotect, saveIf_pageTable]
    rfl
  count_evict s v := by simp [pager, evictPage, Vm.mprotect, Vm.setEntry]
  tick_evict s v := by simp [pager, evictPage, Vm.mprotect, Vm.setEntry]
  log_evict s v := by simp [pager, evictPage, Vm.mprotect, Vm.setEntry]
  pages_map s p := by
    refine (pages_mprotect (s := ((s.mprotect p .readWrite).fetch L p _).setEntry p _) .read).trans ?_
    rw [pages_fetch, Function.update_self, Function.update_idem]
    simp only [Vm.mprotect, fetch_pageTable, fetch_clockTick]
    rfl
  count_map s p := by simp [pager, mapPage, Vm.mprotect, Vm.setEntry]
  tick_map s p := by simp [pager, mapPage, Vm.mprotect]
  log_map s p := by simp [pager, mapPage, Vm.mprotect, Vm.setEntry]
  good_evicted g _ _ := by
    refine ⟨fun hr => absurd hr ?_, fun hr => absurd hr ?_, fun _ => ⟨rfl, ?_⟩⟩ <;>
      cases g.entry.dirty <;> cases g.entry.inSwap <;> simp
  state_evicted g := by
    cases g.entry.dirty <;> cases g.entry.inSwap <;> simp
  contents_evicted g h hr := by
    cases hd : g.entry.dirty with
    | true => simp [Page.contents, hr]
    | false =>
      have hf := (h.clean hr hd).2
      cases hi : g.entry.inSwap with
      | true => simp [Page.contents, hr, hf, hi]
      | false => simp [Page.contents, hr, hf, hi]
  good_mapped t g h hr := by
    refine ⟨fun _ hd => Bool.noConfusion hd, fun _ _ => ⟨rfl, ?_⟩, fun hn => absurd rfl hn⟩
    have hiff := (h.away hr).2
    cases hi : g.entry.inSwap with
    | true => simp [hiff.2 hi]
    | false => simp
  state_mapped t g := rfl
  time_mapped t g := rfl
  contents_mapped t g h hr := by
    have hiff := (h.away hr).2
    cases hst : g.entry.state with
    | resident => exact absurd hst hr
    | empty => simp [Page.contents, hst]
    | swapped => simp [Page.contents, hst, hiff.1 hst]
  resident_of_prot g h hp := by
    by_cases hr : g.entry.state = .resident
    · exact hr
    · exact absurd (h.away hr).1 hp
  good_store g f h hp := by
    refine ⟨h.dirty, ?_, h.away⟩
    intro hr hd
    rw [(h.clean hr hd).1] at hp
    cases hp
  choose s q h hq hf := Fifo.exists_victim h hq hf

end OsLab.Vmem
