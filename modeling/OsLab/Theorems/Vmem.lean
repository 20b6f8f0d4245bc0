import OsLab.Lemmas.VmemLog

/-!
# Whole runs of the pagers

To the program each pager is plain memory (`dirty_tracking_transparent`), so the three cannot be told apart by what is read
(`policies_agree`). The first and the third move the same pages at the same times, and the third leaves out exactly the writes
to swap of pages that were not written since their load (`dirty_tracking_saves_writes`).
-/

namespace OsLab.Vmem

open PagesAux PagerAux

variable {L : Layout}

namespace RunAux

/-- After the accesses `as` the books are kept with the queue `q`, the pages hold what plain memory would, and the bytes read
are those of plain memory. -/
structure Served (good : Page L.pageSize → Prop) (as : List Access) (s : Vm) (outs : List (Option UInt8))
    (q : List (Fin numVpages)) : Prop where
  inv : Inv good s q
  flat : Flat L s (flatRun as).1
  outs_eq : outs = (flatRun as).2

/-- The initial state keeps the books: no page is resident. -/
theorem served_init {good : Page L.pageSize → Prop} (hg : ∀ p, good (initVmem.pages L p)) : Served good [] initVmem [] [] := by
  refine ⟨⟨hg, List.nodup_nil, ?_, List.Pairwise.nil, ?_, rfl, Nat.zero_le _, rfl⟩, fun _ _ => rfl, rfl⟩
  · intro p
    exact ⟨fun h => absurd h List.not_mem_nil, fun h => PageState.noConfusion h⟩
  · intro p h
    exact absurd h List.not_mem_nil

/-- One access more that goes through from a state like the last. -/
theorem served_snoc {P : Pager} (W : Lawful P L) {as : List Access} {s : Vm} {outs : List (Option UInt8)}
    {q : List (Fin numVpages)} {a : Access} {p : Fin numVpages} {o : Fin L.pageSize} (hinv : Inv W.good s q)
    (hm : Flat L s (flatRun as).1) (ho : outs = (flatRun as).2) (ha : a.addr = pageStart L p + o)
    (hal : (s.prot p).allows a.store = true) :
    Served W.good (as ++ [a]) (perform s a p).1 (outs ++ [(perform s a p).2]) q := by
  obtain ⟨hinv', hm', hout⟩ := perform_flat W hinv hm ha hal
  refine ⟨hinv', ?_, ?_⟩
  · rw [flatRun_snoc]
    exact hm'
  · rw [flatRun_snoc, ho, hout]

/-- The pages of the accesses. -/
def pagesOf (L : Layout) (as : List Access) : List (Fin numVpages) :=
  as.filterMap (fun a => (entryIndex (pageOfAddr L a.addr)).toOption)

/-- The pages have moved as in the queue. -/
def Queued (L : Layout) (as : List Access) (s : Vm) (q : List (Fin numVpages)) : Prop :=
  FifoQueue.touchAll maxResident (pagesOf L as) = (q, moves s.log)

/-- One access more. -/
theorem queued_snoc {as : List Access} {s s' : Vm} {q q' : List (Fin numVpages)} {a : Access} {p : Fin numVpages}
    (h : Queued L as s q) (hi : entryIndex (pageOfAddr L a.addr) = .ok p)
    (ht : q' = (FifoQueue.touch maxResident q p).1 ∧ moves s'.log = moves s.log ++ (FifoQueue.touch maxResident q p).2) :
    Queued L (as ++ [a]) s' q' := by
  have hp : pagesOf L (as ++ [a]) = pagesOf L as ++ [p] := by
    unfold pagesOf
    rw [List.filterMap_append]
    simp only [List.filterMap_cons, List.filterMap_nil, hi, Except.toOption]
  unfold Queued at h ⊢
  rw [hp, FifoQueue.touchAll_snoc, h, ← ht.1, ← ht.2]

end RunAux

open RunAux

/-! ## The three programs -/

/-- The first program: it serves as plain memory, moves its pages as the queue does and writes all it evicts to swap. -/
theorem Fifo.run_ok (as : List Access) (hr : ∀ a ∈ as, L.Contains a.addr)
    (hf : Exec.Along (Fifo.access L 2) FewLoads initVmem as) :
    ∃ s outs, Exec.run (Fifo.access L 2) initVmem as = .ok (s, outs) ∧
      ∃ q, Served (Fifo.lawful L).good as s outs q ∧ Queued L as s q ∧ Fifo.WritesAll s.log := by
  refine Exec.run_invariant (I := fun as s outs =>
    ∃ q, Served (Fifo.lawful L).good as s outs q ∧ Queued L as s q ∧ Fifo.WritesAll s.log) ?_ ?_ as hr hf
  · refine ⟨[], served_init ?_, rfl, rfl⟩
    intro p
    exact ⟨fun h => PageState.noConfusion h, fun _ => rfl⟩
  · rintro as s outs a ⟨q, hs, hq, hw⟩ hfew ha
    obtain ⟨p, o, haddr, hi⟩ := exists_page ha
    obtain ⟨s₁, q₁, hacc, hb, hal⟩ := access_plain (W := Fifo.lawful L) (fun _ h => h) hs.inv hfew hi 1
    obtain ⟨hinv, hflat, hp⟩ := hb.inv hs.inv hs.flat hfew
    refine ⟨_, _, hacc, q₁, served_snoc _ hinv hflat hs.outs_eq haddr (hal hinv hp), ?_, ?_⟩
    · obtain ⟨hq₁, hmoves⟩ := hb.touch rfl hs.inv hfew
      exact queued_snoc hq hi ⟨hq₁, (moves_perform s₁ a p).trans hmoves⟩
    · exact Fifo.writesAll_perform (Fifo.writesAll_brought hb hs.inv hfew hw)

/-- The third program: it serves as plain memory, moves its pages as the queue does and writes to swap what it has to. -/
theorem DirtyTracking.run_ok (as : List Access) (hr : ∀ a ∈ as, L.Contains a.addr)
    (hf : Exec.Along (DirtyTracking.access L 2) FewLoads initVmem as) :
    ∃ s outs, Exec.run (DirtyTracking.access L 2) initVmem as = .ok (s, outs) ∧
      ∃ q, Served (DirtyTracking.lawful L).good as s outs q ∧ Queued L as s q ∧ DirtyTracking.Accurate s := by
  refine Exec.run_invariant (I := fun as s outs =>
    ∃ q, Served (DirtyTracking.lawful L).good as s outs q ∧ Queued L as s q ∧ DirtyTracking.Accurate s) ?_ ?_ as hr hf
  · refine ⟨[], served_init ?_, rfl, ?_, ?_⟩
    · intro p
      exact ⟨fun h => PageState.noConfusion h, fun h => PageState.noConfusion h,
        fun _ => ⟨rfl, fun h => PageState.noConfusion h, fun h => Bool.noConfusion h⟩⟩
    · intro pre page wrote post h
      exact absurd h.symm (List.append_ne_nil_of_right_ne_nil _ (List.cons_ne_nil _ _))
    · intro p h
      exact PageState.noConfusion h
  · rintro as s outs a ⟨q, hs, hq, hacc⟩ hfew ha
    obtain ⟨p, o, haddr, hi⟩ := exists_page ha
    obtain ⟨s₁, q₁, hrun, hb, hal⟩ := DirtyTracking.access_ok hs.inv hs.flat hfew hi
    obtain ⟨hinv, hflat, hp⟩ := hb.inv hs.inv hs.flat hfew
    obtain ⟨hinv', hflat'⟩ := DirtyTracking.inv_prepared hinv hp hflat a.store
    refine ⟨_, _, hrun, q₁, served_snoc _ hinv' hflat' hs.outs_eq haddr hal, ?_, ?_⟩
    · obtain ⟨hq₁, hmoves⟩ := hb.touch rfl hs.inv hfew
      refine queued_snoc hq hi ⟨hq₁, ?_⟩
      exact (moves_perform _ a p).trans ((DirtyTracking.moves_prepared s₁ p a.store).trans hmoves)
    · exact (hacc.brought hb hs.inv hfew).access a p

namespace SecondChance

/-- An access inside the region. -/
def PageAccess.Valid (L : Layout) (a : PageAccess) : Prop := a.page < numVpages ∧ a.offset < L.pageSize

/-- The byte an access is to lies on the page it names. -/
theorem byte_page {a : PageAccess} (h : a.Valid L) :
    ∃ (p : Fin numVpages) (o : Fin L.pageSize), (a.byte L).addr = pageStart L p + o ∧
      entryIndex (pageOfAddr L (a.byte L).addr) = .ok p ∧ entryIndex a.page = .ok p := by
  have haddr : (a.byte L).addr = pageStart L ⟨a.page, h.1⟩ + (⟨a.offset, h.2⟩ : Fin L.pageSize) := (Nat.add_assoc _ _ _).symm
  refine ⟨⟨a.page, h.1⟩, ⟨a.offset, h.2⟩, haddr, ?_, ?_⟩
  · obtain ⟨p', o', haddr', hi⟩ := exists_page (haddr ▸ contains_pageStart ⟨a.page, h.1⟩ ⟨a.offset, h.2⟩)
    rw [hi, (pageStart_inj (haddr'.symm.trans haddr)).1]
  · unfold entryIndex
    rw [dif_pos ⟨Int.natCast_nonneg _, Int.ofNat_lt.2 h.1⟩]
    rfl

/-- The bits `vmem_read` and `vmem_write` set leave the books and what the pages hold. -/
theorem served_bits {as : List Access} {s : Vm} {outs : List (Option UInt8)} {q : List (Fin numVpages)} {p : Fin numVpages}
    {e : PageEntry} (h : Served (L := L) Plain as s outs q) (hstate : e.state = (s.pageTable p).state)
    (htime : e.loadTime = (s.pageTable p).loadTime) (hdirty : (s.pageTable p).dirty = true → e.dirty = true) :
    Served (L := L) Plain as (s.setEntry p e) outs q := by
  have hpages := pages_setEntry (L := L) (s := s) (p := p) e
  have hgood := h.inv.good p
  refine ⟨?_, h.flat.congr ?_, h.outs_eq⟩
  · refine Inv.update h.inv hpages ⟨?_, ?_⟩ hstate htime rfl rfl rfl
    · intro hr
      obtain ⟨hrw, hd⟩ := hgood.1 (hstate.symm.trans hr)
      exact ⟨hrw, hdirty hd⟩
    · intro hr
      exact hgood.2 (fun hc => hr (hstate.trans hc))
  · refine contents_changed hpages ?_
    simp only [Page.contents, hstate]
    rfl

/-- The second program serves as plain memory. -/
theorem run_ok {fuel : Nat} (hfuel : 2 * numVpages ≤ fuel) (as : List PageAccess) (hr : ∀ a ∈ as, a.Valid L)
    (hf : Exec.Along (access fuel L 2) FewLoads initVmem as) :
    ∃ s outs, Exec.run (access fuel L 2) initVmem as = .ok (s, outs) ∧
      ∃ q, Served (L := L) Plain (as.map (PageAccess.byte L)) s outs q := by
  refine Exec.run_invariant (I := fun as s outs => ∃ q, Served (L := L) Plain (as.map (PageAccess.byte L)) s outs q)
    ?_ ?_ as hr hf
  · refine ⟨[], served_init ?_⟩
    intro p
    exact ⟨fun h => PageState.noConfusion h, fun _ => rfl⟩
  · rintro as s outs a ⟨q, hs⟩ hfew ha
    obtain ⟨p, o, haddr, hi, hpage⟩ := byte_page ha
    obtain ⟨s₁, q₁, hacc, hb, hal⟩ := access_plain (W := lawful L hfuel) (fun _ h => h) hs.inv hfew hi 1
    obtain ⟨hinv, hflat, hp⟩ := hb.inv hs.inv hs.flat hfew
    have hserved := served_snoc (lawful L hfuel) hinv hflat hs.outs_eq haddr (hal hinv hp)
    have hacc' : accessWithin (segvHandler fuel L) L 2 s (a.byte L) = .ok (perform s₁ (a.byte L) p) := hacc
    unfold access
    rw [hacc']
    simp only [hpage, List.map_append, List.map_cons, List.map_nil]
    cases a.store with
    | none => exact ⟨_, _, rfl, q₁, served_bits hserved rfl rfl (fun h => h)⟩
    | some value => exact ⟨_, _, rfl, q₁, served_bits hserved rfl rfl (fun _ => rfl)⟩

end SecondChance

/-! ## The results -/

/-- The dirty-tracking pager is plain memory to the program. Every access completes, with at most two runs of the handler, and
every read gives the byte last written. -/
theorem dirty_tracking_transparent (L : Layout) (as : List Access) (hr : ∀ a ∈ as, L.Contains a.addr)
    (hf : Exec.Along (DirtyTracking.access L 2) FewLoads initVmem as) :
    ∃ s, Exec.run (DirtyTracking.access L 2) initVmem as = .ok (s, (flatRun as).2) := by
  obtain ⟨s, outs, hrun, q, hs, _, _⟩ := DirtyTracking.run_ok as hr hf
  exact ⟨s, by rw [hrun, hs.outs_eq]⟩

/-- A region of pages of four bytes. -/
def smallLayout : Layout := { vmBase := 4096, pageSize := 4, pageSize_pos := by decide }

/-- A byte of page 0 is written and, after four other pages came in, read again. -/
def smallRun : List SecondChance.PageAccess :=
  [⟨0, 1, some 65⟩, ⟨1, 0, none⟩, ⟨2, 3, some 66⟩, ⟨3, 0, none⟩, ⟨4, 0, none⟩, ⟨0, 1, none⟩]

/-- The accesses to the bytes. -/
def smallBytes : List Access := smallRun.map (SecondChance.PageAccess.byte smallLayout)

/-- All bytes are in the region. -/
theorem smallBytes_contains : ∀ a ∈ smallBytes, smallLayout.Contains a.addr := by
  unfold Layout.Contains
  decide

/-- The result of a run had few loads. -/
def fewLoadsIn (r : Except Fault (Vm × List (Option UInt8))) : Bool :=
  match r with
  | .ok (s, _) => decide (s.loads < ulongMax)
  | .error _ => true

/-- A guard that is computed for every beginning holds along the run. -/
theorem along_of_inits {α : Type} {f : Vm → α → Except Fault (Vm × Option UInt8)} {as : List α}
    (h : as.inits.all (fun pre => fewLoadsIn (Exec.run f initVmem pre)) = true) : Exec.Along f FewLoads initVmem as := by
  intro pre hpre s outs hrun
  have hc := List.all_eq_true.1 h pre ((List.mem_inits pre as).2 hpre)
  rw [hrun] at hc
  have hlt : s.loads < ulongMax := of_decide_eq_true hc
  exact hlt

/-- Dirty tracking reads what flat memory reads. -/
theorem dirty_tracking_transparent_small :
    ∃ s, Exec.run (DirtyTracking.access smallLayout 2) initVmem smallBytes = .ok (s, (flatRun smallBytes).2) :=
  dirty_tracking_transparent smallLayout smallBytes smallBytes_contains (along_of_inits rfl)

/-- The three programs read the same bytes. -/
theorem policies_agree (L : Layout) {fuel : Nat} (hfuel : 2 * numVpages ≤ fuel) (as : List SecondChance.PageAccess)
    (hr : ∀ a ∈ as, a.Valid L)
    (hfifo : Exec.Along (Fifo.access L 2) FewLoads initVmem (as.map (SecondChance.PageAccess.byte L)))
    (hchance : Exec.Along (SecondChance.access fuel L 2) FewLoads initVmem as)
    (hdirty : Exec.Along (DirtyTracking.access L 2) FewLoads initVmem (as.map (SecondChance.PageAccess.byte L))) :
    ∃ s₁ s₂ s₃ outs, Exec.run (Fifo.access L 2) initVmem (as.map (SecondChance.PageAccess.byte L)) = .ok (s₁, outs) ∧
      Exec.run (SecondChance.access fuel L 2) initVmem as = .ok (s₂, outs) ∧
      Exec.run (DirtyTracking.access L 2) initVmem (as.map (SecondChance.PageAccess.byte L)) = .ok (s₃, outs) := by
  have hin : ∀ a ∈ as.map (SecondChance.PageAccess.byte L), L.Contains a.addr := by
    intro a ha
    obtain ⟨b, hb, rfl⟩ := List.mem_map.1 ha
    obtain ⟨p, o, haddr, _⟩ := SecondChance.byte_page (hr b hb)
    rw [haddr]
    exact contains_pageStart p o
  obtain ⟨s₁, outs₁, hrun₁, _, hs₁, _⟩ := Fifo.run_ok _ hin hfifo
  obtain ⟨s₂, outs₂, hrun₂, _, hs₂⟩ := SecondChance.run_ok hfuel as hr hchance
  obtain ⟨s₃, outs₃, hrun₃, _, hs₃, _⟩ := DirtyTracking.run_ok _ hin hdirty
  refine ⟨s₁, s₂, s₃, (flatRun (as.map (SecondChance.PageAccess.byte L))).2, ?_, ?_, ?_⟩
  · rw [hrun₁, hs₁.outs_eq]
  · rw [hrun₂, hs₂.outs_eq]
  · rw [hrun₃, hs₃.outs_eq]

/-- The three policies read the same, on a run with more pages than frames. -/
theorem policies_agree_small :
    ∃ s₁ s₂ s₃ outs, Exec.run (Fifo.access smallLayout 2) initVmem smallBytes = .ok (s₁, outs) ∧
      Exec.run (SecondChance.access 16 smallLayout 2) initVmem smallRun = .ok (s₂, outs) ∧
      Exec.run (DirtyTracking.access smallLayout 2) initVmem smallBytes = .ok (s₃, outs) :=
  policies_agree smallLayout (by decide) smallRun (by unfold SecondChance.PageAccess.Valid; decide)
    (along_of_inits rfl) (along_of_inits rfl) (along_of_inits rfl)

/-- After every access the first and the third program have loaded and evicted the same pages in the same order and have the
same pages resident. The third wrote to swap at an eviction exactly when the page was written since its load, so its writes to
swap are a subsequence of the first's. -/
theorem dirty_tracking_saves_writes (L : Layout) (as : List Access) (hr : ∀ a ∈ as, L.Contains a.addr)
    (hfifo : Exec.Along (Fifo.access L 2) FewLoads initVmem as)
    (hdirty : Exec.Along (DirtyTracking.access L 2) FewLoads initVmem as) :
    ∀ pre, pre <+: as → ∃ f outs d outs', Exec.run (Fifo.access L 2) initVmem pre = .ok (f, outs) ∧
      Exec.run (DirtyTracking.access L 2) initVmem pre = .ok (d, outs') ∧
      moves d.log = moves f.log ∧
      (∀ p, (d.pageTable p).state = .resident ↔ (f.pageTable p).state = .resident) ∧
      WritesExact d.log ∧ (swapWrites d.log).Sublist (swapWrites f.log) := by
  intro pre hpre
  have hr' : ∀ a ∈ pre, L.Contains a.addr := fun a ha => hr a (hpre.subset ha)
  obtain ⟨f, outs, hrun, q, hs, hq, hall⟩ := Fifo.run_ok pre hr' (hfifo.take hpre)
  obtain ⟨d, outs', hrun', q', hs', hq', hacc⟩ := DirtyTracking.run_ok pre hr' (hdirty.take hpre)
  obtain ⟨rfl, hmoves⟩ := Prod.mk.inj (hq'.symm.trans hq)
  refine ⟨f, outs, d, outs', hrun, hrun', hmoves, ?_, hacc.exact, ?_⟩
  · intro p
    rw [← hs'.inv.mem_iff, ← hs.inv.mem_iff]
  · have hsame : swapWrites f.log = evictions d.log := by
      rw [hall]
      unfold evictions
      rw [hmoves]
    rw [hsame]
    exact swapWrites_sublist d.log

/-- Dirty tracking moves the same pages as FIFO, and writes no more of them. -/
theorem dirty_tracking_saves_writes_small :
    ∃ f outs d outs', Exec.run (Fifo.access smallLayout 2) initVmem smallBytes = .ok (f, outs) ∧
      Exec.run (DirtyTracking.access smallLayout 2) initVmem smallBytes = .ok (d, outs') ∧
      moves d.log = moves f.log ∧
      (∀ p, (d.pageTable p).state = .resident ↔ (f.pageTable p).state = .resident) ∧
      WritesExact d.log ∧ (swapWrites d.log).Sublist (swapWrites f.log) :=
  dirty_tracking_saves_writes smallLayout smallBytes smallBytes_contains (along_of_inits rfl)
    (along_of_inits rfl) smallBytes (List.prefix_refl _)

end OsLab.Vmem
