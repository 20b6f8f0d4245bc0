import OsLab.Lemmas.VmemPrograms

/-!
# Accesses

An access brings its page in if it is not resident (`Brought`), in the third program marks it dirty before its first write, and
then goes through. In the programs that replace first in, first out, the pages move as in the queue of `FifoQueue`.
-/

namespace OsLab.Vmem

open PagesAux PagerAux

variable {L : Layout} {P : Pager} {W : Lawful P L} {s s₁ s' : Vm} {p : Fin numVpages} {q q₁ : List (Fin numVpages)} {a : Access}
  {m : Mem}

/-- The page is resident, or has been loaded. -/
def Brought (W : Lawful P L) (s : Vm) (q : List (Fin numVpages)) (p : Fin numVpages) (s₁ : Vm) (q₁ : List (Fin numVpages)) :
    Prop :=
  (p ∈ q ∧ s₁ = s ∧ q₁ = q) ∨ (p ∉ q ∧ Loading W s q p s₁ q₁)

/-- Bringing a page in keeps the books and what the pages hold. -/
theorem Brought.inv (hb : Brought W s q p s₁ q₁) (h : Inv W.good s q) (hm : Flat L s m) (hf : FewLoads s) :
    Inv W.good s₁ q₁ ∧ Flat L s₁ m ∧ p ∈ q₁ := by
  rcases hb with ⟨hp, rfl, rfl⟩ | ⟨hp, hl⟩
  · exact ⟨h, hm, hp⟩
  · obtain ⟨hinv, hc⟩ := hl.inv h hp hf
    exact ⟨hinv, hm.congr hc, hl.mem⟩

/-- An access goes through when the protection of its page allows it. -/
theorem attempt_eq (hi : entryIndex (pageOfAddr L a.addr) = .ok p) :
    attempt L s a = if (s.prot p).allows a.store then some (perform s a p) else none := by
  unfold attempt
  rw [hi]

/-- An access that is allowed is performed at once. -/
theorem accessWithin_allowed {handler : Vm → Nat → Except Fault Vm} (limit : Nat)
    (hi : entryIndex (pageOfAddr L a.addr) = .ok p) (hal : (s.prot p).allows a.store = true) :
    accessWithin handler L limit s a = .ok (perform s a p) := by
  cases limit <;> simp only [accessWithin, attempt_eq hi, hal, if_true]

/-- One that is not is tried again after the handler. -/
theorem accessWithin_forbidden {handler : Vm → Nat → Except Fault Vm} (limit : Nat)
    (hi : entryIndex (pageOfAddr L a.addr) = .ok p) (hal : (s.prot p).allows a.store = false)
    (hh : handler s a.addr = .ok s') :
    accessWithin handler L (limit + 1) s a = accessWithin handler L limit s' a := by
  simp only [accessWithin, attempt_eq hi, hal, Bool.false_eq_true, if_false, hh]

/-! ## The first two programs -/

/-- An access completes after at most one run of the handler. -/
theorem access_plain (hgood : ∀ g, W.good g → Plain g) (h : Inv W.good s q) (hf : FewLoads s)
    (hi : entryIndex (pageOfAddr L a.addr) = .ok p) (limit : Nat) :
    ∃ s₁ q₁, accessWithin (fun s addr => loadPage P L s (pageOfAddr L addr)) L (limit + 1) s a = .ok (perform s₁ a p) ∧
      Brought W s q p s₁ q₁ ∧ (Inv W.good s₁ q₁ → p ∈ q₁ → (s₁.prot p).allows a.store = true) := by
  have hallows : ∀ {t : Vm} {r : List (Fin numVpages)}, Inv W.good t r → p ∈ r → (t.prot p).allows a.store = true := by
    intro t r ht hp
    have hrw : t.prot p = .readWrite := ((hgood _ (ht.good p)).1 ((ht.mem_iff p).1 hp)).1
    rw [hrw]
    rfl
  by_cases hp : p ∈ q
  · exact ⟨s, q, accessWithin_allowed _ hi (hallows h hp), Or.inl ⟨hp, rfl, rfl⟩, hallows⟩
  · have hnone : s.prot p = .none := (hgood _ (h.good p)).2 (fun hc => hp ((h.mem_iff p).2 hc))
    obtain ⟨s₁, q₁, hload, hl⟩ := W.exists_loading h hf hi
    obtain ⟨hinv, _⟩ := hl.inv h hp hf
    refine ⟨s₁, q₁, ?_, Or.inr ⟨hp, hl⟩, hallows⟩
    rw [accessWithin_forbidden limit hi (by rw [hnone]; rfl) hload]
    exact accessWithin_allowed _ hi (hallows hinv hl.mem)

/-! ## The third program -/

namespace DirtyTracking

/-- `markDirty` sets the bit, and allows writes. -/
theorem pages_markDirty (s : Vm) (p : Fin numVpages) :
    (markDirty s p).pages L = Function.update (s.pages L) p
      { s.pages L p with entry := { s.pageTable p with dirty := true }, prot := .readWrite } := by
  refine (pages_setEntry (s := s.mprotect p .readWrite) _).trans ?_
  rw [pages_mprotect, Function.update_self, Function.update_idem]
  rfl

/-- Marking a resident page dirty keeps the books and what the pages hold. -/
theorem inv_markDirty (h : Inv (lawful L).good s q) (hp : p ∈ q) (hm : Flat L s m) :
    Inv (lawful L).good (markDirty s p) q ∧ Flat L (markDirty s p) m := by
  have hres := (h.mem_iff p).1 hp
  refine ⟨?_, ?_⟩
  · refine Inv.update h (pages_markDirty s p) ?_ rfl rfl rfl rfl (loads_same (l := [.dirty p]) rfl rfl)
    exact ⟨fun _ _ => rfl, fun _ hd => Bool.noConfusion hd, fun hn => absurd hres hn⟩
  · refine hm.congr (contents_changed (pages_markDirty s p) ?_)
    simp only [Page.contents, Vm.pages]

/-- The state in which the access goes through: the page is marked dirty before its first write. -/
def prepared (s : Vm) (p : Fin numVpages) (store : Option UInt8) : Vm :=
  if store.isSome ∧ (s.pageTable p).dirty = false then markDirty s p else s

theorem inv_prepared (h : Inv (lawful L).good s q) (hp : p ∈ q) (hm : Flat L s m) (store : Option UInt8) :
    Inv (lawful L).good (prepared s p store) q ∧ Flat L (prepared s p store) m := by
  unfold prepared
  split
  · exact inv_markDirty h hp hm
  · exact ⟨h, hm⟩

/-- On a resident page the access goes through after at most one run of the handler. -/
theorem access_resident (h : Inv (lawful L).good s q) (hp : p ∈ q) (hi : entryIndex (pageOfAddr L a.addr) = .ok p)
    (limit : Nat) :
    access L (limit + 1) s a = .ok (perform (prepared s p a.store) a p) ∧
      ((prepared s p a.store).prot p).allows a.store = true := by
  have hres := (h.mem_iff p).1 hp
  have hgood : Tracked (s.pages L p) := h.good p
  unfold prepared
  by_cases hc : a.store.isSome ∧ (s.pageTable p).dirty = false
  · have hread : s.prot p = .read := (hgood.clean hres hc.2).1
    have hforb : (s.prot p).allows a.store = false := by
      rw [hread, Prot.allows, Option.isNone_eq_false_iff]
      exact hc.1
    have hmark : segvHandler L s a.addr = .ok (markDirty s p) := by
      unfold segvHandler
      rw [hi]
      exact if_pos ⟨hres, hc.2⟩
    have hal : ((markDirty s p).prot p).allows a.store = true := by
      have : (markDirty s p).prot p = .readWrite := Function.update_self p _ _
      rw [this]
      rfl
    rw [if_pos hc]
    refine ⟨?_, hal⟩
    unfold access
    rw [accessWithin_forbidden limit hi hforb hmark]
    exact accessWithin_allowed _ hi hal
  · have hal : (s.prot p).allows a.store = true := by
      cases hd : (s.pageTable p).dirty with
      | true =>
        have hrw : s.prot p = .readWrite := hgood.dirty hres hd
        rw [hrw]
        rfl
      | false =>
        have hread : s.prot p = .read := (hgood.clean hres hd).1
        rw [hread, Prot.allows, Option.isNone_iff_eq_none]
        cases hst : a.store with
        | none => rfl
        | some value => exact absurd ⟨by rw [hst]; rfl, hd⟩ hc
    rw [if_neg hc]
    exact ⟨accessWithin_allowed _ hi hal, hal⟩

/-- An access completes after at most two runs of the handler: one to load the page, one to mark it dirty. -/
theorem access_ok (h : Inv (lawful L).good s q) (hm : Flat L s m) (hf : FewLoads s)
    (hi : entryIndex (pageOfAddr L a.addr) = .ok p) :
    ∃ s₁ q₁, access L 2 s a = .ok (perform (prepared s₁ p a.store) a p) ∧ Brought (lawful L) s q p s₁ q₁ ∧
      ((prepared s₁ p a.store).prot p).allows a.store = true := by
  by_cases hp : p ∈ q
  · obtain ⟨ha, hal⟩ := access_resident h hp hi 1
    exact ⟨s, q, ha, Or.inl ⟨hp, rfl, rfl⟩, hal⟩
  · have hres : (s.pageTable p).state ≠ .resident := fun hc => hp ((h.mem_iff p).2 hc)
    have hgood : Tracked (s.pages L p) := h.good p
    have hnone : s.prot p = .none := (hgood.away hres).1
    obtain ⟨s₁, q₁, hload, hl⟩ := (lawful L).exists_loading h hf hi
    have hb : Brought (lawful L) s q p s₁ q₁ := Or.inr ⟨hp, hl⟩
    obtain ⟨hinv, _, hp₁⟩ := hb.inv h hm hf
    have hhandler : segvHandler L s a.addr = .ok s₁ := by
      unfold segvHandler
      rw [hi]
      exact (if_neg (fun hc => hres hc.1)).trans hload
    obtain ⟨ha, hal⟩ := access_resident hinv hp₁ hi 0
    refine ⟨s₁, q₁, ?_, hb, hal⟩
    unfold access
    rw [accessWithin_forbidden 1 hi (by rw [hnone]; rfl) hhandler]
    exact ha

end DirtyTracking

/-! ## The queue -/

/-- With `choose_victim_fifo` the page that goes is the first of the queue. -/
theorem Brought.fifo_cases (hch : P.chooseVictim = Fifo.chooseVictim) (hb : Brought W s q p s₁ q₁) (h : Inv W.good s q)
    (hf : FewLoads s) :
    (p ∈ q ∧ s₁ = s ∧ q₁ = q) ∨
      (p ∉ q ∧ q.length < maxResident ∧ s₁ = P.mapPage L s p ∧ q₁ = q ++ [p]) ∨
      (p ∉ q ∧ ∃ v r, q = v :: r ∧ q.length = maxResident ∧ s₁ = P.mapPage L (P.evictPage L s v) p ∧ q₁ = r ++ [p]) := by
  rcases hb with hb | ⟨hp, hl⟩
  · exact Or.inl hb
  · cases hl with
    | room hq => exact Or.inr (Or.inl ⟨hp, hq, rfl, rfl⟩)
    | full hq hc hv _ _ =>
      cases q with
      | nil => cases hv
      | cons w r =>
        rw [hch, Fifo.chooseVictim_head h hf] at hc
        obtain ⟨rfl, rfl⟩ := Prod.mk.inj (Except.ok.inj hc)
        exact Or.inr (Or.inr ⟨hp, w, r, rfl, hq, rfl, by rw [List.erase_cons_head]⟩)

/-- With `choose_victim_fifo` the pages move as in the queue. -/
theorem Brought.touch (hch : P.chooseVictim = Fifo.chooseVictim) (hb : Brought W s q p s₁ q₁) (h : Inv W.good s q)
    (hf : FewLoads s) :
    q₁ = (FifoQueue.touch maxResident q p).1 ∧ moves s₁.log = moves s.log ++ (FifoQueue.touch maxResident q p).2 := by
  have hmap : ∀ t, moves (P.mapPage L t p).log = moves t.log ++ [.load p] := by
    intro t
    obtain ⟨fromSwap, hlog⟩ := W.log_map t p
    rw [hlog, moves_append]
    rfl
  unfold FifoQueue.touch
  rcases hb.fifo_cases hch h hf with ⟨hp, rfl, rfl⟩ | ⟨hp, hq, rfl, rfl⟩ | ⟨hp, v, r, rfl, hq, rfl, rfl⟩
  · rw [if_pos hp]
    exact ⟨rfl, (List.append_nil _).symm⟩
  · rw [if_neg hp]
    unfold FifoQueue.room
    rw [if_pos hq]
    exact ⟨rfl, hmap s⟩
  · have hroom : FifoQueue.room maxResident (v :: r) = (r, [.evict v]) := if_neg (by rw [hq]; decide)
    rw [if_neg hp, hroom, hmap, W.log_evict, moves_append, List.append_assoc]
    exact ⟨rfl, rfl⟩

/-- An access that goes through moves no page. -/
theorem moves_perform (s : Vm) (a : Access) (p : Fin numVpages) : moves (perform s a p).1.log = moves s.log := by
  unfold perform
  cases a.store <;> exact (moves_append _ _).trans (List.append_nil _)

end OsLab.Vmem
