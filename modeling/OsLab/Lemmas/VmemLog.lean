import OsLab.Lemmas.VmemAccess

/-!
# What the log says

The first program writes every page it evicts to swap. In the third the dirty bit of a resident page says whether it was written
since its load, so an eviction writes to swap exactly when it has to (`Accurate`).
-/

namespace OsLab.Vmem

open PagesAux PagerAux

variable {L : Layout} {s s₁ s' : Vm} {p : Fin numVpages} {q q₁ : List (Fin numVpages)}

/-- The page a move evicts. -/
def evictionOf : FifoQueue.Move (Fin numVpages) → Option (Fin numVpages)
  | .evict page => some page
  | .load _ => none

/-- The pages evicted, in order. -/
def evictions (log : List Event) : List (Fin numVpages) := (moves log).filterMap evictionOf

theorem evictions_append (l l' : List Event) : evictions (l ++ l') = evictions l ++ evictions l' := by
  unfold evictions
  rw [moves_append, List.filterMap_append]

theorem swapWrites_append (l l' : List Event) : swapWrites (l ++ l') = swapWrites l ++ swapWrites l' :=
  List.filterMap_append

/-- Only pages that are evicted are written to swap. -/
theorem swapWrites_sublist (log : List Event) : (swapWrites log).Sublist (evictions log) := by
  induction log using List.reverseRecOn with
  | nil => exact List.Sublist.slnil
  | append_singleton log e ih =>
    rw [swapWrites_append, evictions_append]
    refine ih.append ?_
    cases e with
    | evict page wrote =>
      cases wrote with
      | true => exact List.Sublist.refl _
      | false => exact List.nil_sublist _
    | _ => exact List.Sublist.refl _

/-! ## The first program -/

namespace Fifo

/-- Every page evicted is written to swap. -/
def WritesAll (log : List Event) : Prop := swapWrites log = evictions log

theorem WritesAll.append {l l' : List Event} (h : WritesAll l) (h' : WritesAll l') : WritesAll (l ++ l') := by
  unfold WritesAll at *
  rw [swapWrites_append, evictions_append, h, h']

/-- Mapping a page evicts nobody. -/
theorem writesAll_map (h : WritesAll s.log) : WritesAll (pager.mapPage L s p).log := by
  obtain ⟨fromSwap, hlog⟩ := (lawful L).log_map s p
  rw [hlog]
  exact h.append rfl

/-- A page brought in leaves every eviction written. -/
theorem writesAll_brought (hb : Brought (lawful L) s q p s₁ q₁) (h : Inv (lawful L).good s q) (hf : FewLoads s)
    (hw : WritesAll s.log) : WritesAll s₁.log := by
  rcases hb.fifo_cases rfl h hf with ⟨_, rfl, _⟩ | ⟨_, _, rfl, _⟩ | ⟨_, v, r, rfl, _, rfl, _⟩
  · exact hw
  · exact writesAll_map hw
  · have hdirty : (s.pageTable v).dirty = true := ((h.good v).1 ((h.mem_iff v).1 List.mem_cons_self)).2
    refine writesAll_map ?_
    rw [(lawful L).log_evict, hdirty]
    exact hw.append rfl

/-- An access evicts nobody. -/
theorem writesAll_perform {a : Access} (h : WritesAll s.log) : WritesAll (perform s a p).1.log := by
  unfold perform
  cases a.store <;> exact h.append rfl

end Fifo

/-! ## The third program -/

/-- Whether a page has been written follows the log one event at a time. -/
theorem writtenSinceLoad_snoc (page : Fin numVpages) (log : List Event) (e : Event) :
    writtenSinceLoad page (log ++ [e]) = writtenStep page (writtenSinceLoad page log) e := by
  unfold writtenSinceLoad
  rw [List.foldl_append]
  rfl

/-- One more eviction writes the page if it has been written since it was loaded. -/
theorem WritesExact.snoc {log : List Event} {e : Event} (h : WritesExact log)
    (he : ∀ page wrote, e = .evict page wrote → wrote = writtenSinceLoad page log) : WritesExact (log ++ [e]) := by
  intro pre page wrote post heq
  rcases split_snoc heq with ⟨rfl, hx⟩ | ⟨post', heq⟩
  · exact he page wrote hx.symm
  · exact h pre page wrote post' heq

namespace DirtyTracking

/-- Every eviction so far wrote to swap exactly when it had to, and the dirty bits say what the next will have to do. -/
structure Accurate (s : Vm) : Prop where
  exact : WritesExact s.log
  dirty : ∀ p, (s.pageTable p).state = .resident → (s.pageTable p).dirty = writtenSinceLoad p s.log

/-- An event that is no eviction, and says nothing about the page. -/
theorem writtenSinceLoad_other {log : List Event} {e : Event} (h : ∀ b, writtenStep p b e = b) :
    writtenSinceLoad p (log ++ [e]) = writtenSinceLoad p log := by
  rw [writtenSinceLoad_snoc, h]

/-- The bit says whether the page has been written since it was loaded, and so whether the eviction writes it. -/
theorem Accurate.evict {v : Fin numVpages} (h : Accurate s) (hv : (s.pageTable v).state = .resident) :
    Accurate (pager.evictPage L s v) := by
  have hentry : ∀ r, (pager.evictPage L s v).pageTable r =
      (Function.update (s.pages L) v ((lawful L).evicted (s.pages L v)) r).entry := by
    intro r
    rw [← (lawful L).pages_evict]
    rfl
  refine ⟨?_, ?_⟩
  · rw [(lawful L).log_evict]
    refine h.exact.snoc ?_
    intro page wrote he
    obtain ⟨rfl, rfl⟩ := Event.evict.inj he
    exact h.dirty v hv
  · intro r hr
    rw [hentry] at hr ⊢
    by_cases hrv : r = v
    · rw [hrv, Function.update_self] at hr
      exact absurd hr ((lawful L).state_evicted _)
    · rw [Function.update_of_ne hrv] at hr ⊢
      rw [(lawful L).log_evict, writtenSinceLoad_other (fun _ => rfl)]
      exact h.dirty r hr

/-- A page that has just been loaded has not been written since. -/
theorem Accurate.map (h : Accurate s) : Accurate (pager.mapPage L s p) := by
  obtain ⟨fromSwap, hlog⟩ := (lawful L).log_map s p
  have hentry : ∀ r, (pager.mapPage L s p).pageTable r =
      (Function.update (s.pages L) p ((lawful L).mapped (Word.add s.clockTick 1) (s.pages L p)) r).entry := by
    intro r
    rw [← (lawful L).pages_map]
    rfl
  refine ⟨?_, ?_⟩
  · rw [hlog]
    exact h.exact.snoc (fun page wrote he => nomatch he)
  · intro r hr
    rw [hlog]
    rw [hentry] at hr ⊢
    by_cases hrp : r = p
    · rw [hrp, Function.update_self, writtenSinceLoad_snoc]
      exact (if_pos rfl).symm
    · rw [Function.update_of_ne hrp] at hr ⊢
      have hother : ∀ b, writtenStep r b (.load p fromSwap) = b := fun _ => if_neg (Ne.symm hrp)
      rw [writtenSinceLoad_other hother]
      exact h.dirty r hr

/-- A page brought in leaves the log accurate. -/
theorem Accurate.brought (h : Accurate s) (hb : Brought (lawful L) s q p s₁ q₁) (hinv : Inv (lawful L).good s q)
    (hf : FewLoads s) : Accurate s₁ := by
  rcases hb.fifo_cases rfl hinv hf with ⟨_, rfl, _⟩ | ⟨_, _, rfl, _⟩ | ⟨_, v, r, rfl, _, rfl, _⟩
  · exact h
  · exact h.map
  · exact (h.evict ((hinv.mem_iff v).1 List.mem_cons_self)).map

/-- A page is written: its dirty bit is set by then. -/
theorem accurate_write {a : Access} {value : UInt8} (hst : a.store = some value) (hx : WritesExact s.log)
    (hd : ∀ r, r ≠ p → (s.pageTable r).state = .resident → (s.pageTable r).dirty = writtenSinceLoad r s.log)
    (hp : (s.pageTable p).dirty = true) : Accurate (perform s a p).1 := by
  unfold perform
  rw [hst]
  refine ⟨hx.snoc (fun page wrote he => nomatch he), ?_⟩
  intro r hr
  simp only at hr ⊢
  by_cases hrp : r = p
  · subst hrp
    rw [writtenSinceLoad_snoc, hp]
    exact (if_pos rfl).symm
  · have hother : ∀ b, writtenStep r b (.write p) = b := fun _ => if_neg (Ne.symm hrp)
    rw [writtenSinceLoad_other hother]
    exact hd r hrp hr

/-- An access that goes through, after the dirty bit is set if need be, leaves the log accurate. -/
theorem Accurate.access (h : Accurate s) (a : Access) (p : Fin numVpages) :
    Accurate (perform (prepared s p a.store) a p).1 := by
  unfold prepared
  cases hst : a.store with
  | none =>
    rw [if_neg (fun hc => Bool.noConfusion hc.1)]
    unfold perform
    rw [hst]
    refine ⟨h.exact.snoc (fun page wrote he => nomatch he), ?_⟩
    intro r hr
    rw [writtenSinceLoad_other (fun _ => rfl)]
    exact h.dirty r hr
  | some value =>
    by_cases hd : (s.pageTable p).dirty = false
    · rw [if_pos ⟨rfl, hd⟩]
      refine accurate_write hst ?_ ?_ ?_
      · exact h.exact.snoc (fun page wrote he => nomatch he)
      · intro r hrp hr
        have hne : (markDirty s p).pageTable r = s.pageTable r := Function.update_of_ne hrp _ _
        rw [hne] at hr ⊢
        exact (h.dirty r hr).trans (writtenSinceLoad_other (fun _ => rfl)).symm
      · have hself : (markDirty s p).pageTable p = { s.pageTable p with dirty := true } := Function.update_self p _ _
        rw [hself]
    · rw [if_neg (fun hc => hd hc.2)]
      exact accurate_write hst h.exact (fun r _ hr => h.dirty r hr) (by simpa using hd)

/-- Marking a page dirty moves none. -/
theorem moves_prepared (s : Vm) (p : Fin numVpages) (store : Option UInt8) :
    moves (prepared s p store).log = moves s.log := by
  unfold prepared
  split
  · exact (moves_append _ _).trans (List.append_nil _)
  · rfl

end DirtyTracking

end OsLab.Vmem
