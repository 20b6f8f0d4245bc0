import OsLab.Lemmas.VmemPages

/-!
# The pagers in general

`Lawful P L` says of a pager what its functions do to one page and to the counters, which pages are good, and that a victim is
found. From this alone `load_page` succeeds, keeps the books (`Inv`) and leaves what every page holds (`Loading.inv`), whatever
the pager evicts.
-/

namespace OsLab.Vmem

variable {L : Layout}

/-- The books: the pages are good, `q` lists the resident ones in the order of their loads, and the counters agree. -/
structure Inv (good : Page L.pageSize → Prop) (s : Vm) (q : List (Fin numVpages)) : Prop where
  good : ∀ p, good (s.pages L p)
  nodup : q.Nodup
  mem_iff : ∀ p, p ∈ q ↔ (s.pageTable p).state = .resident
  sorted : q.Pairwise (fun a b => (s.pageTable a).loadTime < (s.pageTable b).loadTime)
  le_tick : ∀ p ∈ q, (s.pageTable p).loadTime ≤ s.clockTick
  count : s.residentCount = q.length
  length_le : q.length ≤ maxResident
  tick : s.clockTick = s.loads

/-- Nothing came or went: the pages hold what they held, and the log has no load and no eviction more. -/
structure Same (L : Layout) (s s' : Vm) : Prop where
  contents : ∀ p, (s'.pages L p).contents = (s.pages L p).contents
  moves : moves s'.log = moves s.log
  loads : s'.loads = s.loads

/-- What a pager does to a page, which pages are good, and that it finds a victim. -/
structure Lawful (P : Pager) (L : Layout) where
  good : Page L.pageSize → Prop
  evicted : Page L.pageSize → Page L.pageSize
  mapped : Nat → Page L.pageSize → Page L.pageSize
  pages_evict : ∀ s v, (P.evictPage L s v).pages L = Function.update (s.pages L) v (evicted (s.pages L v))
  count_evict : ∀ s v, (P.evictPage L s v).residentCount = s.residentCount - 1
  tick_evict : ∀ s v, (P.evictPage L s v).clockTick = s.clockTick
  log_evict : ∀ s v, (P.evictPage L s v).log = s.log ++ [.evict v (s.pageTable v).dirty]
  pages_map : ∀ s p, (P.mapPage L s p).pages L =
    Function.update (s.pages L) p (mapped (Word.add s.clockTick 1) (s.pages L p))
  count_map : ∀ s p, (P.mapPage L s p).residentCount = s.residentCount + 1
  tick_map : ∀ s p, (P.mapPage L s p).clockTick = Word.add s.clockTick 1
  log_map : ∀ s p, ∃ fromSwap, (P.mapPage L s p).log = s.log ++ [.load p fromSwap]
  good_evicted : ∀ g, good g → g.entry.state = .resident → good (evicted g)
  state_evicted : ∀ g, (evicted g).entry.state ≠ .resident
  contents_evicted : ∀ g, good g → g.entry.state = .resident → (evicted g).contents = g.contents
  good_mapped : ∀ t g, good g → g.entry.state ≠ .resident → good (mapped t g)
  state_mapped : ∀ t g, (mapped t g).entry.state = .resident
  time_mapped : ∀ t g, (mapped t g).entry.loadTime = t
  contents_mapped : ∀ t g, good g → g.entry.state ≠ .resident → (mapped t g).contents = g.contents
  resident_of_prot : ∀ g, good g → g.prot ≠ .none → g.entry.state = .resident
  good_store : ∀ g f, good g → g.prot = .readWrite → good { g with frame := f }
  choose : ∀ s q, Inv good s q → q.length = maxResident → FewLoads s →
    ∃ s₁ v, P.chooseVictim s = .ok (s₁, v) ∧ v ∈ q ∧ Inv good s₁ q ∧ Same L s s₁

namespace PagerAux

variable {s s' : Vm} {p v : Fin numVpages} {q : List (Fin numVpages)}

theorem moves_append (l l' : List Event) : moves (l ++ l') = moves l ++ moves l' := List.filterMap_append

theorem loads_of_log {l : List Event} (h : s'.log = s.log ++ l) :
    s'.loads = s.loads + l.countP Event.isLoad := by
  unfold Vm.loads
  rw [h, List.countP_append]

theorem loads_same {l : List Event} (h : s'.log = s.log ++ l) (hl : l.countP Event.isLoad = 0) : s'.loads = s.loads := by
  rw [loads_of_log h, hl, Nat.add_zero]

/-- The books stay when states, load times and counters do. -/
theorem Inv.congr {good good' : Page L.pageSize → Prop} (h : Inv good s q) (hgood : ∀ p, good' (s'.pages L p))
    (hstate : ∀ p, (s'.pageTable p).state = (s.pageTable p).state)
    (htime : ∀ p, (s'.pageTable p).loadTime = (s.pageTable p).loadTime) (hcount : s'.residentCount = s.residentCount)
    (htick : s'.clockTick = s.clockTick) (hloads : s'.loads = s.loads) : Inv good' s' q := by
  refine ⟨hgood, h.nodup, ?_, ?_, ?_, ?_, h.length_le, ?_⟩
  · intro p
    rw [hstate]
    exact h.mem_iff p
  · simp only [htime]
    exact h.sorted
  · intro p hp
    rw [htime, htick]
    exact h.le_tick p hp
  · rw [hcount]
    exact h.count
  · rw [htick, hloads]
    exact h.tick

/-! ## One page changed -/

section Changed

variable {g : Page L.pageSize} (hpages : s'.pages L = Function.update (s.pages L) p g)

include hpages

theorem entry_changed : s'.pageTable p = g.entry := by
  rw [← Function.update_self p g (s.pages L), ← hpages]
  rfl

theorem entry_unchanged {r : Fin numVpages} (hr : r ≠ p) : s'.pageTable r = s.pageTable r := by
  have h := congrArg Page.entry (congrFun hpages r)
  rw [Function.update_of_ne hr] at h
  exact h

/-- What every page has, every page still has when the new one has it. -/
theorem forall_changed {T : Fin numVpages → Page L.pageSize → Prop} (hold : ∀ r, T r (s.pages L r)) (hg : T p g) :
    ∀ r, T r (s'.pages L r) := by
  rw [hpages]
  exact (Function.forall_update_iff _ T).2 ⟨hg, fun r _ => hold r⟩

/-- The pages hold what they held when the new one does. -/
theorem contents_changed (hg : g.contents = (s.pages L p).contents) (r : Fin numVpages) :
    (s'.pages L r).contents = (s.pages L r).contents :=
  forall_changed (T := fun r x => x.contents = (s.pages L r).contents) hpages (fun _ => rfl) hg r

end Changed

/-- The books stay when one page changes and keeps its state and load time. -/
theorem Inv.update {good : Page L.pageSize → Prop} (h : Inv good s q) {g : Page L.pageSize}
    (hpages : s'.pages L = Function.update (s.pages L) p g) (hgood : good g)
    (hstate : g.entry.state = (s.pageTable p).state) (htime : g.entry.loadTime = (s.pageTable p).loadTime)
    (hcount : s'.residentCount = s.residentCount) (htick : s'.clockTick = s.clockTick) (hloads : s'.loads = s.loads) :
    Inv good s' q := by
  refine Inv.congr h (forall_changed hpages h.good hgood) ?_ ?_ hcount htick hloads
  · exact forall_changed (T := fun r x => x.entry.state = (s.pageTable r).state) hpages (fun _ => rfl) hstate
  · exact forall_changed (T := fun r x => x.entry.loadTime = (s.pageTable r).loadTime) hpages (fun _ => rfl) htime

end PagerAux

open PagerAux

section Laws

variable {P : Pager} (W : Lawful P L) {s s' : Vm} {p v : Fin numVpages} {q q' : List (Fin numVpages)}

/-- Evicting a resident page keeps the books. -/
theorem Lawful.inv_evict (h : Inv W.good s q) (hv : v ∈ q) : Inv W.good (P.evictPage L s v) (q.erase v) := by
  have hpages := W.pages_evict s v
  have hself := entry_changed hpages
  have hne := fun r (hr : r ≠ v) => entry_unchanged hpages hr
  have hq : ∀ r ∈ q.erase v, r ≠ v ∧ r ∈ q := fun r hr => h.nodup.mem_erase_iff.1 hr
  refine ⟨?_, h.nodup.erase v, ?_, ?_, ?_, ?_, ?_, ?_⟩
  · exact forall_changed hpages h.good (W.good_evicted _ (h.good v) ((h.mem_iff v).1 hv))
  · intro r
    rw [h.nodup.mem_erase_iff]
    by_cases hr : r = v
    · rw [hr, hself]
      exact ⟨fun hc => absurd rfl hc.1, fun hc => absurd hc (W.state_evicted _)⟩
    · rw [hne r hr, h.mem_iff]
      exact ⟨fun hc => hc.2, fun hc => ⟨hr, hc⟩⟩
  · refine (h.sorted.sublist List.erase_sublist).imp_of_mem ?_
    intro a b ha hb hab
    rw [hne a (hq a ha).1, hne b (hq b hb).1]
    exact hab
  · intro r hr
    rw [hne r (hq r hr).1, W.tick_evict]
    exact h.le_tick r (hq r hr).2
  · have hpos := List.length_pos_of_mem hv
    rw [W.count_evict, h.count, List.length_erase_of_mem hv]
    omega
  · exact Nat.le_trans List.length_erase_le h.length_le
  · rw [W.tick_evict, h.tick, loads_of_log (W.log_evict s v)]
    rfl

/-- Evicting a page changes no contents, of this page or another. -/
theorem Lawful.contents_evict (h : Inv W.good s q) (hv : v ∈ q) (r : Fin numVpages) :
    ((P.evictPage L s v).pages L r).contents = (s.pages L r).contents :=
  contents_changed (W.pages_evict s v) (W.contents_evicted _ (h.good v) ((h.mem_iff v).1 hv)) r

/-- Mapping a page that is not resident keeps the books, when there is room. -/
theorem Lawful.inv_map (h : Inv W.good s q) (hp : p ∉ q) (hq : q.length < maxResident) (hf : FewLoads s) :
    Inv W.good (P.mapPage L s p) (q ++ [p]) := by
  have hpages := W.pages_map s p
  have htick : Word.add s.clockTick 1 = s.clockTick + 1 := by
    have := h.tick
    unfold FewLoads ulongMax at hf
    exact Word.add_of_lt (by omega)
  have hself := entry_changed hpages
  have hne := fun r (hr : r ≠ p) => entry_unchanged hpages hr
  have hold : ∀ r ∈ q, (P.mapPage L s p).pageTable r = s.pageTable r := by
    intro r hr
    exact hne r (fun he => hp (he ▸ hr))
  have hnew : ((P.mapPage L s p).pageTable p).loadTime = s.clockTick + 1 := by rw [hself, W.time_mapped, htick]
  refine ⟨?_, ?_, ?_, ?_, ?_, ?_, ?_, ?_⟩
  · exact forall_changed hpages h.good (W.good_mapped _ _ (h.good p) (fun hc => hp ((h.mem_iff p).2 hc)))
  · rw [List.nodup_append]
    refine ⟨h.nodup, List.nodup_singleton p, ?_⟩
    intro a ha b hb hab
    rw [List.mem_singleton.1 hb] at hab
    exact hp (hab ▸ ha)
  · intro r
    rw [List.mem_append, List.mem_singleton]
    by_cases hr : r = p
    · subst hr
      rw [hself, W.state_mapped]
      exact ⟨fun _ => rfl, fun _ => Or.inr rfl⟩
    · rw [hne r hr, ← h.mem_iff]
      exact ⟨fun hc => hc.resolve_right hr, Or.inl⟩
  · rw [List.pairwise_append]
    refine ⟨h.sorted.imp_of_mem ?_, List.pairwise_singleton _ p, ?_⟩
    · intro a b ha hb hab
      rw [hold a ha, hold b hb]
      exact hab
    · intro a ha b hb
      rw [List.mem_singleton.1 hb, hold a ha, hnew]
      exact Nat.lt_succ_of_le (h.le_tick a ha)
  · intro r hr
    rw [W.tick_map, htick]
    rcases List.mem_append.1 hr with hr | hr
    · rw [hold r hr]
      exact Nat.le_succ_of_le (h.le_tick r hr)
    · rw [List.mem_singleton.1 hr, hnew]
  · rw [W.count_map, h.count, List.length_append, List.length_singleton]
    rfl
  · rw [List.length_append, List.length_singleton]
    exact hq
  · obtain ⟨fromSwap, hlog⟩ := W.log_map s p
    rw [W.tick_map, htick, h.tick, loads_of_log hlog]
    rfl

/-- Mapping a page changes no contents. -/
theorem Lawful.contents_map (h : Inv W.good s q) (hp : p ∉ q) (r : Fin numVpages) :
    ((P.mapPage L s p).pages L r).contents = (s.pages L r).contents :=
  contents_changed (W.pages_map s p) (W.contents_mapped _ _ (h.good p) (fun hc => hp ((h.mem_iff p).2 hc))) r

/-! ## Loading a page -/

/-- What `load_page` does: it maps the page, after evicting a victim when there is no room. -/
inductive Loading (s : Vm) (q : List (Fin numVpages)) (p : Fin numVpages) : Vm → List (Fin numVpages) → Prop where
  | room : q.length < maxResident → Loading s q p (P.mapPage L s p) (q ++ [p])
  | full {s₁ : Vm} {v : Fin numVpages} : q.length = maxResident → P.chooseVictim s = .ok (s₁, v) → v ∈ q →
      Inv W.good s₁ q → Same L s s₁ → Loading s q p (P.mapPage L (P.evictPage L s₁ v) p) (q.erase v ++ [p])

/-- `load_page` of a page that is not resident succeeds. -/
theorem Lawful.exists_loading (h : Inv W.good s q) (hf : FewLoads s) {i : Int} (hi : entryIndex i = .ok p) :
    ∃ s' q', loadPage P L s i = .ok s' ∧ Loading W s q p s' q' := by
  have hlen : ((q.length : Nat) : Int) ≥ (maxResident : Nat) ↔ q.length = maxResident := by
    have := h.length_le
    omega
  unfold loadPage makeRoom
  rw [h.count]
  by_cases hq : q.length = maxResident
  · obtain ⟨s₁, v, hc, hv, hinv, hsame⟩ := W.choose s q h hq hf
    rw [if_pos (hlen.2 hq), hc]
    simp only [hi]
    exact ⟨_, _, rfl, .full hq hc hv hinv hsame⟩
  · rw [if_neg (fun hc => hq (hlen.1 hc))]
    simp only [hi]
    exact ⟨_, _, rfl, .room (Nat.lt_of_le_of_ne h.length_le hq)⟩

variable {W}

/-- Loading keeps the books, and leaves what the pages hold. -/
theorem Loading.inv (hl : Loading W s q p s' q') (h : Inv W.good s q) (hp : p ∉ q) (hf : FewLoads s) :
    Inv W.good s' q' ∧ ∀ r, (s'.pages L r).contents = (s.pages L r).contents := by
  cases hl with
  | room hq => exact ⟨W.inv_map h hp hq hf, W.contents_map h hp⟩
  | full hq hc hv hinv hsame =>
    rename_i s₁ v
    have he := W.inv_evict hinv hv
    have hp' : p ∉ q.erase v := fun hm => hp (List.mem_of_mem_erase hm)
    have hf' : FewLoads (P.evictPage L s₁ v) := by
      unfold FewLoads at hf ⊢
      rw [loads_of_log (W.log_evict s₁ v), hsame.loads]
      exact hf
    have hlt : (q.erase v).length < maxResident := by
      rw [List.length_erase_of_mem hv, hq]
      decide
    refine ⟨W.inv_map he hp' hlt hf', ?_⟩
    intro r
    rw [W.contents_map he hp', W.contents_evict hinv hv, hsame.contents]

/-- The page that is loaded is resident. -/
theorem Loading.mem (hl : Loading W s q p s' q') : p ∈ q' := by
  cases hl <;> exact List.mem_append_right _ List.mem_cons_self

/-! ## An access that goes through -/

/-- The pages hold what the memory `m` has at their addresses. -/
def Flat (L : Layout) (s : Vm) (m : Mem) : Prop := ∀ p o, (s.pages L p).contents o = m (pageStart L p + o)

/-- The flat memory depends on the contents of the pages. -/
theorem Flat.congr {m : Mem} (h : Flat L s m) (hc : ∀ r, (s'.pages L r).contents = (s.pages L r).contents) : Flat L s' m := by
  intro p o
  rw [hc]
  exact h p o

/-- An access that is allowed keeps the books and is the access to plain memory. -/
theorem perform_flat (W : Lawful P L) {a : Access} {m : Mem} {o : Fin L.pageSize} (h : Inv W.good s q) (hm : Flat L s m)
    (ha : a.addr = pageStart L p + o) (hal : (s.prot p).allows a.store = true) :
    Inv W.good (perform s a p).1 q ∧ Flat L (perform s a p).1 (flatAccess m a).1 ∧
      (perform s a p).2 = (flatAccess m a).2 := by
  have hprot : (s.pages L p).prot ≠ .none := by
    intro hn
    have hn' : s.prot p = .none := hn
    rw [hn'] at hal
    cases hal
  have hres := W.resident_of_prot _ (h.good p) hprot
  have hhold : (s.pages L p).contents = (s.pages L p).frame := by
    unfold Page.contents
    rw [hres]
  unfold perform flatAccess
  cases hst : a.store with
  | none =>
    refine ⟨?_, hm, ?_⟩
    · exact Inv.congr h (fun r => h.good r) (fun _ => rfl) (fun _ => rfl) rfl rfl (loads_same (l := [.read p]) rfl rfl)
    · have := hm p o
      rw [hhold, ← ha] at this
      simp only [Option.some.injEq]
      rw [← this, ha]
      rfl
  | some value =>
    simp only [ha]
    have hrw : (s.pages L p).prot = .readWrite := by
      rw [hst] at hal
      cases hpr : s.prot p with
      | none => exact absurd hpr hprot
      | read =>
        rw [hpr] at hal
        cases hal
      | readWrite => exact hpr
    have hpages := PagesAux.pages_store (s := s) (p := p) o value (s.log ++ [.write p])
    refine ⟨?_, ?_, trivial⟩
    · exact Inv.update h hpages (W.good_store _ _ (h.good p) hrw) rfl rfl rfl rfl (loads_same (l := [.write p]) rfl rfl)
    · intro r o'
      rw [hpages]
      by_cases hr : r = p
      · subst hr
        rw [Function.update_self]
        have hnew : ({ s.pages L r with frame := Function.update (s.pages L r).frame o value } : Page L.pageSize).contents =
            Function.update (s.pages L r).frame o value := by
          unfold Page.contents
          simp only [hres]
        rw [hnew]
        by_cases ho : o' = o
        · subst ho
          rw [Function.update_self, Mem.set_self]
        · rw [Function.update_of_ne ho, Mem.set_of_ne _ _ (fun he => ho (PagesAux.pageStart_inj he).2), ← hm r o', hhold]
      · rw [Function.update_of_ne hr, Mem.set_of_ne _ _ (fun he => hr (PagesAux.pageStart_inj he).1)]
        exact hm r o'

end Laws

end OsLab.Vmem
