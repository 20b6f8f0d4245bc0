import OsLab.Lemmas.VmemLog

/-!
# The second-chance program and its log

The second program does not read load times, so its books are right however many pages it has loaded: `Books` is kept by every
access, with no bound on the loads. What the clock hand does to the referenced bits is in the log too. A resident page has its bit
set since its last access, or the hand has passed over it since (`Fair`), so a page that is chosen has had its second chance.
-/

namespace OsLab.Vmem

open PagesAux PagerAux ProgramsAux

namespace SecondChance

variable {L : Layout} {s s₁ : Vm} {p v : Fin numVpages} {q q₁ : List (Fin numVpages)} {a : Access} {fuel : Nat}

/-! ## The functions, field by field -/

theorem evictPage_pageTable : (evictPage L s v).pageTable = Function.update s.pageTable v
    { s.pageTable v with state := .swapped, dirty := false, referenced := false, loadTime := 0 } := by
  simp [evictPage, Vm.mprotect, Vm.setEntry]

theorem evictPage_prot : (evictPage L s v).prot = Function.update s.prot v .none := by
  have h : (s.saveIf L v (s.pageTable v).dirty).prot = s.prot := by cases (s.pageTable v).dirty <;> rfl
  simp [evictPage, Vm.mprotect, Vm.setEntry, h]

theorem evictPage_residentCount : (evictPage L s v).residentCount = s.residentCount - 1 := by
  simp [evictPage, Vm.mprotect, Vm.setEntry]

theorem evictPage_log : (evictPage L s v).log = s.log ++ [.evict v (s.pageTable v).dirty] := by
  simp [evictPage, Vm.mprotect, Vm.setEntry]

theorem mapPage_pageTable : ∃ t, (mapPage L s p).pageTable = Function.update s.pageTable p
    { s.pageTable p with state := .resident, dirty := true, referenced := false, loadTime := t } :=
  ⟨Word.add s.clockTick 1, by simp [mapPage, Vm.mprotect, Vm.setEntry]⟩

theorem mapPage_prot : (mapPage L s p).prot = Function.update s.prot p .readWrite := by
  have h : ∀ d, ((s.mprotect p .readWrite).fetch L p d).prot = Function.update s.prot p .readWrite := by
    intro d
    cases d <;> rfl
  simp [mapPage, Vm.setEntry, h]

theorem mapPage_residentCount : (mapPage L s p).residentCount = s.residentCount + 1 := by
  simp [mapPage, Vm.mprotect, Vm.setEntry]

theorem mapPage_log : ∃ b, (mapPage L s p).log = s.log ++ [.load p b] :=
  ⟨decide ((s.pageTable p).state = .swapped), by simp [mapPage, Vm.mprotect, Vm.setEntry]⟩

/-- The state after a scan. -/
def Scan.leave (r : Scan numVpages) (s : Vm) : Vm :=
  { s with pageTable := r.pageTable, clockCircle := r.hand, log := s.log ++ r.skipped.map .secondChance }

theorem moves_skipped (l : List (Fin numVpages)) : moves (l.map .secondChance) = [] := by
  induction l with
  | nil => rfl
  | cons _ _ ih => exact ih

/-! ## The books -/

/-- The books: `q` lists the resident pages in the order of their loads, only they are mapped, and the count is right. -/
structure Books (s : Vm) (q : List (Fin numVpages)) : Prop where
  replaced : FifoQueue.Replaced (moves s.log) q
  mem_iff : ∀ p, p ∈ q ↔ (s.pageTable p).state = .resident
  prot : ∀ p, s.prot p = if (s.pageTable p).state = .resident then .readWrite else .none
  count : s.residentCount = q.length
  length_le : q.length ≤ maxResident

/-- The books stay when states, protections, count and moves do. -/
theorem Books.congr (h : Books s q) (hstate : ∀ p, (s₁.pageTable p).state = (s.pageTable p).state) (hprot : s₁.prot = s.prot)
    (hcount : s₁.residentCount = s.residentCount) (hmoves : moves s₁.log = moves s.log) : Books s₁ q := by
  refine ⟨hmoves ▸ h.replaced, ?_, ?_, hcount.trans h.count, h.length_le⟩
  · intro p
    rw [hstate]
    exact h.mem_iff p
  · intro p
    rw [hprot, hstate]
    exact h.prot p

/-- A scan clears bits and moves the hand, which the books are not about. -/
theorem Books.leave {r : Scan numVpages} {hand : Fin numVpages} (h : Books s q) (hr : scan fuel s.pageTable hand = some r) :
    Books (r.leave s) q := by
  refine h.congr ?_ rfl rfl ?_
  · intro p
    show (r.pageTable p).state = _
    rw [(scan_some hr).2 p]
  · exact (moves_append _ _).trans (by rw [moves_skipped, List.append_nil])

/-- The states and protections after a page is mapped. -/
theorem mapPage_state (r : Fin numVpages) :
    ((mapPage L s p).pageTable r).state = if r = p then .resident else (s.pageTable r).state := by
  obtain ⟨t, ht⟩ := mapPage_pageTable (L := L) (s := s) (p := p)
  rw [ht]
  by_cases hr : r = p
  · rw [hr, Function.update_self, if_pos rfl]
  · rw [Function.update_of_ne hr, if_neg hr]

/-- What changes when a page that is not resident is mapped, after moves that left `q`. -/
theorem Books.map (hmem : ∀ p, p ∈ q ↔ (s.pageTable p).state = .resident)
    (hprot : ∀ p, s.prot p = if (s.pageTable p).state = .resident then .readWrite else .none)
    (hcount : s.residentCount = q.length) (hq : q.length < maxResident)
    (hrep : FifoQueue.Replaced (moves (mapPage L s p).log) (q ++ [p])) : Books (mapPage L s p) (q ++ [p]) := by
  refine ⟨hrep, ?_, ?_, ?_, ?_⟩
  · intro r
    rw [mapPage_state, List.mem_append, List.mem_singleton]
    by_cases hr : r = p
    · rw [if_pos hr]
      exact ⟨fun _ => rfl, fun _ => Or.inr hr⟩
    · rw [if_neg hr, ← hmem]
      exact ⟨fun hm => hm.resolve_right hr, Or.inl⟩
  · intro r
    rw [mapPage_state, mapPage_prot]
    by_cases hr : r = p
    · rw [hr, Function.update_self, if_pos rfl, if_pos rfl]
    · rw [Function.update_of_ne hr, if_neg hr]
      exact hprot r
  · rw [mapPage_residentCount, hcount, List.length_append, List.length_singleton]
    rfl
  · rw [List.length_append, List.length_singleton]
    exact hq

/-- A page is mapped while there is room. -/
theorem Books.room (h : Books s q) (hp : p ∉ q) (hq : q.length < maxResident) : Books (mapPage L s p) (q ++ [p]) := by
  refine Books.map h.mem_iff h.prot h.count hq ?_
  obtain ⟨b, hlog⟩ := mapPage_log (L := L) (s := s) (p := p)
  rw [hlog, moves_append]
  exact h.replaced.fill hp

/-- A page is mapped in the place of the one evicted. -/
theorem Books.full (h : Books s q) (hp : p ∉ q) (hv : v ∈ q) : Books (mapPage L (evictPage L s v) p) (q.erase v ++ [p]) := by
  have hpos := List.length_pos_of_mem hv
  have hlen := List.length_erase_of_mem hv
  have hle := h.length_le
  have hstate : ∀ r, ((evictPage L s v).pageTable r).state = if r = v then .swapped else (s.pageTable r).state := by
    intro r
    rw [evictPage_pageTable]
    by_cases hr : r = v
    · rw [hr, Function.update_self, if_pos rfl]
    · rw [Function.update_of_ne hr, if_neg hr]
  refine Books.map ?_ ?_ ?_ (by omega) ?_
  · intro r
    rw [h.replaced.nodup.mem_erase_iff, hstate]
    by_cases hr : r = v
    · rw [if_pos hr]
      exact ⟨fun hc => absurd hr hc.1, nofun⟩
    · rw [if_neg hr, h.mem_iff]
      exact ⟨fun hc => hc.2, fun hc => ⟨hr, hc⟩⟩
  · intro r
    rw [hstate, evictPage_prot]
    by_cases hr : r = v
    · rw [hr, Function.update_self, if_pos rfl, if_neg nofun]
    · rw [Function.update_of_ne hr, if_neg hr]
      exact h.prot r
  · rw [evictPage_residentCount, h.count, hlen]
    omega
  · obtain ⟨b, hlog⟩ := mapPage_log (L := L) (s := evictPage L s v) (p := p)
    rw [hlog, evictPage_log, moves_append, moves_append]
    exact h.replaced.swap hv hp

/-! ## Accesses -/

/-- How an access brings its page in: it is resident, there is room, or the clock hand finds a victim. -/
inductive Brings (fuel : Nat) (L : Layout) (s : Vm) (q : List (Fin numVpages)) (p : Fin numVpages) :
    Vm → List (Fin numVpages) → Prop where
  | resident : p ∈ q → Brings fuel L s q p s q
  | room : p ∉ q → q.length < maxResident → Brings fuel L s q p (mapPage L s p) (q ++ [p])
  | full {r : Scan numVpages} : p ∉ q → scan fuel s.pageTable s.clockCircle = some r → r.victim ∈ q →
      Brings fuel L s q p (mapPage L (evictPage L (r.leave s) r.victim) p) (q.erase r.victim ++ [p])

/-- A page that is brought in is resident. -/
theorem Brings.books (hb : Brings fuel L s q p s₁ q₁) (h : Books s q) : Books s₁ q₁ ∧ p ∈ q₁ := by
  cases hb with
  | resident hp => exact ⟨h, hp⟩
  | room hp hq => exact ⟨h.room hp hq, List.mem_append_right _ List.mem_cons_self⟩
  | full hp hr hv => exact ⟨(h.leave hr).full hp hv, List.mem_append_right _ List.mem_cons_self⟩

/-- `load_page` of a page that is not resident brings it in. -/
theorem Books.loadPage (hfuel : 2 * numVpages ≤ fuel) (h : Books s q) (hp : p ∉ q) {i : Int} (hi : entryIndex i = .ok p) :
    ∃ s₁ q₁, loadPage (pager fuel) L s i = .ok s₁ ∧ Brings fuel L s q p s₁ q₁ := by
  have hle := h.length_le
  unfold Vmem.loadPage makeRoom
  rw [h.count]
  by_cases hq : q.length = maxResident
  · obtain ⟨w, hw⟩ := List.exists_mem_of_length_pos (l := q) (by rw [hq]; decide)
    obtain ⟨r, hr⟩ := scan_terminates s.clockCircle ((h.mem_iff w).1 hw) hfuel
    have hch : (pager fuel).chooseVictim s = .ok (r.leave s, r.victim) := by
      simp only [pager, chooseVictim, hr]
      rfl
    rw [if_pos (by omega), hch]
    simp only [hi]
    exact ⟨_, _, rfl, .full hp hr ((h.mem_iff _).2 (scan_some hr).1)⟩
  · rw [if_neg (by omega)]
    simp only [hi]
    exact ⟨_, _, rfl, .room hp (Nat.lt_of_le_of_ne hle hq)⟩

/-- An access to the region completes after at most one run of the handler. -/
theorem Books.access (hfuel : 2 * numVpages ≤ fuel) (h : Books s q) (hi : entryIndex (pageOfAddr L a.addr) = .ok p)
    (limit : Nat) :
    ∃ s₁ q₁, accessWithin (segvHandler fuel L) L (limit + 1) s a = .ok (perform s₁ a p) ∧ Brings fuel L s q p s₁ q₁ := by
  have hallows : ∀ {t : Vm} {r : List (Fin numVpages)}, Books t r → p ∈ r → (t.prot p).allows a.store = true := by
    intro t r ht hp
    rw [ht.prot, if_pos ((ht.mem_iff p).1 hp)]
    rfl
  by_cases hp : p ∈ q
  · exact ⟨s, q, accessWithin_allowed _ hi (hallows h hp), .resident hp⟩
  · have hforb : (s.prot p).allows a.store = false := by
      rw [h.prot, if_neg (fun hc => hp ((h.mem_iff p).2 hc))]
      rfl
    obtain ⟨s₁, q₁, hload, hb⟩ := h.loadPage (L := L) hfuel hp hi
    obtain ⟨hbooks, hp₁⟩ := hb.books h
    refine ⟨s₁, q₁, ?_, hb⟩
    rw [accessWithin_forbidden limit hi hforb hload]
    exact accessWithin_allowed _ hi (hallows hbooks hp₁)

/-- An access does not change who is resident. -/
theorem Books.perform (h : Books s q) (a : Access) (p : Fin numVpages) : Books (perform s a p).1 q := by
  refine h.congr ?_ ?_ ?_ (moves_perform s a p) <;> unfold Vmem.perform <;> cases a.store <;> first | rfl | exact fun _ => rfl

theorem Books.setEntry (h : Books s q) {e : PageEntry} (he : e.state = (s.pageTable p).state) : Books (s.setEntry p e) q := by
  refine h.congr ?_ rfl rfl rfl
  intro r
  by_cases hr : r = p
  · rw [hr]
    show (Function.update s.pageTable p e p).state = _
    rw [Function.update_self, he]
  · show (Function.update s.pageTable p e r).state = _
    rw [Function.update_of_ne hr]

/-- At first no page is resident. -/
theorem books_init : Books initVmem [] := by
  refine ⟨FifoQueue.Replaced.nil, ?_, fun _ => rfl, rfl, Nat.zero_le _⟩
  intro p
  exact ⟨nofun, nofun⟩

/-! ## Second chances -/

/-- The page was accessed; `post` is what happened since the last access. -/
def Accessed (page : Fin numVpages) (log : List Event) : Prop :=
  ∃ pre e post, log = pre ++ e :: post ∧ e.accesses page ∧ ∀ x ∈ post, ¬ x.accesses page

variable {log : List Event} {e : Event}

/-- Another event leaves the last access where it is. -/
theorem Accessed.snoc (h : Accessed p log) (he : ¬ e.accesses p) : Accessed p (log ++ [e]) := by
  obtain ⟨pre, x, post, rfl, hx, hpost⟩ := h
  refine ⟨pre, x, post ++ [e], by rw [List.append_assoc, List.cons_append], hx, ?_⟩
  intro y hy
  rcases List.mem_append.1 hy with hy | hy
  · exact hpost y hy
  · rw [List.mem_singleton.1 hy]
    exact he

/-- A page keeps its chance until it is accessed. -/
theorem chanced_snoc (h : Chanced p log) (he : ¬ e.accesses p) : Chanced p (log ++ [e]) := by
  obtain ⟨pre, x, mid, post, rfl, hx, hno⟩ := h
  refine ⟨pre, x, mid, post ++ [e], by rw [List.append_assoc, List.cons_append], hx, ?_⟩
  intro y hy
  rw [← List.append_assoc] at hy
  rcases List.mem_append.1 hy with hy | hy
  · exact hno y hy
  · rw [List.mem_singleton.1 hy]
    exact he

/-- The hand passes over a page. -/
theorem Accessed.chanced (h : Accessed p log) : Chanced p (log ++ [.secondChance p]) := by
  obtain ⟨pre, x, post, rfl, hx, hpost⟩ := h
  refine ⟨pre, x, post, [], rfl, hx, ?_⟩
  rw [List.append_nil]
  exact hpost

/-- If the page is resident, its bit is set since its last access, or it had its chance since. -/
def Due (pageTable : Fin numVpages → PageEntry) (log : List Event) (p : Fin numVpages) : Prop :=
  (pageTable p).state = .resident → ((pageTable p).referenced = true ∧ Accessed p log) ∨ Chanced p log

/-- A page stays due until it is accessed. -/
theorem Due.snoc {pageTable : Fin numVpages → PageEntry} (h : Due pageTable log p) (he : ¬ e.accesses p) :
    Due pageTable (log ++ [e]) p := by
  intro hr
  rcases h hr with ⟨hb, ha⟩ | hc
  · exact Or.inl ⟨hb, ha.snoc he⟩
  · exact Or.inr (chanced_snoc hc he)

theorem Due.congr {pageTable pageTable' : Fin numVpages → PageEntry} (h : Due pageTable log p)
    (he : pageTable' p = pageTable p) : Due pageTable' log p := by
  unfold Due
  rw [he]
  exact h

/-- A page whose bit the hand clears has its chance then. -/
theorem Due.clear {pageTable : Fin numVpages → PageEntry} (h : Due pageTable log p) {hand : Fin numVpages}
    (hres : (pageTable hand).state = .resident) :
    Due (Function.update pageTable hand { pageTable hand with referenced := false }) (log ++ [.secondChance hand]) p := by
  by_cases hp : p = hand
  · subst hp
    intro _
    rcases h hres with ⟨_, ha⟩ | hc
    · exact Or.inr ha.chanced
    · exact Or.inr (chanced_snoc hc nofun)
  · exact (h.congr (Function.update_of_ne hp _ _)).snoc nofun

/-- The scan keeps what is due to the pages, and its victim had its chance. -/
theorem scan_due {pageTable : Fin numVpages → PageEntry} {hand : Fin numVpages} {r : Scan numVpages}
    (h : ∀ p, Due pageTable log p) (hr : scan fuel pageTable hand = some r) :
    (∀ p, Due r.pageTable (log ++ r.skipped.map .secondChance) p) ∧
      Chanced r.victim (log ++ r.skipped.map .secondChance) := by
  -- along the loop, with the log as it grows
  induction fuel generalizing pageTable hand log r with
  | zero => cases hr
  | succ fuel ih =>
    simp only [scan] at hr
    by_cases hres : (pageTable hand).state = .resident
    · rw [if_pos hres] at hr
      by_cases href : (pageTable hand).referenced = true
      · rw [if_pos href, Option.map_eq_some_iff] at hr
        obtain ⟨r', hr, rfl⟩ := hr
        have hih := ih (fun p => (h p).clear hres) hr
        rw [List.append_assoc] at hih
        exact hih
      · rw [if_neg href] at hr
        obtain rfl := Option.some.inj hr
        simp only [List.map_nil, List.append_nil]
        exact ⟨h, (h hand hres).resolve_left (fun hc => href hc.1)⟩
    · rw [if_neg hres] at hr
      exact ih h hr

/-- Every page evicted had its chance before. -/
def EvictsChanced (log : List Event) : Prop := ∀ pre page wrote post, log = pre ++ .evict page wrote :: post → Chanced page pre

/-- One more eviction is of a page that had its chance. -/
theorem EvictsChanced.snoc (h : EvictsChanced log) (he : ∀ page wrote, e = .evict page wrote → Chanced page log) :
    EvictsChanced (log ++ [e]) := by
  intro pre page wrote post heq
  rcases split_snoc heq with ⟨rfl, hx⟩ | ⟨post', heq⟩
  · exact he page wrote hx.symm
  · exact h pre page wrote post' heq

/-- Giving chances evicts nobody. -/
theorem EvictsChanced.skipped (h : EvictsChanced log) (l : List (Fin numVpages)) :
    EvictsChanced (log ++ l.map .secondChance) := by
  induction l generalizing log with
  | nil => rwa [List.map_nil, List.append_nil]
  | cons w l ih =>
    rw [List.map_cons, ← List.singleton_append, ← List.append_assoc]
    exact ih (h.snoc nofun)

/-- What is due to the pages, and what was done to those evicted. -/
structure Fair (s : Vm) : Prop where
  due : ∀ p, Due s.pageTable s.log p
  evicted : EvictsChanced s.log

/-- Bringing a page in is fair to the others. -/
theorem Fair.brings (h : Fair s) (hb : Brings fuel L s q p s₁ q₁) :
    (∀ r, r ≠ p → Due s₁.pageTable s₁.log r) ∧ EvictsChanced s₁.log := by
  have hmap : ∀ t : Vm, (∀ r, r ≠ p → Due t.pageTable t.log r) → EvictsChanced t.log →
      (∀ r, r ≠ p → Due (mapPage L t p).pageTable (mapPage L t p).log r) ∧ EvictsChanced (mapPage L t p).log := by
    intro t hdue hev
    obtain ⟨b, hlog⟩ := mapPage_log (L := L) (s := t) (p := p)
    obtain ⟨k, htable⟩ := mapPage_pageTable (L := L) (s := t) (p := p)
    rw [hlog, htable]
    exact ⟨fun r hr => ((hdue r hr).congr (Function.update_of_ne hr _ _)).snoc nofun, hev.snoc nofun⟩
  cases hb with
  | resident _ => exact ⟨fun r _ => h.due r, h.evicted⟩
  | room _ _ => exact hmap s (fun r _ => h.due r) h.evicted
  | @full r _ hr _ =>
    obtain ⟨hdue, hv⟩ := scan_due h.due hr
    refine hmap _ ?_ ?_
    · intro w _
      rw [evictPage_log, evictPage_pageTable]
      by_cases hw : w = r.victim
      · intro hres
        rw [hw, Function.update_self] at hres
        cases hres
      · exact ((hdue w).congr (Function.update_of_ne hw _ _)).snoc nofun
    · rw [evictPage_log]
      refine (h.evicted.skipped r.skipped).snoc ?_
      intro page wrote he
      obtain ⟨rfl, _⟩ := Event.evict.inj he
      exact hv

/-- `vmem_read` and `vmem_write` log the access and set the bit. -/
theorem Fair.access {en : PageEntry} (hdue : ∀ r, r ≠ p → Due s.pageTable s.log r) (hev : EvictsChanced s.log)
    (hen : en.referenced = true) : Fair ((perform s a p).1.setEntry p en) := by
  obtain ⟨e, he, hlog, htable⟩ : ∃ e : Event, e.accesses p ∧ (perform s a p).1.log = s.log ++ [e] ∧
      (perform s a p).1.pageTable = s.pageTable := by
    unfold Vmem.perform
    cases a.store with
    | none => exact ⟨.read p, rfl, rfl, rfl⟩
    | some value => exact ⟨.write p, rfl, rfl, rfl⟩
  have hother : ∀ r, r ≠ p → ¬ e.accesses r := by
    intro r hr
    cases e <;> first | exact fun hc => hr (hc.symm.trans he) | exact fun hc => hc
  refine ⟨fun r => ?_, ?_⟩
  · show Due (Function.update (perform s a p).1.pageTable p en) (perform s a p).1.log r
    rw [hlog, htable]
    by_cases hr : r = p
    · subst hr
      intro _
      rw [Function.update_self]
      exact Or.inl ⟨hen, s.log, e, [], rfl, he, nofun⟩
    · exact ((hdue r hr).congr (Function.update_of_ne hr _ _)).snoc (hother r hr)
  · show EvictsChanced (perform s a p).1.log
    rw [hlog]
    refine hev.snoc ?_
    rintro page wrote rfl
    exact he.elim

/-- Nothing has been evicted at first. -/
theorem fair_init : Fair initVmem := by
  refine ⟨fun p hr => (nomatch hr), ?_⟩
  intro pre page wrote post h
  exact absurd h.symm (List.append_ne_nil_of_right_ne_nil _ (List.cons_ne_nil _ _))

end SecondChance

end OsLab.Vmem
