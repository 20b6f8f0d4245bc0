import OsLab.Lemmas.CooperativeLoop
import OsLab.Theorems.Cooperative

/-!
# Rounds and sleepers

The loop of `main` comes to every slot once a round, whatever the coroutines do in between. Between two resumes of slot `i` the
place of the loop says whether slot `j` has had its turn: how far behind slot `i` it is (`lag`) is compared with how far behind
slot `j` is, and what has been counted goes with it (`Tally`). A round more is begun only when slot `i` is passed over.
-/

namespace OsLab.Cooperative

variable {m m' m₁ m₂ : Machine} {fs : List Body} {pre mid : List Event} {e : Event} {i j k : Slot}

namespace CooperativeAux

/-! ## Counting the turns of a slot -/

/-- How far the loop has come since slot `i`: a round has a place for each slot, and 10 for its end. -/
def lag (i p : Nat) : Nat := (p + maxCoroutines - i) % (maxCoroutines + 1)

/-- The turns of slot `j` since slot `i` was resumed, with the loop at `p`: none as long as the loop has not passed `j`, then one;
or slot `i` was passed over since, and there was one at least. -/
def Tally (i j p count : Nat) (missed : Prop) : Prop :=
  (lag i p ≤ lag i j ∧ count = 0) ∨ (lag i j < lag i p ∧ count = 1) ∨ (missed ∧ 1 ≤ count)

section Tally

variable {i j p p' count : Nat} {missed missed' : Prop}

/-- Just behind slot `i` the loop has the whole round before it. -/
theorem lag_succ_self : lag i (i + 1) = 0 := by
  unfold lag maxCoroutines at *
  omega

/-- A slot just visited is a whole round away. -/
theorem lag_self : lag i i = maxCoroutines := by
  unfold lag maxCoroutines at *
  omega

/-- From every place but slot `i` the loop comes one further. -/
theorem lag_on (hi : i < maxCoroutines) (hp : p ≤ maxCoroutines) (hpi : p ≠ i)
    (hp' : p' = if p = maxCoroutines then 0 else p + 1) : lag i p' = lag i p + 1 := by
  unfold lag maxCoroutines at *
  split at hp' <;> omega

/-- The places of a round are told apart by how far the loop has come. -/
theorem lag_ne (hi : i < maxCoroutines) (hp : p ≤ maxCoroutines) (hp' : p' ≤ maxCoroutines) (hne : p ≠ p') :
    lag i p ≠ lag i p' := by
  unfold lag maxCoroutines at *
  omega

/-- All others come before it. -/
theorem lag_lt_self (hi : i < maxCoroutines) (hj : j < maxCoroutines) (hij : i ≠ j) : lag i j < lag i i := by
  have hle : lag i j ≤ maxCoroutines := Nat.le_of_lt_succ (Nat.mod_lt _ (Nat.succ_pos _))
  have hne := lag_ne hi (Nat.le_of_lt hj) (Nat.le_of_lt hi) hij.symm
  rw [lag_self] at hne ⊢
  omega

/-- Right after the visit nothing has been counted. -/
theorem Tally.start : Tally i j (i + 1) 0 missed := by
  refine Or.inl ⟨?_, rfl⟩
  rw [lag_succ_self]
  exact Nat.zero_le _

/-- What may have been missed may grow. -/
theorem Tally.mono (h : Tally i j p count missed) (hm : missed → missed') : Tally i j p count missed' :=
  Or.imp_right (Or.imp_right (And.imp_left hm)) h

/-- The loop goes on over another slot, or at the end of a round. -/
theorem Tally.on (h : Tally i j p count missed) (hi : i < maxCoroutines) (hj : j < maxCoroutines) (hp : p ≤ maxCoroutines)
    (hp' : p' = if p = maxCoroutines then 0 else p + 1) (hpi : p ≠ i) (hpj : p ≠ j) : Tally i j p' count missed := by
  have hon := lag_on hi hp hpi hp'
  have hne := lag_ne hi hp (Nat.le_of_lt hj) hpj
  rcases h with ⟨h, hc⟩ | ⟨h, hc⟩ | h
  · exact Or.inl ⟨by omega, hc⟩
  · exact Or.inr (Or.inl ⟨by omega, hc⟩)
  · exact Or.inr (Or.inr h)

/-- Slot `j` has its turn. -/
theorem Tally.turn (h : Tally i j j count missed) (hi : i < maxCoroutines) (hj : j < maxCoroutines) (hij : i ≠ j) :
    Tally i j (j + 1) (count + 1) missed := by
  have hon := lag_on hi (Nat.le_of_lt hj) hij.symm (if_neg (Nat.ne_of_lt hj)).symm
  rcases h with ⟨_, hc⟩ | ⟨h, _⟩ | ⟨h, hc⟩
  · exact Or.inr (Or.inl ⟨by omega, by omega⟩)
  · exact absurd h (Nat.lt_irrefl _)
  · exact Or.inr (Or.inr ⟨h, by omega⟩)

/-- Back at slot `i`, slot `j` has had one turn, or slot `i` was passed over and it has had one at least. -/
theorem Tally.back (h : Tally i j i count missed) (hi : i < maxCoroutines) (hj : j < maxCoroutines) (hij : i ≠ j) :
    1 ≤ count ∧ (¬missed → count = 1) := by
  have hlt := lag_lt_self hi hj hij
  rcases h with ⟨h, _⟩ | ⟨_, hc⟩ | ⟨h, hc⟩
  · omega
  · exact ⟨by omega, fun _ => hc⟩
  · exact ⟨hc, fun hn => absurd h hn⟩

/-- Slot `i` is passed over: slot `j` has had its turn, and the next round is counted with it. -/
theorem Tally.miss (h : Tally i j i count missed) (hi : i < maxCoroutines) (hj : j < maxCoroutines) (hij : i ≠ j)
    (hm : missed') : Tally i j (i + 1) count missed' :=
  Or.inr (Or.inr ⟨hm, (h.back hi hj hij).1⟩)

end Tally

/-! ## Whole rounds -/

/-- The slot was visited and not resumed. -/
def Missed (k : Slot) (es : List Event) : Prop := ∃ e ∈ es, e.visited = some k ∧ ∀ x, e ≠ .resumed k x

/-- What was missed stays so. -/
theorem Missed.append (h : Missed k mid) (es : List Event) : Missed k (mid ++ es) := by
  obtain ⟨e, he, hv⟩ := h
  exact ⟨e, List.mem_append_left _ he, hv⟩

/-- A visit that does not resume the slot misses it. -/
theorem missed_snoc (hv : e.visited = some k) (hno : ∀ x, e ≠ .resumed k x) : Missed k (mid ++ [e]) :=
  ⟨e, by simp, hv, hno⟩

/-- What is known between two resumes of slot `i`. -/
def Rounds (i j : Slot) (mid : List Event) (m : Machine) : Prop :=
  m.control = .main .done ∨
    ∃ p, m.place = some p ∧ p ≤ maxCoroutines ∧ Tally i j p (mid.countP (Event.resumes j)) (Missed i mid)

/-- `main` acts only before its end. -/
theorem Acts.not_done (h : Acts m e m') : m.control ≠ .main .done := by
  intro hd
  cases h <;> simp_all

/-- Only a visit of a slot can resume it. -/
theorem countP_of_not_visited (h : e.visited ≠ some j) : [e].countP (Event.resumes j) = 0 := by
  cases e <;> simp_all [Event.resumes, Event.visited]

/-- The loop comes to a slot: slot `i` is passed over, slot `j` has its turn, and a third one counts for nothing. -/
theorem Tally.visit (hij : i ≠ j) (h : Tally i j k (mid.countP (Event.resumes j)) (Missed i mid)) (hv : e.visited = some k)
    (hi : ∀ x, e ≠ .resumed i x) (hj : ¬Missed j (mid ++ [e])) :
    Tally i j (k + 1) ((mid ++ [e]).countP (Event.resumes j)) (Missed i (mid ++ [e])) := by
  have hmissed : Missed i mid → Missed i (mid ++ [e]) := fun hm => hm.append _
  have hijv : i.val ≠ j.val := fun he => hij (Fin.ext he)
  rw [List.countP_append]
  by_cases hkj : k = j
  · -- it is not passed over, so it is resumed
    subst hkj
    have hres : ∃ x, e = .resumed k x := by
      by_contra hno
      exact hj (missed_snoc hv (not_exists.1 hno))
    obtain ⟨x, rfl⟩ := hres
    have hone : [Event.resumed k x].countP (Event.resumes k) = 1 := by simp [Event.resumes]
    rw [hone]
    exact (h.turn i.isLt k.isLt hijv).mono hmissed
  · rw [countP_of_not_visited (by simp [hv, hkj]), Nat.add_zero]
    by_cases hki : k = i
    · subst hki
      exact h.miss k.isLt j.isLt hijv (missed_snoc hv hi)
    · have hk : k.val ≠ maxCoroutines := Nat.ne_of_lt k.isLt
      refine (h.on i.isLt j.isLt (Nat.le_of_lt k.isLt) (if_neg hk).symm ?_ ?_).mono hmissed
      · exact fun he => hki (Fin.ext he)
      · exact fun he => hkj (Fin.ext he)

/-- One step more, as long as slot `i` is not resumed and slot `j` is not passed over. -/
theorem Rounds.step (hij : i ≠ j) (h : Rounds i j mid m) (ha : Acts m e m') (hi : ∀ x, e ≠ .resumed i x)
    (hj : ¬Missed j (mid ++ [e])) : Rounds i j (mid ++ [e]) m' := by
  obtain ⟨p, hp, hle, ht⟩ := h.resolve_left (Acts.not_done ha)
  have hplace := Acts.place_eq ha
  cases hv : e.visited with
  | some k =>
    obtain rfl : p = k.val := Option.some.inj (hp.symm.trans (Acts.visit ha hv).2.1)
    exact Or.inr ⟨_, hplace.trans (placeAfter_visited hv), k.isLt, ht.visit hij hv hi hj⟩
  | none =>
    -- a round ends, or the loop stays where it is
    have hsame : ((mid ++ [e]).countP (Event.resumes j)) = mid.countP (Event.resumes j) := by
      rw [List.countP_append, countP_of_not_visited (by simp [hv]), Nat.add_zero]
    have ht : Tally i j p ((mid ++ [e]).countP (Event.resumes j)) (Missed i (mid ++ [e])) :=
      hsame ▸ ht.mono fun hm => hm.append _
    cases e with
    | scanned allDone =>
      obtain rfl : p = maxCoroutines := Option.some.inj (hp.symm.trans (Acts.place_of_scanned ha))
      cases allDone with
      | true =>
        cases ha
        exact Or.inl rfl
      | false =>
        refine Or.inr ⟨0, hplace, Nat.zero_le _, ?_⟩
        exact ht.on i.isLt j.isLt hle (if_pos rfl).symm (Nat.ne_of_gt i.isLt) (Nat.ne_of_gt j.isLt)
    | began => exact nomatch hp.symm.trans (Acts.place_of_began ha)
    | passed k | early k now | refused k | resumed k x => cases hv
    | spawned f id | called id stack | ran id stack tag | yielded stack | slept stack s now | finished stack =>
      exact Or.inr ⟨p, hplace.trans hp, hle, ht⟩

/-- From a resume of slot `i` on, as long as it is not resumed again and slot `j` is not passed over. -/
theorem rounds_run {x : Option Int} (hij : i ≠ j) (h : Run Step (schedulerInit fs) pre m) (hs : Step m (.resumed i x) m₁)
    (hr : Run Step m₁ mid m₂) (hi : ∀ x, .resumed i x ∉ mid) (hj : ¬Missed j mid) : Rounds i j mid m₂ := by
  have h₁ := h.snoc hs
  revert hi hj
  refine Run.invariant (P := fun mid m₂ => (∀ x, .resumed i x ∉ mid) → ¬Missed j mid → Rounds i j mid m₂) ?_ ?_ hr
  · intro _ _
    have hplace := Acts.place_eq (Inv.acts (run_inv h) hs)
    exact Or.inr ⟨_, hplace, i.isLt, Tally.start⟩
  · intro mid m₂ e m₃ hrun ih hstep hi hj
    have ha := Inv.acts (run_inv (h₁.append hrun)) hstep
    refine Rounds.step hij (ih ?_ ?_) ha ?_ hj
    · exact fun x hx => hi x (List.mem_append_left _ hx)
    · exact fun hm => hj (hm.append _)
    · rintro x rfl
      exact hi x (by simp)

/-- A slot that is ready whenever `main` has control is not passed over. -/
theorem not_missed (h : Run Step (schedulerInit fs) pre m₁) (hr : Run Step m₁ mid m₂)
    (hready : Run.Along Step (fun m => m.InMain → m.Ready k) m₁ mid m₂) : ¬Missed k mid := by
  rintro ⟨e, he, hv, hno⟩
  obtain ⟨bs, cs, u, v, hmid, h1, hstep, h2⟩ := hr.of_mem he
  obtain ⟨hmain, _, hcases⟩ := Acts.visit (Inv.acts (run_inv (h.append h1)) hstep) hv
  obtain ⟨hfree, hsleep⟩ := hready bs (e :: cs) u hmid h1 h2 hmain
  rcases hcases with ⟨_, hs⟩ | ⟨_, _, hs, _⟩ | ⟨now, he, _⟩ | ⟨he, _⟩
  · exact hfree hs
  · exact hsleep hs
  · exact hno _ he
  · exact hno _ he

/-! ## Sleepers -/

/-- A sleeper until it is resumed: it sleeps on, and the loop comes to it too early. -/
theorem sleeper_run {w : Int} (h : Run Step (schedulerInit fs) pre m₁) (hs : m₁.state i = .sleeping) (hw : m₁.wakeUpTime i = w)
    (hr : Run Step m₁ mid m₂) (hno : ∀ x, .resumed i x ∉ mid) :
    m₂.state i = .sleeping ∧ m₂.wakeUpTime i = w ∧ ∀ e ∈ mid, e.visited = some i → ∃ now, e = .early i now ∧ now < w := by
  revert hno
  refine Run.invariant (P := fun mid m₂ => (∀ x, .resumed i x ∉ mid) → m₂.state i = .sleeping ∧ m₂.wakeUpTime i = w ∧
    ∀ e ∈ mid, e.visited = some i → ∃ now, e = .early i now ∧ now < w) ?_ ?_ hr
  · exact fun _ => ⟨hs, hw, nofun⟩
  · intro mid m₂ e m₃ hrun ih hstep hno
    obtain ⟨hs₂, hw₂, hall⟩ := ih fun x hx => hno x (List.mem_append_left _ hx)
    have ha := Inv.acts (run_inv (h.append hrun)) hstep
    have hne : ∀ x, e ≠ .resumed i x := by
      rintro x rfl
      exact hno x (by simp)
    obtain ⟨hs₃, hw₃⟩ := Acts.sleeping ha hs₂ hne
    refine ⟨hs₃, hw₃.trans hw₂, ?_⟩
    intro e' he' hv
    rcases List.mem_append.1 he' with he' | he'
    · exact hall e' he' hv
    · obtain rfl := List.mem_singleton.1 he'
      obtain ⟨_, _, hcases⟩ := Acts.visit ha hv
      rcases hcases with ⟨_, hf⟩ | ⟨now, he, _, hlt⟩ | ⟨now, he, _⟩ | ⟨he, _⟩
      · exact nomatch hs₂.symm.trans hf
      · exact ⟨now, he, hw₂ ▸ hlt⟩
      · exact absurd he (hne _)
      · exact absurd he (hne _)

/-- The property, checked in every machine on the way. -/
def stepsAll (P : Machine → Prop) [DecidablePred P] : Machine → List Int → Bool
  | m, [] => decide (P m)
  | m, now :: ts => decide (P m) && (step m now).all fun p => stepsAll P p.2 ts

/-- The machines on the way are those that were checked, since an event leads to one machine only. -/
theorem along_steps {P : Machine → Prop} [DecidablePred P] {es : List Event} {ts : List Int}
    (h : Run Step (schedulerInit fs) pre m) (hs : steps m ts = some (es, m')) (hall : stepsAll P m ts = true) :
    Run.Along Step P m es m' := by
  induction ts generalizing pre m es with
  | nil =>
    obtain ⟨rfl, rfl⟩ := Prod.mk.inj (Option.some.inj hs)
    exact Run.Along.nil (of_decide_eq_true hall)
  | cons now ts ih =>
    obtain ⟨p, hp, hs⟩ := Option.bind_eq_some_iff.1 hs
    obtain ⟨q, hq, he⟩ := Option.map_eq_some_iff.1 hs
    obtain ⟨rfl, rfl⟩ := Prod.mk.inj he
    simp only [stepsAll, hp, Option.all_some, Bool.and_eq_true, decide_eq_true_eq] at hall
    have hstep : Step m p.1 p.2 := ⟨now, hp⟩
    refine Run.Along.cons ?_ hall.1 (ih (h.snoc hstep) hq hall.2)
    intro u hu
    exact Acts.functional (Inv.acts (run_inv h) hu) (Inv.acts (run_inv h) hstep)

end CooperativeAux

open CooperativeAux

/-! ## Round robin -/

/-- For any bodies and any clock, in every run. A coroutine that has called `coroutine_sleep(s)` at the time `t` is next resumed at
a reading of `t + s` or more: until then, every time the loop comes to its slot it reads less, and when it reads as much there it
resumes it. And for two slots, between two resumes of slot `i` with none of it between them: when slot `j` is neither free nor
sleeping whenever `main` has control, it is resumed there at least once, and exactly once when the same holds of slot `i`. -/
theorem sleeping_round_robin {m₀ : Machine} (h : Run Step (schedulerInit fs) pre m₀) :
    (∀ i s t m₁ mid m₂, Step m₀ (.slept i s t) m₁ → -2 ^ 63 ≤ t + s → t + s < 2 ^ 63 → Run Step m₁ mid m₂ →
        (∀ x, .resumed i x ∉ mid) →
        (∀ e ∈ mid, e.visited = some i → ∃ now, e = .early i now ∧ now < t + s) ∧
          (∀ x m₃, Step m₂ (.resumed i x) m₃ → ∃ now, x = some now ∧ t + s ≤ now) ∧
          (∀ d now, m₂.control = .main (.scan i d) → t + s ≤ now →
            ∃ m₃, step m₂ now = some (.resumed i (some now), m₃))) ∧
      (∀ i j x y m₁ mid m₂ m₃, i ≠ j → Step m₀ (.resumed i x) m₁ → Run Step m₁ mid m₂ → (∀ z, .resumed i z ∉ mid) →
        Step m₂ (.resumed i y) m₃ → Run.Along Step (fun m => m.InMain → m.Ready j) m₁ mid m₂ →
        1 ≤ mid.countP (Event.resumes j) ∧
          (Run.Along Step (fun m => m.InMain → m.Ready i) m₁ mid m₂ → mid.countP (Event.resumes j) = 1)) := by
  refine ⟨?_, ?_⟩
  · intro i s t m₁ mid m₂ hsl hlo hhi hr hno
    have h₁ := h.snoc hsl
    obtain ⟨hs₁, hw₁⟩ := Acts.slept_sleeping (Inv.acts (run_inv h) hsl)
    rw [Word.addInt_of_fits (by omega) (by omega), Int.add_comm] at hw₁
    obtain ⟨hs₂, hw₂, hearly⟩ := sleeper_run h₁ hs₁ hw₁ hr hno
    have hinv := run_inv (h₁.append hr)
    refine ⟨hearly, ?_, ?_⟩
    · intro x m₃ hx
      obtain ⟨_, _, hcases⟩ := Acts.visit (Inv.acts hinv hx) rfl
      rcases hcases with ⟨he, _⟩ | ⟨_, he, _⟩ | ⟨now, he, _, hle⟩ | ⟨_, _, hns⟩
      · cases he
      · cases he
      · cases he
        exact ⟨now, rfl, hw₂ ▸ hle⟩
      · exact absurd hs₂ hns
    · intro d now hctl hle
      exact Inv.wakes hinv hctl hs₂ (hw₂.symm ▸ hle)
  · intro i j x y m₁ mid m₂ m₃ hij hx hr hno hy hj
    have h₁ := h.snoc hx
    have hrounds := rounds_run hij h hx hr hno (not_missed h₁ hr hj)
    have ha := Inv.acts (run_inv (h₁.append hr)) hy
    obtain ⟨p, hp, _, ht⟩ := hrounds.resolve_left (Acts.not_done ha)
    obtain ⟨_, hpi, _⟩ := Acts.visit ha rfl
    obtain rfl : p = i.val := Option.some.inj (hp.symm.trans hpi)
    obtain ⟨hone, hexact⟩ := ht.back i.isLt j.isLt fun he => hij (Fin.ext he)
    exact ⟨hone, fun hi => hexact (not_missed h₁ hr hi)⟩

/-- The events and the machine after steps at the times given. -/
def CooperativeAux.go (m : Machine) (ts : List Int) : List Event × Machine := (steps m ts).getD ([], m)

/-- The steps that are taken are those `go` computes. -/
theorem CooperativeAux.steps_go {ts : List Int} (h : (steps m ts).isSome = true) : steps m ts = some (go m ts) := by
  obtain ⟨p, hp⟩ := Option.isSome_iff_exists.1 h
  simp [go, hp]

/-- A slot that is counted 0 times is not resumed. -/
theorem CooperativeAux.not_resumed (h : mid.countP (Event.resumes i) = 0) (x : Option Int) : .resumed i x ∉ mid := by
  intro hx
  exact List.countP_eq_zero.1 h _ hx (by simp [Event.resumes])

/-- A sleeper, when it is about to sleep. -/
def CooperativeAux.sleeper₀ : Machine := (go (schedulerInit [.sleep 2 .ret]) (List.replicate 4 0)).2

def CooperativeAux.sleeper₁ : Machine := (go sleeper₀ [0]).2

/-- A body that yields twice. -/
def CooperativeAux.yielder : Body := .yield (.yield .ret)

/-- Two coroutines, when the first is about to be resumed. -/
def CooperativeAux.yielders₀ : Machine := (go (schedulerInit [yielder, yielder]) (List.replicate 3 0)).2

def CooperativeAux.yielders₁ : Machine := (go yielders₀ [0]).2

/-- A sleeper is passed over at the time 1 and resumed at the time 2; and of two coroutines that yield, the second is resumed once
between two resumes of the first. -/
theorem sleeping_round_robin_yielders :
    (∃ pre m₀ m₁ mid m₂ m₃, Run Step (schedulerInit [.sleep 2 .ret]) pre m₀ ∧ Step m₀ (.slept ⟨0, by decide⟩ 2 0) m₁ ∧
      Run Step m₁ mid m₂ ∧ .early ⟨0, by decide⟩ 1 ∈ mid ∧ step m₂ 2 = some (.resumed ⟨0, by decide⟩ (some 2), m₃)) ∧
      ∃ pre m₀ m₁ mid m₂ m₃, Run Step (schedulerInit [yielder, yielder]) pre m₀ ∧
        Step m₀ (.resumed ⟨0, by decide⟩ none) m₁ ∧ Run Step m₁ mid m₂ ∧ Step m₂ (.resumed ⟨0, by decide⟩ none) m₃ ∧
        mid.countP (Event.resumes ⟨1, by decide⟩) = 1 := by
  refine ⟨?_, ?_⟩
  · have h₀ : steps (schedulerInit [.sleep 2 .ret]) (List.replicate 4 0) = some (_, sleeper₀) := steps_go rfl
    have h₁ : Step sleeper₀ (.slept ⟨0, by decide⟩ 2 0) sleeper₁ := ⟨0, rfl⟩
    have h₂ : steps sleeper₁ (List.replicate 10 0 ++ 1 :: List.replicate 10 0) = some (_, _) := steps_go rfl
    have hround := (sleeping_round_robin (run_steps h₀)).1 _ _ _ _ _ _ h₁ (by decide) (by decide) (run_steps h₂)
      (not_resumed rfl)
    obtain ⟨m₃, h₃⟩ := hround.2.2 true 2 rfl (by decide)
    exact ⟨_, _, _, _, _, m₃, run_steps h₀, h₁, run_steps h₂, by decide, h₃⟩
  · have h₀ : steps (schedulerInit [yielder, yielder]) (List.replicate 3 0) = some (_, yielders₀) := steps_go rfl
    have h₁ : Step yielders₀ (.resumed ⟨0, by decide⟩ none) yielders₁ := ⟨0, rfl⟩
    have h₂ : steps yielders₁ (List.replicate 14 0) = some (_, _) := steps_go rfl
    have h₃ : Step (go yielders₁ (List.replicate 14 0)).2 (.resumed ⟨0, by decide⟩ none) _ := ⟨0, rfl⟩
    have hrun := (run_steps h₀).snoc h₁
    have hround := (sleeping_round_robin (run_steps h₀)).2 _ ⟨1, by decide⟩ _ _ _ _ _ _ (by decide) h₁ (run_steps h₂)
      (not_resumed rfl) h₃ (along_steps hrun h₂ rfl)
    exact ⟨_, _, _, _, _, _, run_steps h₀, h₁, run_steps h₂, h₃, hround.2 (along_steps hrun h₂ rfl)⟩

end OsLab.Cooperative
