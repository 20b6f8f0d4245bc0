import OsLab.Lemmas.PoolQueue

/-!
# Shutting the pool down

Workers exit only from an empty queue of a pool that is shut down (`Closing`), every submit call is accepted once or returns -1
(`Calls`), and when the pool is freed at a moment at which no other call is before its section, no thread that could still use it
is left (`Guarded`).
-/

namespace OsLab.Pool

variable {n : Nat}

/-- What worker exits, joins and the freeing of the pool say about the pool. -/
structure Closing (s : State n) : Prop where
  exited : ∀ w, s.worker w = .exited → s.shutdown = true ∧ s.head = 0
  joining : ∀ d k, s.destroy d = .joining k → s.shutdown = true ∧ ∀ w : Fin n, w.val < k → s.worker w = .exited
  freed : s.freed = true → ∀ w, s.worker w = .exited

/-- The calls accepted in a run are those that returned 0, each once. -/
structure Calls (tr : List (Label n)) (s : State n) : Prop where
  nodup : (accepted tr).Nodup
  accepted_iff : ∀ i, i ∈ accepted tr ↔ s.submit i = .returned 0
  code : ∀ i c, s.submit i = .returned c → c = 0 ∨ c = -1

/-- The pool has not been misused, one destroy call joins the workers, and once the pool is freed no call is left to use it. -/
structure Guarded (s : State n) : Prop where
  intact : s.misused = false
  one : ∀ d d' k k', s.destroy d = .joining k → s.destroy d' = .joining k' → d = d'
  alone : s.freed = true →
    (∀ i a, s.submit i ≠ .began a) ∧ ∀ d, s.destroy d ≠ .began ∧ ∀ k, s.destroy d ≠ .joining k

namespace ShutdownAux

open QueueAux

variable {s s' : State n} {tr : List (Label n)} {l : Label n} {w : Fin n} {i : Nat}

/-! ## Workers exit -/

/-- What changes neither the workers that exited nor the shutdown keeps the order of closing. -/
theorem Closing.frame (h : Closing s) (hw : ∀ w, s'.worker w = .exited ↔ s.worker w = .exited)
    (hs : s'.shutdown = s.shutdown) (hh : s'.head = s.head) (hd : ∀ d k, s'.destroy d = .joining k → s.destroy d = .joining k)
    (hf : s'.freed = s.freed) : Closing s' := by
  refine ⟨?_, ?_, ?_⟩
  · intro w hw'
    rw [hs, hh]
    exact h.exited w ((hw w).1 hw')
  · intro d k hd'
    obtain ⟨h1, h2⟩ := h.joining d k (hd d k hd')
    refine ⟨hs.trans h1, fun w hwk => (hw w).2 (h2 w hwk)⟩
  · intro hf' w
    exact (hw w).2 (h.freed (hf.symm.trans hf') w)

theorem exited_setWorker {x : Worker} (h : s.worker w ≠ .exited) (hx : x ≠ .exited) (v : Fin n) :
    (s.setWorker w x).worker v = .exited ↔ s.worker v = .exited := by
  by_cases hv : v = w
  · subst hv
    rw [State.worker_setWorker_self]
    exact ⟨fun he => absurd he hx, fun he => absurd he h⟩
  · rw [State.worker_setWorker_of_ne hv]

/-- Waking workers makes none exit. -/
theorem exited_woken {ws ws' : Fin n → Worker} (h : ∀ w, ws' w = ws w ∨ (ws w = .waiting ∧ ws' w = .woken)) (w : Fin n) :
    ws' w = .exited ↔ ws w = .exited := by
  rcases h w with hw | ⟨hw, hw'⟩
  · rw [hw]
  · rw [hw, hw']
    exact ⟨nofun, nofun⟩

/-- A worker exits from the empty queue of a pool that is shut down. -/
theorem Closing.exit (h : Closing s) (hs : s.shutdown = true) (h0 : s.head = 0) : Closing (s.setWorker w .exited) := by
  have hkeep : ∀ v, s.worker v = .exited → (s.setWorker w .exited).worker v = .exited := by
    intro v hv
    by_cases hvw : v = w
    · rw [hvw, State.worker_setWorker_self]
    · rw [State.worker_setWorker_of_ne hvw, hv]
  refine ⟨fun v _ => ⟨hs, h0⟩, ?_, ?_⟩
  · intro d k hd
    obtain ⟨h1, h2⟩ := h.joining d k hd
    exact ⟨h1, fun v hv => hkeep v (h2 v hv)⟩
  · intro hf v
    exact hkeep v (h.freed hf v)

/-- While no worker has exited, nothing has been joined: any change of the queue is in order. -/
theorem Closing.of_busy (hw : ∀ w, s'.worker w ≠ .exited) (hd : ∀ d k, s'.destroy d ≠ .joining k)
    (hf : s'.freed = false) : Closing s' := by
  refine ⟨fun w he => absurd he (hw w), fun d k he => absurd he (hd d k), fun he => ?_⟩
  rw [hf] at he
  cases he

/-- A task is taken: no worker has exited, as the queue is not empty. -/
theorem Closing.take (h : Closing s) (hf : s.freed = false) (h0 : s.head ≠ 0) {a t : Nat} {b : Nat} :
    Closing ({ s with head := a, tail := t }.setWorker w (.taken b)) := by
  have hnone : ∀ v, s.worker v ≠ .exited := fun v hv => h0 (h.exited v hv).2
  refine ⟨?_, ?_, ?_⟩
  · intro v hv
    by_cases hvw : v = w
    · rw [hvw, State.worker_setWorker_self] at hv
      cases hv
    · rw [State.worker_setWorker_of_ne hvw] at hv
      exact absurd hv (hnone v)
  · intro d k hd
    obtain ⟨h1, h2⟩ := h.joining d k hd
    exact ⟨h1, fun v hv => absurd (h2 v hv) (hnone v)⟩
  · intro hf'
    exact nomatch hf.symm.trans hf'

/-- A destroy call moves on, and has joined no worker that has not exited. -/
theorem Closing.setDestroy {d : Nat} {x : Destroy} (h : Closing s)
    (hx : ∀ k, x = .joining k → s.shutdown = true ∧ ∀ w : Fin n, w.val < k → s.worker w = .exited) :
    Closing (s.setDestroy d x) := by
  refine ⟨h.exited, ?_, h.freed⟩
  intro e k he
  by_cases hed : e = d
  · rw [hed, State.destroy_setDestroy_self] at he
    exact hx k he
  · rw [State.destroy_setDestroy_of_ne hed] at he
    exact h.joining e k he

/-! ## Submit calls return -/

/-- A step that accepts nothing keeps the record of the calls. -/
theorem Calls.frame (h : Calls tr s) (hl : accepted [l] = []) (hs : s'.submit = s.submit) : Calls (tr ++ [l]) s' := by
  have ha : accepted (tr ++ [l]) = accepted tr := by
    unfold accepted at hl ⊢
    rw [List.filterMap_append, hl, List.append_nil]
  refine ⟨ha ▸ h.nodup, ?_, ?_⟩
  · rw [ha, hs]
    exact h.accepted_iff
  · rw [hs]
    exact h.code

/-- A call moves on without being accepted. -/
theorem Calls.setSubmit {x : Submit} (h : Calls tr s) (hl : accepted [l] = []) (hi : s.submit i ≠ .returned 0)
    (hx : ∀ c, x = .returned c → c = -1) : Calls (tr ++ [l]) (s.setSubmit i x) := by
  have ha : accepted (tr ++ [l]) = accepted tr := by
    unfold accepted at hl ⊢
    rw [List.filterMap_append, hl, List.append_nil]
  refine ⟨ha ▸ h.nodup, ?_, ?_⟩
  · intro j
    rw [ha, h.accepted_iff]
    by_cases hj : j = i
    · rw [hj, State.submit_setSubmit_self]
      exact ⟨fun he => absurd he hi, fun he => absurd (hx 0 he) (by decide)⟩
    · rw [State.submit_setSubmit_of_ne hj]
  · intro j c hj
    by_cases hji : j = i
    · rw [hji, State.submit_setSubmit_self] at hj
      exact Or.inr (hx c hj)
    · rw [State.submit_setSubmit_of_ne hji] at hj
      exact h.code j c hj

/-- A call is accepted. -/
theorem Calls.accept (h : Calls tr s) (hi : s.submit i ≠ .returned 0) (hs : s'.submit = s.submit) :
    Calls (tr ++ [.accept i]) (s'.setSubmit i (.returned 0)) := by
  have ha : accepted (tr ++ [.accept i]) = accepted tr ++ [i] := by
    unfold accepted
    rw [List.filterMap_append]
    rfl
  refine ⟨?_, ?_, ?_⟩
  · rw [ha, ← List.concat_eq_append, List.nodup_concat]
    exact ⟨fun hmem => hi ((h.accepted_iff i).1 hmem), h.nodup⟩
  · intro j
    rw [ha, List.mem_append, List.mem_singleton, h.accepted_iff]
    by_cases hj : j = i
    · rw [hj, State.submit_setSubmit_self]
      exact ⟨fun _ => rfl, fun _ => Or.inr rfl⟩
    · rw [State.submit_setSubmit_of_ne hj, hs]
      exact ⟨fun he => he.resolve_right hj, Or.inl⟩
  · intro j c hj
    by_cases hji : j = i
    · rw [hji, State.submit_setSubmit_self] at hj
      exact Or.inl (Submit.returned.inj hj).symm
    · rw [State.submit_setSubmit_of_ne hji, hs] at hj
      exact h.code j c hj

/-! ## The pool is freed -/

/-- A step that begins no call keeps the pool guarded. -/
theorem Guarded.frame (h : Guarded s) (hm : s'.misused = s.misused) (hf : s'.freed = s.freed)
    (hi : ∀ i a, s'.submit i = .began a → s.submit i = .began a) (hb : ∀ d, s'.destroy d = .began → s.destroy d = .began)
    (hj : ∀ d k, s'.destroy d = .joining k → ∃ k', s.destroy d = .joining k') : Guarded s' := by
  refine ⟨hm.trans h.intact, ?_, ?_⟩
  · intro d d' k k' hd hd'
    obtain ⟨k₁, hd⟩ := hj d k hd
    obtain ⟨k₂, hd'⟩ := hj d' k' hd'
    exact h.one d d' k₁ k₂ hd hd'
  · intro hf'
    obtain ⟨h1, h2⟩ := h.alone (hf.symm.trans hf')
    refine ⟨fun i a he => h1 i a (hi i a he), fun d => ⟨fun he => (h2 d).1 (hb d he), fun k he => ?_⟩⟩
    obtain ⟨k', he⟩ := hj d k he
    exact (h2 d).2 k' he

/-- A submit call moves on. -/
theorem Guarded.setSubmit {t : State n} {x : Submit} (h : Guarded s) (hm : t.misused = s.misused) (hf : t.freed = s.freed)
    (hs : t.submit = s.submit) (hd : t.destroy = s.destroy) (hx : ∀ a, x ≠ .began a) : Guarded (t.setSubmit i x) := by
  refine Guarded.frame h hm hf ?_ (fun d he => hd ▸ he) (fun d k he => ⟨k, hd ▸ he⟩)
  intro j a hj
  by_cases hji : j = i
  · rw [hji, State.submit_setSubmit_self] at hj
    exact absurd hj (hx a)
  · rw [State.submit_setSubmit_of_ne hji, hs] at hj
    exact hj

/-- A destroy call moves on in a pool that is not freed. -/
theorem Guarded.setDestroy {t : State n} {d : Nat} {x : Destroy} (h : Guarded s) (hm : t.misused = s.misused) (hf : t.freed = false)
    (hd : t.destroy = s.destroy) (hx : ∀ e k k', e ≠ d → x = .joining k → s.destroy e ≠ .joining k') :
    Guarded (t.setDestroy d x) := by
  refine ⟨hm.trans h.intact, ?_, fun hf' => nomatch hf.symm.trans hf'⟩
  intro e e' k k' he he'
  by_cases hed : e = d <;> by_cases hed' : e' = d
  · rw [hed, hed']
  · rw [hed, State.destroy_setDestroy_self] at he
    rw [State.destroy_setDestroy_of_ne hed', hd] at he'
    exact absurd he' (hx e' k k' hed' he)
  · rw [hed', State.destroy_setDestroy_self] at he'
    rw [State.destroy_setDestroy_of_ne hed, hd] at he
    exact absurd he (hx e k' k hed he')
  · rw [State.destroy_setDestroy_of_ne hed, hd] at he
    rw [State.destroy_setDestroy_of_ne hed', hd] at he'
    exact h.one e e' k k' he he'

end ShutdownAux

open ShutdownAux QueueAux

variable {s s' : State n} {tr : List (Label n)} {l : Label n}

/-- Every step of a thread keeps `Closing`. -/
theorem Closing.step (h : Closing s) (hs : Step s l s') (hl : l ≠ .misuse) : Closing s' := by
  cases hs with
  | refuse | callSubmit | reject | drop => exact Closing.frame h (fun _ => Iff.rfl) rfl rfl (fun _ _ hd => hd) rfl
  | @accept s₁ i a ws hf _ hopen he hsig =>
    have heq := enqueue_eq he
    have hworker : s₁.worker = s.worker := by rw [heq]
    refine Closing.of_busy ?_ ?_ ?_
    · intro w hw
      have hw' := (exited_woken hsig.1 w).1 hw
      rw [hworker] at hw'
      exact nomatch hopen.symm.trans (h.exited w hw').1
    · intro d k hd
      have hd' : s.destroy d = .joining k := by rw [heq] at hd; exact hd
      exact nomatch hopen.symm.trans (h.joining d k hd').1
    · show s₁.freed = false
      rw [heq]
      exact hf
  | @«section» _ w _ hf hr hsec =>
    have hbusy : s.worker w ≠ .exited := by rcases hr with hr | hr <;> rw [hr] <;> nofun
    rcases workerSection_cases hsec with ⟨_, _, rfl, _⟩ | ⟨h0, hshut, rfl, _⟩ | ⟨task, h0, _, _, rfl⟩
    · exact Closing.frame h (exited_setWorker hbusy nofun) rfl rfl (fun _ _ hd => hd) rfl
    · exact Closing.exit h hshut h0
    · exact Closing.take h hf h0
  | wake hw => exact Closing.frame h (exited_setWorker (by rw [hw]; nofun) nofun) rfl rfl (fun _ _ hd => hd) rfl
  | execute hw _ => exact Closing.frame h (exited_setWorker (by rw [hw]; nofun) nofun) rfl rfl (fun _ _ hd => hd) rfl
  | @release w a hw =>
    have hbusy : (s.setTask a none).worker w ≠ .exited := fun he => nomatch hw.symm.trans he
    exact Closing.frame h (exited_setWorker hbusy nofun) rfl rfl (fun _ _ hd => hd) rfl
  | callDestroy | again => exact Closing.setDestroy h nofun
  | close _ _ _ =>
    have hws := exited_woken (broadcast_cases s.worker)
    refine Closing.setDestroy (s := { s with shutdown := true, worker := broadcast s.worker }) ⟨?_, ?_, ?_⟩ ?_
    · exact fun w hw => ⟨rfl, (h.exited w ((hws w).1 hw)).2⟩
    · exact fun d k hd => ⟨rfl, fun w hw => (hws w).2 ((h.joining d k hd).2 w hw)⟩
    · exact fun hf w => (hws w).2 (h.freed hf w)
    · rintro k hk
      obtain rfl := Destroy.joining.inj hk
      exact ⟨rfl, fun w hw => absurd hw (Nat.not_lt_zero _)⟩
  | @join d k _ hd hk =>
    obtain ⟨h1, h2⟩ := h.joining d k hd
    refine Closing.setDestroy h ?_
    rintro k' hk'
    obtain rfl := Destroy.joining.inj hk'
    refine ⟨h1, fun w hw => ?_⟩
    rcases Nat.lt_or_eq_of_le (Nat.le_of_lt_succ hw) with hlt | heq
    · exact h2 w hlt
    · rw [Fin.ext heq]
      exact hk
  | @free d _ hd =>
    obtain ⟨h1, h2⟩ := h.joining d n hd
    refine Closing.setDestroy (s := { s with freed := true }) ⟨h.exited, h.joining, ?_⟩ nofun
    exact fun _ w => h2 w w.isLt
  | misuse _ _ _ => exact absurd rfl hl

/-- Every step of a thread keeps `Calls`. -/
theorem Calls.step (h : Calls tr s) (hs : Step s l s') (hl : l ≠ .misuse) : Calls (tr ++ [l]) s' := by
  cases hs with
  | refuse hi => exact Calls.setSubmit h rfl (by rw [hi]; nofun) (fun c hc => (Submit.returned.inj hc).symm)
  | @callSubmit i a hi _ _ =>
    exact Calls.setSubmit (s := s.setTask a _) ⟨h.nodup, h.accepted_iff, h.code⟩ rfl
      (fun he => nomatch hi.symm.trans he) nofun
  | reject _ hi _ => exact Calls.setSubmit h rfl (by rw [hi]; nofun) nofun
  | accept _ hi _ he _ => exact Calls.accept h (by rw [hi]; nofun) (by rw [enqueue_eq he])
  | @drop i a hi =>
    exact Calls.setSubmit (s := s.setTask a none) ⟨h.nodup, h.accepted_iff, h.code⟩ rfl
      (fun he => nomatch hi.symm.trans he) (fun c hc => (Submit.returned.inj hc).symm)
  | «section» _ _ hsec =>
    rcases workerSection_cases hsec with ⟨_, _, rfl, rfl⟩ | ⟨_, _, rfl, rfl⟩ | ⟨_, _, _, rfl, rfl⟩ <;>
      exact Calls.frame h rfl rfl
  | misuse _ _ _ => exact absurd rfl hl
  | _ => exact Calls.frame h rfl rfl

/-- Every step that meets the conditions keeps `Guarded`. -/
theorem Guarded.step (h : Guarded s) (hc : Closing s) (hs : SafeStep s l s') (hl : l ≠ .misuse) : Guarded s' := by
  obtain ⟨hs, hsafe⟩ := hs
  cases hs with
  | refuse _ => exact Guarded.setSubmit h rfl rfl rfl rfl nofun
  | callSubmit _ _ _ => exact ⟨h.intact, h.one, fun hf => nomatch Eq.trans (Eq.symm hsafe) hf⟩
  | reject _ _ _ => exact Guarded.setSubmit h rfl rfl rfl rfl nofun
  | @accept s₁ _ _ ws _ _ _ he _ =>
    have heq := enqueue_eq he
    exact Guarded.setSubmit (t := { s₁ with worker := ws }) h (by rw [heq]) (by rw [heq]) (by rw [heq]) (by rw [heq]) nofun
  | @drop _ a _ => exact Guarded.setSubmit (t := s.setTask a none) h rfl rfl rfl rfl nofun
  | «section» _ _ hsec =>
    rcases workerSection_cases hsec with ⟨_, _, rfl, rfl⟩ | ⟨_, _, rfl, rfl⟩ | ⟨_, _, _, rfl, rfl⟩ <;>
      exact ⟨h.intact, h.one, h.alone⟩
  | callDestroy _ => exact Guarded.setDestroy (t := s) h rfl hsafe rfl nofun
  | again hf _ _ => exact Guarded.setDestroy (t := s) h rfl hf rfl nofun
  | close hf _ hopen =>
    refine Guarded.setDestroy (t := { s with shutdown := true, worker := broadcast s.worker }) h rfl hf rfl ?_
    intro e k k' _ _ he
    exact nomatch hopen.symm.trans (hc.joining e k' he).1
  | join hf hd _ =>
    refine Guarded.setDestroy (t := s) h rfl hf rfl ?_
    intro e k k' hne _ he
    exact hne (h.one _ _ _ _ he hd)
  | @free d _ hd =>
    -- the call that frees the pool is the only one that joins, and no other is before its section
    refine ⟨h.intact, ?_, ?_⟩
    · intro e e' k k' he he'
      have hold : ∀ e k, ({ s with freed := true }.setDestroy d .returned).destroy e = .joining k → False := by
        intro e k he
        by_cases hed : e = d
        · rw [hed, State.destroy_setDestroy_self] at he
          cases he
        · rw [State.destroy_setDestroy_of_ne hed] at he
          exact hed (h.one e d k n he hd)
      exact (hold e k he).elim
    · refine fun _ => ⟨hsafe.1, fun e => ?_⟩
      by_cases hed : e = d
      · rw [hed, State.destroy_setDestroy_self]
        exact ⟨nofun, nofun⟩
      · rw [State.destroy_setDestroy_of_ne hed]
        exact ⟨hsafe.2 e hed, fun k he => hed (h.one e d k n he hd)⟩
  | misuse _ _ _ => exact absurd rfl hl
  | _ => exact ⟨h.intact, h.one, h.alone⟩

/-- When the pool is freed, no thread is left to use it. -/
theorem not_touches (hc : Closing s) (hg : Guarded s) (hf : s.freed = true) : ¬ s.Touches := by
  obtain ⟨h1, h2⟩ := hg.alone hf
  rintro (⟨w, hw⟩ | ⟨i, a, hi⟩ | ⟨d, hd | ⟨k, hd⟩⟩)
  · have he := hc.freed hf w
    rw [he] at hw
    rcases hw with hw | hw <;> cases hw
  · exact h1 i a hi
  · exact (h2 d).1 hd
  · exact (h2 d).2 k hd

/-- A pool that is shut down stays so, and accepts no call. -/
theorem Step.shut (hs : Step s l s') (hl : l ≠ .misuse) (h : s.shutdown = true) :
    s'.shutdown = true ∧ ∀ i, s'.submit i = .returned 0 → s.submit i = .returned 0 := by
  have hother : ∀ (t : State n) i x, t.submit = s.submit → x ≠ .returned 0 →
      ∀ j, (t.setSubmit i x).submit j = .returned 0 → s.submit j = .returned 0 := by
    intro t i x ht hx j hj
    by_cases hji : j = i
    · rw [hji, State.submit_setSubmit_self] at hj
      exact absurd hj hx
    · rw [State.submit_setSubmit_of_ne hji, ht] at hj
      exact hj
  cases hs with
  | refuse _ => exact ⟨h, hother s _ _ rfl (by decide)⟩
  | callSubmit _ _ _ => exact ⟨h, hother (s.setTask _ _) _ _ rfl nofun⟩
  | reject _ _ _ => exact ⟨h, hother s _ _ rfl nofun⟩
  | accept _ _ hopen _ _ => exact nomatch hopen.symm.trans h
  | drop _ => exact ⟨h, hother (s.setTask _ _) _ _ rfl (by decide)⟩
  | «section» _ _ hsec =>
    rcases workerSection_cases hsec with ⟨_, _, rfl, _⟩ | ⟨_, _, rfl, _⟩ | ⟨_, _, _, _, rfl⟩ <;>
      exact ⟨h, fun _ hi => hi⟩
  | close _ _ _ => exact ⟨rfl, fun _ hi => hi⟩
  | misuse _ _ _ => exact absurd rfl hl
  | _ => exact ⟨h, fun _ hi => hi⟩

/-- The pool is freed by a step that says so, and only when it was not freed before. -/
theorem Step.freed_cases (hs : Step s l s') (hl : l ≠ .misuse) :
    (s.freed = false ∧ s'.freed = true ∧ (frees [l]).length = 1) ∨ (s'.freed = s.freed ∧ frees [l] = []) := by
  cases hs with
  | accept _ _ _ he _ => exact Or.inr ⟨by rw [enqueue_eq he]; rfl, rfl⟩
  | «section» _ _ hsec =>
    rcases workerSection_cases hsec with ⟨_, _, rfl, rfl⟩ | ⟨_, _, rfl, rfl⟩ | ⟨_, _, _, rfl, rfl⟩ <;>
      exact Or.inr ⟨rfl, rfl⟩
  | free hf _ => exact Or.inl ⟨hf, rfl, rfl⟩
  | misuse _ _ _ => exact absurd rfl hl
  | _ => exact Or.inr ⟨rfl, rfl⟩

end OsLab.Pool
