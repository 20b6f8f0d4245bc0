import OsLab.Lemmas.MemfsHistory

/-!
# Whole runs of the file system

The table is the store of named files it should be: every sequence of calls gets the store's answers (`memfs_refines_store`).
What the store does not promise is that a file forgets what was cut off: a write beyond the end of a file keeps the bytes it
skips, stale or not. The files are what their history says exactly as long as no such byte is skipped
(`explained_iff_clean`).
-/

namespace OsLab.Memfs

open TableAux CallsAux HistoryAux

/-- The path `/a`. -/
def pathA : CString := { bytes := [slash, 97], nul_free := by decide }

/-! ## The store behind the table -/

/-- From a table that is a store, a sequence of calls has a result, which is a store again, and gets the store's answers. -/
theorem run_refines (ops : List Op) {files : Files} {s : Store} (h : Holds files s) (hb : ∀ op ∈ ops, op.Bounded) :
    ∃ files' replies, run files ops = some (files', replies) ∧ Holds files' (s.run ops).1 ∧
      List.Forall₂ Reply.Is replies (s.run ops).2 := by
  induction ops generalizing files s with
  | nil => exact ⟨files, [], rfl, h, List.Forall₂.nil⟩
  | cons op ops ih =>
    obtain ⟨files₁, reply, hs, hh, hr⟩ := h.step (hb op List.mem_cons_self)
    obtain ⟨files', replies, hrun, hh', hrs⟩ := ih hh (fun o ho => hb o (List.mem_cons_of_mem _ ho))
    refine ⟨files', reply :: replies, ?_, hh', List.Forall₂.cons hr hrs⟩
    simp only [run, hs, hrun, Option.map_some]

/-- From the state `memfs_init` leaves, every sequence of calls is answered as by the store of named files: the same codes,
bytes, sizes and listings. -/
theorem memfs_refines_store (ops : List Op) (hb : ∀ op ∈ ops, op.Bounded) :
    ∃ files replies, run initFiles ops = some (files, replies) ∧ List.Forall₂ Reply.Is replies (Store.empty.run ops).2 := by
  obtain ⟨files, replies, hrun, _, hrs⟩ := run_refines ops holds_init hb
  exact ⟨files, replies, hrun, hrs⟩

/-- A file is created, written across the limit, listed and read. -/
def sampleOps : List Op :=
  [.create pathA, .write pathA (bufferOf [1, 2, 3]) 5000 4000, .readdir { bytes := [slash], nul_free := by decide },
    .read pathA 10 4094]

/-- The answers to the calls are those of the store. -/
theorem memfs_refines_store_sample :
    ∃ files replies, run initFiles sampleOps = some (files, replies) ∧
      List.Forall₂ Reply.Is replies (Store.empty.run sampleOps).2 := by
  apply memfs_refines_store
  intro op hop
  simp only [sampleOps, List.mem_cons, List.not_mem_nil, or_false] at hop
  rcases hop with rfl | rfl | rfl | rfl
  · trivial
  · exact (by decide : 5000 < 2 ^ 31)
  · trivial
  · trivial

/-! ## Bytes and history -/

/-- The calls and their replies determine the table. -/
theorem steps_eq {files files₁ files₂ : Files} {tr : List (Op × Reply)} (h₁ : Run Step files tr files₁)
    (h₂ : Run Step files tr files₂) : files₁ = files₂ := by
  refine Run.eq_of_labels ?_ h₁ h₂
  intro files l files₁ files₂ h₁ h₂
  have he := h₁.2.symm.trans h₂.2
  exact (Prod.mk.inj (Option.some.inj he)).1

/-- A run is a sequence of steps labelled with the calls and the replies. -/
theorem run_steps {ops : List Op} {files files' : Files} {replies : List Reply} (hb : ∀ op ∈ ops, op.Bounded)
    (h : run files ops = some (files', replies)) : Run Step files (ops.zip replies) files' := by
  induction ops generalizing files replies with
  | nil =>
    obtain ⟨rfl, rfl⟩ := Prod.mk.inj (Option.some.inj h)
    exact Run.nil files
  | cons op ops ih =>
    simp only [run] at h
    cases hs : step files op with
    | none =>
      rw [hs] at h
      cases h
    | some r =>
      obtain ⟨files₁, reply⟩ := r
      simp only [hs, Option.map_eq_some_iff] at h
      obtain ⟨⟨files₂, rest⟩, hrun, he⟩ := h
      obtain ⟨rfl, rfl⟩ := Prod.mk.inj he
      have hstep : Step files (op, reply) files₁ := ⟨hb op List.mem_cons_self, hs⟩
      exact (Run.single hstep).append (ih (fun o ho => hb o (List.mem_cons_of_mem _ ho)) hrun)

/-- In every run the table is a store, and the history explains nothing past the end of a file. -/
theorem run_endsAtSize {tr : List (Op × Reply)} {files : Files} (h : Run Step initFiles tr files) :
    ∃ s, Holds files s ∧ EndsAtSize tr s := by
  refine Run.invariant (P := fun tr files => ∃ s, Holds files s ∧ EndsAtSize tr s) ?_ ?_ h
  · exact ⟨Store.empty, holds_init, fun name f hf => nomatch hf⟩
  · rintro tr files l files' _ ⟨s, hh, hend⟩ hstep
    obtain ⟨s', hh', hc⟩ := hh.change hstep
    exact ⟨s', hh', hend.step hc⟩

/-- After one more call, the files are explained if they were and the call skips no stale byte; and only then. -/
theorem explained_snoc {tr : List (Op × Reply)} {files files' : Files} {l : Op × Reply} (h : Run Step initFiles tr files)
    (hs : Step files l files') (hx : Explained tr files) :
    Explained (tr ++ [l]) files' ↔ EveryFile (File.GapZero l.1) files := by
  obtain ⟨s, hh, hend⟩ := run_endsAtSize h
  obtain ⟨s', hh', hc⟩ := hh.change hs
  unfold Explained at hx ⊢
  rw [hh.everyFile_iff] at hx ⊢
  rw [hh'.everyFile_iff]
  exact ⟨gapZero_of_explained hend hc, fun hgap => explained_step hend hx hgap hc⟩

/-- A run of calls that skip nothing in any table is clean. -/
theorem clean_of_forall {tr : List (Op × Reply)} {files files' : Files} (h : Run Step files tr files')
    (hg : ∀ l ∈ tr, ∀ t, EveryFile (File.GapZero l.1) t) : Run CleanStep files tr files' := by
  induction h with
  | nil => exact Run.nil files
  | snoc _ hs ih =>
    refine Run.snoc (ih (fun l hl => hg l (List.mem_append_left _ hl))) ⟨hs, ?_⟩
    exact hg _ (List.mem_append_right _ List.mem_cons_self) _

/-- In every state of a run every byte of every file is the one its history explains, exactly when no write of the run beyond
the end of a file skips a byte that is not zero. -/
theorem explained_iff_clean {tr : List (Op × Reply)} {files : Files} (h : Run Step initFiles tr files) :
    (∀ pre files', pre <+: tr → Run Step initFiles pre files' → Explained pre files') ↔
      Run CleanStep initFiles tr files := by
  induction h with
  | nil =>
    refine ⟨fun _ => Run.nil _, ?_⟩
    intro _ pre files' hpre hr
    obtain rfl := List.prefix_nil.1 hpre
    obtain rfl := hr.eq_of_nil
    exact holds_init.everyFile_iff.2 (fun name f hf => nomatch hf)
  | snoc hr hs ih =>
    rename_i files files' tr l
    constructor
    · intro hx
      have hold := hx tr files (List.prefix_append _ _) hr
      have hnew := hx _ files' (List.prefix_refl _) (Run.snoc hr hs)
      refine Run.snoc (ih.1 ?_) ⟨hs, (explained_snoc hr hs hold).1 hnew⟩
      intro pre t hpre
      exact hx pre t (hpre.trans (List.prefix_append _ _))
    · intro hclean pre t hpre hrun
      obtain ⟨files₀, hr₀, hs₀⟩ := hclean.of_snoc
      obtain rfl := steps_eq hr (hr₀.mono (fun _ _ _ hc => hc.1))
      have hold := ih.2 hr₀
      rcases List.prefix_concat_iff.1 hpre with rfl | hpre
      · obtain rfl := steps_eq (Run.snoc hr hs) hrun
        exact (explained_snoc hr hs (hold tr files (List.prefix_refl _) hr)).2 hs₀.2
      · exact hold pre t hpre hrun

/-- The calls that bring a cut byte back: three bytes are written, the file is cut to one, and one byte is written at 2. -/
def staleOps : List Op :=
  [.create pathA, .write pathA (bufferOf [120, 121, 122]) 3 0, .truncate pathA 1, .write pathA (bufferOf [119]) 1 2]

/-- Their replies: all of them succeed. -/
def staleReplies : List Reply := [.code 0, .code 3, .code 0, .code 1]

/-- All sizes and offsets are in range. -/
theorem staleOps_bounded : ∀ op ∈ staleOps, op.Bounded := by
  intro op hop
  simp only [staleOps, List.mem_cons, List.not_mem_nil, or_false] at hop
  rcases hop with rfl | rfl | rfl | rfl
  · trivial
  · exact (by decide : 3 < 2 ^ 31)
  · trivial
  · exact (by decide : 1 < 2 ^ 31)

/-- The run of the calls, with the byte at position 1 of the file at its end. -/
theorem staleOps_run : ∃ files i k, run initFiles staleOps = some (files, staleReplies) ∧ (files i).used = true ∧
    (files i).nameOf = [97] ∧ k.val = 1 ∧ k.val < (files i).size ∧ (files i).data k = 121 := by
  have h : (run initFiles staleOps).map (fun r =>
      (r.2, (r.1 ⟨0, by decide⟩).used, (r.1 ⟨0, by decide⟩).nameOf, (r.1 ⟨0, by decide⟩).size,
        (r.1 ⟨0, by decide⟩).data ⟨1, by decide⟩)) = some (staleReplies, true, [97], 3, 121) := by rfl
  obtain ⟨⟨files, replies⟩, hrun, he⟩ := Option.map_eq_some_iff.1 h
  simp only [Prod.mk.injEq] at he
  obtain ⟨rfl, hu, hn, hs, hd⟩ := he
  refine ⟨files, _, ⟨1, by decide⟩, hrun, hu, hn, rfl, ?_, hd⟩
  rw [hs]
  decide

/-- The byte that was cut off is in the file again, where the history explains a zero. -/
theorem cut_byte_comes_back :
    ∃ files, Run Step initFiles (staleOps.zip staleReplies) files ∧ ¬ Explained (staleOps.zip staleReplies) files := by
  obtain ⟨files, i, k, hrun, hu, hn, hk, hs, hd⟩ := staleOps_run
  refine ⟨files, run_steps staleOps_bounded hrun, ?_⟩
  intro hx
  have hzero : explain [97] 1 (staleOps.zip staleReplies) = 0 := by decide
  have hbyte : (files i).data k = explain (files i).nameOf k (staleOps.zip staleReplies) := hx i hu k hs
  rw [hd, hn, hk, hzero] at hbyte
  exact absurd hbyte (by decide)

/-- Calls that skip nothing: the cut bytes are regained by growing the file. -/
def regrowOps : List Op := [.create pathA, .write pathA (bufferOf [120, 121, 122]) 3 0, .truncate pathA 1, .truncate pathA 3]

/-- Their replies. -/
def regrowReplies : List Reply := [.code 0, .code 3, .code 0, .code 0]

/-- They all skip nothing, in any table. -/
theorem regrowOps_clean : ∀ op ∈ regrowOps, op.Bounded ∧ ∀ files, EveryFile (File.GapZero op) files := by
  intro op hop
  simp only [regrowOps, List.mem_cons, List.not_mem_nil, or_false] at hop
  rcases hop with rfl | rfl | rfl | rfl
  · exact ⟨trivial, fun _ _ _ => trivial⟩
  · refine ⟨(by decide : 3 < 2 ^ 31), ?_⟩
    intro files i _ _ _ _ k _ hk
    omega
  · exact ⟨trivial, fun _ _ _ => trivial⟩
  · exact ⟨trivial, fun _ _ _ => trivial⟩

/-- The run is clean, and every beginning of it is explained. -/
theorem explained_iff_clean_regrow :
    ∃ files, Run CleanStep initFiles (regrowOps.zip regrowReplies) files ∧
      ∀ pre files', pre <+: regrowOps.zip regrowReplies → Run Step initFiles pre files' → Explained pre files' := by
  have hr : (run initFiles regrowOps).map Prod.snd = some regrowReplies := by rfl
  obtain ⟨⟨files, replies⟩, hrun, rfl⟩ := Option.map_eq_some_iff.1 hr
  have h := run_steps (fun op hop => (regrowOps_clean op hop).1) hrun
  have hclean : ∀ l ∈ regrowOps.zip regrowReplies, ∀ t, EveryFile (File.GapZero l.1) t :=
    fun l hl => (regrowOps_clean l.1 (List.of_mem_zip hl).1).2
  have hc := clean_of_forall h hclean
  exact ⟨files, hc, (explained_iff_clean h).2 hc⟩

end OsLab.Memfs
