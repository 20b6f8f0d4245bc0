import OsLab.Lemmas.MemfsNames
import OsLab.Theorems.Memfs

/-!
# Files do not see each other

What is read of a file depends on the calls made to it since it was created, and on nothing else: not on the slot it is in, not on
the files that were in the slot before, not on the other files (`file_blind_to_others`). Calls on two files can be exchanged; the
table may then have its files in other slots, which no call can tell (`calls_on_two_files_commute`).
-/

namespace OsLab.Memfs

open TableAux CallsAux NamesAux

namespace FilesAux

/-- The answers of a file are not listings of the directory. -/
theorem serve_ne_listing {f : File} {ops : List Op} : ∀ ans ∈ (f.serve ops).2, ∀ set, ans ≠ .listing 0 set := by
  induction ops using List.reverseRecOn with
  | nil => nofun
  | append_singleton ops op ih =>
    cases hg : (f.serve ops).1 with
    | none =>
      have he : f.serve (ops ++ [op]) = f.serve ops := by
        unfold File.serve at hg ⊢
        rw [List.foldl_append, List.foldl_cons, List.foldl_nil, hg]
      rw [he]
      exact ih
    | some g =>
      rw [File.serve_snoc hg]
      intro ans hans
      rcases List.mem_append.1 hans with hans | hans
      · exact ih ans hans
      · rw [List.mem_singleton.1 hans]
        exact g.call_ne_listing op

/-- Replies with the same answers are equal, but for listings. -/
theorem replies_eq {rs rs' : List Reply} {as : List Answer} (h : List.Forall₂ Reply.Is rs as)
    (h' : List.Forall₂ Reply.Is rs' as) (hn : ∀ ans ∈ as, ∀ set, ans ≠ .listing 0 set) : rs = rs' := by
  induction h generalizing rs' with
  | nil =>
    cases h'
    rfl
  | cons hr _ ih =>
    cases h' with
    | cons hr' h' =>
      rw [hr.eq hr' (hn _ List.mem_cons_self), ih h' (fun ans hans => hn ans (List.mem_cons_of_mem _ hans))]

/-- Listings may differ in their order. -/
theorem replies_alike {rs rs' : List Reply} {as : List Answer} (h : List.Forall₂ Reply.Is rs as)
    (h' : List.Forall₂ Reply.Is rs' as) : List.Forall₂ Reply.Alike rs rs' := by
  induction h generalizing rs' with
  | nil =>
    cases h'
    exact List.Forall₂.nil
  | cons hr _ ih =>
    cases h' with
    | cons hr' h' => exact List.Forall₂.cons (hr.alike hr') (ih h')

/-- A successful creation leaves an empty file under its path. -/
theorem holds_create {files files' : Files} {s : Store} {path : CString} (hh : Holds files s)
    (h : Step files (.create path, .code 0) files') :
    ∃ name s', pathToName (some path) = .ok name ∧ Holds files' s' ∧ s'.map.lookup name = some File.empty := by
  obtain ⟨hh', hr⟩ := hh.of_step h
  cases hp : pathToName (some path) with
  | error ret =>
    simp only [Store.step, hp] at hr
    have hneg := pathToName_error hp
    rw [← (show (0 : Int) = ret from hr)] at hneg
    exact absurd hneg (by decide)
  | ok name =>
    obtain ⟨hans, hch⟩ := s.step_act (.create path) hp
    refine ⟨name, _, rfl, hh', ?_⟩
    rw [hch name, if_pos rfl]
    rw [hans] at hr
    cases hl : s.map.lookup name with
    | some f =>
      rw [hl] at hr
      exact absurd (show (0 : Int) = -EEXIST from hr) (by decide)
    | none =>
      rw [hl] at hr
      cases hfull : s.full with
      | true =>
        rw [hfull] at hr
        exact absurd (show (0 : Int) = -ENOSPC from hr) (by decide)
      | false => rfl

/-- The replies to the calls on a path after a creation of it are the answers of an empty file. -/
theorem serve_created {pre tr : List (Op × Reply)} {files : Files} {path : CString}
    (h : Run Step initFiles (pre ++ (.create path, .code 0) :: tr) files)
    (hu : ∀ op ∈ ((callsOn path tr).map Prod.fst).dropLast, ∀ q, op ≠ .unlink q) :
    List.Forall₂ Reply.Is ((callsOn path tr).map Prod.snd) (File.empty.serve ((callsOn path tr).map Prod.fst)).2 := by
  obtain ⟨files₀, hpre, h⟩ := h.of_append
  obtain ⟨files₁, hc, htr⟩ := h.of_cons
  obtain ⟨s, hh, _⟩ := run_endsAtSize hpre
  obtain ⟨name, s₁, hp, hh₁, hl⟩ := holds_create hh hc
  obtain ⟨_, _, _, hr⟩ := serve_run hh₁ hp hl htr hu
  exact hr

/-- Two slots that hold the same. -/
theorem entry_of_view {files files' : Files} {i j : Fin maxFiles} (h : view files' j = view files i) :
    (files' j).used = (files i).used ∧ ((files i).used = true → (files' j).nameOf = (files i).nameOf ∧
      (files' j).size = (files i).size ∧ (files' j).data = (files i).data) := by
  unfold view MemNode.view at h
  cases hu : (files i).used with
  | false =>
    cases hu' : (files' j).used with
    | false => exact ⟨rfl, nofun⟩
    | true => simp [hu, hu'] at h
  | true =>
    cases hu' : (files' j).used with
    | false => simp [hu, hu'] at h
    | true =>
      simp only [hu, hu', if_true, Option.some.injEq, Prod.mk.injEq, MemNode.file, File.mk.injEq] at h
      exact ⟨rfl, fun _ => h⟩

end FilesAux

open FilesAux

/-! ## Two runs -/

/-- In two runs a path is created, and the calls on it after that are the same, only the last of which may unlink it. However the
runs differ before the creation, and in calls on other paths after it, the replies to the calls on the path are the same. -/
theorem file_blind_to_others {path : CString} {pre₁ pre₂ tr₁ tr₂ : List (Op × Reply)} {files₁ files₂ : Files}
    (h₁ : Run Step initFiles (pre₁ ++ (.create path, .code 0) :: tr₁) files₁)
    (h₂ : Run Step initFiles (pre₂ ++ (.create path, .code 0) :: tr₂) files₂)
    (hsame : List.Forall₂ Op.Same ((callsOn path tr₁).map Prod.fst) ((callsOn path tr₂).map Prod.fst))
    (hu₁ : ∀ op ∈ ((callsOn path tr₁).map Prod.fst).dropLast, ∀ q, op ≠ .unlink q)
    (hu₂ : ∀ op ∈ ((callsOn path tr₂).map Prod.fst).dropLast, ∀ q, op ≠ .unlink q) :
    (callsOn path tr₁).map Prod.snd = (callsOn path tr₂).map Prod.snd := by
  have hr₁ := serve_created h₁ hu₁
  have hr₂ := serve_created h₂ hu₂
  rw [File.serve_congr hsame] at hr₁
  exact replies_eq hr₁ hr₂ serve_ne_listing

/-- The path `/b`. -/
def pathB : CString := { bytes := [slash, 98], nul_free := by decide }

/-- `/a` is created in a fresh table, written at position 2 and read. -/
def freshOps : List Op := [.create pathA, .write pathA (bufferOf [7]) 1 2, .read pathA 3 0]

/-- The same in a slot that `/b` was in, with `/b` created again in between. -/
def reusedOps : List Op :=
  [.create pathB, .write pathB (bufferOf [9, 9, 9]) 3 0, .unlink pathB, .create pathA, .create pathB,
    .write pathA (bufferOf [7, 8]) 1 2, .read pathA 3 0]

/-- A file in a slot never used. -/
theorem freshOps_runs : ∃ files, Run Step initFiles (freshOps.zip [.code 0, .code 1, .bytes 3 [0, 0, 7]]) files := by
  have hr : (run initFiles freshOps).map Prod.snd = some [.code 0, .code 1, .bytes 3 [0, 0, 7]] := by decide +kernel
  obtain ⟨⟨files, _⟩, hrun, rfl⟩ := Option.map_eq_some_iff.1 hr
  refine ⟨files, run_steps ?_ hrun⟩
  intro op hop
  simp only [freshOps, List.mem_cons, List.not_mem_nil, or_false] at hop
  rcases hop with rfl | rfl | rfl
  · trivial
  · exact (by decide : 1 < 2 ^ 31)
  · trivial

/-- The same file in a slot used before. -/
theorem reusedOps_runs : ∃ files, Run Step initFiles
    (reusedOps.zip [.code 0, .code 3, .code 0, .code 0, .code 0, .code 1, .bytes 3 [0, 0, 7]]) files := by
  have hr : (run initFiles reusedOps).map Prod.snd =
      some [.code 0, .code 3, .code 0, .code 0, .code 0, .code 1, .bytes 3 [0, 0, 7]] := by decide +kernel
  obtain ⟨⟨files, _⟩, hrun, rfl⟩ := Option.map_eq_some_iff.1 hr
  refine ⟨files, run_steps ?_ hrun⟩
  intro op hop
  simp only [reusedOps, List.mem_cons, List.not_mem_nil, or_false] at hop
  rcases hop with rfl | rfl | rfl | rfl | rfl | rfl | rfl
  · trivial
  · exact (by decide : 3 < 2 ^ 31)
  · trivial
  · trivial
  · trivial
  · exact (by decide : 1 < 2 ^ 31)
  · trivial

/-- What is called on `/b` before `/a` is created, with the replies. -/
def beforeReuse : List (Op × Reply) :=
  [(.create pathB, .code 0), (.write pathB (bufferOf [9, 9, 9]) 3 0, .code 3), (.unlink pathB, .code 0)]

/-- Both get the same replies. -/
theorem file_blind_to_others_reused_slot :
    ∃ files₁ files₂ tr₁ tr₂, Run Step initFiles ([] ++ (.create pathA, .code 0) :: tr₁) files₁ ∧
      Run Step initFiles (beforeReuse ++ (.create pathA, .code 0) :: tr₂) files₂ ∧
      (callsOn pathA tr₁).length = 2 ∧ (callsOn pathA tr₁).map Prod.snd = (callsOn pathA tr₂).map Prod.snd := by
  obtain ⟨files₁, h₁⟩ := freshOps_runs
  obtain ⟨files₂, h₂⟩ := reusedOps_runs
  have hsame : Op.Same (.write pathA (bufferOf [7]) 1 2) (.write pathA (bufferOf [7, 8]) 1 2) := by
    refine ⟨_, rfl, fun k hk => ?_⟩
    obtain rfl : k = 0 := by omega
    rfl
  have hrun₁ : Run Step initFiles ([] ++ (.create pathA, .code 0) ::
      [(.write pathA (bufferOf [7]) 1 2, .code 1), (.read pathA 3 0, .bytes 3 [0, 0, 7])]) files₁ := h₁
  have hrun₂ : Run Step initFiles (beforeReuse ++ (.create pathA, .code 0) ::
      [(.create pathB, .code 0), (.write pathA (bufferOf [7, 8]) 1 2, .code 1), (.read pathA 3 0, .bytes 3 [0, 0, 7])])
      files₂ := h₂
  refine ⟨files₁, files₂, _, _, hrun₁, hrun₂, rfl, ?_⟩
  refine file_blind_to_others hrun₁ hrun₂ (.cons hsame (.cons rfl .nil)) ?_ ?_
  · intro op hop
    rw [List.mem_singleton.1 hop]
    nofun
  · intro op hop
    rw [List.mem_singleton.1 hop]
    nofun

/-! ## Either order -/

/-- In every state that is reached, for calls `a` and `b` on two well-formed paths: both orders have results, and if none of the
four replies is `ENOSPC`, each call gets the same reply in either order, the two tables hold the same entries up to a permutation
of the slots, and whatever is called later gets the same replies in both, with listings in any order. -/
theorem calls_on_two_files_commute {tr : List (Op × Reply)} {files : Files} {a b : Op} {na nb : Bytes}
    (h : Run Step initFiles tr files) (ha : pathToName (some a.path) = .ok na) (hb : pathToName (some b.path) = .ok nb)
    (hne : a.path.bytes ≠ b.path.bytes) (hba : a.Bounded) (hbb : b.Bounded) :
    ∃ files₁ files₂ ra rb ra' rb', run files [a, b] = some (files₁, [ra, rb]) ∧ run files [b, a] = some (files₂, [rb', ra']) ∧
      ((∀ r ∈ [ra, rb, rb', ra'], r ≠ .code (-ENOSPC)) →
        ra = ra' ∧ rb = rb' ∧
          (∃ π : Equiv.Perm (Fin maxFiles), ∀ i, (files₂ (π i)).used = (files₁ i).used ∧
            ((files₁ i).used = true → (files₂ (π i)).nameOf = (files₁ i).nameOf ∧ (files₂ (π i)).size = (files₁ i).size ∧
              (files₂ (π i)).data = (files₁ i).data)) ∧
          ∀ ops : List Op, (∀ op ∈ ops, op.Bounded) → ∃ files₁' files₂' rs₁ rs₂, run files₁ ops = some (files₁', rs₁) ∧
            run files₂ ops = some (files₂', rs₂) ∧ List.Forall₂ Reply.Alike rs₁ rs₂) := by
  obtain ⟨s, hh, _⟩ := run_endsAtSize h
  obtain ⟨fa, ra, hsa, hha, hra⟩ := hh.step hba
  obtain ⟨files₁, rb, hsab, hh₁, hrb⟩ := hha.step hbb
  obtain ⟨fb, rb', hsb, hhb, hrb'⟩ := hh.step hbb
  obtain ⟨files₂, ra', hsba, hh₂, hra'⟩ := hhb.step hba
  refine ⟨files₁, files₂, ra, rb, ra', rb', ?_, ?_, ?_⟩
  · simp only [run, hsa, hsab, Option.map_some]
  · simp only [run, hsb, hsba, Option.map_some]
  intro hroom
  have hans : ∀ {r : Reply} {ans : Answer}, r.Is ans → r ≠ .code (-ENOSPC) → ans ≠ .code (-ENOSPC) := by
    rintro r _ hr hn rfl
    exact hn (is_code hr)
  have hna : na ≠ nb := by
    rintro rfl
    exact hne (bytes_eq_of_ok ha hb)
  obtain ⟨hea, heb, hes⟩ := s.step_swap ha hb hna (hans hra (hroom _ (by simp))) (hans hrb (hroom _ (by simp)))
    (hans hrb' (hroom _ (by simp))) (hans hra' (hroom _ (by simp)))
  rw [hea] at hra
  rw [← heb] at hrb'
  rw [← hes] at hh₂
  refine ⟨hra.eq hra' ?_, hrb.eq hrb' ?_, ?_, ?_⟩
  · rw [((s.step b).1.step_act a ha).1]
    exact Op.act_ne_listing _ _ _
  · rw [((s.step a).1.step_act b hb).1]
    exact Op.act_ne_listing _ _ _
  · obtain ⟨π, hπ⟩ := hh₁.perm hh₂
    exact ⟨π, fun i => entry_of_view (hπ i)⟩
  · intro ops hops
    obtain ⟨files₁', rs₁, hrun₁, _, hrs₁⟩ := run_refines ops hh₁ hops
    obtain ⟨files₂', rs₂, hrun₂, _, hrs₂⟩ := run_refines ops hh₂ hops
    exact ⟨files₁', files₂', rs₁, rs₂, hrun₁, hrun₂, replies_alike hrs₁ hrs₂⟩

/-- Two creations in the empty table, which put the two files in different slots in the two orders. -/
theorem calls_on_two_files_commute_creates :
    ∃ files₁ files₂ ra rb ra' rb', run initFiles [.create pathA, .create pathB] = some (files₁, [ra, rb]) ∧
      run initFiles [.create pathB, .create pathA] = some (files₂, [rb', ra']) ∧
      (files₁ ⟨0, by decide⟩).nameOf ≠ (files₂ ⟨0, by decide⟩).nameOf ∧ ra = ra' ∧ rb = rb' := by
  obtain ⟨files₁, files₂, ra, rb, ra', rb', hab, hba, h⟩ :=
    calls_on_two_files_commute (a := .create pathA) (b := .create pathB) (Run.nil initFiles)
      (rfl : pathToName (some pathA) = .ok [97]) (rfl : pathToName (some pathB) = .ok [98]) (by decide) trivial trivial
  have h₁ : (run initFiles [.create pathA, .create pathB]).map (fun r => (r.2, (r.1 ⟨0, by decide⟩).nameOf)) =
      some ([.code 0, .code 0], [97]) := by rfl
  have h₂ : (run initFiles [.create pathB, .create pathA]).map (fun r => (r.2, (r.1 ⟨0, by decide⟩).nameOf)) =
      some ([.code 0, .code 0], [98]) := by rfl
  rw [hab] at h₁
  rw [hba] at h₂
  simp only [Option.map_some, Option.some.injEq, Prod.mk.injEq, List.cons.injEq, and_true] at h₁ h₂
  obtain ⟨⟨rfl, rfl⟩, hn₁⟩ := h₁
  obtain ⟨⟨rfl, rfl⟩, hn₂⟩ := h₂
  obtain ⟨hra, hrb, _⟩ := h (by decide)
  exact ⟨files₁, files₂, _, _, _, _, hab, hba, by rw [hn₁, hn₂]; decide, hra, hrb⟩

end OsLab.Memfs
