import OsLab.FileHistory
import OsLab.Lemmas.MemfsCalls

/-!
# What a call does to the files, and to their history

`Store.change` lists, once for all calls, how the map of the store changes and with which reply. What is proved about bytes
and their history below is read off this list.
-/

namespace OsLab.Memfs

open TableAux CallsAux

/-- The ways a call and its reply change the store. -/
inductive Change (s s' : Store) : Op × Reply → Prop where
  | quiet {l : Op × Reply} : s' = s → (∀ name k b, explainStep name k b l = b) →
      (∀ name f, s.map.lookup name = some f → f.GapZero l.1 name) → Change s s' l
  | create {path : CString} {name : Bytes} : path.bytes = slash :: name → s.Changes s' name (some File.empty) →
      Change s s' (.create path, .code 0)
  | write {path : CString} {buf : Nat → UInt8} {size : Nat} {offset : Int} {name : Bytes} {f : File} :
      pathToName (some path) = .ok name → s.map.lookup name = some f → 0 ≤ offset → offset < maxFileSize → size ≠ 0 →
      s.Changes s' name (some (f.write buf (min size (maxFileSize - offset.toNat)) offset.toNat)) →
      Change s s' (.write path buf size offset, .code (min size (maxFileSize - offset.toNat) : Nat))
  | truncate {path : CString} {size : Int} {name : Bytes} {f : File} :
      path.bytes = slash :: name → s.map.lookup name = some f → 0 ≤ size → size ≤ maxFileSize →
      s.Changes s' name (some (f.truncate size.toNat)) → Change s s' (.truncate path size, .code 0)
  | unlink {path : CString} {name : Bytes} {reply : Reply} : s.Changes s' name none → Change s s' (.unlink path, reply)

namespace HistoryAux

variable {s s' : Store} {op : Op} {reply : Reply} {name : Bytes} {f : File}

/-- A call that fails says nothing about the bytes. -/
theorem explainStep_failed {ret : Int} (h : ret < 0) (name : Bytes) (k : Nat) (b : UInt8) :
    explainStep name k b (op, .code ret) = b := by
  cases op with
  | create path => exact if_neg (fun hc => absurd hc.2 (by omega))
  | write path buf size offset => exact if_neg (fun hc => absurd hc.2.1 (by omega))
  | truncate path size => exact if_neg (fun hc => absurd hc.2.1 (by omega))
  | _ => rfl

/-- A call with a malformed path. -/
theorem change_malformed {ret : Int} (hp : pathToName (some op.path) = .error ret) (hr : reply.Is (s.step op).2) :
    Change s s (op, reply) := by
  have hfail := pathToName_error hp
  cases op with
  | create path =>
    simp only [Op.path] at hp
    simp only [Store.step, hp] at hr
    rw [is_code hr]
    exact .quiet rfl (explainStep_failed hfail) (fun _ _ _ => trivial)
  | write path buf size offset =>
    simp only [Op.path] at hp
    simp only [Store.step, onFile_malformed hp] at hr
    rw [is_code hr]
    refine .quiet rfl (explainStep_failed hfail) ?_
    intro _ _ _ hp'
    cases hp.symm.trans hp'
  | truncate path size =>
    simp only [Op.path] at hp
    simp only [Store.step, onFile_malformed hp] at hr
    rw [is_code hr]
    exact .quiet rfl (explainStep_failed hfail) (fun _ _ _ => trivial)
  | _ => exact .quiet rfl (fun _ _ _ => rfl) (fun _ _ _ => trivial)

/-- A call where there is no file. -/
theorem change_absent (hp : pathToName (some op.path) = .ok name) (hl : s.map.lookup name = none)
    (hr : reply.Is (op.absent s.full).2) (hc : s.Changes s' name (op.absent s.full).1) : Change s s' (op, reply) := by
  have hsame : s.Changes s' name none → s' = s := fun h => eq_of_changes (hl ▸ h)
  cases op with
  | create path =>
    simp only [Op.absent] at hr hc
    by_cases hfull : s.full = true
    · rw [if_pos hfull] at hr hc
      rw [is_code hr]
      exact .quiet (hsame hc) (explainStep_failed (by decide)) (fun _ _ _ => trivial)
    · rw [if_neg hfull] at hr hc
      rw [is_code hr]
      exact .create (pathToName_ok hp).1 hc
  | write path buf size offset =>
    rw [is_code hr]
    refine .quiet (hsame hc) (explainStep_failed (by decide)) ?_
    intro name' g hg hp'
    obtain rfl := Except.ok.inj (hp.symm.trans hp')
    cases hl.symm.trans hg
  | truncate path size =>
    rw [is_code hr]
    exact .quiet (hsame hc) (explainStep_failed (by decide)) (fun _ _ _ => trivial)
  | _ => exact .quiet (hsame hc) (fun _ _ _ => rfl) (fun _ _ _ => trivial)

/-- A write to a file. -/
theorem change_write {path : CString} {buf : Nat → UInt8} {size : Nat} {offset : Int}
    (hp : pathToName (some path) = .ok name) (hl : s.map.lookup name = some f)
    (hr : reply.Is (f.call (.write path buf size offset)).2)
    (hc : s.Changes s' name (f.call (.write path buf size offset)).1) : Change s s' (.write path buf size offset, reply) := by
  have hsame : s.Changes s' name (some f) → s' = s := fun h => eq_of_changes (hl ▸ h)
  simp only [File.call] at hr hc
  by_cases ho : offset < 0
  · rw [if_pos ho] at hr hc
    rw [is_code hr]
    refine .quiet (hsame hc) (explainStep_failed (by decide)) ?_
    intro name f _ _ _ _ k _ hk
    omega
  · rw [if_neg ho] at hr hc
    by_cases hm : offset.toNat ≥ maxFileSize ∨ size = 0
    · rw [if_pos hm] at hr hc
      rw [is_code hr]
      refine .quiet (hsame hc) (explainStep_failed (by decide)) ?_
      intro name f _ _ h0 hlt k _ _
      rcases hm with hm | hm
      · omega
      · exact absurd hm h0
    · rw [if_neg hm] at hr hc
      obtain ⟨hm, h0⟩ := not_or.1 hm
      rw [is_code hr]
      exact .write hp hl (by omega) (by omega) h0 hc

/-- A call on a file. -/
theorem change_file (hp : pathToName (some op.path) = .ok name) (hl : s.map.lookup name = some f)
    (hr : reply.Is (f.call op).2) (hc : s.Changes s' name (f.call op).1) : Change s s' (op, reply) := by
  have hsame : s.Changes s' name (some f) → s' = s := fun h => eq_of_changes (hl ▸ h)
  cases op with
  | create path =>
    rw [is_code hr]
    exact .quiet (hsame hc) (explainStep_failed (by decide)) (fun _ _ _ => trivial)
  | read path size offset =>
    refine .quiet (hsame ?_) (fun _ _ _ => rfl) (fun _ _ _ => trivial)
    simp only [File.call] at hc
    split at hc <;> exact hc
  | write path buf size offset => exact change_write hp hl hr hc
  | truncate path size =>
    simp only [File.call] at hr hc
    by_cases hneg : size < 0
    · rw [if_pos hneg] at hr hc
      rw [is_code hr]
      exact .quiet (hsame hc) (explainStep_failed (by decide)) (fun _ _ _ => trivial)
    · rw [if_neg hneg] at hr hc
      by_cases hbig : size > maxFileSize
      · rw [if_pos hbig] at hr hc
        rw [is_code hr]
        exact .quiet (hsame hc) (explainStep_failed (by decide)) (fun _ _ _ => trivial)
      · rw [if_neg hbig] at hr hc
        rw [is_code hr]
        exact .truncate (pathToName_ok hp).1 hl (by omega) (by omega) hc
  | unlink path => exact .unlink hc
  | _ => exact .quiet (hsame hc) (fun _ _ _ => rfl) (fun _ _ _ => trivial)

end HistoryAux

open HistoryAux

/-- Every call with the store's answer is one of the changes. -/
theorem Store.change (s : Store) (op : Op) {reply : Reply} (hr : reply.Is (s.step op).2) :
    Change s (s.step op).1 (op, reply) := by
  cases hp : pathToName (some op.path) with
  | error ret =>
    rw [Store.step_malformed hp]
    exact change_malformed hp hr
  | ok name =>
    cases hl : s.map.lookup name with
    | none =>
      obtain ⟨hans, hc⟩ := s.step_absent op hp hl
      exact change_absent hp hl (hans ▸ hr) hc
    | some f =>
      obtain ⟨hans, hc⟩ := s.step_file op hp hl
      exact change_file hp hl (hans ▸ hr) hc

/-- One step of the table is a change of the store it holds. -/
theorem Holds.change {files files' : Files} {s : Store} {l : Op × Reply} (h : Holds files s) (hs : Step files l files') :
    ∃ s', Holds files' s' ∧ Change s s' l := by
  obtain ⟨hh, hr⟩ := h.of_step hs
  exact ⟨_, hh, s.change l.1 hr⟩

/-- What holds of the files in the table holds of those in the store. -/
theorem Holds.everyFile_iff {files : Files} {s : Store} (h : Holds files s) {P : Bytes → File → Prop} :
    EveryFile P files ↔ ∀ name f, s.map.lookup name = some f → P name f := by
  constructor
  · intro hP name f hf
    obtain ⟨i, hi⟩ := (h.lookup_iff name f).1 hf
    unfold view MemNode.view at hi
    split at hi
    · rename_i hu
      simp only [Option.some.injEq, Prod.mk.injEq] at hi
      obtain ⟨rfl, rfl⟩ := hi
      exact hP i hu
    · cases hi
  · intro hP i hu
    exact hP _ _ (h.lookup (view_eq_some hu rfl))

/-! ## What the history says about a changed file -/

/-- How the file `name` comes out of a call, with what the call says about its bytes. -/
inductive FileChange (s : Store) (l : Op × Reply) (name : Bytes) : File → Prop where
  | same {f : File} : s.map.lookup name = some f → (∀ k b, explainStep name k b l = b) → FileChange s l name f
  | new : (∀ k b, explainStep name k b l = 0) → FileChange s l name File.empty
  | write {f : File} {buf : Nat → UInt8} {n offset : Nat} : s.map.lookup name = some f →
      (∀ k b, explainStep name k b l = if offset ≤ k ∧ k < offset + n then buf (k - offset) else b) →
      (f.GapZero l.1 name → ∀ k : Fin maxFileSize, f.size ≤ k.val → k.val < offset → f.data k = 0) →
      FileChange s l name (f.write buf n offset)
  | truncate {f : File} {length : Nat} : s.map.lookup name = some f →
      (∀ k b, explainStep name k b l = if length ≤ k then 0 else b) → FileChange s l name (f.truncate length)

section Explain

variable {tr : List (Op × Reply)} {s s' : Store} {l : Op × Reply} {name : Bytes} {f : File}

/-- A successful write, read by its position and length. -/
theorem explainStep_write {path : CString} {buf : Nat → UInt8} {size n : Nat} {offset : Int} (hp : path.bytes = slash :: name)
    (ho : 0 ≤ offset) (hn : 0 < n) (k : Nat) (b : UInt8) :
    explainStep name k b (.write path buf size offset, .code n) =
      if offset.toNat ≤ k ∧ k < offset.toNat + n then buf (k - offset.toNat) else b := by
  have hiff : (path.bytes = slash :: name ∧ (0 : Int) < n ∧ offset ≤ k ∧ (k : Int) < offset + n) ↔
      (offset.toNat ≤ k ∧ k < offset.toNat + n) := by
    constructor
    · rintro ⟨_, _, h1, h2⟩
      omega
    · rintro ⟨h1, h2⟩
      exact ⟨hp, by omega, by omega, by omega⟩
  exact if_congr hiff rfl rfl

/-- Every file of the changed store comes out of the call in one of the four ways. -/
theorem Change.file (hc : Change s s' l) (hf : s'.map.lookup name = some f) : FileChange s l name f := by
  cases hc with
  | quiet hs hx _ =>
    subst hs
    exact .same hf (hx name)
  | create hp hch =>
    rename_i path name'
    rw [hch] at hf
    by_cases hn : name = name'
    · subst hn
      rw [if_pos rfl] at hf
      obtain rfl := Option.some.inj hf
      exact .new (fun k b => if_pos ⟨hp, rfl⟩)
    · rw [if_neg hn] at hf
      refine .same hf (fun k b => if_neg ?_)
      rintro ⟨hp', _⟩
      exact hn (List.cons.inj (hp'.symm.trans hp)).2
  | write hp hl ho hm h0 hch =>
    rename_i path buf size offset name' g
    have hpath := (pathToName_ok hp).1
    rw [hch] at hf
    by_cases hn : name = name'
    · subst hn
      rw [if_pos rfl] at hf
      obtain rfl := Option.some.inj hf
      refine .write hl (explainStep_write hpath ho (by omega)) ?_
      intro hgap k hk hlt
      exact hgap hp h0 hm k hk (by omega)
    · rw [if_neg hn] at hf
      refine .same hf (fun k b => if_neg ?_)
      rintro ⟨hp', _⟩
      exact hn (List.cons.inj (hp'.symm.trans hpath)).2
  | truncate hp hl h0 hm hch =>
    rename_i path size name' g
    rw [hch] at hf
    by_cases hn : name = name'
    · subst hn
      rw [if_pos rfl] at hf
      obtain rfl := Option.some.inj hf
      refine .truncate hl (fun k b => if_congr ?_ rfl rfl)
      constructor
      · rintro ⟨_, _, h⟩
        omega
      · intro h
        exact ⟨hp, rfl, by omega⟩
    · rw [if_neg hn] at hf
      refine .same hf (fun k b => if_neg ?_)
      rintro ⟨hp', _⟩
      exact hn (List.cons.inj (hp'.symm.trans hp)).2
  | unlink hch =>
    rename_i path name' reply
    rw [hch] at hf
    by_cases hn : name = name'
    · rw [if_pos hn] at hf
      cases hf
    · rw [if_neg hn] at hf
      exact .same hf (fun _ _ => rfl)

theorem explain_snoc (name : Bytes) (k : Nat) : explain name k (tr ++ [l]) = explainStep name k (explain name k tr) l := by
  unfold explain
  rw [List.foldl_append]
  rfl

/-- Past the end of a file the history explains nothing. -/
def EndsAtSize (tr : List (Op × Reply)) (s : Store) : Prop :=
  ∀ name f, s.map.lookup name = some f → ∀ k : Nat, f.size ≤ k → explain name k tr = 0

theorem EndsAtSize.step (h : EndsAtSize tr s) (hc : Change s s' l) : EndsAtSize (tr ++ [l]) s' := by
  intro name f hf k hk
  rw [explain_snoc]
  cases hc.file hf with
  | same hl hx =>
    rw [hx]
    exact h name f hl k hk
  | new hx => exact hx k _
  | write hl hx _ =>
    simp only [File.write] at hk
    rw [hx, if_neg (by omega)]
    exact h name _ hl k (by omega)
  | truncate hl hx =>
    rw [hx]
    exact if_pos hk

/-- A call that skips no stale byte keeps the files explained. -/
theorem explained_step (hend : EndsAtSize tr s) (h : ∀ name f, s.map.lookup name = some f → f.Explained tr name)
    (hgap : ∀ name f, s.map.lookup name = some f → f.GapZero l.1 name) (hc : Change s s' l) :
    ∀ name f, s'.map.lookup name = some f → f.Explained (tr ++ [l]) name := by
  intro name f hf k hk
  rw [explain_snoc]
  cases hc.file hf with
  | same hl hx =>
    rw [hx]
    exact h name f hl k hk
  | new hx => exact absurd hk (Nat.not_lt_zero _)
  | write hl hx hg =>
    rename_i g buf n offset
    simp only [File.write] at hk ⊢
    rw [hx]
    by_cases hin : offset ≤ k.val ∧ k.val < offset + n
    · rw [if_pos hin, if_pos hin]
    · rw [if_neg hin, if_neg hin]
      by_cases hsize : k.val < g.size
      · exact h name g hl k hsize
      · -- the position lies in the gap the write skips
        rw [hend name g hl k (by omega), hg (hgap name g hl) k (by omega) (by omega)]
  | truncate hl hx =>
    rename_i g length
    have hlt : ¬ length ≤ k.val := Nat.not_le.2 hk
    simp only [File.truncate]
    rw [hx, if_neg hlt]
    by_cases hsize : k.val < g.size
    · rw [if_neg (by omega)]
      exact h name g hl k hsize
    · rw [if_pos (by omega), hend name g hl k (by omega)]

/-- A call that leaves the files explained skipped no stale byte. -/
theorem gapZero_of_explained (hend : EndsAtSize tr s) (hc : Change s s' l)
    (h : ∀ name f, s'.map.lookup name = some f → f.Explained (tr ++ [l]) name) :
    ∀ name f, s.map.lookup name = some f → f.GapZero l.1 name := by
  intro name f hf
  cases hc with
  | quiet _ _ hgap => exact hgap name f hf
  | create _ _ => trivial
  | truncate _ _ _ _ _ => trivial
  | unlink _ => trivial
  | write hp hl ho hm h0 hch =>
    rename_i path buf size offset name' g
    intro hp' _ _ k hk hlt
    obtain rfl := Except.ok.inj (hp.symm.trans hp')
    obtain rfl : g = f := by
      rw [hl] at hf
      exact Option.some.inj hf
    have hlook := hch name'
    rw [if_pos rfl] at hlook
    -- the skipped byte is inside the file now, and the history still explains nothing there
    have hx := h name' _ hlook k (by simp only [File.write]; omega)
    simp only [File.write] at hx
    rw [if_neg (by omega), explain_snoc, explainStep_write (pathToName_ok hp).1 ho (by omega), if_neg (by omega),
      hend name' g hl k hk] at hx
    exact hx

end Explain

end OsLab.Memfs
