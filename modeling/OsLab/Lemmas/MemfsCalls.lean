import OsLab.FileCalls
import OsLab.Lemmas.MemfsTable

/-!
# What a call does to the store

A call with a malformed path changes nothing. A call with a well-formed path changes the store at the name of the path only, and
what it does there and answers depends on the file under the name and, for a creation, on whether the store is full
(`Store.step_act`). Everything about the files of a store is read off these two.
-/

namespace OsLab.Memfs

open TableAux

variable {s s' : Store} {op : Op} {name : Bytes} {path : CString} {f : File}

/-- The map changes at one name. -/
def Store.Changes (s s' : Store) (name : Bytes) (g : Option File) : Prop :=
  ∀ k, s'.map.lookup k = if k = name then g else s.map.lookup k

/-- The store is full. -/
def Store.full (s : Store) : Bool := decide (s.map.keys.card = maxFiles)

/-- A store is what its names lead to. -/
theorem Store.ext_lookup (h : ∀ k, s.map.lookup k = s'.map.lookup k) : s = s' := by
  have hm := Finmap.ext_lookup h
  cases s
  cases s'
  simp only at hm
  subst hm
  rfl

namespace CallsAux

/-- The error codes are negative. -/
theorem pathToName_error {ret : Int} (h : pathToName (some path) = .error ret) : ret < 0 := by
  cases hp : path.bytes with
  | nil =>
    simp only [pathToName, hp, Except.error.injEq] at h
    subst h
    decide
  | cons c p =>
    simp only [pathToName, hp] at h
    repeat' split at h
    all_goals cases h
    all_goals decide

/-- `put` changes what one name leads to. -/
theorem changes_put {f : File} (h : s.Admits name f) : s.Changes (s.put name f) name (some f) := by
  intro k
  rw [put_map h]
  by_cases hk : k = name
  · subst hk
    rw [Finmap.lookup_insert, if_pos rfl]
  · rw [Finmap.lookup_insert_of_ne _ hk, if_neg hk]

/-- `remove` changes what one name leads to. -/
theorem changes_remove : s.Changes (s.remove name) name none := by
  intro k
  unfold Store.remove
  by_cases hk : k = name
  · subst hk
    rw [Finmap.lookup_erase, if_pos rfl]
  · rw [Finmap.lookup_erase_ne hk, if_neg hk]

theorem changes_refl : s.Changes s name (s.map.lookup name) := by
  intro k
  by_cases hk : k = name
  · rw [if_pos hk, hk]
  · rw [if_neg hk]

/-- A change that puts back what was there is none. -/
theorem eq_of_changes (h : s.Changes s' name (s.map.lookup name)) : s' = s := by
  refine Store.ext_lookup fun k => ?_
  rw [h k]
  by_cases hk : k = name
  · rw [if_pos hk, hk]
  · rw [if_neg hk]

/-- A path with a name is not the root. -/
theorem ne_root_of_ok (hp : pathToName (some path) = .ok name) : path.bytes ≠ [slash] := by
  obtain ⟨hb, hv, _⟩ := pathToName_ok hp
  rw [hb]
  intro h
  exact hv (List.cons.inj h).2

/-- The file that is in the store admits itself rewritten. -/
theorem admits_of_lookup {f g : File} (hp : pathToName (some path) = .ok name) (hl : s.map.lookup name = some f)
    (hs : g.size ≤ maxFileSize) : s.Admits name g :=
  ⟨(pathToName_ok hp).2, hs, Or.inl (Finmap.mem_iff.2 ⟨f, hl⟩)⟩

theorem is_code {reply : Reply} {ret : Int} (h : reply.Is (.code ret)) : reply = .code ret := by
  cases reply <;> first | exact congrArg _ h | exact h.elim

end CallsAux

open CallsAux

/-- A call with a malformed path changes nothing. -/
theorem Store.step_malformed {ret : Int} (hp : pathToName (some op.path) = .error ret) : (s.step op).1 = s := by
  cases op with
  | getattr path =>
    simp only [Store.step]
    split
    · rfl
    · exact congrArg Prod.fst (onFile_malformed hp)
  | readdir path =>
    simp only [Store.step]
    split <;> rfl
  | create path =>
    simp only [Op.path] at hp
    simp only [Store.step, hp]
  | openFile path | read path size offset | write path buf size offset | truncate path size | unlink path =>
    exact congrArg Prod.fst (onFile_malformed hp)

/-- What a call with a well-formed path does where there is no file under it. -/
theorem Store.step_absent (s : Store) (op : Op) (hp : pathToName (some op.path) = .ok name) (hl : s.map.lookup name = none) :
    (s.step op).2 = (op.absent s.full).2 ∧ s.Changes (s.step op).1 name (op.absent s.full).1 := by
  have hroot := ne_root_of_ok hp
  have hsame : s.Changes s name none := hl ▸ changes_refl
  cases op with
  | getattr path =>
    simp only [Op.path] at hp hroot
    simp only [Store.step, if_neg hroot, onFile_absent hp hl]
    exact ⟨rfl, hsame⟩
  | readdir path =>
    simp only [Op.path] at hp hroot
    simp only [Store.step, if_neg hroot]
    exact ⟨rfl, hsame⟩
  | create path =>
    have hm : name ∉ s.map := fun hm => by
      obtain ⟨g, hg⟩ := Finmap.mem_iff.1 hm
      cases hl.symm.trans hg
    simp only [Op.path] at hp
    simp only [Store.step, hp, if_neg hm, Op.absent, Store.full]
    by_cases hc : s.map.keys.card = maxFiles
    · simp only [hc, decide_true, if_true]
      exact ⟨trivial, hsame⟩
    · simp only [hc, decide_false, Bool.false_eq_true, if_false]
      exact ⟨trivial, changes_put ⟨(pathToName_ok hp).2, Nat.zero_le _, Or.inr (Nat.lt_of_le_of_ne s.card_le hc)⟩⟩
  | openFile path | read path size offset | write path buf size offset | truncate path size | unlink path =>
    simp only [Op.path] at hp
    simp only [Store.step, onFile_absent hp hl]
    exact ⟨rfl, hsame⟩

/-- What a call with a well-formed path does to the file under it. -/
theorem Store.step_file (s : Store) (op : Op) (hp : pathToName (some op.path) = .ok name) (hl : s.map.lookup name = some f) :
    (s.step op).2 = (f.call op).2 ∧ s.Changes (s.step op).1 name (f.call op).1 := by
  have hroot := ne_root_of_ok hp
  have hsame : s.Changes s name (some f) := hl ▸ changes_refl
  cases op with
  | getattr path =>
    simp only [Op.path] at hp hroot
    simp only [Store.step, if_neg hroot, onFile_file hp hl]
    exact ⟨rfl, hsame⟩
  | readdir path =>
    simp only [Op.path] at hp hroot
    simp only [Store.step, if_neg hroot]
    exact ⟨rfl, hsame⟩
  | create path =>
    have hm : name ∈ s.map := Finmap.mem_iff.2 ⟨f, hl⟩
    simp only [Op.path] at hp
    simp only [Store.step, hp, if_pos hm]
    exact ⟨rfl, hsame⟩
  | openFile path =>
    simp only [Op.path] at hp
    simp only [Store.step, onFile_file hp hl]
    exact ⟨rfl, hsame⟩
  | read path size offset =>
    simp only [Op.path] at hp
    simp only [Store.step, onFile_file hp hl, File.call]
    split
    · exact ⟨rfl, hsame⟩
    · exact ⟨rfl, hsame⟩
  | write path buf size offset =>
    simp only [Op.path] at hp
    simp only [Store.step, onFile_file hp hl, File.call]
    split
    · exact ⟨rfl, hsame⟩
    · split
      · exact ⟨rfl, hsame⟩
      · refine ⟨rfl, changes_put (admits_of_lookup hp hl ?_)⟩
        have := s.size_le name f hl
        simp only [File.write]
        omega
  | truncate path size =>
    simp only [Op.path] at hp
    simp only [Store.step, onFile_file hp hl, File.call]
    split
    · exact ⟨rfl, hsame⟩
    · split
      · exact ⟨rfl, hsame⟩
      · refine ⟨rfl, changes_put (admits_of_lookup hp hl ?_)⟩
        show size.toNat ≤ maxFileSize
        omega
  | unlink path =>
    simp only [Op.path] at hp
    simp only [Store.step, onFile_file hp hl]
    exact ⟨rfl, changes_remove⟩

/-- What a call with a well-formed path does. -/
theorem Store.step_act (s : Store) (op : Op) (hp : pathToName (some op.path) = .ok name) :
    (s.step op).2 = (op.act s.full (s.map.lookup name)).2 ∧
      s.Changes (s.step op).1 name (op.act s.full (s.map.lookup name)).1 := by
  cases hl : s.map.lookup name with
  | none => exact s.step_absent op hp hl
  | some f => exact s.step_file op hp hl

end OsLab.Memfs
