import OsLab.Lib.Slots
import OsLab.NameStore

/-!
# The file table as a store

`Holds files s`: read through its slots in use, the table is the map of the store `s`. The store carries the bounds on names,
sizes and the number of files, so `Holds` is the whole invariant of the table. Every call keeps it and replies what the store
answers (`Holds.step`).
-/

namespace OsLab.Memfs

/-- What a slot holds. -/
def MemNode.view (node : MemNode) : Option (Bytes × File) :=
  if node.used then some (node.nameOf, node.file) else none

/-- The table, slot by slot. -/
def view (files : Files) : Slots maxFiles Bytes File := fun i => (files i).view

/-- The table is the map of the store. -/
def Holds (files : Files) (s : Store) : Prop := Slots.Rep (view files) s.map

namespace TableAux

variable {files : Files} {s : Store} {name : Bytes} {i : Fin maxFiles} {path : CString}

/-! ## Names -/

/-- `path_to_name` gives valid names, and gives the path behind its slash. -/
theorem pathToName_ok (h : pathToName (some path) = .ok name) : path.bytes = slash :: name ∧ ValidName name := by
  have hnul := path.nul_free
  cases hp : path.bytes with
  | nil =>
    simp only [pathToName, hp] at h
    cases h
  | cons c p =>
    rw [hp] at hnul
    simp only [pathToName, hp] at h
    split at h
    · cases h
    · rename_i hc
      split at h
      · cases h
      · split at h
        · cases h
        · split at h
          · cases h
          · rename_i h0 h1 h2
            obtain rfl : p = name := by simpa using h
            refine ⟨by rw [not_not.1 hc], h0, Nat.le_of_not_lt h2, h1, ?_⟩
            exact fun hm => hnul (List.mem_cons_of_mem _ hm)

/-- An array that starts with the bytes of a string and a NUL. -/
theorem ofFn_eq {n : Nat} {a : Fin n → UInt8} {b : Bytes} (hn : b.length < n)
    (ha : ∀ i : Fin n, i.val ≤ b.length → a i = b.getD i.val 0) :
    List.ofFn a = b ++ 0 :: (List.ofFn a).drop (b.length + 1) := by
  apply List.ext_getElem?
  intro k
  rcases Nat.lt_trichotomy k b.length with hk | hk | hk
  · rw [List.getElem?_append_left hk, List.getElem?_ofFn]
    have := ha ⟨k, by omega⟩ (Nat.le_of_lt hk)
    simp only [List.getD_eq_getElem?_getD, List.getElem?_eq_getElem hk, Option.getD_some] at this
    rw [dif_pos (by omega), this, List.getElem?_eq_getElem hk]
  · subst hk
    have := ha ⟨b.length, hn⟩ (Nat.le_refl _)
    simp only [List.getD_eq_getElem?_getD, List.getElem?_eq_none (Nat.le_refl _), Option.getD_none] at this
    rw [List.getElem?_append_right (Nat.le_refl _), List.getElem?_ofFn, dif_pos hn, this]
    simp
  · obtain ⟨j, rfl⟩ := Nat.exists_eq_add_of_lt hk
    rw [List.getElem?_append_right (by omega), show b.length + j + 1 - b.length = j + 1 by omega,
      List.getElem?_cons_succ, List.getElem?_drop]
    congr 1
    omega

/-- An array that starts with a NUL-free string and a NUL holds that string. -/
theorem cstr_eq {n : Nat} {a : Fin n → UInt8} {b rest : Bytes} (h0 : (0 : UInt8) ∉ b) (ha : List.ofFn a = b ++ 0 :: rest) :
    cstr a = b := by
  unfold cstr
  rw [ha, List.takeWhile_append_of_pos]
  · simp
  · intro c hc
    simp only [ne_eq, decide_not, Bool.not_eq_eq_eq_not, Bool.not_true, decide_eq_false_iff_not]
    rintro rfl
    exact h0 hc

/-- What `memfs_create` stores is the name and a NUL, whatever the array held before. -/
theorem ofFn_strncpy (dst : Fin (maxNameLen + 1) → UInt8) (hlen : name.length ≤ maxNameLen) :
    ∃ rest, List.ofFn (Function.update (strncpy dst name maxNameLen) ⟨maxNameLen, by decide⟩ 0) = name ++ 0 :: rest := by
  refine ⟨_, ofFn_eq (Nat.lt_succ_of_le hlen) ?_⟩
  intro i hi
  by_cases him : i.val = maxNameLen
  · obtain rfl : i = ⟨maxNameLen, by decide⟩ := Fin.ext him
    have hl : name.length = maxNameLen := Nat.le_antisymm hlen hi
    rw [Function.update_self, List.getD_eq_getElem?_getD, List.getElem?_eq_none (Nat.le_of_eq hl), Option.getD_none]
  · have hlt : i.val < maxNameLen := by
      have := i.isLt
      omega
    rw [Function.update_of_ne (fun h => him (congrArg Fin.val h))]
    exact if_pos hlt

/-- The name `memfs_create` stores is read back. -/
theorem cstr_strncpy (dst : Fin (maxNameLen + 1) → UInt8) (hv : ValidName name) :
    cstr (Function.update (strncpy dst name maxNameLen) ⟨maxNameLen, by decide⟩ 0) = name := by
  obtain ⟨rest, h⟩ := ofFn_strncpy dst hv.2.1
  exact cstr_eq hv.2.2.2 h

/-! ## Slots -/

theorem view_eq_some (hu : (files i).used = true) (hn : (files i).nameOf = name) :
    view files i = some (name, (files i).file) := by
  unfold view MemNode.view
  rw [if_pos hu, hn]

/-- A slot shows no file when it is not used. -/
theorem view_eq_none_iff : view files i = none ↔ (files i).used = false := by
  unfold view MemNode.view
  cases (files i).used <;> simp

/-- A call that changes one slot changes one slot of the view. -/
theorem view_update (node : MemNode) : view (Function.update files i node) = Function.update (view files) i node.view := by
  funext j
  by_cases hj : j = i
  · subst hj
    simp only [view, Function.update_self]
  · simp only [view, Function.update_of_ne hj]

/-- The slot found has the file of that name. -/
theorem findFile_some (h : findFile files name = some i) : view files i = some (name, (files i).file) := by
  have := List.find?_some h
  simp only [Bool.and_eq_true, beq_iff_eq] at this
  exact view_eq_some this.1 this.2

/-- When none is found, no slot has a file of that name. -/
theorem findFile_none (h : findFile files name = none) (j : Fin maxFiles) (f : File) : view files j ≠ some (name, f) := by
  intro hj
  have := List.find?_eq_none.1 h j (List.mem_finRange j)
  unfold view MemNode.view at hj
  split at hj
  · rename_i hu
    simp only [Option.some.injEq, Prod.mk.injEq] at hj
    simp [hu, hj.1] at this
  · cases hj

/-- The slot found is free. -/
theorem findFreeSlot_some (h : findFreeSlot files = some i) : view files i = none := by
  have := List.find?_some h
  rw [view_eq_none_iff]
  simpa using this

/-- When none is found, every slot has a file. -/
theorem findFreeSlot_none (h : findFreeSlot files = none) (j : Fin maxFiles) : view files j ≠ none := by
  have := List.find?_eq_none.1 h j (List.mem_finRange j)
  rw [Ne, view_eq_none_iff]
  simpa using this

/-- The names `memfs_readdir` passes to `filler` are the keys of the table. -/
theorem names_eq_keyList :
    ((List.finRange maxFiles).filter (fun i => (files i).used)).map (fun i => (files i).nameOf) = (view files).keyList := by
  unfold Slots.keyList
  rw [← List.filterMap_eq_map, List.filterMap_filter]
  apply List.filterMap_congr
  intro i _
  unfold view MemNode.view
  cases (files i).used <;> simp

/-! ## Looking up a path, in the table and in the store -/

/-- What a path leads to: an error, no file, or the same file in the table and in the store. -/
inductive Target (files : Files) (s : Store) (path : CString) : Prop where
  | malformed (ret : Int) : pathToName (some path) = .error ret → Target files s path
  | absent (name : Bytes) : pathToName (some path) = .ok name → ValidName name → findFile files name = none →
      s.map.lookup name = none → (∀ j f, view files j ≠ some (name, f)) → Target files s path
  | file (name : Bytes) (i : Fin maxFiles) : pathToName (some path) = .ok name → ValidName name →
      findFile files name = some i → s.map.lookup name = some (files i).file →
      view files i = some (name, (files i).file) → (files i).size ≤ maxFileSize → Target files s path

/-- A path always leads to one of the three. -/
theorem target (h : Holds files s) (path : CString) : Target files s path := by
  cases hp : pathToName (some path) with
  | error ret => exact .malformed ret hp
  | ok name =>
    have hv := (pathToName_ok hp).2
    cases hf : findFile files name with
    | none =>
      have hfresh := findFile_none hf
      exact .absent name hp hv hf (h.lookup_none hfresh) hfresh
    | some i =>
      have hi := findFile_some hf
      have hl := h.lookup hi
      exact .file name i hp hv hf hl hi (s.size_le name _ hl)

/-- A path that is no name fails with the error of `path_to_name`. -/
theorem onFile_malformed {ret : Int} {fail : Int → Answer} {act : Bytes → File → Store × Answer}
    (hp : pathToName (some path) = .error ret) : s.onFile path fail act = (s, fail ret) := by
  unfold Store.onFile
  rw [hp]

/-- A name without a file fails with `ENOENT`. -/
theorem onFile_absent {fail : Int → Answer} {act : Bytes → File → Store × Answer} (hp : pathToName (some path) = .ok name)
    (hl : s.map.lookup name = none) : s.onFile path fail act = (s, fail (-ENOENT)) := by
  simp only [Store.onFile, hp, hl]

/-- A name with a file is served by what the call does to the file. -/
theorem onFile_file {f : File} {fail : Int → Answer} {act : Bytes → File → Store × Answer}
    (hp : pathToName (some path) = .ok name) (hl : s.map.lookup name = some f) : s.onFile path fail act = act name f := by
  simp only [Store.onFile, hp, hl]

/-! ## One slot changed -/

/-- A file that can be admitted is what its name leads to. -/
theorem put_map {f : File} (h : s.Admits name f) : (s.put name f).map = s.map.insert name f := by
  unfold Store.put
  rw [dif_pos h]

/-- A slot in use is rewritten and keeps its name: the store's file is replaced. -/
theorem holds_set {node : MemNode} {f : File} (h : Holds files s) (hv : ValidName name) (hi : view files i = some (name, f))
    (hn : node.view = some (name, node.file)) (hs : node.size ≤ maxFileSize) :
    Holds (Function.update files i node) (s.put name node.file) := by
  have hm : name ∈ s.map := h.mem_iff.2 ⟨i, f, hi⟩
  unfold Holds
  rw [view_update, hn, put_map ⟨hv, hs, Or.inl hm⟩]
  exact h.set hi node.file

/-- A rewritten slot keeps its name when `used` and `name` stay. -/
theorem view_of_same {node : MemNode} {f : File} (hi : view files i = some (name, f)) (hu : node.used = (files i).used)
    (hn : node.name = (files i).name) : node.view = some (name, node.file) := by
  unfold view MemNode.view at hi
  unfold MemNode.view
  split at hi
  · rename_i hused
    simp only [Option.some.injEq, Prod.mk.injEq] at hi
    rw [if_pos (hu.trans hused)]
    simp only [MemNode.nameOf, hn, Option.some.injEq, Prod.mk.injEq, and_true]
    exact hi.1
  · cases hi

/-- There is a free slot exactly when the store is not full. -/
theorem card_eq_iff (h : Holds files s) : s.map.keys.card = maxFiles ↔ ∀ i, view files i ≠ none := by
  rw [h.card_keys]
  exact Slots.length_keyList_eq_iff (view files)

end TableAux

open TableAux

/-! ## The calls -/

variable {files : Files} {s : Store}

/-- A call leaves the table a store, and replies what the store answers. -/
def Simulates (files : Files) (s : Store) (op : Op) : Prop :=
  ∃ files' reply, step files op = some (files', reply) ∧ Holds files' (s.step op).1 ∧ reply.Is (s.step op).2

theorem memfsGetattr_simulates (h : Holds files s) (path : CString) : Simulates files s (.getattr path) := by
  refine ⟨_, _, rfl, ?_⟩
  simp only [Store.step, memfsGetattr]
  by_cases hr : path.bytes = [slash]
  · rw [if_pos hr, if_pos hr]
    exact ⟨h, rfl, rfl⟩
  · rw [if_neg hr, if_neg hr]
    cases target h path with
    | malformed ret hp =>
      rw [onFile_malformed hp]
      simp only [hp]
      exact ⟨h, rfl, rfl⟩
    | absent name hp _ hf hl _ =>
      rw [onFile_absent hp hl]
      simp only [hp, hf]
      exact ⟨h, rfl, rfl⟩
    | file name i hp _ hf hl _ _ =>
      rw [onFile_file hp hl]
      simp only [hp, hf]
      exact ⟨h, rfl, rfl⟩

theorem memfsReaddir_simulates (h : Holds files s) (path : CString) : Simulates files s (.readdir path) := by
  refine ⟨_, _, rfl, ?_⟩
  simp only [Store.step, memfsReaddir]
  by_cases hr : path.bytes = [slash]
  · rw [if_pos hr, if_neg (not_not.2 hr)]
    refine ⟨h, rfl, ?_⟩
    rw [if_pos rfl]
    refine ⟨(view files).keyList, by rw [names_eq_keyList], h.unique.nodup_keyList, ?_⟩
    intro name
    exact h.mem_keyList_iff
  · rw [if_neg hr, if_pos hr]
    refine ⟨h, rfl, ?_⟩
    rw [if_neg (by decide)]

theorem memfsCreate_simulates (h : Holds files s) (path : CString) : Simulates files s (.create path) := by
  refine ⟨_, _, rfl, ?_⟩
  simp only [Store.step, memfsCreate]
  cases target h path with
  | malformed ret hp =>
    simp only [hp]
    exact ⟨h, rfl⟩
  | file name i hp _ hf hl _ _ =>
    have hm : name ∈ s.map := Finmap.mem_iff.2 ⟨_, hl⟩
    simp only [hp, hf]
    rw [if_pos hm]
    exact ⟨h, rfl⟩
  | absent name hp hv hf hl hfresh =>
    have hm : name ∉ s.map := Finmap.lookup_eq_none.1 hl
    simp only [hp, hf]
    rw [if_neg hm]
    cases hs : findFreeSlot files with
    | none =>
      rw [if_pos ((card_eq_iff h).2 (findFreeSlot_none hs))]
      exact ⟨h, rfl⟩
    | some i =>
      have hi := findFreeSlot_some hs
      have hc : s.map.keys.card ≠ maxFiles := fun hc => (card_eq_iff h).1 hc i hi
      rw [if_neg hc]
      refine ⟨?_, rfl⟩
      unfold Holds
      rw [view_update, put_map ⟨hv, Nat.zero_le _, Or.inr (Nat.lt_of_le_of_ne s.card_le hc)⟩]
      have hview : ∀ a, ({ files i with used := true, name := a, size := 0, data := fun _ => 0 } : MemNode).view =
          some (cstr a, File.empty) := fun _ => rfl
      rw [hview, cstr_strncpy _ hv]
      exact h.insert hi hfresh File.empty

theorem memfsOpen_simulates (h : Holds files s) (path : CString) : Simulates files s (.openFile path) := by
  refine ⟨_, _, rfl, ?_⟩
  simp only [Store.step, memfsOpen]
  cases target h path with
  | malformed ret hp =>
    rw [onFile_malformed hp]
    simp only [hp]
    exact ⟨h, rfl⟩
  | absent name hp _ hf hl _ =>
    rw [onFile_absent hp hl]
    simp only [hp, hf]
    exact ⟨h, rfl⟩
  | file name i hp _ hf hl _ _ =>
    rw [onFile_file hp hl]
    simp only [hp, hf]
    exact ⟨h, rfl⟩

/-- A read of a file, with the clipped size written as a minimum. -/
theorem memfsRead_file {path : CString} {name : Bytes} {i : Fin maxFiles} {size : Nat} {offset : Int}
    (hp : pathToName (some path) = .ok name) (hf : findFile files name = some i) (hs : (files i).size ≤ maxFileSize)
    (ho : 0 ≤ offset) :
    memfsRead files path size offset =
      some (((min size ((files i).size - offset.toNat) : Nat) : Int), (files i).file.read size offset.toNat) := by
  simp only [memfsRead, hp, hf]
  rw [if_neg (by omega)]
  unfold maxFileSize at hs
  by_cases hge : offset.toNat ≥ (files i).size
  · have h0 : min size ((files i).size - offset.toNat) = 0 := by omega
    rw [if_pos hge]
    simp only [File.read, MemNode.file, h0, List.take_zero]
    rfl
  · have hclip : (if size > (files i).size - offset.toNat then (files i).size - offset.toNat else size) =
        min size ((files i).size - offset.toNat) := by
      split <;> omega
    rw [if_neg hge, hclip]
    unfold copyOut
    rw [if_pos (by unfold maxFileSize; omega)]
    simp only
    rw [Word.toInt32_of_lt (by omega)]
    rfl

theorem memfsRead_simulates (h : Holds files s) (path : CString) (size : Nat) (offset : Int) :
    Simulates files s (.read path size offset) := by
  unfold Simulates
  simp only [Store.step, step]
  cases target h path with
  | malformed ret hp =>
    rw [onFile_malformed hp]
    simp only [memfsRead, hp]
    exact ⟨_, _, rfl, h, rfl, rfl⟩
  | absent name hp _ hf hl _ =>
    rw [onFile_absent hp hl]
    simp only [memfsRead, hp, hf]
    exact ⟨_, _, rfl, h, rfl, rfl⟩
  | file name i hp _ hf hl _ hs =>
    rw [onFile_file hp hl]
    by_cases ho : offset < 0
    · rw [if_pos ho]
      simp only [memfsRead, hp, hf, if_pos ho]
      exact ⟨_, _, rfl, h, rfl, rfl⟩
    · rw [if_neg ho, memfsRead_file hp hf hs (by omega)]
      exact ⟨_, _, rfl, h, rfl, rfl⟩

/-- The number of bytes `memfs_write` copies, when the sum of offset and length is a signed word. -/
theorem writeSize_eq {size : Nat} {offset : Int} (hb : offset + size < 2 ^ 63) (ho : 0 ≤ offset)
    (hm : offset.toNat < maxFileSize) :
    (if Word.addInt offset (Word.toInt size) > maxFileSize then maxFileSize - offset.toNat else size) =
      min size (maxFileSize - offset.toNat) := by
  unfold maxFileSize at *
  rw [Word.toInt_of_lt (by omega), Word.addInt_of_lt (by omega) hb]
  split <;> omega

/-- A write into the buffer: the slot's file becomes `File.write` of it. -/
theorem memfsWrite_file {path : CString} {name : Bytes} {i : Fin maxFiles} (buf : Nat → UInt8) {size : Nat} {offset : Int}
    (hp : pathToName (some path) = .ok name) (hf : findFile files name = some i) (hb : offset + size < 2 ^ 63)
    (ho : 0 ≤ offset) (hm : offset.toNat < maxFileSize) (h0 : size ≠ 0) :
    memfsWrite files path buf size offset =
      some (Function.update files i
          ((files i).setFile ((files i).file.write buf (min size (maxFileSize - offset.toNat)) offset.toNat)),
        ((min size (maxFileSize - offset.toNat) : Nat) : Int)) := by
  have hn : min size (maxFileSize - offset.toNat) ≠ 0 := by omega
  have hin : offset.toNat + min size (maxFileSize - offset.toNat) ≤ maxFileSize := by omega
  have hsize : ∀ a b : Nat, (if a > b then a else b) = max b a := by
    intro a b
    split <;> omega
  simp only [memfsWrite, hp, hf]
  rw [if_neg (by omega), if_neg (by omega), writeSize_eq hb ho hm, if_neg hn]
  unfold copyIn
  rw [if_pos hin]
  simp only
  unfold maxFileSize at hin
  rw [Word.add_of_lt (by unfold maxFileSize; omega), Word.toInt32_of_lt (by unfold maxFileSize; omega), hsize]
  rfl

theorem memfsWrite_simulates (h : Holds files s) (path : CString) (buf : Nat → UInt8) {size : Nat} (hb : size < 2 ^ 31)
    (offset : Int) : Simulates files s (.write path buf size offset) := by
  unfold Simulates
  simp only [Store.step, step]
  cases target h path with
  | malformed ret hp =>
    rw [onFile_malformed hp]
    simp only [memfsWrite, hp]
    exact ⟨_, _, rfl, h, rfl⟩
  | absent name hp _ hf hl _ =>
    rw [onFile_absent hp hl]
    simp only [memfsWrite, hp, hf]
    exact ⟨_, _, rfl, h, rfl⟩
  | file name i hp hv hf hl hi hs =>
    rw [onFile_file hp hl]
    by_cases ho : offset < 0
    · rw [if_pos ho]
      simp only [memfsWrite, hp, hf, if_pos ho]
      exact ⟨_, _, rfl, h, rfl⟩
    · rw [if_neg ho]
      by_cases hm : offset.toNat ≥ maxFileSize
      · rw [if_pos (Or.inl hm)]
        simp only [memfsWrite, hp, hf, if_neg ho, if_pos hm]
        exact ⟨_, _, rfl, h, rfl⟩
      · have hsum : offset + size < 2 ^ 63 := by
          unfold maxFileSize at hm
          omega
        by_cases h0 : size = 0
        · rw [if_pos (Or.inr h0)]
          -- the clipped size of an empty write is zero again
          have hz := writeSize_eq hsum (Int.not_lt.1 ho) (Nat.lt_of_not_le hm)
          simp only [memfsWrite, hp, hf, if_neg ho, if_neg hm, hz]
          rw [if_pos (by omega)]
          exact ⟨_, _, rfl, h, rfl⟩
        · rw [if_neg (not_or.2 ⟨hm, h0⟩)]
          rw [memfsWrite_file buf hp hf hsum (Int.not_lt.1 ho) (Nat.lt_of_not_le hm) h0]
          refine ⟨_, _, rfl, holds_set h hv hi (view_of_same hi rfl rfl) ?_, rfl⟩
          simp only [MemNode.setFile_size, File.write, MemNode.file]
          omega

/-- `memfs_truncate` on a file: the slot's file becomes `File.truncate` of it. -/
theorem truncate_file (node : MemNode) (length : Nat) :
    ({ node with
        data := if length > node.size then zeroFill node.data node.size (length - node.size) else node.data,
        size := length } : MemNode).file = node.file.truncate length := by
  ext1
  · rfl
  · funext k
    show (if length > node.size then zeroFill node.data node.size (length - node.size) else node.data) k =
      if node.size ≤ k.val ∧ k.val < length then 0 else node.data k
    by_cases hg : length > node.size
    · have hend : node.size + (length - node.size) = length := by omega
      rw [if_pos hg]
      unfold zeroFill
      rw [hend]
    · rw [if_neg hg, if_neg (by omega)]

theorem memfsTruncate_simulates (h : Holds files s) (path : CString) (size : Int) :
    Simulates files s (.truncate path size) := by
  refine ⟨_, _, rfl, ?_⟩
  simp only [Store.step, memfsTruncate]
  cases target h path with
  | malformed ret hp =>
    rw [onFile_malformed hp]
    simp only [hp]
    exact ⟨h, rfl⟩
  | absent name hp _ hf hl _ =>
    rw [onFile_absent hp hl]
    simp only [hp, hf]
    exact ⟨h, rfl⟩
  | file name i hp hv hf hl hi _ =>
    rw [onFile_file hp hl]
    simp only [hp, hf]
    by_cases hneg : size < 0
    · rw [if_pos hneg, if_pos hneg]
      exact ⟨h, rfl⟩
    · rw [if_neg hneg, if_neg hneg]
      by_cases hbig : size > maxFileSize
      · rw [if_pos hbig, if_pos hbig]
        exact ⟨h, rfl⟩
      · rw [if_neg hbig, if_neg hbig]
        refine ⟨?_, rfl⟩
        simp only [← truncate_file]
        refine holds_set h hv hi (view_of_same hi rfl rfl) ?_
        show size.toNat ≤ maxFileSize
        omega

theorem memfsUnlink_simulates (h : Holds files s) (path : CString) : Simulates files s (.unlink path) := by
  refine ⟨_, _, rfl, ?_⟩
  simp only [Store.step, memfsUnlink]
  cases target h path with
  | malformed ret hp =>
    rw [onFile_malformed hp]
    simp only [hp]
    exact ⟨h, rfl⟩
  | absent name hp _ hf hl _ =>
    rw [onFile_absent hp hl]
    simp only [hp, hf]
    exact ⟨h, rfl⟩
  | file name i hp _ hf hl hi _ =>
    rw [onFile_file hp hl]
    simp only [hp, hf]
    refine ⟨?_, rfl⟩
    unfold Holds
    rw [view_update]
    exact h.erase hi

/-- Every call keeps the table a store and replies what the store answers. -/
theorem Holds.step (h : Holds files s) {op : Op} (hb : op.Bounded) : Simulates files s op := by
  cases op with
  | getattr path => exact memfsGetattr_simulates h path
  | readdir path => exact memfsReaddir_simulates h path
  | create path => exact memfsCreate_simulates h path
  | openFile path => exact memfsOpen_simulates h path
  | read path size offset => exact memfsRead_simulates h path size offset
  | write path buf size offset => exact memfsWrite_simulates h path buf hb offset
  | truncate path size => exact memfsTruncate_simulates h path size
  | unlink path => exact memfsUnlink_simulates h path

/-- A step of the table is the call on the store, with the store's answer. -/
theorem Holds.of_step (h : Holds files s) {files' : Files} {l : Op × Reply} (hs : Step files l files') :
    Holds files' (s.step l.1).1 ∧ l.2.Is (s.step l.1).2 := by
  obtain ⟨files'', reply, he, hh, hr⟩ := h.step hs.1
  obtain ⟨rfl, rfl⟩ := Prod.mk.inj (Option.some.inj (hs.2.symm.trans he))
  exact ⟨hh, hr⟩

/-- After `memfs_init` the table is the empty store: slot 0 has a name but is not in use. -/
theorem holds_init : Holds initFiles Store.empty := by
  apply Slots.rep_empty
  intro i
  rw [view_eq_none_iff]
  unfold initFiles memfsInit
  by_cases hi : i = ⟨0, by decide⟩
  · subst hi
    rw [Function.update_self]
    rfl
  · rw [Function.update_of_ne hi]
    rfl

end OsLab.Memfs
