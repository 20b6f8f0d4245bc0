import OsLab.Lemmas.MemfsCalls
import OsLab.Theorems.Memfs

/-!
# Paths and the names in the arrays

The name arrays of a table that the calls built end in a NUL (`Terminated`), so `strcmp` on them stays inside, and `find_file` byte
by byte is `findFile`. A file is created under the bytes behind the slash of its path, and is found by this path alone.
-/

namespace OsLab.Memfs

open TableAux CallsAux

/-- The last byte of every name array is NUL. -/
def Terminated (files : Files) : Prop := ∀ i, (files i).name (Fin.last maxNameLen) = 0

/-- The array holds the bytes and a NUL behind them. -/
def HoldsString {n : Nat} (a : Fin n → UInt8) (b : Bytes) : Prop := (0 : UInt8) ∉ b ∧ ∃ rest, List.ofFn a = b ++ 0 :: rest

namespace PathsAux

variable {files files' : Files} {path : CString} {name : Bytes} {i : Fin maxFiles} {op : Op} {reply : Reply}

/-! ## The arrays end in a NUL -/

/-- A node with a terminated name comes in. -/
theorem terminated_update {node : MemNode} (h : Terminated files) (hn : node.name ⟨maxNameLen, by decide⟩ = 0) :
    Terminated (Function.update files i node) := by
  intro j
  by_cases hj : j = i
  · rw [hj, Function.update_self]
    exact hn
  · rw [Function.update_of_ne hj]
    exact h j

/-- At the start no name is written. -/
theorem terminated_init : Terminated initFiles := by
  refine terminated_update (fun _ => rfl) ?_
  simp [strncpy, zeroFiles]

/-- `memfs_create` terminates the name. -/
theorem terminated_create (h : Terminated files) (path : CString) : Terminated (memfsCreate files path).1 := by
  unfold memfsCreate
  split
  · exact h
  · split
    · exact h
    · split
      · exact h
      · refine terminated_update h ?_
        simp

/-- `memfs_write` leaves all names. -/
theorem terminated_write {buf : Nat → UInt8} {size : Nat} {offset ret : Int} (h : Terminated files)
    (hw : memfsWrite files path buf size offset = some (files', ret)) : Terminated files' := by
  simp only [memfsWrite] at hw
  repeat' split at hw
  all_goals cases hw
  all_goals first | exact h | exact terminated_update h (h _)

/-- `memfs_truncate` leaves all names. -/
theorem terminated_truncate (h : Terminated files) (path : CString) (size : Int) :
    Terminated (memfsTruncate files path size).1 := by
  unfold memfsTruncate
  repeat' split
  all_goals first | exact h | exact terminated_update h (h _)

/-- `memfs_unlink` leaves the names of the others. -/
theorem terminated_unlink (h : Terminated files) (path : CString) : Terminated (memfsUnlink files path).1 := by
  unfold memfsUnlink
  repeat' split
  all_goals first | exact h | exact terminated_update h rfl

/-- Every call keeps the NULs. -/
theorem terminated_step (h : Terminated files) (hs : step files op = some (files', reply)) : Terminated files' := by
  cases op with
  | getattr path | readdir path | openFile path =>
    cases hs
    exact h
  | create path =>
    cases hs
    exact terminated_create h path
  | read path size offset =>
    obtain ⟨r, _, he⟩ := Option.map_eq_some_iff.1 hs
    cases he
    exact h
  | write path buf size offset =>
    obtain ⟨⟨f, ret⟩, hw, he⟩ := Option.map_eq_some_iff.1 hs
    cases he
    exact terminated_write h hw
  | truncate path size =>
    cases hs
    exact terminated_truncate h path size
  | unlink path =>
    cases hs
    exact terminated_unlink h path

/-- Every run keeps the names terminated. -/
theorem run_terminated {tr : List (Op × Reply)} (h : Run Step initFiles tr files) : Terminated files :=
  Run.invariant (P := fun _ files => Terminated files) terminated_init (fun _ _ _ _ _ ht hs => terminated_step ht hs.2) h

/-! ## `find_file`, byte by byte -/

/-- With terminated names, `strcmp` compares the names. -/
theorem findFileLoop_eq (h : Terminated files) (h0 : (0 : UInt8) ∉ name) (is : List (Fin maxFiles)) :
    findFileLoop files name is = some (is.find? fun i => (files i).used && (files i).nameOf == name) := by
  induction is with
  | nil => rfl
  | cons i is ih =>
    have hnul : (0 : UInt8) ∈ List.ofFn (files i).name := List.mem_ofFn.2 ⟨_, h i⟩
    obtain ⟨d, hd, hiff⟩ := strcmp_terminated hnul h0
    have hname : (files i).nameOf = name ↔ d = 0 := hiff.symm
    unfold findFileLoop
    rw [hd, ih]
    by_cases hu : (files i).used = true
    · by_cases hd0 : d = 0
      · simp [hu, hd0, hname.2 hd0]
      · simp [hu, hd0, mt hname.1 hd0]
    · simp [hu]

/-- The comparisons stay inside the arrays and find the slot of the name. -/
theorem findFileBytes_eq (h : Terminated files) (h0 : (0 : UInt8) ∉ name) :
    findFileBytes files name = some (findFile files name) := findFileLoop_eq h h0 _

/-! ## Paths -/

/-- The paths `path_to_name` takes. -/
theorem pathToName_iff :
    pathToName (some path) = .ok name ↔
      path.bytes = slash :: name ∧ 1 ≤ name.length ∧ name.length ≤ maxNameLen ∧ slash ∉ name := by
  constructor
  · intro h
    obtain ⟨hp, hne, hlen, hslash, _⟩ := pathToName_ok h
    exact ⟨hp, List.length_pos_iff.2 hne, hlen, hslash⟩
  · rintro ⟨hp, hne, hlen, hslash⟩
    simp only [pathToName, hp]
    rw [if_neg (not_not.2 rfl), if_neg (List.length_pos_iff.1 hne), if_neg hslash, if_neg (Nat.not_lt.2 hlen)]

/-- Strings of the same bytes are equal. -/
theorem CString.ext {p q : CString} (h : p.bytes = q.bytes) : p = q := by
  cases p
  cases q
  simpa using h

/-! ## A new file -/

/-- A creation that succeeds: the name was not there, and a free slot is rewritten with it. -/
theorem memfsCreate_ok (h : memfsCreate files path = (files', 0)) :
    ∃ name i node, pathToName (some path) = .ok name ∧ findFile files name = none ∧ (files i).used = false ∧
      files' = Function.update files i node ∧ node.used = true ∧ HoldsString node.name name := by
  unfold memfsCreate at h
  cases hp : pathToName (some path) with
  | error ret =>
    simp only [hp, Prod.mk.injEq] at h
    exact absurd h.2 (Int.ne_of_lt (pathToName_error hp))
  | ok name =>
    simp only [hp] at h
    cases hf : findFile files name with
    | some j =>
      simp only [hf, Prod.mk.injEq] at h
      exact absurd h.2 (by decide)
    | none =>
      simp only [hf] at h
      cases hs : findFreeSlot files with
      | none =>
        simp only [hs, Prod.mk.injEq] at h
        exact absurd h.2 (by decide)
      | some i =>
        simp only [hs, Prod.mk.injEq, and_true] at h
        have hv := (pathToName_ok hp).2
        exact ⟨name, i, _, rfl, hf, view_eq_none_iff.1 (findFreeSlot_some hs), h.symm, rfl, hv.2.2.2, ofFn_strncpy _ hv.2.1⟩

variable {node : MemNode}

/-- The new file is found in its slot. -/
theorem findFile_new (hf : findFile files name = none) (hu : node.used = true) (hn : node.nameOf = name) :
    findFile (Function.update files i node) name = some i := by
  have hold := List.find?_eq_none.1 hf
  cases hfound : findFile (Function.update files i node) name with
  | none =>
    have := List.find?_eq_none.1 hfound i (List.mem_finRange i)
    simp [hu, hn] at this
  | some j =>
    have hj := List.find?_some hfound
    by_cases hji : j = i
    · rw [hji]
    · rw [Function.update_of_ne hji] at hj
      exact absurd hj (hold j (List.mem_finRange j))

/-- Other names are found where they were. -/
theorem findFile_other {other : Bytes} (hfree : (files i).used = false) (hn : node.nameOf = name) (hne : other ≠ name) :
    findFile (Function.update files i node) other = findFile files other := by
  unfold findFile
  congr 1
  funext j
  by_cases hj : j = i
  · subst hj
    simp [hfree, hn, Ne.symm hne]
  · rw [Function.update_of_ne hj]

end PathsAux

open PathsAux

/-- Paths and stored names correspond. `path_to_name` takes exactly a slash with 1 to 127 other bytes behind it. After a creation
the array of the slot chosen is the string behind the slash of the path, `find_file` gives this slot for this path and for no
other, and gives the slots it gave before for the other files; its comparisons never leave an array. -/
theorem paths_name_slots (tr : List (Op × Reply)) (files : Files) (hr : Run Step initFiles tr files) :
    (∀ path name, pathToName (some path) = .ok name ↔
      path.bytes = slash :: name ∧ 1 ≤ name.length ∧ name.length ≤ 127 ∧ slash ∉ name) ∧
    ∀ p files', memfsCreate files p = (files', 0) →
      ∃ i name, p.bytes = slash :: name ∧ (files i).used = false ∧ (files' i).used = true ∧ HoldsString (files' i).name name ∧
        (∀ j, j ≠ i → files' j = files j) ∧
        ∀ q other, pathToName (some q) = .ok other →
          (∃ r, findFileBytes files other = some r) ∧ (∃ r, findFileBytes files' other = some r) ∧
          (findFileBytes files' other = some (some i) ↔ q = p) ∧
          ∀ j, findFileBytes files other = some (some j) → findFileBytes files' other = some (some j) := by
  refine ⟨fun path name => pathToName_iff, fun p files' hc => ?_⟩
  have hterm := run_terminated hr
  have hterm' : Terminated files' := by
    have := terminated_create hterm p
    rwa [hc] at this
  obtain ⟨name, i, node, hp, hf, hfree, rfl, hu, hstring⟩ := memfsCreate_ok hc
  have hname : node.nameOf = name := cstr_eq hstring.1 hstring.2.choose_spec
  refine ⟨i, name, (pathToName_ok hp).1, hfree, by simpa using hu, by simpa using hstring, fun j hj => ?_, ?_⟩
  · exact Function.update_of_ne hj ..
  intro q other hq
  have h0 : (0 : UInt8) ∉ other := (pathToName_ok hq).2.2.2.2
  rw [findFileBytes_eq hterm h0, findFileBytes_eq hterm' h0]
  refine ⟨⟨_, rfl⟩, ⟨_, rfl⟩, ?_⟩
  by_cases hother : other = name
  · subst hother
    rw [findFile_new hf hu hname, hf]
    refine ⟨iff_of_true rfl (CString.ext ?_), fun j hj => by cases hj⟩
    rw [(pathToName_ok hp).1, (pathToName_ok hq).1]
  · rw [findFile_other hfree hname hother]
    refine ⟨iff_of_false ?_ ?_, fun j hj => hj⟩
    · -- the slot was free before, so nothing was found there
      intro h
      have := List.find?_some (Option.some.inj h)
      simp [hfree] at this
    · rintro rfl
      exact hother (Except.ok.inj (hq.symm.trans hp))

/-- `"/ab"`. -/
def pathAB : CString := { bytes := [slash, 97, 98], nul_free := by decide }

/-- A name is stored in a slot that held a longer one, of which it is the start. -/
theorem paths_name_slots_recycled :
    ∃ files, Run Step initFiles [(.create pathAB, .code 0), (.unlink pathAB, .code 0)] files ∧
      ∃ files' i, memfsCreate files pathA = (files', 0) ∧ HoldsString (files' i).name [97] ∧
        findFileBytes files' [97] = some (some i) ∧ findFileBytes files' [97, 98] ≠ some (some i) := by
  have h : (run initFiles [.create pathAB, .unlink pathAB]).map (fun r => (r.2, (memfsCreate r.1 pathA).2)) =
      some ([.code 0, .code 0], 0) := by rfl
  obtain ⟨⟨files, replies⟩, hrun, he⟩ := Option.map_eq_some_iff.1 h
  simp only [Prod.mk.injEq] at he
  obtain ⟨rfl, hcode⟩ := he
  have hr := run_steps (by simp [Op.Bounded]) hrun
  have hc : memfsCreate files pathA = ((memfsCreate files pathA).1, 0) := Prod.ext rfl hcode
  obtain ⟨_, hcreate⟩ := paths_name_slots _ files hr
  obtain ⟨i, name, hp, _, _, hstring, _, hfind⟩ := hcreate pathA _ hc
  obtain rfl : [97] = name := (List.cons.inj hp).2
  refine ⟨files, hr, _, i, hc, hstring, (hfind pathA [97] rfl).2.2.1.2 rfl, fun h => ?_⟩
  have : pathAB = pathA := (hfind pathAB [97, 98] rfl).2.2.1.1 h
  exact absurd (congrArg CString.bytes this) (by decide)

end OsLab.Memfs
