import OsLab.Lemmas.MemfsCalls
import OsLab.Lemmas.MemfsClients
import OsLab.Theorems.Memfs

/-!
# What clients get

A write does what its client expects exactly when the sum of offset and length is a signed word; beyond that the test of the limit
passes and the copy leaves the buffer. A buffer may be written in any chunks, and reading to the end gives the contents.
-/

namespace OsLab.Memfs

open TableAux CallsAux

variable {files : Files} {path : CString} {name : Bytes} {i : Fin maxFiles}

/-! ## Lengths at the end of the range -/

/-- A sum that is not a signed word passes the test of the limit, and the length stays as it is. -/
theorem writeSize_wraps {size : Nat} {offset : Int} (hlt : size < 2 ^ 64) (ho : 0 ≤ offset) (hm : offset < maxFileSize)
    (hw : 2 ^ 63 ≤ offset + size) : ¬Word.addInt offset (Word.toInt size) > maxFileSize := by
  unfold maxFileSize at *
  unfold Word.addInt Word.toInt
  omega

/-- Such a copy leaves the buffer. -/
theorem memfsWrite_wraps (buf : Nat → UInt8) {size : Nat} {offset : Int} (hlt : size < 2 ^ 64)
    (h : Wraps files path size offset) : memfsWrite files path buf size offset = none := by
  obtain ⟨name, i, hp, hf, ho, hm, hw⟩ := h
  simp only [memfsWrite, hp, hf]
  rw [if_neg (by omega), if_neg (by omega), if_neg (writeSize_wraps hlt ho hm hw), if_neg (by unfold maxFileSize at hm; omega)]
  unfold copyIn
  rw [if_neg (by unfold maxFileSize at *; omega)]

/-- A write of any number of bytes that `size_t` can hold does what its client expects, exactly when it does not get to the test of
the limit or the sum it tests is a signed word. -/
theorem memfs_write_exact_iff (files : Files) (path : CString) (buf : Nat → UInt8) (size : Nat) (offset : Int) (hpos : 0 < size)
    (hlt : size < 2 ^ 64) :
    WriteExact files path buf size offset (memfsWrite files path buf size offset) ↔ ¬Wraps files path size offset := by
  by_cases hw : Wraps files path size offset
  · rw [memfsWrite_wraps buf hlt hw]
    exact iff_of_false id (not_not.2 hw)
  · refine iff_of_true ?_ hw
    cases hp : pathToName (some path) with
    | error ret =>
      simp only [memfsWrite, hp]
      exact Or.inl ⟨pathToName_error hp, rfl⟩
    | ok name =>
      cases hf : findFile files name with
      | none =>
        simp only [memfsWrite, hp, hf]
        exact Or.inl ⟨by decide, rfl⟩
      | some i =>
        by_cases ho : offset < 0
        · simp only [memfsWrite, hp, hf, if_pos ho]
          exact Or.inl ⟨by decide, rfl⟩
        · by_cases hm : offset.toNat ≥ maxFileSize
          · simp only [memfsWrite, hp, hf, if_neg ho, if_pos hm]
            exact Or.inl ⟨by decide, rfl⟩
          · have hsum : offset + size < 2 ^ 63 := by
              by_contra hsum
              exact hw ⟨name, i, hp, hf, Int.not_lt.1 ho, by omega, Int.not_lt.1 hsum⟩
            rw [memfsWrite_file buf hp hf hsum (Int.not_lt.1 ho) (Nat.lt_of_not_le hm) (Nat.pos_iff_ne_zero.1 hpos)]
            exact Or.inr ⟨name, i, hp, hf, Int.not_lt.1 ho, by omega, rfl, rfl⟩

/-- The table with one empty file. -/
def oneFile : Files := (memfsCreate initFiles pathA).1

/-- It is what `memfs_create` leaves. -/
theorem oneFile_run : Run Step initFiles [(.create pathA, .code 0)] oneFile := by
  refine Run.single ⟨trivial, ?_⟩
  have h : (memfsCreate initFiles pathA).2 = 0 := by rfl
  simp only [step, h]
  rfl

/-- The file is in the first slot. -/
theorem findFile_oneFile : findFile oneFile [97] = some ⟨0, by decide⟩ := by rfl

/-- `2 ^ 63` bytes at the start of a file are cast to a negative length, nothing is clipped, and the copy leaves the buffer. -/
theorem write_leaves_buffer :
    Run Step initFiles [(.create pathA, .code 0)] oneFile ∧ memfsWrite oneFile pathA (fun _ => 0) (2 ^ 63) 0 = none ∧
      ¬WriteExact oneFile pathA (fun _ => 0) (2 ^ 63) 0 (memfsWrite oneFile pathA (fun _ => 0) (2 ^ 63) 0) := by
  have h : memfsWrite oneFile pathA (fun _ => 0) (2 ^ 63) 0 = none :=
    memfsWrite_wraps _ (by decide) ⟨[97], _, rfl, findFile_oneFile, by decide, by decide, by decide⟩
  refine ⟨oneFile_run, h, ?_⟩
  rw [h]
  exact id

/-- The longest write at the start of a file that is clipped as it should be. -/
theorem memfs_write_exact_longest :
    ¬Wraps oneFile pathA (2 ^ 63 - 1) 0 ∧
      WriteExact oneFile pathA (fun _ => 0) (2 ^ 63 - 1) 0 (memfsWrite oneFile pathA (fun _ => 0) (2 ^ 63 - 1) 0) := by
  have h : ¬Wraps oneFile pathA (2 ^ 63 - 1) 0 := by
    rintro ⟨_, _, _, _, _, _, h⟩
    exact absurd h (by decide)
  exact ⟨h, (memfs_write_exact_iff oneFile pathA (fun _ => 0) (2 ^ 63 - 1) 0 (by decide) (by decide)).2 h⟩

/-! ## Writing in chunks -/

/-- A buffer written in chunks, one after the other as far as they are taken, leaves the table the single write leaves, and the
same count: whatever the table, the offset inside the buffer and the chunks. -/
theorem chunked_write_eq (files : Files) (path : CString) (name : Bytes) (i : Fin maxFiles) (offset : Int) (b : Bytes)
    (chunks : List Bytes) (hp : pathToName (some path) = .ok name) (hf : findFile files name = some i) (ho : 0 ≤ offset)
    (hm : offset < maxFileSize) (hb : b ≠ []) (hlen : b.length < 2 ^ 31) (hcut : chunks.flatten = b) (hne : ∀ c ∈ chunks, c ≠ []) :
    ∃ files' n, memfsWrite files path (bufferOf b) b.length offset = some (files', ((n : Nat) : Int)) ∧
      writeChunks path offset chunks files 0 = some (files', n) := by
  subst hcut
  refine ⟨_, _, memfsWrite_bytes hp hf hlen ho (by omega) hb, ?_⟩
  rw [writeChunks_eq hp ho chunks files 0 hf hne hlen (by omega) (Or.inr ⟨by omega, ?_⟩), Nat.add_zero, Nat.zero_add]
  rintro rfl
  exact hb rfl

/-- Three bytes at the end of the buffer, in two chunks, the second of which is cut short. -/
theorem chunked_write_eq_limit :
    ∃ files' n, memfsWrite oneFile pathA (bufferOf [1, 2, 3]) 3 4094 = some (files', ((n : Nat) : Int)) ∧
      writeChunks pathA 4094 [[1], [2, 3]] oneFile 0 = some (files', n) :=
  chunked_write_eq oneFile pathA [97] _ 4094 [1, 2, 3] [[1], [2, 3]] rfl findFile_oneFile (by decide) (by decide) (by decide)
    (by decide) rfl (by decide)

/-! ## Reading to the end -/

/-- Reading a file from its start until a read returns 0, with requests of any sizes: after at most `st_size + 1` reads, none of
which fails or leaves the buffer, the bytes are the contents of the file, as many as `memfs_getattr` says. -/
theorem reads_reassemble_file (tr : List (Op × Reply)) (files : Files) (path : CString) (name : Bytes) (i : Fin maxFiles)
    (sizes : Nat → Nat) (hr : Run Step initFiles tr files) (hp : pathToName (some path) = .ok name)
    (hf : findFile files name = some i) (hpos : ∀ k, 0 < sizes k) :
    ∃ stat replies, memfsGetattr files path = (0, stat) ∧
      (∀ fuel, stat.size + 1 ≤ fuel → readToEnd files path sizes 0 0 fuel = some replies) ∧
      replies.length ≤ stat.size + 1 ∧ (∀ r ∈ replies, 0 ≤ r.1 ∧ r.1 = (r.2.length : Int)) ∧
      (replies.map Prod.snd).flatten = (files i).file.contents ∧ (files i).file.contents.length = stat.size := by
  obtain ⟨s, hh, _⟩ := run_endsAtSize hr
  have hs : (files i).size ≤ maxFileSize := s.size_le name _ (hh.lookup (findFile_some hf))
  have hstat : memfsGetattr files path = (0, Stat.file (files i).size) := by
    simp only [memfsGetattr, hp, hf]
    rw [if_neg (ne_root_of_ok hp)]
  obtain ⟨replies, hloop, hcount, hcodes, hbytes⟩ := readToEnd_eq hp hf hs hpos (files i).size 0 0 (Nat.sub_zero _)
  refine ⟨_, replies, hstat, hloop, hcount, fun r hr => ⟨?_, hcodes r hr⟩, ?_, ?_⟩
  · rw [hcodes r hr]
    exact Int.natCast_nonneg _
  · rw [hbytes, List.drop_zero]
    rfl
  · simp only [File.contents, MemNode.file, List.length_take, List.length_ofFn, Stat.file]
    omega

/-- A file of three bytes. -/
def threeBytes : Files := putFile oneFile ⟨0, maxFiles_pos⟩ ((oneFile ⟨0, maxFiles_pos⟩).file.writeBytes [1, 2, 3] 0)

/-- It is what a write of three bytes leaves. -/
theorem threeBytes_run :
    Run Step initFiles [(.create pathA, .code 0), (.write pathA (bufferOf [1, 2, 3]) 3 0, .code 3)] threeBytes := by
  refine oneFile_run.snoc ⟨(by decide : 3 < 2 ^ 31), ?_⟩
  have hw : memfsWrite oneFile pathA (bufferOf [1, 2, 3]) 3 0 = some (threeBytes, 3) :=
    memfsWrite_bytes rfl findFile_oneFile (by decide) (by decide) (by decide) (by decide)
  simp only [step]
  exact congrArg (Option.map fun r => (r.1, Reply.code r.2)) hw

/-- The file is read two bytes at a time. -/
theorem reads_reassemble_file_twos :
    Run Step initFiles [(.create pathA, .code 0), (.write pathA (bufferOf [1, 2, 3]) 3 0, .code 3)] threeBytes ∧
      ∃ replies, (∀ fuel, 4 ≤ fuel → readToEnd threeBytes pathA (fun _ => 2) 0 0 fuel = some replies) ∧
        (replies.map Prod.snd).flatten = [1, 2, 3] := by
  have hf : findFile threeBytes [97] = some ⟨0, by decide⟩ := by
    rw [threeBytes, findFile_putFile, findFile_oneFile]
  obtain ⟨stat, replies, hstat, hloop, _, _, hbytes, hlen⟩ := reads_reassemble_file _ threeBytes pathA [97] _ (fun _ => 2)
    threeBytes_run rfl hf (fun _ => by decide)
  have hcontents : (threeBytes ⟨0, by decide⟩).file.contents = [1, 2, 3] := by decide +kernel
  rw [hcontents] at hbytes hlen
  exact ⟨threeBytes_run, replies, fun fuel hfuel => hloop fuel (by rw [← hlen]; exact hfuel), hbytes⟩

end OsLab.Memfs
