import OsLab.FileClients
import OsLab.Lemmas.MemfsTable
import Mathlib.Data.List.GetD

/-!
# The loops of the clients

Two writes, one behind the other, are one write of the two buffers (`File.write_write`); a read and a read behind it are one read.
From these the loops come out by induction, over the chunks and over what is left of the file.
-/

namespace OsLab.Memfs

/-! ## Writing -/

section Write

variable (f : File) (b b' : Nat → UInt8) (m n o : Nat)

/-- A write reads no more of its buffer than it writes. -/
theorem File.write_congr {b b' : Nat → UInt8} (h : ∀ k, k < n → b k = b' k) : f.write b n o = f.write b' n o := by
  ext1
  · rfl
  · funext k
    simp only [File.write]
    split
    · exact h _ (by omega)
    · rfl

/-- A write of nothing inside the file does nothing. -/
theorem File.write_zero {o : Nat} (h : o ≤ f.size) : f.write b 0 o = f := by
  ext1
  · simp only [File.write]
    omega
  · funext k
    simp only [File.write]
    rw [if_neg (by omega)]

/-- Two writes, the second right behind the first, are one write. -/
theorem File.write_write :
    (f.write b n o).write b' m (o + n) = f.write (fun k => if k < n then b k else b' (k - n)) (n + m) o := by
  ext1
  · simp only [File.write]
    omega
  · funext k
    simp only [File.write]
    by_cases h2 : o + n ≤ k.val ∧ k.val < o + n + m
    · rw [if_pos h2, if_pos (by omega), if_neg (by omega), Nat.sub_sub]
    · rw [if_neg h2]
      by_cases h1 : o ≤ k.val ∧ k.val < o + n
      · rw [if_pos h1, if_pos (by omega), if_pos (by omega)]
      · rw [if_neg h1, if_neg (by omega)]

end Write

theorem bufferOf_append (c rest : Bytes) :
    bufferOf (c ++ rest) = fun k => if k < c.length then bufferOf c k else bufferOf rest (k - c.length) := by
  funext k
  unfold bufferOf
  split
  · rename_i h
    exact List.getD_append _ _ _ _ h
  · rename_i h
    exact List.getD_append_right _ _ _ _ (Nat.le_of_not_lt h)

/-- The table with another file in a slot. -/
def putFile (files : Files) (i : Fin maxFiles) (f : File) : Files := Function.update files i ((files i).setFile f)

section PutFile

variable (files : Files) (i : Fin maxFiles) (f g : File)

@[simp] theorem putFile_self : putFile files i f i = (files i).setFile f := Function.update_self ..

@[simp] theorem putFile_putFile : putFile (putFile files i f) i g = putFile files i g := by
  simp [putFile]

@[simp] theorem putFile_file : putFile files i (files i).file = files := by
  simp [putFile]

/-- The names and the slots in use stay. -/
@[simp] theorem findFile_putFile (name : Bytes) : findFile (putFile files i f) name = findFile files name := by
  unfold findFile
  congr 1
  funext j
  by_cases hj : j = i
  · subst hj
    simp [MemNode.nameOf]
  · simp [putFile, Function.update_of_ne hj]

end PutFile

variable {files : Files} {path : CString} {name : Bytes} {i : Fin maxFiles}

/-- The bytes of a string written to a file at a position, as far as there is room. -/
def File.writeBytes (f : File) (bytes : Bytes) (p : Nat) : File := f.write (bufferOf bytes) (min bytes.length (maxFileSize - p)) p

/-- One write of a string. -/
theorem memfsWrite_bytes {bytes : Bytes} {offset : Int} (hp : pathToName (some path) = .ok name)
    (hf : findFile files name = some i) (hb : bytes.length < 2 ^ 31) (ho : 0 ≤ offset) (hm : offset.toNat < maxFileSize)
    (h0 : bytes ≠ []) :
    memfsWrite files path (bufferOf bytes) bytes.length offset =
      some (putFile files i ((files i).file.writeBytes bytes offset.toNat),
        ((min bytes.length (maxFileSize - offset.toNat) : Nat) : Int)) := by
  refine memfsWrite_file _ hp hf ?_ ho hm (by simpa using h0)
  unfold maxFileSize at hm
  omega

/-- The bytes of two strings are those of the first, and of the second behind them. -/
theorem File.writeBytes_append (f : File) (c rest : Bytes) {p : Nat} (h : p + c.length ≤ maxFileSize) :
    (f.writeBytes c p).writeBytes rest (p + c.length) = f.writeBytes (c ++ rest) p := by
  unfold File.writeBytes
  have hc : min c.length (maxFileSize - p) = c.length := by omega
  have hall : min (c ++ rest).length (maxFileSize - p) = c.length + min rest.length (maxFileSize - (p + c.length)) := by
    rw [List.length_append]
    omega
  rw [hc, hall, File.write_write, bufferOf_append]

/-- A string that does not fit: what comes behind it does not matter. -/
theorem File.writeBytes_full (f : File) (c rest : Bytes) {p : Nat} (h : maxFileSize - p < c.length) :
    f.writeBytes c p = f.writeBytes (c ++ rest) p := by
  unfold File.writeBytes
  have hn : min c.length (maxFileSize - p) = maxFileSize - p := by omega
  have hall : min (c ++ rest).length (maxFileSize - p) = maxFileSize - p := by
    rw [List.length_append]
    omega
  rw [hn, hall]
  refine f.write_congr _ _ fun k hk => ?_
  simp only [bufferOf_append]
  rw [if_pos (by omega)]

/-- The chunks left are written as one string, at the position reached. -/
theorem writeChunks_eq {offset : Int} (hp : pathToName (some path) = .ok name) (ho : 0 ≤ offset) (chunks : List Bytes) :
    ∀ (files : Files) (total : Nat), findFile files name = some i → (∀ c ∈ chunks, c ≠ []) → chunks.flatten.length < 2 ^ 31 →
      offset.toNat + total ≤ maxFileSize →
      (offset.toNat + total ≤ (files i).size ∨ offset.toNat + total < maxFileSize ∧ chunks ≠ []) →
      writeChunks path offset chunks files total =
        some (putFile files i ((files i).file.writeBytes chunks.flatten (offset.toNat + total)),
          total + min chunks.flatten.length (maxFileSize - (offset.toNat + total))) := by
  induction chunks with
  | nil =>
    intro files total _ _ _ _ hsize
    have hsize : offset.toNat + total ≤ (files i).file.size := hsize.resolve_right (fun h => h.2 rfl)
    simp [writeChunks, File.writeBytes, File.write_zero _ _ hsize]
  | cons c rest ih =>
    intro files total hf hne hlen hle hsize
    have hc : c ≠ [] := hne c List.mem_cons_self
    have hclen : 0 < c.length := List.length_pos_iff.2 hc
    have hpos : (offset + total).toNat = offset.toNat + total := by omega
    rw [List.flatten_cons, List.length_append] at hlen ⊢
    by_cases hfull : offset.toNat + total = maxFileSize
    · -- there is no room left: the write fails, and the single one writes no more
      have hsize : maxFileSize ≤ (files i).file.size := by
        rcases hsize with h | h
        · rw [← hfull]
          exact h
        · omega
      have hw : memfsWrite files path (bufferOf c) c.length (offset + total) = some (files, -EFBIG) := by
        simp only [memfsWrite, hp, hf]
        rw [if_neg (by omega), if_pos (by omega)]
      simp [writeChunks, hw, hfull, EFBIG, File.writeBytes, File.write_zero _ _ hsize]
    · have hw := @memfsWrite_bytes _ _ _ _ c (offset + total) hp hf (by omega) (by omega) (by omega) hc
      rw [hpos] at hw
      simp only [writeChunks, hw]
      rw [if_neg (by omega)]
      by_cases hshort : maxFileSize - (offset.toNat + total) < c.length
      · rw [if_pos (by omega), File.writeBytes_full _ c rest.flatten hshort]
        simp only [Option.some.injEq, Prod.mk.injEq, true_and]
        omega
      · -- the whole chunk was taken, and the rest goes on behind it
        have htaken : min c.length (maxFileSize - (offset.toNat + total)) = c.length := by omega
        rw [if_neg (by omega), htaken, Int.toNat_natCast, ih]
        · rw [← Nat.add_assoc]
          simp only [putFile_self, putFile_putFile, MemNode.file_setFile, File.writeBytes_append _ c rest.flatten
            (p := offset.toNat + total) (by omega), Option.some.injEq, Prod.mk.injEq, true_and]
          omega
        · rw [findFile_putFile, hf]
        · exact fun d hd => hne d (List.mem_cons_of_mem _ hd)
        · omega
        · omega
        · left
          simp only [putFile_self, MemNode.setFile_size, File.writeBytes, File.write]
          omega

/-! ## Reading -/

/-- A read, and a read behind it, are one read. -/
theorem take_drop_append (l : Bytes) (p n m : Nat) :
    (l.drop p).take n ++ (l.drop (p + n)).take m = (l.drop p).take (n + m) := by
  rw [List.take_add, List.drop_drop]

/-- The reads left give what is left of the file, one byte or more each, and then 0. -/
theorem readToEnd_eq {sizes : Nat → Nat} (hp : pathToName (some path) = .ok name) (hf : findFile files name = some i)
    (hs : (files i).size ≤ maxFileSize) (hpos : ∀ k, 0 < sizes k) (left : Nat) :
    ∀ k p, (files i).size - p = left → ∃ replies,
      (∀ fuel, left + 1 ≤ fuel → readToEnd files path sizes k (p : Int) fuel = some replies) ∧
      replies.length ≤ left + 1 ∧ (∀ r ∈ replies, r.1 = (r.2.length : Int)) ∧
      (replies.map Prod.snd).flatten = ((List.ofFn (files i).data).drop p).take left := by
  induction left using Nat.strongRecOn with
  | _ left ih =>
    intro k p hleft
    have hr := @memfsRead_file files path name i (sizes k) p hp hf hs (Int.natCast_nonneg p)
    rw [Int.toNat_natCast, hleft] at hr
    have hlen : ((files i).file.read (sizes k) p).length = min (sizes k) left := by
      simp only [File.read, MemNode.file, List.length_take, List.length_drop, List.length_ofFn]
      omega
    by_cases h0 : left = 0
    · subst h0
      refine ⟨[(0, [])], fun fuel hfuel => ?_, by simp, by simp, by simp⟩
      obtain ⟨n, rfl⟩ := Nat.exists_eq_add_of_le' hfuel
      rw [Nat.min_zero] at hr hlen
      simp [readToEnd, hr, List.length_eq_zero_iff.1 hlen]
    · have hk := hpos k
      obtain ⟨replies, hloop, hcount, hcodes, hbytes⟩ := ih (left - min (sizes k) left) (by omega) (k + 1)
        (p + min (sizes k) left) (by omega)
      refine ⟨(((min (sizes k) left : Nat) : Int), (files i).file.read (sizes k) p) :: replies, fun fuel hfuel => ?_, ?_, ?_, ?_⟩
      · obtain ⟨n, rfl⟩ := Nat.exists_eq_add_of_le' (Nat.le_trans (Nat.le_add_left 1 left) hfuel)
        simp only [readToEnd, hr]
        rw [if_neg (by omega), ← Int.natCast_add, hloop n (by omega)]
        rfl
      · rw [List.length_cons]
        omega
      · intro r hr
        rcases List.mem_cons.1 hr with rfl | hr
        · rw [hlen]
        · exact hcodes r hr
      · rw [List.map_cons, List.flatten_cons, hbytes]
        have hread : (files i).file.read (sizes k) p = ((List.ofFn (files i).data).drop p).take (min (sizes k) left) := by
          rw [← hleft]
          rfl
        rw [hread, take_drop_append]
        congr 1
        omega

end OsLab.Memfs
