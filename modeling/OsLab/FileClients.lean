import OsLab.NameStore

/-!
# Clients of the file system

What a client expects of one write, and two loops it runs over the calls. It writes a buffer in chunks, each behind the bytes that
were taken, until a write is short or fails. It reads a file from its start, going on behind what it got, until a read returns 0.
-/

namespace OsLab.Memfs

/-- What a client expects of a write: an error code and the table as it was, or as many of the bytes as there is room for put into
the file at the offset, with their number. -/
def WriteExact (files : Files) (path : CString) (buf : Nat → UInt8) (size : Nat) (offset : Int) : Option (Files × Int) → Prop
  | none => False
  | some (files', ret) =>
    (ret < 0 ∧ files' = files) ∨
    ∃ name i, pathToName (some path) = .ok name ∧ findFile files name = some i ∧ 0 ≤ offset ∧ offset < maxFileSize ∧
      ret = (min size (maxFileSize - offset.toNat) : Nat) ∧
      files' = Function.update files i
        ((files i).setFile ((files i).file.write buf (min size (maxFileSize - offset.toNat)) offset.toNat))

/-- The write gets as far as the test of the limit, and the sum it tests is not a signed word. -/
def Wraps (files : Files) (path : CString) (size : Nat) (offset : Int) : Prop :=
  ∃ name i, pathToName (some path) = .ok name ∧ findFile files name = some i ∧ 0 ≤ offset ∧ offset < maxFileSize ∧
    2 ^ 63 ≤ offset + size

/-- Write the chunks one after the other, each at `offset` plus the count so far: the table and the count at the end. -/
def writeChunks (path : CString) (offset : Int) : List Bytes → Files → Nat → Option (Files × Nat)
  | [], files, total => some (files, total)
  | chunk :: chunks, files, total =>
    match memfsWrite files path (bufferOf chunk) chunk.length (offset + total) with
    | none => none
    | some (files', ret) =>
      if ret < 0 then some (files', total)
      else if ret < chunk.length then some (files', total + ret.toNat)
      else writeChunks path offset chunks files' (total + ret.toNat)

/-- Read from `offset` on until a read returns 0, the `k`-th time `sizes k` bytes: what the reads return. No result when there are
more than `fuel` reads. -/
def readToEnd (files : Files) (path : CString) (sizes : Nat → Nat) : Nat → Int → Nat → Option (List (Int × Bytes))
  | _, _, 0 => none
  | k, offset, fuel + 1 =>
    match memfsRead files path (sizes k) offset with
    | none => none
    | some (ret, bytes) =>
      if ret = 0 then some [(ret, bytes)]
      else (readToEnd files path sizes (k + 1) (offset + ret) fuel).map ((ret, bytes) :: ·)

/-- The contents of a file: its bytes up to its size. -/
def File.contents (f : File) : Bytes := (List.ofFn f.data).take f.size

end OsLab.Memfs
