import OsLab.Lib.Run
import OsLab.Lib.Strcmp
import OsLab.Lib.Word
import Mathlib.Data.List.FinRange
import Mathlib.Logic.Function.Basic

/-!
# The file system of `os_lab6/memfs.c`

A table of 64 slots. A slot in use is a file: its name, as a C string in an array of 128 bytes, its size, and a buffer of 4096
bytes. The callbacks below are the functions of the source, with the table passed along; a negative code is the negated error
number. A copy that would leave the buffer is undefined in C and has no result here (`none`), in `memfs_read` and `memfs_write`.

`filler` takes every name it is given, so a listing is the list of the names passed to it. The fields of `struct stat` that no
callback sets are zero and are left out.
-/

namespace OsLab.Memfs

abbrev Bytes := List UInt8

/-- `MAX_FILES`. -/
def maxFiles : Nat := 64

/-- There is a slot. -/
theorem maxFiles_pos : 0 < maxFiles := by decide

/-- `MAX_NAME_LEN`. -/
def maxNameLen : Nat := 127

/-- `MAX_FILE_SIZE`. -/
def maxFileSize : Nat := 4096

def ENOENT : Int := 2
def EEXIST : Int := 17
def EISDIR : Int := 21
def EINVAL : Int := 22
def EFBIG : Int := 27
def ENOSPC : Int := 28
def ENAMETOOLONG : Int := 36

/-- The byte `'/'`. -/
def slash : UInt8 := 47

/-- A C string: its bytes up to the terminating NUL. -/
structure CString where
  bytes : Bytes
  nul_free : (0 : UInt8) ∉ bytes

/-- `node_type_t`. -/
inductive NodeType where
  | unused | dir | file
  deriving DecidableEq

/-- `mem_node_t`. -/
structure MemNode where
  used : Bool
  name : Fin (maxNameLen + 1) → UInt8
  data : Fin maxFileSize → UInt8
  size : Nat
  type : NodeType
  parent : Int

/-- `files`. -/
abbrev Files := Fin maxFiles → MemNode

/-- The fields of `struct stat` that `memfs_getattr` sets. -/
structure Stat where
  mode : Nat
  nlink : Nat
  size : Nat
  deriving DecidableEq

/-- `memset(stbuf, 0, ...)`. -/
def Stat.zero : Stat := { mode := 0, nlink := 0, size := 0 }

/-- `S_IFDIR | 0755`, two links. -/
def Stat.root : Stat := { mode := 0o040755, nlink := 2, size := 0 }

/-- `S_IFREG | 0644`, one link. -/
def Stat.file (size : Nat) : Stat := { mode := 0o100644, nlink := 1, size := size }

/-! ## Strings and buffers -/

/-- The C string an array holds: its bytes up to the first NUL. -/
def cstr {n : Nat} (a : Fin n → UInt8) : Bytes := (List.ofFn a).takeWhile (· ≠ 0)

/-- `strncpy(dst, src, n)`: `n` bytes of the source, filled up with NUL. -/
def strncpy {k : Nat} (dst : Fin k → UInt8) (src : Bytes) (n : Nat) : Fin k → UInt8 :=
  fun i => if i.val < n then src.getD i.val 0 else dst i

/-- `memcpy(data + offset, buf, size)`, when it stays inside the buffer. -/
def copyIn {k : Nat} (data : Fin k → UInt8) (offset : Nat) (buf : Nat → UInt8) (size : Nat) : Option (Fin k → UInt8) :=
  if offset + size ≤ k then
    some (fun i => if offset ≤ i.val ∧ i.val < offset + size then buf (i.val - offset) else data i)
  else none

/-- `memcpy(buf, data + offset, size)`, when it stays inside the buffer. -/
def copyOut {k : Nat} (data : Fin k → UInt8) (offset size : Nat) : Option Bytes :=
  if offset + size ≤ k then some (((List.ofFn data).drop offset).take size) else none

/-- A buffer with these bytes in front. -/
def bufferOf (bytes : Bytes) : Nat → UInt8 := fun i => bytes.getD i 0

/-- `memset(data + start, 0, size)`. -/
def zeroFill {k : Nat} (data : Fin k → UInt8) (start size : Nat) : Fin k → UInt8 :=
  fun i => if start ≤ i.val ∧ i.val < start + size then 0 else data i

/-! ## The helper functions -/

/-- The name of the file in a slot. -/
def MemNode.nameOf (node : MemNode) : Bytes := cstr node.name

/-- `find_file`: the first slot in use with this name. -/
def findFile (files : Files) (name : Bytes) : Option (Fin maxFiles) :=
  (List.finRange maxFiles).find? (fun i => (files i).used && (files i).nameOf == name)

/-- `find_file` as its loop runs, from a list of slots on, with `strcmp` on the arrays. No result when a comparison reads past the
end of an array. -/
def findFileLoop (files : Files) (name : Bytes) : List (Fin maxFiles) → Option (Option (Fin maxFiles))
  | [] => some none
  | i :: is =>
    if (files i).used then
      match strcmp (List.ofFn (files i).name) (name ++ [0]) with
      | none => none
      | some d => if d = 0 then some (some i) else findFileLoop files name is
    else findFileLoop files name is

/-- `find_file`, byte by byte. -/
def findFileBytes (files : Files) (name : Bytes) : Option (Option (Fin maxFiles)) :=
  findFileLoop files name (List.finRange maxFiles)

/-- `find_free_slot`: the first slot not in use. -/
def findFreeSlot (files : Files) : Option (Fin maxFiles) :=
  (List.finRange maxFiles).find? (fun i => !(files i).used)

/-- `path_to_name`: the name behind the leading slash of a path of one level, or the error code. -/
def pathToName (path : Option CString) : Except Int Bytes :=
  match path with
  | none => .error (-ENOENT)
  | some path =>
    match path.bytes with
    | [] => .error (-ENOENT)
    | c :: p =>
      if c ≠ slash then .error (-ENOENT)
      else if p = [] then .error (-EISDIR)
      else if slash ∈ p then .error (-ENOENT)
      else if p.length > maxNameLen then .error (-ENAMETOOLONG)
      else .ok p

/-! ## The callbacks -/

/-- The zeroed static table. -/
def zeroFiles : Files := fun _ =>
  { used := false, name := fun _ => 0, data := fun _ => 0, size := 0, type := .unused, parent := 0 }

/-- `memfs_init`: the root node in slot 0, which stays unused. -/
def memfsInit (files : Files) : Files :=
  Function.update files ⟨0, by decide⟩
    { files ⟨0, by decide⟩ with type := .dir, parent := -1, name := strncpy (files ⟨0, by decide⟩).name [slash] maxNameLen,
                                size := 0 }

/-- `memfs_getattr`. -/
def memfsGetattr (files : Files) (path : CString) : Int × Stat :=
  if path.bytes = [slash] then (0, Stat.root)
  else
    match pathToName (some path) with
    | .error ret => (ret, Stat.zero)
    | .ok name =>
      match findFile files name with
      | none => (-ENOENT, Stat.zero)
      | some idx => (0, Stat.file (files idx).size)

/-- `"."`. -/
def dot : Bytes := [46]

/-- `".."`. -/
def dotdot : Bytes := [46, 46]

/-- `memfs_readdir`: the code and the names passed to `filler`. -/
def memfsReaddir (files : Files) (path : CString) : Int × List Bytes :=
  if path.bytes ≠ [slash] then (-ENOENT, [])
  else (0, dot :: dotdot :: ((List.finRange maxFiles).filter (fun i => (files i).used)).map (fun i => (files i).nameOf))

/-- `memfs_create`. -/
def memfsCreate (files : Files) (path : CString) : Files × Int :=
  match pathToName (some path) with
  | .error ret => (files, ret)
  | .ok name =>
    match findFile files name with
    | some _ => (files, -EEXIST)
    | none =>
      match findFreeSlot files with
      | none => (files, -ENOSPC)
      | some idx =>
        let name' := strncpy (files idx).name name maxNameLen
        (Function.update files idx
          { files idx with used := true, name := Function.update name' ⟨maxNameLen, by decide⟩ 0, size := 0,
                           data := fun _ => 0 }, 0)

/-- `memfs_open`. -/
def memfsOpen (files : Files) (path : CString) : Int :=
  match pathToName (some path) with
  | .error ret => ret
  | .ok name =>
    match findFile files name with
    | none => -ENOENT
    | some _ => 0

/-- `memfs_read`: the code and the bytes copied. -/
def memfsRead (files : Files) (path : CString) (size : Nat) (offset : Int) : Option (Int × Bytes) :=
  match pathToName (some path) with
  | .error ret => some (ret, [])
  | .ok name =>
    match findFile files name with
    | none => some (-ENOENT, [])
    | some idx =>
      if offset < 0 then some (-EINVAL, [])
      else if offset.toNat ≥ (files idx).size then some (0, [])
      else
        let avail := (files idx).size - offset.toNat
        let size := if size > avail then avail else size
        match copyOut (files idx).data offset.toNat size with
        | none => none
        | some bytes => some (Word.toInt32 size, bytes)

/-- `memfs_write`. The limit is tested on the signed sum of the offset and the size cast to a signed word. -/
def memfsWrite (files : Files) (path : CString) (buf : Nat → UInt8) (size : Nat) (offset : Int) : Option (Files × Int) :=
  match pathToName (some path) with
  | .error ret => some (files, ret)
  | .ok name =>
    match findFile files name with
    | none => some (files, -ENOENT)
    | some idx =>
      if offset < 0 then some (files, -EINVAL)
      else if offset.toNat ≥ maxFileSize then some (files, -EFBIG)
      else
        let size := if Word.addInt offset (Word.toInt size) > maxFileSize then maxFileSize - offset.toNat else size
        if size = 0 then some (files, -EFBIG)
        else
          match copyIn (files idx).data offset.toNat buf size with
          | none => none
          | some data =>
            let size' := if Word.add offset.toNat size > (files idx).size then Word.add offset.toNat size else (files idx).size
            some (Function.update files idx { files idx with data := data, size := size' }, Word.toInt32 size)

/-- `memfs_truncate`. -/
def memfsTruncate (files : Files) (path : CString) (size : Int) : Files × Int :=
  match pathToName (some path) with
  | .error ret => (files, ret)
  | .ok name =>
    match findFile files name with
    | none => (files, -ENOENT)
    | some idx =>
      if size < 0 then (files, -EINVAL)
      else if size > maxFileSize then (files, -EFBIG)
      else
        let data :=
          if size.toNat > (files idx).size then zeroFill (files idx).data (files idx).size (size.toNat - (files idx).size)
          else (files idx).data
        (Function.update files idx { files idx with data := data, size := size.toNat }, 0)

/-- `memfs_unlink`. -/
def memfsUnlink (files : Files) (path : CString) : Files × Int :=
  match pathToName (some path) with
  | .error ret => (files, ret)
  | .ok name =>
    match findFile files name with
    | none => (files, -ENOENT)
    | some idx =>
      (Function.update files idx { files idx with used := false, name := fun _ => 0, data := fun _ => 0, size := 0 }, 0)

/-! ## Calls and runs -/

/-- A call of one of the callbacks. -/
inductive Op where
  | getattr (path : CString)
  | readdir (path : CString)
  | create (path : CString)
  | openFile (path : CString)
  | read (path : CString) (size : Nat) (offset : Int)
  | write (path : CString) (buf : Nat → UInt8) (size : Nat) (offset : Int)
  | truncate (path : CString) (size : Int)
  | unlink (path : CString)

/-- What a call gives back: its return code, and the attributes, the listing or the bytes it filled in. -/
inductive Reply where
  | code (ret : Int)
  | attr (ret : Int) (stat : Stat)
  | listing (ret : Int) (names : List Bytes)
  | bytes (ret : Int) (data : Bytes)
  deriving DecidableEq

/-- One call. -/
def step (files : Files) : Op → Option (Files × Reply)
  | .getattr path => some (files, .attr (memfsGetattr files path).1 (memfsGetattr files path).2)
  | .readdir path => some (files, .listing (memfsReaddir files path).1 (memfsReaddir files path).2)
  | .create path => some ((memfsCreate files path).1, .code (memfsCreate files path).2)
  | .openFile path => some (files, .code (memfsOpen files path))
  | .read path size offset => (memfsRead files path size offset).map (fun r => (files, .bytes r.1 r.2))
  | .write path buf size offset => (memfsWrite files path buf size offset).map (fun r => (r.1, .code r.2))
  | .truncate path size => some ((memfsTruncate files path size).1, .code (memfsTruncate files path size).2)
  | .unlink path => some ((memfsUnlink files path).1, .code (memfsUnlink files path).2)

/-- The lengths libfuse writes: below `2 ^ 31`. -/
def Op.Bounded : Op → Prop
  | .write _ _ size _ => size < 2 ^ 31
  | _ => True

/-- A call with its reply, as a step. -/
def Step (files : Files) (l : Op × Reply) (files' : Files) : Prop := l.1.Bounded ∧ step files l.1 = some (files', l.2)

/-- The table `memfs_init` leaves. -/
def initFiles : Files := memfsInit zeroFiles

/-- A sequence of calls: the table after them and the replies, in order. -/
def run (files : Files) : List Op → Option (Files × List Reply)
  | [] => some (files, [])
  | op :: ops =>
    match step files op with
    | none => none
    | some (files, reply) => (run files ops).map (fun r => (r.1, reply :: r.2))

end OsLab.Memfs
