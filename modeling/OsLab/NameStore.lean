import OsLab.Memfs
import Mathlib.Data.Finmap

/-!
# A plain store of named files

What the file system is for, with no slots in it: a finite map of at most 64 entries from names to files, a file being a size
and a buffer of 4096 bytes. `Store.step` is what every call should do to the map and answer. A listing is a set of names.
-/

namespace OsLab.Memfs

/-- A file: its size and its buffer. -/
@[ext] structure File where
  size : Nat
  data : Fin maxFileSize → UInt8

namespace File

/-- A new file. -/
def empty : File := { size := 0, data := fun _ => 0 }

/-- The `n` bytes of `buf` put at `offset`; the file grows to hold them. -/
def write (f : File) (buf : Nat → UInt8) (n offset : Nat) : File :=
  { size := max f.size (offset + n)
    data := fun i => if offset ≤ i.val ∧ i.val < offset + n then buf (i.val - offset) else f.data i }

/-- The file cut or grown to a length; the part gained is zero. -/
def truncate (f : File) (length : Nat) : File :=
  { size := length, data := fun i => if f.size ≤ i.val ∧ i.val < length then 0 else f.data i }

/-- At most `n` bytes of the file from `offset` on. -/
def read (f : File) (n offset : Nat) : Bytes := ((List.ofFn f.data).drop offset).take (min n (f.size - offset))

end File

/-- The file in a slot. -/
def MemNode.file (node : MemNode) : File := { size := node.size, data := node.data }

/-- The slot with another file in it. -/
def MemNode.setFile (node : MemNode) (f : File) : MemNode := { node with data := f.data, size := f.size }

section SetFile

variable (node : MemNode) (f g : File)

@[simp] theorem MemNode.setFile_used : (node.setFile f).used = node.used := rfl

@[simp] theorem MemNode.setFile_name : (node.setFile f).name = node.name := rfl

@[simp] theorem MemNode.setFile_size : (node.setFile f).size = f.size := rfl

@[simp] theorem MemNode.file_setFile : (node.setFile f).file = f := rfl

@[simp] theorem MemNode.setFile_file : node.setFile node.file = node := rfl

@[simp] theorem MemNode.setFile_setFile : (node.setFile f).setFile g = node.setFile g := rfl

end SetFile

/-- A name a file can have: one level, not empty, at most 127 bytes. -/
def ValidName (name : Bytes) : Prop := name ≠ [] ∧ name.length ≤ maxNameLen ∧ slash ∉ name ∧ (0 : UInt8) ∉ name

instance (name : Bytes) : Decidable (ValidName name) := inferInstanceAs (Decidable (_ ∧ _))

/-- The store: at most 64 files, under valid names, of at most 4096 bytes. -/
structure Store where
  map : Finmap (fun _ : Bytes => File)
  name_valid : ∀ name ∈ map, ValidName name
  size_le : ∀ name f, map.lookup name = some f → f.size ≤ maxFileSize
  card_le : map.keys.card ≤ maxFiles

/-- The answer of the store to a call. -/
inductive Answer where
  | code (ret : Int)
  | attr (ret : Int) (stat : Stat)
  | listing (ret : Int) (names : Finset Bytes)
  | bytes (ret : Int) (data : Bytes)

namespace Store

/-- No files. -/
def empty : Store where
  map := ∅
  name_valid := by
    intro name h
    exact absurd h Finmap.notMem_empty
  size_le := by
    intro name f h
    cases h
  card_le := Nat.zero_le _

/-- The file can be put under the name: both are admissible and there is room. -/
def Admits (s : Store) (name : Bytes) (f : File) : Prop :=
  ValidName name ∧ f.size ≤ maxFileSize ∧ (name ∈ s.map ∨ s.map.keys.card < maxFiles)

/-- The names after an insertion. -/
theorem keys_insert (m : Finmap (fun _ : Bytes => File)) (name : Bytes) (f : File) :
    (m.insert name f).keys = insert name m.keys := by
  ext k
  rw [Finmap.mem_keys, Finmap.mem_insert, Finset.mem_insert, Finmap.mem_keys]

open Classical in
/-- The store with the file under the name, where it admits it. -/
noncomputable def put (s : Store) (name : Bytes) (f : File) : Store :=
  if h : s.Admits name f then
    { map := s.map.insert name f
      name_valid := by
        intro k hk
        rcases Finmap.mem_insert.1 hk with rfl | hk
        · exact h.1
        · exact s.name_valid k hk
      size_le := by
        intro k g hg
        by_cases hk : k = name
        · subst hk
          rw [Finmap.lookup_insert] at hg
          obtain rfl : f = g := by simpa using hg
          exact h.2.1
        · rw [Finmap.lookup_insert_of_ne _ hk] at hg
          exact s.size_le k g hg
      card_le := by
        rw [keys_insert]
        rcases h.2.2 with hm | hc
        · rw [Finset.insert_eq_of_mem (Finmap.mem_keys.2 hm)]
          exact s.card_le
        · exact Nat.le_trans (Finset.card_insert_le _ _) hc }
  else s

/-- The store without the name. -/
def remove (s : Store) (name : Bytes) : Store where
  map := s.map.erase name
  name_valid := by
    intro k hk
    exact s.name_valid k (Finmap.mem_erase.1 hk).2
  size_le := by
    intro k f hf
    by_cases hk : k = name
    · subst hk
      rw [Finmap.lookup_erase] at hf
      cases hf
    · rw [Finmap.lookup_erase_ne hk] at hf
      exact s.size_le k f hf
  card_le := by
    rw [Finmap.keys_erase]
    exact Nat.le_trans (Finset.card_erase_le) s.card_le

/-- A call on a file: `path_to_name`'s error on a malformed path, `ENOENT` on an absent name, else what is done to the file. -/
def onFile (s : Store) (path : CString) (fail : Int → Answer) (act : Bytes → File → Store × Answer) : Store × Answer :=
  match pathToName (some path) with
  | .error ret => (s, fail ret)
  | .ok name =>
    match s.map.lookup name with
    | none => (s, fail (-ENOENT))
    | some f => act name f

open Classical in
/-- What a call does to the store and answers. -/
noncomputable def step (s : Store) : Op → Store × Answer
  | .getattr path =>
    if path.bytes = [slash] then (s, .attr 0 Stat.root)
    else s.onFile path (.attr · Stat.zero) (fun _ f => (s, .attr 0 (Stat.file f.size)))
  | .readdir path =>
    if path.bytes = [slash] then (s, .listing 0 s.map.keys) else (s, .listing (-ENOENT) ∅)
  | .create path =>
    match pathToName (some path) with
    | .error ret => (s, .code ret)
    | .ok name =>
      if name ∈ s.map then (s, .code (-EEXIST))
      else if s.map.keys.card = maxFiles then (s, .code (-ENOSPC))
      else (s.put name File.empty, .code 0)
  | .openFile path => s.onFile path .code (fun _ _ => (s, .code 0))
  | .read path size offset =>
    s.onFile path (.bytes · []) (fun _ f =>
      if offset < 0 then (s, .bytes (-EINVAL) [])
      else (s, .bytes (min size (f.size - offset.toNat) : Nat) (f.read size offset.toNat)))
  | .write path buf size offset =>
    s.onFile path .code (fun name f =>
      if offset < 0 then (s, .code (-EINVAL))
      else if offset.toNat ≥ maxFileSize ∨ size = 0 then (s, .code (-EFBIG))
      else
        let n := min size (maxFileSize - offset.toNat)
        (s.put name (f.write buf n offset.toNat), .code n))
  | .truncate path size =>
    s.onFile path .code (fun name f =>
      if size < 0 then (s, .code (-EINVAL))
      else if size > maxFileSize then (s, .code (-EFBIG))
      else (s.put name (f.truncate size.toNat), .code 0))
  | .unlink path => s.onFile path .code (fun name _ => (s.remove name, .code 0))

/-- A sequence of calls: the store after them and the answers, in order. -/
noncomputable def run (s : Store) : List Op → Store × List Answer
  | [] => (s, [])
  | op :: ops => (((s.step op).1.run ops).1, (s.step op).2 :: ((s.step op).1.run ops).2)

end Store

/-- A reply is the answer of the store: the same code and data. A listing has the two directory entries and then every name of
the set once. -/
def Reply.Is : Reply → Answer → Prop
  | .code ret, .code ret' => ret = ret'
  | .attr ret stat, .attr ret' stat' => ret = ret' ∧ stat = stat'
  | .listing ret names, .listing ret' set =>
    ret = ret' ∧ if ret' = 0 then ∃ l, names = dot :: dotdot :: l ∧ l.Nodup ∧ ∀ name, name ∈ l ↔ name ∈ set else names = []
  | .bytes ret data, .bytes ret' data' => ret = ret' ∧ data = data'
  | _, _ => False

end OsLab.Memfs
