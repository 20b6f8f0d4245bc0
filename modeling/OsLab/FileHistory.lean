import OsLab.NameStore

/-!
# Files and their history

What a byte of a file should be, by the calls made so far and their replies alone: the byte of the last successful write that
covers the position, since the file was created and since it was last cut at or below the position, and zero if there is none.
-/

namespace OsLab.Memfs

/-- What one call says about position `k` of the file `name`. -/
def explainStep (name : Bytes) (k : Nat) (b : UInt8) : Op × Reply → UInt8
  | (.create path, .code ret) => if path.bytes = slash :: name ∧ ret = 0 then 0 else b
  | (.write path buf _ offset, .code ret) =>
    if path.bytes = slash :: name ∧ 0 < ret ∧ offset ≤ k ∧ k < offset + ret then buf (k - offset.toNat) else b
  | (.truncate path size, .code ret) => if path.bytes = slash :: name ∧ ret = 0 ∧ size ≤ k then 0 else b
  | _ => b

/-- The byte the history explains at position `k` of the file `name`. -/
def explain (name : Bytes) (k : Nat) (tr : List (Op × Reply)) : UInt8 := tr.foldl (explainStep name k) 0

/-- Every byte below the size of the file is the one its history explains. -/
def File.Explained (tr : List (Op × Reply)) (name : Bytes) (f : File) : Prop :=
  ∀ k : Fin maxFileSize, k.val < f.size → f.data k = explain name k tr

/-- If the call is a write that lands in the file beyond its end, the bytes it skips are zero. -/
def File.GapZero (op : Op) (name : Bytes) (f : File) : Prop :=
  match op with
  | .write path _ size offset =>
    pathToName (some path) = .ok name → size ≠ 0 → offset < maxFileSize →
      ∀ k : Fin maxFileSize, f.size ≤ k.val → (k.val : Int) < offset → f.data k = 0
  | _ => True

/-- What holds of every file in the table. -/
def EveryFile (P : Bytes → File → Prop) (files : Files) : Prop :=
  ∀ i, (files i).used = true → P (files i).nameOf (files i).file

/-- Every byte of every file is explained. -/
def Explained (tr : List (Op × Reply)) (files : Files) : Prop := EveryFile (File.Explained tr) files

/-- A call that skips no stale byte: a write beyond the end of a file finds only zeros in between. -/
def CleanStep (files : Files) (l : Op × Reply) (files' : Files) : Prop :=
  Step files l files' ∧ EveryFile (File.GapZero l.1) files

end OsLab.Memfs
