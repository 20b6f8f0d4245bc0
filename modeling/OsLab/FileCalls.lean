import OsLab.NameStore

/-!
# Calls on one file

What a call does to the file under its path, by that file alone: nothing else of the store matters, except that a creation needs
room. The calls made to a file one after the other are answered from the file they find (`File.serve`).
-/

namespace OsLab.Memfs

/-- The path a call is given. -/
def Op.path : Op → CString
  | .getattr path => path
  | .readdir path => path
  | .create path => path
  | .openFile path => path
  | .read path _ _ => path
  | .write path _ _ _ => path
  | .truncate path _ => path
  | .unlink path => path

/-- The same call: a buffer counts only up to the length that is written. -/
def Op.Same : Op → Op → Prop
  | .write path buf size offset, op =>
    ∃ buf', op = .write path buf' size offset ∧ ∀ k, k < size → buf k = buf' k
  | op, op' => op = op'

/-- What a call does to the file that is under its path, and answers. -/
def File.call (f : File) : Op → Option File × Answer
  | .getattr _ => (some f, .attr 0 (Stat.file f.size))
  | .readdir _ => (some f, .listing (-ENOENT) ∅)
  | .create _ => (some f, .code (-EEXIST))
  | .openFile _ => (some f, .code 0)
  | .read _ size offset =>
    if offset < 0 then (some f, .bytes (-EINVAL) [])
    else (some f, .bytes (min size (f.size - offset.toNat) : Nat) (f.read size offset.toNat))
  | .write _ buf size offset =>
    if offset < 0 then (some f, .code (-EINVAL))
    else if offset.toNat ≥ maxFileSize ∨ size = 0 then (some f, .code (-EFBIG))
    else
      (some (f.write buf (min size (maxFileSize - offset.toNat)) offset.toNat),
        .code (min size (maxFileSize - offset.toNat) : Nat))
  | .truncate _ size =>
    if size < 0 then (some f, .code (-EINVAL))
    else if size > maxFileSize then (some f, .code (-EFBIG))
    else (some (f.truncate size.toNat), .code 0)
  | .unlink _ => (none, .code 0)

/-- What a call does where there is no file under its path: a creation makes one, if there is room. -/
def Op.absent (full : Bool) : Op → Option File × Answer
  | .getattr _ => (none, .attr (-ENOENT) Stat.zero)
  | .readdir _ => (none, .listing (-ENOENT) ∅)
  | .create _ => if full then (none, .code (-ENOSPC)) else (some File.empty, .code 0)
  | .read _ _ _ => (none, .bytes (-ENOENT) [])
  | _ => (none, .code (-ENOENT))

/-- What a call does to what is under its path, and answers. -/
def Op.act (op : Op) (full : Bool) : Option File → Option File × Answer
  | none => op.absent full
  | some f => f.call op

/-- Calls on a file, one after the other, until it is unlinked: what is left of it, and the answers in order. -/
def File.serve (f : File) (ops : List Op) : Option File × List Answer :=
  ops.foldl (fun p op =>
    match p.1 with
    | none => p
    | some g => ((g.call op).1, p.2 ++ [(g.call op).2])) (some f, [])

/-- The calls of a run on a path, with their replies. -/
def callsOn (path : CString) (tr : List (Op × Reply)) : List (Op × Reply) :=
  tr.filter (fun l => decide (l.1.path.bytes = path.bytes))

/-- The same reply, listings in any order. -/
def Reply.Alike : Reply → Reply → Prop
  | .listing ret names, reply => ∃ names', reply = .listing ret names' ∧ names.Perm names'
  | reply, reply' => reply = reply'

end OsLab.Memfs
