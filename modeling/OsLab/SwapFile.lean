import OsLab.Lib.OpenFile
import OsLab.Lib.Run
import OsLab.Vmem

/-!
# The swap file of `os_lab5/exp5`

`full_write` and `full_read` of `mini_vmem_dirty_tracking.c`, which the other two programs have as well, on a file whose transfers
are partial: a call of `write` or `read` may transfer fewer bytes than it asks for or be interrupted, and the loops go on from the
byte they have reached. The answers the system gives to the calls are a list, and a loop that has used them up is waiting for the
next one.

A process is its memory and the file. What it does to them is a run: it stores bytes, and a page goes to its slot of the file
(`evict_page`) or comes back (`load_page`). `lseek` does not fail, as the offsets are inside the file.
-/

namespace OsLab.Swap

open OsLab.Vmem OpenFile

/-- How the loops end the program: `perror("write swap")`, `perror("read swap")`, and "unexpected EOF while reading swap". -/
inductive Exit where
  | write
  | read
  | eof
  deriving DecidableEq

/-- Where a loop is when the answers are used up: it has returned, it is in the loop with so many bytes done, or it has ended the
program. -/
inductive Outcome (α : Type) where
  | returned (a : α)
  | waiting (a : α) (done : Nat)
  | exited (e : Exit)

def Outcome.map {α β : Type} (g : α → β) : Outcome α → Outcome β
  | .returned a => .returned (g a)
  | .waiting a done => .waiting (g a) done
  | .exited e => .exited e

/-! ## The loops -/

/-- The loop of `full_write`, with so many bytes done. -/
def fullWriteLoop (mem : Mem) (buf nbyte : Nat) : List Answer → OpenFile → Nat → Outcome OpenFile
  | [], f, done => if done < nbyte then .waiting f done else .returned f
  | a :: as, f, done =>
    if done < nbyte then
      match f.write mem (buf + done) (nbyte - done) a with
      | (.error .eintr, f) => fullWriteLoop mem buf nbyte as f done
      | (.error (.other _), _) => .exited .write
      | (.ok n, f) => fullWriteLoop mem buf nbyte as f (done + n)
    else .returned f

/-- `full_write`. -/
def fullWrite (mem : Mem) (buf nbyte : Nat) (as : List Answer) (f : OpenFile) : Outcome OpenFile :=
  fullWriteLoop mem buf nbyte as f 0

/-- The loop of `full_read`, with so many bytes done. -/
def fullReadLoop (buf nbyte : Nat) : List Answer → Mem × OpenFile → Nat → Outcome (Mem × OpenFile)
  | [], s, done => if done < nbyte then .waiting s done else .returned s
  | a :: as, s, done =>
    if done < nbyte then
      match s.2.read s.1 (buf + done) (nbyte - done) a with
      | (.error .eintr, s) => fullReadLoop buf nbyte as s done
      | (.error (.other _), _) => .exited .read
      | (.ok n, s) => if n = 0 then .exited .eof else fullReadLoop buf nbyte as s (done + n)
    else .returned s

/-- `full_read`. -/
def fullRead (buf nbyte : Nat) (as : List Answer) (s : Mem × OpenFile) : Outcome (Mem × OpenFile) :=
  fullReadLoop buf nbyte as s 0

/-! ## Pages -/

/-- A process, with the swap file. -/
structure Process where
  mem : Mem
  file : OpenFile

namespace Process

/-- The process when `init_vmem` has created the file and given it its length. -/
def start (L : Layout) (mem : Mem) : Process :=
  { mem := mem, file := OpenFile.empty.ftruncate (L.pageSize * numVpages) }

/-- The write of `evict_page`: `lseek` to the offset of the page, and `full_write` of the page. -/
def swapOut (L : Layout) (page : Fin numVpages) (as : List Answer) (s : Process) : Outcome Process :=
  (fullWrite s.mem (pageStart L page) L.pageSize as (s.file.lseek (page * L.pageSize))).map (fun f => { s with file := f })

/-- The read of `load_page`: `lseek` to the offset of the page, and `full_read` into the page. -/
def swapIn (L : Layout) (page : Fin numVpages) (as : List Answer) (s : Process) : Outcome Process :=
  (fullRead (pageStart L page) L.pageSize as (s.mem, s.file.lseek (page * L.pageSize))).map (fun r => ⟨r.1, r.2⟩)

/-- The bytes of a page in memory. -/
def frame (L : Layout) (s : Process) (page : Fin numVpages) : Fin L.pageSize → UInt8 := fun o => s.mem (pageStart L page + o)

/-- The bytes of a page in the file. -/
def slot (L : Layout) (s : Process) (page : Fin numVpages) : Fin L.pageSize → UInt8 :=
  fun o => s.file.bytes (page * L.pageSize + o)

end Process

/-! ## Runs -/

/-- What a process does: it stores a byte, or a page goes out or comes in, with the answers of the system. -/
inductive Act where
  | store (addr : Nat) (value : UInt8)
  | swapOut (page : Fin numVpages) (answers : List Answer)
  | swapIn (page : Fin numVpages) (answers : List Answer)

/-- A step of a process. The calls are answered by transfers and by `EINTR`, and the loops have returned. -/
inductive Step (L : Layout) : Process → Act → Process → Prop where
  | store {s : Process} (addr : Nat) (value : UInt8) : Step L s (.store addr value) { s with mem := s.mem.set addr value }
  | swapOut {s s' : Process} {page : Fin numVpages} {as : List Answer} (hm : ∀ a ∈ as, a.Mild)
      (h : s.swapOut L page as = .returned s') : Step L s (.swapOut page as) s'
  | swapIn {s s' : Process} {page : Fin numVpages} {as : List Answer} (hm : ∀ a ∈ as, a.Mild)
      (h : s.swapIn L page as = .returned s') : Step L s (.swapIn page as) s'

end OsLab.Swap
