import OsLab.Malloc
import Mathlib.Logic.Function.Basic

/-!
# The interposed functions of `os_lab4/hook_malloc.c`

`malloc`, `free`, `calloc` and `realloc`, as the threads of a process call them. The calls of `my_malloc` and `my_free` stand
between `pthread_mutex_lock` and `pthread_mutex_unlock`, so each is one step. The rest is done without the lock, and steps of other
threads come in between: `realloc` reads the header of the old block, and `memset` and `memcpy` go byte by byte.

The process is a program (`Prog`: the heap and the live allocations) and a place for each thread. A thread works on the pointers
its place holds; the others leave those alone. The messages the functions print are left out.
-/

namespace OsLab.HookMalloc

open OsLab.Malloc

/-- `SIZE_MAX`. -/
def sizeMax : Nat := 2 ^ 64 - 1

/-- Where a thread is: in the program, at the lock of a function or at the statement named, in a loop with the bytes done, or at
the return with the result. -/
inductive Pc where
  | program
  | malloc (size : Nat)
  | free (ptr : Nat)
  | calloc (nmemb size : Nat)
  | callocMalloc (total : Nat)
  | memset (ptr total i : Nat)
  | realloc (ptr size : Nat)
  | reallocMalloc (ptr size : Nat)
  | reallocCopy (ptr newPtr : Nat)
  | memcpy (ptr newPtr count i : Nat)
  | reallocFree (ptr newPtr : Nat)
  | reallocNull (ptr : Nat)
  | ret (p : Nat)
  deriving DecidableEq

/-- The pointers a thread works on. -/
def Pc.pointers : Pc → List Nat
  | .free ptr => [ptr]
  | .memset ptr _ _ => [ptr]
  | .realloc ptr _ => [ptr]
  | .reallocMalloc ptr _ => [ptr]
  | .reallocCopy ptr newPtr => [ptr, newPtr]
  | .memcpy ptr newPtr _ _ => [ptr, newPtr]
  | .reallocFree ptr newPtr => [ptr, newPtr]
  | .reallocNull ptr => [ptr]
  | .ret p => [p]
  | _ => []

/-- The thread works on this pointer, which is not `NULL`. -/
def Pc.Holds (pc : Pc) (p : Nat) : Prop := p ≠ 0 ∧ p ∈ pc.pointers

/-- The size the thread is about to ask `my_malloc` for. -/
def Pc.asks : Pc → Option Nat
  | .malloc size => some size
  | .callocMalloc total => some total
  | .reallocMalloc _ size => some size
  | _ => none

/-- What the call at the place returns, where it returns. -/
def Pc.result : Pc → Option Nat
  | .reallocNull _ => some 0
  | .ret p => some p
  | _ => none

/-! ## The functions -/

/-- `my_malloc(size)` under the lock, and where the thread goes on with the pointer. -/
def lockedMalloc (fuel : Nat) (grant : Bool) (s : Prog) (size : Nat) (k : Nat → Pc) : Option (Prog × Pc) :=
  match myMalloc fuel s.heap size grant with
  | none => none
  | some (h, p) => some (⟨h, if p = 0 then s.live else s.live ++ [(p, size)]⟩, k p)

/-- `my_free(ptr)` under the lock. -/
def lockedFree (s : Prog) (ptr : Nat) : Prog := ⟨myFree s.heap ptr, s.live.filter (fun x => x.1 ≠ ptr)⟩

/-- The program holds so many bytes at the pointer from now on. -/
def resize (s : Prog) (ptr size : Nat) : Prog := { s with live := s.live.map (fun x => if x.1 = ptr then (ptr, size) else x) }

/-- The overflow test of `calloc`, and the total it computes. -/
def callocTest (nmemb size : Nat) : Pc :=
  if nmemb ≠ 0 ∧ size > sizeMax / nmemb then .ret 0 else .callocMalloc (Word.mul nmemb size)

/-- `block->size`, for the block of a pointer. -/
def blockSize (s : Prog) (ptr : Nat) : Nat := s.heap.size (Word.sub ptr metaSize)

/-- The tests of `realloc`: it is `malloc(size)` for `NULL` and `free(ptr)` for no bytes, and returns a block that is large
enough. -/
def reallocTest (s : Prog) (ptr size : Nat) : Prog × Pc :=
  if ptr = 0 then (s, .malloc size)
  else if size = 0 then (s, .free ptr)
  else if blockSize s ptr ≥ size then (resize s ptr size, .ret ptr)
  else (s, .reallocMalloc ptr size)

/-- The next step of a thread inside one of the functions. None outside them, at a return, and where the walk of `my_malloc` takes
more than `fuel` steps. -/
def step (fuel : Nat) (grant : Bool) (s : Prog) : Pc → Option (Prog × Pc)
  | .program => none
  | .malloc size => lockedMalloc fuel grant s size .ret
  | .free ptr => if ptr = 0 then some (s, .ret 0) else some (lockedFree s ptr, .ret 0)
  | .calloc nmemb size => some (s, callocTest nmemb size)
  | .callocMalloc total =>
    lockedMalloc fuel grant s total (fun ptr => if ptr ≠ 0 then .memset ptr total 0 else .ret ptr)
  | .memset ptr total i =>
    if i < total then some ({ s with heap := s.heap.store (ptr + i) 0 }, .memset ptr total (i + 1))
    else some (s, .ret ptr)
  | .realloc ptr size => some (reallocTest s ptr size)
  | .reallocMalloc ptr size =>
    lockedMalloc fuel grant s size (fun newPtr => if newPtr = 0 then .reallocNull ptr else .reallocCopy ptr newPtr)
  | .reallocCopy ptr newPtr => some (s, .memcpy ptr newPtr (blockSize s ptr) 0)
  | .memcpy ptr newPtr count i =>
    if i < count then
      some ({ s with heap := s.heap.store (newPtr + i) (s.heap.mem (ptr + i)) }, .memcpy ptr newPtr count (i + 1))
    else some (s, .reallocFree ptr newPtr)
  | .reallocFree ptr newPtr => some (lockedFree s ptr, .ret newPtr)
  | .reallocNull _ => none
  | .ret _ => none

/-! ## Processes -/

/-- A program with the places of its threads. -/
structure Process (ι : Type) where
  prog : Prog
  pc : ι → Pc

/-- A call of one of the functions. -/
inductive Call where
  | malloc (size : Nat)
  | free (ptr : Nat)
  | calloc (nmemb size : Nat)
  | realloc (ptr size : Nat)
  deriving DecidableEq

/-- Where a call starts. -/
def Call.pc : Call → Pc
  | .malloc size => .malloc size
  | .free ptr => .free ptr
  | .calloc nmemb size => .calloc nmemb size
  | .realloc ptr size => .realloc ptr size

/-- What a thread does: it calls a function, takes a step in it, returns from it with a result, or stores a byte; or the break is
raised. -/
inductive Act where
  | call (c : Call)
  | run
  | ret (p : Nat)
  | store (a : Nat) (v : UInt8)
  | raise (n : Nat)
  deriving DecidableEq

namespace Process

variable {ι : Type}

/-- No thread has called a function. -/
def start (mem : Mem) (b : Break) : Process ι := { prog := ⟨Heap.empty mem b, []⟩, pc := fun _ => .program }

/-- Some thread works on the pointer. -/
def Held (s : Process ι) (p : Nat) : Prop := ∃ t, (s.pc t).Holds p

/-- The pointer may be passed to `free` or `realloc`: it is `NULL`, or live and not worked on. -/
def MayPass (s : Process ι) (p : Nat) : Prop := p = 0 ∨ (∃ n, (p, n) ∈ s.prog.live) ∧ ¬s.Held p

/-- The call may be made: the sizes are of type `size_t` and a pointer may be passed. -/
def MayCall (s : Process ι) : Call → Prop
  | .malloc size => size < 2 ^ 64
  | .free ptr => s.MayPass ptr
  | .calloc nmemb size => nmemb < 2 ^ 64 ∧ size < 2 ^ 64
  | .realloc ptr size => s.MayPass ptr ∧ size < 2 ^ 64

variable [DecidableEq ι]

/-- The thread goes on at a place. -/
def goto (s : Process ι) (t : ι) (pc : Pc) : Process ι := { s with pc := Function.update s.pc t pc }

end Process

/-- What a thread of a program that keeps to the rules does. It passes live pointers, stores inside live allocations, both of them
while no thread works on them, and asks for sizes that are safe to ask for. -/
inductive HookStep {ι : Type} [DecidableEq ι] : Process ι → ι × Act → Process ι → Prop where
  | call {s : Process ι} {t : ι} (c : Call) (hpc : s.pc t = .program) (hok : s.MayCall c) :
      HookStep s (t, .call c) (s.goto t c.pc)
  | run {s : Process ι} {t : ι} {prog : Prog} {pc : Pc} (fuel : Nat) (grant : Bool)
      (hok : ∀ size, (s.pc t).asks = some size → s.prog.heap.Admits size grant)
      (hs : step fuel grant s.prog (s.pc t) = some (prog, pc)) :
      HookStep s (t, .run) ({ s with prog := prog }.goto t pc)
  | ret {s : Process ι} {t : ι} {p : Nat} (hpc : (s.pc t).result = some p) : HookStep s (t, .ret p) (s.goto t .program)
  | store {s : Process ι} {t : ι} {p n a : Nat} (v : UInt8) (hpc : s.pc t = .program) (hl : (p, n) ∈ s.prog.live)
      (hheld : ¬s.Held p) (h1 : p ≤ a) (h2 : a < p + n) :
      HookStep s (t, .store a v) { s with prog := { s.prog with heap := s.prog.heap.store a v } }
  | raise {s : Process ι} {t : ι} (n : Nat) (hpc : s.pc t = .program) (hn : s.prog.heap.brk + n < 2 ^ 64) :
      HookStep s (t, .raise n) { s with prog := { s.prog with heap := s.prog.heap.raise n } }

/-- The pointer is that of a block in use, with room for so many bytes. -/
def InUse (h : Heap) (p n : Nat) : Prop :=
  ∃ block, InList h block ∧ h.free block = 0 ∧ block + metaSize = p ∧ n ≤ h.size block

end OsLab.HookMalloc
