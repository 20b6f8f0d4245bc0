import OsLab.Lib.Run
import OsLab.Lib.Bytes
import OsLab.Lib.Word

/-!
# The allocator of `os_lab4/my_malloc.c`

Blocks lie in the memory of the process: a header `block_meta` of 24 bytes and the payload behind it. The headers are linked
through their `next` field from `global_base` on. `find_free_block` walks the list, so it takes a bound on the number of
steps (`fuel`) and has no result when the bound is reached; every other function is total.

`sbrk` is the system's: it refuses a call, or returns the break before the call and moves it. `grant` is the system's choice.
The moves it made for the allocator are recorded in `moved`. An address fits in 64 bits and the pointer 0 is `NULL`.
-/

namespace OsLab.Malloc

/-- `META_SIZE`, the size of a `block_meta`: `size` at offset 0 (8 bytes), `free` at 8 (4 bytes and 4 of padding), `next` at 16
(8 bytes). -/
def metaSize : Nat := 24

/-- `(void *)-1`, what a refused `sbrk` returns. -/
def sbrkFailed : Nat := 2 ^ 64 - 1

/-- What the allocator works on: the memory, the program break with the moves `sbrk` made (the break before the call and the
increment, oldest first), and `global_base`. -/
structure Heap where
  mem : Mem
  brk : Nat
  moved : List (Nat × Int)
  globalBase : Nat

namespace Heap

/-- `block->size`. -/
def size (h : Heap) (block : Nat) : Nat := h.mem.loadLE block 8

/-- `block->free`. -/
def free (h : Heap) (block : Nat) : Nat := h.mem.loadLE (block + 8) 4

/-- `block->next`. -/
def next (h : Heap) (block : Nat) : Nat := h.mem.loadLE (block + 16) 8

/-- `block->size = v`. -/
def setSize (h : Heap) (block v : Nat) : Heap := { h with mem := h.mem.storeLE block 8 v }

/-- `block->free = v`. -/
def setFree (h : Heap) (block v : Nat) : Heap := { h with mem := h.mem.storeLE (block + 8) 4 v }

/-- `block->next = v`. -/
def setNext (h : Heap) (block v : Nat) : Heap := { h with mem := h.mem.storeLE (block + 16) 8 v }

end Heap

/-- `sbrk(increment)`: the system refuses, or moves the break by the increment and returns where it was. It never moves the
break out of the address space. -/
def sbrk (h : Heap) (increment : Int) (grant : Bool) : Heap × Nat :=
  if grant ∧ 0 ≤ (h.brk : Int) + increment ∧ (h.brk : Int) + increment < 2 ^ 64 then
    ({ h with brk := ((h.brk : Int) + increment).toNat, moved := h.moved ++ [(h.brk, increment)] }, h.brk)
  else (h, sbrkFailed)

/-- `sbrk(0)`: where the break is. -/
def currentBreak (h : Heap) : Nat := h.brk

/-- `find_free_block`: from `current` on, the first block that is free and large enough, or `NULL`, and the last block passed
over (`*last`). No result when the walk takes more than `fuel` steps. -/
def findFreeBlock (h : Heap) (size : Nat) : Nat → Nat → Nat → Option (Nat × Nat)
  | 0, _, _ => none
  | fuel + 1, last, current =>
    if current ≠ 0 ∧ ¬(h.free current ≠ 0 ∧ h.size current ≥ size) then
      findFreeBlock h size fuel current (h.next current)
    else some (current, last)

/-- `split_block`: cut the block after `size` bytes when what is left holds a header and at least one byte. -/
def splitBlock (h : Heap) (block size : Nat) : Heap :=
  if h.size block ≥ Word.add (Word.add size metaSize) 1 then
    let newBlock := Word.add (Word.add block metaSize) size
    let h := h.setSize newBlock (Word.sub (Word.sub (h.size block) size) metaSize)
    let h := h.setFree newBlock 1
    let h := h.setNext newBlock (h.next block)
    let h := h.setSize block size
    h.setNext block newBlock
  else h

/-- `request_space`: extend the heap by a block of `size` bytes and link it behind `last`; `NULL` when `sbrk` refuses. The block
starts at the break read by `sbrk(0)`; the result of the second call is only compared with `(void *)-1`. Nobody moves the break
between the two calls: the foreign raises of `Step` and `LooseStep` come between calls of the allocator. -/
def requestSpace (h : Heap) (last size : Nat) (grant : Bool) : Heap × Nat :=
  let block := currentBreak h
  let (h, request) := sbrk h (Word.toInt (Word.add metaSize size)) grant
  if request = sbrkFailed then (h, 0)
  else
    let h := h.setSize block size
    let h := h.setFree block 0
    let h := h.setNext block 0
    let h := if last ≠ 0 then h.setNext last block else h
    (h, block)

/-- `my_malloc`: the pointer behind the header of the block found or made, or `NULL`. `grant` is what the system answers if
`sbrk` is called. No result when the walk over the list takes more than `fuel` steps. -/
def myMalloc (fuel : Nat) (h : Heap) (size : Nat) (grant : Bool) : Option (Heap × Nat) :=
  if size = 0 then some (h, 0)
  else if h.globalBase = 0 then
    let (h, block) := requestSpace h 0 size grant
    if block = 0 then some (h, 0)
    else some ({ h with globalBase := block }, Word.add block metaSize)
  else
    match findFreeBlock h size fuel h.globalBase h.globalBase with
    | none => none
    | some (block, last) =>
      if block = 0 then
        let (h, block) := requestSpace h last size grant
        if block = 0 then some (h, 0) else some (h, Word.add block metaSize)
      else
        let h := splitBlock h block size
        let h := h.setFree block 0
        some (h, Word.add block metaSize)

/-- `my_free`: mark the block of the pointer free. -/
def myFree (h : Heap) (ptr : Nat) : Heap :=
  if ptr = 0 then h else h.setFree (Word.sub ptr metaSize) 1

/-- The blocks the links lead to from `global_base`. -/
inductive InList (h : Heap) : Nat → Prop where
  | base : h.globalBase ≠ 0 → InList h h.globalBase
  | next {block : Nat} : InList h block → h.next block ≠ 0 → InList h (h.next block)

/-! ## Programs that use the allocator -/

/-- A program break to start from: an address of the process, so not `NULL`. -/
structure Break where
  addr : Nat
  pos : 0 < addr
  lt : addr < 2 ^ 64

/-- The empty heap: no block yet, whatever the memory holds. -/
def Heap.empty (mem : Mem) (b : Break) : Heap := { mem := mem, brk := b.addr, moved := [], globalBase := 0 }

/-- What happens to a heap: a call of `my_malloc(size)` that returned `p`, a call of `my_free(p)`, the program storing a byte,
and a foreign caller raising the break. -/
inductive Event where
  | malloc (size p : Nat)
  | free (p : Nat)
  | store (a : Nat) (v : UInt8)
  | raise (n : Nat)
  deriving DecidableEq

/-- A foreign caller raises the break. -/
def Heap.raise (h : Heap) (n : Nat) : Heap := { h with brk := h.brk + n }

/-- The program stores a byte. -/
def Heap.store (h : Heap) (a : Nat) (v : UInt8) : Heap := { h with mem := h.mem.set a v }

/-- A program and its heap: the live allocations are the pointers it got and has not freed, with the sizes it asked for. -/
structure Prog where
  heap : Heap
  live : List (Nat × Nat)

/-- A program that keeps to the rules: it frees `NULL` or a live pointer, and stores inside live allocations. -/
inductive Step : Prog → Event → Prog → Prop where
  | malloc {s : Prog} {h : Heap} {p : Nat} (fuel size : Nat) (grant : Bool) (hpos : 0 < size)
      (hsize : size + metaSize < 2 ^ 63) (hm : myMalloc fuel s.heap size grant = some (h, p)) :
      Step s (.malloc size p) ⟨h, if p = 0 then s.live else s.live ++ [(p, size)]⟩
  | freeNull {s : Prog} : Step s (.free 0) ⟨myFree s.heap 0, s.live⟩
  | free {s : Prog} {p n : Nat} (hl : (p, n) ∈ s.live) :
      Step s (.free p) ⟨myFree s.heap p, s.live.filter (fun x => x.1 ≠ p)⟩
  | store {s : Prog} {p n a : Nat} (v : UInt8) (hl : (p, n) ∈ s.live) (h1 : p ≤ a) (h2 : a < p + n) :
      Step s (.store a v) ⟨s.heap.store a v, s.live⟩
  | raise {s : Prog} (n : Nat) (hn : s.heap.brk + n < 2 ^ 64) : Step s (.raise n) ⟨s.heap.raise n, s.live⟩

/-- What one event does to the value last stored at an address: a store there replaces it, and a new allocation that covers the
address has none yet. -/
def storeStep (a : Nat) (last : Option UInt8) : Event → Option UInt8
  | .store x v => if x = a then some v else last
  | .malloc size p => if p ≠ 0 ∧ p ≤ a ∧ a < p + size then none else last
  | .free _ => last
  | .raise _ => last

/-- The value the program stored last at an address since `my_malloc` last handed it out, if it stored one. -/
def lastStore (a : Nat) (tr : List Event) : Option UInt8 := tr.foldl (storeStep a) none

/-- `sbrk` refuses the increment a request of `size` bytes asks for. -/
def Heap.Refuses (h : Heap) (size : Nat) (grant : Bool) : Prop :=
  sbrk h (Word.toInt (Word.add metaSize size)) grant = (h, sbrkFailed)

/-- The request is safe to make: `META_SIZE + size` is a positive signed number of 64 bits, or `sbrk` refuses what it became. -/
def Heap.Admits (h : Heap) (size : Nat) (grant : Bool) : Prop := size + metaSize < 2 ^ 63 ∨ h.Refuses size grant

/-- A program that keeps to the rules but for the sizes: besides its steps, it asks for any number of bytes that `size_t` can
hold, as far as `ok` lets it. -/
inductive SizedStep (ok : Heap → Nat → Bool → Prop) : Prog → Event → Prog → Prop where
  | lawful {s s' : Prog} {e : Event} (hs : Step s e s') : SizedStep ok s e s'
  | malloc {s : Prog} {h : Heap} {p : Nat} (fuel size : Nat) (grant : Bool) (hsize : size < 2 ^ 64)
      (hok : ok s.heap size grant) (hm : myMalloc fuel s.heap size grant = some (h, p)) :
      SizedStep ok s (.malloc size p) ⟨h, if p = 0 then s.live else s.live ++ [(p, size)]⟩

/-- The answer to a request is sound: header and payload of a pointer lie below the break, which has not moved down and is an
address, and share no byte with an allocation live before; with `NULL` the heap is as it was. -/
def Prog.Sound (s : Prog) (size : Nat) (h : Heap) (p : Nat) : Prop :=
  (p ≠ 0 → metaSize ≤ p ∧ p + size ≤ h.brk ∧ h.brk < 2 ^ 64 ∧ s.heap.brk ≤ h.brk ∧
    ∀ x ∈ s.live, ∀ a, x.1 ≤ a → a < x.1 + x.2 → ¬(p - metaSize ≤ a ∧ a < p + size)) ∧
  (p = 0 → h = s.heap)

/-- A heap and every pointer `my_malloc` has returned. -/
structure Loose where
  heap : Heap
  returned : List Nat

/-- A program that frees anything it was ever given: live pointers, pointers already freed, pointers since handed out again. -/
inductive LooseStep : Loose → Event → Loose → Prop where
  | malloc {s : Loose} {h : Heap} {p : Nat} (fuel size : Nat) (grant : Bool) (hpos : 0 < size)
      (hsize : size + metaSize < 2 ^ 63) (hm : myMalloc fuel s.heap size grant = some (h, p)) :
      LooseStep s (.malloc size p) ⟨h, if p = 0 then s.returned else s.returned ++ [p]⟩
  | free {s : Loose} {q : Nat} (hq : q = 0 ∨ q ∈ s.returned) : LooseStep s (.free q) ⟨myFree s.heap q, s.returned⟩
  | raise {s : Loose} (n : Nat) (hn : s.heap.brk + n < 2 ^ 64) : LooseStep s (.raise n) ⟨s.heap.raise n, s.returned⟩

/-- A heap that some program comes to: one that frees anything it was ever given, or one that keeps to the rules and stores in what
it holds. -/
def Heap.Reachable (h : Heap) : Prop :=
  (∃ mem b tr s, Run LooseStep ⟨Heap.empty mem b, []⟩ tr s ∧ s.heap = h) ∨
    ∃ mem b tr s, Run Step ⟨Heap.empty mem b, []⟩ tr s ∧ s.heap = h

/-- A block of the list is free and large enough for a request. -/
def Heap.CanServe (h : Heap) (size block : Nat) : Prop := InList h block ∧ h.free block ≠ 0 ∧ size ≤ h.size block

/-- A request will put no block in the list: the first block that can serve it leaves too little for a header and one byte, so it
is handed out whole, or none can serve it and `sbrk` refuses. -/
def Heap.AddsNoBlock (h : Heap) (size : Nat) (grant : Bool) : Prop :=
  (∃ block, h.CanServe size block ∧ (∀ c, h.CanServe size c → block ≤ c) ∧ h.size block ≤ size + metaSize) ∨
    ((∀ c, ¬h.CanServe size c) ∧ h.Refuses size grant)

/-- A program that frees anything it was ever given while nobody but the allocator moves the break, and that asks for a number of
bytes that is no multiple of 8 only when that puts no block in the list. -/
inductive WordStep : Loose → Event → Loose → Prop where
  | malloc {s : Loose} {h : Heap} {p : Nat} (fuel size : Nat) (grant : Bool) (hpos : 0 < size)
      (hsize : size + metaSize < 2 ^ 63) (hok : 8 ∣ size ∨ s.heap.AddsNoBlock size grant)
      (hm : myMalloc fuel s.heap size grant = some (h, p)) :
      WordStep s (.malloc size p) ⟨h, if p = 0 then s.returned else s.returned ++ [p]⟩
  | free {s : Loose} {q : Nat} (hq : q = 0 ∨ q ∈ s.returned) : WordStep s (.free q) ⟨myFree s.heap q, s.returned⟩

end OsLab.Malloc
