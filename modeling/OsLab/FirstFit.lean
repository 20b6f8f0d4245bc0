import OsLab.Malloc

/-!
# First fit over a list of blocks

What the allocator is for, with no memory in it: a request takes the first block of the list that is free and large enough,
whole or cut, and when there is none the list grows by a block at the break or the request is refused. `my_malloc` does this to
the list its headers spell (`myMalloc_firstFit`).
-/

namespace OsLab.Malloc

/-- A block as its header describes it. -/
structure Block where
  addr : Nat
  size : Nat
  free : Bool
  deriving DecidableEq

/-- Where the payload of a block starts: the pointer `my_malloc` returns for it. -/
def Block.payload (b : Block) : Nat := b.addr + metaSize

/-- Where a block ends. -/
def Block.stop (b : Block) : Nat := b.addr + metaSize + b.size

/-- The address is in the header of the block. -/
def Block.InHeader (b : Block) (x : Nat) : Prop := b.addr ≤ x ∧ x < b.addr + metaSize

/-- The address is in the extent of the block, header or payload. -/
def Block.InExtent (b : Block) (x : Nat) : Prop := b.addr ≤ x ∧ x < b.stop

/-- The block can serve a request: it is free and large enough. -/
def Block.Fits (size : Nat) (b : Block) : Prop := b.free = true ∧ size ≤ b.size

instance (size : Nat) (b : Block) : Decidable (b.Fits size) := inferInstanceAs (Decidable (_ ∧ _))

/-- What stands in the list for a block that has served a request: the block taken whole, or cut to the size with the rest free
behind it. -/
def Block.taken (size : Nat) (b : Block) : List Block :=
  if b.size ≤ size + metaSize then [{ b with free := false }]
  else
    [{ b with size := size, free := false },
      { addr := b.payload + size, size := b.size - size - metaSize, free := true }]

/-- One request of `size` bytes to a list of blocks below the break: the list after it and the pointer returned. -/
inductive FirstFit (brk size : Nat) : List Block → List Block → Nat → Prop where
  | whole {pre post : List Block} {b : Block} (hpre : ∀ c ∈ pre, ¬c.Fits size) (hb : b.Fits size)
      (hs : b.size ≤ size + metaSize) :
      FirstFit brk size (pre ++ b :: post) (pre ++ { b with free := false } :: post) b.payload
  | split {pre post : List Block} {b : Block} (hpre : ∀ c ∈ pre, ¬c.Fits size) (hb : b.Fits size)
      (hs : size + metaSize < b.size) :
      FirstFit brk size (pre ++ b :: post)
        (pre ++ { b with size := size, free := false } ::
          { addr := b.payload + size, size := b.size - size - metaSize, free := true } :: post) b.payload
  | extend {bs : List Block} (hbs : ∀ c ∈ bs, ¬c.Fits size) :
      FirstFit brk size bs (bs ++ [{ addr := brk, size := size, free := false }]) (brk + metaSize)
  | refuse {bs : List Block} (hbs : ∀ c ∈ bs, ¬c.Fits size) : FirstFit brk size bs bs 0

/-- Freeing the block of a pointer: its flag, and nothing else of the list. -/
def freeAt (p : Nat) (bs : List Block) : List Block :=
  bs.map (fun b => if b.payload = p then { b with free := true } else b)

end OsLab.Malloc
