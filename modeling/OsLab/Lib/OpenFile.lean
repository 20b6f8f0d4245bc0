import OsLab.Lib.Bytes

/-!
# An open file and its partial transfers

A file that is open for reading and writing is its bytes, its length and the position of the next transfer. `read` and `write`
may transfer fewer bytes than they were asked for, or fail; which of these is the choice of the system, its `Answer`. Transfers
that follow one another add up (`put_put`, `skip_skip`), so what a loop of partial transfers does depends on their sum only:
`TransferLoop.eq` is the rule for every loop that goes on until so many bytes are transferred.
-/

/-- A file: a byte at every position, zero behind the end, and where the next transfer starts. -/
@[ext] structure OpenFile where
  bytes : Mem
  length : Nat
  pos : Nat
  past_end : ∀ x, length ≤ x → bytes x = 0

namespace OpenFile

/-- Why a call failed: `EINTR`, or another error. -/
inductive Errno where
  | eintr
  | other (code : Nat)
  deriving DecidableEq

/-- What the system does with a call that asks for bytes: it transfers so many of them, or all of them if the call asks for no more
than that; or it does nothing and the call fails. -/
inductive Answer where
  | transfer (n : Nat) (pos : 0 < n)
  | fail (e : Errno)
  deriving DecidableEq

/-- The call goes through, or is interrupted. -/
def Answer.Mild : Answer → Prop
  | .transfer _ _ => True
  | .fail e => e = .eintr

/-- The bytes the system is ready to transfer. -/
def Answer.amount : Answer → Nat
  | .transfer n _ => n
  | .fail _ => 0

/-- The bytes the system is ready to transfer in all. -/
def offered (as : List Answer) : Nat := (as.map Answer.amount).sum

/-! ## Calls -/

/-- A file just created, or opened with `O_TRUNC`. -/
def empty : OpenFile := { bytes := fun _ => 0, length := 0, pos := 0, past_end := fun _ _ => rfl }

/-- `ftruncate(fd, n)`: the file is cut, or grows by zeros. -/
def ftruncate (f : OpenFile) (n : Nat) : OpenFile where
  bytes := fun x => if x < n then f.bytes x else 0
  length := n
  pos := f.pos
  past_end := fun _ hx => if_neg (Nat.not_lt.2 hx)

/-- `lseek(fd, offset, SEEK_SET)`. -/
def lseek (f : OpenFile) (offset : Nat) : OpenFile := { f with pos := offset }

/-- So many bytes at `b` go to the file. Beyond its end the file grows; a transfer of no bytes does nothing. -/
def put (f : OpenFile) (mem : Mem) (b n : Nat) : OpenFile where
  bytes := f.bytes.copy f.pos mem b n
  length := if n = 0 then f.length else max f.length (f.pos + n)
  pos := f.pos + n
  past_end := by
    intro x hx
    rw [Mem.copy_outside]
    · refine f.past_end x ?_
      split at hx <;> omega
    · split at hx <;> omega

/-- The position moves on by so many bytes. -/
def skip (f : OpenFile) (n : Nat) : OpenFile := { f with pos := f.pos + n }

/-- `write(fd, b, count)`: what it returns, and the file then. -/
def write (f : OpenFile) (mem : Mem) (b count : Nat) : Answer → Except Errno Nat × OpenFile
  | .transfer k _ => (.ok (min k count), f.put mem b (min k count))
  | .fail e => (.error e, f)

/-- `read(fd, b, count)`: what it returns, the memory and the file then. It returns 0 at the end of the file. -/
def read (f : OpenFile) (mem : Mem) (b count : Nat) : Answer → Except Errno Nat × Mem × OpenFile
  | .transfer k _ =>
    let n := min k (min count (f.length - f.pos))
    (.ok n, mem.copy b f.bytes f.pos n, f.skip n)
  | .fail e => (.error e, mem, f)

/-! ## Transfers add up -/

variable (f : OpenFile) (mem : Mem) (b n m offset : Nat)

@[simp] theorem offered_nil : offered [] = 0 := rfl

@[simp] theorem offered_cons (a : Answer) (as : List Answer) : offered (a :: as) = a.amount + offered as := by
  simp [offered]

@[simp] theorem lseek_bytes : (f.lseek offset).bytes = f.bytes := rfl

@[simp] theorem lseek_length : (f.lseek offset).length = f.length := rfl

@[simp] theorem lseek_pos : (f.lseek offset).pos = offset := rfl

@[simp] theorem skip_bytes : (f.skip n).bytes = f.bytes := rfl

@[simp] theorem skip_length : (f.skip n).length = f.length := rfl

@[simp] theorem skip_pos : (f.skip n).pos = f.pos + n := rfl

@[simp] theorem skip_zero : f.skip 0 = f := rfl

@[simp] theorem skip_skip : (f.skip n).skip m = f.skip (n + m) := by
  ext <;> simp [Nat.add_assoc]

@[simp] theorem put_bytes : (f.put mem b n).bytes = f.bytes.copy f.pos mem b n := rfl

@[simp] theorem put_pos : (f.put mem b n).pos = f.pos + n := rfl

@[simp] theorem put_zero : f.put mem b 0 = f := by
  ext <;> simp [put]

/-- Two transfers, one behind the other, are one. -/
theorem put_put : (f.put mem b n).put mem (b + n) m = f.put mem b (n + m) := by
  ext x
  · simp
  · simp only [put]
    split <;> split <;> split <;> omega
  · simp [Nat.add_assoc]

variable {f mem b n}

/-- A transfer inside the file leaves its length. -/
theorem put_length (h : f.pos + n ≤ f.length) : (f.put mem b n).length = f.length := by
  simp only [put]
  split
  · rfl
  · exact Nat.max_eq_left h

/-! ## Loops -/

/-- A loop that uses up the answers until `n` bytes are done. It starts a call again that was interrupted, and `move s done c` is
its state after a transfer of `c` bytes; what the loop needs of its state (`ok`) is kept. -/
structure TransferLoop {σ ρ : Type*} (loop : List Answer → σ → Nat → ρ) (n : Nat) (ok : σ → Nat → Prop)
    (move : σ → Nat → Nat → σ) (returned : σ → ρ) (waiting : σ → Nat → ρ) : Prop where
  ends : ∀ as s, loop as s n = returned s
  waits : ∀ s done, done < n → loop [] s done = waiting s done
  retries : ∀ as s done, done < n → loop (.fail .eintr :: as) s done = loop as s done
  transfers : ∀ as s done k hk, done < n → ok s done →
    loop (.transfer k hk :: as) s done = loop as (move s done (min k (n - done))) (done + min k (n - done))
  keeps : ∀ s done c, done + c ≤ n → ok s done → ok (move s done c) (done + c)
  move_zero : ∀ s done, move s done 0 = s
  move_move : ∀ s done c d, move (move s done c) (done + c) d = move s done (c + d)

/-- Such a loop returns as soon as the answers offer the bytes that are left, and has then transferred these. -/
theorem TransferLoop.eq {σ ρ : Type*} {loop : List Answer → σ → Nat → ρ} {n : Nat} {ok : σ → Nat → Prop}
    {move : σ → Nat → Nat → σ} {returned : σ → ρ} {waiting : σ → Nat → ρ}
    (h : TransferLoop loop n ok move returned waiting) {as : List Answer} (hm : ∀ a ∈ as, a.Mild) {s : σ} {done : Nat}
    (hd : done ≤ n) (hok : ok s done) :
    loop as s done = if n ≤ done + offered as then returned (move s done (n - done))
      else waiting (move s done (offered as)) (done + offered as) := by
  induction as generalizing s done with
  | nil =>
    rcases Nat.lt_or_eq_of_le hd with hlt | rfl
    · simp [h.waits s done hlt, h.move_zero, Nat.not_le.2 hlt]
    · simp [h.ends, h.move_zero]
  | cons a as ih =>
    have hm' : ∀ a ∈ as, a.Mild := fun a ha => hm a (List.mem_cons_of_mem _ ha)
    rcases Nat.lt_or_eq_of_le hd with hlt | rfl
    · cases a with
      | fail e =>
        obtain rfl : e = .eintr := hm _ List.mem_cons_self
        rw [h.retries as s done hlt, ih hm' hd hok]
        simp [Answer.amount]
      | transfer k hk =>
        have hle : done + min k (n - done) ≤ n := by omega
        rw [h.transfers as s done k hk hlt hok, ih hm' hle (h.keeps s done _ hle hok)]
        simp only [h.move_move, offered_cons, Answer.amount]
        by_cases hall : n - done ≤ k
        · -- the call transfers all that is left
          rw [if_pos (by omega), if_pos (by omega)]
          congr 2
          omega
        · rw [Nat.min_eq_left (by omega), Nat.add_assoc done k]
          congr 3
          omega
    · simp [h.ends, h.move_zero]

end OpenFile
