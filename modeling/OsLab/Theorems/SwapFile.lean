import OsLab.SwapFile
import OsLab.Lemmas.VmemPages
import OsLab.Theorems.Vmem

/-!
# Pages in the swap file

Partial transfers add up to whole ones: `full_write` and `full_read` return as soon as the system has offered a page of bytes, and
have then done what `Vm.swapOut` and `Vm.swapIn` do in one step. So a process with partial transfers does what a pager with whole
ones does (`Represents`), and a page that went out comes back as it was.
-/

namespace OsLab.Swap

open OsLab.Vmem OsLab.Vmem.PagesAux OpenFile

variable {L : Layout} {s s' t : Process} {v : Vm} {page : Fin numVpages} {as : List Answer} {a : Act} {tr : List Act}

namespace SwapAux

/-! ## The two loops -/

variable {mem : Mem} {f : OpenFile} {buf nbyte : Nat}

/-- `full_write` is such a loop: it puts what is left, from where it is. -/
theorem fullWrite_loop (mem : Mem) (buf nbyte : Nat) : TransferLoop (fullWriteLoop mem buf nbyte) nbyte (fun _ _ => True)
    (fun f done c => f.put mem (buf + done) c) .returned .waiting where
  ends as s := by cases as <;> simp [fullWriteLoop]
  waits s done hlt := by simp [fullWriteLoop, hlt]
  retries as s done hlt := by simp [fullWriteLoop, hlt, OpenFile.write]
  transfers as s done k hk hlt _ := by simp [fullWriteLoop, hlt, OpenFile.write]
  keeps _ _ _ _ _ := trivial
  move_zero := by simp
  move_move s done c d := by rw [← Nat.add_assoc, put_put]

/-- The bytes that are left to read are in the file. -/
def Holds (nbyte : Nat) (s : Mem × OpenFile) (done : Nat) : Prop := s.2.pos + (nbyte - done) ≤ s.2.length

/-- And `full_read`, over a file that holds enough bytes. -/
theorem fullRead_loop (buf nbyte : Nat) : TransferLoop (fullReadLoop buf nbyte) nbyte (Holds nbyte)
    (fun s done c => (s.1.copy (buf + done) s.2.bytes s.2.pos c, s.2.skip c)) .returned .waiting where
  ends as s := by cases as <;> simp [fullReadLoop]
  waits s done hlt := by simp [fullReadLoop, hlt]
  retries as s done hlt := by simp [fullReadLoop, hlt, OpenFile.read]
  transfers as s done k hk hlt hok := by
    unfold Holds at hok
    -- the file does not end before the request, and the call transfers a byte at least
    have hmin : min k (min (nbyte - done) (s.2.length - s.2.pos)) = min k (nbyte - done) := by omega
    have hpos : min k (nbyte - done) ≠ 0 := by omega
    simp only [fullReadLoop, hlt, if_true, OpenFile.read, hmin, if_neg hpos]
  keeps s done c hle hok := by
    simp only [Holds, skip_pos, skip_length] at hok ⊢
    omega
  move_zero := by simp
  move_move s done c d := by simp [← Nat.add_assoc]

/-- `full_write`, for every list of answers. -/
theorem fullWrite_eq (hm : ∀ a ∈ as, a.Mild) :
    fullWrite mem buf nbyte as f =
      if nbyte ≤ offered as then .returned (f.put mem buf nbyte) else .waiting (f.put mem buf (offered as)) (offered as) := by
  have h := (fullWrite_loop mem buf nbyte).eq hm (s := f) (Nat.zero_le nbyte) trivial
  simpa [fullWrite] using h

/-- `full_read` in a file that is long enough, for every list of answers. -/
theorem fullRead_eq (hm : ∀ a ∈ as, a.Mild) (hlen : f.pos + nbyte ≤ f.length) :
    fullRead buf nbyte as (mem, f) =
      if nbyte ≤ offered as then .returned (mem.copy buf f.bytes f.pos nbyte, f.skip nbyte)
      else .waiting (mem.copy buf f.bytes f.pos (offered as), f.skip (offered as)) (offered as) := by
  have h := (fullRead_loop buf nbyte).eq hm (s := (mem, f)) (Nat.zero_le nbyte) hlen
  simpa [fullRead] using h

/-- In a file that is too short it does reach the end. -/
example : fullRead buf 2 [.transfer 1 (by decide)] (mem, OpenFile.empty) = .exited .eof := rfl

/-! ## Whole transfers -/

/-- The slot of a page ends inside the file. -/
theorem slot_end (L : Layout) (page : Fin numVpages) : page * L.pageSize + L.pageSize ≤ L.pageSize * numVpages := by
  have h : (page.val + 1) * L.pageSize ≤ numVpages * L.pageSize := Nat.mul_le_mul_right _ page.isLt
  rwa [Nat.succ_mul, Nat.mul_comm numVpages] at h

end SwapAux

open SwapAux

/-- A loop over `n` bytes, with these answers, returns when they offer `n` bytes, in a state as described; until then it waits. -/
def Completes (n : Nat) (as : List Answer) (o : Outcome Process) (P : Process → Prop) : Prop :=
  (n ≤ offered as ∧ ∃ s', o = .returned s' ∧ P s') ∨ (offered as < n ∧ ∃ s', o = .waiting s' (offered as))

section Completes

variable {n : Nat} {o : Outcome Process} {P : Process → Prop}

/-- A loop that completes does not exit. -/
theorem Completes.not_exited (h : Completes n as o P) (e : Exit) : o ≠ .exited e := by
  rcases h with ⟨_, s', rfl, _⟩ | ⟨_, s', rfl⟩ <;> simp

/-- It has returned once enough has been offered. -/
theorem Completes.returned_iff (h : Completes n as o P) : (∃ s', o = .returned s') ↔ n ≤ offered as := by
  rcases h with ⟨hle, s', rfl, _⟩ | ⟨hlt, s', rfl⟩
  · exact iff_of_true ⟨s', rfl⟩ hle
  · simpa using hlt

/-- Then it has done its work. -/
theorem Completes.of_returned (h : Completes n as o P) (hr : o = .returned s) : P s := by
  rcases h with ⟨_, s', rfl, hp⟩ | ⟨_, s', rfl⟩
  · obtain rfl := Outcome.returned.inj hr
    exact hp
  · cases hr

/-- A transfer loop inside a call, whose result `g` puts into the process. -/
theorem Completes.of_loop {α : Type} {x y : α} {g : α → Process} (hp : P (g x)) :
    Completes n as (Outcome.map g (if n ≤ offered as then .returned x else .waiting y (offered as))) P := by
  by_cases ho : n ≤ offered as
  · rw [if_pos ho]
    exact Or.inl ⟨ho, g x, rfl, hp⟩
  · rw [if_neg ho]
    exact Or.inr ⟨Nat.lt_of_not_le ho, g y, rfl⟩

end Completes

/-- The process has the memory and the swap file of a pager whose transfers are whole, and the file its length. -/
structure Represents (L : Layout) (s : Process) (v : Vm) : Prop where
  mem : s.mem = v.mem
  swap : s.file.bytes = v.swap
  length : s.file.length = L.pageSize * numVpages

/-- What the act does when transfers are whole. -/
def Act.whole (L : Layout) (v : Vm) : Act → Vm
  | .store addr value => { v with mem := v.mem.set addr value }
  | .swapOut page _ => v.swapOut L page
  | .swapIn page _ => v.swapIn L page

/-- The start represents the start. -/
theorem represents_start (L : Layout) (mem : Mem) : Represents L (Process.start L mem) { initVmem with mem := mem } := by
  refine ⟨rfl, ?_, rfl⟩
  funext x
  exact ite_self 0

/-- The bytes of a frame are the same. -/
theorem Represents.frame_eq (h : Represents L s v) : s.frame L page = (v.pages L page).frame := by
  funext o
  simp only [Process.frame, Vm.pages, h.mem]

/-- And the bytes of a slot of the file. -/
theorem Represents.slot_eq (h : Represents L s v) : s.slot L page = (v.pages L page).slot := by
  funext o
  simp only [Process.slot, Vm.pages, h.swap]

/-- After `lseek` to the slot of a page, the file holds a page of bytes more. -/
theorem Represents.inside (h : Represents L s v) (page : Fin numVpages) :
    (s.file.lseek (page * L.pageSize)).pos + L.pageSize ≤ (s.file.lseek (page * L.pageSize)).length := by
  rw [lseek_pos, lseek_length, h.length]
  exact slot_end L page

/-- The write of a page does what a whole transfer does. -/
theorem Represents.swapOut (h : Represents L s v) (page : Fin numVpages) (hm : ∀ a ∈ as, a.Mild) :
    Completes L.pageSize as (s.swapOut L page as) (fun s' => Represents L s' (v.swapOut L page)) := by
  unfold Process.swapOut
  rw [fullWrite_eq hm]
  refine Completes.of_loop ⟨h.mem, ?_, ?_⟩
  · simp [Vm.swapOut, h.mem, h.swap]
  · rw [put_length (h.inside page)]
    exact h.length

/-- So does the read of a page, which does not reach the end of the file. -/
theorem Represents.swapIn (h : Represents L s v) (page : Fin numVpages) (hm : ∀ a ∈ as, a.Mild) :
    Completes L.pageSize as (s.swapIn L page as) (fun s' => Represents L s' (v.swapIn L page)) := by
  unfold Process.swapIn
  rw [fullRead_eq hm (h.inside page)]
  refine Completes.of_loop ⟨?_, ?_, ?_⟩
  · simp [Vm.swapIn, h.mem, h.swap]
  · simp [Vm.swapIn, h.swap]
  · simp [h.length]

/-- A step with partial transfers does what a step with whole ones does. -/
theorem Represents.step (h : Represents L s v) (hs : Step L s a s') : Represents L s' (a.whole L v) := by
  cases hs with
  | store addr value => exact ⟨congrArg (fun m => Mem.set m addr value) h.mem, h.swap, h.length⟩
  | swapOut hm hr => exact (h.swapOut _ hm).of_returned hr
  | swapIn hm hr => exact (h.swapIn _ hm).of_returned hr

/-- So does a run. -/
theorem Represents.run (h : Represents L s v) (hr : Run (Step L) s tr t) :
    Represents L t (tr.foldl (fun v a => a.whole L v) v) := by
  refine Run.invariant (P := fun tr t => Represents L t (tr.foldl (fun v a => a.whole L v) v)) h ?_ hr
  intro tr t a u _ ht hs
  rw [List.foldl_append]
  exact ht.step hs

/-! ## Slots -/

/-- Only a write of the page changes its slot. -/
theorem slot_whole (h : ∀ as, a ≠ .swapOut page as) : ((a.whole L v).pages L page).slot = (v.pages L page).slot := by
  cases a with
  | store addr value => rfl
  | swapOut q as =>
    have hq : page ≠ q := by
      rintro rfl
      exact h as rfl
    simp only [Act.whole, pages_swapOut, Function.update_of_ne hq]
  | swapIn q as => rfl

/-- A slot changes only when its page is swapped out. -/
theorem slot_foldl (h : ∀ as, .swapOut page as ∉ tr) :
    ((tr.foldl (fun v a => a.whole L v) v).pages L page).slot = (v.pages L page).slot := by
  induction tr generalizing v with
  | nil => rfl
  | cons a tr ih =>
    rw [List.foldl_cons, ih fun as has => h as (List.mem_cons_of_mem _ has)]
    refine slot_whole fun as he => h as ?_
    rw [he]
    exact List.mem_cons_self

/-- A write of a page puts it in its slot, and leaves the other slots. -/
theorem Represents.slot_swapOut (h : Represents L s v) (h' : Represents L s' (v.swapOut L page)) (q : Fin numVpages) :
    s'.slot L q = Function.update (s.slot L) page (s.frame L page) q := by
  rw [h'.slot_eq, pages_swapOut]
  by_cases hq : q = page
  · subst hq
    rw [Function.update_self, Function.update_self, h.frame_eq]
  · rw [Function.update_of_ne hq, Function.update_of_ne hq, h.slot_eq]

/-- In every state of every run, and whatever partial transfers and interruptions the system answers with: the write of a page
never ends the program, and returns exactly when a page of bytes was offered. It has then put the page in its slot of the file, and
left the other slots, the memory and the length of the file. From there on, as long as the page is not written again, a read of it
never ends the program, and returns exactly when a page of bytes was offered, with the bytes that were written. -/
theorem swap_out_in_identity {mem : Mem} (h : Run (Step L) (Process.start L mem) tr s) (page : Fin numVpages)
    (hm : ∀ a ∈ as, a.Mild) :
    (∀ e, s.swapOut L page as ≠ .exited e) ∧
      ((∃ s', s.swapOut L page as = .returned s') ↔ L.pageSize ≤ offered as) ∧
      ∀ s', s.swapOut L page as = .returned s' →
        s'.slot L page = s.frame L page ∧ (∀ q, q ≠ page → s'.slot L q = s.slot L q) ∧ s'.mem = s.mem ∧
          s'.file.length = s.file.length ∧
          ∀ mid t, Run (Step L) s' mid t → (∀ bs, .swapOut page bs ∉ mid) → ∀ bs : List Answer, (∀ b ∈ bs, b.Mild) →
            (∀ e, t.swapIn L page bs ≠ .exited e) ∧
              ((∃ t', t.swapIn L page bs = .returned t') ↔ L.pageSize ≤ offered bs) ∧
              ∀ t', t.swapIn L page bs = .returned t' → t'.frame L page = s.frame L page := by
  have hs := (represents_start L mem).run h
  have hout := hs.swapOut page hm
  refine ⟨hout.not_exited, hout.returned_iff, ?_⟩
  intro s' hs'
  have hrep := hout.of_returned hs'
  have hslot := hs.slot_swapOut hrep
  refine ⟨?_, ?_, hrep.mem.trans hs.mem.symm, hrep.length.trans hs.length.symm, ?_⟩
  · rw [hslot, Function.update_self]
  · intro q hq
    rw [hslot, Function.update_of_ne hq]
  · intro mid t hmid hno bs hbs
    have ht := hrep.run hmid
    have hin := ht.swapIn page hbs
    refine ⟨hin.not_exited, hin.returned_iff, ?_⟩
    intro t' ht'
    -- the page comes from its slot, which nobody has written since
    calc t'.frame L page = _ := (hin.of_returned ht').frame_eq
      _ = _ := by rw [pages_swapIn, Function.update_self, slot_foldl hno]
      _ = s'.slot L page := hrep.slot_eq.symm
      _ = s.frame L page := by rw [hslot, Function.update_self]

/-- Short transfers, with an interruption. -/
def SwapAux.broken : List Answer := [.transfer 1 Nat.one_pos, .fail .eintr, .transfer 2 Nat.two_pos, .transfer 4 (Nat.succ_pos 3)]

/-- All its answers are mild. -/
theorem SwapAux.broken_mild : ∀ a ∈ broken, a.Mild := by
  simp [broken, Answer.Mild]

/-- The state a call returned with, or the one before it. -/
def SwapAux.after (s : Process) : Outcome Process → Process
  | .returned s' => s'
  | _ => s

/-- Page 0 goes out. -/
def SwapAux.gone : Process :=
  let s := Process.start smallLayout UInt8.ofNat
  after s (s.swapOut smallLayout ⟨0, numVpages_pos⟩ broken)

/-- Then a byte of it is overwritten in memory, and page 1 goes out. -/
def SwapAux.later : Process :=
  let s := { gone with mem := gone.mem.set 4097 9 }
  after s (s.swapOut smallLayout ⟨1, by decide⟩ broken)

/-- Page 0 comes back as it was. -/
theorem swap_out_in_identity_broken :
    (Process.start smallLayout UInt8.ofNat).swapOut smallLayout ⟨0, by decide⟩ broken = .returned gone ∧
      Run (Step smallLayout) gone [.store 4097 9, .swapOut ⟨1, by decide⟩ broken] later ∧ later.mem 4097 = 9 ∧
      ∃ t, later.swapIn smallLayout ⟨0, by decide⟩ broken = .returned t ∧ t.mem 4097 = 1 := by
  have hmid : Run (Step smallLayout) gone [.store 4097 9, .swapOut ⟨1, by decide⟩ broken] later :=
    (Run.single (Step.store 4097 9)).snoc (Step.swapOut broken_mild rfl)
  obtain ⟨_, _, hout⟩ := swap_out_in_identity (Run.nil (Process.start smallLayout UInt8.ofNat)) ⟨0, by decide⟩ broken_mild
  obtain ⟨_, _, _, _, hback⟩ := hout gone rfl
  obtain ⟨_, hreturns, hbytes⟩ := hback _ later hmid (by simp) broken broken_mild
  obtain ⟨t, ht⟩ := hreturns.2 (by decide)
  have hbyte : t.mem 4097 = UInt8.ofNat 4097 := congrFun (hbytes t ht) (⟨1, by decide⟩ : Fin 4)
  exact ⟨rfl, hmid, rfl, t, ht, hbyte.trans (by decide)⟩

end OsLab.Swap
