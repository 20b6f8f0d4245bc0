import OsLab.Lemmas.MemfsCalls

/-!
# Every call is about one name

What a call does and answers depends on the file under the name of its path (`Store.step_act`), and no other name changes. So the
calls on a file are answered from the file, whatever happens to the others (`serve_run`), and calls on two files can be exchanged
(`Store.step_swap`).
-/

namespace OsLab.Memfs

open TableAux CallsAux

variable {s s' : Store} {op : Op} {name : Bytes} {path : CString} {f : File}

namespace NamesAux

/-- Two paths with the same name are the same. -/
theorem bytes_eq_of_ok {path' : CString} (hp : pathToName (some path) = .ok name) (hp' : pathToName (some path') = .ok name) :
    path.bytes = path'.bytes := by
  rw [(pathToName_ok hp).1, (pathToName_ok hp').1]

/-- The name depends on the bytes of the path alone. -/
theorem pathToName_congr {path' : CString} (h : path.bytes = path'.bytes) :
    pathToName (some path) = pathToName (some path') := by
  simp only [pathToName, h]

theorem callsOn_snoc_of_eq {tr : List (Op × Reply)} {l : Op × Reply} (h : l.1.path.bytes = path.bytes) :
    callsOn path (tr ++ [l]) = callsOn path tr ++ [l] := by
  simp only [callsOn, List.filter_append, List.filter_cons, h, decide_true, if_true, List.filter_nil]

theorem callsOn_snoc_of_ne {tr : List (Op × Reply)} {l : Op × Reply} (h : l.1.path.bytes ≠ path.bytes) :
    callsOn path (tr ++ [l]) = callsOn path tr := by
  simp only [callsOn, List.filter_append, List.filter_cons, h, decide_false, Bool.false_eq_true, if_false, List.filter_nil,
    List.append_nil]

end NamesAux

open NamesAux

/-- A call leaves every name but the one of its path. -/
theorem Store.step_lookup_of_ne (h : pathToName (some op.path) ≠ .ok name) :
    (s.step op).1.map.lookup name = s.map.lookup name := by
  cases hp : pathToName (some op.path) with
  | error ret => rw [Store.step_malformed hp]
  | ok name' =>
    rw [(s.step_act op hp).2 name, if_neg]
    rintro rfl
    exact h hp

/-! ## Calls on one file -/

theorem File.serve_snoc {ops : List Op} {g : File} (h : (f.serve ops).1 = some g) (op : Op) :
    f.serve (ops ++ [op]) = ((g.call op).1, (f.serve ops).2 ++ [(g.call op).2]) := by
  unfold File.serve at h ⊢
  rw [List.foldl_append, List.foldl_cons, List.foldl_nil, h]

/-- A file stays when it is not unlinked. -/
theorem File.call_ne_none (h : ∀ q, op ≠ .unlink q) : ∃ g, (f.call op).1 = some g := by
  cases op with
  | unlink q => exact absurd rfl (h q)
  | read path size offset =>
    simp only [File.call]
    split <;> exact ⟨f, rfl⟩
  | write path buf size offset | truncate path size =>
    simp only [File.call]
    split
    · exact ⟨f, rfl⟩
    · split <;> exact ⟨_, rfl⟩
  | _ => exact ⟨f, rfl⟩

/-- A file is there as long as it is not unlinked. -/
theorem File.serve_ne_none {ops : List Op} (h : ∀ op ∈ ops, ∀ q, op ≠ .unlink q) : ∃ g, (f.serve ops).1 = some g := by
  induction ops using List.reverseRecOn with
  | nil => exact ⟨f, rfl⟩
  | append_singleton ops op ih =>
    obtain ⟨g, hg⟩ := ih (fun o ho => h o (List.mem_append_left _ ho))
    rw [File.serve_snoc hg]
    exact File.call_ne_none (h op (List.mem_append_right _ List.mem_cons_self))

/-- Of a buffer only the bytes that are written matter. -/
theorem File.call_congr {op' : Op} (h : op.Same op') : f.call op = f.call op' := by
  cases op with
  | write path buf size offset =>
    obtain ⟨buf', rfl, hbuf⟩ := h
    have hw : ∀ n, n ≤ size → f.write buf n offset.toNat = f.write buf' n offset.toNat := by
      intro n hn
      simp only [File.write, File.mk.injEq, true_and]
      funext i
      split
      · exact hbuf _ (by omega)
      · rfl
    simp only [File.call, hw _ (Nat.min_le_left _ _)]
  | _ => exact congrArg f.call h

/-- What a file answers does not depend on which path it is called by. -/
theorem File.serve_congr {ops ops' : List Op} (h : List.Forall₂ Op.Same ops ops') : f.serve ops = f.serve ops' := by
  unfold File.serve
  generalize ((some f, []) : Option File × List Answer) = p
  induction h generalizing p with
  | nil => rfl
  | cons hsame _ ih =>
    rw [List.foldl_cons, List.foldl_cons, ih]
    congr 1
    cases hp : p.1 with
    | none => rfl
    | some g => simp only [File.call_congr hsame]

/-- The calls on a file are answered from the file, whatever is called in between on other paths, as long as only the last of them
unlinks it. -/
theorem serve_run {files files' : Files} {tr : List (Op × Reply)} (hh : Holds files s) (hp : pathToName (some path) = .ok name)
    (hl : s.map.lookup name = some f) (h : Run Step files tr files')
    (hu : ∀ op ∈ ((callsOn path tr).map Prod.fst).dropLast, ∀ q, op ≠ .unlink q) :
    ∃ s', Holds files' s' ∧ s'.map.lookup name = (f.serve ((callsOn path tr).map Prod.fst)).1 ∧
      List.Forall₂ Reply.Is ((callsOn path tr).map Prod.snd) (f.serve ((callsOn path tr).map Prod.fst)).2 := by
  induction h with
  | nil => exact ⟨s, hh, hl, List.Forall₂.nil⟩
  | @snoc _ _ tr l _ hs ih =>
    by_cases hpath : l.1.path.bytes = path.bytes
    · rw [callsOn_snoc_of_eq hpath, List.map_append, List.map_singleton, List.dropLast_concat] at hu
      rw [callsOn_snoc_of_eq hpath, List.map_append, List.map_append, List.map_singleton, List.map_singleton]
      obtain ⟨s₁, hh₁, hl₁, hr₁⟩ := ih (fun op hop => hu op (List.mem_of_mem_dropLast hop))
      obtain ⟨g, hg⟩ := File.serve_ne_none (f := f) hu
      obtain ⟨hans, hch⟩ := s₁.step_act l.1 ((pathToName_congr hpath).trans hp)
      obtain ⟨hh₂, hr₂⟩ := hh₁.of_step hs
      rw [hl₁, hg] at hans hch
      rw [File.serve_snoc hg]
      refine ⟨_, hh₂, ?_, List.rel_append hr₁ (List.Forall₂.cons (hans ▸ hr₂) List.Forall₂.nil)⟩
      rw [hch name, if_pos rfl]
      rfl
    · rw [callsOn_snoc_of_ne hpath] at hu ⊢
      obtain ⟨s₁, hh₁, hl₁, hr₁⟩ := ih hu
      refine ⟨_, (hh₁.of_step hs).1, ?_, hr₁⟩
      rw [Store.step_lookup_of_ne (fun hpl => hpath (bytes_eq_of_ok hpl hp)), hl₁]

/-! ## Two files -/

/-- Whether the store is full matters to a creation only, and shows in its answer. -/
theorem Op.act_full {full full' : Bool} {o : Option File} (h : (op.act full o).2 ≠ .code (-ENOSPC))
    (h' : (op.act full' o).2 ≠ .code (-ENOSPC)) : op.act full o = op.act full' o := by
  cases o with
  | some f => rfl
  | none =>
    cases op with
    | create path =>
      cases full with
      | true => exact absurd rfl h
      | false =>
        cases full' with
        | true => exact absurd rfl h'
        | false => rfl
    | _ => rfl

/-- Calls on two files give the same answers and the same store in either order, unless a creation finds no room. -/
theorem Store.step_swap {a b : Op} {na nb : Bytes} (s : Store) (ha : pathToName (some a.path) = .ok na)
    (hb : pathToName (some b.path) = .ok nb) (hne : na ≠ nb)
    (ha₁ : (s.step a).2 ≠ .code (-ENOSPC)) (hb₁ : ((s.step a).1.step b).2 ≠ .code (-ENOSPC))
    (hb₂ : (s.step b).2 ≠ .code (-ENOSPC)) (ha₂ : ((s.step b).1.step a).2 ≠ .code (-ENOSPC)) :
    (s.step a).2 = ((s.step b).1.step a).2 ∧ ((s.step a).1.step b).2 = (s.step b).2 ∧
      ((s.step a).1.step b).1 = ((s.step b).1.step a).1 := by
  obtain ⟨hansa, hcha⟩ := s.step_act a ha
  obtain ⟨hansb, hchb⟩ := s.step_act b hb
  obtain ⟨hansb', hchb'⟩ := (s.step a).1.step_act b hb
  obtain ⟨hansa', hcha'⟩ := (s.step b).1.step_act a ha
  rw [hcha nb, if_neg (Ne.symm hne)] at hansb' hchb'
  rw [hchb na, if_neg hne] at hansa' hcha'
  rw [hansa] at ha₁ ⊢
  rw [hansb] at hb₂ ⊢
  rw [hansa'] at ha₂ ⊢
  rw [hansb'] at hb₁ ⊢
  have hea := Op.act_full ha₁ ha₂
  have heb := Op.act_full hb₁ hb₂
  refine ⟨congrArg Prod.snd hea, congrArg Prod.snd heb, Store.ext_lookup fun k => ?_⟩
  rw [hchb' k, hcha' k, hcha k, hchb k, hea, heb]
  by_cases hka : k = na
  · subst hka
    rw [if_neg hne, if_pos rfl, if_pos rfl]
  · simp only [if_neg hka]

/-! ## Replies with the same answer -/

/-- Two replies with the same answer are the same, unless it is a listing. -/
theorem Reply.Is.eq {r r' : Reply} {ans : Answer} (h : r.Is ans) (h' : r'.Is ans) (hn : ∀ set, ans ≠ .listing 0 set) :
    r = r' := by
  cases ans with
  | code ret => rw [is_code h, is_code h']
  | listing ret set =>
    have h0 : ret ≠ 0 := fun h0 => hn set (h0 ▸ rfl)
    cases r <;> try exact h.elim
    cases r' <;> try exact h'.elim
    obtain ⟨rfl, h⟩ := h
    obtain ⟨rfl, h'⟩ := h'
    rw [if_neg h0] at h h'
    rw [h, h']
  | attr ret stat | bytes ret data =>
    cases r <;> try exact h.elim
    cases r' <;> try exact h'.elim
    obtain ⟨rfl, rfl⟩ := h
    obtain ⟨rfl, rfl⟩ := h'
    rfl

/-- Two replies with the same answer are the same, with listings in any order. -/
theorem Reply.Is.alike {r r' : Reply} {ans : Answer} (h : r.Is ans) (h' : r'.Is ans) : r.Alike r' := by
  by_cases hn : ∃ set, ans = .listing 0 set
  · obtain ⟨set, rfl⟩ := hn
    cases r <;> try exact h.elim
    cases r' <;> try exact h'.elim
    obtain ⟨rfl, l, rfl, hl, hmem⟩ := h
    obtain ⟨rfl, l', rfl, hl', hmem'⟩ := h'
    have hperm : l.Perm l' := (List.perm_ext_iff_of_nodup hl hl').2 fun name => (hmem name).trans (hmem' name).symm
    exact ⟨_, rfl, (hperm.cons _).cons _⟩
  · rw [h.eq h' (fun set he => hn ⟨set, he⟩)]
    cases r' with
    | listing ret names => exact ⟨names, rfl, List.Perm.refl _⟩
    | _ => rfl

/-- No call on a file lists the directory. -/
theorem File.call_ne_listing (f : File) (op : Op) (set : Finset Bytes) : (f.call op).2 ≠ .listing 0 set := by
  cases op with
  | readdir path =>
    intro h
    exact absurd (Answer.listing.inj h).1 (by decide)
  | read path size offset =>
    simp only [File.call]
    split <;> simp
  | write path buf size offset | truncate path size =>
    simp only [File.call]
    split
    · simp
    · split <;> simp
  | _ => simp [File.call]

theorem Op.act_ne_listing (op : Op) (full : Bool) (o : Option File) (set : Finset Bytes) :
    (op.act full o).2 ≠ .listing 0 set := by
  cases o with
  | some f => exact f.call_ne_listing op set
  | none =>
    cases op with
    | readdir path =>
      intro h
      exact absurd (Answer.listing.inj h).1 (by decide)
    | create path => cases full <;> nofun
    | _ => nofun

end OsLab.Memfs
