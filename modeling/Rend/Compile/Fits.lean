import Rend.Compile.State

/-!
# Numbers that fit

A state of the compiler fits when it has taken fewer than `2 ^ 16` registers, the operands of its
instructions fit their fields and the states of its field paths have an index of 16 bits. A step of the code
keeps this (`fits_exec`). A step that loses nothing and ends in a state that fits is a step of the code
(`exec_agree`), as long as only registers are given back that have been taken: `FreesTaken` says so of a
script, and `run_agree` carries the agreement to whole runs.
-/

namespace Rend.Compile

open Ast Lib

/-- The numbers of a state fit their fields. -/
structure Fits (s : FnCompiler) : Prop where
  regs : s.maxReg < 2 ^ 16
  code : ∀ i ∈ s.code, FitsFields i
  paths : ∀ p ∈ s.pathIndex, p.1.1 < 2 ^ 16

/-- A register that leaves room for the next one. -/
def Taken (r : Reg) : Prop := r + 1 < 2 ^ 16

/-- What is given back has been taken. -/
def Pre : ∀ {β : Type}, Step β → Prop
  | _, .free r => Taken r
  | _, _ => True

/-- What is taken leaves room for the next one. -/
def Post : ∀ {β : Type}, Step β → β → Prop
  | _, .alloc, r => Taken r
  | _, _, _ => True

/-- A script gives only registers back that it has taken, and its result is as told. -/
def Gives {α : Type} (x : Low α) (Q : α → Prop) : Prop := Script.Asks Pre Post x Q

/-- A script gives only registers back that it has taken. -/
def FreesTaken {α : Type} (x : Low α) : Prop := Gives x fun _ => True

/-! ### Lists with one element changed -/

section Modify

variable {α : Type} {l : List α} {pos : ℕ} {f g : α → α}

theorem modify_congr (h : ∀ a, l[pos]? = some a → f a = g a) : l.modify pos f = l.modify pos g := by
  refine List.ext_getElem? fun j => ?_
  rw [List.getElem?_modify, List.getElem?_modify]
  by_cases hj : pos = j
  · subst hj
    simp only [if_true]
    cases hl : l[pos]? with
    | none => rfl
    | some a => exact congrArg some (h a hl)
  · simp only [if_neg hj]

theorem mem_modify {b : α} : b ∈ l.modify pos f → b ∈ l ∨ ∃ a ∈ l, b = f a := by
  intro hb
  obtain ⟨j, hj⟩ := List.mem_iff_getElem?.mp hb
  rw [List.getElem?_modify] at hj
  obtain ⟨a, ha, hab⟩ := Option.map_eq_some_iff.mp hj
  have hmem := List.mem_of_getElem? ha
  by_cases hpos : pos = j
  · rw [if_pos hpos] at hab
    exact .inr ⟨a, hmem, hab.symm⟩
  · rw [if_neg hpos] at hab
    exact .inl (hab ▸ hmem)

theorem modify_of_mem {a : α} (ha : a ∈ l) : a ∈ l.modify pos f ∨ f a ∈ l.modify pos f := by
  obtain ⟨j, hj⟩ := List.mem_iff_getElem?.mp ha
  by_cases hpos : pos = j
  · exact .inr (List.mem_of_getElem? (i := j) (by rw [List.getElem?_modify, hj, hpos]; simp))
  · exact .inl (List.mem_of_getElem? (i := j) (by rw [List.getElem?_modify, hj]; simp [hpos]))

theorem modify_mem_of_getElem? {a : α} (ha : l[pos]? = some a) : f a ∈ l.modify pos f :=
  List.mem_of_getElem? (i := pos) (by rw [List.getElem?_modify, ha]; simp)

end Modify

/-! ### Filling in -/

/-- What is filled in without loss and fits is what the code fills in, in an instruction that fits. -/
theorem fill_agree {hole : Hole} {pos : ℕ} {i : Instr} (h : FitsFields (hole.fill unbounded pos i)) :
    hole.fill machine pos i = hole.fill unbounded pos i ∧ FitsFields i := by
  cases hole with
  | offset target => exact ⟨rfl, fitsFields_withOffset.mp h⟩
  | legs ranges afterPc =>
    cases i with
    | parallelBegin old pc =>
      cases old with
      | nil =>
        refine ⟨?_, rfl⟩
        have hid : ranges.map (narrowRange unbounded) = ranges := by
          have := narrow_unbounded (.parallelBegin ranges afterPc)
          simpa [narrow] using this
        have hfit : FitsFields (.parallelBegin ranges afterPc) := by
          rw [← hid]
          exact h
        show Instr.parallelBegin (ranges.map (narrowRange machine)) afterPc = .parallelBegin _ afterPc
        rw [hid]
        exact hfit
      | cons r rs => exact ⟨rfl, h⟩
    | _ => exact ⟨rfl, h⟩
  | body bodyStart bodyEnd afterPc =>
    cases i with
    | parallelForBegin s e source output id idx pc =>
      refine ⟨rfl, ?_⟩
      simpa [FitsFields, Hole.fill, narrow] using h
    | _ => exact ⟨rfl, h⟩

theorem fitsFields_fill {hole : Hole} {pos : ℕ} {i : Instr} (h : FitsFields i) :
    FitsFields (hole.fill machine pos i) := by
  cases hole with
  | offset target => exact fitsFields_withOffset.mpr h
  | legs ranges afterPc =>
    cases i with
    | parallelBegin old pc =>
      cases old with
      | nil => exact fitsFields_narrow (.parallelBegin ranges afterPc)
      | cons r rs => exact h
    | _ => exact h
  | body bodyStart bodyEnd afterPc =>
    cases i with
    | parallelForBegin s e source output id idx pc => simpa [FitsFields, Hole.fill, narrow] using h
    | _ => exact h

/-! ### Taking registers -/

/-- What taking a register leaves as it is. -/
structure SameButRegs (s s' : FnCompiler) : Prop where
  code : s'.code = s.code
  pathIndex : s'.pathIndex = s.pathIndex
  le : s.maxReg ≤ s'.maxReg

theorem bump_same (w : Widths) (n : ℕ) (s : FnCompiler) : SameButRegs s ((bump w)^[n] s) := by
  induction n generalizing s with
  | zero => exact ⟨rfl, rfl, le_rfl⟩
  | succ n ih =>
    have h := ih (bump w s)
    exact ⟨h.code, h.pathIndex, (le_max_left _ _).trans h.le⟩

theorem nextReg_bump_unbounded (n : ℕ) (s : FnCompiler) : ((bump unbounded)^[n] s).nextReg = s.nextReg + n := by
  induction n generalizing s with
  | zero => rfl
  | succ n ih =>
    show ((bump unbounded)^[n] (bump unbounded s)).nextReg = _
    rw [ih]
    show s.nextReg + 1 + n = _
    omega

/-- The registers that have been taken are counted. -/
theorem le_maxReg_bump {n : ℕ} (hn : 0 < n) (s : FnCompiler) : s.nextReg + n ≤ ((bump unbounded)^[n] s).maxReg := by
  obtain ⟨m, rfl⟩ := Nat.exists_eq_add_of_lt hn
  rw [Nat.zero_add, Function.iterate_succ_apply']
  show s.nextReg + (m + 1) ≤ max _ (((bump unbounded)^[m] s).nextReg + 1)
  rw [nextReg_bump_unbounded]
  omega

theorem bump_agree {n : ℕ} {s : FnCompiler} (h : ((bump unbounded)^[n] s).maxReg < 2 ^ 16) :
    (bump machine)^[n] s = (bump unbounded)^[n] s := by
  induction n with
  | zero => rfl
  | succ n ih =>
    rw [Function.iterate_succ_apply'] at h ⊢
    rw [Function.iterate_succ_apply']
    have hle := (bump_same unbounded 1 ((bump unbounded)^[n] s)).le
    rw [ih (hle.trans_lt h)]
    generalize (bump unbounded)^[n] s = t at h
    have hnext : t.nextReg + 1 < 2 ^ 16 := (le_max_right t.maxReg (t.nextReg + 1)).trans_lt h
    have hmod : (t.nextReg + 1) % 2 ^ 16 = t.nextReg + 1 := Nat.mod_eq_of_lt hnext
    show (let next := (t.nextReg + 1) % 2 ^ 16; { t with nextReg := next, maxReg := max t.maxReg next }) = bump unbounded t
    rw [hmod]
    rfl

theorem maxReg_bump_machine {n : ℕ} {s : FnCompiler} (h : s.maxReg < 2 ^ 16) :
    ((bump machine)^[n] s).maxReg < 2 ^ 16 := by
  induction n generalizing s with
  | zero => exact h
  | succ n ih =>
    refine ih (s := bump machine s) ?_
    show max s.maxReg ((s.nextReg + 1) % 2 ^ 16) < 2 ^ 16
    have := Nat.mod_lt (s.nextReg + 1) (show 0 < 2 ^ 16 by decide)
    omega

/-! ### Field paths -/

variable {env : Env}

/-- A path that is looked up ends up in the index, and nothing else changes there. -/
theorem addPath_ok {stateIdx : ℕ} {path : List String} {s s' : FnCompiler} {b : ℕ × List String}
    (h : addPath env stateIdx path s = .ok (b, s')) :
    s'.code = s.code ∧ s'.maxReg = s.maxReg ∧ (∃ p ∈ s'.pathIndex, p.1.1 = stateIdx) ∧
      ∀ p, p ∈ s'.pathIndex ↔ p ∈ s.pathIndex ∨ p ∈ s'.pathIndex ∧ p.1.1 = stateIdx := by
  unfold addPath at h
  split at h
  · split at h
    · cases h
    · split at h
      · next idx hidx =>
        cases h
        obtain ⟨l₁, l₂, heq, -⟩ := List.lookup_eq_some_iff.mp hidx
        refine ⟨rfl, rfl, ⟨((stateIdx, path), idx), by rw [heq]; simp, rfl⟩, ?_⟩
        intro p
        tauto
      · cases h
        refine ⟨rfl, rfl, ⟨_, List.mem_cons_self, rfl⟩, ?_⟩
        intro p
        simp only [List.mem_cons]
        constructor
        · rintro (rfl | hp)
          · exact .inr ⟨.inl rfl, rfl⟩
          · exact .inl hp
        · rintro (hp | ⟨hp, -⟩)
          · exact .inr hp
          · exact hp
  · cases h

/-! ### One step -/

theorem addConst_ok {w : Widths} {c : Const} {s s' : FnCompiler} {b : ℕ}
    (h : exec w env ℕ (.constIdx c) s = .ok (b, s')) :
    s'.code = s.code ∧ s'.maxReg = s.maxReg ∧ s'.pathIndex = s.pathIndex := by
  have h : addConst c s = (b, s') := Except.ok.inj h
  unfold addConst at h
  split at h <;> cases h <;> exact ⟨rfl, rfl, rfl⟩

/-- A state that fits was reached from one that fits, when nothing was lost. -/
theorem fits_back (β : Type) (o : Step β) (s s' : FnCompiler) (b : β) (h : exec unbounded env β o s = .ok (b, s'))
    (hfit : Fits s') : Fits s := by
  cases o with
  | alloc =>
    cases h
    have hsame := bump_same unbounded 1 s
    exact ⟨hsame.le.trans_lt hfit.regs, hfit.code, hfit.paths⟩
  | free r =>
    cases h
    split at hfit <;> exact ⟨hfit.regs, hfit.code, hfit.paths⟩
  | window n =>
    cases h
    have hsame := bump_same unbounded n s
    exact ⟨hsame.le.trans_lt hfit.regs, hsame.code ▸ hfit.code, hsame.pathIndex ▸ hfit.paths⟩
  | push i =>
    cases h
    exact ⟨hfit.regs, fun j hj => hfit.code j (List.mem_append_left _ hj), hfit.paths⟩
  | fill pos hole =>
    cases h
    refine ⟨hfit.regs, fun i hi => ?_, hfit.paths⟩
    rcases modify_of_mem (f := hole.fill unbounded pos) hi with hmem | hmem
    · exact hfit.code i hmem
    · exact (fill_agree (hfit.code _ hmem)).2
  | constIdx c =>
    obtain ⟨hcode, hregs, hpaths⟩ := addConst_ok h
    exact ⟨hregs ▸ hfit.regs, hcode ▸ hfit.code, hpaths ▸ hfit.paths⟩
  | internPath stateIdx path =>
    obtain ⟨hcode, hregs, -, hpaths⟩ := addPath_ok h
    exact ⟨hregs ▸ hfit.regs, hcode ▸ hfit.code, fun p hp => hfit.paths p ((hpaths p).mpr (.inl hp))⟩
  | release | nextReg | restore | here | context | change =>
    cases h
    exact ⟨hfit.regs, hfit.code, hfit.paths⟩

/-- **A step that loses nothing and ends in a state that fits is a step of the code.** -/
theorem exec_agree (β : Type) (o : Step β) (s s' : FnCompiler) (b : β) (hpre : Pre o)
    (h : exec unbounded env β o s = .ok (b, s')) (hfit : Fits s') :
    exec machine env β o s = .ok (b, s') ∧ Post o b := by
  cases o with
  | alloc =>
    cases h
    have hlt : s.nextReg + 1 < 2 ^ 16 := (le_maxReg_bump Nat.one_pos s).trans_lt hfit.regs
    refine ⟨?_, hlt⟩
    show Except.ok (s.nextReg, bump machine s) = _
    rw [show bump machine s = bump unbounded s from bump_agree (n := 1) hfit.regs]
  | free r =>
    have hmod : (r + 1) % 2 ^ 16 = r + 1 := Nat.mod_eq_of_lt hpre
    refine ⟨?_, trivial⟩
    rw [← h]
    show Except.ok ((), if (r + 1) % 2 ^ 16 = s.nextReg then _ else _) = _
    rw [hmod]
    rfl
  | window n =>
    cases h
    refine ⟨?_, trivial⟩
    show Except.ok ((s.nextReg, (List.range n).map fun i => (s.nextReg + i % 2 ^ 16) % 2 ^ 16), (bump machine)^[n] s) = _
    rw [bump_agree hfit.regs]
    congr 3
    refine List.map_congr_left fun i hi => ?_
    rw [List.mem_range] at hi
    have hle := (le_maxReg_bump (by omega : 0 < n) s).trans_lt hfit.regs
    show _ = s.nextReg + i
    rw [Nat.mod_eq_of_lt (by omega : i < 2 ^ 16), Nat.mod_eq_of_lt (by omega)]
  | push i =>
    cases h
    refine ⟨?_, trivial⟩
    have hi : FitsFields (narrow unbounded i) := hfit.code _ (by simp)
    rw [narrow_unbounded] at hi
    show Except.ok ((), { s with code := s.code ++ [narrow machine i] }) = _
    rw [show narrow machine i = i from hi, narrow_unbounded]
  | fill pos hole =>
    cases h
    refine ⟨?_, trivial⟩
    show Except.ok ((), { s with code := s.code.modify pos (hole.fill machine pos) }) = _
    rw [modify_congr fun i hi => (fill_agree (hfit.code _ (modify_mem_of_getElem? hi))).1]
  | internPath stateIdx path =>
    obtain ⟨-, -, ⟨p, hp, hidx⟩, -⟩ := addPath_ok h
    have hlt := hfit.paths p hp
    rw [hidx] at hlt
    have hmod : stateIdx % 2 ^ 16 = stateIdx := Nat.mod_eq_of_lt hlt
    refine ⟨?_, trivial⟩
    show addPath env (stateIdx % 2 ^ 16) path s = _
    rw [hmod]
    exact h
  | release | nextReg | restore | here | constIdx | context | change => exact ⟨h, trivial⟩

/-- What the code writes fits. -/
theorem fits_exec (β : Type) (o : Step β) (s s' : FnCompiler) (b : β) (hfit : Fits s)
    (h : exec machine env β o s = .ok (b, s')) : Fits s' := by
  cases o with
  | alloc =>
    cases h
    exact ⟨maxReg_bump_machine (n := 1) hfit.regs, hfit.code, hfit.paths⟩
  | free r =>
    cases h
    split <;> exact ⟨hfit.regs, hfit.code, hfit.paths⟩
  | window n =>
    cases h
    have hsame := bump_same machine n s
    exact ⟨maxReg_bump_machine hfit.regs, hsame.code.symm ▸ hfit.code, hsame.pathIndex.symm ▸ hfit.paths⟩
  | push i =>
    cases h
    refine ⟨hfit.regs, fun j hj => ?_, hfit.paths⟩
    rcases List.mem_append.mp hj with hj | hj
    · exact hfit.code j hj
    · rw [List.mem_singleton.mp hj]
      exact fitsFields_narrow i
  | fill pos hole =>
    cases h
    refine ⟨hfit.regs, fun i hi => ?_, hfit.paths⟩
    rcases mem_modify hi with hi | ⟨j, hj, rfl⟩
    · exact hfit.code i hi
    · exact fitsFields_fill (hfit.code j hj)
  | constIdx c =>
    obtain ⟨hcode, hregs, hpaths⟩ := addConst_ok h
    exact ⟨hregs.symm ▸ hfit.regs, hcode.symm ▸ hfit.code, hpaths.symm ▸ hfit.paths⟩
  | internPath stateIdx path =>
    obtain ⟨hcode, hregs, -, hpaths⟩ := addPath_ok h
    refine ⟨hregs.symm ▸ hfit.regs, hcode.symm ▸ hfit.code, fun p hp => ?_⟩
    rcases (hpaths p).mp hp with hp | ⟨-, hidx⟩
    · exact hfit.paths p hp
    · rw [hidx]
      exact Nat.mod_lt _ (by decide)
  | release | nextReg | restore | here | context | change =>
    cases h
    exact ⟨hfit.regs, hfit.code, hfit.paths⟩

/-! ### Runs -/

section Runs

variable {α : Type} {x : Low α} {s s' : FnCompiler} {a : α}

/-- **A run that loses nothing and ends in a state that fits is a run of the code.** -/
theorem run_agree (hx : FreesTaken x) (h : x.run (exec unbounded env) s = .ok (a, s')) (hfit : Fits s') :
    x.run (exec machine env) s = .ok (a, s') :=
  (Script.agree fits_back exec_agree hx h hfit).1

theorem fits_run_back (h : x.run (exec unbounded env) s = .ok (a, s')) (hfit : Fits s') : Fits s :=
  Script.run_back fits_back x h hfit

theorem fits_run (hfit : Fits s) (h : x.run (exec machine env) s = .ok (a, s')) : Fits s' :=
  Script.run_keeps fits_exec x hfit h

end Runs

end Rend.Compile
