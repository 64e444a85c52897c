import Rend.Compile.SoundTree

/-!
# Well-formed functions

What the lowering of a whole function keeps (`sound_fnBody`), and the two results that come of it. A function
that is compiled as meant is well formed: its registers lie in its frame, its indices in its constants and in
the tables of its module, and its jumps lead into its code or to its end (`compileFunctions_wellFormed`). An
expression is lowered inside its own registers: its instructions write the register of its value, registers that
were free, and the locals it assigns to (`exprAt_frame`).
-/

namespace Rend.Compile

open Ast Lib

/-! ### Functions -/

section Functions

variable {env : Env} {L : Limits env}

/-- The constants that are lowered at their uses assign only to names that may be assigned to. -/
def ConstsOk (L : Limits env) : Prop :=
  ∀ c value, env.moduleConsts c = some value → ∀ name ∈ assignedExpr value, L.assignable name

theorem inlines_exprAt (hconsts : ConstsOk L) (depth : ℕ) : Inlines L (compileExprAt env depth) := by
  induction depth with
  | zero => exact ⟨fun _ _ _ _ => sound_fail _, fun _ _ _ _ => sound_fail _⟩
  | succ depth ih =>
    refine ⟨fun hvalue => good_expr ih _ (hconsts _ _ hvalue), fun hvalue => good_expr ih _ ?_⟩
    rw [assigned_default hvalue]
    exact fun _ hname => absurd hname List.not_mem_nil

theorem good_exprAt (hconsts : ConstsOk L) {depth : ℕ} {e : Expr} (h : ∀ name ∈ assignedExpr e, L.assignable name) :
    Good L (compileExprAt env depth e) := by
  cases depth with
  | zero => exact fun _ _ _ => sound_fail _
  | succ depth => exact good_expr (inlines_exprAt hconsts depth) e h

theorem sound_fnBody (hconsts : ConstsOk L) {depth : ℕ} {body : Block}
    (h : ∀ name ∈ assignedBlock body, L.assignable name) (floor : ℕ) :
    Sound L floor (compileFnBody env depth body) fun _ => True := by
  obtain ⟨stmts, tail⟩ := body
  obtain ⟨hs, ht⟩ := List.forall_mem_append.mp h
  have hin := inlines_exprAt hconsts depth
  refine sound_inBlock (sound_stmts hin stmts hs floor) ?_
  cases tail with
  | none => exact sound_done
  | some e => exact sound_viaReg (good_expr hin e ht) fun r hr => sound_push hr.reads fun _ _ => trivial

/-- A module has the tables that its functions are lowered under. -/
structure Serves (m : BcModule) (env : Env) : Prop where
  fn : ∀ {name i}, env.fnIndex name = some i → i < m.functions.length
  «import» : ∀ {name i}, env.importIndex name = some i → i < m.imports.length
  state : ∀ {name i}, env.stateIndex name = some i → i < m.stateTypes.length
  structs : env.structShapes = m.structShapes
  enums : env.enumShapes = m.enumShapes

/-- The limits of a function of a module, by what it is compiled to. -/
def fnLimits {m : BcModule} (h : Serves m env) (f : BcFn) : Limits env where
  demands := frameDemands m f
  assignable _ := True
  base := 0
  start := 0
  size := f.code.length
  maxReg := f.nRegs
  consts := f.consts.length
  paths := m.pathSpecs.length
  own _ hr := hr
  writes_reads hr := hr
  window _ hroom := hroom
  window_nil := Nat.zero_le _
  window_reads hroom hi := (Nat.add_lt_add_left hi _).trans_le hroom
  const hi := hi
  path hi := hi
  state := h.state
  fn := h.fn
  «import» := h.import
  struct _ hshape := ⟨_, h.structs ▸ hshape, rfl⟩
  variant _ hshape hj := ⟨_, h.enums ▸ hshape, hj⟩

variable {m : BcModule} {depth : ℕ} {f : FnDef} {fn : BcFn} {paths paths' : PathTables}

/-- The run that a function is compiled by. -/
theorem compileFn_run (h : compileFn env depth unbounded f paths = .ok (fn, paths')) :
    ∃ u s, (compileFnBody env depth f.body).run (exec unbounded env) (initial unbounded f paths) = .ok (u, s) ∧
      paths' = ⟨s.pathSpecs, s.pathIndex⟩ ∧ fn.nParams = f.params.length ∧ fn.readGroups = [] ∧ fn.nRegs = s.maxReg ∧
      fn.consts = s.consts ∧ fn.code = if endsInReturn s.code then s.code else s.code ++ [.returnUnit] := by
  unfold compileFn at h
  obtain ⟨⟨u, s⟩, hrun, h⟩ := bind_ok h
  cases h
  exact ⟨u, s, hrun, rfl, rfl, rfl, rfl, rfl, rfl⟩

/-- A function is no larger than what it is compiled to. -/
theorem below_fnLimits (hm : Serves m env) {s : FnCompiler} (hregs : fn.nRegs = s.maxReg) (hconsts : fn.consts = s.consts)
    (hcode : fn.code = if endsInReturn s.code then s.code else s.code ++ [.returnUnit])
    (hspecs : s.pathSpecs.length ≤ m.pathSpecs.length) : Below (fnLimits hm fn) s := by
  refine ⟨hregs.ge, hconsts ▸ le_rfl, hspecs, ?_⟩
  show s.code.length ≤ fn.code.length
  rw [hcode]
  split <;> simp

/-- The table of field paths only grows. -/
theorem compileFn_specs (hm : Serves m env) (h : compileFn env depth unbounded f paths = .ok (fn, paths'))
    (hspecs : paths'.specs.length ≤ m.pathSpecs.length) : paths.specs.length ≤ m.pathSpecs.length := by
  obtain ⟨u, s, hrun, rfl, -, -, hregs, hconsts, hcode⟩ := compileFn_run h
  exact (Script.run_back below_back _ hrun (below_fnLimits hm hregs hconsts hcode hspecs)).paths

/-- The parameters are bound to the first registers. -/
theorem knows_initial (hm : Serves m env) (hparams : f.params.length ≤ fn.nRegs) :
    Knows (fnLimits hm fn) (initial unbounded f paths).toContext := by
  refine ⟨fun scope hscope b hb => ?_, fun r hr => absurd hr List.not_mem_nil⟩
  rw [List.mem_singleton.mp hscope, List.mem_reverse] at hb
  obtain ⟨p, hp, rfl⟩ := List.mem_map.mp hb
  have hlt : p.2 < f.params.length := by simpa using List.snd_lt_of_mem_zipIdx hp
  have hreg : p.2 < fn.nRegs := hlt.trans_le hparams
  exact ⟨hreg, fun _ => hreg⟩

/-- **A function that is compiled as meant is well formed.** -/
theorem compileFn_wellFormed (hm : Serves m env) (h : compileFn env depth unbounded f paths = .ok (fn, paths'))
    (hindex : ∀ p ∈ paths.index, p.2 < m.pathSpecs.length) (hspecs : paths'.specs.length ≤ m.pathSpecs.length) :
    (WellFormedFn m fn ∧ StaysInside fn) ∧ ∀ p ∈ paths'.index, p.2 < m.pathSpecs.length := by
  obtain ⟨u, s, hrun, rfl, hparams, hgroups, hregs, hconsts, hcode⟩ := compileFn_run h
  have hbelow : Below (fnLimits hm fn) s := below_fnLimits hm hregs hconsts hcode hspecs
  have hstart : Below (fnLimits hm fn) (initial unbounded f paths) := Script.run_back below_back _ hrun hbelow
  have hroom : f.params.length ≤ fn.nRegs := hstart.regs
  have hinv : Inv (fnLimits hm fn) 0 (initial unbounded f paths) :=
    ⟨le_rfl, Nat.zero_le _, hroom, fun pos i _ hi => absurd hi (by simp [initial]), knows_initial hm hroom, hindex⟩
  obtain ⟨hfinal, -⟩ :=
    sound_fnBody (fun _ _ _ _ _ => trivial) (fun _ _ => trivial) 0 _ s u hinv hrun hbelow
  have hat : ∀ (pos : ℕ) (i : Instr), fn.code[pos]? = some i →
      i.Meets (frameDemands m fn) ∧ i.Lands fn.code.length pos := by
    intro pos i hi
    have hsplit : s.code[pos]? = some i ∨ i = .returnUnit := by
      rw [hcode] at hi
      split at hi
      · exact .inl hi
      · rw [List.getElem?_append] at hi
        split at hi
        · exact .inl hi
        · exact .inr (List.mem_singleton.mp (List.mem_of_getElem? hi))
    rcases hsplit with hi | rfl
    · exact hfinal.meets pos i (Nat.zero_le _) hi
    · exact ⟨trivial, trivial⟩
  refine ⟨⟨⟨hparams.trans_le hroom, fun i hi => ?_, fun ops hops => ?_⟩, fun pos i hi => (hat pos i hi).2⟩, hfinal.paths⟩
  · obtain ⟨pos, hpos⟩ := List.mem_iff_getElem?.mp hi
    exact (hat pos i hpos).1
  · rw [hgroups] at hops
    exact absurd hops List.not_mem_nil

variable {fns : List FnDef} {r : List BcFn × PathTables}

theorem compileFunctions_specs (hm : Serves m env) (h : compileFunctions env depth unbounded fns paths = .ok r)
    (hspecs : r.2.specs.length ≤ m.pathSpecs.length) : paths.specs.length ≤ m.pathSpecs.length := by
  induction fns generalizing paths r with
  | nil =>
    cases h
    exact hspecs
  | cons f fns ih =>
    obtain ⟨⟨fn, mid⟩, hfn, h⟩ := bind_ok h
    obtain ⟨⟨rest, last⟩, hrest, h⟩ := bind_ok h
    cases h
    exact compileFn_specs hm hfn (ih hrest hspecs)

/-- All functions of a module that are compiled as meant are well formed. -/
theorem compileFunctions_wellFormed (hm : Serves m env) (h : compileFunctions env depth unbounded fns paths = .ok r)
    (hindex : ∀ p ∈ paths.index, p.2 < m.pathSpecs.length) (hspecs : r.2.specs.length ≤ m.pathSpecs.length) :
    ∀ fn ∈ r.1, WellFormedFn m fn ∧ StaysInside fn := by
  induction fns generalizing paths r with
  | nil =>
    cases h
    exact fun fn hfn => absurd hfn List.not_mem_nil
  | cons f fns ih =>
    obtain ⟨⟨fn, mid⟩, hfn, h⟩ := bind_ok h
    obtain ⟨⟨rest, last⟩, hrest, h⟩ := bind_ok h
    cases h
    obtain ⟨hhead, hmid⟩ := compileFn_wellFormed hm hfn hindex (compileFunctions_specs hm hrest hspecs)
    exact List.forall_mem_cons.mpr ⟨hhead, ih hrest hmid hspecs⟩

end Functions

/-! ### Expressions -/

section Expressions

variable (env : Env)

/-- The names that an expression assigns to, itself or by a constant it may be lowered with. -/
def Assigns (e : Expr) (name : String) : Prop :=
  name ∈ assignedExpr e ∨ ∃ c value, env.moduleConsts c = some value ∧ name ∈ assignedExpr value

/-- What the code of an expression may refer to: it writes the register of its value, registers that are free, and
those of locals that are assigned to; besides these it reads the registers of locals and of the pipes around it. -/
def exprDemands (assigns : String → Prop) (s : FnCompiler) (dst : Reg) : Demands where
  writes r := r = dst ∨ s.nextReg ≤ r ∨ ∃ scope ∈ s.scopes, ∃ name, (name, r) ∈ scope ∧ assigns name
  reads r := (r = dst ∨ s.nextReg ≤ r) ∨ (∃ scope ∈ s.scopes, ∃ name, (name, r) ∈ scope) ∨ r ∈ s.pipeStack
  window first n := n = 0 ∨ s.nextReg ≤ first
  const _ := True
  path _ := True
  state _ := True
  fn _ := True
  «import» _ := True
  struct _ _ := True
  variant _ _ := True
  batch _ := False

/-- The limits of an expression, by the state it is lowered in and the one it leads to. -/
def exprLimits (assigns : String → Prop) (s s' : FnCompiler) (dst : Reg) : Limits env where
  demands := exprDemands assigns s dst
  assignable := assigns
  base := s.nextReg
  start := s.code.length
  size := s'.code.length
  maxReg := s'.maxReg
  consts := s'.consts.length
  paths := s'.pathSpecs.length
  own hr _ := .inr (.inl hr)
  writes_reads hr := by
    rcases hr with hr | hr | ⟨scope, hscope, name, hname, -⟩
    · exact .inl (.inl hr)
    · exact .inl (.inr hr)
    · exact .inr (.inl ⟨scope, hscope, name, hname⟩)
  window hbase _ := .inr hbase
  window_nil := .inl rfl
  window_reads hwindow hi := by
    rcases hwindow with rfl | hbase
    · exact absurd hi (Nat.not_lt_zero _)
    · exact .inl (.inr (hbase.trans (Nat.le_add_right _ _)))
  const _ := trivial
  path _ := trivial
  state _ := trivial
  fn _ := trivial
  «import» _ := trivial
  struct _ _ := trivial
  variant _ _ _ := trivial

variable {env}

/-- The lowering that is meant keeps an expression inside its own registers. -/
theorem exprAt_meant_frame {depth : ℕ} {e : Expr} {dst : Reg} {s s' : FnCompiler} (hnext : s.nextReg ≤ s.maxReg)
    (hrun : (compileExprAt env depth e dst).run (exec unbounded env) s = .ok ((), s')) :
    s.nextReg ≤ s'.nextReg ∧ ∀ (pos : ℕ) (i : Instr), s.code.length ≤ pos → s'.code[pos]? = some i →
      i.Meets (exprDemands (Assigns env e) s dst) := by
  have hbelow : Below (exprLimits env (Assigns env e) s s' dst) s' := ⟨le_rfl, le_rfl, le_rfl, le_rfl⟩
  have hstart := Script.run_back below_back _ hrun hbelow
  have hknows : Knows (exprLimits env (Assigns env e) s s' dst) s.toContext := by
    refine ⟨fun scope hscope b hb => ⟨.inr (.inl ⟨scope, hscope, b.1, hb⟩), fun hname => ?_⟩, fun r hr => .inr (.inr hr)⟩
    exact .inr (.inr ⟨scope, hscope, b.1, hb, hname⟩)
  have hinv : Inv (exprLimits env (Assigns env e) s s' dst) s.nextReg s := by
    refine ⟨le_rfl, le_rfl, hnext.trans hstart.regs, fun pos i hpos hi => ?_, hknows, fun _ _ => trivial⟩
    have hlt : pos < s.code.length := (List.getElem?_eq_some_iff.mp hi).1
    exact absurd hpos (Nat.not_le.mpr hlt)
  have hgood : Good (exprLimits env (Assigns env e) s s' dst) (compileExprAt env depth e) :=
    good_exprAt (fun c value hvalue name hname => Or.inr ⟨c, value, hvalue, hname⟩) fun name hname => Or.inl hname
  obtain ⟨hfinal, -⟩ := hgood s.nextReg dst (.inl rfl) s s' () hinv hrun hbelow
  exact ⟨hfinal.floor, fun pos i hpos hi => (hfinal.meets pos i hpos hi).1⟩

/-- **An expression is lowered inside its own registers**, when the numbers that its lowering counts to fit. The
registers that are taken before it stay taken, and none of them is written but the one its value goes to and those
of locals that are assigned to. -/
theorem exprAt_frame {depth : ℕ} {e : Expr} {dst : Reg} {s meant s' : FnCompiler} (hnext : s.nextReg ≤ s.maxReg)
    (hmeant : (compileExprAt env depth e dst).run (exec unbounded env) s = .ok ((), meant)) (hfit : Fits meant)
    (hrun : (compileExprAt env depth e dst).run (exec machine env) s = .ok ((), s')) :
    s.nextReg ≤ s'.nextReg ∧ ∀ (pos : ℕ) (i : Instr), s.code.length ≤ pos → s'.code[pos]? = some i →
      i.Meets (exprDemands (Assigns env e) s dst) := by
  have hagree := run_agree (frees_exprAt depth e dst) hmeant hfit
  rw [hrun] at hagree
  cases hagree
  exact exprAt_meant_frame hnext hmeant

end Expressions

/-- The state after two parameters. -/
def afterParams : FnCompiler :=
  initial machine { nullArray 1 with params := [⟨"x", .json⟩, ⟨"y", .json⟩] } ⟨[], []⟩

/-- The state after the lowering of `x + null` into the register of `y`. -/
def afterSum : FnCompiler :=
  { afterParams with
    code := [.move 1 0, .builtinCall 2 0 0 0, .bin .add 1 1 2]
    consts := [.str "_json_null"]
    maxReg := 3 }

theorem exprAt_frame_sum :
    (compileExprAt emptyModule 1 (.binary .add (.ident "x") .jsonNull) 1).run (exec machine emptyModule) afterParams =
      .ok ((), afterSum) ∧
    afterParams.nextReg ≤ afterSum.nextReg ∧ ∀ (pos : ℕ) (i : Instr), afterParams.code.length ≤ pos →
      afterSum.code[pos]? = some i →
        i.Meets (exprDemands (Assigns emptyModule (.binary .add (.ident "x") .jsonNull)) afterParams 1) := by
  have hmeant : (compileExprAt emptyModule 1 (.binary .add (.ident "x") .jsonNull) 1).run (exec unbounded emptyModule)
      afterParams = .ok ((), afterSum) := rfl
  have hrun : (compileExprAt emptyModule 1 (.binary .add (.ident "x") .jsonNull) 1).run (exec machine emptyModule)
      afterParams = .ok ((), afterSum) := rfl
  have hfit : Fits afterSum := ⟨by decide, by decide, by decide⟩
  exact ⟨hrun, exprAt_frame (by decide) hmeant hfit hrun⟩

end Rend.Compile
