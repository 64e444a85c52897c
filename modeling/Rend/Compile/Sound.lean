import Rend.Compile.Demands
import Rend.Compile.Frees

/-!
# What the lowering keeps

A logic for the lowering. `Limits` fixes what the instructions of a function may refer to, and how large the
function is when it is done; `Inv` says that the instructions from a place on are within these limits and that
no register below a floor is free. `Sound` says that a script keeps this: what its steps take lies above the
floor, and what it emits meets the demands and leads into the code.
-/

namespace Rend.Compile

open Ast Index Lib

/-- What the instructions that are emitted from a place on may refer to, and the size the function ends
with. -/
structure Limits (env : Env) where
  demands : Demands
  /-- The names that are assigned to. -/
  assignable : String → Prop
  /-- The registers from here on are free. -/
  base : ℕ
  /-- The place of the first instruction that is looked at. -/
  start : ℕ
  size : ℕ
  maxReg : ℕ
  consts : ℕ
  paths : ℕ
  own : ∀ {r : ℕ}, base ≤ r → r < maxReg → demands.writes r
  writes_reads : ∀ {r}, demands.writes r → demands.reads r
  window : ∀ {first n : ℕ}, base ≤ first → first + n ≤ maxReg → demands.window first n
  window_nil : demands.window 0 0
  window_reads : ∀ {first n i}, demands.window first n → i < n → demands.reads (first + i)
  const : ∀ {i}, i < consts → demands.const i
  path : ∀ {i}, i < paths → demands.path i
  state : ∀ {name i}, env.stateIndex name = some i → demands.state i
  fn : ∀ {name i}, env.fnIndex name = some i → demands.fn i
  «import» : ∀ {name i}, env.importIndex name = some i → demands.import i
  struct : ∀ {name i shape}, env.structIndex name = some i → env.structShapes[i]? = some shape →
    demands.struct i shape.fieldNames.length
  variant : ∀ {name i shape j}, env.enumIndex name = some i → env.enumShapes[i]? = some shape →
    j < shape.variantNames.length → demands.variant i j

section Sound

variable {env : Env} (L : Limits env) (floor : ℕ)

/-- The registers of a context may be read, those of names that are assigned to may be written. -/
def Knows (c : Context) : Prop :=
  (∀ scope ∈ c.scopes, ∀ b ∈ scope, L.demands.reads b.2 ∧ (L.assignable b.1 → L.demands.writes b.2)) ∧
    ∀ r ∈ c.pipeStack, L.demands.reads r

/-- What holds of the state while a part of a function is lowered. -/
structure Inv (s : FnCompiler) : Prop where
  base : L.base ≤ floor
  floor : floor ≤ s.nextReg
  next : s.nextReg ≤ L.maxReg
  meets : ∀ pos i, L.start ≤ pos → s.code[pos]? = some i → i.Meets L.demands ∧ i.Lands L.size pos
  knows : Knows L s.toContext
  paths : ∀ p ∈ s.pathIndex, L.demands.path p.2

/-- The function is no larger than it ends. -/
structure Below (s : FnCompiler) : Prop where
  regs : s.maxReg ≤ L.maxReg
  consts : s.consts.length ≤ L.consts
  paths : s.pathSpecs.length ≤ L.paths
  code : s.code.length ≤ L.size

/-- A script keeps the limits, and its result is as told. -/
def Sound {α : Type} (x : Low α) (Q : α → Prop) : Prop :=
  Script.Keeps (exec unbounded env) (Inv L floor) (Below L) x Q

/-- A register that has been taken. -/
structure Owned (r : ℕ) : Prop where
  base : L.base ≤ r
  floor : floor ≤ r
  lt : r < L.maxReg

variable {L floor} {α β : Type}

theorem Owned.writes {r : Reg} (h : Owned L floor r) : L.demands.writes r := L.own h.base h.lt

theorem Owned.reads {r : Reg} (h : Owned L floor r) : L.demands.reads r := L.writes_reads h.writes

theorem bump_below (n : ℕ) (s : FnCompiler) (h : Below L ((bump unbounded)^[n] s)) : Below L s := by
  induction n generalizing s with
  | zero => exact h
  | succ n ih =>
    have h' := ih (bump unbounded s) h
    exact ⟨(le_max_left _ _).trans h'.regs, h'.consts, h'.paths, h'.code⟩

theorem addPath_below {stateIdx : ℕ} {path : List String} {s s' : FnCompiler} {b : ℕ × List String}
    (h : addPath env stateIdx path s = .ok (b, s')) (hfin : Below L s') : Below L s := by
  unfold addPath at h
  split at h
  · split at h
    · cases h
    · split at h <;> cases h
      · exact hfin
      · refine ⟨hfin.regs, hfin.consts, le_trans ?_ hfin.paths, hfin.code⟩
        simp
  · cases h

/-- No step makes the function smaller. -/
theorem below_back (β : Type) (o : Step β) (s s' : FnCompiler) (b : β)
    (h : exec unbounded env β o s = .ok (b, s')) (hfin : Below L s') : Below L s := by
  cases o with
  | alloc =>
    cases h
    exact bump_below 1 s hfin
  | free r =>
    cases h
    split at hfin <;> exact ⟨hfin.regs, hfin.consts, hfin.paths, hfin.code⟩
  | window n =>
    cases h
    exact bump_below n s hfin
  | push i =>
    cases h
    refine ⟨hfin.regs, hfin.consts, hfin.paths, le_trans ?_ hfin.code⟩
    simp
  | fill pos hole =>
    cases h
    refine ⟨hfin.regs, hfin.consts, hfin.paths, ?_⟩
    simpa using hfin.code
  | constIdx c =>
    have h : addConst c s = (b, s') := Except.ok.inj h
    unfold addConst at h
    split at h <;> cases h
    · exact hfin
    · refine ⟨hfin.regs, le_trans ?_ hfin.consts, hfin.paths, hfin.code⟩
      simp
  | internPath stateIdx path => exact addPath_below h hfin
  | release | nextReg | restore | here | context | change =>
    cases h
    exact ⟨hfin.regs, hfin.consts, hfin.paths, hfin.code⟩

/-! ### Rules -/

variable {x : Low β} {f : β → Low α} {P : β → Prop} {Q : α → Prop}

theorem Sound.bind (hx : Sound L floor x P) (hf : ∀ b, P b → Sound L floor (f b) Q) : Sound L floor (x >>= f) Q :=
  Script.Keeps.bind below_back hx hf

/-- Goes on after a script whose result does not matter. -/
theorem Sound.next {y : Low α} {x : Low Unit} (hx : Sound L floor x fun _ => True) (hy : Sound L floor y Q) :
    Sound L floor (x >>= fun _ => y) Q :=
  hx.bind fun _ _ => hy

theorem Sound.mono {R : β → Prop} (hx : Sound L floor x P) (h : ∀ b, P b → R b) : Sound L floor x R :=
  Script.Keeps.mono hx h

theorem sound_pure {a : α} (h : Q a) : Sound L floor (pure a) Q := Script.keeps_pure h

theorem sound_done : Sound L floor (pure ()) fun _ => True := sound_pure trivial

theorem sound_fail (e : String) : Sound L floor (.fail e : Low α) Q := Script.keeps_fail e

theorem sound_expect {e : String} {o : Option α} : Sound L floor (expect e o) fun a => o = some a := by
  cases o with
  | none => exact sound_fail e
  | some a => exact sound_pure rfl

theorem sound_alloc : Sound L floor alloc (Owned L floor) := by
  refine Script.keeps_ask fun s s' r h hstep hfin => ?_
  cases hstep
  have hlt : s.nextReg + 1 ≤ L.maxReg := (le_max_right _ _).trans hfin.regs
  exact ⟨⟨h.base, h.floor.trans (Nat.le_succ _), hlt, h.meets, h.knows, h.paths⟩, h.base.trans h.floor, h.floor, hlt⟩

theorem sound_free {r : Reg} (hr : Owned L floor r) : Sound L floor (free r) fun _ => True := by
  refine Script.keeps_ask fun s s' _ h hstep hfin => ?_
  cases hstep
  refine ⟨?_, trivial⟩
  split
  · next heq =>
    have heq : r + 1 = s.nextReg := heq
    have hdec : dec s.nextReg = r := by rw [← heq]; rfl
    refine ⟨h.base, ?_, ?_, h.meets, h.knows, h.paths⟩
    · exact hdec ▸ hr.floor
    · exact hdec ▸ hr.lt.le
  · exact h

theorem sound_nextReg : Sound L floor nextReg fun r => floor ≤ r ∧ r ≤ L.maxReg := by
  refine Script.keeps_ask fun s s' r h hstep _ => ?_
  cases hstep
  exact ⟨h, h.floor, h.next⟩

theorem sound_restore {r : Reg} (hr : floor ≤ r ∧ r ≤ L.maxReg) : Sound L floor (restore r) fun _ => True := by
  refine Script.keeps_ask fun s s' _ h hstep _ => ?_
  cases hstep
  exact ⟨⟨h.base, hr.1, hr.2, h.meets, h.knows, h.paths⟩, trivial⟩

/-- The code with one more instruction. -/
theorem Inv.push {s : FnCompiler} {i : Instr} (h : Inv L floor s) (hi : i.Meets L.demands)
    (hl : i.Lands L.size s.code.length) : Inv L floor { s with code := s.code ++ [i] } := by
  refine ⟨h.base, h.floor, h.next, fun pos j hpos hj => ?_, h.knows, h.paths⟩
  rw [List.getElem?_append] at hj
  split at hj
  · exact h.meets pos j hpos hj
  · have hlen : pos - s.code.length = 0 := by
      have := (List.getElem?_eq_some_iff.mp hj).1
      simp only [List.length_singleton] at this
      omega
    rw [hlen] at hj
    cases hj
    have hpos' : pos = s.code.length := by omega
    exact ⟨hi, hpos' ▸ hl⟩

theorem sound_push {i : Instr} (hi : i.Meets L.demands) (hl : ∀ pos, pos < L.size → i.Lands L.size pos) :
    Sound L floor (push i) fun _ => True := by
  refine Script.keeps_ask fun s s' _ h hstep hfin => ?_
  cases hstep
  rw [narrow_unbounded] at hfin ⊢
  have hlen : s.code.length < L.size := by
    have := hfin.code
    simp only [List.length_append, List.length_singleton] at this
    omega
  exact ⟨h.push hi (hl _ hlen), trivial⟩

theorem sound_here : Sound L floor here (· ≤ L.size) := by
  refine Script.keeps_ask fun s s' n h hstep hfin => ?_
  cases hstep
  exact ⟨h, hfin.code⟩

/-- A jump that waits for its offset leads to the next instruction. -/
theorem within_zero {pos : ℕ} (h : pos < L.size) : OffsetWithin L.size pos 0 := by
  unfold OffsetWithin
  omega

theorem sound_pushJump {i : Instr} (hi : i.Meets L.demands) (hl : ∀ pos, pos < L.size → i.Lands L.size pos) :
    Sound L floor (pushJump i) fun _ => True :=
  sound_here.bind fun _ _ => (sound_push hi hl).next (sound_pure trivial)

theorem sound_jump : Sound L floor (pushJump (.jump 0)) fun _ => True :=
  sound_pushJump trivial fun _ h => within_zero h

theorem sound_jumpIfFalse {r : Reg} (hr : L.demands.reads r) :
    Sound L floor (pushJump (.jumpIfFalse r 0)) fun _ => True :=
  sound_pushJump hr fun _ h => within_zero h

/-- The jump back is emitted where its offset was counted from. -/
theorem sound_pushBack {target : ℕ} (ht : target ≤ L.size) : Sound L floor (pushBack target) fun _ => True := by
  intro s s' _ h hrun hfin
  obtain ⟨pos, t, hhere, hpush⟩ := Script.run_bind_ok.mp hrun
  rw [here, Script.run_ask] at hhere
  cases hhere
  rw [push, Script.run_ask] at hpush
  cases hpush
  exact ⟨h.push trivial (within_offsetTo ht), trivial⟩

/-- The code with one instruction changed. -/
theorem Inv.fill {s : FnCompiler} {pos : ℕ} {g : Instr → Instr} (h : Inv L floor s)
    (hg : ∀ i, i.Meets L.demands → i.Lands L.size pos → (g i).Meets L.demands ∧ (g i).Lands L.size pos) :
    Inv L floor { s with code := s.code.modify pos g } := by
  refine ⟨h.base, h.floor, h.next, fun pos' j hpos hj => ?_, h.knows, h.paths⟩
  have hj : (s.code.modify pos g)[pos']? = some j := hj
  rw [List.getElem?_modify] at hj
  obtain ⟨i, hi, hij⟩ := Option.map_eq_some_iff.mp hj
  have hi' := h.meets pos' i hpos hi
  by_cases heq : pos = pos'
  · subst heq
    rw [if_pos rfl] at hij
    exact hij ▸ hg i hi'.1 hi'.2
  · rw [if_neg heq] at hij
    exact hij ▸ hi'

theorem sound_fill {pos : ℕ} {hole : Hole}
    (hg : ∀ i, i.Meets L.demands → i.Lands L.size pos →
      (hole.fill unbounded pos i).Meets L.demands ∧ (hole.fill unbounded pos i).Lands L.size pos) :
    Sound L floor (fill pos hole) fun _ => True := by
  refine Script.keeps_ask fun s s' _ h hstep _ => ?_
  cases hstep
  exact ⟨h.fill hg, trivial⟩

theorem sound_patch {target pos : ℕ} (ht : target ≤ L.size) : Sound L floor (patch target pos) fun _ => True :=
  sound_fill fun _ hi hl => ⟨meets_withOffset.mpr hi, lands_withOffset hl (within_offsetTo ht)⟩

theorem sound_patchAll {target : ℕ} {ps : List ℕ} (ht : target ≤ L.size) :
    Sound L floor (patchAll target ps) fun _ => True := by
  induction ps with
  | nil => exact sound_done
  | cons p ps ih => exact (sound_patch ht).next ih

theorem sound_constIdx {c : Const} : Sound L floor (constIdx c) L.demands.const := by
  refine Script.keeps_ask fun s s' i h hstep hfin => ?_
  have hstep : addConst c s = (i, s') := Except.ok.inj hstep
  unfold addConst at hstep
  split at hstep <;> cases hstep
  · next hfound =>
    obtain ⟨hlt, -⟩ := List.findIdx?_eq_some_iff_getElem.mp hfound
    exact ⟨h, L.const (hlt.trans_le hfin.consts)⟩
  · have hlt : s.consts.length < L.consts := by
      have := hfin.consts
      simp only [List.length_append, List.length_singleton] at this
      omega
    exact ⟨⟨h.base, h.floor, h.next, h.meets, h.knows, h.paths⟩, L.const hlt⟩

theorem sound_loadConst {dst : Reg} {c : Const} (hdst : L.demands.writes dst) :
    Sound L floor (loadConst dst c) fun _ => True :=
  sound_constIdx.bind fun _ hc => sound_push ⟨hdst, hc⟩ fun _ _ => trivial

theorem sound_internPath {stateIdx : ℕ} {path : List String} :
    Sound L floor (internPath stateIdx path) fun p => L.demands.path p.1 := by
  refine Script.keeps_ask fun s s' p h hstep hfin => ?_
  have hstep : addPath env stateIdx path s = .ok (p, s') := hstep
  unfold addPath at hstep
  split at hstep
  · split at hstep
    · cases hstep
    · split at hstep <;> cases hstep
      · next hfound =>
        obtain ⟨l₁, l₂, heq, -⟩ := List.lookup_eq_some_iff.mp hfound
        exact ⟨h, h.paths ((stateIdx, path), _) (by rw [heq]; simp)⟩
      · have hlt : s.pathSpecs.length < L.paths := by
          have := hfin.paths
          simp only [List.length_append, List.length_singleton] at this
          omega
        exact ⟨⟨h.base, h.floor, h.next, h.meets, h.knows, List.forall_mem_cons.mpr ⟨L.path hlt, h.paths⟩⟩,
          L.path hlt⟩
  · cases hstep

theorem sound_context : Sound L floor context (Knows L) := by
  refine Script.keeps_ask fun s s' c h hstep _ => ?_
  cases hstep
  exact ⟨h, h.knows⟩

theorem sound_change {g : Context → Context} (hg : ∀ c, Knows L c → Knows L (g c)) :
    Sound L floor (change g) fun _ => True := by
  refine Script.keeps_ask fun s s' _ h hstep _ => ?_
  cases hstep
  exact ⟨⟨h.base, h.floor, h.next, h.meets, hg _ h.knows, h.paths⟩, trivial⟩

/-- After a register has been taken, the floor is above it. -/
theorem sound_raise {g : Reg → Low α}
    (hg : ∀ r, Owned L floor r → Sound L (r + 1) (g r) Q) : Sound L floor (alloc >>= g) Q := by
  intro s s' a h hrun hfin
  obtain ⟨r, t, halloc, hrun⟩ := Script.run_bind_ok.mp hrun
  have hbelow : Below L t := Script.run_back below_back _ hrun hfin
  obtain ⟨ht, hr⟩ := sound_alloc s t r h halloc hbelow
  rw [alloc, Script.run_ask] at halloc
  cases halloc
  have ht' : Inv L (s.nextReg + 1) (bump unbounded s) :=
    ⟨h.base.trans (h.floor.trans (Nat.le_succ _)), le_rfl, ht.next, ht.meets, ht.knows, ht.paths⟩
  obtain ⟨hs', ha⟩ := hg s.nextReg hr _ s' a ht' hrun hfin
  exact ⟨⟨h.base, h.floor.trans ((Nat.le_succ _).trans hs'.floor), hs'.next, hs'.meets, hs'.knows, hs'.paths⟩, ha⟩

/-! ### Names -/

theorem Knows.local {c : Context} (h : Knows L c) {name : String} {r : Reg} (hr : c.lookupLocal name = some r) :
    L.demands.reads r ∧ (L.assignable name → L.demands.writes r) := by
  obtain ⟨scope, hscope, hlookup⟩ := List.exists_of_findSome?_eq_some hr
  obtain ⟨l₁, l₂, heq, -⟩ := List.lookup_eq_some_iff.mp hlookup
  exact h.1 scope hscope (name, r) (by rw [heq]; simp)

theorem Knows.pipe {c : Context} (h : Knows L c) {r : Reg} (hr : c.pipeStack.head? = some r) :
    L.demands.reads r :=
  h.2 r (List.mem_of_mem_head? hr)

theorem sound_pushScope : Sound L floor pushScope fun _ => True :=
  sound_change fun _ h => ⟨List.forall_mem_cons.mpr ⟨fun _ hb => absurd hb List.not_mem_nil, h.1⟩, h.2⟩

theorem sound_popScope : Sound L floor popScope fun _ => True :=
  sound_change fun _ h => ⟨fun scope hscope => h.1 scope (List.mem_of_mem_tail hscope), h.2⟩

theorem sound_bindLocal {name : String} {r : Reg} (hr : L.demands.writes r) :
    Sound L floor (bindLocal name r) fun _ => True := by
  refine sound_change fun c h => ⟨?_, h.2⟩
  refine List.forall_mem_cons.mpr ⟨?_, fun scope hscope => h.1 scope (List.mem_of_mem_tail hscope)⟩
  refine List.forall_mem_cons.mpr ⟨⟨L.writes_reads hr, fun _ => hr⟩, fun b hb => ?_⟩
  cases hc : c.scopes with
  | nil =>
    rw [hc] at hb
    exact absurd hb List.not_mem_nil
  | cons scope scopes =>
    rw [hc] at hb
    exact h.1 scope (hc ▸ List.mem_cons_self) b hb

theorem sound_pushPipe {r : Reg} (hr : L.demands.reads r) : Sound L floor (pushPipe r) fun _ => True :=
  sound_change fun _ h => ⟨h.1, List.forall_mem_cons.mpr ⟨hr, h.2⟩⟩

theorem sound_popPipe : Sound L floor popPipe fun _ => True :=
  sound_change fun _ h => ⟨h.1, fun r hr => h.2 r (List.mem_of_mem_tail hr)⟩

theorem sound_pushLoop : Sound L floor pushLoop fun _ => True := sound_change fun _ h => h

theorem sound_onLoop {g : LoopFrame → LoopFrame} : Sound L floor (onLoop g) fun _ => True := sound_change fun _ h => h

theorem sound_popLoop : Sound L floor popLoop fun _ => True := by
  refine sound_context.bind fun c _ => sound_expect.bind fun frame _ => ?_
  refine Sound.next (sound_change ?_) (sound_pure trivial)
  exact fun _ h => h

theorem sound_callBuiltin {dst first : Reg} {name : String} {n : ℕ} (hdst : L.demands.writes dst)
    (hwindow : L.demands.window first n) : Sound L floor (callBuiltin dst name first n) fun _ => True :=
  sound_constIdx.bind fun _ hc => sound_push ⟨hdst, hc, hwindow⟩ fun _ _ => trivial

theorem sound_freeAll {rs : List Reg} (h : ∀ r ∈ rs, Owned L floor r) : Sound L floor (freeAll rs) fun _ => True := by
  induction rs with
  | nil => exact sound_done
  | cons r rs ih =>
    obtain ⟨hr, hrs⟩ := List.forall_mem_cons.mp h
    exact (sound_free hr).next (ih hrs)

/-! ### Operands -/

variable (L)

/-- The lowering of an operand keeps the limits, into every register that may be written. -/
def Good (operand : Operand) : Prop :=
  ∀ floor r, L.demands.writes r → Sound L floor (operand r) fun _ => True

variable {L} {dst : Reg}

theorem sound_viaReg {operand : Operand} {finish : Reg → Low Unit} (ho : Good L operand)
    (hf : ∀ r, Owned L floor r → Sound L floor (finish r) fun _ => True) :
    Sound L floor (viaReg operand finish) fun _ => True :=
  sound_alloc.bind fun r hr => (ho floor r hr.writes).next ((hf r hr).next (sound_free hr))

theorem sound_viaRegs {first second : Operand} {finish : Reg → Reg → Low Unit} (h : Good L first) (h' : Good L second)
    (hf : ∀ r r', Owned L floor r → Owned L floor r' → Sound L floor (finish r r') fun _ => True) :
    Sound L floor (viaRegs first second finish) fun _ => True :=
  sound_viaReg h fun r hr => sound_viaReg h' fun r' hr' => hf r r' hr hr'

theorem sound_compileEach {operands : List Operand} {regs : List Reg} (h : ∀ o ∈ operands, Good L o)
    (hregs : ∀ r ∈ regs, L.demands.writes r) : Sound L floor (compileEach operands regs) fun _ => True := by
  induction operands generalizing regs with
  | nil => exact sound_done
  | cons o os ih =>
    obtain ⟨ho, hos⟩ := List.forall_mem_cons.mp h
    cases regs with
    | nil => exact sound_done
    | cons r rs =>
      obtain ⟨hr, hrs⟩ := List.forall_mem_cons.mp hregs
      exact (ho floor r hr).next (ih hos hrs)

/-- No register below the next one is free. -/
theorem Inv.raise {s : FnCompiler} (h : Inv L floor s) : Inv L s.nextReg s :=
  ⟨h.base.trans h.floor, le_rfl, h.next, h.meets, h.knows, h.paths⟩

/-- The floor may be lowered. -/
theorem Inv.lower {s : FnCompiler} {floor' : ℕ} (h : Inv L floor' s) (hbase : L.base ≤ floor) (hle : floor ≤ floor') :
    Inv L floor s :=
  ⟨hbase, hle.trans h.floor, h.next, h.meets, h.knows, h.paths⟩

theorem Inv.bump {n : ℕ} {s : FnCompiler} (h : Inv L floor s) (hfin : Below L ((bump unbounded)^[n] s)) :
    Inv L (s.nextReg + n) ((bump unbounded)^[n] s) := by
  induction n generalizing s floor with
  | zero => exact h.raise
  | succ n ih =>
    have hbelow : Below L (Compile.bump unbounded s) := bump_below n _ hfin
    obtain ⟨hnext, -⟩ := sound_alloc s (Compile.bump unbounded s) s.nextReg h rfl hbelow
    have hall := ih hnext hfin
    rwa [show (Compile.bump unbounded s).nextReg + n = s.nextReg + (n + 1) by
      show s.nextReg + 1 + n = _
      omega] at hall

theorem dec_iterate {n m : ℕ} (h : n ≤ m) : dec^[n] m = m - n := by
  induction n generalizing m with
  | zero => rfl
  | succ n ih =>
    have hdec : dec m = m - 1 := if_neg (by omega)
    rw [Function.iterate_succ_apply, hdec, ih (by omega)]
    omega

/-- **A window** holds its operands while they are lowered, whatever registers they leave taken. -/
theorem sound_viaWindow {operands : List Operand} {finish : Reg → Low Unit} (h : ∀ o ∈ operands, Good L o)
    (hf : ∀ floor first, L.demands.window first operands.length → Sound L floor (finish first) fun _ => True) :
    Sound L floor (viaWindow operands finish) fun _ => True := by
  intro s s' _ hs hrun hfin
  obtain ⟨p, t, hwindow, hrun⟩ := Script.run_bind_ok.mp hrun
  rw [window, Script.run_ask] at hwindow
  cases hwindow
  obtain ⟨_, t₁, heach, hrun⟩ := Script.run_bind_ok.mp hrun
  obtain ⟨_, t₂, hfinish, hrelease⟩ := Script.run_bind_ok.mp hrun
  have hbelow₂ : Below L t₂ := Script.run_back below_back _ hrelease hfin
  have hbelow₁ : Below L t₁ := Script.run_back below_back _ hfinish hbelow₂
  have ht := hs.bump (Script.run_back below_back _ heach hbelow₁)
  -- the operands are lowered above the window
  have hroom : s.nextReg + operands.length ≤ L.maxReg := ht.floor.trans ht.next
  have hregs : ∀ r ∈ (List.range operands.length).map fun i => unbounded.u16 (s.nextReg + unbounded.u16 i),
      L.demands.writes r := by
    intro r hr
    obtain ⟨i, hi, rfl⟩ := List.mem_map.mp hr
    rw [List.mem_range] at hi
    have hbase := hs.base.trans hs.floor
    exact L.own (r := s.nextReg + i) (by omega) (by omega)
  obtain ⟨ht₁, -⟩ := sound_compileEach h hregs _ t₁ _ ht heach hbelow₁
  obtain ⟨ht₂, -⟩ := hf _ s.nextReg (L.window (hs.base.trans hs.floor) hroom) t₁ t₂ _ ht₁ hfinish hbelow₂
  rw [release, Script.run_ask] at hrelease
  cases hrelease
  have hfloor := hs.floor
  have htop := ht₂.floor
  have hnext := ht₂.next
  rw [dec_iterate (by omega)] at hfin ⊢
  exact ⟨⟨hs.base, by show floor ≤ t₂.nextReg - _; omega, by show t₂.nextReg - _ ≤ _; omega, ht₂.meets, ht₂.knows,
    ht₂.paths⟩, trivial⟩

variable (L floor)

/-- Registers that have been taken one after the other, so that a window of their number starts at the first. -/
structure Row (rs : List ℕ) (n : ℕ) : Prop where
  length : rs.length = n
  owned : ∀ r ∈ rs, Owned L floor r
  room : ∀ r ∈ rs.head?, r + n ≤ L.maxReg

variable {L floor}

theorem row_nil : Row L floor [] 0 :=
  ⟨rfl, fun _ hr => absurd hr List.not_mem_nil, fun _ hr => by cases hr⟩

theorem Row.cons {r : ℕ} {rs : List ℕ} {n : ℕ} (hr : Owned L floor r) (h : Row L (r + 1) rs n) :
    Row L floor (r :: rs) (n + 1) := by
  refine ⟨congrArg Nat.succ h.length, List.forall_mem_cons.mpr ⟨hr, fun r' hr' => ?_⟩, fun r' hr' => ?_⟩
  · have h' := h.owned r' hr'
    exact ⟨h'.base, hr.floor.trans ((Nat.le_succ r).trans h'.floor), h'.lt⟩
  · cases hr'
    cases rs with
    | nil =>
      have hlen := h.length
      have hlt := hr.lt
      simp only [List.length_nil] at hlen
      omega
    | cons r' rs =>
      have hroom := h.room r' rfl
      have hfloor := (h.owned r' List.mem_cons_self).floor
      omega

theorem Row.window {rs : List Reg} {n : ℕ} (h : Row L floor rs n) : L.demands.window (rs.headD 0) n := by
  cases rs with
  | nil =>
    obtain rfl : 0 = n := h.length
    exact L.window_nil
  | cons r rs => exact L.window (h.owned r List.mem_cons_self).base (h.room r rfl)

/-- **The items of an array are lowered in a row**: each takes its register above those of the items before it. -/
theorem sound_compileItems {items : List Operand} (h : ∀ o ∈ items, Good L o) :
    Sound L floor (compileItems items) fun rs => Row L floor rs items.length := by
  induction items generalizing floor with
  | nil => exact sound_pure row_nil
  | cons o items ih =>
    obtain ⟨ho, hos⟩ := List.forall_mem_cons.mp h
    refine sound_raise fun r hr => (ho _ r hr.writes).next ?_
    exact (ih hos).bind fun rs hrs => sound_pure (hrs.cons hr)

theorem sound_compileJsonArray {items : List Operand} (h : ∀ o ∈ items, Good L o) (hdst : L.demands.writes dst) :
    Sound L floor (compileJsonArray items dst) fun _ => True := by
  refine (sound_compileItems h).bind fun rs hrs => (sound_callBuiltin hdst hrs.window).next ?_
  exact sound_freeAll fun r hr => hrs.owned r (List.mem_reverse.mp hr)

theorem sound_compilePairs {pairs : List (String × Operand)} (h : ∀ p ∈ pairs, Good L p.2) :
    Sound L floor (compilePairs pairs) fun rs => Row L floor rs (2 * pairs.length) := by
  induction pairs generalizing floor with
  | nil => exact sound_pure row_nil
  | cons p pairs ih =>
    obtain ⟨hp, hps⟩ := List.forall_mem_cons.mp h
    refine sound_raise fun keyReg hkey => (sound_loadConst hkey.writes).next ?_
    refine sound_raise fun valueReg hvalue => (hp _ valueReg hvalue.writes).next ?_
    exact (ih hps).bind fun rs hrs => sound_pure ((hrs.cons hvalue).cons hkey)

theorem sound_compileJsonObject {pairs : List (String × Operand)} (h : ∀ p ∈ pairs, Good L p.2)
    (hdst : L.demands.writes dst) : Sound L floor (compileJsonObject pairs dst) fun _ => True := by
  refine (sound_compilePairs h).bind fun rs hrs => (sound_callBuiltin hdst hrs.window).next ?_
  exact sound_freeAll fun r hr => hrs.owned r (List.mem_reverse.mp hr)

end Sound

end Rend.Compile
