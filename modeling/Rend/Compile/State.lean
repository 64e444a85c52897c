import Rend.Compile.Operands
import Rend.Index.Maintain
import Rend.Lib.Script
import Rend.Structs.Paths
import Rend.Syntax.Ast

/-!
# The state of the function compiler

A function is lowered to code for the register machine in one pass (`compile.rs`). A sub-expression takes the
next free register and gives it back; the code, the constants and the field paths grow at their ends; a jump
is emitted without its offset and patched when its target is known.

The lowering is a script of the steps it takes on its state (`Step`), which `exec` carries out under the
conversions of `Widths`. An index is narrowed where the instruction that holds it is built, and arithmetic on
registers wraps, as in a release build. The offsets of jumps are exact. An error is its text; a panic is one
more error.
-/

namespace Rend.Compile

open Ast Lib

/-- The jumps of `break` and `continue` that wait for their targets. -/
structure LoopFrame where
  breakJumps : List ℕ
  continueJumps : List ℕ

/-- The names, pipes and loops around the place that is being lowered. What is innermost comes first. -/
structure Context where
  scopes : List (List (String × Reg))
  pipeStack : List Reg
  loopStack : List LoopFrame
  parallelForDepth : ℕ
  parallelForLoopBase : List ℕ

/-- What the lowering of a function changes (`FnCompiler`). -/
structure FnCompiler extends Context where
  code : List Instr
  consts : List Const
  nextReg : ℕ
  maxReg : ℕ
  pathSpecs : List PathSpec
  pathIndex : List ((ℕ × List String) × ℕ)

/-- A function whose call reads a state map at one of its parameters (`MapReadSummary`). -/
structure MapReadSummary where
  stateName : String
  paramIdx : ℕ

/-- What the lowering of a function reads of its module, and how a type is displayed. -/
structure Env where
  fnIndex : String → Option ℕ
  importIndex : String → Option ℕ
  stateIndex : String → Option ℕ
  stateTypes : List Ty
  stateRoots : List U128
  structIndex : String → Option ℕ
  structShapes : List StructShape
  statesByName : String → Option Ty
  summaries : String → Option MapReadSummary
  enumIndex : String → Option ℕ
  enumShapes : List EnumShape
  ifaceIndex : String → Bool
  moduleConsts : String → Option Expr
  externFnFlags : String × String → Option (Bool × Bool)
  indexesByPrimary : String → List Index.IndexDecl
  typeText : Ty → String

/-- What an instruction that has been emitted still lacks: the target of a jump, the legs of a `parallel`
block, the extent of a `parallel for`. -/
inductive Hole
  | offset (target : ℕ)
  | legs (ranges : List ParallelRange) (afterPc : ℕ)
  | body (bodyStart bodyEnd afterPc : ℕ)

/-- What the lowering does to its state, with the type of the answer. -/
inductive Step : Type → Type
  | alloc : Step Reg
  | free (r : Reg) : Step Unit
  | window (n : ℕ) : Step (Reg × List Reg)
  | release (n : ℕ) : Step Unit
  | nextReg : Step Reg
  | restore (saved : Reg) : Step Unit
  | push (i : Instr) : Step Unit
  | here : Step ℕ
  | fill (pos : ℕ) (hole : Hole) : Step Unit
  | constIdx (c : Const) : Step ℕ
  | internPath (stateIdx : ℕ) (path : List String) : Step (ℕ × List String)
  | context : Step Context
  | change (f : Context → Context) : Step Unit

/-- A lowering. -/
abbrev Low := Script String Step

/-! ### Carrying out a step -/

section Exec

variable (w : Widths)

/-- The state after `alloc`. -/
def bump (s : FnCompiler) : FnCompiler :=
  let next := w.u16 (s.nextReg + 1)
  { s with nextReg := next, maxReg := max s.maxReg next }

/-- `n - 1` as a `u16`. -/
def dec (n : ℕ) : ℕ := if n = 0 then 2 ^ 16 - 1 else n - 1

/-- The offset from one instruction to another. -/
def offsetTo (pos target : ℕ) : ℤ := target - pos - 1

/-- The instruction at a place, with what it lacked. -/
def Hole.fill (pos : ℕ) : Hole → Instr → Instr
  | .offset target, i => withOffset (offsetTo pos target) i
  | .legs ranges afterPc, .parallelBegin [] _ => .parallelBegin (ranges.map (narrowRange w)) afterPc
  | .body bodyStart bodyEnd afterPc, .parallelForBegin _ _ source output id idx _ =>
    .parallelForBegin bodyStart bodyEnd source output id idx afterPc
  | _, i => i

/-- The index of a constant, which is added when it is new (`const_idx`). -/
def addConst (c : Const) (s : FnCompiler) : ℕ × FnCompiler :=
  match s.consts.findIdx? (· = c) with
  | some i => (i, s)
  | none => (s.consts.length, { s with consts := s.consts ++ [c] })

/-- The index of a field path, and the names that lead on inside the cell (`intern_path`). -/
def addPath (env : Env) (stateIdx : ℕ) (path : List String) (s : FnCompiler) :
    Except String ((ℕ × List String) × FnCompiler) :=
  match env.stateRoots[stateIdx]?, env.stateTypes[stateIdx]? with
  | some root, some ty =>
    match Structs.internPath root ty path with
    | none => .error "panicked"
    | some (leafKey, leafType, chain) =>
      match s.pathIndex.lookup (stateIdx, path) with
      | some idx => .ok ((idx, chain), s)
      | none =>
        let spec : PathSpec := { leafKey := leafKey, leafType := leafType, isBlob := !chain.isEmpty }
        .ok ((s.pathSpecs.length, chain),
          { s with
            pathSpecs := s.pathSpecs ++ [spec]
            pathIndex := ((stateIdx, path), s.pathSpecs.length) :: s.pathIndex })
  | _, _ => .error "panicked"

/-- What a step does. -/
def exec (env : Env) : Script.Interp String Step FnCompiler := fun _ o s =>
  match o with
  | .alloc => .ok (s.nextReg, bump w s)
  | .free r => .ok ((), if w.u16 (r + 1) = s.nextReg then { s with nextReg := dec s.nextReg } else s)
  | .window n =>
    .ok ((s.nextReg, (List.range n).map fun i => w.u16 (s.nextReg + w.u16 i)), (bump w)^[n] s)
  | .release n => .ok ((), { s with nextReg := dec^[n] s.nextReg })
  | .nextReg => .ok (s.nextReg, s)
  | .restore saved => .ok ((), { s with nextReg := saved })
  | .push i => .ok ((), { s with code := s.code ++ [narrow w i] })
  | .here => .ok (s.code.length, s)
  | .fill pos hole => .ok ((), { s with code := s.code.modify pos (hole.fill w pos) })
  | .constIdx c => .ok (addConst c s)
  | .internPath stateIdx path => addPath env (w.u16 stateIdx) path s
  | .context => .ok (s.toContext, s)
  | .change f => .ok ((), { s with toContext := f s.toContext })

end Exec

/-! ### Registers -/

def alloc : Low Reg := .ask .alloc

/-- Gives a register back, when it is the last one taken. -/
def free (r : Reg) : Low Unit := .ask (.free r)

def freeAll : List Reg → Low Unit
  | [] => pure ()
  | r :: rs => do
    free r
    freeAll rs

/-- Takes `n` registers: the first, and the register of each operand. -/
def window (n : ℕ) : Low (Reg × List Reg) := .ask (.window n)

/-- Gives the last `n` registers back. -/
def release (n : ℕ) : Low Unit := .ask (.release n)

def nextReg : Low Reg := .ask .nextReg

/-- Gives all registers from `saved` on back. -/
def restore (saved : Reg) : Low Unit := .ask (.restore saved)

/-! ### Code -/

def push (i : Instr) : Low Unit := .ask (.push i)

/-- The place of the next instruction. -/
def here : Low ℕ := .ask .here

def fill (pos : ℕ) (hole : Hole) : Low Unit := .ask (.fill pos hole)

/-- Gives the jump at `pos` its target. -/
def patch (target pos : ℕ) : Low Unit := fill pos (.offset target)

def patchAll (target : ℕ) : List ℕ → Low Unit
  | [] => pure ()
  | pos :: rest => do
    patch target pos
    patchAll target rest

/-- Emits a jump without its offset and gives its place. -/
def pushJump (i : Instr) : Low ℕ := do
  let pos ← here
  push i
  return pos

/-- Emits a jump back to `target`. -/
def pushBack (target : ℕ) : Low Unit := do
  let pos ← here
  push (.jump (offsetTo pos target))

def constIdx (c : Const) : Low ℕ := .ask (.constIdx c)

/-- Loads a constant. -/
def loadConst (dst : Reg) (c : Const) : Low Unit := do
  let idx ← constIdx c
  push (.loadConst dst idx)

/-! ### Names and loops -/

/-- A lookup that has to succeed. -/
def expect {α : Type} (e : String) : Option α → Low α
  | some a => pure a
  | none => .fail e

def context : Low Context := .ask .context

def change (f : Context → Context) : Low Unit := .ask (.change f)

def pushScope : Low Unit := change fun c => { c with scopes := [] :: c.scopes }

def popScope : Low Unit := change fun c => { c with scopes := c.scopes.tail }

/-- Binds a name in the innermost scope. -/
def bindLocal (name : String) (r : Reg) : Low Unit := change fun c =>
  { c with scopes := ((name, r) :: c.scopes.headD []) :: c.scopes.tail }

def Context.lookupLocal (c : Context) (name : String) : Option Reg :=
  c.scopes.findSome? fun scope => scope.lookup name

def pushPipe (r : Reg) : Low Unit := change fun c => { c with pipeStack := r :: c.pipeStack }

def popPipe : Low Unit := change fun c => { c with pipeStack := c.pipeStack.tail }

def pushLoop : Low Unit := change fun c => { c with loopStack := ⟨[], []⟩ :: c.loopStack }

def popLoop : Low LoopFrame := do
  let frame ← expect "panicked" (← context).loopStack.head?
  change fun c => { c with loopStack := c.loopStack.tail }
  return frame

/-- Changes the frame of the innermost loop. -/
def onLoop (f : LoopFrame → LoopFrame) : Low Unit := change fun c => { c with loopStack := c.loopStack.modifyHead f }

/-- The state and the names of a chain of fields that ends at a state which no local hides
(`try_state_field_path`). -/
def tryStateFieldPath (env : Env) (c : Context) : Expr → Option (ℕ × List String)
  | .field target name => (tryStateFieldPath env c target).map fun p => (p.1, p.2 ++ [name])
  | .ident name =>
    if (c.lookupLocal name).isSome then none else (env.stateIndex name).map fun idx => (idx, [])
  | _ => none

def internPath (stateIdx : ℕ) (path : List String) : Low (ℕ × List String) := .ask (.internPath stateIdx path)

end Rend.Compile
