import Rend.Lib.Checks
import Rend.Modifier.Inline

/-!
# Modifiers as wrappers

A modifier wraps what it is applied to: its statements are run in order, each `_;` runs what is wrapped, and
its own tail is evaluated at the end. The value of the function is the value of the body that is wrapped at
last. `Executor` is what running a statement and evaluating an expression do, for any machine that runs the
language; an early end of the run (a `return`, an error) is a result of its own.

The expansion keeps to this exactly for the functions of `Wraps`: no modifier has a tail, a function with a
tail has nothing behind its `_;`, and no parameter stands where the walk does not go. Otherwise there is a
machine that sees the difference: the one that logs what it runs.
-/

namespace Rend.Modifier

open Ast Lib

/-! ### Running a body -/

/-- A machine for the statements and expressions of a body: its states, the values of expressions, and the
results of runs that end early. -/
structure Executor (σ V R : Type) where
  exec : Stmt → σ → Except R σ
  eval : Expr → σ → Except R (V × σ)
  unit : V

namespace Executor

variable {σ V R : Type} (X : Executor σ V R)

def execAll (stmts : List Stmt) (s : σ) : Except R σ := stmts.foldlM (fun s stmt => X.exec stmt s) s

/-- Runs a body: its statements, and its tail for the value. -/
def run (b : Block) (s : σ) : Except R (V × σ) := do
  let s ← X.execAll b.stmts s
  match b.tail with
  | none => .ok (X.unit, s)
  | some e => X.eval e s

/-- The statements of a modifier, with `inner` for each `_;`. -/
def wrapStmts (inner : σ → Except R (V × σ)) : List Stmt → V × σ → Except R (V × σ)
  | [], out => .ok out
  | stmt :: stmts, (v, s) =>
    if isPlaceholder stmt then do
      let out ← inner s
      wrapStmts inner stmts out
    else do
      let s ← X.exec stmt s
      wrapStmts inner stmts (v, s)

/-- Runs a body in the bodies of modifiers, from the outermost on. -/
def runWrapped : List Block → Block → σ → Except R (V × σ)
  | [], body, s => X.run body s
  | w :: wrappers, body, s => do
    let (v, s) ← X.wrapStmts (runWrapped wrappers body) w.stmts (X.unit, s)
    match w.tail with
    | none => .ok (v, s)
    | some e => do
      let (_, s) ← X.eval e s
      .ok (v, s)

end Executor

/-- The body of an applied modifier with its parameters inlined. -/
def wrapperOf (modifiers : List ModifierDecl) (applied : String × List Expr) : Option Block := do
  let m ← modifiers.find? fun m => m.name = applied.1
  let subst := bindParams m.params applied.2
  if (identsBlock m.body).all (Occ.named subst) then some (inlineBlock subst m.body) else none

/-- The body runs as the function does in its modifiers, on every machine. -/
def Preserves (modifiers : List ModifierDecl) (f : FnDef) (body : Block) : Prop :=
  ∃ wrappers, f.modifiers.mapM (wrapperOf modifiers) = some wrappers ∧
    ∀ {σ V R : Type} (X : Executor σ V R) (s : σ), X.run body s = X.runWrapped wrappers f.body s

/-- What a function and its modifiers are for the expansion to keep to the wrappers. -/
structure Wraps (modifiers : List ModifierDecl) (f : FnDef) : Prop where
  noTail : ∀ applied ∈ f.modifiers, ∀ m, (modifiers.find? fun m => m.name = applied.1) = some m → m.body.tail = none
  atEnd : f.body.tail ≠ none → ∀ applied ∈ f.modifiers, ∀ m,
    (modifiers.find? fun m => m.name = applied.1) = some m →
      ∃ before, m.body.stmts = before ++ [.placeholder] ∧ ∀ s ∈ before, isPlaceholder s = false
  walked : ∀ applied ∈ f.modifiers, ∀ m, (modifiers.find? fun m => m.name = applied.1) = some m →
    ∀ o ∈ identsStmts m.body.stmts, o.place ≠ .walked → Same (bindParams m.params applied.2) o.name

/-! ### Splicing -/

theorem inlineStmts_eq_map (subst : Subst) (stmts : List Stmt) :
    inlineStmts subst stmts = stmts.map (inlineStmt subst) := by
  induction stmts with
  | nil => rfl
  | cons s stmts ih => rw [inlineStmts, ih, List.map_cons]

theorem substituteInStmts_eq_map (subst : Subst) (stmts : List Stmt) :
    substituteInStmts subst stmts = stmts.map (substituteParamsInStmt subst) := by
  induction stmts with
  | nil => rfl
  | cons s stmts ih => rw [substituteInStmts, ih, List.map_cons]

/-- A change of statements that leaves each `_;` one and makes none. -/
def KeepsHoles (g : Stmt → Stmt) : Prop := ∀ s, isPlaceholder (g s) = isPlaceholder s

theorem keepsHoles_inline (subst : Subst) : KeepsHoles (inlineStmt subst) := by
  intro s
  cases s <;> rfl

theorem keepsHoles_substitute (subst : Subst) : KeepsHoles (substituteParamsInStmt subst) := by
  intro s
  rcases s with _ | _ | _ | _ | ⟨_, ⟨_, _⟩⟩ | ⟨_, _, _, ⟨_, _⟩⟩ | ⟨_, _, _, _, ⟨_, _⟩⟩ | _ | _ | _ | _ |
    ⟨_, _, _, _, ⟨_, _⟩⟩ | _ | _ | _ | _ <;> rfl

theorem eq_placeholder {s : Stmt} (h : isPlaceholder s = true) : s = .placeholder := by
  cases s <;> first | rfl | cases h

theorem KeepsHoles.any {g : Stmt → Stmt} (hg : KeepsHoles g) (stmts : List Stmt) :
    (stmts.map g).any isPlaceholder = stmts.any isPlaceholder := by
  rw [List.any_map]
  exact congrArg stmts.any (funext hg)

theorem KeepsHoles.getLast?_placeholder {g : Stmt → Stmt} (hg : KeepsHoles g) {stmts : List Stmt}
    (h : (stmts.map g).getLast? = some .placeholder) : stmts.getLast? = some .placeholder := by
  rw [List.getLast?_map] at h
  obtain ⟨s, hs, hgs⟩ := Option.map_eq_some_iff.mp h
  rw [hs, eq_placeholder ((hg s).symm.trans (congrArg isPlaceholder hgs))]

@[simp] theorem splice_nil (current : List Stmt) : splice [] current = [] := rfl

theorem splice_cons (s : Stmt) (stmts current : List Stmt) :
    splice (s :: stmts) current = (if isPlaceholder s then current else [s]) ++ splice stmts current := rfl

/-- What splicing gives tells how the statements were changed, and what was spliced. -/
theorem splice_inj {g g' : Stmt → Stmt} (hg : KeepsHoles g) (hg' : KeepsHoles g') {stmts current current' : List Stmt}
    (hlen : current.length = current'.length) (h : splice (stmts.map g) current = splice (stmts.map g') current') :
    (∀ s ∈ stmts, g s = g' s) ∧ (stmts.any isPlaceholder = true → current = current') := by
  induction stmts with
  | nil => exact ⟨fun s hs => absurd hs List.not_mem_nil, fun hany => absurd hany (by simp)⟩
  | cons s stmts ih =>
    rw [List.map_cons, List.map_cons, splice_cons, splice_cons, hg, hg'] at h
    by_cases hs : isPlaceholder s
    · rw [if_pos hs, if_pos hs] at h
      obtain ⟨hcurrent, hrest⟩ := List.append_inj h hlen
      refine ⟨List.forall_mem_cons.mpr ⟨?_, (ih hrest).1⟩, fun _ => hcurrent⟩
      rw [eq_placeholder ((hg s).trans hs), eq_placeholder ((hg' s).trans hs)]
    · rw [if_neg hs, if_neg hs] at h
      obtain ⟨hhead, hrest⟩ := List.append_inj h rfl
      refine ⟨List.forall_mem_cons.mpr ⟨by simpa using hhead, (ih hrest).1⟩, fun hany => (ih hrest).2 ?_⟩
      simpa [hs] using hany

theorem length_splice {g g' : Stmt → Stmt} (hg : KeepsHoles g) (hg' : KeepsHoles g') (stmts : List Stmt)
    {current current' : List Stmt} (hlen : current.length = current'.length) :
    (splice (stmts.map g) current).length = (splice (stmts.map g') current').length := by
  induction stmts with
  | nil => rfl
  | cons s stmts ih =>
    rw [List.map_cons, List.map_cons, splice_cons, splice_cons, hg, hg', List.length_append, List.length_append, ih]
    split
    · rw [hlen]
    · rfl

/-- A modifier that is applied, and what its parameters stand for. -/
abbrev Layer := ModifierDecl × Subst

def Layer.walked (d : Layer) : List Stmt := d.1.body.stmts.map (substituteParamsInStmt d.2)

def Layer.inlined (d : Layer) : Block := inlineBlock d.2 d.1.body

theorem Layer.inlined_stmts (d : Layer) : d.inlined.stmts = d.1.body.stmts.map (inlineStmt d.2) := by
  obtain ⟨⟨name, params, ⟨stmts, tail⟩⟩, subst⟩ := d
  exact inlineStmts_eq_map subst stmts

theorem Layer.inlined_tail (d : Layer) : d.inlined.tail = inlineOption d.2 d.1.body.tail := by
  obtain ⟨⟨name, params, ⟨stmts, tail⟩⟩, subst⟩ := d
  rfl

/-- The bodies of modifiers spliced around statements, from the outermost on. -/
def spliceAll (bodies : List (List Stmt)) (stmts : List Stmt) : List Stmt := bodies.foldr splice stmts

theorem length_spliceAll (layers : List Layer) (stmts : List Stmt) :
    (spliceAll (layers.map fun d => d.inlined.stmts) stmts).length =
      (spliceAll (layers.map Layer.walked) stmts).length := by
  induction layers with
  | nil => rfl
  | cons d layers ih =>
    simp only [List.map_cons, spliceAll, List.foldr_cons, d.inlined_stmts]
    exact length_splice (keepsHoles_inline d.2) (keepsHoles_substitute d.2) d.1.body.stmts ih

theorem spliceAll_inj {layers : List Layer} (hholes : ∀ d ∈ layers, d.1.body.stmts.any isPlaceholder = true)
    {stmts : List Stmt}
    (h : spliceAll (layers.map fun d => d.inlined.stmts) stmts = spliceAll (layers.map Layer.walked) stmts) :
    ∀ d ∈ layers, d.inlined.stmts = d.walked := by
  induction layers with
  | nil => exact fun d hd => absurd hd List.not_mem_nil
  | cons d layers ih =>
    obtain ⟨hhole, hholes⟩ := List.forall_mem_cons.mp hholes
    simp only [List.map_cons, spliceAll, List.foldr_cons, d.inlined_stmts] at h
    obtain ⟨hstmts, hcurrent⟩ := splice_inj (keepsHoles_inline d.2) (keepsHoles_substitute d.2)
      (length_spliceAll layers stmts) h
    refine List.forall_mem_cons.mpr ⟨?_, ih hholes (hcurrent hhole)⟩
    rw [d.inlined_stmts, Layer.walked, List.map_congr_left hstmts]

/-! ### The machine that logs -/

/-- What a machine runs: a statement or a tail. -/
inductive Item
  | stmt (s : Stmt)
  | tail (e : Expr)

/-- The machine that logs what it runs. -/
def logger : Executor (List Item) Unit Empty where
  exec := fun s log => .ok (log ++ [.stmt s])
  eval := fun e log => .ok ((), log ++ [.tail e])
  unit := ()

def tailItems (tail : Option Expr) : List Item := (tail.map Item.tail).toList

def itemsOf (b : Block) : List Item := b.stmts.map .stmt ++ tailItems b.tail

/-- What is run of a body in the bodies of modifiers. -/
def wrappedItems : List Block → Block → List Item
  | [], body => itemsOf body
  | w :: wrappers, body =>
    (w.stmts.flatMap fun s => if isPlaceholder s then wrappedItems wrappers body else [.stmt s]) ++ tailItems w.tail

theorem execAll_logger (stmts : List Stmt) (log : List Item) :
    logger.execAll stmts log = .ok (log ++ stmts.map .stmt) := by
  induction stmts generalizing log with
  | nil => simp [Executor.execAll, pure, Except.pure]
  | cons s stmts ih =>
    have hrest := ih (log ++ [.stmt s])
    rw [List.append_assoc] at hrest
    exact hrest

theorem run_logger (b : Block) (log : List Item) : logger.run b log = .ok ((), log ++ itemsOf b) := by
  rw [Executor.run, execAll_logger]
  cases htail : b.tail <;> simp [itemsOf, tailItems, htail, logger, bind, Except.bind]

theorem wrapStmts_logger {inner : List Item → Except Empty (Unit × List Item)} {items : List Item}
    (hinner : ∀ log, inner log = .ok ((), log ++ items)) (stmts : List Stmt) (log : List Item) :
    logger.wrapStmts inner stmts ((), log) =
      .ok ((), log ++ stmts.flatMap fun s => if isPlaceholder s then items else [.stmt s]) := by
  induction stmts generalizing log with
  | nil => simp [Executor.wrapStmts]
  | cons s stmts ih =>
    rw [Executor.wrapStmts]
    by_cases hs : isPlaceholder s
    · simp [hs, hinner, ih, bind, Except.bind]
    · simp [hs, logger, bind, Except.bind]
      exact (ih _).trans (by simp)

theorem runWrapped_logger (wrappers : List Block) (body : Block) (log : List Item) :
    logger.runWrapped wrappers body log = .ok ((), log ++ wrappedItems wrappers body) := by
  induction wrappers generalizing log with
  | nil => exact run_logger body log
  | cons w wrappers ih =>
    rw [Executor.runWrapped, wrapStmts_logger ih]
    cases htail : w.tail <;> simp [wrappedItems, tailItems, htail, logger, bind, Except.bind]

/-! ### What the log tells -/

def Item.isTail : Item → Bool
  | .stmt _ => false
  | .tail _ => true

def Item.stmt? : Item → Option Stmt
  | .stmt s => some s
  | .tail _ => none

/-- The statements that are run, in order. -/
theorem stmts_wrappedItems (wrappers : List Block) (body : Block) :
    (wrappedItems wrappers body).filterMap Item.stmt? = spliceAll (wrappers.map Block.stmts) body.stmts := by
  have htail : ∀ tail : Option Expr, (tailItems tail).filterMap Item.stmt? = [] := by
    rintro (_ | e) <;> rfl
  have hstmts : ∀ stmts : List Stmt, (stmts.map Item.stmt).filterMap Item.stmt? = stmts := by
    intro stmts
    rw [List.filterMap_map]
    exact List.filterMap_some
  induction wrappers with
  | nil => rw [wrappedItems, itemsOf, List.filterMap_append, hstmts, htail, List.append_nil]; rfl
  | cons w wrappers ih =>
    rw [wrappedItems, List.filterMap_append, htail, List.append_nil, List.map_cons, spliceAll, List.foldr_cons,
      splice, List.filterMap_flatMap]
    congr 1
    funext s
    split
    · exact ih
    · rfl

theorem countP_tailItems (tail : Option Expr) : (tailItems tail).countP Item.isTail = tail.toList.length := by
  cases tail <;> rfl

theorem countP_itemsOf (b : Block) : (itemsOf b).countP Item.isTail = b.tail.toList.length := by
  have hstmts : (b.stmts.map Item.stmt).countP Item.isTail = 0 := by
    rw [List.countP_map, List.countP_eq_zero]
    exact fun s _ => by simp [Item.isTail]
  rw [itemsOf, List.countP_append, hstmts, countP_tailItems, Nat.zero_add]

/-- How often tails are evaluated: for each `_;` as often as in what is wrapped, and once for the tail of the
modifier. -/
theorem countP_wrappedItems_cons (w : Block) (wrappers : List Block) (body : Block) :
    (wrappedItems (w :: wrappers) body).countP Item.isTail =
      w.stmts.countP isPlaceholder * (wrappedItems wrappers body).countP Item.isTail + w.tail.toList.length := by
  rw [wrappedItems, List.countP_append, countP_tailItems]
  congr 1
  induction w.stmts with
  | nil => simp
  | cons s stmts ih =>
    rw [List.flatMap_cons, List.countP_append, ih, List.countP_cons]
    by_cases hs : isPlaceholder s
    · simp [hs, Nat.add_mul, Nat.add_comm]
    · simp [hs, Item.isTail]

theorem le_countP_wrappedItems {wrappers : List Block} (hholes : ∀ w ∈ wrappers, w.stmts.any isPlaceholder = true)
    (body : Block) : body.tail.toList.length ≤ (wrappedItems wrappers body).countP Item.isTail := by
  induction wrappers with
  | nil => exact (countP_itemsOf body).ge
  | cons w wrappers ih =>
    obtain ⟨hhole, hholes⟩ := List.forall_mem_cons.mp hholes
    have hpos : 0 < w.stmts.countP isPlaceholder := List.countP_pos_iff.mpr (List.any_eq_true.mp hhole)
    rw [countP_wrappedItems_cons]
    exact (ih hholes).trans ((Nat.le_mul_of_pos_left _ hpos).trans (Nat.le_add_right _ _))

/-- If tails are evaluated as often as the body has one, no modifier has a tail, and a modifier around a body
with a tail has one `_;`. -/
theorem tails_of_count {wrappers : List Block} (hholes : ∀ w ∈ wrappers, w.stmts.any isPlaceholder = true)
    {body : Block} (h : (wrappedItems wrappers body).countP Item.isTail = body.tail.toList.length) :
    ∀ w ∈ wrappers, w.tail = none ∧ (body.tail ≠ none → w.stmts.countP isPlaceholder = 1) := by
  induction wrappers with
  | nil => exact fun w hw => absurd hw List.not_mem_nil
  | cons w wrappers ih =>
    obtain ⟨hhole, hholes⟩ := List.forall_mem_cons.mp hholes
    have hpos : 0 < w.stmts.countP isPlaceholder := List.countP_pos_iff.mpr (List.any_eq_true.mp hhole)
    have hle := le_countP_wrappedItems hholes body
    have hmul := Nat.le_mul_of_pos_left ((wrappedItems wrappers body).countP Item.isTail) hpos
    rw [countP_wrappedItems_cons] at h
    have hinner : (wrappedItems wrappers body).countP Item.isTail = body.tail.toList.length := by omega
    refine List.forall_mem_cons.mpr ⟨⟨?_, fun hbody => ?_⟩, ih hholes hinner⟩
    · have hzero : w.tail.toList.length = 0 := by omega
      cases htail : w.tail with
      | none => rfl
      | some e => simp [htail] at hzero
    · obtain ⟨e, he⟩ := Option.ne_none_iff_exists'.mp hbody
      rw [hinner, he] at h
      simp only [Option.toList_some, List.length_singleton, Nat.mul_one] at h
      omega

/-- If the last thing that is run is a tail and no modifier has one, each ends with its `_;`. -/
theorem ends_of_last {wrappers : List Block} (hholes : ∀ w ∈ wrappers, w.stmts.any isPlaceholder = true)
    (htails : ∀ w ∈ wrappers, w.tail = none) {body : Block} (hbody : body.tail ≠ none) {e : Expr}
    (h : (wrappedItems wrappers body).getLast? = some (.tail e)) :
    ∀ w ∈ wrappers, w.stmts.getLast? = some .placeholder := by
  induction wrappers with
  | nil => exact fun w hw => absurd hw List.not_mem_nil
  | cons w wrappers ih =>
    obtain ⟨hhole, hholes⟩ := List.forall_mem_cons.mp hholes
    obtain ⟨htail, htails⟩ := List.forall_mem_cons.mp htails
    have hitems : wrappedItems wrappers body ≠ [] := by
      intro hnil
      have hle := le_countP_wrappedItems hholes body
      obtain ⟨e, he⟩ := Option.ne_none_iff_exists'.mp hbody
      simp [hnil, he] at hle
    obtain hnil | ⟨before, last, hlast⟩ := List.eq_nil_or_concat' w.stmts
    · simp [hnil] at hhole
    · rw [wrappedItems, htail, hlast, List.flatMap_append, List.append_assoc] at h
      by_cases hp : isPlaceholder last
      · have hinner : (wrappedItems wrappers body).getLast? = some (.tail e) := by
          rw [List.getLast?_append_of_ne_nil _ (by simp [hp, hitems])] at h
          simpa [hp, tailItems] using h
        refine List.forall_mem_cons.mpr ⟨?_, ih hholes htails hinner⟩
        rw [hlast, eq_placeholder hp]
        exact List.getLast?_concat
      · simp [hp, tailItems] at h

/-! ### Running what is spliced -/

section Run

variable {σ V R : Type} (X : Executor σ V R)

theorem execAll_append (stmts stmts' : List Stmt) (s : σ) :
    X.execAll (stmts ++ stmts') s = X.execAll stmts s >>= X.execAll stmts' := List.foldlM_append

theorem run_append (stmts stmts' : List Stmt) (tail : Option Expr) (s : σ) :
    X.run (.mk (stmts ++ stmts') tail) s = X.execAll stmts s >>= X.run (.mk stmts' tail) := by
  simp only [Executor.run, Block.stmts_mk, Block.tail_mk, execAll_append, bind_assoc]
  rfl

/-- A modifier around statements without a tail. -/
theorem wrapStmts_splice {inner : σ → Except R (V × σ)} {current : List Stmt}
    (hinner : ∀ s, inner s = X.run (.mk current none) s) (stmts : List Stmt) (s : σ) :
    X.wrapStmts inner stmts (X.unit, s) = X.run (.mk (splice stmts current) none) s := by
  induction stmts generalizing s with
  | nil => rfl
  | cons stmt stmts ih =>
    rw [Executor.wrapStmts, splice_cons, run_append]
    by_cases hs : isPlaceholder stmt
    · rw [if_pos hs, if_pos hs, hinner, Executor.run]
      simp only [Block.stmts_mk, Block.tail_mk, bind_assoc]
      exact congrArg (X.execAll current s >>= ·) (funext ih)
    · rw [if_neg hs, if_neg hs]
      have hone : X.execAll [stmt] s = X.exec stmt s := by simp [Executor.execAll]
      rw [hone]
      exact congrArg (X.exec stmt s >>= ·) (funext ih)

/-- A modifier that ends with its only `_;`. -/
theorem wrapStmts_before {inner : σ → Except R (V × σ)} {before : List Stmt}
    (hbefore : ∀ s ∈ before, isPlaceholder s = false) (v : V) (s : σ) :
    X.wrapStmts inner (before ++ [.placeholder]) (v, s) = X.execAll before s >>= inner := by
  induction before generalizing s with
  | nil =>
    have hhole : isPlaceholder .placeholder = true := rfl
    rw [List.nil_append, Executor.wrapStmts, if_pos hhole]
    cases hinner : inner s <;> simp [Executor.wrapStmts, Executor.execAll, hinner, bind, Except.bind, pure, Except.pure]
  | cons stmt before ih =>
    obtain ⟨hs, hbefore⟩ := List.forall_mem_cons.mp hbefore
    rw [List.cons_append, Executor.wrapStmts, hs, if_neg Bool.false_ne_true]
    have hcons : X.execAll (stmt :: before) s = X.exec stmt s >>= X.execAll before := rfl
    rw [hcons, bind_assoc]
    exact congrArg (X.exec stmt s >>= ·) (funext fun s => ih hbefore s)

theorem runWrapped_splice {bodies : List (List Stmt)} {body : Block}
    (hends : body.tail ≠ none → ∀ b ∈ bodies, ∃ before, b = before ++ [.placeholder] ∧
      ∀ s ∈ before, isPlaceholder s = false) (s : σ) :
    X.runWrapped (bodies.map fun b => .mk b none) body s =
      X.run (.mk (spliceAll bodies body.stmts) body.tail) s := by
  induction bodies generalizing s with
  | nil =>
    obtain ⟨stmts, tail⟩ := body
    rfl
  | cons b bodies ih =>
    have ih := ih fun hbody b hb => hends hbody b (List.mem_cons_of_mem _ hb)
    have hpass : X.runWrapped ((b :: bodies).map fun b => .mk b none) body s =
        X.wrapStmts (X.runWrapped (bodies.map fun b => .mk b none) body) b (X.unit, s) := by
      rw [List.map_cons, Executor.runWrapped, Block.stmts_mk, Block.tail_mk]
      exact bind_pure _
    rw [hpass, spliceAll, List.foldr_cons]
    by_cases hbody : body.tail = none
    · rw [hbody] at ih ⊢
      exact wrapStmts_splice X ih b s
    · obtain ⟨before, rfl, hbefore⟩ := hends hbody b List.mem_cons_self
      have hsplice : splice (before ++ [.placeholder]) (bodies.foldr splice body.stmts) =
          before ++ bodies.foldr splice body.stmts := by
        rw [splice, List.flatMap_append]
        congr 1
        · rw [List.flatMap_congr (g := fun s => [s]) fun s hs => by rw [hbefore s hs]; rfl]
          simp
        · simp [isPlaceholder]
      rw [wrapStmts_before X hbefore, hsplice, run_append]
      exact congrArg (X.execAll before s >>= ·) (funext ih)

end Run

/-! ### One layer -/

/-- The targets in the body of a modifier can be inlined. -/
def Layer.named (d : Layer) : Prop := ∀ o ∈ identsBlock d.1.body, o.named d.2 = true

/-- What `Wraps` asks of one modifier that is applied. -/
structure Keeps (tail : Option Expr) (d : Layer) : Prop where
  noTail : d.1.body.tail = none
  atEnd : tail ≠ none → ∃ before, d.1.body.stmts = before ++ [.placeholder] ∧ ∀ s ∈ before, isPlaceholder s = false
  walked : ∀ o ∈ identsStmts d.1.body.stmts, o.place ≠ .walked → Same d.2 o.name

theorem Same.named {subst : Subst} {o : Occ} (h : Same subst o.name) : o.named subst = true := by
  rcases o with ⟨name, place⟩
  obtain h | h := h <;> cases place <;> simp only [Occ.named] <;> rw [h]

theorem Keeps.named {tail : Option Expr} {d : Layer} (h : Keeps tail d) : d.named := by
  intro o ho
  rw [identsBlock, h.noTail, identsOption, List.append_nil] at ho
  by_cases hplace : o.place = .walked
  · rw [Occ.named, hplace]
  · exact (h.walked o ho hplace).named

/-- Inlining gives the statements the walk gives when the places it does not go to have no parameter. -/
theorem Layer.inlined_eq_walked_iff {d : Layer} (h : d.named) :
    d.inlined.stmts = d.walked ↔ ∀ o ∈ identsStmts d.1.body.stmts, o.place ≠ .walked → Same d.2 o.name := by
  rw [d.inlined_stmts, Layer.walked, ← inlineStmts_eq_map, ← substituteInStmts_eq_map]
  exact walkStmts d.2 d.1.body.stmts fun o ho => h o (List.mem_append_left _ ho)

theorem Keeps.inlined {tail : Option Expr} {d : Layer} (h : Keeps tail d) : d.inlined = .mk d.walked none := by
  have hstmts := (Layer.inlined_eq_walked_iff h.named).mpr h.walked
  have htail := d.inlined_tail
  rw [h.noTail] at htail
  cases hd : d.inlined
  rw [hd] at hstmts htail
  cases hstmts
  cases htail
  rfl

theorem Keeps.walked_ends {tail : Option Expr} {d : Layer} (h : Keeps tail d) (htail : tail ≠ none) :
    ∃ before, d.walked = before ++ [.placeholder] ∧ ∀ s ∈ before, isPlaceholder s = false := by
  obtain ⟨before, hbody, hbefore⟩ := h.atEnd htail
  refine ⟨before.map (substituteParamsInStmt d.2), ?_, fun s hs => ?_⟩
  · rw [Layer.walked, hbody, List.map_append]
    rfl
  · obtain ⟨s, hmem, rfl⟩ := List.mem_map.mp hs
    rw [keepsHoles_substitute]
    exact hbefore s hmem

/-- A list with one `_;`, at its end. -/
theorem ends_of_countP {stmts : List Stmt} (hcount : stmts.countP isPlaceholder = 1)
    (hlast : stmts.getLast? = some .placeholder) :
    ∃ before, stmts = before ++ [.placeholder] ∧ ∀ s ∈ before, isPlaceholder s = false := by
  obtain ⟨before, rfl⟩ := List.getLast?_eq_some_iff.mp hlast
  refine ⟨before, rfl, fun s hs => ?_⟩
  have hone : [Stmt.placeholder].countP isPlaceholder = 1 := rfl
  rw [List.countP_append, hone] at hcount
  have hzero : before.countP isPlaceholder = 0 := by omega
  simpa using List.countP_eq_zero.mp hzero s hs

/-- The layers run as wrappers when each of them keeps to it, and otherwise the log differs. -/
theorem layers_iff {layers : List Layer} (hholes : ∀ d ∈ layers, d.1.body.stmts.any isPlaceholder = true)
    (body : Block) :
    ((∀ d ∈ layers, d.named) ∧ ∀ {σ V R : Type} (X : Executor σ V R) (s : σ),
      X.run (.mk (spliceAll (layers.map Layer.walked) body.stmts) body.tail) s =
        X.runWrapped (layers.map Layer.inlined) body s) ↔ ∀ d ∈ layers, Keeps body.tail d := by
  constructor
  · rintro ⟨hnamed, hrun⟩
    have hlog := hrun logger []
    rw [run_logger, runWrapped_logger, List.nil_append, List.nil_append] at hlog
    have hitems : itemsOf (.mk (spliceAll (layers.map Layer.walked) body.stmts) body.tail) =
        wrappedItems (layers.map Layer.inlined) body := by
      simpa using hlog
    have hinlined : ∀ w ∈ layers.map Layer.inlined, w.stmts.any isPlaceholder = true := by
      intro w hw
      obtain ⟨d, hd, rfl⟩ := List.mem_map.mp hw
      rw [d.inlined_stmts, (keepsHoles_inline d.2).any]
      exact hholes d hd
    have hcount := countP_itemsOf (.mk (spliceAll (layers.map Layer.walked) body.stmts) body.tail)
    rw [hitems, Block.tail_mk] at hcount
    have htails := tails_of_count hinlined hcount
    have hstmts := stmts_wrappedItems (layers.map Layer.inlined) body
    rw [← hitems] at hstmts
    have hrun := stmts_wrappedItems [] (.mk (spliceAll (layers.map Layer.walked) body.stmts) body.tail)
    rw [wrappedItems, hstmts, List.map_map] at hrun
    have hwalked := spliceAll_inj hholes hrun
    intro d hd
    have hmem : d.inlined ∈ layers.map Layer.inlined := List.mem_map_of_mem hd
    obtain ⟨htail, hone⟩ := htails _ hmem
    refine ⟨?_, fun hbody => ?_, (Layer.inlined_eq_walked_iff (hnamed d hd)).mp (hwalked d hd)⟩
    · rw [d.inlined_tail] at htail
      cases hd : d.1.body.tail with
      | none => rfl
      | some e => simp [hd, inlineOption] at htail
    · obtain ⟨e, he⟩ := Option.ne_none_iff_exists'.mp hbody
      have hlast : (wrappedItems (layers.map Layer.inlined) body).getLast? = some (.tail e) := by
        rw [← hitems, itemsOf, Block.tail_mk, he]
        exact List.getLast?_concat
      have hends := ends_of_last hinlined (fun w hw => (htails w hw).1) hbody hlast _ hmem
      have hone := hone hbody
      rw [d.inlined_stmts] at hends hone
      refine ends_of_countP ?_ ((keepsHoles_inline d.2).getLast?_placeholder hends)
      rw [← hone, List.countP_map]
      exact congrArg (List.countP · _) (funext (keepsHoles_inline d.2)).symm
  · intro hkeeps
    refine ⟨fun d hd => (hkeeps d hd).named, fun X s => ?_⟩
    have hlayers : layers.map Layer.inlined = (layers.map Layer.walked).map fun b => Block.mk b none := by
      rw [List.map_map]
      exact List.map_congr_left fun d hd => (hkeeps d hd).inlined
    rw [hlayers, runWrapped_splice X fun hbody b hb => ?_]
    obtain ⟨d, hd, rfl⟩ := List.mem_map.mp hb
    exact (hkeeps d hd).walked_ends hbody

/-! ### The expansion of a function -/

/-- The layer of a modifier that is applied. -/
structure IsLayer (modifiers : List ModifierDecl) (applied : String × List Expr) (d : Layer) : Prop where
  found : (modifiers.find? fun m => m.name = applied.1) = some d.1
  hole : d.1.body.stmts.any isPlaceholder = true
  bound : d.2 = bindParams d.1.params applied.2

theorem applyModifier_ok {modifiers : List ModifierDecl} {current current' : List Stmt} {applied : String × List Expr}
    (h : applyModifier modifiers current applied = .ok current') :
    ∃ d, IsLayer modifiers applied d ∧ current' = splice d.walked current := by
  unfold applyModifier at h
  split at h
  case h_1 => cases h
  case h_2 m hfound =>
    split_ifs at h with hlen hhole
    cases h
    refine ⟨⟨m, bindParams m.params applied.2⟩, ⟨hfound, hhole, rfl⟩, ?_⟩
    rw [substituteInStmts_eq_map]
    rfl

theorem layers_of_foldlM {modifiers : List ModifierDecl} {applied : List (String × List Expr)}
    {stmts current : List Stmt} (h : applied.reverse.foldlM (applyModifier modifiers) stmts = .ok current) :
    ∃ layers, List.Forall₂ (IsLayer modifiers) applied layers ∧
      current = spliceAll (layers.map Layer.walked) stmts := by
  induction applied generalizing current with
  | nil =>
    cases h
    exact ⟨[], .nil, rfl⟩
  | cons a applied ih =>
    rw [List.reverse_cons, List.foldlM_append] at h
    obtain ⟨inner, hinner, hlast⟩ := bind_ok h
    obtain ⟨layers, hlayers, rfl⟩ := ih hinner
    rw [List.foldlM_cons] at hlast
    obtain ⟨outer, houter, hnil⟩ := bind_ok hlast
    cases hnil
    obtain ⟨d, hd, rfl⟩ := applyModifier_ok houter
    exact ⟨d :: layers, .cons hd hlayers, rfl⟩

theorem wrapperOf_layer {modifiers : List ModifierDecl} {applied : String × List Expr} {d : Layer}
    (h : IsLayer modifiers applied d) {w : Block} : wrapperOf modifiers applied = some w ↔ d.named ∧ w = d.inlined := by
  have hall : (identsBlock d.1.body).all (Occ.named (bindParams d.1.params applied.2)) = true ↔ d.named := by
    rw [List.all_eq_true, ← h.bound]
    rfl
  simp only [wrapperOf, h.found, Option.bind_eq_bind, Option.bind_some]
  split_ifs with hnamed
  · rw [Option.some_inj, ← h.bound]
    exact ⟨fun heq => ⟨hall.mp hnamed, heq.symm⟩, fun hw => hw.2.symm⟩
  · exact ⟨fun heq => by simp at heq, fun hw => absurd (hall.mpr hw.1) hnamed⟩

theorem wrappers_layers {modifiers : List ModifierDecl} {applied : List (String × List Expr)} {layers : List Layer}
    (h : List.Forall₂ (IsLayer modifiers) applied layers) (wrappers : List Block) :
    applied.mapM (wrapperOf modifiers) = some wrappers ↔
      (∀ d ∈ layers, d.named) ∧ wrappers = layers.map Layer.inlined := by
  induction h generalizing wrappers with
  | nil => simp [eq_comm]
  | @cons a d applied layers ha _ ih =>
    rw [List.mapM_cons, List.forall_mem_cons, List.map_cons]
    constructor
    · intro h
      obtain ⟨w, hw, hrest⟩ := Option.bind_eq_some_iff.mp h
      obtain ⟨ws, hws, hcons⟩ := Option.bind_eq_some_iff.mp hrest
      obtain ⟨hnamed, rfl⟩ := (wrapperOf_layer ha).mp hw
      obtain ⟨hall, rfl⟩ := (ih ws).mp hws
      cases hcons
      exact ⟨⟨hnamed, hall⟩, rfl⟩
    · rintro ⟨⟨hnamed, hall⟩, rfl⟩
      rw [(wrapperOf_layer ha).mpr ⟨hnamed, rfl⟩, (ih _).mpr ⟨hall, rfl⟩]
      rfl

theorem exists_of_forall₂ {α β : Type} {r : α → β → Prop} {as : List α} {bs : List β} (h : List.Forall₂ r as bs) :
    (∀ a ∈ as, ∃ b ∈ bs, r a b) ∧ ∀ b ∈ bs, ∃ a ∈ as, r a b := by
  induction h with
  | nil => simp
  | cons hr _ ih =>
    obtain ⟨hleft, hright⟩ := ih
    refine ⟨List.forall_mem_cons.mpr ⟨⟨_, List.mem_cons_self, hr⟩, fun a ha => ?_⟩,
      List.forall_mem_cons.mpr ⟨⟨_, List.mem_cons_self, hr⟩, fun b hb => ?_⟩⟩
    · obtain ⟨b, hb, hab⟩ := hleft a ha
      exact ⟨b, List.mem_cons_of_mem _ hb, hab⟩
    · obtain ⟨a, ha, hab⟩ := hright b hb
      exact ⟨a, List.mem_cons_of_mem _ ha, hab⟩

theorem wraps_iff {modifiers : List ModifierDecl} {f : FnDef} {layers : List Layer}
    (h : List.Forall₂ (IsLayer modifiers) f.modifiers layers) :
    Wraps modifiers f ↔ ∀ d ∈ layers, Keeps f.body.tail d := by
  obtain ⟨happlied, hlayers⟩ := exists_of_forall₂ h
  constructor
  · intro hw d hd
    obtain ⟨applied, hmem, hlayer⟩ := hlayers d hd
    have hwalked := hw.walked applied hmem d.1 hlayer.found
    rw [← hlayer.bound] at hwalked
    exact ⟨hw.noTail applied hmem d.1 hlayer.found, fun htail => hw.atEnd htail applied hmem d.1 hlayer.found, hwalked⟩
  · intro hk
    have hkeeps : ∀ applied ∈ f.modifiers, ∀ m, (modifiers.find? fun m => m.name = applied.1) = some m →
        Keeps f.body.tail (m, bindParams m.params applied.2) := by
      intro applied hmem m hm
      obtain ⟨d, hd, hlayer⟩ := happlied applied hmem
      obtain rfl : m = d.1 := Option.some.inj (hm.symm.trans hlayer.found)
      rw [← hlayer.bound]
      exact hk d hd
    exact ⟨fun applied hmem m hm => (hkeeps applied hmem m hm).noTail,
      fun htail applied hmem m hm => (hkeeps applied hmem m hm).atEnd htail,
      fun applied hmem m hm => (hkeeps applied hmem m hm).walked⟩

theorem expandFn_ok {modifiers : List ModifierDecl} {f f' : FnDef} (h : expandFn modifiers f = .ok f') :
    ∃ layers, List.Forall₂ (IsLayer modifiers) f.modifiers layers ∧
      f'.body = .mk (spliceAll (layers.map Layer.walked) f.body.stmts) f.body.tail := by
  unfold expandFn at h
  split_ifs at h with hnone
  · obtain ⟨_, _, hf⟩ := bind_ok h
    cases hf
    rw [List.isEmpty_iff.mp hnone]
    refine ⟨[], .nil, ?_⟩
    cases f.body
    rfl
  · obtain ⟨current, hcurrent, hrest⟩ := bind_ok h
    obtain ⟨_, _, hf⟩ := bind_ok hrest
    cases hf
    obtain ⟨layers, hlayers, rfl⟩ := layers_of_foldlM hcurrent
    exact ⟨layers, hlayers, rfl⟩

/-- The statement `name();`. -/
def callStmt (name : String) : Stmt := .expr (.call none name [])

/-- A function around which `modifier guard(who) { check(who); _; note(); }` is put. -/
def guarded : Module where
  modifiers := [⟨"guard", [⟨"who", .address⟩],
    .mk [.expr (.call none "check" [.ident "who"]), .placeholder, callStmt "note"] none⟩]
  functions := [⟨"main", [], .unit, .mk [callStmt "bump"] none, false, false, false, false,
    [("guard", [.ident "admin"])]⟩]

theorem guarded_wraps : ∀ f ∈ guarded.functions, Wraps guarded.modifiers f := by
  intro f hf
  rw [List.mem_singleton.mp hf]
  have hguard : ∀ applied ∈ [("guard", [Expr.ident "admin"])], ∀ m,
      (guarded.modifiers.find? fun m => m.name = applied.1) = some m → guarded.modifiers = [m] := by
    intro applied happlied m hm
    rw [List.mem_singleton.mp happlied] at hm
    cases hm
    rfl
  refine ⟨fun applied happlied m hm => ?_, fun htail => absurd rfl htail, fun applied happlied m hm => ?_⟩
  · cases hguard applied happlied m hm
    rfl
  · cases hguard applied happlied m hm
    simp [identsStmts, identsStmt, identsExpr, identsExprs, callStmt]

/-- The modifier `modifier noted() { _; note() }`: what it ends with is its tail. -/
def noted : Module where
  modifiers := [⟨"noted", [], .mk [.placeholder] (some (.call none "note" []))⟩]
  functions := [⟨"main", [], .unit, .mk [callStmt "bump"] none, false, false, false, false, [("noted", [])]⟩]

end Rend.Modifier
