import Rend.Effects.Paths

/-!
# Where the classifier looks

The walk of a function joins one class for each place it looks at, whatever the classes of the other
functions are. What a path says of where the classifier looks is true: a thing done for which something is
joined has it among the looks of the function.

* `classifyFn_eq`: the class of a function is the join of its looks.
* `seen_fn`: what is joined on a path is one of the looks.
-/

namespace Rend.Effects

open Lib Lib.UsePaths

/-! ### The looks of a function -/

section Looks

variable (m : Module) (K : Known)

/-- The look at a name. -/
def nameLooks (x : String) : List Look := if x ∈ m.stateNames then [.cls .readOnly] else []

/-- The look at what is indexed. -/
def indexedLooks : Expr → List Look
  | .ident x => nameLooks m x
  | _ => []

/-- The look at the target of an assignment. -/
def assignLooks (target : Expr) : List Look :=
  if assignTargetIsState m.stateNames target then [.cls .writeOnly] else []

mutual

/-- The looks at an expression. -/
def exprLooks : Expr → List Look
  | .lit => []
  | .node operands => exprsLooks operands
  | .ident x => nameLooks m x
  | .index target key => indexedLooks m target ++ exprLooks target ++ exprLooks key
  | .field target _ => exprLooks target
  | .reserve count _ => .cls .writeOnly :: exprLooks count
  | .comp results clauses => clausesLooks clauses ++ exprsLooks results
  | .dynCall targetIdent method args isView isPure =>
    exprsLooks args ++ [.cls (dynClass m.states targetIdent method isView isPure)]
  | .call module name args => exprsLooks args ++ [callLook m K module name]
  | .matchArms scrut arms => exprLooks scrut ++ armsLooks arms
  | .block (.mk stmts tail) => stmtsLooks stmts ++ optLooks tail
  | .ite (.mk cond (.mk stmts tail) elseBranch) =>
    exprLooks cond ++ stmtsLooks stmts ++ optLooks tail ++ elseLooks true elseBranch

/-- The looks at expressions. -/
def exprsLooks : List Expr → List Look
  | [] => []
  | e :: es => exprLooks e ++ exprsLooks es

/-- The looks at an expression that may be absent. -/
def optLooks : Option Expr → List Look
  | none => []
  | some e => exprLooks e

/-- The looks at the clauses of a comprehension. -/
def clausesLooks : List CompClause → List Look
  | [] => []
  | .for _ iter :: clauses => exprLooks iter ++ clausesLooks clauses
  | .if cond :: clauses => exprLooks cond ++ clausesLooks clauses

/-- The looks at the arms of a match. -/
def armsLooks : List MatchArm → List Look
  | [] => []
  | .mk _ body :: arms => exprLooks body ++ armsLooks arms

/-- The looks at a block, with those at its tail if it is walked. -/
def blockLooks (tailSeen : Bool) : Block → List Look
  | .mk stmts tail => stmtsLooks stmts ++ if tailSeen then optLooks tail else []

/-- The looks at a conditional of a statement. -/
def ifLooks : IfStmt → List Look
  | .mk cond then' elseBranch => exprLooks cond ++ blockLooks false then' ++ elseLooks false elseBranch

/-- The looks at what follows `else`. -/
def elseLooks (tailSeen : Bool) : ElseBranch → List Look
  | .none => []
  | .block body => blockLooks tailSeen body
  | .if inner => ifLooks inner

/-- The looks at a statement. -/
def stmtLooks : Stmt → List Look
  | .let _ value => exprLooks value
  | .letTuple _ value => exprLooks value
  | .assign target value => assignLooks m target ++ exprLooks value
  | .return value => optLooks value
  | .if branch => ifLooks branch
  | .while cond body => exprLooks cond ++ blockLooks false body
  | .for _ iter _ body => exprLooks iter ++ blockLooks false body
  | .forRange _ start stop body => exprLooks start ++ exprLooks stop ++ blockLooks false body
  | .break => []
  | .continue => []
  | .placeholder => []
  | .expr e => exprLooks e
  | .delete target => .cls .writeOnly :: exprLooks target
  | .emit value => .cls .writeOnly :: exprLooks value
  | .parallel stmts => stmtsLooks stmts
  | .parallelForTo _ _ source output body => exprLooks source ++ exprLooks output ++ blockLooks false body

/-- The looks at statements. -/
def stmtsLooks : List Stmt → List Look
  | [] => []
  | s :: ss => stmtLooks s ++ stmtsLooks ss

end

/-- The looks at a function. -/
def FnDef.looks (f : FnDef) : List Look := blockLooks m K false f.body

end Looks

/-! ### The class of a function -/

/-- The class of a function, and nothing for a name that is none's. -/
def Classes.at (classes : Classes) (x : String) : EffectClass := (classes x).getD .pure

/-- The class a look joins, with the classes of the functions. -/
def Look.within (classes : Classes) : Look → EffectClass
  | .cls c => c
  | .local g => classes.at g

/-- What looks join. -/
def joinAll (classes : Classes) (acc : EffectClass) (looks : List Look) : EffectClass :=
  looks.foldl (fun a l => a.join (l.within classes)) acc

/-- There is a class for each function of the module and for nothing else. -/
def Complete (m : Module) (classes : Classes) : Prop := ∀ g, classes g = none ↔ g ∉ m.fnNames

section Class

variable {m : Module} {K : Known} {classes : Classes} {acc : EffectClass}

@[simp] theorem joinAll_nil : joinAll classes acc [] = acc := rfl

@[simp] theorem joinAll_cons (l : Look) (ls : List Look) :
    joinAll classes acc (l :: ls) = joinAll classes (acc.join (l.within classes)) ls := rfl

@[simp] theorem joinAll_append (ls ls' : List Look) :
    joinAll classes acc (ls ++ ls') = joinAll classes (joinAll classes acc ls) ls' :=
  List.foldl_append

theorem classifyName_eq (x : String) :
    classifyName (m.ctx K classes) x acc = joinAll classes acc (nameLooks m x) := by
  unfold classifyName nameLooks
  by_cases hx : x ∈ m.stateNames
  · rw [if_pos hx]
    exact if_pos hx
  · rw [if_neg hx]
    exact if_neg hx

theorem classifyIndexed_eq (target : Expr) :
    classifyIndexed (m.ctx K classes) target acc = joinAll classes acc (indexedLooks m target) := by
  cases target with
  | ident x => exact classifyName_eq x
  | _ => rfl

theorem classifyCall_eq (h : Complete m classes) (module : Option String) (name : String) :
    classifyCall (m.ctx K classes) module name acc = acc.join ((callLook m K module name).within classes) := by
  cases module with
  | some modName =>
    by_cases hb : name = "bind" ∧ modName ∈ m.ifaceNames K
    · rw [callLook, if_pos hb]
      exact (if_pos hb).trans (EffectClass.join_pure acc).symm
    · rw [callLook, if_neg hb]
      exact if_neg hb
  | none =>
    simp only [classifyCall, callLook]
    by_cases hp : isPureBuiltin name = true
    · rw [if_pos hp, if_pos hp]
      exact (EffectClass.join_pure acc).symm
    rw [if_neg hp, if_neg hp]
    by_cases hr : isReadBuiltin name = true
    · rw [if_pos hr, if_pos hr]
      rfl
    rw [if_neg hr, if_neg hr]
    by_cases hi : name ∈ m.imports
    · rw [if_pos hi]
      exact if_pos hi
    refine (if_neg hi).trans ?_
    rw [if_neg hi]
    by_cases hf : name ∈ m.fnNames
    · obtain ⟨c, hc⟩ := Option.ne_none_iff_exists'.mp (mt (h name).mp (not_not.mpr hf))
      have hlocal : (m.ctx K classes).locals name = some c := hc
      rw [if_pos hf, hlocal, Look.within, Classes.at, hc]
      rfl
    · have hlocal : (m.ctx K classes).locals name = none := (h name).mpr hf
      rw [if_neg hf, hlocal]
      rfl

mutual

theorem classifyExpr_eq (h : Complete m classes) (e : Expr) (acc : EffectClass) :
    classifyExpr (m.ctx K classes) e acc = joinAll classes acc (exprLooks m K e) := by
  cases e with
  | lit => rfl
  | node operands => exact classifyExprs_eq h operands acc
  | ident x => exact classifyName_eq x
  | index target key =>
    rw [classifyExpr, exprLooks, joinAll_append, joinAll_append, classifyExpr_eq h key, classifyExpr_eq h target,
      classifyIndexed_eq]
  | field target name => exact classifyExpr_eq h target acc
  | reserve count state => exact classifyExpr_eq h count _
  | comp results clauses =>
    rw [classifyExpr, exprLooks, joinAll_append, classifyExprs_eq h results, classifyClauses_eq h clauses]
  | dynCall target method args isView isPure =>
    rw [classifyExpr, exprLooks, joinAll_append, classifyExprs_eq h args]
    rfl
  | call module name args =>
    rw [classifyExpr, exprLooks, joinAll_append, classifyExprs_eq h args, classifyCall_eq h]
    rfl
  | matchArms scrut arms =>
    rw [classifyExpr, exprLooks, joinAll_append, classifyArms_eq h arms, classifyExpr_eq h scrut]
  | block body =>
    cases body with
    | mk stmts tail =>
      rw [classifyExpr, exprLooks, joinAll_append, classifyOpt_eq h tail, classifyStmts_eq h stmts]
  | ite branch =>
    cases branch with
    | mk cond then' els =>
      cases then' with
      | mk stmts tail =>
        rw [classifyExpr, exprLooks, joinAll_append, joinAll_append, joinAll_append, classifyElse_eq h els,
          classifyOpt_eq h tail, classifyStmts_eq h stmts, classifyExpr_eq h cond]

theorem classifyExprs_eq (h : Complete m classes) (es : List Expr) (acc : EffectClass) :
    classifyExprs (m.ctx K classes) es acc = joinAll classes acc (exprsLooks m K es) := by
  cases es with
  | nil => rfl
  | cons e es => rw [classifyExprs, exprsLooks, joinAll_append, classifyExprs_eq h es, classifyExpr_eq h e]

theorem classifyOpt_eq (h : Complete m classes) (o : Option Expr) (acc : EffectClass) :
    classifyOpt (m.ctx K classes) o acc = joinAll classes acc (optLooks m K o) := by
  cases o with
  | none => rfl
  | some e => exact classifyExpr_eq h e acc

theorem classifyClauses_eq (h : Complete m classes) (cs : List CompClause) (acc : EffectClass) :
    classifyClauses (m.ctx K classes) cs acc = joinAll classes acc (clausesLooks m K cs) := by
  cases cs with
  | nil => rfl
  | cons c cs =>
    cases c with
    | «for» var iter =>
      rw [classifyClauses, clausesLooks, joinAll_append, classifyClauses_eq h cs, classifyExpr_eq h iter]
    | «if» cond =>
      rw [classifyClauses, clausesLooks, joinAll_append, classifyClauses_eq h cs, classifyExpr_eq h cond]

theorem classifyArms_eq (h : Complete m classes) (arms : List MatchArm) (acc : EffectClass) :
    classifyArms (m.ctx K classes) arms acc = joinAll classes acc (armsLooks m K arms) := by
  cases arms with
  | nil => rfl
  | cons arm arms =>
    cases arm with
    | mk pattern body =>
      rw [classifyArms, armsLooks, joinAll_append, classifyArms_eq h arms, classifyExpr_eq h body]

theorem classifyElse_eq (h : Complete m classes) (els : ElseBranch) (acc : EffectClass) :
    classifyElse (m.ctx K classes) els acc = joinAll classes acc (elseLooks m K true els) := by
  cases els with
  | none => rfl
  | block body =>
    cases body with
    | mk stmts tail =>
      rw [classifyElse, elseLooks, blockLooks, if_pos rfl, joinAll_append, classifyOpt_eq h tail,
        classifyStmts_eq h stmts]
  | «if» inner => exact classifyIf_eq h inner acc

theorem classifyBlock_eq (h : Complete m classes) (b : Block) (acc : EffectClass) :
    classifyBlock (m.ctx K classes) b acc = joinAll classes acc (blockLooks m K false b) := by
  cases b with
  | mk stmts tail =>
    rw [classifyBlock, blockLooks, if_neg Bool.false_ne_true, List.append_nil]
    exact classifyStmts_eq h stmts acc

theorem classifyIf_eq (h : Complete m classes) (i : IfStmt) (acc : EffectClass) :
    classifyIf (m.ctx K classes) i acc = joinAll classes acc (ifLooks m K i) := by
  cases i with
  | mk cond then' els =>
    rw [classifyIf, ifLooks, joinAll_append, joinAll_append, classifyElseStmt_eq h els, classifyBlock_eq h then',
      classifyExpr_eq h cond]

theorem classifyElseStmt_eq (h : Complete m classes) (els : ElseBranch) (acc : EffectClass) :
    classifyElseStmt (m.ctx K classes) els acc = joinAll classes acc (elseLooks m K false els) := by
  cases els with
  | none => rfl
  | block body => exact classifyBlock_eq h body acc
  | «if» inner => exact classifyIf_eq h inner acc

theorem classifyStmt_eq (h : Complete m classes) (s : Stmt) (acc : EffectClass) :
    classifyStmt (m.ctx K classes) s acc = joinAll classes acc (stmtLooks m K s) := by
  cases s with
  | «let» x value => exact classifyExpr_eq h value acc
  | letTuple names value => exact classifyExpr_eq h value acc
  | assign target value =>
    have hw : (if assignTargetIsState (m.ctx K classes).states target then acc.join .writeOnly else acc) =
        joinAll classes acc (assignLooks m target) := by
      unfold assignLooks
      by_cases ht : assignTargetIsState m.stateNames target = true
      · rw [if_pos ht]
        exact if_pos ht
      · rw [if_neg ht]
        exact if_neg ht
    rw [classifyStmt, stmtLooks, joinAll_append, classifyExpr_eq h value, hw]
  | «return» value => exact classifyOpt_eq h value acc
  | «if» branch => exact classifyIf_eq h branch acc
  | «while» cond body =>
    rw [classifyStmt, stmtLooks, joinAll_append, classifyBlock_eq h body, classifyExpr_eq h cond]
  | «for» var iter limit body =>
    rw [classifyStmt, stmtLooks, joinAll_append, classifyBlock_eq h body, classifyExpr_eq h iter]
  | forRange var start stop body =>
    rw [classifyStmt, stmtLooks, joinAll_append, joinAll_append, classifyBlock_eq h body, classifyExpr_eq h stop,
      classifyExpr_eq h start]
  | «break» => rfl
  | «continue» => rfl
  | placeholder => rfl
  | expr e => exact classifyExpr_eq h e acc
  | delete target => exact classifyExpr_eq h target _
  | emit value => exact classifyExpr_eq h value _
  | parallel stmts => exact classifyStmts_eq h stmts acc
  | parallelForTo idVar idxVar source output body =>
    rw [classifyStmt, stmtLooks, joinAll_append, joinAll_append, classifyBlock_eq h body, classifyExpr_eq h output,
      classifyExpr_eq h source]

theorem classifyStmts_eq (h : Complete m classes) (ss : List Stmt) (acc : EffectClass) :
    classifyStmts (m.ctx K classes) ss acc = joinAll classes acc (stmtsLooks m K ss) := by
  cases ss with
  | nil => rfl
  | cons s ss => rw [classifyStmts, stmtsLooks, joinAll_append, classifyStmts_eq h ss, classifyStmt_eq h s]

end

/-- **The class of a function** is the join of the looks at it. -/
theorem classifyFn_eq (h : Complete m classes) (f : FnDef) :
    classifyFn (m.ctx K classes) f = joinAll classes .pure (f.looks m K) :=
  classifyBlock_eq h f.body .pure

end Class

/-! ### The looks on a path -/

/-- Whatever is joined on a path is joined where the classifier walks, and is one of the looks. -/
def Seen (see : Bool) (L : List Look) (A : Set (Path Done)) : Prop :=
  Only (fun d => ∀ l, d.2 = some l → see = true ∧ l ∈ L) A

theorem of_looked {see : Bool} {l l' : Look} (h : looked see l = some l') : see = true ∧ l' = l := by
  cases see with
  | false => cases h
  | true => exact ⟨rfl, (Option.some.inj h).symm⟩

namespace Seen

variable {see : Bool} {L L' : List Look} {A B : Set (Path Done)}

theorem mono (h : Seen see L A) (hL : ∀ l ∈ L, l ∈ L') : Seen see L' A :=
  Only.mono h fun _ hd l hl => ⟨(hd l hl).1, hL l (hd l hl).2⟩

/-- Where the classifier does not walk nothing is joined. -/
theorem hidden (h : Seen false L A) : Seen see L' A :=
  Only.mono h fun _ hd l hl => absurd (hd l hl).1 Bool.false_ne_true

theorem left (h : Seen see L A) : Seen see (L ++ L') A := h.mono fun _ => List.mem_append_left L'

theorem right (h : Seen see L A) : Seen see (L' ++ L) A := h.mono fun _ => List.mem_append_right L'

theorem skip : Seen see L skip := Only.skip

theorem seq (hA : Seen see L A) (hB : Seen see L' B) : Seen see (L ++ L') (seq A B) :=
  Only.seq hA.left hB.right

theorem union (hA : Seen see L A) (hB : Seen see L' B) : Seen see (L ++ L') (A ∪ B) :=
  Only.union hA.left hB.right

theorem use {a : Act} {look : Option Look} (h : ∀ l, look = some l → see = true ∧ l ∈ L) :
    Seen see L (use (a, look)) :=
  Only.use h

theorem touch {es : List (Effect × Option Look)} (h : ∀ x ∈ es, ∀ l, x.2 = some l → see = true ∧ l ∈ L) :
    Seen see L (touch es) := by
  induction es with
  | nil => exact skip
  | cons x es ih =>
    exact Only.seq (Only.use (h x List.mem_cons_self)) (ih fun y hy => h y (List.mem_cons_of_mem x hy))

/-- An effect at a place the classifier looks at. -/
theorem touch_looked {e : Effect} {l : Look} (h : l ∈ L) : Seen see L (Effects.touch [(e, looked see l)]) := by
  refine touch fun x hx _ hl' => ?_
  rw [List.mem_singleton.mp hx] at hl'
  obtain ⟨hs, rfl⟩ := of_looked hl'
  exact ⟨hs, h⟩

/-- Two effects at one place the classifier looks at. -/
theorem touch_pair {e e' : Effect} {l : Look} (h : l ∈ L) :
    Seen see L (Effects.touch [(e, looked see l), (e', looked see l)]) :=
  Only.seq (use fun _ hl' => ⟨(of_looked hl').1, (of_looked hl').2 ▸ h⟩) (touch_looked h)

end Seen

section Paths

variable {m : Module} {K : Known}

theorem of_isStateOf {kind : Ty → Bool} {e : Expr} (h : isStateOf m kind e = true) :
    ∃ s ∈ m.stateNames, e = .ident s := by
  cases e with
  | ident s =>
    refine ⟨s, ?_, rfl⟩
    obtain ⟨t, ht, -⟩ := (Option.any_eq_true _ _).mp h
    obtain ⟨t', ht', -⟩ := Option.map_eq_some_iff.mp ht
    obtain ⟨l₁, l₂, hm, -⟩ := List.lookup_eq_some_iff.mp ht'
    exact List.mem_map.mpr ⟨(s, t'), hm ▸ List.mem_append_right l₁ List.mem_cons_self, rfl⟩
  | _ => cases h

/-- The read of a state where its name stands. -/
theorem seen_stateRead {see : Bool} {kind : Ty → Bool} {e : Expr} (h : isStateOf m kind e = true) :
    Seen see (exprLooks m K e) (touch [(.read, looked see (.cls .readOnly))]) := by
  obtain ⟨s, hs, rfl⟩ := of_isStateOf h
  exact Seen.touch_looked (by rw [exprLooks, nameLooks, if_pos hs]; exact List.mem_singleton_self _)

theorem seen_ident (see : Bool) (Γ : List String) (x : String) :
    Seen see (nameLooks m x) (identPaths m see Γ x) := by
  unfold identPaths
  split
  · exact Seen.skip
  split
  · rename_i hs
    exact Seen.touch_looked (by rw [nameLooks, if_pos hs]; exact List.mem_singleton_self _)
  split
  · exact Seen.use fun l hl => by cases hl
  · exact Only.empty

theorem of_resolve_state {module : Option String} {name : String} {args : List Expr} {n : ℕ} {w : Bool}
    (h : resolve m K module name args = .state n w) : ∃ s ∈ m.stateNames, ∃ rest, args = .ident s :: rest := by
  unfold resolve at h
  split at h
  · cases h
  split at h
  · unfold resolveState at h
    split at h
    · split at h
      · rename_i rest s _ hs
        exact ⟨_, hs, _, rfl⟩
      · cases h
    · cases h
  · exfalso
    repeat' split at h
    all_goals cases h

/-- What a call runs once its arguments are evaluated is joined at the call, or where the state is named. -/
theorem seen_target (see : Bool) (module : Option String) (name : String) (args : List Expr) :
    Seen see (exprsLooks m K args ++ [callLook m K module name])
      ((resolve m K module name args).paths see (callLook m K module name)) := by
  have hlook : callLook m K module name ∈ exprsLooks m K args ++ [callLook m K module name] :=
    List.mem_append_right _ (List.mem_singleton_self _)
  have huse : ∀ a, Seen see (exprsLooks m K args ++ [callLook m K module name])
      (use (a, looked see (callLook m K module name))) := by
    refine fun a => Seen.use fun l hl => ?_
    obtain ⟨hs, rfl⟩ := of_looked hl
    exact ⟨hs, hlook⟩
  cases hr : resolve m K module name args with
  | builtin => exact Seen.skip
  | state n w =>
    obtain ⟨s, hs, rest, rfl⟩ := of_resolve_state hr
    have hread : Look.cls .readOnly ∈ exprsLooks m K (.ident s :: rest) ++ [callLook m K module name] := by
      rw [exprsLooks, exprLooks, nameLooks, if_pos hs]
      exact List.mem_cons_self
    refine Only.seq (Seen.use fun l hl => ?_) ?_
    · obtain ⟨hsee, rfl⟩ := of_looked hl
      exact ⟨hsee, hread⟩
    · cases w with
      | false => exact Seen.skip
      | true => exact Seen.touch_looked hlook
  | external modName fn => exact huse _
  | host => exact Seen.touch_looked hlook
  | function fn => exact huse _
  | undefined => exact Only.empty

/-- What a loop goes through is read where its name stands, or evaluated. -/
theorem seen_iter {see : Bool} {iter : Expr} {A : Set (Path Done)} (h : Seen see (exprLooks m K iter) A) :
    Seen see (exprLooks m K iter)
      (if isStateOf m isStreamed iter then touch [(.read, looked see (.cls .readOnly))] else A) := by
  split
  · rename_i hs
    exact seen_stateRead hs
  · exact h

theorem seen_output (see : Bool) (Γ : List String) (output : Expr) : Seen see [] (outputPaths Γ output) := by
  unfold outputPaths
  split
  · split
    · exact Seen.skip
    · exact Only.empty
  · exact Only.empty

mutual

theorem seen_expr (see : Bool) (Γ : List String) (e : Expr) :
    Seen see (exprLooks m K e) (exprPaths m K see Γ e) := by
  cases e with
  | lit => exact Seen.skip
  | node operands => exact seen_exprs see Γ _ operands
  | ident x => exact seen_ident see Γ x
  | index target key =>
    rw [exprLooks, List.append_assoc]
    refine Seen.right (Only.seq (Seen.left ?_) (Only.seq (Seen.right (seen_expr see Γ key)) (Seen.left ?_)))
    · split
      · exact Seen.skip
      · exact seen_expr see Γ target
    · split
      · rename_i hk
        exact seen_stateRead hk
      · exact Seen.skip
  | field target name => exact seen_expr see Γ target
  | reserve count state =>
    refine Only.seq ((seen_expr see Γ count).mono fun l => List.mem_cons_of_mem _) ?_
    split
    · exact Seen.touch_pair List.mem_cons_self
    · exact Only.empty
  | comp results clauses => exact seen_comp see Γ clauses (seen_exprs see _ _ results)
  | dynCall target method args isView isPure =>
    refine Only.seq (Seen.hidden (seen_ident false Γ target)) ?_
    refine Seen.seq (seen_exprs see Γ _ args) (Seen.use fun l hl => ?_)
    obtain ⟨hs, rfl⟩ := of_looked hl
    exact ⟨hs, List.mem_singleton_self _⟩
  | call module name args =>
    exact Only.seq (Seen.left (seen_exprs see Γ _ args)) (seen_target see module name args)
  | matchArms scrut arms => exact (seen_expr see Γ scrut).seq (seen_arms see Γ arms)
  | block body =>
    have hb := seen_block see true Γ body
    cases body with
    | mk stmts tail => exact hb
  | ite branch =>
    cases branch with
    | mk cond then' els =>
      have hthen := seen_block see true Γ then'
      have helse := seen_else see true Γ els
      cases then' with
      | mk stmts tail =>
        rw [exprLooks, List.append_assoc, List.append_assoc, ← List.append_assoc (stmtsLooks m K stmts)]
        exact (seen_expr see Γ cond).seq (hthen.union helse)

theorem seen_exprs (see : Bool) (Γ : List String) (evaluated : ℕ → Bool) (es : List Expr) :
    Seen see (exprsLooks m K es) (exprsPaths m K see Γ evaluated es) := by
  cases es with
  | nil => exact Seen.skip
  | cons e es =>
    refine Seen.seq ?_ (seen_exprs see Γ _ es)
    split
    · exact seen_expr see Γ e
    · exact Seen.skip

theorem seen_opt (see : Bool) (Γ : List String) (o : Option Expr) :
    Seen see (optLooks m K o) (optPaths m K see Γ o) := by
  cases o with
  | none => exact Seen.skip
  | some e => exact seen_expr see Γ e

theorem seen_comp (see : Bool) (Γ : List String) (cs : List CompClause) {L : List Look} {A : Set (Path Done)}
    (hA : Seen see L A) : Seen see (clausesLooks m K cs ++ L) (compPaths m K see Γ cs A) := by
  cases cs with
  | nil => exact hA
  | cons c cs =>
    cases c with
    | «for» var iter =>
      rw [clausesLooks, List.append_assoc]
      exact (seen_iter (seen_expr see Γ iter)).seq (Only.rounds Seen.skip (seen_comp see (var :: Γ) cs hA))
    | «if» cond =>
      rw [clausesLooks, List.append_assoc]
      exact (seen_expr see Γ cond).seq (Only.union Seen.skip (seen_comp see Γ cs hA))

theorem seen_arms (see : Bool) (Γ : List String) (arms : List MatchArm) :
    Seen see (armsLooks m K arms) (armsPaths m K see Γ arms) := by
  cases arms with
  | nil => exact Only.empty
  | cons arm arms =>
    cases arm with
    | mk pattern body =>
      cases pattern with
      | wildcard => exact (seen_expr see Γ body).left
      | enumVariant bindings => exact (seen_expr see (bindings ++ Γ) body).union (seen_arms see Γ arms)

theorem seen_block (see tailSeen : Bool) (Γ : List String) (b : Block) :
    Seen see (blockLooks m K tailSeen b) (blockPaths m K see tailSeen Γ b) := by
  cases b with
  | mk stmts tail =>
    refine Seen.seq (seen_stmts see Γ stmts) ?_
    cases tailSeen with
    | false =>
      rw [Bool.and_false]
      exact Seen.hidden (seen_opt false _ tail)
    | true =>
      rw [Bool.and_true]
      exact seen_opt see _ tail

theorem seen_if (see : Bool) (Γ : List String) (i : IfStmt) :
    Seen see (ifLooks m K i) (ifPaths m K see false Γ i) := by
  cases i with
  | mk cond then' els =>
    rw [ifLooks, List.append_assoc]
    exact (seen_expr see Γ cond).seq ((seen_block see false Γ then').union (seen_else see false Γ els))

theorem seen_else (see tailSeen : Bool) (Γ : List String) (els : ElseBranch) :
    Seen see (elseLooks m K tailSeen els) (elsePaths m K see tailSeen Γ els) := by
  cases els with
  | none => exact Seen.skip
  | block body => exact seen_block see tailSeen Γ body
  | «if» inner => exact seen_if see Γ inner

theorem seen_assign {see : Bool} {L : List Look} (Γ : List String) {look : Option Look}
    (h : ∀ l, look = some l → see = true ∧ l ∈ L) (target : Expr) :
    Seen see L (assignPaths m K Γ look target) := by
  have htouch : ∀ b : Bool, Seen see L
      (touch ((if b then [(Effect.read, look)] else []) ++ [(.write, look)])) := by
    refine fun b => Seen.touch fun x hx l hl => h l ?_
    cases b <;> simp at hx <;> grind
  cases target with
  | ident x =>
    rw [assignPaths]
    split
    · exact Seen.skip
    split
    · exact htouch false
    · exact Only.empty
  | index target key =>
    rw [assignPaths]
    split
    · exact Only.seq (Seen.hidden (seen_expr false Γ key)) (htouch _)
    · exact Only.empty
  | field inner name =>
    rw [assignPaths]
    split
    · exact htouch _
    · exact Only.seq (Seen.hidden (seen_expr false Γ inner)) (seen_assign Γ h inner)
  | _ => exact Only.empty

theorem seen_delete (see : Bool) (Γ : List String) (target : Expr) :
    Seen see (.cls .writeOnly :: exprLooks m K target) (deletePaths m K see Γ target) := by
  cases target with
  | index target key =>
    rw [deletePaths]
    split
    · refine Only.seq ((seen_expr see Γ key).mono ?_) (Seen.touch_pair List.mem_cons_self)
      intro l hl
      exact List.mem_cons_of_mem _ (List.mem_append_right _ hl)
    · exact Only.empty
  | _ => exact Only.empty

theorem seen_stmt (see : Bool) (Γ : List String) (s : Stmt) :
    Seen see (stmtLooks m K s) (stmtPaths m K see Γ s) := by
  cases s with
  | «let» x value => exact seen_expr see Γ value
  | letTuple names value => exact seen_expr see Γ value
  | assign target value =>
    refine Only.seq (Seen.right (seen_expr see Γ value)) (seen_assign Γ (fun l hl => ?_) target)
    obtain ⟨hs, rfl⟩ := of_looked hl
    obtain ⟨hsee, ht⟩ := (Bool.and_eq_true _ _).mp hs
    refine ⟨hsee, List.mem_append_left _ ?_⟩
    rw [assignLooks, if_pos ht]
    exact List.mem_singleton_self _
  | «return» value => exact Only.seq (seen_opt see Γ value) Only.jump
  | «if» branch => exact seen_if see Γ branch
  | «while» cond body =>
    exact Only.loop (seen_expr see Γ cond).left ((seen_expr see Γ cond).seq (seen_block see false Γ body))
  | «for» var iter limit body =>
    refine Only.seq (Seen.hidden (seen_opt false Γ limit)) ((seen_iter (seen_expr see Γ iter)).seq ?_)
    exact Only.loop Seen.skip (seen_block see false _ body)
  | forRange var start stop body =>
    rw [stmtLooks, List.append_assoc]
    exact (seen_expr see Γ start).seq ((seen_expr see Γ stop).seq
      (Only.loop Seen.skip (seen_block see false _ body)))
  | «break» => exact Only.jump
  | «continue» => exact Only.jump
  | placeholder => exact Only.empty
  | expr e => exact seen_expr see Γ e
  | delete target => exact seen_delete see Γ target
  | emit value =>
    exact Only.seq ((seen_expr see Γ value).mono fun l => List.mem_cons_of_mem _)
      (Seen.touch_looked List.mem_cons_self)
  | parallel stmts => exact seen_legs see Γ stmts
  | parallelForTo idVar idxVar source output body =>
    rw [stmtLooks, List.append_assoc]
    refine (seen_expr see Γ source).seq (Only.seq ((seen_output see Γ output).mono fun l hl => nomatch hl) ?_)
    exact Only.rounds Seen.skip (Only.image (fun _ => rfl) (seen_block see false _ body).right)

theorem seen_stmts (see : Bool) (Γ : List String) (ss : List Stmt) :
    Seen see (stmtsLooks m K ss) (stmtsPaths m K see Γ ss) := by
  cases ss with
  | nil => exact Seen.skip
  | cons s ss => exact (seen_stmt see Γ s).seq (seen_stmts see _ ss)

theorem seen_legs (see : Bool) (Γ : List String) (ss : List Stmt) :
    Seen see (stmtsLooks m K ss) (legsPaths m K see Γ ss) := by
  cases ss with
  | nil => exact Seen.skip
  | cons s ss =>
    exact Seen.seq (Only.image (fun _ => rfl) (seen_stmt see Γ s)) (seen_legs see _ ss)

end

/-- **What is joined on a path** of a function is one of the looks at it. -/
theorem seen_fn {f : FnDef} {p : Path Done} {d : Done} {l : Look} (hp : p ∈ f.paths m K) (hd : d ∈ p.uses)
    (hl : d.2 = some l) : l ∈ f.looks m K :=
  (seen_block true false f.params f.body p hp d hd l hl).2

end Paths

end Rend.Effects
