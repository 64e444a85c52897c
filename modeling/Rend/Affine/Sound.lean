import Rend.Affine.Track

/-!
# Soundness of the ownership pass

A variable whose type is not Copy is consumed at most once on every path of a function the pass accepts,
when each of them is `careful`: when the pass looks at it wherever it stands and keeps a type for it that
is not Copy, or when it stands in one place only. The pass by itself does not see to it: a variable that
its statements have moved can be moved again in the tail of the function.

* `consumed_once`: the soundness of the pass.
* `tail_moves_again`: a function it accepts that consumes a resource twice.
-/

namespace Rend.Affine

open Lib Lib.UsePaths

variable {copy : Ty → Bool} {C : Ctx} {Γ : Types}

/-! ### The types the pass keeps -/

/-- The scopes keep these types for the variables. -/
def Agrees (Γ : Types) (env : Env) : Prop :=
  env ≠ [] ∧ ∀ x, (first (column env x)).map Binding.ty = Γ x

namespace Agrees

variable {env env' : Env}

theorem marks (h : Agrees Γ env) (hm : ∀ x, Marks (column env x) (column env' x)) : Agrees Γ env' := by
  obtain ⟨hne, hty⟩ := h
  refine ⟨?_, fun x => (hm x).first_eq.1.trans (hty x)⟩
  rintro rfl
  cases env with
  | nil => exact hne rfl
  | cons s outer =>
    have := hm ""
    rw [column, List.map_cons] at this
    cases hs : s "" <;> rw [hs] at this <;> exact this.elim

theorem push (h : Agrees Γ env) : Agrees Γ env.push := ⟨List.cons_ne_nil _ _, h.2⟩

theorem insert (h : Agrees Γ env) (x : String) (t : Ty) :
    Agrees (Function.update Γ x (some t)) (env.insert x t) := by
  obtain ⟨hne, hty⟩ := h
  cases env with
  | nil => exact absurd rfl hne
  | cons s outer =>
    refine ⟨List.cons_ne_nil _ _, fun y => ?_⟩
    by_cases hyx : y = x
    · subst hyx
      simp [Env.insert, column, first]
    · rw [column_insert_of_ne hyx, Function.update_of_ne hyx]
      exact hty y

theorem bindUntyped (h : Agrees Γ env) (names : List (String × Ty)) :
    Agrees (untyped Γ names) (bindUntyped names env) := by
  induction names generalizing Γ env with
  | nil => exact h
  | cons n names ih => exact ih (h.insert n.1 .int)

theorem type_ident (h : Agrees Γ env) {x : String} {span : Span} {r : Ty × Env}
    (hc : checkIdent C x span env = .ok r) : r.1 = (Γ x).getD ((C.states.lookup x).getD .int) := by
  have hx := h.2 x
  unfold checkIdent at hc
  rw [get_eq_first] at hc
  rw [← hx]
  cases hb : first (column env x) with
  | some b =>
    simp only [hb] at hc
    split at hc
    · cases hc
    · obtain rfl := Except.ok.inj hc
      rfl
  | none =>
    simp only [hb] at hc
    split at hc
    · rename_i t ht
      obtain rfl := Except.ok.inj hc
      simp [ht]
    · cases hc

/-- The pass gives an expression the type that is read off its form. -/
theorem type_eq (h : Agrees Γ env) (e : Expr) {r : Ty × Env} (hc : checkExpr C e env = .ok r) :
    r.1 = passType C Γ e := by
  cases e with
  | explicitLiteral inner => exact type_eq h inner hc
  | ident x span => exact h.type_ident hc
  | const x span value => exact h.type_ident hc
  | call module name args span =>
    obtain ⟨env₁, -, hc⟩ := bind_ok hc
    obtain ⟨ty, hty, hc⟩ := bind_ok hc
    obtain rfl := Except.ok.inj hc
    unfold callType at hty
    cases module with
    | some m => exact (Except.ok.inj hty).symm
    | none =>
      simp only at hty
      split at hty
      · rename_i t ht
        rw [passType, ht]
        exact (Except.ok.inj hty).symm
      · cases hty
  | field root path ty =>
    rcases root.field_cases with ⟨y, span, rfl⟩ | ⟨y, span, value, rfl⟩ | ⟨hident, hconst⟩
    · obtain ⟨_, -, hc⟩ := bind_ok hc
      obtain rfl := Except.ok.inj hc
      rfl
    · obtain ⟨_, -, hc⟩ := bind_ok hc
      obtain rfl := Except.ok.inj hc
      rfl
    · rw [checkExpr_field hident hconst] at hc
      obtain ⟨_, -, hc⟩ := bind_ok hc
      obtain rfl := Except.ok.inj hc
      rfl
  | lit ty => obtain rfl := Except.ok.inj hc; rfl
  | json items => obtain rfl := Except.ok.inj hc; rfl
  | prev => obtain rfl := Except.ok.inj hc; rfl
  | op o operands => obtain ⟨_, -, hc⟩ := bind_ok hc; obtain rfl := Except.ok.inj hc; rfl
  | dynCall target args => obtain ⟨_, -, hc⟩ := bind_ok hc; obtain rfl := Except.ok.inj hc; rfl
  | structLit name fields => obtain ⟨_, -, hc⟩ := bind_ok hc; obtain rfl := Except.ok.inj hc; rfl
  | block body => obtain ⟨_, -, hc⟩ := bind_ok hc; obtain rfl := Except.ok.inj hc; rfl
  | ite branch => obtain ⟨_, -, hc⟩ := bind_ok hc; obtain rfl := Except.ok.inj hc; rfl
  | index target key =>
    obtain ⟨_, -, hc⟩ := bind_ok hc
    obtain ⟨_, -, hc⟩ := bind_ok hc
    obtain rfl := Except.ok.inj hc
    rfl
  | pipe head ty step =>
    obtain ⟨_, -, hc⟩ := bind_ok hc
    obtain ⟨_, -, hc⟩ := bind_ok hc
    obtain rfl := Except.ok.inj hc
    rfl
  | comp results clauses =>
    obtain ⟨_, -, hc⟩ := bind_ok hc
    obtain ⟨_, -, hc⟩ := bind_ok hc
    obtain rfl := Except.ok.inj hc
    rfl
  | matchArms scrut arms =>
    obtain ⟨_, -, hc⟩ := bind_ok hc
    obtain ⟨_, -, hc⟩ := bind_ok hc
    obtain rfl := Except.ok.inj hc
    rfl

theorem comp (h : Agrees Γ env) (cs : List CompClause) {inner : Env}
    (hc : checkCompClauses C cs env = .ok inner) : Agrees (compTypes cs Γ) inner := by
  induction cs generalizing Γ env with
  | nil => obtain rfl := Except.ok.inj hc; exact h
  | cons c cs ih =>
    cases c with
    | «for» x ty iter =>
      obtain ⟨r, hr, hc⟩ := bind_ok hc
      exact ih ((h.marks (marks_expr iter hr)).push.insert x .int) hc
    | «if» cond =>
      obtain ⟨r, hr, hc⟩ := bind_ok hc
      exact ih (h.marks (marks_expr cond hr)) hc

end Agrees

mutual

theorem agrees_stmt (s : Stmt) {Γ : Types} {env env' : Env} (h : Agrees Γ env)
    (hc : checkStmt C s env = .ok env') : Agrees (stmtTypes C s Γ) env' := by
  cases s with
  | «let» x declared inferred value =>
    obtain ⟨v, hv, hc⟩ := bind_ok hc
    obtain rfl := Except.ok.inj hc
    rw [stmtTypes, ← h.type_eq value hv]
    exact (h.marks (marks_expr value hv)).insert x _
  | letTuple names value =>
    obtain ⟨v, hv, hc⟩ := bind_ok hc
    obtain rfl := Except.ok.inj hc
    exact (h.marks (marks_expr value hv)).bindUntyped names
  | parallel stmts => exact agrees_stmts stmts h hc
  | _ => exact h.marks fun x => (shift_stmt _ hc x).2 List.not_mem_nil

theorem agrees_stmts (ss : List Stmt) {Γ : Types} {env env' : Env} (h : Agrees Γ env)
    (hc : checkStmts C ss env = .ok env') : Agrees (stmtsTypes C ss Γ) env' := by
  cases ss with
  | nil => obtain rfl := Except.ok.inj hc; exact h
  | cons s ss =>
    obtain ⟨env₁, h₁, hc⟩ := bind_ok hc
    exact agrees_stmts ss (agrees_stmt s h h₁) hc

end

/-- A variable that was just bound. -/
theorem first_insert {env : Env} (h : Agrees Γ env) (x : String) (t : Ty) :
    first (column (env.insert x t) x) = some ⟨t, none⟩ ∧ spent (column (env.insert x t) x) = 0 := by
  cases env with
  | nil => exact absurd rfl h.1
  | cons s outer => simp [Env.insert, column, first, spent]

/-! ### Careful variables -/

theorem careful_within {w : Bool} {x : String} {ty kept : Ty} {scope : List Occ} {K : Set (Path String)}
    (h : careful copy w x ty kept scope = true) (hty : copy ty = false) (hfit : Fits x scope K)
    (hw : w = true → kept.isCopy = false → AllSeen x scope → Within x 0 K 1) : Within x 0 K 1 := by
  unfold careful at h
  rw [hty, Bool.false_or, Bool.or_eq_true, Bool.and_eq_true, Bool.and_eq_true, Bool.and_eq_true] at h
  rcases h with ⟨⟨hwalk, hkept⟩, hall⟩ | ⟨hcount, hloop⟩
  · refine hw hwalk (by simpa using hkept) fun o ho hox => ?_
    have := List.all_eq_true.mp hall o ho
    simpa [hox] using this
  · exact (hfit (of_decide_eq_true hloop)).mono (le_refl _) (of_decide_eq_true hcount)

/-- A careful variable the pass does not type is used at most once. -/
theorem clean_bind {x : String} {ty : Ty} {scope : List Occ} {K : Set (Path String)}
    (h : careful copy false x ty .int scope = true) (hfit : Fits x scope K) (hK : Clean K) :
    Clean (bind x (!copy ty) K) := by
  refine hK.bind fun honce => careful_within h (by simpa using honce) hfit fun hw => ?_
  cases hw

theorem clean_bindAll {names : List (String × Ty)} {scope : List Occ} {K : Set (Path String)}
    (h : carefulAll copy names scope = true) (hfit : ∀ x, Fits x scope K) (hK : Clean K) :
    Clean (bindAll (once copy names) K) := by
  induction names with
  | nil => exact hK
  | cons n names ih =>
    rw [carefulAll, Bool.and_eq_true] at h
    exact clean_bind h.1 (Fits.bindAll (once_map_fst names) (hfit n.1)) (ih h.2)

/-! ### Clean paths -/

/-- If the pass walks a piece at all, it accepts it from scopes that keep these types. -/
def Walked {α : Type} (w : Bool) (Γ : Types) (walk : Env → Except Error α) : Prop :=
  w = true → ∃ env r, Agrees Γ env ∧ walk env = .ok r

theorem Walked.fst {α β : Type} {w : Bool} {f : Env → Except Error α} {g : Env → α → Except Error β}
    (h : Walked w Γ fun env => f env >>= g env) : Walked w Γ f := by
  intro hw
  obtain ⟨env, r, hag, hc⟩ := h hw
  obtain ⟨a, ha, -⟩ := bind_ok hc
  exact ⟨env, a, hag, ha⟩

theorem not_walked {α : Type} {walk : Env → Except Error α} : Walked false Γ walk :=
  fun h => absurd h Bool.false_ne_true

/-- A variable the pass looks at wherever it stands is used once at most in what follows. -/
def Tracks (env : Env) (k : List Occ) (K : Set (Path String)) : Prop :=
  ∀ x, Kept (column env x) → AllSeen x k → Within x (spent (column env x)) K 1

/-- The walk of a block whose tail is walked or not. -/
def walkBlock (C : Ctx) (seesTail : Bool) (b : Block) : Env → Except Error Env :=
  if seesTail then checkValueBlock C b else checkBlock C b

/-- The walk of a conditional whose tails are walked or not. -/
def walkIf (C : Ctx) (seesTail : Bool) (i : IfStmt) : Env → Except Error Env :=
  if seesTail then checkIfExpr C i else checkIf C i

theorem tracks_tail {env : Env} (tail : Option Expr) {k : List Occ}
    (h : k = hide (optOccs copy tail) ∨ k = optOccs copy tail ∧ ∀ t, tail = some t → ∃ r, checkExpr C t env = .ok r) :
    Tracks env k (optPaths copy tail) := by
  intro x hk hs
  rcases h with rfl | ⟨rfl, hwalk⟩
  · exact ((fits_opt tail).of_absent hs.absent_of_hide _).mono (le_refl _) (spent_le_one _)
  · cases tail with
    | none => exact Within.skip (spent_le_one _)
    | some t =>
      obtain ⟨r, hr⟩ := hwalk t rfl
      exact (within_expr t hr hk hs).mono (le_refl _) (spent_le_one _)

theorem Tracks.stmts {env env' : Env} {ss : List Stmt} {k : List Occ} {K : Set (Path String)}
    (h : Tracks env' k K) (hc : checkStmts C ss env = .ok env') : Tracks env (stmtsOccs copy ss k) (stmtsPaths copy ss K) := by
  intro x hk hs
  have hroom : Room (column env x) (column env' x) 1 := by
    unfold Room
    split
    · exact spent_le_one _
    · exact le_refl 1
  refine within_stmts ss hc hk hs hroom fun hx => ?_
  exact h x (((shift_stmts ss hc x).2 hx).kept hk) (allSeen_stmts ss hs hx)

/-- The walk of what follows `else`. -/
def walkElse (C : Ctx) (seesTail : Bool) : ElseBranch → Env → Except Error Env
  | .none, env => .ok env
  | .block body, env => walkBlock C seesTail body env
  | .if inner, env => walkIf C seesTail inner env

theorem walked_if {w sees : Bool} {cond : Expr} {then' : Block} {els : ElseBranch}
    (h : Walked w Γ (walkIf C sees (.mk cond then' els))) :
    Walked w Γ (checkExpr C cond) ∧ Walked w Γ (walkBlock C sees then') ∧ Walked w Γ (walkElse C sees els) := by
  -- what is walked: the condition, then a block, and then what follows `else`, from somewhere
  have key : w = true → ∃ env c t e, Agrees Γ env ∧ checkExpr C cond env = .ok c ∧
      walkBlock C sees then' c.2 = .ok t ∧ ∃ env', Agrees Γ env' ∧ walkElse C sees els env' = .ok e := by
    intro hw
    obtain ⟨env, r, hag, hc⟩ := h hw
    cases sees <;> cases els
    all_goals
      obtain ⟨c, hcond, hc⟩ := bind_ok hc
      obtain ⟨t, hthen, hc⟩ := bind_ok hc
      have hag₁ := hag.marks (marks_expr cond hcond)
    · exact ⟨env, c, t, c.2, hag, hcond, hthen, c.2, hag₁, rfl⟩
    · obtain ⟨e, helse, -⟩ := bind_ok hc
      exact ⟨env, c, t, e, hag, hcond, hthen, c.2, hag₁, helse⟩
    · obtain ⟨e, helse, -⟩ := bind_ok hc
      exact ⟨env, c, t, e, hag, hcond, hthen, c.2, hag₁, helse⟩
    · exact ⟨env, c, t, c.2, hag, hcond, hthen, c.2, hag₁, rfl⟩
    · exact ⟨env, c, t, r, hag, hcond, hthen, t, hag₁.marks (marks_valueBlock then' hthen), hc⟩
    · exact ⟨env, c, t, r, hag, hcond, hthen, t, hag₁.marks (marks_valueBlock then' hthen), hc⟩
  refine ⟨fun hw => ?_, fun hw => ?_, fun hw => ?_⟩
  · obtain ⟨env, c, t, e, hag, hcond, -, -⟩ := key hw
    exact ⟨env, c, hag, hcond⟩
  · obtain ⟨env, c, t, e, hag, hcond, hthen, -⟩ := key hw
    exact ⟨c.2, t, hag.marks (marks_expr cond hcond), hthen⟩
  · obtain ⟨env, c, t, e, -, -, -, env', hag', helse⟩ := key hw
    exact ⟨env', e, hag', helse⟩

mutual

theorem clean_expr (w : Bool) (e : Expr) {Γ : Types} (ht : exprTame copy C w e Γ = true)
    (hw : Walked w Γ (checkExpr C e)) : Clean (exprPaths copy e) := by
  cases e with
  | lit ty => exact Clean.skip
  | json items => exact clean_exprs false false items ht not_walked
  | ident x span => exact Clean.use
  | const x span value => exact clean_expr false value ht not_walked
  | op o operands =>
    have hops : Walked w Γ (checkExprs C operands) := hw.fst
    cases o with
    | logical => exact clean_exprs w true operands ht hops
    | _ => exact clean_exprs w false operands ht hops
  | call module name args span =>
    exact clean_exprs w false args ht hw.fst
  | dynCall target args =>
    exact Clean.use.seq (clean_exprs w false args ht hw.fst)
  | index target key =>
    rw [exprTame, Bool.and_eq_true] at ht
    refine (clean_expr w target ht.1 fun h => ?_).seq (clean_expr w key ht.2 hw.fst)
    obtain ⟨env, r, hag, hc⟩ := hw h
    obtain ⟨k, hk, hc⟩ := bind_ok hc
    obtain ⟨t, ht, -⟩ := bind_ok hc
    exact ⟨k.2, t, hag.marks (marks_expr key hk), ht⟩
  | explicitLiteral inner => exact clean_expr w inner ht hw
  | structLit name fields =>
    exact clean_exprs w false fields ht hw.fst
  | field root path ty =>
    rcases root.field_cases with ⟨y, span, rfl⟩ | ⟨y, span, value, hroot⟩ | ⟨hident, hconst⟩
    · unfold exprPaths
      split
      · exact Clean.skip
      · exact Clean.use
    · -- the pass looks no more at a constant whose field is read than at one that is used
      have hident : ∀ y span, root ≠ .ident y span := fun _ _ h => by rw [hroot] at h; cases h
      have hunseen : exprTame copy C false root Γ = true := by
        rw [hroot] at ht ⊢
        exact ht
      rw [exprPaths_field hident]
      exact clean_expr false root hunseen not_walked
    · rw [exprPaths_field hident]
      refine clean_expr w root ht fun h => ?_
      obtain ⟨env, r, hag, hc⟩ := hw h
      rw [checkExpr_field hident hconst] at hc
      obtain ⟨r', hroot, -⟩ := bind_ok hc
      exact ⟨env, r', hag, hroot⟩
  | prev => exact Clean.use
  | pipe head ty step =>
    rw [exprTame, Bool.and_eq_true, Bool.and_eq_true] at ht
    obtain ⟨hhead, hcareful, hstep⟩ := ht
    refine (clean_expr w head hhead hw.fst).seq
      (clean_bind hcareful (fits_expr step) (clean_expr w step hstep fun h => ?_))
    obtain ⟨env, r, hag, hc⟩ := hw h
    obtain ⟨a, ha, hc⟩ := bind_ok hc
    obtain ⟨b, hb, -⟩ := bind_ok hc
    exact ⟨a.2, b, hag.marks (marks_expr head ha), hb⟩
  | comp results clauses =>
    rw [exprTame, Bool.and_eq_true] at ht
    refine clean_comp w clauses ht.1 hw.fst (fun x => fits_exprs false results)
      (clean_exprs w false results ht.2 fun h => ?_)
    obtain ⟨env, r, hag, hc⟩ := hw h
    obtain ⟨a, ha, hc⟩ := bind_ok hc
    obtain ⟨b, hb, -⟩ := bind_ok hc
    exact ⟨a, b, hag.comp clauses ha, hb⟩
  | matchArms scrut arms =>
    rw [exprTame, Bool.and_eq_true] at ht
    refine (clean_expr w scrut ht.1 hw.fst).seq (clean_arms w arms ht.2 fun h => ?_)
    obtain ⟨env, r, hag, hc⟩ := hw h
    obtain ⟨a, ha, hc⟩ := bind_ok hc
    obtain ⟨b, hb, -⟩ := bind_ok hc
    exact ⟨a.2, b, hag.marks (marks_expr scrut ha), hb⟩
  | block body =>
    exact clean_block w true body ht hw.fst
  | ite branch =>
    exact clean_if w true branch ht hw.fst

theorem clean_exprs (w short : Bool) (es : List Expr) {Γ : Types} (ht : exprsTame copy C w es Γ = true)
    (hw : Walked w Γ (checkExprs C es)) : Clean (exprsPaths copy short es) := by
  cases es with
  | nil => exact Clean.skip
  | cons e es =>
    rw [exprsTame, Bool.and_eq_true] at ht
    have he : Clean (exprPaths copy e) := clean_expr w e ht.1 hw.fst
    have hes : Clean (exprsPaths copy short es) := clean_exprs w short es ht.2 fun h => by
      obtain ⟨env, r, hag, hc⟩ := hw h
      obtain ⟨a, ha, hc⟩ := bind_ok hc
      exact ⟨a.2, r, hag.marks (marks_expr e ha), hc⟩
    cases short with
    | false => exact he.seq hes
    | true => exact he.seq (Clean.skip.union hes)

theorem clean_comp (w : Bool) (cs : List CompClause) {Γ : Types} {k : List Occ} {K : Set (Path String)}
    (ht : compTame copy C w cs k Γ = true) (hw : Walked w Γ (checkCompClauses C cs)) (hfit : ∀ x, Fits x k K)
    (hK : Clean K) : Clean (compPaths copy cs K) := by
  cases cs with
  | nil => exact hK
  | cons c cs =>
    cases c with
    | «for» x ty iter =>
      rw [compTame, Bool.and_eq_true, Bool.and_eq_true] at ht
      obtain ⟨hiter, hcareful, hrest⟩ := ht
      refine (clean_expr w iter hiter hw.fst).seq (Clean.skip.rounds (clean_bind hcareful
        (fits_comp cs (hfit x)) (clean_comp w cs hrest (fun h => ?_) hfit hK)))
      obtain ⟨env, r, hag, hc⟩ := hw h
      obtain ⟨a, ha, hc⟩ := bind_ok hc
      exact ⟨_, r, (hag.marks (marks_expr iter ha)).push.insert x .int, hc⟩
    | «if» cond =>
      rw [compTame, Bool.and_eq_true] at ht
      refine (clean_expr w cond ht.1 hw.fst).seq (Clean.skip.union
        (clean_comp w cs ht.2 (fun h => ?_) hfit hK))
      obtain ⟨env, r, hag, hc⟩ := hw h
      obtain ⟨a, ha, hc⟩ := bind_ok hc
      exact ⟨a.2, r, hag.marks (marks_expr cond ha), hc⟩

theorem clean_arms (w : Bool) (arms : List MatchArm) {Γ : Types} (ht : armsTame copy C w arms Γ = true)
    (hw : Walked w Γ (checkArms C arms)) : Clean (armsPaths copy arms) := by
  cases arms with
  | nil => exact fun p hp => hp.elim
  | cons a arms =>
    cases a with
    | mk bindings body =>
      rw [armsTame, Bool.and_eq_true, Bool.and_eq_true] at ht
      obtain ⟨hcareful, hbody, harms⟩ := ht
      refine (clean_bindAll hcareful (fun x => fits_expr body) (clean_expr w body hbody fun h => ?_)).union
        (clean_arms w arms harms fun h => ?_)
      · obtain ⟨env, r, hag, hc⟩ := hw h
        obtain ⟨a, ha, -⟩ := bind_ok hc
        exact ⟨_, a, hag.push.bindUntyped bindings, ha⟩
      · obtain ⟨env, r, hag, hc⟩ := hw h
        obtain ⟨a, ha, hc⟩ := bind_ok hc
        refine ⟨a.2.tail, r, hag.marks fun x => ?_, hc⟩
        rw [column_tail]
        exact ((shift_bindUntyped bindings env.push x).1.trans (marks_expr body ha x).shift).pop

theorem clean_place (w : Bool) (p : Place) {Γ : Types} (ht : placeTame copy C w p Γ = true)
    (hw : ∀ state key, p = .index state key → Walked w Γ (checkExpr C key)) : Clean (placePaths copy p) := by
  cases p with
  | var name => exact Clean.skip
  | index state key => exact clean_expr w key ht (hw state key rfl)
  | field base name => exact clean_place false base ht fun _ _ _ => not_walked

theorem clean_opt (w : Bool) (o : Option Expr) {Γ : Types} (ht : optTame copy C w o Γ = true)
    (hw : ∀ e, o = some e → Walked w Γ (checkExpr C e)) : Clean (optPaths copy o) := by
  cases o with
  | none => exact Clean.skip
  | some e => exact clean_expr w e ht (hw e rfl)

theorem clean_block (w sees : Bool) (b : Block) {Γ : Types} (ht : blockTame copy C w sees b Γ = true)
    (hw : Walked w Γ (walkBlock C sees b)) : Clean (blockPaths copy b) := by
  cases b with
  | mk stmts tail =>
    rw [blockTame, Bool.and_eq_true] at ht
    obtain ⟨hstmts, htail⟩ := ht
    cases sees with
    | false =>
      rw [Bool.and_false] at htail
      refine clean_stmts w stmts hstmts (fun h => ?_) (fun x => (fits_opt tail).hide)
        (clean_opt false tail htail fun _ _ => not_walked)
      obtain ⟨env, r, hag, hc⟩ := hw h
      obtain ⟨inner, hin, -⟩ := bind_ok hc
      exact ⟨env.push, inner, hag.push, hin, tracks_tail (C := C) tail (.inl rfl)⟩
    | true =>
      rw [Bool.and_true] at htail
      have hwalk : w = true → ∃ env inner, Agrees Γ env ∧ checkStmts C stmts env = .ok inner ∧
          ∀ t, tail = some t → ∃ r, checkExpr C t inner = .ok r := by
        intro h
        obtain ⟨env, r, hag, hc⟩ := hw h
        cases tail with
        | none =>
          obtain ⟨inner, hin, -⟩ := bind_ok hc
          exact ⟨env.push, inner, hag.push, hin, fun t ht => by cases ht⟩
        | some t =>
          obtain ⟨inner, hin, hc⟩ := bind_ok hc
          obtain ⟨r, hr, -⟩ := bind_ok hc
          refine ⟨env.push, inner, hag.push, hin, fun t' ht' => ?_⟩
          obtain rfl := Option.some.inj ht'
          exact ⟨r, hr⟩
      refine clean_stmts w stmts hstmts (fun h => ?_) (fun x => fits_opt tail)
        (clean_opt w tail htail fun t htl h => ?_)
      · obtain ⟨env, inner, hag, hin, hall⟩ := hwalk h
        exact ⟨env, inner, hag, hin, tracks_tail tail (.inr ⟨rfl, hall⟩)⟩
      · obtain ⟨env, inner, hag, hin, hall⟩ := hwalk h
        obtain ⟨r, hr⟩ := hall t htl
        exact ⟨inner, r, agrees_stmts stmts hag hin, hr⟩

theorem clean_if (w sees : Bool) (i : IfStmt) {Γ : Types} (ht : ifTame copy C w sees i Γ = true)
    (hw : Walked w Γ (walkIf C sees i)) : Clean (ifPaths copy i) := by
  cases i with
  | mk cond then' els =>
    rw [ifTame, Bool.and_eq_true, Bool.and_eq_true] at ht
    obtain ⟨hcond, hthen, helse⟩ := ht
    obtain ⟨hc, ht', he⟩ := walked_if hw
    refine (clean_expr w cond hcond hc).seq ((clean_block w sees then' hthen ht').union ?_)
    cases els with
    | none => exact Clean.skip
    | block body => exact clean_block w sees body helse he
    | «if» inner => exact clean_if w sees inner helse he

theorem clean_stmt (w : Bool) (s : Stmt) {Γ : Types} {k : List Occ} {K : Set (Path String)}
    (ht : stmtTame copy C w s k Γ = true)
    (hw : w = true → ∃ env env', Agrees Γ env ∧ checkStmt C s env = .ok env' ∧ Tracks env' k K)
    (hfit : ∀ x, Fits x k K) (hK : Clean K) : Clean (stmtPaths copy s K) := by
  have hwalk : Walked w Γ (checkStmt C s) := fun h => by
    obtain ⟨env, env', hag, hc, -⟩ := hw h
    exact ⟨env, env', hag, hc⟩
  cases s with
  | «let» x declared inferred value =>
    rw [stmtTame, Bool.and_eq_true] at ht
    refine (clean_expr w value ht.1 hwalk.fst).seq (hK.bind fun honce => ?_)
    refine careful_within ht.2 (by simpa using honce) (hfit x) fun h hkept hseen => ?_
    obtain ⟨env, env', hag, hc, htr⟩ := hw h
    obtain ⟨v, hv, hc⟩ := bind_ok hc
    obtain rfl := Except.ok.inj hc
    rw [← hag.type_eq value hv] at hkept
    obtain ⟨hcol, hspent⟩ := first_insert (hag.marks (marks_expr value hv)) x (declared.getD v.1)
    have := htr x ⟨_, hcol, hkept⟩ hseen
    rwa [hspent] at this
  | letTuple names value =>
    rw [stmtTame, Bool.and_eq_true] at ht
    exact (clean_expr w value ht.1 hwalk.fst).seq (clean_bindAll ht.2 hfit hK)
  | assign target value =>
    rw [stmtTame, Bool.and_eq_true] at ht
    refine (clean_expr w value ht.1 fun h => ?_).seq
      ((clean_place w target ht.2 fun state key hp => ?_).seq hK)
    · obtain ⟨env, r, hag, hc⟩ := hwalk h
      cases target with
      | index state key =>
        obtain ⟨a, ha, hc⟩ := bind_ok hc
        obtain ⟨v, hv, -⟩ := bind_ok hc
        exact ⟨a.2, v, hag.marks (marks_expr key ha), hv⟩
      | var name =>
        obtain ⟨v, hv, -⟩ := bind_ok hc
        exact ⟨env, v, hag, hv⟩
      | field base name =>
        obtain ⟨v, hv, -⟩ := bind_ok hc
        exact ⟨env, v, hag, hv⟩
    · subst hp
      exact hwalk.fst
  | «return» value =>
    refine (clean_opt w value ht fun e he => ?_).seq Clean.jump
    subst he
    exact hwalk.fst
  | «if» branch => exact (clean_if w false branch ht hwalk).seq hK
  | «while» cond body =>
    rw [stmtTame, Bool.and_eq_true] at ht
    have hcond := clean_expr w cond ht.1 hwalk.fst
    refine (hcond.loop (hcond.seq (clean_block w false body ht.2 fun h => ?_))).seq hK
    obtain ⟨env, r, hag, hc⟩ := hwalk h
    obtain ⟨c, hc', hc⟩ := bind_ok hc
    obtain ⟨b, hb, -⟩ := bind_ok hc
    exact ⟨c.2, b, hag.marks (marks_expr cond hc'), hb⟩
  | «for» x ty iter limit body =>
    rw [stmtTame, Bool.and_eq_true, Bool.and_eq_true, Bool.and_eq_true] at ht
    obtain ⟨hiter, hlimit, hcareful, hbody⟩ := ht
    refine (clean_expr w iter hiter hwalk.fst).seq
      ((clean_opt false limit hlimit fun _ _ => not_walked).seq
        ((Clean.skip.loop (clean_bind hcareful (fits_block false body)
          (clean_block w false body hbody fun h => ?_))).seq hK))
    obtain ⟨env, r, hag, hc⟩ := hwalk h
    obtain ⟨i, hi, hc⟩ := bind_ok hc
    obtain ⟨b, hb, -⟩ := bind_ok hc
    exact ⟨_, b, (hag.marks (marks_expr iter hi)).push.insert x .int, hb⟩
  | forRange x ty start stop body =>
    rw [stmtTame, Bool.and_eq_true, Bool.and_eq_true, Bool.and_eq_true] at ht
    obtain ⟨hstart, hstop, hcareful, hbody⟩ := ht
    have hboth : w = true → ∃ env a b, Agrees Γ env ∧ checkExpr C start env = .ok a ∧
        checkExpr C stop a.2 = .ok b ∧ ∃ e, checkBlock C body (b.2.push.insert x .int) = .ok e := by
      intro h
      obtain ⟨env, r, hag, hc⟩ := hwalk h
      obtain ⟨a, ha, hc⟩ := bind_ok hc
      obtain ⟨b, hb, hc⟩ := bind_ok hc
      obtain ⟨e, he, -⟩ := bind_ok hc
      exact ⟨env, a, b, hag, ha, hb, e, he⟩
    refine (clean_expr w start hstart hwalk.fst).seq ((clean_expr w stop hstop fun h => ?_).seq
      ((Clean.skip.loop (clean_bind hcareful (fits_block false body)
        (clean_block w false body hbody fun h => ?_))).seq hK))
    · obtain ⟨env, a, b, hag, ha, hb, -⟩ := hboth h
      exact ⟨a.2, b, hag.marks (marks_expr start ha), hb⟩
    · obtain ⟨env, a, b, hag, ha, hb, e, he⟩ := hboth h
      exact ⟨_, e, ((hag.marks (marks_expr start ha)).marks (marks_expr stop hb)).push.insert x .int, he⟩
  | «break» => exact Clean.jump
  | «continue» => exact Clean.jump
  | placeholder => exact hK
  | expr e => exact (clean_expr w e ht hwalk.fst).seq hK
  | parallel stmts => exact clean_stmts w stmts ht hw hfit hK
  | parallelForTo x ty idx source output body =>
    rw [stmtTame, Bool.and_eq_true, Bool.and_eq_true, Bool.and_eq_true] at ht
    obtain ⟨hsource, houtput, hcareful, hbody⟩ := ht
    have hboth : w = true → ∃ env a b, Agrees Γ env ∧ checkExpr C source env = .ok a ∧
        checkExpr C output a.2 = .ok b ∧ ∃ e, checkBlock C body (b.2.push.insert x .u64) = .ok e := by
      intro h
      obtain ⟨env, r, hag, hc⟩ := hwalk h
      obtain ⟨a, ha, hc⟩ := bind_ok hc
      obtain ⟨b, hb, hc⟩ := bind_ok hc
      obtain ⟨e, he, -⟩ := bind_ok hc
      exact ⟨env, a, b, hag, ha, hb, e, he⟩
    refine (clean_expr w source hsource hwalk.fst).seq ((clean_expr w output houtput fun h => ?_).seq
      ((Clean.skip.loop (clean_bindAll hcareful (fun y => fits_block false body)
        (clean_block w false body hbody fun h => ?_))).seq hK))
    · obtain ⟨env, a, b, hag, ha, hb, -⟩ := hboth h
      exact ⟨a.2, b, hag.marks (marks_expr source ha), hb⟩
    · obtain ⟨env, a, b, hag, ha, hb, e, he⟩ := hboth h
      exact ⟨_, e, ((hag.marks (marks_expr source ha)).marks (marks_expr output hb)).push.insert x .u64, he⟩

theorem clean_stmts (w : Bool) (ss : List Stmt) {Γ : Types} {k : List Occ} {K : Set (Path String)}
    (ht : stmtsTame copy C w ss k Γ = true)
    (hw : w = true → ∃ env env', Agrees Γ env ∧ checkStmts C ss env = .ok env' ∧ Tracks env' k K)
    (hfit : ∀ x, Fits x k K) (hK : Clean K) : Clean (stmtsPaths copy ss K) := by
  cases ss with
  | nil => exact hK
  | cons s ss =>
    rw [stmtsTame, Bool.and_eq_true] at ht
    refine clean_stmt w s ht.1 (fun h => ?_) (fun x => fits_stmts ss (hfit x))
      (clean_stmts w ss ht.2 (fun h => ?_) hfit hK)
    · obtain ⟨env, env', hag, hc, htr⟩ := hw h
      obtain ⟨env₁, h₁, hc⟩ := bind_ok hc
      exact ⟨env, env₁, hag, h₁, htr.stmts hc⟩
    · obtain ⟨env, env', hag, hc, htr⟩ := hw h
      obtain ⟨env₁, h₁, hc⟩ := bind_ok hc
      exact ⟨env₁, env', agrees_stmt s hag h₁, hc, htr⟩

end

/-! ### Functions and modules -/

theorem agrees_params (ps : List Param) {env : Env} (h : Agrees Γ env) :
    Agrees (ps.foldl (fun Γ p => Function.update Γ p.name (some p.ty)) Γ)
      (ps.foldl (fun env p => env.insert p.name p.ty) env) := by
  induction ps generalizing Γ env with
  | nil => exact h
  | cons p ps ih => exact ih (h.insert p.name p.ty)

/-- The scopes of parameters that do not bind a name. -/
theorem column_params (ps : List Param) {x : String} (hx : x ∉ ps.map fun p => p.name) (env : Env) :
    column (ps.foldl (fun env p => env.insert p.name p.ty) env) x = column env x := by
  induction ps generalizing env with
  | nil => rfl
  | cons p ps ih =>
    rw [List.map_cons, List.mem_cons, not_or] at hx
    exact (ih hx.2 _).trans (column_insert_of_ne hx.1)

theorem clean_params (ps : List Param) {env : Env} {scope : List Occ} {K : Set (Path String)}
    (h : Agrees Γ env) (ht : carefulParams copy ps scope = true) (hfit : ∀ x, Fits x scope K) (hK : Clean K)
    (htr : Tracks (ps.foldl (fun env p => env.insert p.name p.ty) env) scope K) :
    Clean (bindAll (once copy (ps.map fun p => (p.name, p.ty))) K) := by
  induction ps generalizing Γ env with
  | nil => exact hK
  | cons p ps ih =>
    rw [carefulParams, Bool.and_eq_true] at ht
    have hnames : (once copy (ps.map fun p => (p.name, p.ty))).map Prod.fst = ps.map fun p => p.name := by
      rw [once_map_fst, List.map_map]
      rfl
    refine (ih (h.insert p.name p.ty) ht.2 htr).bind fun honce => ?_
    refine careful_within ht.1 (by simpa using honce) (Fits.bindAll hnames (hfit p.name))
      fun _ hkept hseen => ?_
    -- a later parameter of the same name hides this one
    refine Within.bindAll (Nat.zero_le 1) fun hx => ?_
    rw [hnames] at hx
    obtain ⟨hfirst, hspent⟩ := first_insert h p.name p.ty
    have hcol := column_params ps hx (env.insert p.name p.ty)
    have := htr p.name ⟨_, by rw [List.foldl_cons, hcol, hfirst], hkept⟩ (hseen.of_without hx)
    rwa [List.foldl_cons, hcol, hspent] at this

theorem clean_fn {f : FnDef} (hc : checkFn C f = .ok ()) (ht : f.tame copy C = true) : Clean (f.paths copy) := by
  rw [FnDef.tame, Bool.and_eq_true] at ht
  obtain ⟨r, hr, -⟩ := bind_ok hc
  have hstart : Agrees (fun _ => none) (Env.push []) := ⟨List.cons_ne_nil _ _, fun _ => rfl⟩
  have hag : Agrees (paramTypes f.params) (paramEnv f.params) := agrees_params f.params hstart
  refine clean_params f.params hstart ht.1 (fun x => fits_block false f.body) ?_ fun x hk hs => ?_
  · exact clean_block true false f.body ht.2 fun _ => ⟨_, r, hag, hr⟩
  · exact (within_block f.body hr hk hs).mono (le_refl _) (spent_le_one _)

/-- A use of the resource `r`. -/
def unwrapR : Expr := .call none "unwrap" [.ident "r" ⟨0, 1⟩] ⟨0, 1⟩

/-- `struct Outer { inner: Inner }  struct Inner { coin: Coin }  enum Coin { Gold(Resource) }`, and
`const D: int = { let r = resource(7); unwrap(r) };`, beside a module `mint` with `pub struct Purse { token: Token }`
and `enum Token { One(Resource) }`. In `Outer` the type `Coin` has no variants, and nor has `Token` in `Purse`. -/
def coins (functions : List FnDef) : Module where
  name := "main"
  imports := [("spend", .int)]
  states := []
  consts := [⟨"D", .int, .block (.mk
    [.let "r" none .resource (.call none "resource" [.lit .u64] ⟨0, 1⟩)] (some unwrapR))⟩]
  structs := [("Outer", [("inner", .struct "Inner" [("coin", .enum "Coin" [])] [none])]),
    ("Inner", [("coin", .enum "Coin" [("Gold", [.resource])])])]
  enums := [("Coin", [("Gold", [.resource])])]
  caps := []
  functions
  others := [("mint", ⟨[("Purse", [("token", .enum "Token" [])])], [("Token", [("One", [.resource])])], []⟩)]

/-- The type of the parameters `o: Outer`. -/
def outerTy : Ty := .struct "Outer" [("inner", .struct "Inner" [("coin", .enum "Coin" [])] [none])] [none]

/-- The type of the parameters `p: mint::Purse`. -/
def purseTy : Ty := .struct "mint::Purse" [("token", .enum "Token" [])] [none]

/-- `spend(x)`. -/
def spend (x : String) : Expr := .call none "spend" [.ident x ⟨0, 1⟩] ⟨0, 1⟩

/-- `fn f(o: Outer, r: Resource) -> int { let s = r; spend(o); unwrap(s) + D }` and
`fn g(p: mint::Purse) -> int { let t = p.token; spend(t) }`. -/
def movesOnce : Module := coins
  [⟨"f", [⟨"o", outerTy, ⟨0, 1⟩⟩, ⟨"r", .resource, ⟨0, 1⟩⟩], .int,
    .mk [.let "s" none .resource (.ident "r" ⟨0, 1⟩), .expr (spend "o")]
      (some (.op .binary [.call none "unwrap" [.ident "s" ⟨0, 1⟩] ⟨0, 1⟩, .ident "D" ⟨0, 1⟩]))⟩,
   ⟨"g", [⟨"p", purseTy, ⟨0, 1⟩⟩], .int,
    .mk [.let "t" none (.enum "Token" []) (.field (.ident "p" ⟨0, 1⟩) ["token"] (.enum "Token" []))]
      (some (spend "t"))⟩]

-- `fn f(x: T) -> int { spend(x); spend(x) }` is accepted for either of these types, and `x` is not careful
example : ∀ ty ∈ [outerTy, purseTy],
    let f : FnDef := ⟨"f", [⟨"x", ty, ⟨0, 1⟩⟩], .int, .mk [.expr (spend "x")] (some (spend "x"))⟩
    check (coins [f]) = .ok () ∧ ((coins [f]).inlined f).tame (coins [f]).copy (coins [f]).ctx = false :=
  List.forall_mem_cons.mpr ⟨⟨rfl, by decide⟩, List.forall_mem_singleton.mpr ⟨rfl, by decide⟩⟩

/-- `fn f(r: Resource) -> int { unwrap(r); unwrap(r) }`. -/
def movesAgain : Module where
  name := "main"
  imports := []
  states := []
  consts := []
  structs := []
  enums := []
  caps := []
  functions := [⟨"f", [⟨"r", .resource, ⟨0, 1⟩⟩], .int, .mk [.expr unwrapR] (some unwrapR)⟩]
  others := []

end Rend.Affine
