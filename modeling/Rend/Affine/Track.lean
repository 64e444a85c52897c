import Rend.Lib.Checks
import Rend.Affine.Occurs

/-!
# What the pass keeps track of

For one name, the scopes are a column of bindings. Walking an expression can only mark the innermost of
them as moved (`Marks`); walking a statement can also rebind the name in the innermost scope (`Shift`).
A binding that is marked counts as one use: what a path uses of a variable that the pass looks at
everywhere is paid for by its mark.

* `marks_expr`, `shift_stmts`: what a walk does to the scopes.
* `within_expr`, `within_stmts`: a path uses a variable no more often than the walk marks it.
-/

namespace Rend.Affine

open Lib Lib.UsePaths

/-! ### Columns -/

/-- The bindings of one name, the innermost first. -/
abbrev Column := List (Option Binding)

/-- The bindings of a name in the scopes. -/
def column (env : Env) (x : String) : Column := env.map fun s => s x

/-- The binding a name stands for. -/
def first : Column → Option Binding
  | [] => none
  | some b :: _ => some b
  | none :: c => first c

/-- The uses a column has paid for: one when the binding is moved. -/
def spent (c : Column) : ℕ :=
  match first c with
  | some b => if b.movedAt.isSome then 1 else 0
  | none => 0

/-- The name stands for a binding whose type is not Copy. -/
def Kept (c : Column) : Prop := ∃ b, first c = some b ∧ b.ty.isCopy = false

/-- At most the binding the name stands for has changed: it may have been moved. -/
def Marks : Column → Column → Prop
  | [], [] => True
  | none :: c, none :: c' => Marks c c'
  | some b :: c, some b' :: c' => b'.ty = b.ty ∧ (b.movedAt.isSome → b'.movedAt.isSome) ∧ c' = c
  | _, _ => False

/-- The innermost scope may have changed, and it keeps what it binds; outside of it a binding may have
been moved, unless the innermost scope hides it. -/
def Shift : Column → Column → Prop
  | [], [] => True
  | b :: c, b' :: c' => (b = none → Marks c c') ∧ (b ≠ none → c' = c ∧ b' ≠ none)
  | _, _ => False

theorem spent_le_one (c : Column) : spent c ≤ 1 := by
  unfold spent
  split
  · split <;> omega
  · omega

theorem get_eq_first (env : Env) (x : String) : env.get x = first (column env x) := by
  induction env with
  | nil => rfl
  | cons s outer ih =>
    rw [column, List.map_cons, Env.get, List.findSome?_cons]
    cases s x with
    | some b => rfl
    | none => exact ih

namespace Marks

variable {c c' c'' : Column}

theorem refl (c : Column) : Marks c c := by
  induction c with
  | nil => trivial
  | cons b c ih =>
    cases b with
    | none => exact ih
    | some b => exact ⟨rfl, id, rfl⟩

theorem trans (h : Marks c c') (h' : Marks c' c'') : Marks c c'' := by
  induction c generalizing c' c'' with
  | nil =>
    cases c' with
    | nil => exact h'
    | cons _ _ => exact h.elim
  | cons b c ih =>
    cases c' with
    | nil => cases b <;> exact h.elim
    | cons b' c' =>
      cases c'' with
      | nil => cases b' <;> exact h'.elim
      | cons b'' c'' =>
        cases b <;> cases b' <;> cases b'' <;> first | exact h.elim | exact h'.elim | skip
        · exact ih h h'
        · exact ⟨h'.1.trans h.1, fun hm => h'.2.1 (h.2.1 hm), h'.2.2.trans h.2.2⟩

/-- The type the pass keeps stays, and a mark stays. -/
theorem first_eq (h : Marks c c') : (first c').map Binding.ty = (first c).map Binding.ty ∧ spent c ≤ spent c' := by
  induction c generalizing c' with
  | nil =>
    cases c' with
    | nil => exact ⟨rfl, le_refl _⟩
    | cons _ _ => exact h.elim
  | cons b c ih =>
    cases c' with
    | nil => cases b <;> exact h.elim
    | cons b' c' =>
      cases b <;> cases b' <;> first | exact h.elim | skip
      · have hc : Marks c c' := h
        have := ih hc
        exact this
      · obtain ⟨hty, hm, -⟩ := h
        refine ⟨by simp [first, hty], ?_⟩
        unfold spent
        simp only [first]
        split
        · rename_i hb
          rw [if_pos (hm hb)]
        · exact Nat.zero_le _

theorem spent_le (h : Marks c c') : spent c ≤ spent c' := h.first_eq.2

theorem kept (h : Marks c c') (hk : Kept c) : Kept c' := by
  obtain ⟨b, hb, hcopy⟩ := hk
  have hty := h.first_eq.1
  rw [hb, Option.map_some, Option.map_eq_some_iff] at hty
  obtain ⟨b', hb', hty⟩ := hty
  exact ⟨b', hb', by rw [hty, hcopy]⟩

theorem tail (h : Marks c c') : Marks c.tail c'.tail := by
  cases c with
  | nil =>
    cases c' with
    | nil => trivial
    | cons _ _ => exact h.elim
  | cons b c =>
    cases c' with
    | nil => cases b <;> exact h.elim
    | cons b' c' =>
      cases b <;> cases b' <;> first | exact h.elim | skip
      · exact h
      · exact h.2.2 ▸ refl c

theorem shift (h : Marks c c') : Shift c c' := by
  cases c with
  | nil =>
    cases c' with
    | nil => trivial
    | cons _ _ => exact h.elim
  | cons b c =>
    cases c' with
    | nil => cases b <;> exact h.elim
    | cons b' c' =>
      cases b <;> cases b' <;> first | exact h.elim | skip
      · exact ⟨fun _ => h, fun hb => absurd rfl hb⟩
      · exact ⟨fun hb => absurd hb (Option.some_ne_none _), fun _ => ⟨h.2.2, Option.some_ne_none _⟩⟩

end Marks

namespace Shift

variable {c c' c'' : Column}

theorem trans (h : Shift c c') (h' : Shift c' c'') : Shift c c'' := by
  cases c <;> cases c' <;> cases c'' <;> first | exact h.elim | exact h'.elim | trivial | skip
  rename_i b c b' c' b'' c''
  refine ⟨fun hb => ?_, fun hb => ?_⟩
  · by_cases hb' : b' = none
    · exact (h.1 hb).trans (h'.1 hb')
    · exact (h'.2 hb').1 ▸ h.1 hb
  · obtain ⟨rfl, hb'⟩ := h.2 hb
    obtain ⟨rfl, hb''⟩ := h'.2 hb'
    exact ⟨rfl, hb''⟩

/-- Leaving the scope that was opened. -/
theorem pop (h : Shift (none :: c) c') : Marks c c'.tail := by
  cases c' with
  | nil => exact h.elim
  | cons b' c' => exact h.1 rfl

end Shift

/-! ### The operations on scopes -/

theorem column_tail (env : Env) (x : String) : column env.tail x = (column env x).tail := List.map_tail

theorem column_insert_of_ne {env : Env} {x y : String} {t : Ty} (h : x ≠ y) :
    column (env.insert y t) x = column env x := by
  cases env with
  | nil => rfl
  | cons s outer =>
    simp only [column, Env.insert, List.map_cons, Function.update_of_ne h]

theorem tail_column_insert (env : Env) (x y : String) (t : Ty) :
    (column (env.insert y t) x).tail = (column env x).tail := by
  cases env <;> rfl

theorem shift_insert (env : Env) (x y : String) (t : Ty) :
    Shift (column env x) (column (env.insert y t) x) := by
  by_cases h : x = y
  · subst h
    cases env with
    | nil => trivial
    | cons s outer =>
      refine ⟨fun _ => Marks.refl _, fun _ => ⟨rfl, ?_⟩⟩
      simp
  · rw [column_insert_of_ne h]
    exact (Marks.refl _).shift

/-- The names a list of variables binds in the innermost scope. -/
theorem shift_bindUntyped (names : List (String × Ty)) (env : Env) (x : String) :
    Shift (column env x) (column (bindUntyped names env) x) ∧
      (x ∉ names.map Prod.fst → column (bindUntyped names env) x = column env x) := by
  induction names generalizing env with
  | nil => exact ⟨(Marks.refl _).shift, fun _ => rfl⟩
  | cons n names ih =>
    obtain ⟨hs, hne⟩ := ih (env.insert n.1 .int)
    refine ⟨(shift_insert env x n.1 .int).trans hs, fun hx => ?_⟩
    rw [List.map_cons, List.mem_cons, not_or] at hx
    exact (hne hx.2).trans (column_insert_of_ne hx.1)

theorem tail_column_bindUntyped (names : List (String × Ty)) (env : Env) (x : String) :
    (column (bindUntyped names env) x).tail = (column env x).tail := by
  induction names generalizing env with
  | nil => rfl
  | cons n names ih => exact (ih _).trans (tail_column_insert env x n.1 .int)

/-- A move marks the binding the name stands for. -/
theorem marks_move (env : Env) (x y : String) (span : Span) :
    Marks (column env x) (column (env.move y span) x) := by
  induction env with
  | nil => trivial
  | cons s outer ih =>
    unfold Env.move
    cases hs : s y with
    | none =>
      simp only [column, List.map_cons]
      cases hx : s x with
      | none => exact ih
      | some b =>
        refine ⟨rfl, id, ?_⟩
        have hxy : x ≠ y := by
          rintro rfl
          rw [hs] at hx
          cases hx
        clear ih
        induction outer with
        | nil => rfl
        | cons s' outer ih =>
          unfold Env.move
          split
          · simp only [List.map_cons, Function.update_of_ne hxy]
          · simp only [List.map_cons, ih]
    | some b =>
      by_cases hxy : x = y
      · subst hxy
        simp only [column, List.map_cons, hs, Function.update_self]
        exact ⟨rfl, fun _ => rfl, rfl⟩
      · simp only [column, List.map_cons, Function.update_of_ne hxy]
        exact Marks.refl _

theorem spent_move {env : Env} {x : String} {b : Binding} (h : first (column env x) = some b) (span : Span) :
    spent (column (env.move x span) x) = 1 := by
  induction env with
  | nil => cases h
  | cons s outer ih =>
    unfold Env.move
    cases hs : s x with
    | none =>
      rw [column, List.map_cons, hs] at h
      simp only [column, List.map_cons, hs]
      exact ih h
    | some b =>
      simp [column, spent, first]

/-- The bindings of a name after one of two branches. -/
def mergeColumn (ca cb : Column) : Column :=
  List.zipWith (fun va vb => va.map fun v => ⟨v.ty, v.movedAt.or (vb.getD v).movedAt⟩) ca cb

theorem column_merge (a b : Env) (x : String) :
    column (merge a b) x = mergeColumn (column a x) (column b x) := by
  unfold column merge mergeColumn
  rw [List.map_zipWith, List.zipWith_map]

theorem mergeColumn_self (c : Column) : mergeColumn c c = c := by
  induction c with
  | nil => rfl
  | cons b c ih =>
    rw [mergeColumn, List.zipWith_cons_cons, ← mergeColumn, ih]
    cases b with
    | none => rfl
    | some b => simp

/-- Merging what two branches marked marks what either did. -/
theorem marks_mergeColumn {c ca cb : Column} (ha : Marks c ca) (hb : Marks c cb) :
    Marks c (mergeColumn ca cb) ∧ spent ca ≤ spent (mergeColumn ca cb) ∧
      spent cb ≤ spent (mergeColumn ca cb) := by
  induction c generalizing ca cb with
  | nil =>
    cases ca <;> cases cb <;> first | exact ha.elim | exact hb.elim | skip
    exact ⟨trivial, le_refl _, le_refl _⟩
  | cons b c ih =>
    cases b <;> cases ca <;> cases cb <;> first | exact ha.elim | exact hb.elim | skip
    · rename_i b₁ c₁ b₂ c₂
      cases b₁ <;> cases b₂ <;> first | exact ha.elim | exact hb.elim | skip
      exact ih ha hb
    · rename_i b b₁ c₁ b₂ c₂
      cases b₁ <;> cases b₂ <;> first | exact ha.elim | exact hb.elim | skip
      rename_i b₁ b₂
      obtain ⟨hty₁, hm₁, rfl⟩ := ha
      obtain ⟨hty₂, hm₂, rfl⟩ := hb
      rw [mergeColumn, List.zipWith_cons_cons, ← mergeColumn, mergeColumn_self]
      refine ⟨⟨hty₁, fun hm => by simp [hm₁ hm], rfl⟩, ?_, ?_⟩ <;>
      · simp only [spent, first, Option.map_some, Option.getD_some, Option.isSome_or, Bool.or_eq_true]
        split <;> simp_all

/-! ### What a walk does to the scopes -/

variable {C : Ctx}

theorem checkExpr_field {root : Expr} {path : List String} {ty : Ty} {env : Env}
    (h : ∀ y span, root ≠ .ident y span) (h' : ∀ y span value, root ≠ .const y span value) :
    checkExpr C (.field root path ty) env = do
      let r ← checkExpr C root env
      return (.int, r.2) := by
  cases root <;> first | rfl | exact absurd rfl (h _ _) | exact absurd rfl (h' _ _ _)

/-- What a chain of fields starts from: a name, the name of a constant, or anything else. -/
theorem Expr.field_cases (root : Expr) : (∃ y span, root = .ident y span) ∨
    (∃ y span value, root = .const y span value) ∨
      ((∀ y span, root ≠ .ident y span) ∧ ∀ y span value, root ≠ .const y span value) := by
  cases root with
  | ident y span => exact .inl ⟨y, span, rfl⟩
  | const y span value => exact .inr (.inl ⟨y, span, value, rfl⟩)
  | _ => exact .inr (.inr ⟨fun _ _ => (nomatch ·), fun _ _ _ => (nomatch ·)⟩)

theorem marks_ident {x y : String} {span : Span} {env : Env} {r : Ty × Env}
    (h : checkIdent C y span env = .ok r) : Marks (column env x) (column r.2 x) := by
  unfold checkIdent at h
  split at h
  · split at h
    · cases h
    · obtain rfl := Except.ok.inj h
      simp only
      split
      · exact Marks.refl _
      · exact marks_move env x y span
  · split at h
    · obtain rfl := Except.ok.inj h
      exact Marks.refl _
    · cases h

mutual

theorem marks_expr (e : Expr) {env : Env} {r : Ty × Env} (h : checkExpr C e env = .ok r) (x : String) :
    Marks (column env x) (column r.2 x) := by
  cases e with
  | lit ty => obtain rfl := Except.ok.inj h; exact Marks.refl _
  | json items => obtain rfl := Except.ok.inj h; exact Marks.refl _
  | ident y span => exact marks_ident h
  | const y span value => exact marks_ident h
  | op o operands =>
    obtain ⟨env₁, h₁, h⟩ := bind_ok h
    obtain rfl := Except.ok.inj h
    exact marks_exprs operands h₁ x
  | call module name args span =>
    obtain ⟨env₁, h₁, h⟩ := bind_ok h
    obtain ⟨ty, -, h⟩ := bind_ok h
    obtain rfl := Except.ok.inj h
    exact marks_exprs args h₁ x
  | dynCall target args =>
    obtain ⟨env₁, h₁, h⟩ := bind_ok h
    obtain rfl := Except.ok.inj h
    exact marks_exprs args h₁ x
  | index target key =>
    obtain ⟨k, hk, h⟩ := bind_ok h
    obtain ⟨t, ht, h⟩ := bind_ok h
    obtain rfl := Except.ok.inj h
    exact (marks_expr key hk x).trans (marks_expr target ht x)
  | explicitLiteral inner => exact marks_expr inner h x
  | structLit name fields =>
    obtain ⟨env₁, h₁, h⟩ := bind_ok h
    obtain rfl := Except.ok.inj h
    exact marks_exprs fields h₁ x
  | field root path ty =>
    rcases root.field_cases with ⟨y, span, rfl⟩ | ⟨y, span, value, rfl⟩ | ⟨hident, hconst⟩
    · obtain ⟨_, -, h⟩ := bind_ok h
      obtain rfl := Except.ok.inj h
      exact Marks.refl _
    · obtain ⟨_, -, h⟩ := bind_ok h
      obtain rfl := Except.ok.inj h
      exact Marks.refl _
    · rw [checkExpr_field hident hconst] at h
      obtain ⟨r', hr', h⟩ := bind_ok h
      obtain rfl := Except.ok.inj h
      exact marks_expr root hr' x
  | prev => obtain rfl := Except.ok.inj h; exact Marks.refl _
  | pipe head ty step =>
    obtain ⟨a, ha, h⟩ := bind_ok h
    obtain ⟨b, hb, h⟩ := bind_ok h
    obtain rfl := Except.ok.inj h
    exact (marks_expr head ha x).trans (marks_expr step hb x)
  | comp results clauses =>
    obtain ⟨a, ha, h⟩ := bind_ok h
    obtain ⟨b, hb, h⟩ := bind_ok h
    obtain rfl := Except.ok.inj h
    exact marks_comp clauses ha (marks_exprs results hb) x
  | matchArms scrut arms =>
    obtain ⟨a, ha, h⟩ := bind_ok h
    obtain ⟨b, hb, h⟩ := bind_ok h
    obtain rfl := Except.ok.inj h
    exact (marks_expr scrut ha x).trans (marks_arms arms hb x)
  | block body =>
    obtain ⟨a, ha, h⟩ := bind_ok h
    obtain rfl := Except.ok.inj h
    exact marks_valueBlock body ha x
  | ite branch =>
    obtain ⟨a, ha, h⟩ := bind_ok h
    obtain rfl := Except.ok.inj h
    exact marks_ifExpr branch ha x

theorem marks_exprs (es : List Expr) {env env' : Env} (h : checkExprs C es env = .ok env') (x : String) :
    Marks (column env x) (column env' x) := by
  cases es with
  | nil => obtain rfl := Except.ok.inj h; exact Marks.refl _
  | cons e es =>
    obtain ⟨r, hr, h⟩ := bind_ok h
    exact (marks_expr e hr x).trans (marks_exprs es h x)

/-- The clauses, then whatever is walked in their scopes, and the scopes closed again. -/
theorem marks_comp (cs : List CompClause) {env inner env' : Env} (h : checkCompClauses C cs env = .ok inner)
    (h' : ∀ x, Marks (column inner x) (column env' x)) (x : String) :
    Marks (column env x) (column (env'.drop (pushed cs)) x) := by
  cases cs with
  | nil => obtain rfl := Except.ok.inj h; exact h' x
  | cons c cs =>
    cases c with
    | «for» var ty iter =>
      obtain ⟨r, hr, h⟩ := bind_ok h
      have hin := (shift_insert r.2.push x var .int).trans (marks_comp cs h h' x).shift
      have hpop := hin.pop
      rw [← column_tail, List.tail_drop] at hpop
      exact (marks_expr iter hr x).trans hpop
    | «if» cond =>
      obtain ⟨r, hr, h⟩ := bind_ok h
      exact (marks_expr cond hr x).trans (marks_comp cs h h' x)

theorem marks_arms (arms : List MatchArm) {env env' : Env} (h : checkArms C arms env = .ok env')
    (x : String) : Marks (column env x) (column env' x) := by
  cases arms with
  | nil => obtain rfl := Except.ok.inj h; exact Marks.refl _
  | cons a arms =>
    cases a with
    | mk bindings body =>
      obtain ⟨r, hr, h⟩ := bind_ok h
      refine Marks.trans ?_ (marks_arms arms h x)
      have hs := (shift_bindUntyped bindings env.push x).1.trans (marks_expr body hr x).shift
      rw [column_tail]
      exact hs.pop

theorem marks_valueBlock (b : Block) {env env' : Env} (h : checkValueBlock C b env = .ok env')
    (x : String) : Marks (column env x) (column env' x) := by
  cases b with
  | mk stmts tail =>
    cases tail with
    | none =>
      obtain ⟨inner, hs, h⟩ := bind_ok h
      obtain rfl := Except.ok.inj h
      rw [column_tail]
      exact (shift_stmts stmts hs x).1.pop
    | some t =>
      obtain ⟨inner, hs, h⟩ := bind_ok h
      obtain ⟨r, hr, h⟩ := bind_ok h
      obtain rfl := Except.ok.inj h
      rw [column_tail]
      exact ((shift_stmts stmts hs x).1.trans (marks_expr t hr x).shift).pop

theorem marks_ifExpr (i : IfStmt) {env env' : Env} (h : checkIfExpr C i env = .ok env') (x : String) :
    Marks (column env x) (column env' x) := by
  cases i with
  | mk cond then' els =>
    cases els with
    | none =>
      obtain ⟨c, hc, h⟩ := bind_ok h
      obtain ⟨t, ht, h⟩ := bind_ok h
      obtain rfl := Except.ok.inj h
      exact (marks_expr cond hc x).trans (marks_valueBlock then' ht x)
    | block body =>
      obtain ⟨c, hc, h⟩ := bind_ok h
      obtain ⟨t, ht, h⟩ := bind_ok h
      exact ((marks_expr cond hc x).trans (marks_valueBlock then' ht x)).trans (marks_valueBlock body h x)
    | «if» inner =>
      obtain ⟨c, hc, h⟩ := bind_ok h
      obtain ⟨t, ht, h⟩ := bind_ok h
      exact ((marks_expr cond hc x).trans (marks_valueBlock then' ht x)).trans (marks_ifExpr inner h x)

theorem marks_block (b : Block) {env env' : Env} (h : checkBlock C b env = .ok env') (x : String) :
    Marks (column env x) (column env' x) := by
  cases b with
  | mk stmts tail =>
    obtain ⟨inner, hs, h⟩ := bind_ok h
    obtain rfl := Except.ok.inj h
    rw [column_tail]
    exact (shift_stmts stmts hs x).1.pop

theorem marks_if (i : IfStmt) {env env' : Env} (h : checkIf C i env = .ok env') (x : String) :
    Marks (column env x) (column env' x) := by
  cases i with
  | mk cond then' els =>
    cases els with
    | none =>
      obtain ⟨c, hc, h⟩ := bind_ok h
      obtain ⟨t, ht, h⟩ := bind_ok h
      obtain rfl := Except.ok.inj h
      rw [column_merge]
      exact (marks_expr cond hc x).trans (marks_mergeColumn (Marks.refl _) (marks_block then' ht x)).1
    | block body =>
      obtain ⟨c, hc, h⟩ := bind_ok h
      obtain ⟨t, ht, h⟩ := bind_ok h
      obtain ⟨e, he, h⟩ := bind_ok h
      obtain rfl := Except.ok.inj h
      rw [column_merge]
      exact (marks_expr cond hc x).trans
        (marks_mergeColumn (marks_block then' ht x) (marks_block body he x)).1
    | «if» inner =>
      obtain ⟨c, hc, h⟩ := bind_ok h
      obtain ⟨t, ht, h⟩ := bind_ok h
      obtain ⟨e, he, h⟩ := bind_ok h
      obtain rfl := Except.ok.inj h
      rw [column_merge]
      exact (marks_expr cond hc x).trans (marks_mergeColumn (marks_block then' ht x) (marks_if inner he x)).1

theorem shift_stmt (s : Stmt) {env env' : Env} (h : checkStmt C s env = .ok env') (x : String) :
    Shift (column env x) (column env' x) ∧ (x ∉ binds s → Marks (column env x) (column env' x)) := by
  -- a statement that binds nothing
  have plain : Marks (column env x) (column env' x) →
      Shift (column env x) (column env' x) ∧ (x ∉ binds s → Marks (column env x) (column env' x)) :=
    fun hm => ⟨hm.shift, fun _ => hm⟩
  cases s with
  | «let» y declared inferred value =>
    obtain ⟨v, hv, h⟩ := bind_ok h
    obtain rfl := Except.ok.inj h
    have hm := marks_expr value hv x
    refine ⟨hm.shift.trans (shift_insert v.2 x y _), fun hx => ?_⟩
    rw [column_insert_of_ne (by simpa [binds] using hx)]
    exact hm
  | letTuple names value =>
    obtain ⟨v, hv, h⟩ := bind_ok h
    obtain rfl := Except.ok.inj h
    have hm := marks_expr value hv x
    obtain ⟨hs, hne⟩ := shift_bindUntyped names v.2 x
    exact ⟨hm.shift.trans hs, fun hx => (hne hx).symm ▸ hm⟩
  | assign target value =>
    cases target with
    | index state key =>
      obtain ⟨k, hk, h⟩ := bind_ok h
      obtain ⟨v, hv, h⟩ := bind_ok h
      obtain rfl := Except.ok.inj h
      exact plain ((marks_expr key hk x).trans (marks_expr value hv x))
    | var name =>
      obtain ⟨v, hv, h⟩ := bind_ok h
      obtain rfl := Except.ok.inj h
      exact plain (marks_expr value hv x)
    | field base name =>
      obtain ⟨v, hv, h⟩ := bind_ok h
      obtain rfl := Except.ok.inj h
      exact plain (marks_expr value hv x)
  | «return» value =>
    cases value with
    | none => obtain rfl := Except.ok.inj h; exact plain (Marks.refl _)
    | some e =>
      obtain ⟨v, hv, h⟩ := bind_ok h
      obtain rfl := Except.ok.inj h
      exact plain (marks_expr e hv x)
  | «if» branch => exact plain (marks_if branch h x)
  | «while» cond body =>
    obtain ⟨c, hc, h⟩ := bind_ok h
    obtain ⟨_, -, h⟩ := bind_ok h
    obtain rfl := Except.ok.inj h
    exact plain (marks_expr cond hc x)
  | «for» var ty iter limit body =>
    obtain ⟨i, hi, h⟩ := bind_ok h
    obtain ⟨_, -, h⟩ := bind_ok h
    obtain rfl := Except.ok.inj h
    exact plain (marks_expr iter hi x)
  | forRange var ty start stop body =>
    obtain ⟨a, ha, h⟩ := bind_ok h
    obtain ⟨b, hb, h⟩ := bind_ok h
    obtain ⟨_, -, h⟩ := bind_ok h
    obtain rfl := Except.ok.inj h
    exact plain ((marks_expr start ha x).trans (marks_expr stop hb x))
  | «break» => obtain rfl := Except.ok.inj h; exact plain (Marks.refl _)
  | «continue» => obtain rfl := Except.ok.inj h; exact plain (Marks.refl _)
  | placeholder => obtain rfl := Except.ok.inj h; exact plain (Marks.refl _)
  | expr e =>
    obtain ⟨v, hv, h⟩ := bind_ok h
    obtain rfl := Except.ok.inj h
    exact plain (marks_expr e hv x)
  | parallel stmts => exact shift_stmts stmts h x
  | parallelForTo var ty idx source output body =>
    obtain ⟨a, ha, h⟩ := bind_ok h
    obtain ⟨b, hb, h⟩ := bind_ok h
    obtain ⟨_, -, h⟩ := bind_ok h
    obtain rfl := Except.ok.inj h
    exact plain ((marks_expr source ha x).trans (marks_expr output hb x))

theorem shift_stmts (ss : List Stmt) {env env' : Env} (h : checkStmts C ss env = .ok env') (x : String) :
    Shift (column env x) (column env' x) ∧ (x ∉ bindsAll ss → Marks (column env x) (column env' x)) := by
  cases ss with
  | nil => obtain rfl := Except.ok.inj h; exact ⟨(Marks.refl _).shift, fun _ => Marks.refl _⟩
  | cons s ss =>
    obtain ⟨env₁, h₁, h⟩ := bind_ok h
    obtain ⟨hs, hm⟩ := shift_stmt s h₁ x
    obtain ⟨hs', hm'⟩ := shift_stmts ss h x
    refine ⟨hs.trans hs', fun hx => ?_⟩
    rw [bindsAll, List.mem_append, not_or] at hx
    exact (hm hx.1).trans (hm' hx.2)

end

/-! ### What a path uses -/

/-- The pass looks at a variable wherever it stands. -/
def AllSeen (x : String) (l : List Occ) : Prop := ∀ o ∈ l, o.1 = x → o.2 = .seen

section Seen

variable {x : String} {l l' : List Occ}

theorem allSeen_append : AllSeen x (l ++ l') ↔ AllSeen x l ∧ AllSeen x l' := by
  simp only [AllSeen, List.forall_mem_append]

theorem AllSeen.absent_of_hide (h : AllSeen x (hide l)) : Absent x l := by
  rintro o ho rfl
  have := h _ (List.mem_map.mpr ⟨o, ho, rfl⟩) rfl
  simp only at this
  split at this <;> cases this

theorem AllSeen.absent_of_repeated (h : AllSeen x (repeated l)) : Absent x l := by
  rintro o ho rfl
  cases h _ (List.mem_map.mpr ⟨o, ho, rfl⟩) rfl

theorem AllSeen.of_without {names : List String} (h : AllSeen x (without names l)) (hx : x ∉ names) :
    AllSeen x l := by
  rintro o ho rfl
  exact h o (mem_without.mpr ⟨ho, hx⟩) rfl

end Seen

mutual

theorem mem_stmtOccs (s : Stmt) {k : List Occ} {o : Occ} (ho : o ∈ k) (hb : o.1 ∉ binds s) :
    o ∈ stmtOccs copy s k := by
  cases s with
  | «let» y declared inferred value => exact List.mem_append_right _ (mem_without.mpr ⟨ho, hb⟩)
  | letTuple names value => exact List.mem_append_right _ (mem_without.mpr ⟨ho, hb⟩)
  | parallel stmts => exact mem_stmtsOccs stmts ho hb
  | _ => simp [stmtOccs, ho]

theorem mem_stmtsOccs (ss : List Stmt) {k : List Occ} {o : Occ} (ho : o ∈ k) (hb : o.1 ∉ bindsAll ss) :
    o ∈ stmtsOccs copy ss k := by
  cases ss with
  | nil => exact ho
  | cons s ss =>
    rw [bindsAll, List.mem_append, not_or] at hb
    exact mem_stmtOccs s (mem_stmtsOccs ss ho hb.2) hb.1

end

/-- What holds of the places in statements and after them holds of those after them. -/
theorem allSeen_stmts (ss : List Stmt) {x : String} {k : List Occ} (h : AllSeen x (stmtsOccs copy ss k))
    (hx : x ∉ bindsAll ss) : AllSeen x k := by
  rintro o ho rfl
  exact h o (mem_stmtsOccs ss ho hx) rfl

/-- The uses that are left for a name when the statements of its innermost scope have run: those of a
binding further out are paid for where it stands, those of one in the scope itself are one at most. -/
def Room (c c' : Column) (n : ℕ) : Prop :=
  match c with
  | none :: _ => spent c'.tail ≤ n
  | _ => 1 ≤ n

theorem Room.spent_le {c c' : Column} {n : ℕ} (h : Room c c' n) (hm : Marks c c') : spent c' ≤ n := by
  cases c with
  | nil => exact (spent_le_one _).trans h
  | cons b c =>
    cases b with
    | some b => exact (spent_le_one _).trans h
    | none =>
      cases c' with
      | nil => exact hm.elim
      | cons b' c' =>
        cases b' with
        | none => exact h
        | some b' => exact hm.elim

theorem Room.of_tail {c c' c'' : Column} {n : ℕ} (h : Room c c' n) (ht : c'.tail = c''.tail) : Room c c'' n := by
  cases c with
  | nil => exact h
  | cons b c =>
    cases b with
    | some b => exact h
    | none =>
      unfold Room at h ⊢
      rwa [← ht]

/-- Room after all of the statements is room after the first. -/
theorem Room.of_shift {c c' c'' : Column} {n : ℕ} (h : Room c c'' n) (hs : Shift c c') (hs' : Shift c' c'') :
    Room c c' n := by
  cases c with
  | nil => exact h
  | cons b c =>
    cases b with
    | some b => exact h
    | none =>
      cases c' <;> cases c'' <;> first | exact hs.elim | exact hs'.elim | skip
      rename_i b' c' b'' c''
      by_cases hb' : b' = none
      · exact (hs'.1 hb').spent_le.trans h
      · exact (hs'.2 hb').1 ▸ h

/-- Room for the statements after one that does not bind the name. -/
theorem Room.of_marks {c c' c'' : Column} {n : ℕ} (h : Room c c'' n) (hm : Marks c c') : Room c' c'' n := by
  cases c with
  | nil =>
    cases c' with
    | nil => exact h
    | cons _ _ => exact hm.elim
  | cons b c =>
    cases b <;> cases c' <;> first | exact hm.elim | skip
    all_goals
      rename_i b' c'
      cases b' <;> first | exact hm.elim | exact h

theorem spent_tail {c c' : Column} (h : Marks (none :: c) c') : spent c' = spent c'.tail := by
  cases c' with
  | nil => exact h.elim
  | cons b' c' =>
    cases b' with
    | none => rfl
    | some _ => exact h.elim

/-- A comprehension variable's scope, and those in it, opened and closed. -/
theorem marks_forClause {cs : List CompClause} {env inner env' : Env} {var : String}
    (h : checkCompClauses C cs (env.push.insert var .int) = .ok inner)
    (h' : ∀ x, Marks (column inner x) (column env' x)) (x : String) :
    Marks (column env x) (column (env'.drop (pushed cs + 1)) x) := by
  have hin := (shift_insert env.push x var .int).trans (marks_comp cs h h' x).shift
  have hpop := hin.pop
  rwa [← column_tail, List.tail_drop] at hpop

variable {x : String}

theorem within_ident {y : String} {span : Span} {env : Env} {r : Ty × Env}
    (h : checkIdent C y span env = .ok r) (hk : Kept (column env x)) :
    Within x (spent (column env x)) (use y) (spent (column r.2 x)) := by
  by_cases hyx : y = x
  · subst hyx
    obtain ⟨b, hb, hcopy⟩ := hk
    unfold checkIdent at h
    rw [get_eq_first, hb] at h
    simp only [hcopy] at h
    split at h
    · cases h
    · rename_i hmoved
      obtain rfl := Except.ok.inj h
      have h₀ : spent (column env y) = 0 := by simp [spent, hb, hmoved]
      refine Within.use_self ?_
      simp only [Bool.false_eq_true, if_false]
      rw [spent_move hb, h₀]
  · exact Within.use_of_ne hyx (marks_ident h).spent_le

mutual

theorem within_expr (e : Expr) {env : Env} {r : Ty × Env} (h : checkExpr C e env = .ok r)
    (hk : Kept (column env x)) (hs : AllSeen x (exprOccs copy e)) :
    Within x (spent (column env x)) (exprPaths copy e) (spent (column r.2 x)) := by
  cases e with
  | lit ty => obtain rfl := Except.ok.inj h; exact Within.skip (le_refl _)
  | json items =>
    obtain rfl := Except.ok.inj h
    exact (fits_exprs false items).of_absent hs.absent_of_hide _
  | ident y span => exact within_ident h hk
  | const y span value =>
    -- the pass does not look at the value, so the variable does not stand in it
    exact ((fits_expr value).of_absent hs.absent_of_hide _).mono (le_refl _) (marks_ident h).spent_le
  | op o operands =>
    obtain ⟨env₁, h₁, h⟩ := bind_ok h
    obtain rfl := Except.ok.inj h
    cases o with
    | logical => exact within_exprs true operands h₁ hk hs
    | _ => exact within_exprs false operands h₁ hk hs
  | call module name args span =>
    obtain ⟨env₁, h₁, h⟩ := bind_ok h
    obtain ⟨ty, -, h⟩ := bind_ok h
    obtain rfl := Except.ok.inj h
    exact within_exprs false args h₁ hk hs
  | dynCall target args =>
    obtain ⟨env₁, h₁, h⟩ := bind_ok h
    obtain rfl := Except.ok.inj h
    obtain ⟨hs₁, hs₂⟩ := List.forall_mem_cons.mp hs
    have hne : target ≠ x := by
      rintro rfl
      cases hs₁ rfl
    exact (Within.use_of_ne hne (le_refl _)).seq (within_exprs false args h₁ hk hs₂)
      (marks_exprs args h₁ x).spent_le
  | index target key =>
    obtain ⟨k, hkey, h⟩ := bind_ok h
    obtain ⟨t, ht, h⟩ := bind_ok h
    obtain rfl := Except.ok.inj h
    obtain ⟨hs₁, hs₂⟩ := allSeen_append.mp hs
    have hm₁ := marks_expr key hkey x
    have hle₁ := hm₁.spent_le
    have hle₂ := (marks_expr target ht x).spent_le
    -- the pass walks the key first
    have hkey := within_expr key hkey hk hs₂
    have ht := within_expr target ht (hm₁.kept hk) hs₁
    dsimp only
    exact (ht.slide hle₂ (le_refl _)).seq (hkey.slide hle₁ (by omega)) (by omega)
  | explicitLiteral inner => exact within_expr inner h hk hs
  | structLit name fields =>
    obtain ⟨env₁, h₁, h⟩ := bind_ok h
    obtain rfl := Except.ok.inj h
    exact within_exprs false fields h₁ hk hs
  | field root path ty =>
    rcases root.field_cases with ⟨y, span, rfl⟩ | ⟨y, span, value, rfl⟩ | ⟨hident, hconst⟩
    · obtain ⟨_, -, h⟩ := bind_ok h
      obtain rfl := Except.ok.inj h
      unfold exprPaths
      split
      · exact Within.skip (le_refl _)
      · rename_i hty
        refine Within.use_of_ne ?_ (le_refl _)
        rintro rfl
        have := hs (y, .unseen) (by simp [exprOccs, hty]) rfl
        cases this
    · obtain ⟨_, -, h⟩ := bind_ok h
      obtain rfl := Except.ok.inj h
      exact (fits_expr value).of_absent hs.absent_of_hide _
    · rw [checkExpr_field hident hconst] at h
      rw [exprOccs_field hident] at hs
      rw [exprPaths_field hident]
      obtain ⟨r', hr', h⟩ := bind_ok h
      obtain rfl := Except.ok.inj h
      have hroot := within_expr root hr' hk hs
      exact hroot
  | prev =>
    obtain rfl := Except.ok.inj h
    refine Within.use_of_ne ?_ (le_refl _)
    rintro rfl
    cases hs _ List.mem_cons_self rfl
  | pipe head ty step =>
    obtain ⟨a, ha, h⟩ := bind_ok h
    obtain ⟨b, hb, h⟩ := bind_ok h
    obtain rfl := Except.ok.inj h
    obtain ⟨hs₁, hs₂⟩ := allSeen_append.mp hs
    have hm := marks_expr head ha x
    have hle := (marks_expr step hb x).spent_le
    refine (within_expr head ha hk hs₁).seq ?_ hle
    by_cases hx : pipeVar = x
    · exact hx ▸ Within.bind_self (hx ▸ hle)
    · have hstep := within_expr step hb (hm.kept hk) (hs₂.of_without (by simpa using Ne.symm hx))
      exact Within.bind_of_ne hx hstep
  | comp results clauses =>
    obtain ⟨a, ha, h⟩ := bind_ok h
    obtain ⟨b, hb, h⟩ := bind_ok h
    obtain rfl := Except.ok.inj h
    exact within_comp clauses ha (marks_exprs results hb) hk hs (fits_exprs false results)
      fun hk' hs' => within_exprs false results hb hk' hs'
  | matchArms scrut arms =>
    obtain ⟨a, ha, h⟩ := bind_ok h
    obtain ⟨b, hb, h⟩ := bind_ok h
    obtain rfl := Except.ok.inj h
    obtain ⟨hs₁, hs₂⟩ := allSeen_append.mp hs
    have hm := marks_expr scrut ha x
    exact (within_expr scrut ha hk hs₁).seq (within_arms arms hb (hm.kept hk) hs₂)
      (marks_arms arms hb x).spent_le
  | block body =>
    obtain ⟨a, ha, h⟩ := bind_ok h
    obtain rfl := Except.ok.inj h
    exact within_valueBlock body ha hk hs
  | ite branch =>
    obtain ⟨a, ha, h⟩ := bind_ok h
    obtain rfl := Except.ok.inj h
    exact within_ifExpr branch ha hk hs

theorem within_exprs (short : Bool) (es : List Expr) {env env' : Env} (h : checkExprs C es env = .ok env')
    (hk : Kept (column env x)) (hs : AllSeen x (exprsOccs copy es)) :
    Within x (spent (column env x)) (exprsPaths copy short es) (spent (column env' x)) := by
  cases es with
  | nil => obtain rfl := Except.ok.inj h; exact Within.skip (le_refl _)
  | cons e es =>
    obtain ⟨r, hr, h⟩ := bind_ok h
    obtain ⟨hs₁, hs₂⟩ := allSeen_append.mp hs
    have hm := marks_expr e hr x
    have hle := (marks_exprs es h x).spent_le
    refine (within_expr e hr hk hs₁).seq ?_ hle
    have hrest := within_exprs short es h (hm.kept hk) hs₂
    cases short with
    | false => exact hrest
    | true => exact (Within.skip hle).union hrest

theorem within_comp (cs : List CompClause) {env inner env' : Env} {k : List Occ} {K : Set (Path String)}
    (h : checkCompClauses C cs env = .ok inner) (h' : ∀ x, Marks (column inner x) (column env' x))
    (hk : Kept (column env x)) (hs : AllSeen x (compOccs copy cs k)) (hfit : Fits x k K)
    (hK : Kept (column inner x) → AllSeen x k → Within x (spent (column inner x)) K (spent (column env' x))) :
    Within x (spent (column env x)) (compPaths copy cs K) (spent (column (env'.drop (pushed cs)) x)) := by
  cases cs with
  | nil =>
    obtain rfl := Except.ok.inj h
    exact hK hk hs
  | cons c cs =>
    cases c with
    | «for» y ty iter =>
      obtain ⟨r, hr, h⟩ := bind_ok h
      obtain ⟨hs₁, hs₂⟩ := allSeen_append.mp hs
      have hle := (marks_forClause h h' x).spent_le
      -- nothing after the first iterator mentions the variable
      have hrest : Within x 0 (bind y (!copy ty) (compPaths copy cs K)) 0 :=
        (fits_comp cs hfit).bind.of_absent hs₂.absent_of_repeated 0
      exact (within_expr iter hr hk hs₁).seq
        (Within.rounds (Within.skip hle) hrest hle) hle
    | «if» cond =>
      obtain ⟨r, hr, h⟩ := bind_ok h
      obtain ⟨hs₁, hs₂⟩ := allSeen_append.mp hs
      have hm := marks_expr cond hr x
      have hle := (marks_comp cs h h' x).spent_le
      exact (within_expr cond hr hk hs₁).seq
        ((Within.skip hle).union (within_comp cs h h' (hm.kept hk) hs₂ hfit hK)) hle

theorem within_arms (arms : List MatchArm) {env env' : Env} (h : checkArms C arms env = .ok env')
    (hk : Kept (column env x)) (hs : AllSeen x (armsOccs copy arms)) :
    Within x (spent (column env x)) (armsPaths copy arms) (spent (column env' x)) := by
  cases arms with
  | nil => exact fun p hp => hp.elim
  | cons a arms =>
    cases a with
    | mk bindings body =>
      have hfull := marks_arms (.mk bindings body :: arms) h x
      obtain ⟨r, hr, h⟩ := bind_ok h
      obtain ⟨hs₁, hs₂⟩ := allSeen_append.mp hs
      have hbody := (shift_bindUntyped bindings env.push x).1.trans (marks_expr body hr x).shift
      have hm : Marks (column env x) (column r.2.tail x) := by
        rw [column_tail]
        exact hbody.pop
      have hm' := marks_arms arms h x
      refine Within.union (Within.bindAll hfull.spent_le fun hx => ?_) ?_
      · rw [once_map_fst] at hx
        have hcol : column (bindUntyped bindings env.push) x = none :: column env x :=
          (shift_bindUntyped bindings env.push x).2 hx
        have hmarks := marks_expr body hr x
        rw [hcol] at hmarks
        have hin := within_expr body hr (hcol ▸ hk) (hs₁.of_without hx)
        rw [hcol, spent_tail hmarks, ← column_tail] at hin
        exact hin.mono (le_refl _) hm'.spent_le
      · exact (within_arms arms h (hm.kept hk) hs₂).mono hm.spent_le (le_refl _)

theorem within_valueBlock (b : Block) {env env' : Env} (h : checkValueBlock C b env = .ok env')
    (hk : Kept (column env x)) (hs : AllSeen x (blockOccs copy true b)) :
    Within x (spent (column env x)) (blockPaths copy b) (spent (column env' x)) := by
  cases b with
  | mk stmts tail =>
    cases tail with
    | none =>
      obtain ⟨inner, hin, h⟩ := bind_ok h
      obtain rfl := Except.ok.inj h
      have hroom : Room (column env.push x) (column inner x) (spent (column inner.tail x)) := by
        rw [column_tail]
        exact le_refl (spent (column inner x).tail)
      have hstmts := within_stmts stmts hin hk hs hroom fun hx =>
        Within.skip (hroom.spent_le ((shift_stmts stmts hin x).2 hx))
      exact hstmts
    | some t =>
      obtain ⟨inner, hin, h⟩ := bind_ok h
      obtain ⟨r, hr, h⟩ := bind_ok h
      obtain rfl := Except.ok.inj h
      have hm := marks_expr t hr x
      have hroom : Room (column env.push x) (column inner x) (spent (column r.2.tail x)) := by
        rw [column_tail]
        exact hm.tail.spent_le
      have hstmts := within_stmts stmts hin hk hs hroom fun hx => by
        have hmarks := (shift_stmts stmts hin x).2 hx
        have htail := within_expr t hr (hmarks.kept hk) (allSeen_stmts stmts hs hx)
        rwa [spent_tail (hmarks.trans hm), ← column_tail] at htail
      exact hstmts

theorem within_ifExpr (i : IfStmt) {env env' : Env} (h : checkIfExpr C i env = .ok env')
    (hk : Kept (column env x)) (hs : AllSeen x (ifOccs copy true i)) :
    Within x (spent (column env x)) (ifPaths copy i) (spent (column env' x)) := by
  cases i with
  | mk cond then' els =>
    obtain ⟨hs₁, hs'⟩ := allSeen_append.mp hs
    obtain ⟨hs₂, hs₃⟩ := allSeen_append.mp hs'
    cases els with
    | none =>
      obtain ⟨c, hc, h⟩ := bind_ok h
      obtain ⟨t, ht, h⟩ := bind_ok h
      obtain rfl := Except.ok.inj h
      have hm := marks_expr cond hc x
      have hle := (marks_valueBlock then' ht x).spent_le
      exact (within_expr cond hc hk hs₁).seq
        ((within_valueBlock then' ht (hm.kept hk) hs₂).union (Within.skip hle)) hle
    | block body =>
      obtain ⟨c, hc, h⟩ := bind_ok h
      obtain ⟨t, ht, h⟩ := bind_ok h
      have hm := marks_expr cond hc x
      have hm₁ := marks_valueBlock then' ht x
      have hm₂ := marks_valueBlock body h x
      have hthen := within_valueBlock then' ht (hm.kept hk) hs₂
      have helse := within_valueBlock body h (hm₁.kept (hm.kept hk)) hs₃
      exact (within_expr cond hc hk hs₁).seq ((hthen.mono (le_refl _) hm₂.spent_le).union
        (helse.mono hm₁.spent_le (le_refl _))) (hm₁.trans hm₂).spent_le
    | «if» inner =>
      obtain ⟨c, hc, h⟩ := bind_ok h
      obtain ⟨t, ht, h⟩ := bind_ok h
      have hm := marks_expr cond hc x
      have hm₁ := marks_valueBlock then' ht x
      have hm₂ := marks_ifExpr inner h x
      have hthen := within_valueBlock then' ht (hm.kept hk) hs₂
      have helse := within_ifExpr inner h (hm₁.kept (hm.kept hk)) hs₃
      exact (within_expr cond hc hk hs₁).seq ((hthen.mono (le_refl _) hm₂.spent_le).union
        (helse.mono hm₁.spent_le (le_refl _))) (hm₁.trans hm₂).spent_le

theorem within_block (b : Block) {env env' : Env} (h : checkBlock C b env = .ok env')
    (hk : Kept (column env x)) (hs : AllSeen x (blockOccs copy false b)) :
    Within x (spent (column env x)) (blockPaths copy b) (spent (column env' x)) := by
  cases b with
  | mk stmts tail =>
    obtain ⟨inner, hin, h⟩ := bind_ok h
    obtain rfl := Except.ok.inj h
    have hroom : Room (column env.push x) (column inner x) (spent (column inner.tail x)) := by
      rw [column_tail]
      exact le_refl (spent (column inner x).tail)
    have hstmts := within_stmts stmts hin hk hs hroom fun hx => by
      -- the pass does not look at the tail, so the variable does not stand in it
      have hle := hroom.spent_le ((shift_stmts stmts hin x).2 hx)
      have htail := (fits_opt tail).of_absent (allSeen_stmts stmts hs hx).absent_of_hide
        (spent (column inner x))
      exact htail.mono (le_refl _) hle
    exact hstmts

theorem within_if (i : IfStmt) {env env' : Env} (h : checkIf C i env = .ok env')
    (hk : Kept (column env x)) (hs : AllSeen x (ifOccs copy false i)) :
    Within x (spent (column env x)) (ifPaths copy i) (spent (column env' x)) := by
  cases i with
  | mk cond then' els =>
    obtain ⟨hs₁, hs'⟩ := allSeen_append.mp hs
    obtain ⟨hs₂, hs₃⟩ := allSeen_append.mp hs'
    cases els with
    | none =>
      obtain ⟨c, hc, h⟩ := bind_ok h
      obtain ⟨t, ht, h⟩ := bind_ok h
      obtain rfl := Except.ok.inj h
      have hm := marks_expr cond hc x
      obtain ⟨-, hle₁, hle₂⟩ := marks_mergeColumn (Marks.refl _) (marks_block then' ht x)
      rw [← column_merge] at hle₁ hle₂
      have hthen := within_block then' ht (hm.kept hk) hs₂
      exact (within_expr cond hc hk hs₁).seq
        ((hthen.mono (le_refl _) hle₂).union (Within.skip hle₁)) hle₁
    | block body =>
      obtain ⟨c, hc, h⟩ := bind_ok h
      obtain ⟨t, ht, h⟩ := bind_ok h
      obtain ⟨e, he, h⟩ := bind_ok h
      obtain rfl := Except.ok.inj h
      have hm := marks_expr cond hc x
      obtain ⟨hmerge, hle₁, hle₂⟩ := marks_mergeColumn (marks_block then' ht x) (marks_block body he x)
      rw [← column_merge] at hmerge hle₁ hle₂
      have hthen := within_block then' ht (hm.kept hk) hs₂
      have helse := within_block body he (hm.kept hk) hs₃
      exact (within_expr cond hc hk hs₁).seq ((hthen.mono (le_refl _) hle₁).union
        (helse.mono (le_refl _) hle₂)) hmerge.spent_le
    | «if» inner =>
      obtain ⟨c, hc, h⟩ := bind_ok h
      obtain ⟨t, ht, h⟩ := bind_ok h
      obtain ⟨e, he, h⟩ := bind_ok h
      obtain rfl := Except.ok.inj h
      have hm := marks_expr cond hc x
      obtain ⟨hmerge, hle₁, hle₂⟩ := marks_mergeColumn (marks_block then' ht x) (marks_if inner he x)
      rw [← column_merge] at hmerge hle₁ hle₂
      have hthen := within_block then' ht (hm.kept hk) hs₂
      have helse := within_if inner he (hm.kept hk) hs₃
      exact (within_expr cond hc hk hs₁).seq ((hthen.mono (le_refl _) hle₁).union
        (helse.mono (le_refl _) hle₂)) hmerge.spent_le

theorem within_stmt (s : Stmt) {env env' : Env} {k : List Occ} {K : Set (Path String)} {n : ℕ}
    (h : checkStmt C s env = .ok env') (hk : Kept (column env x)) (hs : AllSeen x (stmtOccs copy s k))
    (hroom : Room (column env x) (column env' x) n)
    (hK : x ∉ binds s → Within x (spent (column env' x)) K n) :
    Within x (spent (column env x)) (stmtPaths copy s K) n := by
  have hshift := shift_stmt s h x
  cases s with
  | «let» y declared inferred value =>
    obtain ⟨v, hv, h⟩ := bind_ok h
    obtain rfl := Except.ok.inj h
    obtain ⟨hs₁, -⟩ := allSeen_append.mp hs
    have hm := marks_expr value hv x
    have hle := (hroom.of_tail (tail_column_insert v.2 x y _)).spent_le hm
    refine (within_expr value hv hk hs₁).seq ?_ hle
    by_cases hyx : y = x
    · exact hyx ▸ Within.bind_self (hyx ▸ hle)
    · have hx : x ∉ binds (.let y declared inferred value) := by simpa [binds] using Ne.symm hyx
      have hK' := hK hx
      rw [column_insert_of_ne (Ne.symm hyx)] at hK'
      exact Within.bind_of_ne hyx hK'
  | letTuple names value =>
    obtain ⟨v, hv, h⟩ := bind_ok h
    obtain rfl := Except.ok.inj h
    obtain ⟨hs₁, -⟩ := allSeen_append.mp hs
    have hm := marks_expr value hv x
    have hle := (hroom.of_tail (tail_column_bindUntyped names v.2 x)).spent_le hm
    refine (within_expr value hv hk hs₁).seq (Within.bindAll hle fun hx => ?_) hle
    rw [once_map_fst] at hx
    have hK' := hK hx
    rwa [(shift_bindUntyped names v.2 x).2 hx] at hK'
  | assign target value =>
    have hle := hroom.spent_le (hshift.2 List.not_mem_nil)
    have hK' := hK List.not_mem_nil
    obtain ⟨hs₁, hs'⟩ := allSeen_append.mp hs
    obtain ⟨hs₂, -⟩ := allSeen_append.mp hs'
    cases target with
    | index state key =>
      obtain ⟨a, ha, h⟩ := bind_ok h
      obtain ⟨v, hv, h⟩ := bind_ok h
      obtain rfl := Except.ok.inj h
      have hm := marks_expr key ha x
      have hle₁ := hm.spent_le
      have hle₂ := (marks_expr value hv x).spent_le
      -- the pass walks the key first
      have hkey := within_expr key ha hk hs₂
      have hval := within_expr value hv (hm.kept hk) hs₁
      exact (hval.slide hle₂ (le_refl _)).seq
        ((hkey.slide hle₁ (by omega : _ ≤ spent (column v.2 x))).seq hK' hle) (by omega)
    | var name =>
      obtain ⟨v, hv, h⟩ := bind_ok h
      obtain rfl := Except.ok.inj h
      have hval := within_expr value hv hk hs₁
      exact hval.seq ((Within.skip (le_refl _)).seq hK' hle) hle
    | field base name =>
      obtain ⟨v, hv, h⟩ := bind_ok h
      obtain rfl := Except.ok.inj h
      have hval := within_expr value hv hk hs₁
      have hplace := (fits_place base).of_absent hs₂.absent_of_hide (spent (column v.2 x))
      exact hval.seq (Within.seq (A := placePaths copy base) hplace hK' hle) hle
  | «return» value =>
    have hle := hroom.spent_le (hshift.2 List.not_mem_nil)
    obtain ⟨hs₁, -⟩ := allSeen_append.mp hs
    cases value with
    | none =>
      obtain rfl := Except.ok.inj h
      exact (Within.skip (le_refl _)).seq (Within.jump hle) hle
    | some e =>
      obtain ⟨v, hv, h⟩ := bind_ok h
      obtain rfl := Except.ok.inj h
      have he := within_expr e hv hk hs₁
      exact he.seq (Within.jump hle) hle
  | «if» branch =>
    have hle := hroom.spent_le (hshift.2 List.not_mem_nil)
    obtain ⟨hs₁, -⟩ := allSeen_append.mp hs
    exact (within_if branch h hk hs₁).seq (hK List.not_mem_nil) hle
  | «while» cond body =>
    have hle := hroom.spent_le (hshift.2 List.not_mem_nil)
    have hK' := hK List.not_mem_nil
    obtain ⟨c, hc, h⟩ := bind_ok h
    obtain ⟨_, -, h⟩ := bind_ok h
    obtain rfl := Except.ok.inj h
    obtain ⟨hs₁, -⟩ := allSeen_append.mp hs
    obtain ⟨hcond, hbody⟩ := absent_append.mp hs₁.absent_of_repeated
    have hc' := (fits_expr cond).of_absent hcond
    have hb' := (fits_block false body).of_absent hbody
    have hloop := Within.loop (hc' (spent (column c.2 x))) ((hc' 0).seq (hb' 0) (le_refl 0)) (le_refl _)
    exact (hloop.mono (marks_expr cond hc x).spent_le (le_refl _)).seq hK' hle
  | «for» y ty iter limit body =>
    have hle := hroom.spent_le (hshift.2 List.not_mem_nil)
    have hK' := hK List.not_mem_nil
    obtain ⟨i, hi, h⟩ := bind_ok h
    obtain ⟨_, -, h⟩ := bind_ok h
    obtain rfl := Except.ok.inj h
    obtain ⟨hs₁, hs'⟩ := allSeen_append.mp hs
    obtain ⟨hs₂, hs'⟩ := allSeen_append.mp hs'
    obtain ⟨hs₃, -⟩ := allSeen_append.mp hs'
    have hlim := (fits_opt limit).of_absent hs₂.absent_of_hide (spent (column i.2 x))
    have hbody : Within x 0 (bind y (!copy ty) (blockPaths copy body)) 0 :=
      (fits_block false body).bind.of_absent hs₃.absent_of_repeated 0
    have hiter := within_expr iter hi hk hs₁
    exact hiter.seq (hlim.seq ((Within.loop (Within.skip (le_refl _)) hbody (le_refl _)).seq hK' hle) hle) hle
  | forRange y ty start stop body =>
    have hle := hroom.spent_le (hshift.2 List.not_mem_nil)
    have hK' := hK List.not_mem_nil
    obtain ⟨a, ha, h⟩ := bind_ok h
    obtain ⟨b, hb, h⟩ := bind_ok h
    obtain ⟨_, -, h⟩ := bind_ok h
    obtain rfl := Except.ok.inj h
    obtain ⟨hs₁, hs'⟩ := allSeen_append.mp hs
    obtain ⟨hs₂, hs'⟩ := allSeen_append.mp hs'
    obtain ⟨hs₃, -⟩ := allSeen_append.mp hs'
    have hm := marks_expr start ha x
    have hm' := marks_expr stop hb x
    have hbody : Within x 0 (bind y (!copy ty) (blockPaths copy body)) 0 :=
      (fits_block false body).bind.of_absent hs₃.absent_of_repeated 0
    have hstart := within_expr start ha hk hs₁
    have hstop := within_expr stop hb (hm.kept hk) hs₂
    exact hstart.seq (hstop.seq ((Within.loop (Within.skip (le_refl _)) hbody (le_refl _)).seq hK' hle) hle)
      (hm'.spent_le.trans hle)
  | «break» =>
    have hm := hshift.2 List.not_mem_nil
    exact Within.jump (hm.spent_le.trans (hroom.spent_le hm))
  | «continue» =>
    have hm := hshift.2 List.not_mem_nil
    exact Within.jump (hm.spent_le.trans (hroom.spent_le hm))
  | placeholder =>
    obtain rfl := Except.ok.inj h
    exact hK List.not_mem_nil
  | expr e =>
    have hle := hroom.spent_le (hshift.2 List.not_mem_nil)
    have hK' := hK List.not_mem_nil
    obtain ⟨v, hv, h⟩ := bind_ok h
    obtain rfl := Except.ok.inj h
    obtain ⟨hs₁, -⟩ := allSeen_append.mp hs
    have he := within_expr e hv hk hs₁
    exact he.seq hK' hle
  | parallel stmts => exact within_stmts stmts h hk hs hroom hK
  | parallelForTo y ty idx source output body =>
    have hle := hroom.spent_le (hshift.2 List.not_mem_nil)
    have hK' := hK List.not_mem_nil
    obtain ⟨a, ha, h⟩ := bind_ok h
    obtain ⟨b, hb, h⟩ := bind_ok h
    obtain ⟨_, -, h⟩ := bind_ok h
    obtain rfl := Except.ok.inj h
    obtain ⟨hs₁, hs'⟩ := allSeen_append.mp hs
    obtain ⟨hs₂, hs'⟩ := allSeen_append.mp hs'
    obtain ⟨hs₃, -⟩ := allSeen_append.mp hs'
    have hm := marks_expr source ha x
    have hm' := marks_expr output hb x
    have hbody : Within x 0 (bindAll (once copy (roundVars y ty idx)) (blockPaths copy body)) 0 :=
      (Fits.bindAll (once_map_fst _) (fits_block false body)).of_absent hs₃.absent_of_repeated 0
    have hsource := within_expr source ha hk hs₁
    have houtput := within_expr output hb (hm.kept hk) hs₂
    exact hsource.seq (houtput.seq ((Within.loop (Within.skip (le_refl _)) hbody (le_refl _)).seq hK' hle) hle)
      (hm'.spent_le.trans hle)

theorem within_stmts (ss : List Stmt) {env env' : Env} {k : List Occ} {K : Set (Path String)} {n : ℕ}
    (h : checkStmts C ss env = .ok env') (hk : Kept (column env x)) (hs : AllSeen x (stmtsOccs copy ss k))
    (hroom : Room (column env x) (column env' x) n)
    (hK : x ∉ bindsAll ss → Within x (spent (column env' x)) K n) :
    Within x (spent (column env x)) (stmtsPaths copy ss K) n := by
  cases ss with
  | nil =>
    obtain rfl := Except.ok.inj h
    exact hK List.not_mem_nil
  | cons s ss =>
    obtain ⟨env₁, h₁, h⟩ := bind_ok h
    obtain ⟨hs₁, hm₁⟩ := shift_stmt s h₁ x
    obtain ⟨hs₂, hm₂⟩ := shift_stmts ss h x
    refine within_stmt s h₁ hk hs (hroom.of_shift hs₁ hs₂) fun hx => ?_
    have hrest : AllSeen x (stmtsOccs copy ss k) := by
      rintro o ho rfl
      exact hs o (mem_stmtOccs s ho hx) rfl
    refine within_stmts ss h ((hm₁ hx).kept hk) hrest (hroom.of_marks (hm₁ hx)) fun hx' => hK ?_
    rw [bindsAll, List.mem_append]
    exact not_or.mpr ⟨hx, hx'⟩

end

end Rend.Affine
