import Rend.Affine.Paths

/-!
# The places bound the uses

A path uses a variable at most as often as there are places where it stands, when none of them is in a
loop. In particular what does not mention a variable does not use it.

* `fits_expr`, `fits_stmts`: the bound, for an expression and for statements with what follows them.
-/

namespace Rend.Affine

open Lib Lib.UsePaths

variable {copy : Ty → Bool}

/-- The number of places where a variable stands. -/
def count (x : String) (l : List Occ) : ℕ := l.countP fun o => o.1 = x

/-- The paths of a piece use a variable at most as often as it stands in it, when it stands in no loop. -/
def Fits (x : String) (l : List Occ) (A : Set (Path String)) : Prop :=
  (x, Spot.looped) ∉ l → Within x 0 A (count x l)

/-- The variable stands nowhere. -/
def Absent (x : String) (l : List Occ) : Prop := ∀ o ∈ l, o.1 ≠ x

theorem count_append (x : String) (l l' : List Occ) : count x (l ++ l') = count x l + count x l' :=
  List.countP_append

theorem Absent.count_eq {x : String} {l : List Occ} (h : Absent x l) : count x l = 0 :=
  List.countP_eq_zero.mpr fun o ho => by simpa using h o ho

theorem absent_of_repeated {x : String} {l : List Occ} (h : (x, Spot.looped) ∉ repeated l) : Absent x l := by
  rintro o ho rfl
  exact h (List.mem_map.mpr ⟨o, ho, rfl⟩)

theorem absent_append {x : String} {l l' : List Occ} : Absent x (l ++ l') ↔ Absent x l ∧ Absent x l' := by
  simp only [Absent, List.forall_mem_append]

theorem looped_mem_hide {x : String} {l : List Occ} : (x, Spot.looped) ∈ hide l ↔ (x, Spot.looped) ∈ l := by
  constructor
  · intro h
    obtain ⟨o, ho, heq⟩ := List.mem_map.mp h
    obtain ⟨rfl, hs⟩ := Prod.mk.inj heq
    split at hs
    · rename_i hl
      rwa [← hl]
    · cases hs
  · exact fun h => List.mem_map.mpr ⟨_, h, rfl⟩

theorem count_hide (x : String) (l : List Occ) : count x (hide l) = count x l := by
  rw [count, hide, List.countP_map]
  rfl

theorem mem_without {o : Occ} {names : List String} {l : List Occ} :
    o ∈ without names l ↔ o ∈ l ∧ o.1 ∉ names := by
  simp [without]

theorem count_without {x : String} {names : List String} (h : x ∉ names) (l : List Occ) :
    count x (without names l) = count x l := by
  unfold count without
  rw [List.countP_filter]
  refine List.countP_congr fun o _ => ?_
  by_cases ho : o.1 = x
  · simp [ho, h]
  · simp [ho]

theorem once_map_fst (names : List (String × Ty)) : (once copy names).map Prod.fst = names.map Prod.fst := by
  rw [once, List.map_map]
  rfl

namespace Fits

variable {x : String} {l l' : List Occ} {A B : Set (Path String)}

/-- What does not mention a variable does not use it. -/
theorem of_absent (h : Fits x l A) (hx : Absent x l) (a : ℕ) : Within x a A a := by
  have h0 := h fun hm => hx _ hm rfl
  rw [hx.count_eq] at h0
  exact h0.shift

theorem skip : Fits x l skip := fun _ => Within.skip (Nat.zero_le _)

theorem jump {f : Flow} : Fits x l (jump f) := fun _ => Within.jump (Nat.zero_le _)

theorem use (y : String) (s : Spot) : Fits x [(y, s)] (use y) := by
  intro _
  by_cases h : y = x
  · subst h
    exact Within.use_self (by simp [count])
  · exact Within.use_of_ne h (Nat.zero_le _)

theorem seq (hA : Fits x l A) (hB : Fits x l' B) : Fits x (l ++ l') (seq A B) := by
  intro h
  rw [List.mem_append, not_or] at h
  rw [count_append]
  exact (hA h.1).seq_add (hB h.2)

theorem union (hA : Fits x l A) (hB : Fits x l' B) : Fits x (l ++ l') (A ∪ B) := by
  intro h
  rw [List.mem_append, not_or] at h
  rw [count_append]
  exact ((hA h.1).mono (le_refl _) (Nat.le_add_right _ _)).union
    ((hB h.2).mono (le_refl _) (Nat.le_add_left _ _))

theorem skip_union (hA : Fits x l A) : Fits x l (UsePaths.skip ∪ A) :=
  fun h => (Within.skip (Nat.zero_le _)).union (hA h)

theorem hide (hA : Fits x l A) : Fits x (hide l) A := by
  intro h
  rw [looped_mem_hide] at h
  rw [count_hide]
  exact hA h

theorem bindAll {xs : List (String × Bool)} {names : List String} (hn : xs.map Prod.fst = names)
    (hA : Fits x l A) : Fits x (without names l) (bindAll xs A) := by
  intro h
  refine Within.bindAll (Nat.zero_le _) fun hx => ?_
  rw [hn] at hx
  rw [count_without hx]
  exact hA fun hm => h (mem_without.mpr ⟨hm, hx⟩)

theorem bind {y : String} {once : Bool} (hA : Fits x l A) : Fits x (without [y] l) (bind y once A) := by
  have h : Fits x (without [y] l) (UsePaths.bindAll [(y, once)] A) := bindAll rfl hA
  exact h

theorem rounds (hB : Fits x l B) : Fits x (repeated l) (rounds UsePaths.skip B) := by
  intro h
  refine Within.rounds (Within.skip (Nat.zero_le _)) ?_ (Nat.zero_le _)
  exact hB.of_absent (absent_of_repeated h) 0

theorem loop (hA : Fits x l A) (hB : Fits x l B) : Fits x (repeated l) (loop A B) := by
  intro h
  have hx := absent_of_repeated h
  exact (Within.loop (hA.of_absent hx 0) (hB.of_absent hx 0) (le_refl 0)).mono (le_refl _) (Nat.zero_le _)

theorem mono (hA : Fits x l A) (h : ∀ o ∈ l, o ∈ l') (hc : count x l ≤ count x l') : Fits x l' A :=
  fun hl => (hA fun hm => hl (h _ hm)).mono (le_refl _) hc

end Fits

theorem exprPaths_field {root : Expr} {path : List String} {ty : Ty} (h : ∀ y span, root ≠ .ident y span) :
    exprPaths copy (.field root path ty) = exprPaths copy root := by
  cases root <;> first | rfl | exact absurd rfl (h _ _)

theorem exprOccs_field {root : Expr} {path : List String} {ty : Ty} (h : ∀ y span, root ≠ .ident y span) :
    exprOccs copy (.field root path ty) = exprOccs copy root := by
  cases root <;> first | rfl | exact absurd rfl (h _ _)

variable {x : String}

mutual

theorem fits_expr (e : Expr) : Fits x (exprOccs copy e) (exprPaths copy e) := by
  cases e with
  | lit ty => exact Fits.skip
  | json items => exact (fits_exprs false items).hide
  | ident y span => exact Fits.use y _
  | const y span value => exact (fits_expr value).hide
  | op o operands =>
    cases o with
    | logical => exact fits_exprs true operands
    | _ => exact fits_exprs false operands
  | call module name args span => exact fits_exprs false args
  | dynCall target args => exact (Fits.use target _).seq (fits_exprs false args)
  | index target key => exact (fits_expr target).seq (fits_expr key)
  | explicitLiteral inner => exact fits_expr inner
  | structLit name fields => exact fits_exprs false fields
  | field root path ty =>
    by_cases hr : ∃ y span, root = .ident y span
    · obtain ⟨y, span, rfl⟩ := hr
      unfold exprOccs exprPaths
      split
      · exact Fits.skip
      · exact Fits.use y _
    · have hr' : ∀ y span, root ≠ .ident y span := fun y span hy => hr ⟨y, span, hy⟩
      rw [exprOccs_field hr', exprPaths_field hr']
      exact fits_expr root
  | prev => exact Fits.use pipeVar _
  | pipe head ty step => exact (fits_expr head).seq (fits_expr step).bind
  | comp results clauses => exact fits_comp clauses (fits_exprs false results)
  | matchArms scrut arms => exact (fits_expr scrut).seq (fits_arms arms)
  | block body => exact fits_block true body
  | ite branch => exact fits_if true branch

theorem fits_exprs (short : Bool) (es : List Expr) : Fits x (exprsOccs copy es) (exprsPaths copy short es) := by
  cases es with
  | nil => exact Fits.skip
  | cons e es =>
    cases short with
    | false => exact (fits_expr e).seq (fits_exprs false es)
    | true => exact (fits_expr e).seq (fits_exprs true es).skip_union

theorem fits_opt (o : Option Expr) : Fits x (optOccs copy o) (optPaths copy o) := by
  cases o with
  | none => exact Fits.skip
  | some e => exact fits_expr e

theorem fits_comp (cs : List CompClause) {k : List Occ} {K : Set (Path String)} (hK : Fits x k K) :
    Fits x (compOccs copy cs k) (compPaths copy cs K) := by
  cases cs with
  | nil => exact hK
  | cons c cs =>
    cases c with
    | «for» y ty iter => exact (fits_expr iter).seq (fits_comp cs hK).bind.rounds
    | «if» cond => exact (fits_expr cond).seq (fits_comp cs hK).skip_union

theorem fits_arms (arms : List MatchArm) : Fits x (armsOccs copy arms) (armsPaths copy arms) := by
  cases arms with
  | nil => exact fun _ p hp => hp.elim
  | cons a arms =>
    cases a with
    | mk bindings body => exact (Fits.bindAll (once_map_fst bindings) (fits_expr body)).union (fits_arms arms)

theorem fits_place (p : Place) : Fits x (placeOccs copy p) (placePaths copy p) := by
  cases p with
  | var name => exact Fits.skip
  | index state key => exact fits_expr key
  | field base name => exact (fits_place base).hide

theorem fits_block (walked : Bool) (b : Block) : Fits x (blockOccs copy walked b) (blockPaths copy b) := by
  cases b with
  | mk stmts tail =>
    cases walked with
    | true => exact fits_stmts stmts (fits_opt tail)
    | false => exact fits_stmts stmts (fits_opt tail).hide

theorem fits_if (walked : Bool) (i : IfStmt) : Fits x (ifOccs copy walked i) (ifPaths copy i) := by
  cases i with
  | mk cond then' els => exact (fits_expr cond).seq ((fits_block walked then').union (fits_else walked els))

theorem fits_else (walked : Bool) (e : ElseBranch) : Fits x (elseOccs copy walked e) (elsePaths copy e) := by
  cases e with
  | none => exact Fits.skip
  | block body => exact fits_block walked body
  | «if» inner => exact fits_if walked inner

theorem fits_stmt (s : Stmt) {k : List Occ} {K : Set (Path String)} (hK : Fits x k K) :
    Fits x (stmtOccs copy s k) (stmtPaths copy s K) := by
  cases s with
  | «let» y declared inferred value => exact (fits_expr value).seq hK.bind
  | letTuple names value => exact (fits_expr value).seq (Fits.bindAll (once_map_fst names) hK)
  | assign target value => exact (fits_expr value).seq ((fits_place target).seq hK)
  | «return» value => exact (fits_opt value).seq Fits.jump
  | «if» branch => exact (fits_if false branch).seq hK
  | «while» cond body =>
    have hcond : Fits x (exprOccs copy cond ++ blockOccs copy false body) (exprPaths copy cond) :=
      (fits_expr cond).mono (fun o ho => List.mem_append_left _ ho) (by rw [count_append]; omega)
    exact (hcond.loop ((fits_expr cond).seq (fits_block false body))).seq hK
  | «for» y ty iter limit body =>
    exact (fits_expr iter).seq ((fits_opt limit).hide.seq
      ((Fits.loop Fits.skip (fits_block false body).bind).seq hK))
  | forRange y ty start stop body =>
    exact (fits_expr start).seq ((fits_expr stop).seq
      ((Fits.loop Fits.skip (fits_block false body).bind).seq hK))
  | «break» => exact Fits.jump
  | «continue» => exact Fits.jump
  | placeholder => exact hK
  | expr e => exact (fits_expr e).seq hK
  | parallel stmts => exact fits_stmts stmts hK
  | parallelForTo y ty idx source output body =>
    exact (fits_expr source).seq ((fits_expr output).seq
      ((Fits.loop Fits.skip (Fits.bindAll (once_map_fst _) (fits_block false body))).seq hK))

theorem fits_stmts (ss : List Stmt) {k : List Occ} {K : Set (Path String)} (hK : Fits x k K) :
    Fits x (stmtsOccs copy ss k) (stmtsPaths copy ss K) := by
  cases ss with
  | nil => exact hK
  | cons s ss => exact fits_stmt s (fits_stmts ss hK)

end

end Rend.Affine
