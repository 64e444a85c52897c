import Rend.Structs.Laid
import Rend.Structs.Paths

/-!
# Fields of what a register holds

`FieldGet` and `FieldSet` force a register that holds a handle, and only that: the fields of a struct
may hold handles of their own. The compiler reads a field of a blob by a chain of gets, and assigns to
one by a chain of gets and a chain of sets back up (`assign_path`).

A chain on a register that yields a value is the path on the value (`getChain_eq`, `setChain_eq`). What
an assignment puts in may hold handles; forcing the struct afterwards answers them in place
(`force_setPath`).
-/

namespace Rend

open Lib

namespace Structs

open Tx

theorem not_pending_getField {v c : Value} {name : String} (h : containsPending v = false)
    (hc : getField v name = some c) : containsPending c = false := by
  cases v with
  | struct sname fields => exact not_pending_lookup h hc
  | _ => cases hc

theorem not_pending_getPath {path : List String} {v c : Value} (h : containsPending v = false)
    (hc : getPath path v = some c) : containsPending c = false := by
  induction path generalizing v with
  | nil => cases hc; exact h
  | cons name path ih =>
    obtain ⟨u, hu, hc⟩ := Option.bind_eq_some_iff.mp hc
    exact ih (not_pending_getField h hu) hc

/-- A field that is replaced in a struct without handles brings in its own. -/
theorem replaceField_pending {fields : List (String × Value)} (h : containsPendingFields fields = false) {name : String}
    (hname : (fields.lookup name).isSome) (w : Value) :
    containsPendingFields (replaceField name w fields) = containsPending w ∧
      ∀ resolved, substituteResolvedFields resolved (replaceField name w fields) =
        replaceField name (substituteResolved resolved w) fields := by
  induction fields with
  | nil => cases hname
  | cons f fields ih =>
    obtain ⟨n, v⟩ := f
    obtain ⟨hv, hrest⟩ := Bool.or_eq_false_iff.mp h
    rw [replaceField]
    by_cases hn : n = name
    · rw [if_pos hn]
      refine ⟨by rw [containsPendingFields, hrest, Bool.or_false], fun resolved => ?_⟩
      rw [replaceField, if_pos hn, substituteResolvedFields, substituteResolvedFields_of_not_pending fields hrest]
    · rw [List.lookup_cons, beq_false_of_ne (Ne.symm hn)] at hname
      obtain ⟨hpending, hsubst⟩ := ih hrest hname
      rw [if_neg hn]
      refine ⟨by rw [containsPendingFields, hv, Bool.false_or, hpending], fun resolved => ?_⟩
      rw [replaceField, if_neg hn, substituteResolvedFields, hsubst, substituteResolved_of_not_pending v hv]

theorem setField_pending {v v' w : Value} {name : String} (h : containsPending v = false)
    (hset : setField v name w = some v') : containsPending v' = containsPending w ∧
      ∀ resolved, setField v name (substituteResolved resolved w) = some (substituteResolved resolved v') := by
  cases v with
  | struct sname fields =>
    rw [setField] at hset
    split_ifs at hset with hname
    cases hset
    obtain ⟨hpending, hsubst⟩ := replaceField_pending h hname w
    refine ⟨by rw [containsPending, hpending], fun resolved => ?_⟩
    rw [setField, if_pos hname, substituteResolved, hsubst]
  | _ => cases hset

theorem setPath_pending {path : List String} {v v' w : Value} (h : containsPending v = false)
    (hset : setPath path v w = some v') : containsPending v' = containsPending w ∧
      ∀ resolved, setPath path v (substituteResolved resolved w) = some (substituteResolved resolved v') := by
  induction path generalizing v v' with
  | nil =>
    cases hset
    exact ⟨rfl, fun resolved => rfl⟩
  | cons name path ih =>
    obtain ⟨c, c', hc, hset', hput⟩ := setPath_eq_some hset
    obtain ⟨hpending, hsubst⟩ := ih (not_pending_getField h hc) hset'
    obtain ⟨hpending', hsubst'⟩ := setField_pending h hput
    refine ⟨hpending'.trans hpending, fun resolved => ?_⟩
    rw [setPath_cons, hc, Option.bind_some, hsubst, Option.bind_some, hsubst']

/-- **Forcing a struct after an assignment** is assigning what the register stands for. -/
theorem force_setPath {tx : Tx} {path : List String} {v v' a : Value} (h : containsPending v = false)
    (hset : setPath path v a = some v') : setPath path v (tx.force a).2 = some (tx.force v').2 := by
  obtain ⟨hpending, hsubst⟩ := setPath_pending h hset
  unfold Tx.force
  rw [hpending]
  split_ifs
  · exact hsubst _
  · exact hset

/-! ### Chains of gets and sets -/

/-- Forces a register that holds a handle (`force_spine`). -/
def forceSpine (tx : Tx) (a : Value) : Tx × Value :=
  match a with
  | .pending i => tx.force (.pending i)
  | a => (tx, a)

/-- A chain of `FieldGet`. -/
def getChain (tx : Tx) : List String → Value → Option (Tx × Value)
  | [], a => some (tx, a)
  | name :: chain, a => (getField (forceSpine tx a).2 name).bind fun c => getChain (forceSpine tx a).1 chain c

/-- The gets down to the struct that is assigned to, and the sets back up from it. -/
def setChain (tx : Tx) : List String → Value → Value → Option (Tx × Value)
  | [], _, w => some (tx, w)
  | [name], a, w => (setField (forceSpine tx a).2 name w).map fun v => ((forceSpine tx a).1, v)
  | name :: chain, a, w =>
    (getField (forceSpine tx a).2 name).bind fun c =>
      (setChain (forceSpine tx a).1 chain c w).bind fun r =>
        (setField (forceSpine tx a).2 name r.2).map fun v => (r.1, v)

theorem forceSpine_of_not_pending {v : Value} (h : containsPending v = false) (tx : Tx) : forceSpine tx v = (tx, v) := by
  cases v with
  | pending i => cases h
  | _ => rfl

theorem getChain_of_not_pending (tx : Tx) (chain : List String) {v : Value} (h : containsPending v = false) :
    getChain tx chain v = (getPath chain v).map fun u => (tx, u) := by
  induction chain generalizing v with
  | nil => rfl
  | cons name chain ih =>
    rw [getChain, getPath, forceSpine_of_not_pending h]
    cases hc : getField v name with
    | none => rfl
    | some c => exact ih (not_pending_getField h hc)

theorem setChain_of_not_pending (tx : Tx) (chain : List String) {v : Value} (h : containsPending v = false) (w : Value) :
    setChain tx chain v w = (setPath chain v w).map fun u => (tx, u) := by
  induction chain generalizing v with
  | nil => rfl
  | cons name chain ih =>
    cases chain with
    | nil => rw [setChain, setPath, forceSpine_of_not_pending h]
    | cons n chain =>
      rw [setChain, setPath, forceSpine_of_not_pending h]
      · cases hc : getField v name with
        | none => rfl
        | some c =>
          rw [Option.bind_some, Option.bind_some, ih (not_pending_getField h hc)]
          cases setPath (n :: chain) c w with
          | none => rfl
          | some c' => rfl
      all_goals exact List.cons_ne_nil _ _

variable {Γ : U128 → Ty} {N : Set U128} {tx : Tx} {a v : Value}

/-- Forcing a register that yields a value gives the value. -/
theorem forceSpine_yields (h : Laid Γ N tx) (hf : tx.Fresh) (hN : ∀ c ∈ N, Γ c = .bytes) (hy : Yields tx a v) :
    Observes Γ N tx (forceSpine tx a).1 ∧ (forceSpine tx a).2 = v := by
  rcases hy with ⟨rfl, hclean⟩ | ⟨i, rfl, hi, hp⟩
  · rw [forceSpine_of_not_pending hclean]
    exact ⟨.refl h hf, rfl⟩
  · exact ⟨observes_force h hf hN _, Yields.force hf (.inr ⟨i, rfl, hi, hp⟩)⟩

/-- **A chain of gets** is the path on what the register yields. -/
theorem getChain_eq (h : Laid Γ N tx) (hf : tx.Fresh) (hN : ∀ c ∈ N, Γ c = .bytes) (hy : Yields tx a v)
    (hv : containsPending v = false) {chain : List String} (hchain : chain ≠ []) :
    getChain tx chain a = (getPath chain v).map fun u => ((forceSpine tx a).1, u) := by
  obtain ⟨-, hspine⟩ := forceSpine_yields h hf hN hy
  rw [← getChain_of_not_pending _ chain hv]
  cases chain with
  | nil => exact absurd rfl hchain
  | cons name chain => rw [getChain, getChain, hspine, forceSpine_of_not_pending hv]

/-- **The gets and sets of an assignment** are the assignment on what the register yields. -/
theorem setChain_eq (h : Laid Γ N tx) (hf : tx.Fresh) (hN : ∀ c ∈ N, Γ c = .bytes) (hy : Yields tx a v)
    (hv : containsPending v = false) {chain : List String} (hchain : chain ≠ []) (w : Value) :
    setChain tx chain a w = (setPath chain v w).map fun u => ((forceSpine tx a).1, u) := by
  obtain ⟨-, hspine⟩ := forceSpine_yields h hf hN hy
  rw [← setChain_of_not_pending _ chain hv]
  cases chain with
  | nil => exact absurd rfl hchain
  | cons name chain =>
    cases chain with
    | nil => rw [setChain, setChain, hspine, forceSpine_of_not_pending hv]
    | cons n chain =>
      rw [setChain, setChain, hspine, forceSpine_of_not_pending hv]
      all_goals exact List.cons_ne_nil _ _

end Structs

end Rend
