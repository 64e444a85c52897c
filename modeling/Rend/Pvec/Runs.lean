import Rend.Pvec.Refine

/-!
# Runs of appends and replacements

A run applies a list of `push` and `set` calls in one transaction, starting from the empty vector; the
reference list applies them to a list. A call that fails leaves the vector as it was: a `set` out of
range, and a `push` that would overflow the length.

`run_represents` shows that every root of a run, with its length, reads back as the list of its own
moment, then and at every later moment of the transaction, provided that the values are such as the store
keeps at the element type. A value that does not read back makes its leaf unreadable, and the elements
that share the leaf are lost with it (`unreadable_element`).
-/

namespace Rend.Pvec

open Lib Tx

open Pmap (RoundTrips)

/-- A call on the vector. -/
inductive Op
  | push (value : Value)
  | set (i : ℕ) (value : Value)

/-- The value a call puts into the vector. -/
def Op.value : Op → Value
  | .push value => value
  | .set _ value => value

/-- Applies a call to a vector, its root and its length, inside a transaction. -/
def step (elem : Ty) (s : Tx × U128 × ℕ) : Op → Tx × U128 × ℕ
  | .push value =>
    match push s.2.1 s.2.2 value s.1 elem with
    | (tx, .ok vec) => (tx, vec)
    | (tx, .error _) => (tx, s.2)
  | .set i value =>
    match set s.2.1 s.2.2 i value s.1 elem with
    | (tx, .ok root) => (tx, root, s.2.2)
    | (tx, .error _) => (tx, s.2)

def run (elem : Ty) (tx : Tx) (ops : List Op) : Tx × U128 × ℕ := ops.foldl (step elem) (tx, emptyRoot, 0)

/-- What a call does to the reference list. -/
def refStep (xs : List Value) : Op → List Value
  | .push value => if 2 ^ 64 ≤ xs.length + 1 then xs else xs ++ [value]
  | .set i value => xs.set i value

def refRun (ops : List Op) : List Value := ops.foldl refStep []

/-- The vector reads back as the list. -/
structure Represents (elem : Ty) (tx : Tx) (vec : U128 × ℕ) (xs : List Value) : Prop where
  length : vec.2 = xs.length
  get : ∀ i v, xs[i]? = some v → (get vec.1 vec.2 i tx elem).2 = .ok v
  bounds : ∀ i, vec.2 ≤ i → (Pvec.get vec.1 vec.2 i tx elem).2 = .error (outOfBounds i vec.2)
  toVec : (toVec vec.1 vec.2 tx elem).2 = .ok xs

/-- The root is that of the trie of the list, all its nodes are logged and its elements read back. -/
structure Stands (elem : Ty) (log : List Bytes) (vec : U128 × ℕ) (xs : List Value) : Prop where
  length : vec.2 = xs.length
  root_eq : vec.1 = rootOf (depthFor vec.2) xs
  elems : ∀ v ∈ xs, RoundTrips elem v
  logged : ∀ e ∈ encs (depthFor vec.2) xs, e ∈ log

section Stands

variable {elem : Ty} {log : List Bytes} {tx : Tx} {vec : U128 × ℕ} {xs : List Value}

theorem Stands.fits (h : Stands elem log vec xs) : Fits elem (depthFor vec.2) xs :=
  ⟨by rw [← h.length]; exact le_capacity_depthFor vec.2, h.elems⟩

theorem Stands.held (h : Stands elem tx.nodeLog vec xs) (hs : LogShown nodeCellKey tx) :
    Held tx (depthFor vec.2) xs :=
  fun e he => hs e (h.logged e he)

/-- An index in range is its own remainder. -/
theorem mod_capacity {i len : ℕ} (hi : i < len) : i % capacity (depthFor len) = i :=
  Nat.mod_eq_of_lt (hi.trans_le (le_capacity_depthFor len))

/-- A root that stands for a list reads back as the list. -/
theorem Stands.represents (h : Stands elem tx.nodeLog vec xs) (hs : LogShown nodeCellKey tx) :
    Represents elem tx vec xs := by
  have hheld := h.held hs
  refine ⟨h.length, fun i v hv => ?_, fun i hi => ?_, ?_⟩
  · have hi : i < vec.2 := by
      rw [h.length]
      exact (List.getElem?_eq_some_iff.mp hv).1
    have hmod := mod_capacity hi
    have hget := getAt_eq hheld h.fits (i := i) (by rw [hmod, ← h.length]; exact hi)
    rw [hmod, hv, ← h.root_eq] at hget
    rw [Pvec.get, if_neg (by omega)]
    generalize getAt elem i (depthFor vec.2) vec.1 tx = r at hget
    obtain ⟨tx', res⟩ := r
    subst hget
    rfl
  · rw [Pvec.get, if_pos hi]
  · rw [Pvec.toVec]
    split_ifs with hlen
    · have hnil : xs = [] := by
        rw [← List.length_eq_zero_iff, ← h.length, hlen]
      rw [hnil]
    · have hne : xs ≠ [] := by
        rintro rfl
        exact hlen h.length
      have hall := collectElements_eq hheld h.fits hne []
      rwa [← h.root_eq, ← h.length] at hall

/-- Replacing an element in range stands for the list with the element replaced. -/
theorem Stands.set (h : Stands elem tx.nodeLog vec xs) (hs : LogShown nodeCellKey tx) {i : ℕ} {v : Value}
    (hv : RoundTrips elem v) :
    Stands elem (step elem (tx, vec) (.set i v)).1.nodeLog (step elem (tx, vec) (.set i v)).2 (xs.set i v) := by
  rw [step, Pvec.set]
  dsimp only
  by_cases hi : vec.2 ≤ i
  · rw [if_pos hi, List.set_eq_of_length_le (by rw [← h.length]; exact hi)]
    exact h
  · rw [Nat.not_le] at hi
    have hmod := mod_capacity hi
    obtain ⟨hroot, hkept⟩ := setAt_eq (h.held hs) h.fits (i := i) (by rw [hmod, ← h.length]; exact hi) v
    have hsteps := setAt_steps elem i v (depthFor vec.2) vec.1 tx
    rw [hmod, ← h.root_eq] at hroot hkept
    rw [if_neg (by omega)]
    generalize setAt elem i v (depthFor vec.2) vec.1 tx = r at hroot hkept hsteps
    obtain ⟨tx', res⟩ := r
    subst hroot
    refine ⟨by rw [List.length_set]; exact h.length, rfl, fun w hw => ?_, fun e he => ?_⟩
    · rcases List.mem_or_eq_of_mem_set hw with hw | rfl
      · exact h.elems w hw
      · exact hv
    · rcases hkept e he with he | he
      · exact hsteps.log_subset (h.logged e he)
      · exact he

/-- The trie into which an element is appended, after the root has been wrapped where it is full. -/
theorem Stands.wrapped (h : Stands elem tx.nodeLog vec xs) (hs : LogShown nodeCellKey tx) {S : Set Bytes}
    (hS : Apart nodeCellKey S)
    (hlog : ∀ e ∈ (wrapRoot (depthFor (vec.2 + 1) - depthFor vec.2) vec.1 tx).1.nodeLog, e ∈ S) :
    (wrapRoot (depthFor (vec.2 + 1) - depthFor vec.2) vec.1 tx).2 = rootOf (depthFor (vec.2 + 1)) xs ∧
      Held (wrapRoot (depthFor (vec.2 + 1) - depthFor vec.2) vec.1 tx).1 (depthFor (vec.2 + 1)) xs ∧
      vec.2 % capacity (depthFor (vec.2 + 1)) = xs.length ∧
      ∀ e ∈ encs (depthFor (vec.2 + 1)) xs,
        e ∈ (wrapRoot (depthFor (vec.2 + 1) - depthFor vec.2) vec.1 tx).1.nodeLog := by
  have hmod : vec.2 % capacity (depthFor (vec.2 + 1)) = xs.length := by
    rw [mod_capacity (Nat.lt_succ_self vec.2), h.length]
  rcases depthFor_succ vec.2 with ⟨hdepth, -⟩ | ⟨hdepth, hfull⟩
  · rw [hdepth] at hmod ⊢
    rw [Nat.sub_self]
    exact ⟨h.root_eq, h.held hs, hmod, h.logged⟩
  · have hne : xs ≠ [] := by
      rintro rfl
      have hpos := capacity_pos (depthFor vec.2)
      have hlen := h.length
      rw [List.length_nil] at hlen
      omega
    obtain ⟨henc, hencs⟩ := enc_wrap hne h.fits.length
    rw [hdepth, Nat.add_sub_cancel_left] at hlog ⊢
    rw [hdepth] at hmod
    have hlogged : ∀ e ∈ encs (depthFor vec.2 + 1) xs, e ∈ (wrapRoot 1 vec.1 tx).1.nodeLog := by
      intro e he
      rw [wrapRoot_one, writeNode_nodeLog, h.root_eq]
      rcases hencs e he with rfl | he
      · exact List.mem_append_right _ List.mem_cons_self
      · exact List.mem_append_left _ (h.logged e he)
    refine ⟨?_, fun e he => ⟨?_, ?_⟩, hmod, hlogged⟩
    · have hroot : rootOf (depthFor vec.2 + 1) xs = nodeCellKey (enc (depthFor vec.2 + 1) xs) := rootOf_of_ne hne
      rw [wrapRoot_one, writeNode_snd, h.root_eq, hroot, henc]
    · exact hS.ne_empty e (hlog e (hlogged e he))
    · exact (wrapRoot_steps 1 vec.1 tx).log_shows hS hlog (fun e he => (hs e he).2) (hlogged e he)

/-- Appending an element stands for the list with the element at its end. -/
theorem Stands.push (h : Stands elem tx.nodeLog vec xs) (hs : LogShown nodeCellKey tx) {v : Value}
    (hv : RoundTrips elem v)
    (hS : Apart nodeCellKey {e | e ∈ (step elem (tx, vec) (.push v)).1.nodeLog}) :
    Stands elem (step elem (tx, vec) (.push v)).1.nodeLog (step elem (tx, vec) (.push v)).2
      (refStep xs (.push v)) := by
  rw [step, Pvec.push] at hS ⊢
  dsimp only at hS ⊢
  rw [refStep, ← h.length]
  by_cases hover : 2 ^ 64 ≤ vec.2 + 1
  · rw [if_pos hover, if_pos hover]
    exact h
  · rw [if_neg hover] at hS ⊢
    rw [if_neg hover]
    dsimp only at hS ⊢
    have hpush := pushAt_steps elem vec.2 v (depthFor (vec.2 + 1))
      (wrapRoot (depthFor (vec.2 + 1) - depthFor vec.2) vec.1 tx).2
      (wrapRoot (depthFor (vec.2 + 1) - depthFor vec.2) vec.1 tx).1
    obtain ⟨hroot, hheld, hmod, hlogged⟩ := h.wrapped hs hS fun e he => hpush.log_subset he
    have hfits : Fits elem (depthFor (vec.2 + 1)) xs :=
      ⟨by rw [← h.length]; exact (Nat.le_succ _).trans (le_capacity_depthFor (vec.2 + 1)), h.elems⟩
    rw [hroot] at hpush ⊢
    obtain ⟨hnew, hkept⟩ := pushAt_eq hheld hfits hmod v
    refine ⟨?_, hnew, fun w hw => ?_, fun e he => ?_⟩
    · rw [List.length_append, List.length_singleton, h.length]
    · rcases List.mem_append.mp hw with hw | hw
      · exact h.elems w hw
      · rw [List.mem_singleton.mp hw]
        exact hv
    · rcases hkept e he with he | he
      · exact hpush.log_subset (hlogged e he)
      · exact he

end Stands

theorem step_steps (elem : Ty) (s : Tx × U128 × ℕ) (op : Op) : KeySteps nodeCellKey s.1 (step elem s op).1 := by
  cases op with
  | push v =>
    rw [step, push]
    split_ifs
    · exact .refl
    · exact (wrapRoot_steps ..).trans (pushAt_steps ..)
  | set i v =>
    have hset := setAt_steps elem i v (depthFor s.2.2) s.2.1 s.1
    rw [step, set]
    split_ifs
    · exact .refl
    · generalize setAt elem i v (depthFor s.2.2) s.2.1 s.1 = r at hset
      obtain ⟨tx', _ | root⟩ := r
      · exact hset
      · exact hset

/-- The calls of a vector, one after the other. -/
theorem stepwise (elem : Ty) : Stepwise nodeCellKey (step elem) refStep (Stands elem)
    fun op => RoundTrips elem op.value where
  steps := step_steps elem
  mono hsub h := { h with logged := fun e he => hsub (h.logged e he) }
  stands := by
    intro s xs op hop hs hS h
    cases op with
    | push v => exact h.push hs hop hS
    | set i v => exact h.set hs hop

/-- **A run reads back as the reference list.** In one transaction, starting from the empty vector with
values that the store keeps at the element type, every root with its length reads back as the list of its
own moment, then and at each later moment. -/
theorem run_represents (elem : Ty) (tx₀ : Tx) (h₀ : tx₀.nodeLog = []) (ops : List Op)
    (hS : Apart nodeCellKey {e | e ∈ (run elem tx₀ ops).1.nodeLog})
    (hops : ∀ op ∈ ops, RoundTrips elem op.value) :
    ∀ p q r, ops = p ++ q ++ r →
      Represents elem (run elem tx₀ (p ++ q)).1 (run elem tx₀ p).2 (refRun p) := by
  intro p q r hpqr
  have hstart : Stands elem [] (emptyRoot, 0) [] := by
    refine ⟨rfl, rfl, List.forall_mem_nil _, fun e he => ?_⟩
    rw [encs_nil] at he
    cases he
  have hS' : Apart nodeCellKey {e | e ∈ ((p ++ q).foldl (step elem) (tx₀, emptyRoot, 0)).1.nodeLog} := by
    refine hS.mono fun e he => ?_
    rw [Set.mem_ofPred_eq, run, hpqr, List.foldl_append]
    exact ((stepwise elem).run_steps _ r).log_subset he
  obtain ⟨hshown, hstands⟩ := (stepwise elem).run_stands h₀ hstart (p ++ q)
    (fun op hop => hops op (by rw [hpqr]; exact List.mem_append_left _ hop)) hS'
  exact (hstands p q rfl).represents hshown

/-- Two appends and a replacement: the vector before the replacement still reads back behind it. -/
theorem run_represents_three :
    Represents .int (run .int (Tx.new fun _ => none) ([.push (.int 10), .push (.int 11)] ++ [.set 0 (.int 12)])).1
      (run .int (Tx.new fun _ => none) [.push (.int 10), .push (.int 11)]).2
      (refRun [.push (.int 10), .push (.int 11)]) :=
  run_represents .int (Tx.new fun _ => none) rfl [.push (.int 10), .push (.int 11), .set 0 (.int 12)]
    (apart_of_list (by decide +kernel)) (by decide +kernel) _ _ [] rfl

/-- A vector of sets: the leaf that holds one does not read back. -/
theorem unreadable_element :
    Apart nodeCellKey {e | e ∈ (run (.set .int) (Tx.new fun _ => none) [.push (.set [.int 1])]).1.nodeLog} ∧
    ¬ Represents (.set .int) (run (.set .int) (Tx.new fun _ => none) [.push (.set [.int 1])]).1
      (run (.set .int) (Tx.new fun _ => none) [.push (.set [.int 1])]).2 (refRun [.push (.set [.int 1])]) := by
  refine ⟨apart_of_list (by decide +kernel), fun h => ?_⟩
  have hget := h.get 0 (.set [.int 1]) rfl
  have hlost : (get (run (.set .int) (Tx.new fun _ => none) [.push (.set [.int 1])]).2.1
      (run (.set .int) (Tx.new fun _ => none) [.push (.set [.int 1])]).2.2 0
      (run (.set .int) (Tx.new fun _ => none) [.push (.set [.int 1])]).1 (.set .int)).2 =
        .error "pvec internal: missing node along read path" := by decide +kernel
  rw [hlost] at hget
  cases hget

end Rend.Pvec
