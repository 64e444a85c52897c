import Rend.Rocks.Commit
import Rend.Rocks.Forced

/-!
# Reads of unset cells

A read of an unset cell answers with the default of its type and records it as observed. Validation
accepts the record against an absent cell when `isDefault` knows the value. `isDefault` and
`Value.defaultFor` are two case lists, and they agree on the types of `Ty.knownDefault` only: the
default of a struct, of a capability, of an enum, of json, of an interface, of a persistent B-tree and
of a set, a dict or a tuple counts as a value that somebody must have written.

`unset_read_validates_iff` says what follows for a transaction that has read an unset cell: it passes
validation against the store it has read from exactly when the type of the cell is one of these.
-/

namespace Rend

open Lib

/-- The types with a default that `isDefault` knows. -/
def Ty.knownDefault : Ty → Bool
  | .explicitLiteral inner => knownDefault inner
  | .map _ value => knownDefault value
  | .int | .uint | .float | .i32 | .u32 | .u64 | .u128 | .bool | .unit | .resource => true
  | .string | .address | .bytes | .array _ | .pmap _ _ | .pvec _ => true
  | _ => false

/-- The two case lists agree on these types only. -/
theorem isDefault_defaultFor (ty : Ty) : isDefault (Value.defaultFor ty) = ty.knownDefault := by
  cases ty with
  | explicitLiteral inner => exact isDefault_defaultFor inner
  | map key value => exact isDefault_defaultFor value
  | _ => rfl

namespace Rocks

open Pmap Tx

/-- Whether the reads of a transaction still hold in a store (`occ::validate`). -/
def validate (reads : Cells) (kv : Kv) : Bool :=
  reads.entries.all fun e =>
    match kv e.1 with
    | some bytes => bytes = serialize e.2
    | none => isDefault e.2

theorem validate_iff {reads : Cells} {kv : Kv} :
    validate reads kv = true ↔ ∀ e ∈ reads.entries, readMatches (kv e.1) e.2 = true := by
  rw [validate, List.all_eq_true]
  refine forall₂_congr fun e _ => ?_
  cases kv e.1 <;> rfl

variable {disk : Kv} {overlay : Cells} {job : CommitJob}

/-- Reads that all match leave the job as it is. -/
theorem validateReads_of_matches {reads : List (Sigma fun _ : U128 => Value)} (acc : Cells × NewCells)
    (h : ∀ e ∈ reads, readMatches (overlaid overlay disk e.1) e.2 = true) :
    validateReads disk overlay job reads acc = some acc := by
  induction reads with
  | nil => rfl
  | cons e reads ih =>
    obtain ⟨cell, expected⟩ := e
    rw [validateReads, if_pos (h _ List.mem_cons_self)]
    exact ih fun e he => h e (List.mem_cons_of_mem _ he)

/-- A merge is of maps. -/
theorem mergeRead_eq_none {localWrites : Cells} {cell : U128} {expected : Value}
    (h : ∀ root, expected ≠ .pmap root) : mergeRead disk overlay job localWrites cell expected = none := by
  unfold mergeRead
  split
  · next root _ _ _ => exact absurd rfl (h root)
  · rfl

/-- A read that no longer matches and is of no map is a conflict. -/
theorem validateReads_eq_none {reads : List (Sigma fun _ : U128 => Value)}
    {e : Sigma fun _ : U128 => Value} (he : e ∈ reads) (hroot : ∀ root, e.2 ≠ .pmap root)
    (h : readMatches (overlaid overlay disk e.1) e.2 = false) (acc : Cells × NewCells) :
    validateReads disk overlay job reads acc = none := by
  induction reads generalizing acc with
  | nil => cases he
  | cons e' reads ih =>
    obtain ⟨cell, expected⟩ := e'
    rw [validateReads]
    rcases List.mem_cons.mp he with rfl | hmem
    · rw [if_neg (by simp [h]), mergeRead_eq_none hroot]
    · split
      · exact ih hmem _
      · split
        · rfl
        · exact ih hmem _

/-- Only the default of a map is the root of a map. -/
theorem knownDefault_of_pmap {ty : Ty} {root : U128} (h : Value.defaultFor ty = .pmap root) :
    ty.knownDefault = true := by
  cases ty with
  | explicitLiteral inner => exact @knownDefault_of_pmap inner root h
  | map key value => exact @knownDefault_of_pmap value root h
  | pmap key value => rfl
  | _ => cases h

/-- **An unchanged store conflicts with a read of an unset cell** unless the default of its type is one
that `isDefault` knows. The other reads of the transaction are those that still match; what it goes on
to write does not matter. -/
theorem unset_read_validates_iff {tx : Tx} (hq : tx.Quiet) (hreads : validate tx.reads tx.kv = true)
    {c : U128} (hunset : tx.kv c = none) (hwrites : tx.writes.lookup c = none)
    (hfresh : tx.reads.lookup c = none) (ty : Ty) (writes : Cells)
    (pmapTypes : AList fun _ : U128 => Ty × Ty) :
    (tx.readForced c ty).2 = Value.defaultFor ty ∧
      (validate (tx.readForced c ty).1.reads tx.kv = true ↔ ty.knownDefault = true) ∧
      ((validateAndApplyJob tx.kv ∅ ⟨(tx.readForced c ty).1.reads, writes, pmapTypes⟩).isSome = true ↔
        ty.knownDefault = true) := by
  obtain ⟨resolved, next, hread⟩ := (hq.readForced c ty).2.2 hwrites hfresh
  have hvalue : tx.storeValue c ty = Value.defaultFor ty := by
    rw [hq.storeValue, observed, hunset]
  rw [hread, hvalue]
  have hentries : (tx.reads.insert c (Value.defaultFor ty)).entries =
      ⟨c, Value.defaultFor ty⟩ :: tx.reads.entries :=
    AList.entries_insert_of_notMem (AList.lookup_eq_none.mp hfresh)
  have hold : ∀ e ∈ tx.reads.entries, readMatches (tx.kv e.1) e.2 = true := validate_iff.mp hreads
  have hnew : readMatches (tx.kv c) (Value.defaultFor ty) = ty.knownDefault := by
    rw [hunset]
    exact isDefault_defaultFor ty
  refine ⟨rfl, ?_, ?_⟩
  · rw [validate_iff, hentries, List.forall_mem_cons, hnew]
    exact and_iff_left hold
  · unfold validateAndApplyJob
    rw [Option.isSome_map]
    dsimp only
    rw [hentries]
    constructor
    · intro hpass
      by_contra hknown
      have hmiss : readMatches (overlaid ∅ tx.kv c) (Value.defaultFor ty) = false := by
        rw [overlaid_empty, hnew]
        exact Bool.eq_false_iff.mpr hknown
      have hroot : ∀ root, Value.defaultFor ty ≠ .pmap root :=
        fun root h => hknown (knownDefault_of_pmap h)
      rw [validateReads_eq_none List.mem_cons_self hroot hmiss] at hpass
      cases hpass
    · intro hknown
      have hmatch : readMatches (overlaid ∅ tx.kv c) (Value.defaultFor ty) = true := by
        rw [overlaid_empty, hnew, hknown]
      rw [validateReads_of_matches _ (List.forall_mem_cons.mpr ⟨hmatch, hold⟩)]
      rfl

/-- A transaction of an empty store reads a cell of json, with the reads in flight. -/
theorem unset_read_validates_json :
    (((Tx.new fun _ => none).setLazy true).readForced 7 .json).2 = Value.defaultFor .json ∧
      (validate (((Tx.new fun _ => none).setLazy true).readForced 7 .json).1.reads (fun _ => none) = true ↔
        Ty.json.knownDefault = true) ∧
      ((validateAndApplyJob (fun _ => none) ∅
          ⟨(((Tx.new fun _ => none).setLazy true).readForced 7 .json).1.reads, ∅, ∅⟩).isSome = true ↔
        Ty.json.knownDefault = true) := by
  have hquiet : ((Tx.new fun _ => none).setLazy true).Quiet := ⟨rfl, rfl, rfl⟩
  exact unset_read_validates_iff hquiet rfl rfl rfl rfl .json ∅ ∅

/-- A transaction that has only read an unset cell of a struct conflicts with the store it has read
from, at each of the two validations. -/
theorem unset_struct_conflicts :
    ∃ (kv : Kv) (c : U128) (ty : Ty), kv c = none ∧
      ((Tx.new kv).readForced c ty).2 = Value.defaultFor ty ∧
      validate ((Tx.new kv).readForced c ty).1.reads kv = false ∧
      validateAndApplyJob kv ∅ ⟨((Tx.new kv).readForced c ty).1.reads, ∅, ∅⟩ = none := by
  exact ⟨fun _ => none, 7, .struct "Point" [("x", .int)] [], rfl, rfl, rfl, rfl⟩

end Rocks

end Rend
