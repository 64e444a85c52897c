import Rend.Rocks.Commit
import Rend.Pvec.Merge

/-!
# The batch driver

`occ.rs` runs a batch of transactions against one snapshot, then commits them one after the other to the
live store. A transaction whose reads still hold has its writes applied; one whose mismatches are all roots
of maps and vectors it also wrote has them merged; any other is run again on the live store. The store is
changed in place, transaction by transaction.

What the engine does with a source is a parameter. `commitBatch_error` says what a failing batch leaves
behind, `leavesUntouched_iff` when that is the store it was given.
-/

namespace Rend.Occ

open Pmap (emptyRoot NewCells)

open Rocks (overlaid)

/-- What an execution hands back, as far as the driver looks at it (`ExecOutcome`). -/
structure ExecOutcome where
  result : Value
  reads : Cells
  writes : Cells
  pmapTypes : AList (fun _ : U128 => Ty × Ty) := ∅
  pvecTypes : AList (fun _ : U128 => Ty) := ∅

/-- The engine, with errors of any type: what a source does with an amount of fuel on a store. -/
structure Engine (ε : Type) where
  execute : String → ℕ → Kv → Except ε ExecOutcome

structure TxRequest where
  src : String
  fuelFirst : ℕ
  fuelRetry : ℕ

structure TxReport where
  result : Value
  reExecuted : Bool

structure BatchReport where
  txs : List TxReport := []
  conflicts : ℕ := 0
  merged : ℕ := 0

/-! ### Merging -/

/-- Whether a read still holds in a store: the cell has the bytes of the value, or is unset and the value is a
default. -/
def liveMatch (kv : Kv) (key : U128) (observed : Value) : Bool :=
  match kv key with
  | some bs => bs = serialize observed
  | none => isDefault observed

def validate (reads : Cells) (kv : Kv) : Bool := reads.entries.all fun e => liveMatch kv e.1 e.2

/-- The cells whose reads no longer hold, where each is the root of a map or a vector that was also written. -/
def mergeableCells (outcome : ExecOutcome) (live : Kv) : List (Sigma fun _ : U128 => Value) → Option (List U128)
  | [] => some []
  | ⟨key, observed⟩ :: reads =>
    if liveMatch live key observed then mergeableCells outcome live reads
    else
      let isPersistent := match observed with
        | .pmap _ => true
        | .pvec .. => true
        | _ => false
      if !isPersistent || (outcome.writes.lookup key).isNone then none
      else (mergeableCells outcome live reads).map (key :: ·)

/-- The root of a map that is stored at a cell. -/
def readPmapRoot (kt vt : Ty) (kv : Kv) (cell : U128) : Option U128 :=
  match (kv cell).bind (deserialize (.pmap kt vt)) with
  | some (.pmap h) => some h
  | _ => none

/-- The root and length of a vector that is stored at a cell. -/
def readPvecRoot (elem : Ty) (kv : Kv) (cell : U128) : Option (U128 × U64) :=
  match (kv cell).bind (deserialize (.pvec elem)) with
  | some (.pvec len root) => some (root, len)
  | _ => none

/-- Adds merged nodes to a write set. -/
def addNodes (writes : Cells) (newCells : NewCells) : Cells :=
  newCells.foldl (fun w c => w.insert c.1 (.bytes c.2)) writes

/-- Merges what the transaction made of one cell into what the live store has there. -/
def mergeCell (outcome : ExecOutcome) (live snapshot : Kv) (adjusted : Cells) (cell : U128) : Option Cells :=
  let stacked := overlaid outcome.writes live
  match outcome.pmapTypes.lookup cell with
  | some (kt, vt) =>
    match outcome.writes.lookup cell with
    | some (.pmap newA) =>
      (Pmap.mergeThreeWay newA ((readPmapRoot kt vt live cell).getD emptyRoot)
        ((readPmapRoot kt vt snapshot cell).getD emptyRoot) stacked kt vt).map fun merged =>
          addNodes (adjusted.insert cell (.pmap merged.root)) merged.newCells
    | _ => none
  | none =>
    match outcome.pvecTypes.lookup cell with
    | some elem =>
      match outcome.writes.lookup cell with
      | some (.pvec newLen newRoot) =>
        let liveVec := (readPvecRoot elem live cell).getD (emptyRoot, 0)
        let ancestor := (readPvecRoot elem snapshot cell).getD (emptyRoot, 0)
        (Pvec.mergeThreeWay newRoot newLen.toNat liveVec.1 liveVec.2.toNat ancestor.1 ancestor.2.toNat stacked
          elem).map fun merged => addNodes (adjusted.insert cell (.pvec newLen merged.root)) merged.newCells
      | _ => none
    | none => none

def tryPersistentMerge (outcome : ExecOutcome) (live snapshot : Kv) : Option Cells :=
  match mergeableCells outcome live outcome.reads.entries with
  | none => none
  | some cells => cells.foldlM (mergeCell outcome live snapshot) outcome.writes

/-! ### The batch -/

/-- Writes every cell of a write set (`InMemoryKv::apply`). -/
def apply (kv : Kv) (writes : Cells) : Kv :=
  writes.entries.foldl (fun (kv : Kv) e => Function.update kv e.1 (some (serialize e.2))) kv

section Batch

variable {ε : Type} (engine : Engine ε)

/-- Runs every transaction on the snapshot. Of several errors the code hands back one; here it is the first. -/
def speculate (snapshot : Kv) (txs : List TxRequest) : Except ε (List ExecOutcome) :=
  txs.mapM fun tx => engine.execute tx.src tx.fuelFirst snapshot

/-- The serial phase. The store is changed in place, so it is handed back with an error too. -/
def commitLoop (snapshot : Kv) :
    List (TxRequest × ExecOutcome) → Kv → BatchReport → Kv × Except ε BatchReport
  | [], kv, report => (kv, .ok report)
  | (tx, outcome) :: rest, kv, report =>
    if validate outcome.reads kv then
      commitLoop snapshot rest (apply kv outcome.writes) { report with txs := report.txs ++ [⟨outcome.result, false⟩] }
    else
      match tryPersistentMerge outcome kv snapshot with
      | some adjusted => commitLoop snapshot rest (apply kv adjusted)
          { report with txs := report.txs ++ [⟨outcome.result, false⟩], merged := report.merged + 1 }
      | none =>
        match engine.execute tx.src tx.fuelRetry kv with
        | .error e => (kv, .error e)
        | .ok re => commitLoop snapshot rest (apply kv re.writes)
            { report with txs := report.txs ++ [⟨re.result, true⟩], conflicts := report.conflicts + 1 }

def commitBatch (kv : Kv) (txs : List TxRequest) : Kv × Except ε BatchReport :=
  match speculate engine kv txs with
  | .error e => (kv, .error e)
  | .ok outcomes => commitLoop engine kv (txs.zip outcomes) kv {}

/-! ### What a transaction does to the live store -/

/-- A transaction is run again on the live store: its reads no longer hold and cannot be merged. -/
def Conflicts (snapshot : Kv) (outcome : ExecOutcome) (live : Kv) : Prop :=
  validate outcome.reads live = false ∧ tryPersistentMerge outcome live snapshot = none

/-- A transaction takes the live store to the next one. -/
inductive Commits (snapshot : Kv) (tx : TxRequest) (outcome : ExecOutcome) (live : Kv) : Kv → Prop
  | valid (h : validate outcome.reads live = true) : Commits snapshot tx outcome live (apply live outcome.writes)
  | merged {adjusted : Cells} (h : validate outcome.reads live = false)
      (hm : tryPersistentMerge outcome live snapshot = some adjusted) :
      Commits snapshot tx outcome live (apply live adjusted)
  | again {re : ExecOutcome} (h : Conflicts snapshot outcome live)
      (he : engine.execute tx.src tx.fuelRetry live = .ok re) : Commits snapshot tx outcome live (apply live re.writes)

/-- Transactions take the live store to another, one after the other. -/
inductive CommitsAll (snapshot : Kv) : List (TxRequest × ExecOutcome) → Kv → Kv → Prop
  | nil (live : Kv) : CommitsAll snapshot [] live live
  | cons {tx : TxRequest} {outcome : ExecOutcome} {rest : List (TxRequest × ExecOutcome)} {live live' live'' : Kv}
      (h : Commits engine snapshot tx outcome live live') (hrest : CommitsAll snapshot rest live' live'') :
      CommitsAll snapshot ((tx, outcome) :: rest) live live''

/-- After the transactions before it have been committed, one is run again and fails. -/
def FailsAt (kv : Kv) (txs : List TxRequest) (live : Kv) (e : ε) : Prop :=
  ∃ outcomes before tx outcome after, speculate engine kv txs = .ok outcomes ∧
    txs.zip outcomes = before ++ (tx, outcome) :: after ∧ CommitsAll engine kv before kv live ∧
      Conflicts kv outcome live ∧ engine.execute tx.src tx.fuelRetry live = .error e

variable {engine} {kv snapshot live live' : Kv} {txs : List TxRequest} {e : ε}

/-- The rules exclude each other. -/
theorem Commits.unique {tx : TxRequest} {outcome : ExecOutcome} {a b : Kv}
    (h : Commits engine snapshot tx outcome live a) (h' : Commits engine snapshot tx outcome live b) : a = b := by
  cases h with
  | valid hv =>
    cases h' with
    | valid _ => rfl
    | merged hv' _ => cases hv.symm.trans hv'
    | again hc _ => cases hv.symm.trans hc.1
  | merged hv hm =>
    cases h' with
    | valid hv' => cases hv.symm.trans hv'
    | merged _ hm' =>
      cases hm.symm.trans hm'
      rfl
    | again hc _ => cases hm.symm.trans hc.2
  | again hc he =>
    cases h' with
    | valid hv' => cases hv'.symm.trans hc.1
    | merged _ hm' => cases hm'.symm.trans hc.2
    | again _ he' =>
      cases he.symm.trans he'
      rfl

/-- A transaction that is committed does not fail. -/
theorem Commits.not_fails {tx : TxRequest} {outcome : ExecOutcome} {a : Kv}
    (h : Commits engine snapshot tx outcome live a) (hc : Conflicts snapshot outcome live)
    (he : engine.execute tx.src tx.fuelRetry live = .error e) : False := by
  cases h with
  | valid hv => cases hv.symm.trans hc.1
  | merged _ hm => cases hm.symm.trans hc.2
  | again _ hok => cases hok.symm.trans he

/-- One turn of the serial phase: the transaction is committed and the others follow, or it fails. -/
theorem commitLoop_cons (snapshot : Kv) (tx : TxRequest) (outcome : ExecOutcome) (rest : List (TxRequest × ExecOutcome))
    (live : Kv) (report : BatchReport) :
    (∃ mid report', Commits engine snapshot tx outcome live mid ∧
      commitLoop engine snapshot ((tx, outcome) :: rest) live report = commitLoop engine snapshot rest mid report') ∨
    ∃ e, Conflicts snapshot outcome live ∧ engine.execute tx.src tx.fuelRetry live = .error e ∧
      commitLoop engine snapshot ((tx, outcome) :: rest) live report = (live, .error e) := by
  rw [commitLoop]
  split_ifs with hvalid
  · exact .inl ⟨_, _, .valid hvalid, rfl⟩
  · rw [Bool.not_eq_true] at hvalid
    split
    · next adjusted hmerge => exact .inl ⟨_, _, .merged hvalid hmerge, rfl⟩
    · next hmerge =>
      split
      · next e he => exact .inr ⟨e, ⟨hvalid, hmerge⟩, he, rfl⟩
      · next re hre => exact .inl ⟨_, _, .again ⟨hvalid, hmerge⟩ hre, rfl⟩

/-- **What the serial phase leaves when it fails**: what the transactions before the failing one have committed. -/
theorem commitLoop_error_iff (jobs : List (TxRequest × ExecOutcome)) (report : BatchReport) :
    commitLoop engine snapshot jobs live report = (live', .error e) ↔
      ∃ before tx outcome after, jobs = before ++ (tx, outcome) :: after ∧
        CommitsAll engine snapshot before live live' ∧ Conflicts snapshot outcome live' ∧
          engine.execute tx.src tx.fuelRetry live' = .error e := by
  induction jobs generalizing live report with
  | nil =>
    constructor
    · intro h
      cases h
    · rintro ⟨before, tx, outcome, after, h, -⟩
      simp at h
  | cons job rest ih =>
    obtain ⟨tx, outcome⟩ := job
    rcases @commitLoop_cons ε engine snapshot tx outcome rest _ report with
      ⟨mid, report', hcommits, hloop⟩ | ⟨e', hconflict, he', hloop⟩
    · rw [hloop, ih]
      constructor
      · rintro ⟨before, tx', outcome', after, rfl, hall, hfails⟩
        exact ⟨(tx, outcome) :: before, tx', outcome', after, rfl, .cons hcommits hall, hfails⟩
      · rintro ⟨before, tx', outcome', after, hjobs, hall, hfails⟩
        cases hall with
        | nil =>
          cases hjobs
          exact (hcommits.not_fails hfails.1 hfails.2).elim
        | cons h hrest =>
          cases hjobs
          rw [h.unique hcommits] at hrest
          exact ⟨_, tx', outcome', after, rfl, hrest, hfails⟩
    · rw [hloop]
      constructor
      · intro h
        cases h
        exact ⟨[], tx, outcome, rest, rfl, .nil _, hconflict, he'⟩
      · rintro ⟨before, tx', outcome', after, hjobs, hall, hfails⟩
        cases hall with
        | nil =>
          cases hjobs
          cases he'.symm.trans hfails.2
          rfl
        | cons h hrest =>
          cases hjobs
          exact (h.not_fails hconflict he').elim

/-- **What a failing batch leaves**: the store it was given when a first run fails, else what the transactions
before the failing one have committed. -/
theorem commitBatch_error_iff : commitBatch engine kv txs = (live, .error e) ↔
    (speculate engine kv txs = .error e ∧ live = kv) ∨ FailsAt engine kv txs live e := by
  unfold commitBatch FailsAt
  cases hrun : speculate engine kv txs with
  | error e' => simp [eq_comm, and_comm]
  | ok outcomes =>
    dsimp only
    rw [commitLoop_error_iff]
    constructor
    · rintro ⟨before, tx, outcome, after, hjobs, hfails⟩
      exact .inr ⟨outcomes, before, tx, outcome, after, rfl, hjobs, hfails⟩
    · rintro (⟨h, -⟩ | ⟨_, before, tx, outcome, after, h, hjobs, hfails⟩)
      · cases h
      · cases h
        exact ⟨before, tx, outcome, after, hjobs, hfails⟩

/-! ### All or nothing -/

/-- A batch that fails leaves the store as it was. -/
def LeavesUntouched (engine : Engine ε) (kv : Kv) (txs : List TxRequest) : Prop :=
  ∀ kv' e, commitBatch engine kv txs = (kv', .error e) → kv' = kv

/-- **A failing batch leaves the store untouched exactly if** no transaction fails on the live store after the
ones before it have changed that store. -/
theorem leavesUntouched_iff (engine : Engine ε) (kv : Kv) (txs : List TxRequest) :
    LeavesUntouched engine kv txs ↔ ∀ live, live ≠ kv → ∀ e, ¬ FailsAt engine kv txs live e := by
  constructor
  · intro h live hne e hfails
    exact hne (h live e (commitBatch_error_iff.mpr (.inr hfails)))
  · intro h kv' e hbatch
    rcases commitBatch_error_iff.mp hbatch with ⟨-, rfl⟩ | hfails
    · rfl
    · by_contra hne
      exact h kv' hne e hfails

end Batch

/-! ### A batch that fails half way -/

/-- The cell of a state `n: u64`. -/
def counterCell : U128 := 7

def setToOne : String := "state n: u64; fn main() { n = 1u64; }"

def setOnce : String := "state n: u64; fn main() { assert(n == 0u64); n = 2u64; }"

/-- What the engine does with these two sources. -/
def counterEngine : Engine String where
  execute src _ kv :=
    let n := ((kv counterCell).bind (deserialize .u64)).getD (.u64 0)
    if src = setToOne then .ok ⟨.unit, ∅, AList.singleton counterCell (.u64 1), ∅, ∅⟩
    else if src = setOnce then
      if n = .u64 0 then .ok ⟨.unit, AList.singleton counterCell n, AList.singleton counterCell (.u64 2), ∅, ∅⟩
      else .error "assertion failed"
    else .error "parse error"

/-- **The batch fails and the store has changed**: both run on the empty store, the first sets the counter, the
second is run again and its assertion fails. -/
theorem failed_batch_changes_store : ∃ kv',
    commitBatch counterEngine (fun _ => none) [⟨setToOne, 100, 100⟩, ⟨setOnce, 100, 100⟩] =
      (kv', .error "assertion failed") ∧ kv' counterCell = some (serialize (.u64 1)) ∧
    ¬ LeavesUntouched counterEngine (fun _ => none) [⟨setToOne, 100, 100⟩, ⟨setOnce, 100, 100⟩] := by
  have hrun : commitBatch counterEngine (fun _ => none) [⟨setToOne, 100, 100⟩, ⟨setOnce, 100, 100⟩] =
      (apply (fun _ => none) (AList.singleton counterCell (.u64 1)), .error "assertion failed") := by
    rfl
  have hset : apply (fun _ => none) (AList.singleton counterCell (.u64 1)) counterCell = some (serialize (.u64 1)) := by
    rfl
  refine ⟨_, hrun, hset, fun h => ?_⟩
  have hsame := congrFun (h _ _ hrun) counterCell
  rw [hset] at hsame
  cases hsame

end Rend.Occ
