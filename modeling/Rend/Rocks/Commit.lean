import Rend.Pmap.Merge

/-!
# Committing to the database

The commit path of `rend-rocksdb`. A database is a map from byte keys to bytes; the cells of a
namespace sit below its 8-byte prefix. A job carries what a transaction has read and written. It is
validated against the effective state, the overlay of the batch over the disk: a read that no longer
matches is a conflict, unless it is the root of a map that can be merged. Jobs that pass go into the
overlay, and the overlay goes to disk in one write batch.

A hash map is an association list here; the order of its entries stands for the order in which the
code iterates over it. Reads and writes of the database do not fail.

`commitBatch_eq_serial` shows that group commit is transparent: a batch answers and leaves behind what
its jobs do when committed one after the other.
-/

namespace Rend.Rocks

open Lib Pmap Tx

/-- The database, keys and values as bytes. -/
abbrev Db := Bytes → Option Bytes

abbrev NamespaceId := U64

/-- The key of a cell on disk (`encode_key`). -/
def encodeKey (ns : NamespaceId) (cell : U128) : Bytes := wordBytes 8 ns ++ wordBytes 16 cell

/-- The view of one namespace (`NamespacedKv`). -/
def namespaceView (db : Db) (ns : NamespaceId) : Kv := fun cell => db (encodeKey ns cell)

structure CommitJob where
  reads : Cells
  writes : Cells
  pmapTypes : AList (fun _ : U128 => Ty × Ty)

inductive CommitResult
  | committed
  | conflict
  deriving DecidableEq

/-- Whether the bytes of a cell are those of the value recorded; an absent cell reads as a default. -/
def readMatches (onDisk : Option Bytes) (expected : Value) : Bool :=
  match onDisk with
  | none => isDefault expected
  | some bs => bs = serialize expected

/-- A map of typed values over a store of bytes. -/
def overlaid (overlay : Cells) (kv : Kv) : Kv := fun cell =>
  match overlay.lookup cell with
  | some v => some (serialize v)
  | none => kv cell

/-- What a merge reads (`MergeKv`): the job's writes, then the batch, then the disk. -/
def mergeKv (base : Kv) (jobOverlay batchOverlay : Cells) : Kv :=
  overlaid jobOverlay (overlaid batchOverlay base)

/-- The root a cell's bytes give for a map; anything else counts as the empty map. -/
def liveRoot (onDisk : Option Bytes) (kt vt : Ty) : U128 :=
  match onDisk.bind (deserialize (.pmap kt vt)) with
  | some (.pmap h) => h
  | _ => emptyRoot

/-- The merge that one mismatched read calls for: the job's own root with the live one, over the root
that was read. -/
def mergeRead (disk : Kv) (overlay : Cells) (job : CommitJob) (localWrites : Cells) (cell : U128)
    (expected : Value) : Option MergeResult :=
  match job.pmapTypes.lookup cell, expected, localWrites.lookup cell with
  | some (kt, vt), .pmap ancestorRoot, some (.pmap ourRoot) =>
    mergeThreeWay ourRoot (liveRoot (overlaid overlay disk cell) kt vt) ancestorRoot
      (mergeKv disk job.writes overlay) kt vt
  | _, _, _ => none

/-- The loop over the reads. The job's writes and the merged nodes so far are threaded through; none
is a conflict. -/
def validateReads (disk : Kv) (overlay : Cells) (job : CommitJob) :
    List (Sigma fun _ : U128 => Value) → Cells × NewCells → Option (Cells × NewCells)
  | [], acc => some acc
  | ⟨cell, expected⟩ :: reads, acc =>
    if readMatches (overlaid overlay disk cell) expected then validateReads disk overlay job reads acc
    else
      match mergeRead disk overlay job acc.1 cell expected with
      | none => none
      | some merged => validateReads disk overlay job reads
          (acc.1.insert cell (.pmap merged.root), acc.2 ++ merged.newCells)

/-- Puts a job's writes and merged nodes into the overlay. -/
def promote (overlay : Cells) (acc : Cells × NewCells) : Cells :=
  acc.2.foldl (fun o c => o.insert c.1 (.bytes c.2))
    (acc.1.entries.foldl (fun o e => o.insert e.1 e.2) overlay)

/-- Validates a job and promotes its writes; none is a conflict, which leaves the overlay as it is. -/
def validateAndApplyJob (disk : Kv) (overlay : Cells) (job : CommitJob) : Option Cells :=
  (validateReads disk overlay job job.reads.entries (job.writes, [])).map (promote overlay)

/-- The jobs of a batch one after the other, over one overlay. -/
def applyJobs (disk : Kv) : Cells → List CommitJob → Cells × List CommitResult
  | overlay, [] => (overlay, [])
  | overlay, job :: jobs =>
    match validateAndApplyJob disk overlay job with
    | some overlay =>
      let (overlay, results) := applyJobs disk overlay jobs
      (overlay, .committed :: results)
    | none =>
      let (overlay, results) := applyJobs disk overlay jobs
      (overlay, .conflict :: results)

/-- Writes every cell of the overlay below the namespace, in one batch. -/
def flush (db : Db) (ns : NamespaceId) (overlay : Cells) : Db :=
  overlay.entries.foldl (fun db e => Function.update db (encodeKey ns e.1) (some (serialize e.2))) db

def commitBatch (db : Db) (ns : NamespaceId) (jobs : List CommitJob) : Db × List CommitResult :=
  if jobs = [] then (db, [])
  else
    let (overlay, results) := applyJobs (namespaceView db ns) ∅ jobs
    (flush db ns overlay, results)

/-- Commits one job. -/
def commitWithOcc (db : Db) (ns : NamespaceId) (job : CommitJob) : Db × CommitResult :=
  let (db, results) := commitBatch db ns [job]
  (db, results.headD .conflict)

/-- Commits jobs one at a time. -/
def commitEach (ns : NamespaceId) : Db → List CommitJob → Db × List CommitResult
  | db, [] => (db, [])
  | db, job :: jobs =>
    let (db, result) := commitWithOcc db ns job
    let (db, results) := commitEach ns db jobs
    (db, result :: results)

/-! ### Overlays -/

theorem encodeKey_inj {ns : NamespaceId} {c c' : U128} (h : encodeKey ns c = encodeKey ns c') : c = c' :=
  wordBytes_inj (by norm_num) (List.append_cancel_left h)

@[simp] theorem overlaid_empty (kv : Kv) : overlaid ∅ kv = kv := rfl

theorem overlaid_insert (overlay : Cells) (kv : Kv) (c : U128) (v : Value) :
    overlaid (overlay.insert c v) kv = Function.update (overlaid overlay kv) c (some (serialize v)) := by
  funext d
  by_cases hd : d = c
  · subst hd
    simp [overlaid]
  · simp [overlaid, AList.lookup_insert_ne hd, Function.update_of_ne hd]

/-- Promoting a job changes the effective state by its writes and nodes, whatever it was before. -/
def promoteKv (kv : Kv) (acc : Cells × NewCells) : Kv :=
  acc.2.foldl (fun kv c => Function.update kv c.1 (some (serialize (.bytes c.2))))
    (acc.1.entries.foldl (fun (kv : Kv) e => Function.update kv e.1 (some (serialize e.2))) kv)

theorem overlaid_promote (overlay : Cells) (kv : Kv) (acc : Cells × NewCells) :
    overlaid (promote overlay acc) kv = promoteKv (overlaid overlay kv) acc := by
  have hwrites : ∀ (l : List (Sigma fun _ : U128 => Value)) (o : Cells),
      overlaid (l.foldl (fun o e => o.insert e.1 e.2) o) kv =
        l.foldl (fun (kv : Kv) e => Function.update kv e.1 (some (serialize e.2))) (overlaid o kv) := by
    intro l
    induction l with
    | nil => exact fun _ => rfl
    | cons e l ih => exact fun o => by rw [List.foldl_cons, List.foldl_cons, ih, overlaid_insert]
  have hnodes : ∀ (l : NewCells) (o : Cells),
      overlaid (l.foldl (fun o c => o.insert c.1 (.bytes c.2)) o) kv =
        l.foldl (fun (kv : Kv) c => Function.update kv c.1 (some (serialize (.bytes c.2)))) (overlaid o kv) := by
    intro l
    induction l with
    | nil => exact fun _ => rfl
    | cons c l ih => exact fun o => by rw [List.foldl_cons, List.foldl_cons, ih, overlaid_insert]
  rw [promote, promoteKv, hnodes, hwrites]

/-- Validation sees the overlay and the disk only through the effective state. -/
theorem validateReads_congr {disk disk' : Kv} {overlay overlay' : Cells} (job : CommitJob)
    (h : overlaid overlay disk = overlaid overlay' disk')
    (reads : List (Sigma fun _ : U128 => Value)) (acc : Cells × NewCells) :
    validateReads disk overlay job reads acc = validateReads disk' overlay' job reads acc := by
  induction reads generalizing acc with
  | nil => rfl
  | cons r reads ih =>
    have hmerge : ∀ l c v, mergeRead disk overlay job l c v = mergeRead disk' overlay' job l c v := by
      intro l c v
      unfold mergeRead mergeKv
      rw [h]
    unfold validateReads
    rw [h, hmerge]
    simp only [ih]

theorem validateAndApplyJob_congr {disk disk' : Kv} {overlay overlay' : Cells} (job : CommitJob)
    (h : overlaid overlay disk = overlaid overlay' disk') :
    (validateAndApplyJob disk overlay job).map (overlaid · disk) =
      (validateAndApplyJob disk' overlay' job).map (overlaid · disk') := by
  unfold validateAndApplyJob
  rw [validateReads_congr job h]
  cases validateReads disk' overlay' job job.reads.entries (job.writes, []) with
  | none => rfl
  | some acc =>
    simp only [Option.map_some, Option.some.injEq]
    rw [overlaid_promote, overlaid_promote, h]

/-! ### The write batch -/

/-- Entries with distinct keys, written one after the other: their order does not matter. -/
theorem foldl_update_apply {κ : Type} [DecidableEq κ] {key : U128 → κ} (hkey : Function.Injective key)
    {l : List (Sigma fun _ : U128 => Value)} (hnd : l.NodupKeys) (m : κ → Option Bytes) (c : U128) :
    l.foldl (fun m e => Function.update m (key e.1) (some (serialize e.2))) m (key c) =
      match l.dlookup c with
      | some v => some (serialize v)
      | none => m (key c) := by
  induction l generalizing m with
  | nil => rfl
  | cons e l ih =>
    obtain ⟨k, v⟩ := e
    rw [List.nodupKeys_cons] at hnd
    rw [List.foldl_cons, ih hnd.2]
    by_cases hk : c = k
    · subst hk
      rw [List.dlookup_eq_none.2 hnd.1, List.dlookup_cons_eq]
      exact Function.update_self _ _ _
    · rw [List.dlookup_cons_ne _ _ hk, Function.update_of_ne (hkey.ne hk)]

theorem flush_apply (db : Db) (ns : NamespaceId) (overlay : Cells) (c : U128) :
    flush db ns overlay (encodeKey ns c) = overlaid overlay (namespaceView db ns) c :=
  foldl_update_apply (fun _ _ => encodeKey_inj) overlay.nodupKeys db c

/-- A job leaves its writes and, over them, the nodes its merges have made. -/
theorem promoteKv_eq (kv : Kv) (acc : Cells × NewCells) :
    promoteKv kv acc = storeCells (overlaid acc.1 kv) acc.2 := by
  have hwrites : acc.1.entries.foldl (fun (kv : Kv) e => Function.update kv e.1 (some (serialize e.2))) kv =
      overlaid acc.1 kv :=
    funext fun c => @foldl_update_apply _ _ id Function.injective_id _ acc.1.nodupKeys kv c
  rw [promoteKv, hwrites]
  rfl

theorem flush_apply_of_ne (db : Db) (ns : NamespaceId) (overlay : Cells) {k : Bytes}
    (h : ∀ c, k ≠ encodeKey ns c) : flush db ns overlay k = db k := by
  unfold flush
  induction overlay.entries generalizing db with
  | nil => rfl
  | cons e l ih => rw [List.foldl_cons, ih, Function.update_of_ne (h e.1)]

theorem namespaceView_flush (db : Db) (ns : NamespaceId) (overlay : Cells) :
    namespaceView (flush db ns overlay) ns = overlaid overlay (namespaceView db ns) :=
  funext fun c => flush_apply db ns overlay c

/-- The database after a batch is given by the effective state of its namespace. -/
theorem flush_congr {db db' : Db} {ns : NamespaceId} {overlay overlay' : Cells}
    (hrest : ∀ k, (∀ c, k ≠ encodeKey ns c) → db k = db' k)
    (h : overlaid overlay (namespaceView db ns) = overlaid overlay' (namespaceView db' ns)) :
    flush db ns overlay = flush db' ns overlay' := by
  funext k
  by_cases hk : ∃ c, k = encodeKey ns c
  · obtain ⟨c, rfl⟩ := hk
    rw [flush_apply, flush_apply, h]
  · have hne : ∀ c, k ≠ encodeKey ns c := fun c hc => hk ⟨c, hc⟩
    rw [flush_apply_of_ne db ns overlay hne, flush_apply_of_ne db' ns overlay' hne, hrest k hne]

theorem flush_empty (db : Db) (ns : NamespaceId) : flush db ns ∅ = db := rfl

/-! ### Batches and single commits -/

theorem commitWithOcc_eq (db : Db) (ns : NamespaceId) (job : CommitJob) : commitWithOcc db ns job =
    match validateAndApplyJob (namespaceView db ns) ∅ job with
    | some overlay => (flush db ns overlay, .committed)
    | none => (db, .conflict) := by
  unfold commitWithOcc commitBatch
  simp only [applyJobs, List.cons_ne_self, if_false]
  cases validateAndApplyJob (namespaceView db ns) ∅ job with
  | some overlay => rfl
  | none => rfl

/-- A batch that goes on from an overlay does what single commits do from the flushed database. -/
theorem applyJobs_eq_commitEach (db db' : Db) (ns : NamespaceId) (overlay : Cells)
    (hdb : db' = flush db ns overlay) (jobs : List CommitJob) :
    (flush db ns (applyJobs (namespaceView db ns) overlay jobs).1,
      (applyJobs (namespaceView db ns) overlay jobs).2) = commitEach ns db' jobs := by
  induction jobs generalizing overlay db' with
  | nil =>
    rw [hdb]
    rfl
  | cons job jobs ih =>
    have heff : overlaid overlay (namespaceView db ns) = overlaid ∅ (namespaceView db' ns) := by
      rw [hdb, namespaceView_flush, overlaid_empty]
    have hjob := validateAndApplyJob_congr job heff
    rw [applyJobs, commitEach, commitWithOcc_eq]
    cases hv : validateAndApplyJob (namespaceView db ns) overlay job with
    | none =>
      rw [hv, Option.map_none, eq_comm, Option.map_eq_none_iff] at hjob
      rw [hjob]
      have := ih db' overlay hdb
      simp only [← this]
    | some overlay₁ =>
      rw [hv, Option.map_some, eq_comm, Option.map_eq_some_iff] at hjob
      obtain ⟨overlay₂, hv₂, heff₂⟩ := hjob
      rw [hv₂]
      have hdb₁ : flush db' ns overlay₂ = flush db ns overlay₁ := by
        refine flush_congr (fun k hk => ?_) heff₂
        rw [hdb, flush_apply_of_ne db ns overlay hk]
      have := ih (flush db' ns overlay₂) overlay₁ hdb₁
      simp only [← this]

/-- The jobs of a batch that were answered as committed. -/
def committedJobs (jobs : List CommitJob) (results : List CommitResult) : List CommitJob :=
  ((jobs.zip results).filter fun p => p.2 = .committed).map Prod.fst

theorem commitEach_committedJobs (ns : NamespaceId) (db : Db) (jobs : List CommitJob) :
    (commitEach ns db (committedJobs jobs (commitEach ns db jobs).2)).1 = (commitEach ns db jobs).1 := by
  induction jobs generalizing db with
  | nil => rfl
  | cons job jobs ih =>
    have hcons : commitEach ns db (job :: jobs) =
        ((commitEach ns (commitWithOcc db ns job).1 jobs).1,
          (commitWithOcc db ns job).2 :: (commitEach ns (commitWithOcc db ns job).1 jobs).2) := rfl
    rw [hcons]
    cases hr : (commitWithOcc db ns job).2 with
    | committed =>
      have hjobs : committedJobs (job :: jobs)
          (.committed :: (commitEach ns (commitWithOcc db ns job).1 jobs).2) =
            job :: committedJobs jobs (commitEach ns (commitWithOcc db ns job).1 jobs).2 := by
        simp [committedJobs]
      rw [hjobs]
      exact ih (commitWithOcc db ns job).1
    | conflict =>
      have hdb : (commitWithOcc db ns job).1 = db := by
        rw [commitWithOcc_eq] at hr ⊢
        cases hv : validateAndApplyJob (namespaceView db ns) ∅ job with
        | some overlay =>
          rw [hv] at hr
          cases hr
        | none => rfl
      have hjobs : committedJobs (job :: jobs)
          (.conflict :: (commitEach ns (commitWithOcc db ns job).1 jobs).2) =
            committedJobs jobs (commitEach ns (commitWithOcc db ns job).1 jobs).2 := by
        simp [committedJobs]
      rw [hjobs, hdb]
      exact ih db

theorem commitBatch_eq_commitEach (db : Db) (ns : NamespaceId) (jobs : List CommitJob) :
    commitBatch db ns jobs = commitEach ns db jobs := by
  unfold commitBatch
  split_ifs with h
  · rw [h]
    rfl
  · exact applyJobs_eq_commitEach db db ns ∅ (flush_empty db ns).symm jobs

/-- **Group commit is transparent.** A batch answers and leaves behind what its jobs do when they are
committed one at a time, and the jobs answered with a conflict leave nothing behind: without them
the database ends up the same. -/
theorem commitBatch_eq_serial (db : Db) (ns : NamespaceId) (jobs : List CommitJob) :
    commitBatch db ns jobs = commitEach ns db jobs ∧
      (commitBatch db ns (committedJobs jobs (commitBatch db ns jobs).2)).1 =
        (commitBatch db ns jobs).1 := by
  rw [commitBatch_eq_commitEach, commitBatch_eq_commitEach]
  exact ⟨rfl, commitEach_committedJobs ns db jobs⟩

end Rend.Rocks
