import Rend.Leaves

/-!
# Reserving ids

`reserve N from state` bumps a `u64` counter by `N` and hands out the ids it has passed
(`Instr::Reserve`). The bump `prev + n` and each id `prev + i + 1` are plain `u64` additions, where the
operators of the language are checked ones; built for release they wrap around.

A cell is a counter when nothing in flight can answer for it with anything but its value (`Counter`).
From one lemma on a single call (`reserve_cases`) follows what a run of calls hands out: the ids of the
run are fresh exactly when no call passes the top of the range (`freshIds_iff`).
-/

namespace Rend

open Lib

/-- A count as a `u64` (`value_to_u64_arr`). -/
def valueToU64Arr : Value → Option U64
  | .u64 n => some n
  | .u32 n => some (n.setWidth 64)
  | .i32 n => if 0 ≤ n.toInt then some (n.signExtend 64) else none
  | .u128 n => if n.toNat < 2 ^ 64 then some (n.setWidth 64) else none
  | .int n => if 0 ≤ n ∧ n < 2 ^ 64 then some (BitVec.ofInt 64 n) else none
  | .uint n => if 0 ≤ n ∧ n < 2 ^ 64 then some (BitVec.ofInt 64 n) else none
  | _ => none

/-- Why a call of `reserve` fails, with the value its message shows. -/
inductive ReserveError
  | countNotAnInteger (got : Value)
  | stateNotU64 (got : Value)
  deriving DecidableEq

/-- The ids after `prev`, each added up on its own. -/
def idsAfter (prev n : U64) : List U64 := (List.range n.toNat).map fun i => prev + BitVec.ofNat 64 i + 1

/-- As long as they stay in range, they are the numbers that follow `prev`. -/
theorem idsAfter_toNat {prev n : U64} (h : prev.toNat + n.toNat < 2 ^ 64) :
    (idsAfter prev n).map BitVec.toNat = List.range' (prev.toNat + 1) n.toNat := by
  rw [idsAfter, List.map_map, List.range'_eq_map_range]
  refine List.map_congr_left fun i hi => ?_
  have hi : i < n.toNat := List.mem_range.mp hi
  have hone : (1 : U64).toNat = 1 := rfl
  simp only [Function.comp_apply, BitVec.toNat_add, BitVec.toNat_ofNat, hone]
  omega

namespace Tx

/-- The ids handed out by `reserve N from` the state at `root` (`Instr::Reserve`). The counter is read
past the queue of lazy reads. -/
def reserve (tx : Tx) (root : U128) (count : Value) : Tx × Except ReserveError Value :=
  let (tx, countV) := tx.force count
  match valueToU64Arr countV with
  | none => (tx, .error (.countNotAnInteger countV))
  | some n =>
    let (tx, prevV) := tx.readTypedMany [(root, .u64)]
    match prevV.headD .unit with
    | .u64 prev => (tx.write root (.u64 (prev + n)), .ok (.array ((idsAfter prev n).map .u64)))
    | other => (tx, .error (.stateNotU64 other))

/-- The value of the counter at `root`, as a call of `reserve` reads it. -/
def counterAt (tx : Tx) (root : U128) : Value := (tx.readTypedMany [(root, .u64)]).2.headD .unit

/-- The state at `root` is a `u64` counter that stands at `prev`: it has been written, or whatever has
been read or is being read at its cell is the `u64` below the caches. -/
inductive Counter (tx : Tx) (root : U128) (prev : U64) : Prop
  | written (hw : tx.writes.lookup root = some (.u64 prev))
  | unwritten (hw : tx.writes.lookup root = none) (hstore : tx.storeValue root .u64 = .u64 prev)
      (hreads : ∀ v ∈ tx.reads.lookup root, v = .u64 prev)
      (hpending : ∀ p ∈ tx.pending, p.key = root → p.ty = .u64)
      (hwalks : ∀ n, root ∉ tx.walkCells n)

/-! ### One call -/

/-- A drain asks for no nodes but those that its lookups would have asked for. -/
theorem walkCells_drain (k n : ℕ) (tx : Tx) : (tx.drain k).walkCells n ⊆ tx.walkCells (k + n) := by
  induction k generalizing tx with
  | zero => rw [Nat.zero_add]; exact List.Subset.refl _
  | succ k ih =>
    have hround : tx.drain (k + 1) =
        if tx.pending.isEmpty && tx.pendingWalks.isEmpty then tx else drain k tx.drainRound := rfl
    rw [hround, Nat.succ_add, walkCells]
    split_ifs with hempty
    · -- nothing is in flight, and nothing will be
      cases n with
      | zero => exact List.Subset.refl _
      | succ n =>
        rw [walkCells, if_pos hempty]
        exact List.Subset.refl _
    · exact List.Subset.trans (ih _) (List.subset_append_right ..)

namespace Counter

variable {tx : Tx} {root : U128} {prev : U64}

theorem force (h : Counter tx root prev) (v : Value) : Counter (tx.force v).1 root prev := by
  have hd := drained_force tx v
  cases h with
  | written hw => exact .written (by rw [hd.writes_eq, hw])
  | unwritten hw hstore hreads hpending hwalks =>
    refine .unwritten (by rw [hd.writes_eq, hw]) (by rw [hd.storeValue_eq, hstore]) ?_
      (fun p hp => hpending p (hd.pending.subset hp)) ?_
    · unfold Tx.force
      split_ifs
      · intro v hv
        rcases nodeReads_drain (Pmap.maxLevels + 2) tx root with he | ⟨p, hp, hkey, he⟩ | ⟨hmem, -⟩
        · exact hreads v (he ▸ hv)
        · -- a queued read of the counter asked for a `u64`
          rw [he, hpending p hp hkey, hstore] at hv
          exact (Option.some.inj hv).symm
        · exact absurd hmem (hwalks _)
      · exact hreads
    · unfold Tx.force
      split_ifs
      · exact fun n hmem => hwalks _ (walkCells_drain _ n tx hmem)
      · exact hwalks

/-- Reading the counter. -/
theorem counterAt_eq (h : Counter tx root prev) : tx.counterAt root = .u64 prev := by
  have hleaf : ∀ w : Value, reassemble [w] (.leaf 0) = w := fun _ => rfl
  simp only [counterAt, readTypedMany, collectAll, collectLeaves, List.nil_append, List.length_nil,
    List.map_cons, List.map_nil, List.headD_cons, readLeaves, knownLeaves]
  cases h with
  | written hw => simp [hw, fetchLeaves, hleaf]
  | unwritten hw hstore hreads =>
    rw [hw]
    dsimp only
    cases hr : tx.reads.lookup root with
    | some v => simp [fetchLeaves, hleaf, hreads v hr]
    | none =>
      rw [storeValue] at hstore
      cases hp : tx.parentLookup root with
      | some v =>
        rw [hp, Option.getD_some] at hstore
        simp [fetchLeaves, hleaf, hstore]
      | none =>
        rw [hp, Option.getD_none] at hstore
        simp [fetchLeaves, hleaf, hstore]

/-- Moving the counter. -/
theorem write (tx : Tx) (root : U128) (next : U64) : Counter (tx.write root (.u64 next)) root next := by
  refine .written ?_
  simp [Tx.write, Tx.force, containsPending]

end Counter

variable {tx : Tx} {root : U128} {prev : U64}

/-- **A call of `reserve`** fails on a count that is no `u64`, or it hands out the ids after the counter
and moves the counter. -/
theorem reserve_cases (h : Counter tx root prev) (count : Value) :
    (valueToU64Arr (tx.force count).2 = none ∧ Counter (tx.reserve root count).1 root prev ∧
      ∃ e, (tx.reserve root count).2 = .error e) ∨
    ∃ n, valueToU64Arr (tx.force count).2 = some n ∧ Counter (tx.reserve root count).1 root (prev + n) ∧
      (tx.reserve root count).2 = .ok (.array ((idsAfter prev n).map .u64)) := by
  have hforced := h.force count
  unfold reserve
  dsimp only
  cases hn : valueToU64Arr (tx.force count).2 with
  | none => exact .inl ⟨rfl, hforced, _, rfl⟩
  | some n =>
    have hread := hforced.counterAt_eq
    unfold counterAt at hread
    dsimp only
    rw [hread]
    exact .inr ⟨n, rfl, Counter.write _ root _, rfl⟩

/-! ### Runs of calls -/

/-- What a call promises: it fails and leaves the counter where it was, or it hands out exactly the
numbers after the counter and moves the counter past them. -/
def Served (root : U128) (tx : Tx) (count : Value) : Prop :=
  (∀ e, (tx.reserve root count).2 = .error e → (tx.reserve root count).1.counterAt root = tx.counterAt root) ∧
  ∀ v, (tx.reserve root count).2 = .ok v →
    ∃ (prev n next : U64) (ids : List U64), tx.counterAt root = .u64 prev ∧
      valueToU64Arr (tx.force count).2 = some n ∧
      v = .array (ids.map .u64) ∧ ids.map BitVec.toNat = List.range' (prev.toNat + 1) n.toNat ∧
      (tx.reserve root count).1.counterAt root = .u64 next ∧ next.toNat = prev.toNat + n.toNat

/-- Every call of a run keeps its promise. -/
def AllServed (root : U128) : Tx → List Value → Prop
  | _, [] => True
  | tx, count :: counts => Served root tx count ∧ AllServed root (tx.reserve root count).1 counts

/-- The ids that a call returns. -/
def idsOf : Except ReserveError Value → List Value
  | .ok (.array ids) => ids
  | _ => []

/-- The ids that a run hands out. -/
def issued (root : U128) : Tx → List Value → List Value
  | _, [] => []
  | tx, count :: counts => idsOf (tx.reserve root count).2 ++ issued root (tx.reserve root count).1 counts

/-- A run of calls hands out fresh ids. -/
def FreshIds (root : U128) (tx : Tx) (counts : List Value) : Prop :=
  AllServed root tx counts ∧ (issued root tx counts).Nodup

/-- No call of a run moves the counter past the top of the range. -/
def Fits (root : U128) : Tx → List Value → Prop
  | _, [] => True
  | tx, count :: counts =>
    (∀ prev n, tx.counterAt root = .u64 prev → valueToU64Arr (tx.force count).2 = some n →
      prev.toNat + n.toNat < 2 ^ 64) ∧ Fits root (tx.reserve root count).1 counts

theorem served_of_fits (h : Counter tx root prev) {count : Value}
    (hfits : ∀ n, valueToU64Arr (tx.force count).2 = some n → prev.toNat + n.toNat < 2 ^ 64) :
    Served root tx count := by
  rcases reserve_cases h count with ⟨-, hcounter, e, he⟩ | ⟨n, hn, hcounter, hok⟩
  · refine ⟨fun _ _ => by rw [hcounter.counterAt_eq, h.counterAt_eq], fun v hv => ?_⟩
    rw [he] at hv
    cases hv
  · refine ⟨fun e he => ?_, fun v hv => ?_⟩
    · rw [hok] at he
      cases he
    · rw [hok] at hv
      cases hv
      have hfits := hfits n hn
      refine ⟨prev, n, prev + n, _, h.counterAt_eq, hn, rfl, idsAfter_toNat hfits, hcounter.counterAt_eq, ?_⟩
      rw [BitVec.toNat_add, Nat.mod_eq_of_lt hfits]

theorem allServed_of_fits (h : Counter tx root prev) {counts : List Value} (hfits : Fits root tx counts) :
    AllServed root tx counts := by
  induction counts generalizing tx prev with
  | nil => trivial
  | cons count counts ih =>
    obtain ⟨hcall, hrest⟩ := hfits
    refine ⟨served_of_fits h fun n hn => hcall prev n h.counterAt_eq hn, ?_⟩
    rcases reserve_cases h count with ⟨-, hcounter, -⟩ | ⟨n, -, hcounter, -⟩
    · exact ih hcounter hrest
    · exact ih hcounter hrest

/-- The ids of a run that fits follow the counter one by one. -/
theorem issued_of_fits (h : Counter tx root prev) {counts : List Value} (hfits : Fits root tx counts) :
    ∃ ids : List U64, issued root tx counts = ids.map .u64 ∧
      ids.map BitVec.toNat = List.range' (prev.toNat + 1) ids.length := by
  induction counts generalizing tx prev with
  | nil => exact ⟨[], rfl, rfl⟩
  | cons count counts ih =>
    obtain ⟨hcall, hrest⟩ := hfits
    rw [issued]
    rcases reserve_cases h count with ⟨-, hcounter, e, he⟩ | ⟨n, hn, hcounter, hok⟩
    · obtain ⟨ids, hids, hrange⟩ := ih hcounter hrest
      exact ⟨ids, by rw [he, hids]; rfl, hrange⟩
    · obtain ⟨ids, hids, hrange⟩ := ih hcounter hrest
      have hfits := hcall prev n h.counterAt_eq hn
      have hlen : (idsAfter prev n).length = n.toNat := by simp [idsAfter]
      refine ⟨idsAfter prev n ++ ids, by rw [hok, hids, List.map_append]; rfl, ?_⟩
      rw [List.map_append, idsAfter_toNat hfits, hrange, List.length_append, hlen, BitVec.toNat_add,
        Nat.mod_eq_of_lt hfits, ← List.range'_append_1, Nat.add_right_comm]

theorem fits_of_allServed (h : Counter tx root prev) {counts : List Value}
    (hserved : AllServed root tx counts) : Fits root tx counts := by
  induction counts generalizing tx prev with
  | nil => trivial
  | cons count counts ih =>
    obtain ⟨hcall, hrest⟩ := hserved
    rcases reserve_cases h count with ⟨hnone, hcounter, -⟩ | ⟨n, hn, hcounter, hok⟩
    · refine ⟨fun prev n _ hn => ?_, ih hcounter hrest⟩
      rw [hnone] at hn
      cases hn
    · refine ⟨fun prev' n' hprev' hn' => ?_, ih hcounter hrest⟩
      obtain ⟨p, m, next, -, hp, hm, -, -, -, hnext⟩ := hcall.2 _ hok
      -- the counter that the call leaves behind is a `u64`
      obtain rfl : p = prev' := Value.u64.inj (hp.symm.trans hprev')
      obtain rfl : m = n' := Option.some.inj (hm.symm.trans hn')
      rw [← hnext]
      exact next.isLt

/-- **Reserved ids are fresh exactly when no call passes the top of the range.** -/
theorem freshIds_iff (h : Counter tx root prev) (counts : List Value) :
    FreshIds root tx counts ↔ Fits root tx counts := by
  refine ⟨fun hfresh => fits_of_allServed h hfresh.1, fun hfits => ⟨allServed_of_fits h hfits, ?_⟩⟩
  obtain ⟨ids, hids, hrange⟩ := issued_of_fits h hfits
  have hnodup : ids.Nodup := List.Nodup.of_map BitVec.toNat (hrange ▸ List.nodup_range')
  rw [hids]
  exact hnodup.map fun _ _ => Value.u64.inj

/-- Three ids of an unset counter, a call that fails, and two more ids. -/
theorem freshIds_unset : FreshIds 0 (Tx.new fun _ => none) [.u64 3, .int (-1), .u32 2] := by
  have hcounter : Counter (Tx.new fun _ => none) 0 0 := by
    refine .unwritten rfl rfl (fun v hv => by cases hv) (fun p hp => by cases hp) fun n hmem => ?_
    cases n <;> cases hmem
  refine (freshIds_iff hcounter _).mpr ⟨fun prev n hprev hn => ?_, fun prev n _ hn => ?_,
    fun prev n hprev hn => ?_, trivial⟩
  · cases hprev
    cases hn
    decide
  · cases hn
  · cases hprev
    cases hn
    decide

/-- The last id wraps around: the counter falls from its top to zero, and the id is zero. -/
theorem reserve_wraps :
    Counter ((Tx.new fun _ => none).write 0 (.u64 (BitVec.allOnes 64))) 0 (BitVec.allOnes 64) ∧
      (((Tx.new fun _ => none).write 0 (.u64 (BitVec.allOnes 64))).reserve 0 (.u64 1)).2 =
        .ok (.array [.u64 0]) ∧
      ¬ FreshIds 0 ((Tx.new fun _ => none).write 0 (.u64 (BitVec.allOnes 64))) [.u64 1] := by
  have hcounter := Counter.write (Tx.new fun _ => none) 0 (BitVec.allOnes 64)
  refine ⟨hcounter, ?_, fun h => ?_⟩
  · have hids : idsAfter (BitVec.allOnes 64) 1 = [0] := by decide
    rcases reserve_cases hcounter (.u64 1) with ⟨hnone, -⟩ | ⟨n, hn, -, hok⟩
    · cases hnone
    · cases hn
      rw [hok, hids]
      rfl
  exact absurd ((fits_of_allServed hcounter h.1).1 _ 1 hcounter.counterAt_eq rfl) (by decide)

end Tx

end Rend
