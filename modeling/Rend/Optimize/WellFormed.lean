import Rend.Compile.Module
import Rend.Optimize.Places

/-!
# Clustered code is well formed

The pass moves and merges instructions, but puts no new number into one: what all instructions of a function meet,
they and the reads of its batches still meet (`Holds`). A batch that is named exists, and a jump that is relocated
leads into the new code or to its end.
-/

namespace Rend.Optimize

/-! ### Through the pass -/

section Pass

variable {P : Instr → Prop} {n : ℕ} {s : State}

/-- What holds of every instruction the pass has seen, wherever it is now. There are at least `n` batches. -/
structure Holds (P : Instr → Prop) (n : ℕ) (s : State) : Prop where
  code : ∀ i ∈ s.newCode, P i ∨ ∃ g < s.readGroups.length, i = .readBatch g
  cluster : ∀ op ∈ s.cluster, P op.instr
  waiting : ∀ p ∈ s.pendingNonreads, P p.2
  groups : ∀ ops ∈ s.readGroups, ∀ op ∈ ops, P op.instr
  places : ∀ k v, s.idxMap k = some v → v ≤ s.newCode.length
  batches : n ≤ s.readGroups.length

/-- A place that is noted is the next one, or it was known. -/
theorem place_update {m : ℕ → Option ℕ} {n old k v : ℕ} (hm : ∀ k v, m k = some v → v ≤ n)
    (h : Function.update m old (some n) k = some v) : v ≤ n := by
  by_cases hk : k = old
  · subst hk
    rw [Function.update_self] at h
    exact (Option.some.inj h).ge
  · rw [Function.update_of_ne hk] at h
    exact hm k v h

theorem place_foldl {olds : List ℕ} {m : ℕ → Option ℕ} {n k v : ℕ} (hm : ∀ k v, m k = some v → v ≤ n)
    (h : olds.foldl (fun m old => Function.update m old (some n)) m k = some v) : v ≤ n := by
  induction olds generalizing m with
  | nil => exact hm k v h
  | cons old olds ih => exact ih (fun k v hk => place_update hm hk) h

theorem Holds.emit {old : ℕ} {i : Instr} (h : Holds P n s) (hi : P i) : Holds P n (s.emit old i) := by
  refine ⟨fun j hj => ?_, h.cluster, h.waiting, h.groups, fun k v hv => ?_, h.batches⟩
  · rcases List.mem_append.mp hj with hj | hj
    · exact h.code j hj
    · exact .inl (List.mem_singleton.mp hj ▸ hi)
  · show v ≤ (s.newCode ++ [i]).length
    rw [List.length_append]
    exact (place_update h.places hv).trans (Nat.le_add_right _ _)

theorem Holds.foldl_emit {l : List (ℕ × Instr)} (h : Holds P n s) (hl : ∀ p ∈ l, P p.2) :
    Holds P n (l.foldl (fun s p => s.emit p.1 p.2) s) := by
  induction l generalizing s with
  | nil => exact h
  | cons p l ih =>
    obtain ⟨hp, hl⟩ := List.forall_mem_cons.mp hl
    exact ih (h.emit hp) hl

theorem Holds.emitCluster (h : Holds P n s) : Holds P n s.emitCluster := by
  have hplace : ∀ i k v, s.clusterOld.foldl (fun m old => Function.update m old (some s.newCode.length)) s.idxMap k = some v →
      v ≤ (s.newCode ++ [i]).length := by
    intro i k v hv
    rw [List.length_append]
    exact (place_foldl h.places hv).trans (Nat.le_add_right _ _)
  have hnone : ∀ op ∈ ([] : List ReadOp), P op.instr := fun op hop => absurd hop List.not_mem_nil
  unfold State.emitCluster
  split
  · exact h
  · next op hop =>
    refine ⟨fun j hj => ?_, hnone, h.waiting, h.groups, hplace _, h.batches⟩
    rcases List.mem_append.mp hj with hj | hj
    · exact h.code j hj
    · exact .inl (List.mem_singleton.mp hj ▸ h.cluster op (hop ▸ List.mem_singleton_self op))
  · have hlen : (s.readGroups ++ [s.cluster]).length = s.readGroups.length + 1 := by simp
    refine ⟨fun j hj => ?_, hnone, h.waiting, ?_, hplace _, h.batches.trans (hlen ▸ Nat.le_succ _)⟩
    · show _ ∨ ∃ g < (s.readGroups ++ [s.cluster]).length, _
      rw [hlen]
      rcases List.mem_append.mp hj with hj | hj
      · rcases h.code j hj with hj | ⟨g, hg, hj⟩
        · exact .inl hj
        · exact .inr ⟨g, hg.trans (Nat.lt_succ_self _), hj⟩
      · exact .inr ⟨_, Nat.lt_succ_of_le (Nat.mod_le _ _), List.mem_singleton.mp hj⟩
    · intro ops hops
      rcases List.mem_append.mp hops with hops | hops
      · exact h.groups ops hops
      · exact List.mem_singleton.mp hops ▸ h.cluster

theorem Holds.flush (h : Holds P n s) : Holds P n s.flush := by
  have hcluster := h.emitCluster
  have hall := hcluster.foldl_emit hcluster.waiting
  exact ⟨hall.code, hall.cluster, fun p hp => absurd hp List.not_mem_nil, hall.groups, hall.places, hall.batches⟩

theorem Holds.addRead {old : ℕ} {op : ReadOp} (h : Holds P n s) (hop : P op.instr) : Holds P n (s.addRead old op) := by
  refine ⟨h.code, fun op' hop' => ?_, h.waiting, h.groups, h.places, h.batches⟩
  rcases List.mem_append.mp hop' with hop' | hop'
  · exact h.cluster op' hop'
  · exact List.mem_singleton.mp hop' ▸ hop

theorem Holds.step {E : Effects} {old : ℕ} {i : Instr} (h : Holds P n s) (hi : P i) : Holds P n (s.step E old i) := by
  unfold State.step
  split
  · next op hop =>
    have hread : P op.instr := readOp?_eq_some.mp hop ▸ hi
    split
    · exact h.flush.addRead hread
    · exact h.addRead hread
  · split
    · exact h.flush.emit hi
    · split
      · exact h.emit hi
      · refine ⟨h.code, h.cluster, fun p hp => ?_, h.groups, h.places, h.batches⟩
        rcases List.mem_append.mp hp with hp | hp
        · exact h.waiting p hp
        · exact List.mem_singleton.mp hp ▸ hi

theorem Holds.run {E : Effects} {old : ℕ} {code : List Instr} (h : Holds P n s) (hcode : ∀ i ∈ code, P i) :
    Holds P n (s.run E old code) := by
  induction code generalizing s old with
  | nil => exact h
  | cons i code ih =>
    obtain ⟨hi, hcode⟩ := List.forall_mem_cons.mp hcode
    exact ih (h.step hi) hcode

theorem holds_clustered {E : Effects} {f : BcCode} (hcode : ∀ i ∈ f.code, P i)
    (hgroups : ∀ ops ∈ f.readGroups, ∀ op ∈ ops, P op.instr) : Holds P f.readGroups.length (clustered E f) := by
  have hstart : Holds P f.readGroups.length { readGroups := f.readGroups } :=
    ⟨fun i hi => absurd hi List.not_mem_nil, fun op hop => absurd hop List.not_mem_nil,
      fun p hp => absurd hp List.not_mem_nil, hgroups, fun k v hv => absurd hv (by simp), le_rfl⟩
  exact (hstart.run hcode).flush

end Pass

/-! ### Relocated jumps -/

section Relocated

variable {idxMap : ℕ → Option ℕ} {newLen : ℕ}

theorem firstFrom_le (h : ∀ k v, idxMap k = some v → v ≤ newLen) (n t : ℕ) : firstFrom idxMap newLen t n ≤ newLen := by
  induction n generalizing t with
  | zero => exact le_rfl
  | succ n ih =>
    rw [firstFrom]
    split
    · next v hv => exact h t v hv
    · exact ih (t + 1)

/-- Wherever a jump was meant to go, it is sent into the new code or to its end. -/
theorem mapOrEnd_mem (h : ∀ k v, idxMap k = some v → v ≤ newLen) (oldLen : ℕ) (t : ℤ) :
    0 ≤ mapOrEnd idxMap oldLen newLen t ∧ mapOrEnd idxMap oldLen newLen t ≤ newLen := by
  unfold mapOrEnd
  split
  · exact ⟨le_rfl, Int.natCast_nonneg _⟩
  · split
    · exact ⟨Int.natCast_nonneg _, le_rfl⟩
    · exact ⟨Int.natCast_nonneg _, Int.ofNat_le.mpr (firstFrom_le h _ _)⟩

theorem meets_relocate {D : Demands} {s : State} {oldLen newPc : ℕ} {i : Instr} :
    (relocate s oldLen newPc i).Meets D ↔ i.Meets D := by
  cases i <;> rfl

/-- The jumps that the pass relocates lead into the code or to its end. -/
def JumpsInside (code : List Instr) : Prop :=
  ∀ (pos : ℕ) (i : Instr), code[pos]? = some i → isJump i → i.Lands code.length pos

/-- The code after the pass is that before the relocation, instruction by instruction. -/
theorem relocated_of_getElem? {E : Effects} {f : BcCode} {pos : ℕ} {i : Instr} (h : (optimizeFn E f).code[pos]? = some i) :
    ∃ j, (clustered E f).newCode[pos]? = some j ∧ i = relocate (clustered E f) f.code.length pos j := by
  have h : ((clustered E f).newCode.mapIdx (relocate (clustered E f) f.code.length))[pos]? = some i := h
  rw [List.getElem?_mapIdx] at h
  obtain ⟨j, hj, rfl⟩ := Option.map_eq_some_iff.mp h
  exact ⟨j, hj, rfl⟩

theorem jumpsInside_optimizeFn (E : Effects) (f : BcCode) : JumpsInside (optimizeFn E f).code := by
  intro pos i hi hjump
  have hplaces := (holds_clustered (P := fun _ => True) (E := E) (f := f) (fun _ _ => trivial) fun _ _ _ _ => trivial).places
  obtain ⟨j, -, rfl⟩ := relocated_of_getElem? hi
  have hlen : (optimizeFn E f).code.length = (clustered E f).newCode.length := List.length_mapIdx
  rw [hlen]
  have hwithin : ∀ t, OffsetWithin (clustered E f).newCode.length pos
      (mapOrEnd (clustered E f).idxMap f.code.length (clustered E f).newCode.length t - pos - 1) := by
    intro t
    obtain ⟨h0, hle⟩ := mapOrEnd_mem hplaces f.code.length t
    unfold OffsetWithin
    omega
  cases j with
  | jump offset => exact hwithin _
  | jumpIfFalse cond offset => exact hwithin _
  | _ => cases hjump

end Relocated

/-! ### Modules -/

section Modules

variable (fnEffects : String → Option EffectClass)

/-- Read clustering on every function of a module. -/
def optimize (m : BcModule) : BcModule :=
  { m with functions := m.functions.map fun f => { f with toBcCode := optimizeFn ⟨fnEffects, m.fnIndex⟩ f.toBcCode } }

variable {fnEffects}

/-- Other batches do not matter to an instruction, when its own is among them. -/
theorem meets_withBatches {D : Demands} {b : ℕ → Prop} {i : Instr} (h : i.Meets D) (hb : ∀ g, D.batch g → b g) :
    i.Meets { D with batch := b } := by
  cases i with
  | readBatch g => exact hb g h
  | _ => exact h

theorem frameDemands_optimize (m : BcModule) (f : BcFn) (code : BcCode) :
    frameDemands (optimize fnEffects m) { f with toBcCode := code } =
      { frameDemands m f with batch := (· < code.readGroups.length) } := by
  simp [frameDemands, optimize]

/-- **Clustering keeps modules well formed.** The functions of the module after the pass refer to what exists, and
the jumps that are relocated lead into the code they stand in or to its end. -/
theorem optimize_wellFormed {m : BcModule} (h : ∀ f ∈ m.functions, WellFormedFn m f) :
    ∀ f ∈ (optimize fnEffects m).functions, WellFormedFn (optimize fnEffects m) f ∧ JumpsInside f.code := by
  intro f' hf'
  obtain ⟨f, hf, rfl⟩ := List.mem_map.mp hf'
  have hwf := h f hf
  refine ⟨?_, jumpsInside_optimizeFn _ _⟩
  have hgrow : ∀ g, (frameDemands m f).batch g →
      g < (clustered ⟨fnEffects, m.fnIndex⟩ f.toBcCode).readGroups.length := fun g hg =>
    lt_of_lt_of_le hg (holds_clustered (P := fun _ => True) (fun _ _ => trivial) fun _ _ _ _ => trivial).batches
  have hall := holds_clustered (E := ⟨fnEffects, m.fnIndex⟩) (f := f.toBcCode)
    (P := fun i => i.Meets { frameDemands m f with
      batch := (· < (clustered ⟨fnEffects, m.fnIndex⟩ f.toBcCode).readGroups.length) })
    (fun i hi => meets_withBatches (hwf.meets i hi) hgrow)
    fun ops hops op hop => meets_withBatches (hwf.batches ops hops op hop) hgrow
  refine ⟨hwf.params, fun i hi => ?_, fun ops hops op hop => ?_⟩
  · rw [frameDemands_optimize]
    obtain ⟨pos, hpos⟩ := List.mem_iff_getElem?.mp hi
    obtain ⟨j, hj, rfl⟩ := relocated_of_getElem? hpos
    rw [meets_relocate]
    rcases hall.code j (List.mem_of_getElem? hj) with hj | ⟨g, hg, rfl⟩
    · exact hj
    · exact hg
  · rw [frameDemands_optimize]
    exact hall.groups ops hops op hop

end Modules

theorem optimize_wellFormed_pick :
    ∃ m, Compile.compileNamedWithExtras Compile.pickModule "main" [] (fun _ => none) (fun _ => "") 1 Compile.unbounded = .ok m ∧
      ∀ f ∈ (optimize (fun _ => none) m).functions, WellFormedFn (optimize (fun _ => none) m) f ∧ JumpsInside f.code := by
  obtain ⟨m, hm⟩ : ∃ m, Compile.compileNamedWithExtras Compile.pickModule "main" [] (fun _ => none) (fun _ => "") 1
      Compile.unbounded = .ok m := ⟨_, rfl⟩
  exact ⟨m, hm, optimize_wellFormed fun f hf => (Compile.wellFormed_of_meant hm f hf).1⟩

end Rend.Optimize
