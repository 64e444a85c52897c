import Rend.Pmap.PerKey
import Rend.Pmap.Shape
import Rend.Lib.HamtCanon

/-!
# Merging and serial execution

Two transactions put keys into the map below one base root, no key in both. Their roots can be merged,
or the first one's puts can be applied on top of the second one's root. Both ways answer alike; the
documentation says that the roots are the same, byte for byte.

`merge_eq_serial_iff` gives the exact condition for puts that land well: the merge gives up, or it is tidy and
exact. It is tidy (`HTree.Tidy`) when, wherever it fuses two leaves, one has all keys of the other or their keys
share every slot left. It is exact (`HTree.Exact`) when no value is fused with an equal one that is written
otherwise. Two puts into an empty map are enough to break it (`merge_ne_serial`): the merge makes one leaf where
serial execution makes an inner node.
-/

namespace Rend.Pmap

open Lib Tx

variable {kt vt : Ty} {K : Set Value}

/-- The calls that put these entries. -/
def puts (edits : List (Value × Value)) : List Op := edits.map fun e => .set e.1 e.2

theorem applyAll_puts (T : Trie) (edits : List (Value × Value)) : T.applyAll (puts edits) =
    (edits.map encEntry).foldl (fun T e => T.insert slotOf maxLevels 0 e.1 e.2) T := by
  induction edits generalizing T with
  | nil => rfl
  | cons e edits ih => exact ih _

/-- Puts that land well at the code land well in the trie. -/
theorem Live.allLand {kv : Kv} {tx : Tx} {root : U128} {T : Trie} (h : Live kv tx.nodeLog kt vt root T)
    (hb : Backed kv tx) (hK : Told K) (hT : T.KeysIn kt K) {edits : List (Value × Value)}
    (hkeys : ∀ e ∈ edits, e.1 ∈ K) (hl : AllLandWell kt vt (tx, root) (puts edits))
    (hS : NodeSet (InSight kv (Pmap.run kt vt (tx, root) (puts edits)).1.nodeLog)) :
    HTree.AllLand slotOf maxLevels T (edits.map encEntry) := by
  induction edits generalizing tx root T with
  | nil => exact trivial
  | cons e edits ih =>
    have hsub : (Pmap.step kt vt (tx, root) (.set e.1 e.2)).1.nodeLog ⊆
        (Pmap.run kt vt (tx, root) (puts (e :: edits))).1.nodeLog := by
      have := @run_nodeLog kt vt (tx, root) [.set e.1 e.2] (puts edits)
      simpa [Pmap.run, puts] using this
    have hS₁ := hS.mono (inSight_mono hsub)
    have hkey : (Op.set e.1 e.2).key ∈ K := hkeys e List.mem_cons_self
    obtain ⟨hlive, hsteps, hT₁⟩ := h.step hb hK hT hkey hl.1 hS₁
    refine ⟨?_, ih hlive (hb.steps hS₁ hsteps) hT₁ (fun e he => hkeys e (List.mem_cons_of_mem _ he)) hl.2 hS⟩
    obtain ⟨hk, hv, htakes⟩ := hl.1
    have hheld := h.held hb (hS₁.mono (inSight_mono hsteps.log_subset))
    obtain rfl := h.root_eq
    exact (lands_of_takes hK hkey hk hv hheld h.fits hT (Trie.shallow_of_wf h.wf) (by simp [depth]) (by omega)
      htakes).1

/-! ### What puts leave behind -/

/-- The value the last put of a key leaves. -/
def lastPut : List (Bytes × Bytes) → Bytes → Option Bytes
  | [], _ => none
  | e :: edits, kb => (lastPut edits kb).or (if kb = e.1 then some e.2 else none)

theorem lastPut_eq_none {edits : List (Bytes × Bytes)} {kb : Bytes} (h : kb ∉ edits.map Prod.fst) :
    lastPut edits kb = none := by
  induction edits with
  | nil => rfl
  | cons e edits ih =>
    rw [List.map_cons, List.mem_cons, not_or] at h
    rw [lastPut, ih h.2, if_neg h.1]
    rfl

theorem lookup_foldl_insert {T : Trie} (h : T.WF slotOf 13 0) {edits : List (Bytes × Bytes)}
    (hl : HTree.AllLand slotOf maxLevels T edits) (kb : Bytes) :
    HTree.lookup slotOf (edits.foldl (fun T e => T.insert slotOf maxLevels 0 e.1 e.2) T) 0 kb =
      (lastPut edits kb).or (T.lookup slotOf 0 kb) := by
  induction edits generalizing T with
  | nil => rfl
  | cons e edits ih =>
    have hwf := h.insert (v := e.2) (by simp [maxLevels]) hl.1
    rw [List.foldl_cons, ih hwf hl.2, h.lookup_insert (by simp [maxLevels]) hl.1, lastPut,
      Option.or_assoc]
    split_ifs <;> rfl

/-- Puts of keys that the other side leaves alone: at each key at most one side has changed the base. -/
theorem changed_of_disjoint {C A B S : Trie} {ea eb : List (Bytes × Bytes)}
    (hdis : ∀ kb ∈ ea.map Prod.fst, kb ∉ eb.map Prod.fst)
    (hA : ∀ kb, A.lookup slotOf 0 kb = (lastPut ea kb).or (C.lookup slotOf 0 kb))
    (hB : ∀ kb, B.lookup slotOf 0 kb = (lastPut eb kb).or (C.lookup slotOf 0 kb))
    (hS : ∀ kb, S.lookup slotOf 0 kb = (lastPut ea kb).or (B.lookup slotOf 0 kb)) (kb : Bytes) :
    HTree.Changed (A.lookup slotOf 0 kb) (B.lookup slotOf 0 kb) (C.lookup slotOf 0 kb) (S.lookup slotOf 0 kb) := by
  by_cases hk : kb ∈ ea.map Prod.fst
  · have hBC : B.lookup slotOf 0 kb = C.lookup slotOf 0 kb := by
      rw [hB, lastPut_eq_none (hdis kb hk)]
      rfl
    refine .inl ⟨?_, hBC⟩
    rw [hS, hBC, ← hA]
  · refine .inr ⟨?_, ?_⟩
    · rw [hS, lastPut_eq_none hk]
      rfl
    · rw [hA, lastPut_eq_none hk]
      rfl

/-- Puts make a trie that grows out of the base. -/
theorem exists_ext_puts {C T : Trie} (hC : C.WF slotOf 13 0) {es : List (Bytes × Bytes)}
    (hes : SortedKeys es) (hsub : ∀ k, C.Has k → k ∈ es.map Prod.fst)
    (hT : C.ext slotOf maxLevels 0 es = T) {edits : List (Bytes × Bytes)}
    (hl : HTree.AllLand slotOf maxLevels T edits) :
    ∃ es', SortedKeys es' ∧ (∀ k, C.Has k → k ∈ es'.map Prod.fst) ∧
      C.ext slotOf maxLevels 0 es' =
        edits.foldl (fun T e => T.insert slotOf maxLevels 0 e.1 e.2) T := by
  subst hT
  refine ⟨_, ?_, ?_, (HTree.foldl_insert_eq hC hes hsub hl).symm⟩
  · clear hsub hl
    induction edits generalizing es with
    | nil => exact hes
    | cons e edits ih => exact ih (hes.put e.1 e.2)
  · clear hl
    induction edits generalizing es with
    | nil => exact hsub
    | cons e edits ih =>
      exact ih (hes.put e.1 e.2) fun k hk => mem_put_map_fst.2 (.inr (hsub k hk))

/-! ### Puts that land anywhere -/

/-- What puts make of a trie, wherever they land. -/
noncomputable def Trie.putAll (kt : Ty) (T : Trie) (edits : List (Value × Value)) : Trie :=
  edits.foldl (fun T e => T.put kt e.1 e.2 0) T

theorem keepable_inSight {kv : Kv} {log : List Bytes} {cells : NewCells} (hst : Storable kv cells)
    (hlog : ∀ c ∈ logCells log, c ∈ cells) : Keepable (InSight kv log) := by
  refine ⟨(hst.mono hlog).nodeSet, ?_⟩
  rintro e (he | he)
  · exact nodeAt_length he.2
  · exact hst.small _ (hlog _ (List.mem_map_of_mem he))

/-- Puts lead to the root of the trie they make, wherever they land. -/
theorem run_puts {kv : Kv} {tx : Tx} {T : Trie} (hb : Backed kv tx) (hkept : ∀ e ∈ T.encs, e ∈ InSight kv tx.nodeLog)
    (hfits : T.Fits kt vt) (hsh : T.Shallow 13 0) {edits : List (Value × Value)}
    (hround : ∀ e ∈ edits, RoundTrips kt e.1 ∧ RoundTrips vt e.2)
    (hK : Keepable (InSight kv (Pmap.run kt vt (tx, T.hash) (puts edits)).1.nodeLog)) :
    (Pmap.run kt vt (tx, T.hash) (puts edits)).2 = Trie.hash (T.putAll kt edits) := by
  induction edits generalizing tx T with
  | nil => rfl
  | cons e edits ih =>
    obtain ⟨hk, hv⟩ := hround e List.mem_cons_self
    have hsub : tx.nodeLog ⊆ (Pmap.run kt vt (tx, T.hash) (puts (e :: edits))).1.nodeLog :=
      @run_nodeLog kt vt (tx, T.hash) [] (puts (e :: edits))
    have hheld : T.Held tx.shows := fun e he =>
      ⟨hK.ne_empty e (inSight_mono hsub (hkept e he)), hb e (hkept e he)⟩
    obtain ⟨tx', hset, hsteps, hlog⟩ := set_eq e.1 e.2 hheld hfits hsh
    have hstep : Pmap.run kt vt (tx, T.hash) (puts (e :: edits)) =
        Pmap.run kt vt (tx', Trie.hash (T.put kt e.1 e.2 0)) (puts edits) := by
      change Pmap.run kt vt (Pmap.set T.hash e.1 e.2 tx kt vt) (puts edits) = _
      rw [hset]
    rw [hstep] at hK ⊢
    have hsub' : tx'.nodeLog ⊆ (Pmap.run kt vt (tx', Trie.hash (T.put kt e.1 e.2 0)) (puts edits)).1.nodeLog :=
      @run_nodeLog kt vt (tx', Trie.hash (T.put kt e.1 e.2 0)) [] (puts edits)
    have hkept' : ∀ x ∈ Trie.encs (T.put kt e.1 e.2 0), x ∈ InSight kv tx'.nodeLog := by
      intro x hx
      rcases hlog x hx with hx | hx
      · exact inSight_mono hsteps.steps.log_subset (hkept x hx)
      · exact .inr hx
    refine ih (hb.steps (hK.mono (inSight_mono hsub')) hsteps.steps) hkept' ?_ (hsh.put _ _)
      (fun e he => hround e (List.mem_cons_of_mem _ he)) hK
    refine hfits.put (fun x hx => hK.small x (inSight_mono hsub' ?_)) hk hv
    exact inSight_mono hsteps.steps.log_subset (hkept x hx)

/-- Puts over a store lead to the root of the trie they make, wherever they land. -/
theorem Stored.run_puts {kv : Kv} {root : U128} {T : Trie} (h : Stored kv kt vt root T) {edits : List (Value × Value)}
    (hround : ∀ e ∈ edits, RoundTrips kt e.1 ∧ RoundTrips vt e.2) {cells : NewCells} (hst : Storable kv cells)
    (hlog : ∀ c ∈ logCells (Pmap.run kt vt (Tx.new kv, root) (puts edits)).1.nodeLog, c ∈ cells) :
    (Pmap.run kt vt (Tx.new kv, root) (puts edits)).2 = Trie.hash (T.putAll kt edits) := by
  obtain rfl := h.root_eq
  exact Pmap.run_puts (backed_new kv) (fun e he => .inl (h.held e he)) h.fits (Trie.shallow_of_wf h.wf) hround
    (keepable_inSight hst hlog)

/-! ### Merging against serial execution -/

section MergeSerial

variable {kv : Kv} {base : U128} {C : Trie} {editsA editsB : List (Value × Value)}

/-- The second transaction's root with the first one's puts on top. -/
def serialRun (kt vt : Ty) (kv : Kv) (base : U128) (editsA editsB : List (Value × Value)) : Tx × U128 :=
  let f := fork kt vt kv base (puts editsA) (puts editsB)
  run kt vt (Tx.new f.kv, f.b) (puts editsA)

/-- What merging and serial execution have to do with each other, where the merge goes through. -/
def MergeIsSerial (kt vt : Ty) (kv : Kv) (base : U128) (editsA editsB : List (Value × Value)) : Prop :=
  let f := fork kt vt kv base (puts editsA) (puts editsB)
  ∀ r, mergeThreeWay f.a f.b f.base f.kv kt vt = some r →
    r.root = (serialRun kt vt kv base editsA editsB).2

/-- There is nothing to merge: the first transaction puts nothing, or the second has left the root as it was. -/
def OneSided (kt vt : Ty) (kv : Kv) (base : U128) (editsA editsB : List (Value × Value)) : Prop :=
  editsA = [] ∨ (fork kt vt kv base (puts editsA) (puts editsB)).b = base

/-- The puts of both transactions land well, and so do those of the first one on top of the second one's root. -/
structure PutsLandWell (kt vt : Ty) (kv : Kv) (base : U128) (editsA editsB : List (Value × Value)) : Prop where
  a : AllLandWell kt vt (Tx.new kv, base) (puts editsA)
  b : AllLandWell kt vt (Tx.new kv, base) (puts editsB)
  serial : AllLandWell kt vt (Tx.new (fork kt vt kv base (puts editsA) (puts editsB)).kv,
    (fork kt vt kv base (puts editsA) (puts editsB)).b) (puts editsA)

theorem mergeThreeWay_of_base {a b base : U128} (h : a = base ∨ b = base) :
    ∀ r, mergeThreeWay a b base kv kt vt = some r → r.root = if b = base then a else b := by
  intro r hr
  obtain ⟨⟨root, out⟩, hat, rfl⟩ := Option.map_eq_some_iff.1 hr
  rw [show depth = 13 + 1 from rfl, mergeAt] at hat
  split_ifs at hat ⊢ <;> simp_all

/-- **Where there is nothing to merge**, the merged root is the serial one. -/
theorem mergeIsSerial_of_oneSided (hC : Stored kv kt vt base C)
    (hround : ∀ e ∈ editsA, RoundTrips kt e.1 ∧ RoundTrips vt e.2)
    (hst : Storable kv (forkCells kt vt kv base (puts editsA) (puts editsB)))
    (hcells : ∀ r ∈ mergeThreeWay (fork kt vt kv base (puts editsA) (puts editsB)).a
        (fork kt vt kv base (puts editsA) (puts editsB)).b base
        (fork kt vt kv base (puts editsA) (puts editsB)).kv kt vt,
      Storable (fork kt vt kv base (puts editsA) (puts editsB)).kv
        (r.newCells ++ logCells (serialRun kt vt kv base editsA editsB).1.nodeLog))
    (h : OneSided kt vt kv base editsA editsB) : MergeIsSerial kt vt kv base editsA editsB := by
  intro r hr
  by_cases hb : (fork kt vt kv base (puts editsA) (puts editsB)).b = base
  · rw [mergeThreeWay_of_base (.inr hb) r hr, if_pos hb]
    have hA : (fork kt vt kv base (puts editsA) (puts editsB)).a = Trie.hash (C.putAll kt editsA) :=
      hC.run_puts hround hst fun c hc => by
        rw [forkCells, logCells, List.map_append]
        exact List.mem_append_left _ hc
    have hC' : Stored (fork kt vt kv base (puts editsA) (puts editsB)).kv kt vt
        (fork kt vt kv base (puts editsA) (puts editsB)).b C :=
      ⟨hb.trans hC.root_eq, hst.held hC.held, hC.fits, hC.wf⟩
    rw [hA]
    exact (hC'.run_puts hround (hcells r hr) fun c hc => List.mem_append_right _ hc).symm
  · obtain rfl := h.resolve_right hb
    exact (mergeThreeWay_of_base (.inl rfl) r hr).trans (if_neg hb)

/-- Puts over a store land well in the trie. -/
theorem allLand_puts {kv : Kv} {root : U128} {T : Trie} (h : Stored kv kt vt root T) (hK : Told K)
    (hT : T.KeysIn kt K) {edits : List (Value × Value)} (hkeys : ∀ e ∈ edits, e.1 ∈ K)
    (hl : AllLandWell kt vt (Tx.new kv, root) (puts edits)) {cells : NewCells} (hst : Storable kv cells)
    (hlog : ∀ c ∈ logCells (run kt vt (Tx.new kv, root) (puts edits)).1.nodeLog, c ∈ cells) :
    HTree.AllLand slotOf maxLevels T (edits.map encEntry) :=
  (h.live []).allLand (backed_new kv) hK hT hkeys hl (hst.mono hlog).nodeSet

theorem key_mem_puts {edits : List (Value × Value)} (h : ∀ e ∈ edits, e.1 ∈ K) : ∀ op ∈ puts edits, op.key ∈ K := by
  intro op hop
  obtain ⟨e, he, rfl⟩ := List.mem_map.1 hop
  exact h e he

theorem roundTrips_of_puts {s : Tx × U128} {edits : List (Value × Value)}
    (hl : AllLandWell kt vt s (puts edits)) : ∀ e ∈ edits, RoundTrips kt e.1 := by
  intro e he
  obtain ⟨p, q, rfl⟩ := List.append_of_mem he
  have hops : puts (p ++ e :: q) = puts p ++ .set e.1 e.2 :: puts q := by simp [puts]
  have hlands := hl.at hops
  exact hlands.1

theorem disjoint_encoded (hdis : ∀ e ∈ editsA, ∀ e' ∈ editsB, e.1 ≠ e'.1)
    (hA : ∀ e ∈ editsA, RoundTrips kt e.1) (hB : ∀ e ∈ editsB, RoundTrips kt e.1) :
    ∀ kb ∈ (editsA.map encEntry).map Prod.fst, kb ∉ (editsB.map encEntry).map Prod.fst := by
  simp only [List.mem_map, exists_exists_and_eq_and, encEntry]
  rintro _ ⟨e, he, rfl⟩ ⟨e', he', heq⟩
  exact hdis e he e' he' ((serialize_eq_iff (hA e he).1 (hB e' he').1).1 heq.symm)

/-- Puts that land well: the merged root is the root of serial execution exactly when the merge gives up, or is
tidy and exact. -/
theorem mergeIsSerial_iff_of_landWell (hK : Told K) (hC : Stored kv kt vt base C) (hkC : C.KeysIn kt K)
    (hkeysA : ∀ e ∈ editsA, e.1 ∈ K) (hkeysB : ∀ e ∈ editsB, e.1 ∈ K)
    (hdis : ∀ e ∈ editsA, ∀ e' ∈ editsB, e.1 ≠ e'.1) (hland : PutsLandWell kt vt kv base editsA editsB)
    (hst : Storable kv (forkCells kt vt kv base (puts editsA) (puts editsB)))
    (hcells : ∀ r ∈ mergeThreeWay (fork kt vt kv base (puts editsA) (puts editsB)).a
        (fork kt vt kv base (puts editsA) (puts editsB)).b base
        (fork kt vt kv base (puts editsA) (puts editsB)).kv kt vt,
      Storable (fork kt vt kv base (puts editsA) (puts editsB)).kv
        (r.newCells ++ logCells (serialRun kt vt kv base editsA editsB).1.nodeLog)) :
    MergeIsSerial kt vt kv base editsA editsB ↔
      HTree.Stuck (sameBytes vt) (C.applyAll (puts editsA)) (C.applyAll (puts editsB)) C ∨
        (HTree.Tidy slotOf maxLevels (C.applyAll (puts editsA)) (C.applyAll (puts editsB)) C 0 ∧
          HTree.Exact (sameBytes vt) (fun kb => C.lookup slotOf 0 kb) (C.applyAll (puts editsA))
            (C.applyAll (puts editsB)) C) := by
  obtain ⟨hA, hB, hS⟩ := hland
  obtain ⟨hsA, hsB, hsC, -, hkB⟩ := fork_stored hC hK hkC (key_mem_puts hkeysA) (key_mem_puts hkeysB) hA hB hst
  have hspec := mergeThreeWay_eq hsA hsB hsC fun r hr =>
    (hcells r hr).mono fun c hc => List.mem_append_left _ hc
  cases hm : HTree.merge (mergeEntries (sameBytes vt)) (C.applyAll (puts editsA)) (C.applyAll (puts editsB)) C with
  | none =>
    rw [hm] at hspec
    refine iff_of_true (fun r hr => ?_) (.inl (HTree.merge_eq_none_iff.1 hm))
    rw [show mergeThreeWay _ _ _ _ kt vt = none from hspec] at hr
    cases hr
  | some M =>
    rw [hm] at hspec
    obtain ⟨r, hr, hM⟩ := hspec
    have hnot : ¬ HTree.Stuck (sameBytes vt) (C.applyAll (puts editsA)) (C.applyAll (puts editsB)) C := fun h => by
      rw [HTree.merge_eq_none_iff.2 h] at hm
      cases hm
    have hst' := hcells r hr
    have hright : ∀ c ∈ logCells (serialRun kt vt kv base editsA editsB).1.nodeLog,
        c ∈ r.newCells ++ logCells (serialRun kt vt kv base editsA editsB).1.nodeLog :=
      fun c hc => List.mem_append_right _ hc
    obtain ⟨hsS, -⟩ := calls_stored hsB hK hkB (key_mem_puts hkeysA) hS hst' hright
    -- both roots belong to tries of one store, so the roots are the same when the tries are
    have hroots : MergeIsSerial kt vt kv base editsA editsB ↔
        M = (C.applyAll (puts editsB)).applyAll (puts editsA) := by
      have hMheld : Trie.Held (nodeAt (storeCells (fork kt vt kv base (puts editsA) (puts editsB)).kv
          (r.newCells ++ logCells (serialRun kt vt kv base editsA editsB).1.nodeLog))) M :=
        fun e he => ⟨(hM.held e he).1, hst'.nodeAt_append (hM.held e he).2⟩
      constructor
      · intro h
        refine hMheld.ext hsS.held hM.fits hsS.fits ?_
        rw [← hM.root_eq, ← hsS.root_eq]
        exact h r hr
      · intro h r' hr'
        obtain rfl : r = r' := Option.some.inj (hr.symm.trans hr')
        rw [hM.root_eq, h]
        exact hsS.root_eq.symm
    have hlA := allLand_puts hC hK hkC hkeysA hA hst fun c hc => by
      rw [forkCells, logCells, List.map_append]
      exact List.mem_append_left _ hc
    have hlB := allLand_puts hC hK hkC hkeysB hB hst fun c hc => by
      rw [forkCells, logCells, List.map_append]
      exact List.mem_append_right _ hc
    have hlS := allLand_puts hsB hK hkB hkeysA hS hst' hright
    have hself : C.ext slotOf maxLevels 0 (sortKeys C.entries) = C := HTree.ext_self hC.wf
    have hhas : ∀ k, C.Has k → k ∈ (sortKeys C.entries).map Prod.fst := by
      rintro k ⟨v, hv⟩
      exact List.mem_map.2 ⟨(k, v), mem_sortKeys.2 hv, rfl⟩
    obtain ⟨ea, hsea, hsuba, heqa⟩ := exists_ext_puts hC.wf hC.wf.sorted_entries hhas hself hlA
    obtain ⟨eb, hseb, hsubb, heqb⟩ := exists_ext_puts hC.wf hC.wf.sorted_entries hhas hself hlB
    rw [← applyAll_puts] at heqa heqb
    obtain ⟨es, hses, hsubs, heqs⟩ := exists_ext_puts hC.wf hseb hsubb heqb hlS
    rw [← applyAll_puts] at heqs
    have hchanged := @changed_of_disjoint C (C.applyAll (puts editsA)) (C.applyAll (puts editsB))
      ((C.applyAll (puts editsB)).applyAll (puts editsA)) _ _
      (disjoint_encoded hdis (roundTrips_of_puts hA) (roundTrips_of_puts hB))
      (fun kb => by rw [applyAll_puts]; exact lookup_foldl_insert hC.wf hlA kb)
      (fun kb => by rw [applyAll_puts]; exact lookup_foldl_insert hC.wf hlB kb)
      (fun kb => by rw [applyAll_puts _ editsA]; exact lookup_foldl_insert hsB.wf hlS kb)
    rw [hroots, or_iff_right hnot]
    exact HTree.Grown.merge_eq_iff (sameBytes_equivalence vt)
      ⟨hsA.wf, hsB.wf, hC.wf, hsea, hseb, heqa, heqb, hsuba, hsubb⟩ hm
      ⟨hsS.wf, hsB.wf, hC.wf, hses, hseb, heqs, heqb, hsubs, hsubb⟩ hchanged

/-- **When merging is serial execution.** Two transactions put keys below one base root, no key in both. The merged
root is the root of serial execution exactly when there is nothing to merge, the merge gives up, or it is tidy and
exact. -/
theorem merge_eq_serial_iff (hK : Told K) (hC : Stored kv kt vt base C) (hkC : C.KeysIn kt K)
    (hkeysA : ∀ e ∈ editsA, e.1 ∈ K) (hkeysB : ∀ e ∈ editsB, e.1 ∈ K)
    (hdis : ∀ e ∈ editsA, ∀ e' ∈ editsB, e.1 ≠ e'.1)
    (hround : ∀ e ∈ editsA, RoundTrips kt e.1 ∧ RoundTrips vt e.2)
    (hland : ¬ OneSided kt vt kv base editsA editsB → PutsLandWell kt vt kv base editsA editsB)
    (hst : Storable kv (forkCells kt vt kv base (puts editsA) (puts editsB)))
    (hcells : ∀ r ∈ mergeThreeWay (fork kt vt kv base (puts editsA) (puts editsB)).a
        (fork kt vt kv base (puts editsA) (puts editsB)).b base
        (fork kt vt kv base (puts editsA) (puts editsB)).kv kt vt,
      Storable (fork kt vt kv base (puts editsA) (puts editsB)).kv
        (r.newCells ++ logCells (serialRun kt vt kv base editsA editsB).1.nodeLog)) :
    MergeIsSerial kt vt kv base editsA editsB ↔
      OneSided kt vt kv base editsA editsB ∨
      HTree.Stuck (sameBytes vt) (C.applyAll (puts editsA)) (C.applyAll (puts editsB)) C ∨
        (HTree.Tidy slotOf maxLevels (C.applyAll (puts editsA)) (C.applyAll (puts editsB)) C 0 ∧
          HTree.Exact (sameBytes vt) (fun kb => C.lookup slotOf 0 kb) (C.applyAll (puts editsA))
            (C.applyAll (puts editsB)) C) := by
  by_cases hone : OneSided kt vt kv base editsA editsB
  · exact iff_of_true (mergeIsSerial_of_oneSided hC hround hst hcells hone) (.inl hone)
  · rw [or_iff_right hone]
    exact mergeIsSerial_iff_of_landWell hK hC hkC hkeysA hkeysB hdis (hland hone) hst hcells

end MergeSerial

/-- A map of two keys, in a store. -/
def twoKeys : Fork :=
  fork .int .int (fun _ => none) emptyRoot (puts [(.int 0, .int 10), (.int 1, .int 11)]) []

/-- Over a map of two keys, each side changes one: the merge is tidy and exact. -/
theorem merge_eq_serial_two : ∃ C : Trie, Stored twoKeys.kv .int .int twoKeys.a C ∧
    MergeIsSerial .int .int twoKeys.kv twoKeys.a [(.int 0, .int 20)] [(.int 1, .int 21)] ∧
    (OneSided .int .int twoKeys.kv twoKeys.a [(.int 0, .int 20)] [(.int 1, .int 21)] ∨
      HTree.Stuck (sameBytes .int) (C.applyAll (puts [(.int 0, .int 20)]))
        (C.applyAll (puts [(.int 1, .int 21)])) C ∨
      (HTree.Tidy slotOf maxLevels (C.applyAll (puts [(.int 0, .int 20)]))
        (C.applyAll (puts [(.int 1, .int 21)])) C 0 ∧
      HTree.Exact (sameBytes .int) (fun kb => C.lookup slotOf 0 kb) (C.applyAll (puts [(.int 0, .int 20)]))
        (C.applyAll (puts [(.int 1, .int 21)])) C)) := by
  have h₀ := @fork_stored .int .int _ (fun _ => none) emptyRoot .empty (stored_empty _) told_atomic
    (keysIn_empty _) (puts [(.int 0, .int 10), (.int 1, .int 11)]) [] (by decide) (by decide) (by decide +kernel)
    (by decide +kernel) (storable_of_list (by decide +kernel))
  have hserial : MergeIsSerial .int .int twoKeys.kv twoKeys.a [(.int 0, .int 20)]
      [(.int 1, .int 21)] := by
    change ∀ r ∈ mergeThreeWay _ _ _ _ .int .int, _
    decide +kernel
  have hland : PutsLandWell .int .int twoKeys.kv twoKeys.a [(.int 0, .int 20)] [(.int 1, .int 21)] :=
    ⟨by decide +kernel, by decide +kernel, by decide +kernel⟩
  refine ⟨_, h₀.a, hserial, (merge_eq_serial_iff told_atomic h₀.a h₀.keysA (by decide) (by decide) (by decide)
    (by decide +kernel) (fun _ => hland) (storable_of_list (by decide +kernel)) fun r hr =>
      storable_of_list ?_).1 hserial⟩
  revert r
  decide +kernel

/-- **A merge need not be serial execution.** Into an empty map one side puts `0` and the other `1`: the
merge makes one leaf of both, serial execution an inner node. -/
theorem merge_ne_serial :
    Stored (fun _ => none) .int .int emptyRoot .empty ∧
    (∀ e ∈ [(Value.int 0, Value.int 10)], ∀ e' ∈ [(Value.int 1, Value.int 11)], e.1 ≠ e'.1) ∧
    PutsLandWell .int .int (fun _ => none) emptyRoot [(.int 0, .int 10)] [(.int 1, .int 11)] ∧
    Storable (fun _ => none)
      (forkCells .int .int (fun _ => none) emptyRoot (puts [(.int 0, .int 10)]) (puts [(.int 1, .int 11)])) ∧
    ¬ MergeIsSerial .int .int (fun _ => none) emptyRoot [(.int 0, .int 10)] [(.int 1, .int 11)] := by
  refine ⟨stored_empty _, by decide, ⟨by decide +kernel, by decide +kernel, by decide +kernel⟩,
    storable_of_list (by decide +kernel), fun h => ?_⟩
  have hne : (mergeThreeWay
      (fork .int .int (fun _ => none) emptyRoot (puts [(.int 0, .int 10)]) (puts [(.int 1, .int 11)])).a
      (fork .int .int (fun _ => none) emptyRoot (puts [(.int 0, .int 10)]) (puts [(.int 1, .int 11)])).b
      emptyRoot
      (fork .int .int (fun _ => none) emptyRoot (puts [(.int 0, .int 10)]) (puts [(.int 1, .int 11)])).kv
      .int .int).map (fun r => decide (r.root =
        (serialRun .int .int (fun _ => none) emptyRoot [(.int 0, .int 10)] [(.int 1, .int 11)]).2)) =
      some false := by decide +kernel
  obtain ⟨r, hr, hroot⟩ := Option.map_eq_some_iff.1 hne
  exact absurd (h r hr) (of_decide_eq_false hroot)

end Rend.Pmap
