import Rend.Rocks.Exec

/-!
# No dangling nodes

A history of a namespace starts empty and grows by batches of jobs, each of which was executed against
some earlier store. `no_dangling` shows that every node below a root in a state cell is in the store
and decodes, at every moment of a history whose insertions read back. A map whose values do not
read back breaks this: nothing stops a program from keeping a set in a map, and the leaf that is
written for it does not decode (`leaf_does_not_decode`).

The invariant is `StoreInv`: the store holds every node in reach, and the root in each state cell is
sound for them.
-/

namespace Rend.Rocks

open Lib Pmap Tx

/-- The cells below a root, as its nodes lead to them. -/
inductive Reach (kv : Kv) (kt vt : Ty) (root : U128) : U128 → Prop
  | root (h : root ≠ emptyRoot) : Reach kv kt vt root root
  | child {h c : U128} {bitmap : BitVec 32} {children : List U128} (hr : Reach kv kt vt root h)
      (hn : readNodeKv kv h kt vt = some (.inner bitmap children)) (hc : c ∈ children) : Reach kv kt vt root c

/-- Every node below the root in a state cell is in the store and decodes. -/
def NoDangling (schema : U128 → Option (Ty × Ty)) (kv : Kv) : Prop :=
  ∀ c kt vt, schema c = some (kt, vt) → ∀ h, Reach kv kt vt (liveRoot (kv c) kt vt) h →
    (readNodeKv kv h kt vt).isSome

/-- What a job takes from its transaction. -/
def jobOf (tx : Tx) : CommitJob := ⟨tx.reads, tx.writes, tx.pmapTypes⟩

/-- The job of a run against this store. -/
def Executed (Λ : Layout) (P : Ty → Ty → Value → Value → Prop) (kv : Kv) (job : CommitJob) : Prop :=
  ∃ tx rs, Exec Λ P (Tx.new kv, []) (tx, rs) ∧ job = jobOf tx

/-- The nodes the merges of these jobs make. -/
def mergedCells (ns : NamespaceId) : Db → List CommitJob → NewCells
  | _, [] => []
  | db, job :: jobs =>
    ((validateReads (namespaceView db ns) ∅ job job.reads.entries (job.writes, [])).elim [] Prod.snd) ++
      mergedCells ns (commitWithOcc db ns job).1 jobs

/-- The states of a namespace, the last one first: it is empty at first, and grows by batches. -/
inductive History (Λ : Layout) (P : Ty → Ty → Value → Value → Prop) (ns : NamespaceId) : List Db → Prop
  | start {db : Db} (h : ∀ c, namespaceView db ns c = none) : History Λ P ns [db]
  | batch {db : Db} {past : List Db} (h : History Λ P ns (db :: past)) {jobs : List CommitJob}
      (hjobs : ∀ job ∈ jobs, ∃ old ∈ db :: past, Executed Λ P (namespaceView old ns) job)
      (hn : ∀ c ∈ mergedCells ns db jobs, c.2 ∈ Λ.nodes) :
      History Λ P ns ((commitBatch db ns jobs).1 :: db :: past)

/-! ### Stores -/

/-- The store holds the nodes in reach, and its roots are sound for them. -/
structure StoreInv (Λ : Layout) (K : Set Bytes) (kv : Kv) : Prop where
  nodes : K ⊆ Λ.nodes
  kept : Kept K kv
  sound : ∀ c kt vt, Λ.schema c = some (kt, vt) → Sound K kt vt (liveRoot (kv c) kt vt)

variable {Λ : Layout} {K : Set Bytes} {kv : Kv}

theorem storeInv_empty (h : ∀ c, kv c = none) : StoreInv Λ ∅ kv :=
  ⟨Set.empty_subset _, by simp [Kept], fun c kt vt _ => by rw [h, liveRoot]; exact sound_empty ∅⟩

/-- The cells below the root of a held trie are the roots of its parts. -/
theorem Reach.part {kt vt : Ty} {T : Trie} (hT : T.Held (nodeAt kv)) (hf : T.Fits kt vt) {h : U128}
    (hr : Reach kv kt vt T.hash h) :
    ∃ T' : Trie, T' ≠ .empty ∧ h = T'.hash ∧ T'.Held (nodeAt kv) ∧ T'.Fits kt vt := by
  induction hr with
  | root hne => exact ⟨T, fun he => hne (by rw [he]; rfl), rfl, hT, hf⟩
  | child _ hn hc ih =>
    obtain ⟨T', hne, rfl, hheld, hfits⟩ := ih
    rw [readNodeKv_of_held hheld hne] at hn
    cases T' with
    | empty => exact absurd rfl hne
    | leaf es =>
      rw [Trie.deserializeNode_enc_leaf hfits] at hn
      cases hn
    | inner kids =>
      rw [Trie.deserializeNode_enc_inner, Option.some.injEq, Node.inner.injEq] at hn
      rw [← hn.2, dense, List.mem_filterMap] at hc
      obtain ⟨s, -, hs⟩ := hc
      have hkid : kids s ≠ .empty := Trie.link_isSome_iff.1 (by rw [hs]; rfl)
      rw [Trie.link_of_ne_empty hkid, Option.some.injEq] at hs
      exact ⟨kids s, hkid, hs.symm, hheld.kid s, hfits.2 s⟩

theorem StoreInv.noDangling (h : StoreInv Λ K kv) : NoDangling Λ.schema kv := by
  intro c kt vt hc r hr
  obtain ⟨T, hroot, hfits, -, henc⟩ := h.sound c kt vt hc
  have hK := Λ.keepable.anti h.nodes
  have hheld : T.Held (nodeAt kv) := fun e he => ⟨hK.ne_empty e (henc e he), h.kept e (henc e he)⟩
  rw [hroot] at hr
  obtain ⟨T', hne, rfl, hheld', hfits'⟩ := hr.part hheld hfits
  rw [readNodeKv_of_held hheld' hne]
  cases T' with
  | empty => exact absurd rfl hne
  | leaf es =>
    rw [Trie.deserializeNode_enc_leaf hfits']
    rfl
  | inner kids =>
    rw [Trie.deserializeNode_enc_inner]
    rfl

/-- A transaction over a store with sound roots starts well. -/
theorem StoreInv.txInv (h : StoreInv Λ K kv) : TxInv Λ (K ∪ logged (Tx.new kv)) (Tx.new kv) := by
  have hlog : K ∪ logged (Tx.new kv) = K := by simp [logged, Tx.new]
  rw [hlog]
  refine ⟨h.nodes, ⟨by simp [Tx.handles, Tx.new], by simp [Tx.handles, Tx.new]⟩, fun e he => shows_new (h.kept e he),
    by simp [Tx.new], by simp [Tx.new], by simp [Tx.new], ?_, h.sound, by simp [Tx.new]⟩
  intro c kt vt _ v hv
  rcases hv with hv | hv | hv <;> cases hv

/-! ### Jobs -/

/-- What a job brings: `J` are the nodes it has written. Its roots are sound for these and for the nodes
that were in reach when it was executed. -/
structure JobInv (Λ : Layout) (K J : Set Bytes) (job : CommitJob) : Prop where
  nodes : J ⊆ Λ.nodes
  log : ∀ e ∈ J, job.writes.lookup (nodeCellKey e) = some (.bytes e)
  written : ∀ c v, job.writes.lookup c = some v → Λ.NodeCell c →
    ∃ e ∈ Λ.nodes, nodeCellKey e = c ∧ v = .bytes e
  roots : ∀ c kt vt, Λ.schema c = some (kt, vt) → ∀ v, (job.writes.lookup c = some v ∨
    job.reads.lookup c = some v) → RootValue (K ∪ J) kt vt v
  types : ∀ c t, job.pmapTypes.lookup c = some t → Λ.schema c = some t

theorem Executed.jobInv {job : CommitJob} (h : Executed Λ ReadsBack kv job) (hkv : StoreInv Λ K kv) :
    ∃ J, JobInv Λ K J job := by
  obtain ⟨tx, rs, hexec, rfl⟩ := h
  obtain ⟨hi, -⟩ := hexec.inv hkv.txInv fun r hr => by cases hr
  refine ⟨logged tx, fun e he => hi.nodes (.inr he), fun e he => (hi.log e he).2, ?_, ?_, hi.types⟩
  · intro c v hv hc
    obtain ⟨e, he, hec⟩ := hi.written c v hv hc
    exact ⟨e, hi.nodes he, hec⟩
  · exact fun c kt vt hc v hv => hi.roots c kt vt hc v (hv.imp_right .inl)

theorem JobInv.mono {K' J : Set Bytes} {job : CommitJob} (h : JobInv Λ K J job) (hK : K ⊆ K') :
    JobInv Λ K' J job :=
  { h with roots := fun c kt vt hc v hv => (h.roots c kt vt hc v hv).mono (Set.union_subset_union_left J hK) }

variable {J : Set Bytes} {job : CommitJob}

theorem nodeAt_of_bytes {c : U128} {e : Bytes} (he : e.length < 2 ^ 32)
    (h : kv c = some (serialize (.bytes e))) : nodeAt kv c = some e := by
  rw [nodeAt, h, Option.bind_some, deserialize_serialize_bytes he]
  rfl

/-- Writes that put nodes only at their own cells, over a store that holds the nodes in reach. -/
theorem kept_overlaid {writes : Cells} (hkept : Kept K kv) (hK : K ⊆ Λ.nodes) (hJ : J ⊆ Λ.nodes)
    (hlog : ∀ e ∈ J, writes.lookup (nodeCellKey e) ≠ none)
    (hwritten : ∀ c v, writes.lookup c = some v → Λ.NodeCell c →
      ∃ e ∈ Λ.nodes, nodeCellKey e = c ∧ v = .bytes e) : Kept (K ∪ J) (overlaid writes kv) := by
  intro e he
  have heN : e ∈ Λ.nodes := he.elim (hK ·) (hJ ·)
  cases hw : writes.lookup (nodeCellKey e) with
  | some v =>
    obtain ⟨e', he', hec, rfl⟩ := hwritten _ v hw ⟨e, heN, rfl⟩
    obtain rfl := Layout.node_inj he' heN hec
    exact nodeAt_of_bytes (Λ.keepable.small e' he') (by rw [overlaid, hw])
  | none =>
    rcases he with he | he
    · rw [nodeAt, overlaid, hw]
      exact hkept e he
    · exact absurd hw (hlog e he)

/-- The nodes of new cells. -/
def cellNodes (cells : NewCells) : Set Bytes := {e | ∃ c ∈ cells, c.2 = e}

/-- What validation has made of a job so far: its writes, with sound roots in place of some, and the
nodes of the merges. `rest` are the reads to come. -/
structure AccInv (Λ : Layout) (K J : Set Bytes) (job : CommitJob)
    (rest : List (Sigma fun _ : U128 => Value)) (acc : Cells × NewCells) : Prop where
  cells : ∀ c ∈ acc.2, c.1 = nodeCellKey c.2
  writes : ∀ c, acc.1.lookup c = job.writes.lookup c ∨ (c ∉ rest.keys ∧ ∃ kt vt h,
    Λ.schema c = some (kt, vt) ∧ acc.1.lookup c = some (.pmap h) ∧ Sound (K ∪ J ∪ cellNodes acc.2) kt vt h)

theorem validateReads_cells {disk : Kv} {overlay : Cells} {reads : List (Sigma fun _ : U128 => Value)}
    {acc acc' : Cells × NewCells} (h : validateReads disk overlay job reads acc = some acc') :
    ∀ c ∈ acc.2, c ∈ acc'.2 := by
  induction reads generalizing acc with
  | nil =>
    cases h
    exact fun c hc => hc
  | cons r reads ih =>
    rw [validateReads] at h
    split_ifs at h
    · exact ih h
    · cases hm : mergeRead disk overlay job acc.1 r.1 r.2 with
      | none =>
        rw [hm] at h
        cases h
      | some merged =>
        rw [hm] at h
        exact fun c hc => ih h c (List.mem_append_left _ hc)

/-- The merge of one read leads to a sound root. -/
theorem mergeRead_sound (hkv : StoreInv Λ K kv) (hjob : JobInv Λ K J job) {localWrites : Cells} {cell : U128}
    {expected : Value} (hread : job.reads.lookup cell = some expected)
    (hwrite : localWrites.lookup cell = job.writes.lookup cell) {merged : MergeResult}
    (h : mergeRead kv ∅ job localWrites cell expected = some merged) :
    ∃ kt vt, Λ.schema cell = some (kt, vt) ∧ (∀ c ∈ merged.newCells, c.1 = nodeCellKey c.2) ∧
      (cellNodes merged.newCells ⊆ Λ.nodes →
        Sound (K ∪ J ∪ cellNodes merged.newCells) kt vt merged.root) := by
  unfold mergeRead at h
  split at h
  · next kt vt ancestorRoot ourRoot htypes hours =>
    have hc := hjob.types cell _ htypes
    have hsub : K ∪ J ⊆ Λ.nodes := Set.union_subset hkv.nodes hjob.nodes
    have hroot : ∀ {r : U128}, (job.writes.lookup cell = some (.pmap r) ∨
        job.reads.lookup cell = some (.pmap r)) → Sound (K ∪ J) kt vt r :=
      fun hr => (hjob.roots cell kt vt hc _ hr).sound
    have hkept : Kept (K ∪ J) (mergeKv kv job.writes ∅) :=
      kept_overlaid hkv.kept hkv.nodes hjob.nodes (fun e he => by rw [hjob.log e he]; simp) hjob.written
    obtain ⟨hcells, hsound⟩ := Sound.merge (hroot (.inl (hwrite ▸ hours)))
      ((hkv.sound cell kt vt hc).mono Set.subset_union_left) (hroot (.inr hread))
      (Λ.keepable.anti hsub) hkept h
    exact ⟨kt, vt, hc, hcells, fun hn => hsound (Λ.keepable.anti hn)⟩
  · cases h

/-- **The loop over the reads** keeps the invariant. -/
theorem AccInv.validateReads (hkv : StoreInv Λ K kv) (hjob : JobInv Λ K J job)
    {reads : List (Sigma fun _ : U128 => Value)} (hnd : reads.NodupKeys)
    (hreads : ∀ r ∈ reads, job.reads.lookup r.1 = some r.2) {acc acc' : Cells × NewCells}
    (hacc : AccInv Λ K J job reads acc) (h : validateReads kv ∅ job reads acc = some acc')
    (hn : cellNodes acc'.2 ⊆ Λ.nodes) : AccInv Λ K J job [] acc' := by
  induction reads generalizing acc with
  | nil =>
    cases h
    exact hacc
  | cons r reads ih =>
    rw [List.nodupKeys_cons] at hnd
    have hreads' : ∀ r ∈ reads, job.reads.lookup r.1 = some r.2 :=
      fun r hr => hreads r (List.mem_cons_of_mem _ hr)
    have hkeys : ∀ {c}, c ∉ List.keys (r :: reads) → c ∉ reads.keys :=
      fun hc hmem => hc (List.mem_cons_of_mem _ hmem)
    rw [Rocks.validateReads] at h
    split_ifs at h
    · exact ih hnd.2 hreads' ⟨hacc.cells, fun c => (hacc.writes c).imp_right (And.imp_left hkeys)⟩ h
    · cases hm : mergeRead kv ∅ job acc.1 r.1 r.2 with
      | none =>
        rw [hm] at h
        cases h
      | some merged =>
        rw [hm] at h
        have hwrite : acc.1.lookup r.1 = job.writes.lookup r.1 :=
          (hacc.writes r.1).resolve_right fun hc => hc.1 (List.mem_cons_self ..)
        obtain ⟨kt, vt, hc, hcells, hsound⟩ :=
          mergeRead_sound hkv hjob (hreads r (List.mem_cons_self ..)) hwrite hm
        have hnew : cellNodes merged.newCells ⊆ cellNodes (acc.2 ++ merged.newCells) :=
          fun e ⟨c, hc, hce⟩ => ⟨c, List.mem_append_right _ hc, hce⟩
        have hold : cellNodes acc.2 ⊆ cellNodes (acc.2 ++ merged.newCells) :=
          fun e ⟨c, hc, hce⟩ => ⟨c, List.mem_append_left _ hc, hce⟩
        have hfinal : cellNodes (acc.2 ++ merged.newCells) ⊆ cellNodes acc'.2 :=
          fun e ⟨c, hc, hce⟩ => ⟨c, validateReads_cells h c hc, hce⟩
        refine ih hnd.2 hreads' ⟨fun c hc => ?_, fun c => ?_⟩ h
        · exact (List.mem_append.1 hc).elim (hacc.cells c) (hcells c)
        · by_cases hcr : c = r.1
          · subst hcr
            refine .inr ⟨hnd.1, kt, vt, merged.root, hc, AList.lookup_insert _, ?_⟩
            exact (hsound ((hnew.trans hfinal).trans hn)).mono (Set.union_subset_union_right _ hnew)
          · rw [AList.lookup_insert_ne hcr]
            refine (hacc.writes c).imp_right fun ⟨hk, kt, vt, h', hs, hl, hsound⟩ => ⟨hkeys hk, kt, vt, h', hs, hl, ?_⟩
            exact hsound.mono (Set.union_subset_union_right _ hold)

/-! ### Commits -/

theorem liveRoot_serialize {K : Set Bytes} {kt vt : Ty} {v : Value} (h : RootValue K kt vt v) :
    Sound K kt vt (liveRoot (some (serialize v)) kt vt) := by
  rcases h with ⟨r, rfl, hr⟩ | ⟨b, rfl⟩
  · have hd : deserialize (.pmap kt vt) (serialize (.pmap r)) = some (.pmap r) := by
      simp [deserialize, serialize, payload, exactWord, ofBeBytes_wordBytes]
    rw [liveRoot, Option.bind_some, hd]
    exact hr
  · have hd : deserialize (.pmap kt vt) (serialize (.bytes b)) = none := by
      simp [deserialize, serialize, payload, tagBytes, tagPMap]
    rw [liveRoot, Option.bind_some, hd]
    exact sound_empty K

/-- What a committed job leaves behind. -/
theorem StoreInv.promote (hkv : StoreInv Λ K kv) (hjob : JobInv Λ K J job) {acc : Cells × NewCells}
    (hacc : AccInv Λ K J job [] acc) (hn : cellNodes acc.2 ⊆ Λ.nodes) :
    StoreInv Λ (K ∪ J ∪ cellNodes acc.2) (promoteKv kv acc) := by
  have hwritten : ∀ c v, acc.1.lookup c = some v → Λ.NodeCell c →
      ∃ e ∈ Λ.nodes, nodeCellKey e = c ∧ v = .bytes e := by
    intro c v hv hc
    rcases hacc.writes c with he | ⟨-, kt, vt, h, hs, -⟩
    · exact hjob.written c v (he ▸ hv) hc
    · obtain ⟨e, he, rfl⟩ := hc
      rw [Λ.apart e he] at hs
      cases hs
  have hlog : ∀ e ∈ J, acc.1.lookup (nodeCellKey e) ≠ none := by
    intro e he hnone
    rcases hacc.writes (nodeCellKey e) with heq | ⟨-, kt, vt, h, -, hl, -⟩
    · rw [hnone, hjob.log e he] at heq
      cases heq
    · rw [hnone] at hl
      cases hl
  have hkept := kept_overlaid hkv.kept hkv.nodes hjob.nodes hlog hwritten
  rw [promoteKv_eq]
  refine ⟨Set.union_subset (Set.union_subset hkv.nodes hjob.nodes) hn, fun e he => ?_, fun c kt vt hc => ?_⟩
  · by_cases hmem : nodeCellKey e ∈ acc.2.map Prod.fst
    · have heN : e ∈ Λ.nodes := he.elim (fun he => he.elim (hkv.nodes ·) (hjob.nodes ·)) (hn ·)
      obtain ⟨bs, hbs, hget⟩ := @storeCells_mem (overlaid acc.1 kv) acc.2 (nodeCellKey e) hmem
      have hbsN : bs ∈ Λ.nodes := hn ⟨_, hbs, rfl⟩
      obtain rfl := Layout.node_inj hbsN heN (hacc.cells _ hbs).symm
      exact nodeAt_of_bytes (Λ.keepable.small bs hbsN) hget
    · rw [nodeAt, storeCells_of_not_mem hmem]
      rcases he with he | ⟨c, hc, rfl⟩
      · exact hkept e he
      · exact absurd (List.mem_map.2 ⟨c, hc, hacc.cells c hc⟩) hmem
  · have hmem : c ∉ acc.2.map Prod.fst := by
      intro hmem
      obtain ⟨d, hd, rfl⟩ := List.mem_map.1 hmem
      rw [hacc.cells d hd, Λ.apart d.2 (hn ⟨d, hd, rfl⟩)] at hc
      cases hc
    rw [storeCells_of_not_mem hmem, overlaid]
    cases hw : acc.1.lookup c with
    | none => exact (hkv.sound c kt vt hc).mono (Set.subset_union_left.trans Set.subset_union_left)
    | some v =>
      refine liveRoot_serialize ?_
      rcases hacc.writes c with heq | ⟨-, kt', vt', h, hs, hl, hsound⟩
      · exact (hjob.roots c kt vt hc v (.inl (heq ▸ hw))).mono Set.subset_union_left
      · rw [hw] at hl
        rw [hc] at hs
        cases hl
        cases hs
        exact .inl ⟨h, rfl, hsound⟩

/-- One commit leads from a store with sound roots to another. -/
theorem StoreInv.commit {db : Db} {ns : NamespaceId} (hkv : StoreInv Λ K (namespaceView db ns))
    (hjob : JobInv Λ K J job)
    (hn : ∀ c ∈ (validateReads (namespaceView db ns) ∅ job job.reads.entries (job.writes, [])).elim [] Prod.snd,
      c.2 ∈ Λ.nodes) :
    ∃ K', K ⊆ K' ∧ StoreInv Λ K' (namespaceView (commitWithOcc db ns job).1 ns) := by
  rw [commitWithOcc_eq, validateAndApplyJob]
  cases hv : validateReads (namespaceView db ns) ∅ job job.reads.entries (job.writes, []) with
  | none => exact ⟨K, subset_rfl, hkv⟩
  | some acc =>
    rw [hv] at hn
    have hn' : cellNodes acc.2 ⊆ Λ.nodes := fun e ⟨c, hc, hce⟩ => hce ▸ hn c hc
    have hstart : AccInv Λ K J job job.reads.entries (job.writes, []) := ⟨by simp, fun _ => .inl rfl⟩
    have hreads : ∀ r ∈ job.reads.entries, job.reads.lookup r.1 = some r.2 :=
      fun r hr => AList.mem_lookup_iff.2 hr
    have hacc := hstart.validateReads hkv hjob job.reads.nodupKeys hreads hv hn'
    refine ⟨K ∪ J ∪ cellNodes acc.2, Set.subset_union_left.trans Set.subset_union_left, ?_⟩
    rw [Option.map_some]
    dsimp only
    rw [namespaceView_flush, overlaid_promote, overlaid_empty]
    exact hkv.promote hjob hacc hn'

/-- So does a list of commits. -/
theorem StoreInv.commitEach {ns : NamespaceId} (jobs : List CommitJob) {db : Db}
    (hkv : StoreInv Λ K (namespaceView db ns)) (hjobs : ∀ job ∈ jobs, ∃ J, JobInv Λ K J job)
    (hn : ∀ c ∈ mergedCells ns db jobs, c.2 ∈ Λ.nodes) :
    ∃ K', K ⊆ K' ∧ StoreInv Λ K' (namespaceView (commitEach ns db jobs).1 ns) := by
  induction jobs generalizing db K with
  | nil => exact ⟨K, subset_rfl, hkv⟩
  | cons job jobs ih =>
    obtain ⟨J, hJ⟩ := hjobs job (List.mem_cons_self ..)
    obtain ⟨K₁, hK₁, hkv₁⟩ := hkv.commit hJ fun c hc => hn c (List.mem_append_left _ hc)
    obtain ⟨K₂, hK₂, hkv₂⟩ := ih hkv₁ (fun job' hj => by
      obtain ⟨J', hJ'⟩ := hjobs job' (List.mem_cons_of_mem _ hj)
      exact ⟨J', hJ'.mono hK₁⟩) fun c hc => hn c (List.mem_append_right _ hc)
    exact ⟨K₂, hK₁.trans hK₂, hkv₂⟩

/-! ### Histories -/

/-- Every state of a history has sound roots, over nodes that are all in reach of the last one. -/
theorem History.storeInv {ns : NamespaceId} {dbs : List Db} (h : History Λ ReadsBack ns dbs) :
    ∃ K, (∀ db ∈ dbs, ∃ K₀ ⊆ K, StoreInv Λ K₀ (namespaceView db ns)) ∧
      ∀ db, dbs.head? = some db → StoreInv Λ K (namespaceView db ns) := by
  induction h with
  | start hdb =>
    refine ⟨∅, fun db hmem => ⟨∅, subset_rfl, ?_⟩, fun db hd => ?_⟩
    · rw [List.mem_singleton.1 hmem]
      exact storeInv_empty hdb
    · cases hd
      exact storeInv_empty hdb
  | @batch db past h jobs hjobs hn ih =>
    obtain ⟨K, hall, hlast⟩ := ih
    have hkv := hlast db rfl
    have hexec : ∀ job ∈ jobs, ∃ J, JobInv Λ K J job := by
      intro job hj
      obtain ⟨old, hold, hex⟩ := hjobs job hj
      obtain ⟨K₀, hK₀, hkv₀⟩ := hall old hold
      obtain ⟨J, hJ⟩ := hex.jobInv hkv₀
      exact ⟨J, hJ.mono hK₀⟩
    obtain ⟨K', hK', hkv'⟩ := hkv.commitEach jobs hexec hn
    rw [← (commitBatch_eq_commitEach db ns jobs)] at hkv'
    refine ⟨K', fun d hd => ?_, fun d hd => ?_⟩
    · rcases List.mem_cons.1 hd with rfl | hd
      · exact ⟨K', subset_rfl, hkv'⟩
      · obtain ⟨K₀, hK₀, hkv₀⟩ := hall d hd
        exact ⟨K₀, hK₀.trans hK', hkv₀⟩
    · cases hd
      exact hkv'

/-- **No dangling nodes.** In every history whose insertions read back, at every moment, each node below
a root in a state cell is in the store and decodes. -/
theorem no_dangling {ns : NamespaceId} {dbs : List Db} (h : History Λ ReadsBack ns dbs) :
    ∀ db ∈ dbs, NoDangling Λ.schema (namespaceView db ns) := by
  intro db hdb
  obtain ⟨K, hall, -⟩ := h.storeInv
  obtain ⟨K₀, -, hkv⟩ := hall db hdb
  exact hkv.noDangling

/-! ### Two namespaces -/

/-- A database without any cell. -/
def emptyDb : Db := fun _ => none

/-- Nodes told apart by evaluation, and apart from the cell of a root. -/
def ToldApart (cell : U128) (l : List Bytes) : Prop :=
  (∀ e ∈ l, nodeCellKey e ≠ emptyRoot ∧ e.length < 2 ^ 32 ∧ nodeCellKey e ≠ cell) ∧
    ∀ e ∈ l, ∀ e' ∈ l, nodeCellKey e = nodeCellKey e' → e = e'

instance (cell : U128) (l : List Bytes) : Decidable (ToldApart cell l) :=
  inferInstanceAs (Decidable (_ ∧ _))

/-- One map, rooted at `cell`, and these nodes. -/
def oneMap (cell : U128) (kt vt : Ty) (l : List Bytes) (h : ToldApart cell l) : Layout where
  schema c := if c = cell then some (kt, vt) else none
  nodes := {e | e ∈ l}
  keepable := ⟨⟨h.2, fun e he => (h.1 e he).1⟩, fun e he => (h.1 e he).2.1⟩
  apart e he := if_neg (h.1 e he).2.2

/-- The job of a program that puts one entry into a map of an empty namespace. -/
def putJob (cell : U128) (kt vt : Ty) (key value : Value) : CommitJob :=
  jobOf (pmapPut (Tx.new (namespaceView emptyDb 0)) cell kt vt key value)

theorem executed_putJob {P : Ty → Ty → Value → Value → Prop} {cell : U128} {kt vt : Ty} {key value : Value}
    {l : List Bytes} (h : ToldApart cell l) (hP : P kt vt key value)
    (hlog : ∀ e ∈ (pmapPut (Tx.new (namespaceView emptyDb 0)) cell kt vt key value).nodeLog, e ∈ l) :
    Executed (oneMap cell kt vt l h) P (namespaceView emptyDb 0) (putJob cell kt vt key value) := by
  obtain ⟨rs, hexec⟩ := (@Exec.refl (oneMap cell kt vt l h) P
    (Tx.new (namespaceView emptyDb 0), [])).pmapPut (if_pos rfl) hP hlog
  exact ⟨_, rs, hexec, rfl⟩

/-- Two jobs of one batch, each with a key of its own. -/
def twoPuts : List CommitJob := [putJob 7 .int .int (.int 0) (.int 10), putJob 7 .int .int (.int 1) (.int 11)]

/-- The leaves the two jobs write, and the leaf their merge makes. -/
def twoPutsNodes : List Bytes :=
  [leafBytes [(serialize (.int 0), serialize (.int 10))], leafBytes [(serialize (.int 1), serialize (.int 11))],
    leafBytes [(serialize (.int 0), serialize (.int 10)), (serialize (.int 1), serialize (.int 11))]]

theorem twoPutsNodes_toldApart : ToldApart 7 twoPutsNodes := by decide +kernel

theorem no_dangling_two_puts :
    (commitBatch emptyDb 0 twoPuts).2 = [.committed, .committed] ∧
      NoDangling (oneMap 7 .int .int twoPutsNodes twoPutsNodes_toldApart).schema
        (namespaceView (commitBatch emptyDb 0 twoPuts).1 0) := by
  refine ⟨by decide +kernel, ?_⟩
  have hjobs : ∀ job ∈ twoPuts, ∃ old ∈ [emptyDb],
      Executed (oneMap 7 .int .int twoPutsNodes twoPutsNodes_toldApart) ReadsBack (namespaceView old 0) job := by
    intro job hjob
    refine ⟨emptyDb, List.mem_singleton.2 rfl, ?_⟩
    simp only [twoPuts, List.mem_cons, List.not_mem_nil, or_false] at hjob
    rcases hjob with rfl | rfl
    · exact executed_putJob _ ⟨by decide +kernel, by decide +kernel⟩ (by decide +kernel)
    · exact executed_putJob _ ⟨by decide +kernel, by decide +kernel⟩ (by decide +kernel)
  have hmerged : ∀ c ∈ mergedCells 0 emptyDb twoPuts, c.2 ∈ twoPutsNodes := by decide +kernel
  exact no_dangling (.batch (.start fun _ => rfl) hjobs hmerged) _ (List.mem_cons_self ..)

/-- A program that keeps a set in a map; the type checker lets it pass, and a set encodes to nothing. -/
def setPut : CommitJob := putJob 7 .int (.set .int) (.int 0) (.set [.int 1])

def setPutNodes : List Bytes := [leafBytes [(serialize (.int 0), serialize (.set [.int 1]))]]

theorem setPutNodes_toldApart : ToldApart 7 setPutNodes := by decide +kernel

/-- **A published node need not decode**: after one batch with one job, in a history that asks nothing of
keys and values, the leaf below the root cannot be read back. -/
theorem leaf_does_not_decode :
    History (oneMap 7 .int (.set .int) setPutNodes setPutNodes_toldApart) (fun _ _ _ _ => True) 0
        [(commitBatch emptyDb 0 [setPut]).1, emptyDb] ∧
      ¬ NoDangling (oneMap 7 .int (.set .int) setPutNodes setPutNodes_toldApart).schema
        (namespaceView (commitBatch emptyDb 0 [setPut]).1 0) := by
  constructor
  · refine .batch (.start fun _ => rfl) (fun job hjob => ?_) ?_
    · rw [List.mem_singleton.1 hjob]
      exact ⟨emptyDb, List.mem_singleton.2 rfl, executed_putJob _ trivial (by decide +kernel)⟩
    · change ∀ c ∈ mergedCells 0 emptyDb [setPut], c.2 ∈ setPutNodes
      decide +kernel
  · intro h
    have hroot : liveRoot (namespaceView (commitBatch emptyDb 0 [setPut]).1 0 7) .int (.set .int) ≠
        emptyRoot := by decide +kernel
    have hsome := h 7 .int (.set .int) rfl _ (.root hroot)
    revert hsome
    decide +kernel

end Rend.Rocks
