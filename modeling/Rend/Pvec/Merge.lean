import Rend.Lib.ListMerge
import Rend.Pmap.Store
import Rend.Pvec.Runs

/-!
# The three-way merge of stored vectors

`mergeThreeWay` walks two vectors together against the one they both come from, all of one length. It
reads nodes straight from the store and collects the nodes it makes, without writing them.

Tries of lists of one length have one shape, so on stored vectors the walk computes the merge of the
lists index by index (`mergeAt_eq`): a root that it takes over from one side is that of the merged list,
since the other side is the base there. `merge_per_index` is what this means for the elements.
-/

namespace Rend.Pvec

open Lib Tx

open Pmap (nodeAt NewCells storeCells Storable RoundTrips)

def readNodeKv (kv : Kv) (hash : U128) (elem : Ty) : Option Node :=
  if hash = emptyRoot then none else (nodeAt kv hash).bind (deserializeNode elem)

/-- Output of a successful merge (`MergeResult`). -/
structure MergeResult where
  root : U128
  newCells : NewCells

/-- A merge of two sub-tries over a third. -/
abbrev MergeBelow : Type := U128 → U128 → U128 → NewCells → Option (U128 × NewCells)

/-- Stores a merged node. -/
def mergedNode (bs : Bytes) (out : NewCells) : U128 × NewCells :=
  (nodeCellKey bs, out ++ [(nodeCellKey bs, bs)])

/-- Merges child after child; a child that the base lacks is taken as the empty root. -/
def mergeChildren (merge : MergeBelow) :
    List U128 → List U128 → List U128 → NewCells → Option (List U128 × NewCells)
  | childA :: ca, childB :: cb, baseChildren, out =>
    (merge childA childB (baseChildren.headD emptyRoot) out).bind fun m =>
      (mergeChildren merge ca cb baseChildren.tail m.2).map fun rest => (m.1 :: rest.1, rest.2)
  | _, _, _, out => some ([], out)

/-- Merges two nodes over a base node. A base that is no node of their kind is taken as empty. -/
def mergeNodes (merge : MergeBelow) (nbase : Option Node) (out : NewCells) :
    Node → Node → Option (U128 × NewCells)
  | .leaf ea, .leaf eb =>
    if ea.length ≠ eb.length then none
    else (mergeLists Ops.Same ea eb (leafElements nbase)).map fun merged => mergedNode (serializeLeaf merged) out
  | .inner ca, .inner cb =>
    if ca.length ≠ cb.length then none
    else (mergeChildren merge ca cb (innerChildren nbase) out).map fun merged =>
      mergedNode (serializeInner merged.1) merged.2
  | _, _ => none

/-- One node of the walk; `below` merges children. -/
def mergeNode (kv : Kv) (elem : Ty) (below : MergeBelow) : MergeBelow := fun a b base out =>
  if a = b then some (a, out)
  else if a = base then some (b, out)
  else if b = base then some (a, out)
  else
    (readNodeKv kv a elem).bind fun na => (readNodeKv kv b elem).bind fun nb =>
      mergeNodes below (readNodeKv kv base elem) out na nb

def mergeAt (kv : Kv) (elem : Ty) : ℕ → MergeBelow
  | 0 => mergeNode kv elem fun _ _ _ _ => none
  | level + 1 => mergeNode kv elem (mergeAt kv elem level)

/-- Three-way merge of two vectors against their common ancestor; vectors of another length than that
are not merged. -/
def mergeThreeWay (newA : U128) (lenA : ℕ) (liveB : U128) (lenB : ℕ) (ancestor : U128) (lenAncestor : ℕ)
    (kv : Kv) (elem : Ty) : Option MergeResult :=
  if lenA ≠ lenAncestor ∨ lenB ≠ lenAncestor then none
  else (mergeAt kv elem (depthFor lenA) newA liveB ancestor []).map fun r => ⟨r.1, r.2⟩

/-! ### Tries in the store -/

/-- Every node of the trie of a list is in the store. -/
def HeldIn (kv : Kv) (d : ℕ) (xs : List Value) : Prop :=
  ∀ e ∈ encs d xs, nodeCellKey e ≠ emptyRoot ∧ nodeAt kv (nodeCellKey e) = some e

variable {kv : Kv} {elem : Ty} {d : ℕ} {as bs cs xs ys : List Value}

theorem HeldIn.chunk (h : HeldIn kv (d + 1) xs) {c : List Value} (hc : c ∈ chunks (capacity d) xs) :
    HeldIn kv d c :=
  fun e he => h e (mem_encs_succ.mpr (.inr ⟨c, hc, he⟩))

/-- A fresh transaction shows the nodes of the store. -/
theorem HeldIn.held (h : HeldIn kv d xs) : Held (Tx.new kv) d xs :=
  fun e he => ⟨(h e he).1, Pmap.shows_new (h e he).2⟩

theorem readNodeKv_of_held (h : HeldIn kv d xs) (hne : xs ≠ []) :
    readNodeKv kv (rootOf d xs) elem = deserializeNode elem (enc d xs) := by
  obtain ⟨hroot, hnode⟩ := h _ (enc_mem_encs hne)
  rw [readNodeKv, rootOf_of_ne hne, if_neg hroot, hnode, Option.bind_some]

theorem readNodeKv_leaf (h : HeldIn kv 0 xs) (hf : Fits elem 0 xs) (hne : xs ≠ []) :
    readNodeKv kv (rootOf 0 xs) elem = some (.leaf xs) := by
  rw [readNodeKv_of_held h hne]
  exact deserializeNode_leaf hf.length hf.elems

theorem readNodeKv_inner (h : HeldIn kv (d + 1) xs) (hf : Fits elem (d + 1) xs) (hne : xs ≠ []) :
    readNodeKv kv (rootOf (d + 1) xs) elem = some (.inner ((chunks (capacity d) xs).map (rootOf d))) := by
  rw [readNodeKv_of_held h hne, map_rootOf_chunks]
  exact deserializeNode_inner elem (by rw [List.length_map]; exact hf.length_chunks)

/-- Lists of one length that have one root are one list. -/
theorem eq_of_rootOf_eq (hx : HeldIn kv d xs) (hy : HeldIn kv d ys) (hfx : Fits elem d xs) (hfy : Fits elem d ys)
    (hlen : xs.length = ys.length) (h : rootOf d xs = rootOf d ys) : xs = ys := by
  by_cases hne : xs = []
  · rw [hne] at hlen ⊢
    exact (List.length_eq_zero_iff.mp hlen.symm).symm
  · have hne' : ys ≠ [] := fun hy => hne (List.length_eq_zero_iff.mp (by rw [hlen, hy]; rfl))
    have hall := collectElements_eq hx.held hfx hne []
    rw [h, hlen, collectElements_eq hy.held hfy hne' []] at hall
    exact (Except.ok.inj hall).symm

/-! ### The walk merges lists -/

theorem Fits.same_refl (h : Fits elem d xs) : ∀ v ∈ xs, Ops.Same v v :=
  fun v hv => (h.elems v hv).same_refl

/-- What a merge of sub-tries makes of their lists: nothing if they clash, else the root of a merged list, whose
nodes are old or have been collected. -/
def MergesTo (d : ℕ) (as bs cs : List Value) (out : NewCells) : Option (U128 × NewCells) → Prop
  | none => ∀ ms, ¬ Merged Ops.Same as bs cs ms
  | some r => ∃ ms new, Merged Ops.Same as bs cs ms ∧ r = (rootOf d ms, out ++ new) ∧
      (∀ c ∈ new, c.1 = nodeCellKey c.2) ∧ ∀ e ∈ encs d ms, e ∈ encs d as ∨ e ∈ encs d bs ∨ e ∈ new.map Prod.snd

theorem mergesTo_left {out : NewCells} (h : Merged Ops.Same as bs cs as) :
    MergesTo d as bs cs out (some (rootOf d as, out)) :=
  ⟨as, [], h, by rw [List.append_nil], fun c hc => (by cases hc), fun e he => .inl he⟩

theorem mergesTo_right {out : NewCells} (h : Merged Ops.Same as bs cs bs) :
    MergesTo d as bs cs out (some (rootOf d bs, out)) :=
  ⟨bs, [], h, by rw [List.append_nil], fun c hc => (by cases hc), fun e he => .inr (.inl he)⟩

/-- What a merge of children makes of the chunks of lists. -/
def ChildrenTo (d : ℕ) (as bs cs : List Value) (out : NewCells) : Option (List U128 × NewCells) → Prop
  | none => ∀ ms, ¬ Merged Ops.Same as bs cs ms
  | some r => ∃ ms new, Merged Ops.Same as bs cs ms ∧ r = ((chunks (capacity d) ms).map (rootOf d), out ++ new) ∧
      (∀ c ∈ new, c.1 = nodeCellKey c.2) ∧ ∀ m ∈ chunks (capacity d) ms, ∀ e ∈ encs d m,
        (∃ a ∈ chunks (capacity d) as, e ∈ encs d a) ∨ (∃ b ∈ chunks (capacity d) bs, e ∈ encs d b) ∨
          e ∈ new.map Prod.snd

/-- The children of two nodes are merged chunk by chunk. -/
theorem mergeChildren_eq {merge : MergeBelow} (hlen : as.length = bs.length) (hlen' : as.length = cs.length)
    (hmerge : ∀ a ∈ chunks (capacity d) as, ∀ b ∈ chunks (capacity d) bs, ∀ c ∈ chunks (capacity d) cs,
      a.length = b.length → a.length = c.length → ∀ out,
      MergesTo d a b c out (merge (rootOf d a) (rootOf d b) (rootOf d c) out))
    (out : NewCells) :
    ChildrenTo d as bs cs out (mergeChildren merge ((chunks (capacity d) as).map (rootOf d))
      ((chunks (capacity d) bs).map (rootOf d)) ((chunks (capacity d) cs).map (rootOf d)) out) := by
  have hpos := capacity_pos d
  induction hn : as.length using Nat.strong_induction_on generalizing as bs cs out with
  | _ n ih =>
  by_cases hne : as = []
  · subst hne
    rw [List.length_eq_zero_iff.mp hlen.symm, List.length_eq_zero_iff.mp hlen'.symm, chunks_nil hpos]
    refine ⟨[], [], .nil, by rw [List.append_nil, chunks_nil hpos]; rfl, fun c hc => (by cases hc), fun m hm => ?_⟩
    rw [chunks_nil hpos] at hm
    cases hm
  · have hneb : bs ≠ [] := fun h => hne (List.length_eq_zero_iff.mp (by rw [hlen, h]; rfl))
    have hnec : cs ≠ [] := fun h => hne (List.length_eq_zero_iff.mp (by rw [hlen', h]; rfl))
    rw [chunks_eq_cons hpos hne, chunks_eq_cons hpos hneb, chunks_eq_cons hpos hnec] at hmerge
    have htake : (as.take (capacity d)).length = (bs.take (capacity d)).length := by simp [hlen]
    have htake' : (as.take (capacity d)).length = (cs.take (capacity d)).length := by simp [hlen']
    have hhead := hmerge _ List.mem_cons_self _ List.mem_cons_self _ List.mem_cons_self htake htake' out
    have hshort : (as.drop (capacity d)).length < n := by
      have := List.length_pos_iff.mpr hne
      rw [List.length_drop]
      omega
    have hrest : ∀ out, ChildrenTo d (as.drop (capacity d)) (bs.drop (capacity d)) (cs.drop (capacity d)) out
        (mergeChildren merge ((chunks (capacity d) (as.drop (capacity d))).map (rootOf d))
          ((chunks (capacity d) (bs.drop (capacity d))).map (rootOf d))
          ((chunks (capacity d) (cs.drop (capacity d))).map (rootOf d)) out) := fun out =>
      ih _ hshort (by simp [hlen]) (by simp [hlen'])
        (fun a ha b hb c hc => hmerge a (List.mem_cons_of_mem _ ha) b (List.mem_cons_of_mem _ hb) c
          (List.mem_cons_of_mem _ hc)) out rfl
    have hparts : ∀ ms, Merged Ops.Same as bs cs ms →
        (∃ ms₁, Merged Ops.Same (as.take (capacity d)) (bs.take (capacity d)) (cs.take (capacity d)) ms₁) ∧
          ∃ ms₂, Merged Ops.Same (as.drop (capacity d)) (bs.drop (capacity d)) (cs.drop (capacity d)) ms₂ := by
      intro ms hms
      refine Merged.split htake htake' (?_ : Merged _ _ _ _ ms)
      rwa [List.take_append_drop, List.take_append_drop, List.take_append_drop]
    rw [chunks_eq_cons hpos hne, chunks_eq_cons hpos hneb, chunks_eq_cons hpos hnec, List.map_cons, List.map_cons,
      List.map_cons, mergeChildren, List.headD_cons, List.tail_cons]
    cases hm : merge (rootOf d (as.take (capacity d))) (rootOf d (bs.take (capacity d)))
        (rootOf d (cs.take (capacity d))) out with
    | none =>
      rw [hm] at hhead
      intro ms hms
      obtain ⟨⟨ms₁, h₁⟩, -⟩ := hparts ms hms
      exact hhead ms₁ h₁
    | some r =>
      rw [hm] at hhead
      obtain ⟨m, new, hmerged, rfl, hkeys, hencs⟩ := hhead
      have hrest := hrest (out ++ new)
      rw [Option.bind_some]
      cases hms : mergeChildren merge ((chunks (capacity d) (as.drop (capacity d))).map (rootOf d))
          ((chunks (capacity d) (bs.drop (capacity d))).map (rootOf d))
          ((chunks (capacity d) (cs.drop (capacity d))).map (rootOf d)) (out ++ new) with
      | none =>
        rw [hms] at hrest
        intro ms hms
        obtain ⟨-, ms₂, h₂⟩ := hparts ms hms
        exact hrest ms₂ h₂
      | some r =>
        rw [hms] at hrest
        obtain ⟨ms, new', hmerged', rfl, hkeys', hencs'⟩ := hrest
        -- the first merged chunk is full, unless it is the last
        have hlenm := hmerged.length
        have hlenms := hmerged'.length
        have hchunks : chunks (capacity d) (m ++ ms) = m :: chunks (capacity d) ms := by
          rw [List.length_take] at hlenm
          rw [List.length_drop] at hlenms
          refine chunks_append ?_ (by omega) ?_
          · rw [← List.length_pos_iff, hlenm]
            have := List.length_pos_iff.mpr hne
            omega
          · rcases le_total (capacity d) as.length with hle | hle
            · exact .inl (by omega)
            · exact .inr (List.length_eq_zero_iff.mp (by omega))
        have hwhole : Merged Ops.Same as bs cs (m ++ ms) := by
          have happ := hmerged.append hmerged'
          rwa [List.take_append_drop, List.take_append_drop, List.take_append_drop] at happ
        refine ⟨m ++ ms, new ++ new', hwhole, ?_, fun c hc => ?_, fun k hk e he => ?_⟩
        · rw [hchunks, List.map_cons, List.append_assoc]
        · exact (List.mem_append.mp hc).elim (hkeys c) (hkeys' c)
        · rw [chunks_eq_cons hpos hne, chunks_eq_cons hpos hneb, List.map_append, List.mem_append]
          rw [hchunks] at hk
          rcases List.mem_cons.mp hk with rfl | hk
          · rcases hencs e he with he | he | he
            · exact .inl ⟨_, List.mem_cons_self, he⟩
            · exact .inr (.inl ⟨_, List.mem_cons_self, he⟩)
            · exact .inr (.inr (.inl he))
          · rcases hencs' k hk e he with ⟨a, ha, he⟩ | ⟨b, hb, he⟩ | he
            · exact .inl ⟨a, List.mem_cons_of_mem _ ha, he⟩
            · exact .inr (.inl ⟨b, List.mem_cons_of_mem _ hb, he⟩)
            · exact .inr (.inr (.inr he))

/-- A merged node is stored under its own hash. -/
theorem mergesTo_mergedNode {ms : List Value} {out new : NewCells} (hmerged : Merged Ops.Same as bs cs ms)
    (hne : as ≠ []) (hkeys : ∀ c ∈ new, c.1 = nodeCellKey c.2)
    (hencs : ∀ e ∈ encs d ms, e = enc d ms ∨ e ∈ encs d as ∨ e ∈ encs d bs ∨ e ∈ new.map Prod.snd) :
    MergesTo d as bs cs out (some (mergedNode (enc d ms) (out ++ new))) := by
  refine ⟨ms, new ++ [(nodeCellKey (enc d ms), enc d ms)], hmerged, ?_, fun c hc => ?_, fun e he => ?_⟩
  · rw [rootOf_of_ne (hmerged.ne_nil hne), ← List.append_assoc]
    rfl
  · rcases List.mem_append.mp hc with hc | hc
    · exact hkeys c hc
    · rw [List.mem_singleton.mp hc]
  · rw [List.map_append, List.mem_append]
    rcases hencs e he with rfl | he | he | he
    · exact .inr (.inr (.inr List.mem_cons_self))
    · exact .inl he
    · exact .inr (.inl he)
    · exact .inr (.inr (.inl he))

section Walk

variable (ha : HeldIn kv d as) (hb : HeldIn kv d bs) (hc : HeldIn kv d cs) (hfa : Fits elem d as)
  (hfb : Fits elem d bs) (hfc : Fits elem d cs) (hab : as.length = bs.length) (hac : as.length = cs.length)

include ha hb hc hfa hfb hfc hab hac

/-- The comparisons of roots decide as those of lists do. -/
theorem mergeNode_eq {below : MergeBelow} {out : NewCells}
    (hnodes : as ≠ [] → bs ≠ [] → cs ≠ [] → MergesTo d as bs cs out
      ((readNodeKv kv (rootOf d as) elem).bind fun na => (readNodeKv kv (rootOf d bs) elem).bind fun nb =>
        mergeNodes below (readNodeKv kv (rootOf d cs) elem) out na nb)) :
    MergesTo d as bs cs out (mergeNode kv elem below (rootOf d as) (rootOf d bs) (rootOf d cs) out) := by
  rw [mergeNode]
  split_ifs with h₁ h₂ h₃
  · obtain rfl := eq_of_rootOf_eq ha hb hfa hfb hab h₁
    exact mergesTo_left (.self hac hfa.same_refl)
  · obtain rfl := eq_of_rootOf_eq ha hc hfa hfc hac h₂
    exact mergesTo_right (.left hab hfa.same_refl hfb.same_refl)
  · obtain rfl := eq_of_rootOf_eq hb hc hfb hfc (hab.symm.trans hac) h₃
    exact mergesTo_left (.right hab hfb.same_refl)
  · have hne : as ≠ [] := by
      rintro rfl
      exact h₁ (by rw [List.length_eq_zero_iff.mp hab.symm])
    have hpos := List.length_pos_iff.mpr hne
    exact hnodes hne (List.length_pos_iff.mp (hab ▸ hpos)) (List.length_pos_iff.mp (hac ▸ hpos))

end Walk

/-- **The code merges the lists.** -/
theorem mergeAt_eq (ha : HeldIn kv d as) (hb : HeldIn kv d bs) (hc : HeldIn kv d cs) (hfa : Fits elem d as)
    (hfb : Fits elem d bs) (hfc : Fits elem d cs) (hab : as.length = bs.length) (hac : as.length = cs.length)
    (out : NewCells) :
    MergesTo d as bs cs out (mergeAt kv elem d (rootOf d as) (rootOf d bs) (rootOf d cs) out) := by
  induction d generalizing as bs cs out with
  | zero =>
    refine mergeNode_eq ha hb hc hfa hfb hfc hab hac fun hne hneb hnec => ?_
    rw [readNodeKv_leaf ha hfa hne, readNodeKv_leaf hb hfb hneb, readNodeKv_leaf hc hfc hnec,
      Option.bind_some, Option.bind_some, mergeNodes, if_neg (not_not.mpr hab), leafElements]
    cases hm : mergeLists Ops.Same as bs cs with
    | none => exact fun ms => not_merged_of_mergeLists hm
    | some ms =>
      have hmerged := merged_of_mergeLists hab hac hfb.same_refl hm
      have hnode := @mergesTo_mergedNode 0 as bs cs ms out [] hmerged hne (fun c hc => (by cases hc)) fun e he =>
        .inl (by
          rw [encs, if_neg (hmerged.ne_nil hne)] at he
          exact List.mem_singleton.mp he)
      rw [List.append_nil] at hnode
      exact hnode
  | succ d ih =>
    refine mergeNode_eq ha hb hc hfa hfb hfc hab hac fun hne hneb hnec => ?_
    have hlen : ((chunks (capacity d) as).map (rootOf d)).length = ((chunks (capacity d) bs).map (rootOf d)).length := by
      simp [hab]
    rw [readNodeKv_inner ha hfa hne, readNodeKv_inner hb hfb hneb, readNodeKv_inner hc hfc hnec,
      Option.bind_some, Option.bind_some, mergeNodes, if_neg (not_not.mpr hlen), innerChildren]
    have hchildren := @mergeChildren_eq d as bs cs (mergeAt kv elem d) hab hac (fun a hca b hcb c hcc hlab hlac out =>
      ih (ha.chunk hca) (hb.chunk hcb) (hc.chunk hcc) (hfa.chunk hca) (hfb.chunk hcb) (hfc.chunk hcc) hlab hlac
        out) out
    cases hm : mergeChildren (mergeAt kv elem d) ((chunks (capacity d) as).map (rootOf d))
        ((chunks (capacity d) bs).map (rootOf d)) ((chunks (capacity d) cs).map (rootOf d)) out with
    | none =>
      rw [hm] at hchildren
      exact hchildren
    | some r =>
      rw [hm] at hchildren
      obtain ⟨ms, new, hmerged, rfl, hkeys, hencs⟩ := hchildren
      have henc : serializeInner ((chunks (capacity d) ms).map (rootOf d)) = enc (d + 1) ms := by
        rw [map_rootOf_chunks]
        rfl
      rw [Option.map_some]
      dsimp only
      rw [henc]
      refine mergesTo_mergedNode hmerged hne hkeys fun e he => ?_
      rcases mem_encs_succ.mp he with ⟨-, rfl⟩ | ⟨m, hm, he⟩
      · exact .inl rfl
      · rcases hencs m hm e he with ⟨a, ha, he⟩ | ⟨b, hb, he⟩ | he
        · exact .inr (.inl (mem_encs_succ.mpr (.inr ⟨a, ha, he⟩)))
        · exact .inr (.inr (.inl (mem_encs_succ.mpr (.inr ⟨b, hb, he⟩))))
        · exact .inr (.inr (.inr he))

/-! ### Vectors in the store -/

/-- The root and the length stand for the list, and every node below the root is in the store. -/
structure Stored (kv : Kv) (elem : Ty) (vec : U128 × ℕ) (xs : List Value) : Prop where
  length : vec.2 = xs.length
  root_eq : vec.1 = rootOf (depthFor vec.2) xs
  elems : ∀ v ∈ xs, RoundTrips elem v
  held : HeldIn kv (depthFor vec.2) xs

/-- What a fresh transaction over the store reads at an index. -/
def readAt (kv : Kv) (elem : Ty) (vec : U128 × ℕ) (i : ℕ) : Except String Value :=
  (get vec.1 vec.2 i (Tx.new kv) elem).2

section Stored

variable {vec a b base : U128 × ℕ}

/-- Once the nodes of a transaction are in the store, so are the vectors it has made. -/
theorem Stands.stored {log : List Bytes} (h : Stands elem log vec xs) {cells : NewCells}
    (hst : Storable kv cells) (hlog : ∀ e ∈ log, (nodeCellKey e, e) ∈ cells) :
    Stored (storeCells kv cells) elem vec xs := by
  refine ⟨h.length, h.root_eq, h.elems, fun e he => ?_⟩
  have hcell := hlog e (h.logged e he)
  exact ⟨hst.ne_empty _ hcell, hst.nodeAt_new hcell⟩

/-- The nodes a transaction has written, as cells for the store. -/
def logCells (log : List Bytes) : NewCells := log.map fun e => (nodeCellKey e, e)

/-- Every vector of a run is stored with the nodes of the run. -/
theorem prefix_stored {ops : List Op} (hst : Storable kv (logCells (run elem (Tx.new kv) ops).1.nodeLog))
    (hops : ∀ op ∈ ops, RoundTrips elem op.value) {p q : List Op} (hpq : ops = p ++ q) :
    Stored (storeCells kv (logCells (run elem (Tx.new kv) ops).1.nodeLog)) elem (run elem (Tx.new kv) p).2
      (refRun p) := by
  have hmem : ∀ e ∈ (run elem (Tx.new kv) ops).1.nodeLog,
      (nodeCellKey e, e) ∈ logCells (run elem (Tx.new kv) ops).1.nodeLog := fun e he => List.mem_map_of_mem he
  have hS : Apart nodeCellKey {e | e ∈ (run elem (Tx.new kv) ops).1.nodeLog} :=
    ⟨fun e he e' he' hkey => hst.inj _ (hmem e he) _ (hmem e' he') hkey, fun e he => hst.ne_empty _ (hmem e he)⟩
  have hstart : Stands elem [] (emptyRoot, 0) [] := by
    refine ⟨rfl, rfl, List.forall_mem_nil _, fun e he => ?_⟩
    rw [encs_nil] at he
    cases he
  obtain ⟨-, hstands⟩ := (stepwise elem).run_stands rfl hstart ops hops hS
  exact (hstands p q hpq).stored hst hmem

theorem Stored.fits (h : Stored kv elem vec xs) : Fits elem (depthFor vec.2) xs :=
  ⟨by rw [← h.length]; exact le_capacity_depthFor vec.2, h.elems⟩

/-- A stored vector reads back as its list. -/
theorem Stored.readAt_eq (h : Stored kv elem vec xs) (i : ℕ) :
    readAt kv elem vec i = (xs[i]?).elim (.error (outOfBounds i vec.2)) .ok := by
  rw [readAt, Pvec.get]
  split_ifs with hi
  · rw [List.getElem?_eq_none (by rw [← h.length]; exact hi)]
    rfl
  · have hmod := mod_capacity (Nat.lt_of_not_le hi)
    have hget := getAt_eq h.held.held h.fits (i := i) (by rw [hmod, ← h.length]; omega)
    rw [hmod, ← h.root_eq] at hget
    generalize getAt elem i (depthFor vec.2) vec.1 (Tx.new kv) = r at hget
    obtain ⟨tx', res⟩ := r
    dsimp only at hget
    rw [hget, List.getElem?_eq_getElem (by rw [← h.length]; omega)]
    rfl

/-- The walk merges stored vectors of one length, and stores what it makes. -/
theorem mergeThreeWay_eq (ha : Stored kv elem a as) (hb : Stored kv elem b bs) (hc : Stored kv elem base cs)
    (hla : a.2 = base.2) (hlb : b.2 = base.2)
    (hcells : ∀ r ∈ mergeThreeWay a.1 a.2 b.1 b.2 base.1 base.2 kv elem, Storable kv r.newCells) :
    (mergeThreeWay a.1 a.2 b.1 b.2 base.1 base.2 kv elem = none ∧ ∀ ms, ¬ Merged Ops.Same as bs cs ms) ∨
      ∃ ms r, Merged Ops.Same as bs cs ms ∧ mergeThreeWay a.1 a.2 b.1 b.2 base.1 base.2 kv elem = some r ∧
        Stored (storeCells kv r.newCells) elem (r.root, base.2) ms := by
  have hab : as.length = bs.length := by rw [← ha.length, ← hb.length, hla, hlb]
  have hac : as.length = cs.length := by rw [← ha.length, ← hc.length, hla]
  have hheldA := ha.held
  have hheldB := hb.held
  have hfitsA := ha.fits
  have hfitsB := hb.fits
  have hrootA := ha.root_eq
  have hrootB := hb.root_eq
  rw [hla] at hheldA hfitsA hrootA
  rw [hlb] at hheldB hfitsB hrootB
  have hmerge := mergeAt_eq hheldA hheldB hc.held hfitsA hfitsB hc.fits hab hac []
  rw [← hrootA, ← hrootB, ← hc.root_eq] at hmerge
  rw [mergeThreeWay, if_neg (by omega), hla] at hcells ⊢
  cases hm : mergeAt kv elem (depthFor base.2) a.1 b.1 base.1 [] with
  | none =>
    rw [hm] at hmerge
    exact .inl ⟨rfl, hmerge⟩
  | some r =>
    rw [hm] at hmerge hcells
    obtain ⟨ms, new, hmerged, rfl, hkeys, hencs⟩ := hmerge
    rw [List.nil_append] at hcells ⊢
    have hst : Storable kv new := hcells ⟨_, new⟩ rfl
    refine .inr ⟨ms, ⟨rootOf (depthFor base.2) ms, new⟩, hmerged, rfl, ?_, rfl, fun v hv => ?_, fun e he => ?_⟩
    · rw [hmerged.length, ← ha.length, hla]
    · exact (hmerged.mem hv).elim (ha.elems v) (hb.elems v)
    · rcases hencs e he with he | he | he
      · exact ⟨(hheldA e he).1, hst.nodeAt_old (hheldA e he).2⟩
      · exact ⟨(hheldB e he).1, hst.nodeAt_old (hheldB e he).2⟩
      · obtain ⟨c, hc, rfl⟩ := List.mem_map.mp he
        have hne := hst.ne_empty c hc
        have hnode := hst.nodeAt_new hc
        rw [hkeys c hc] at hne hnode
        exact ⟨hne, hnode⟩

/-- Two reads answer alike: with values that the code takes for equal, or with one error. -/
def SameRead : Except String Value → Except String Value → Prop
  | .ok v, .ok w => Ops.Same v w
  | .error e, .error e' => e = e'
  | _, _ => False

/-- What a merge index by index is to do, where values are equal that the code takes for equal. `isNone` is for
vectors of another length than the base; those of its length are merged unless an index has been changed to
different values on both sides (`isSome_iff`). The merged vector, with its new cells in the store, has at each index
the value of one side (`taken`): one equal to that of `b` where `a` is as the base, and that of `a` elsewhere. -/
structure MergesPerIndex (kv : Kv) (elem : Ty) (a b base : U128 × ℕ) : Prop where
  isNone : a.2 ≠ base.2 ∨ b.2 ≠ base.2 → mergeThreeWay a.1 a.2 b.1 b.2 base.1 base.2 kv elem = none
  isSome_iff : a.2 = base.2 → b.2 = base.2 →
    ((mergeThreeWay a.1 a.2 b.1 b.2 base.1 base.2 kv elem).isSome ↔
      ∀ i, SameRead (readAt kv elem a i) (readAt kv elem base i) ∨
        SameRead (readAt kv elem b i) (readAt kv elem base i) ∨ SameRead (readAt kv elem a i) (readAt kv elem b i))
  unchanged : a.2 = base.2 → b.2 = base.2 → ∀ r ∈ mergeThreeWay a.1 a.2 b.1 b.2 base.1 base.2 kv elem, ∀ i,
    SameRead (readAt kv elem a i) (readAt kv elem base i) →
      SameRead (readAt (storeCells kv r.newCells) elem (r.root, base.2) i) (readAt kv elem b i)
  changed : a.2 = base.2 → b.2 = base.2 → ∀ r ∈ mergeThreeWay a.1 a.2 b.1 b.2 base.1 base.2 kv elem, ∀ i,
    ¬ SameRead (readAt kv elem a i) (readAt kv elem base i) →
      readAt (storeCells kv r.newCells) elem (r.root, base.2) i = readAt kv elem a i
  taken : a.2 = base.2 → b.2 = base.2 → ∀ r ∈ mergeThreeWay a.1 a.2 b.1 b.2 base.1 base.2 kv elem, ∀ i,
    readAt (storeCells kv r.newCells) elem (r.root, base.2) i = readAt kv elem a i ∨
      readAt (storeCells kv r.newCells) elem (r.root, base.2) i = readAt kv elem b i

/-- What vectors of one length read at an index: each an element, or all the same error. -/
theorem Stored.reads (ha : Stored kv elem a as) (hb : Stored kv elem b bs) (hc : Stored kv elem base cs)
    (hla : a.2 = base.2) (hlb : b.2 = base.2) (i : ℕ) :
    (∃ x y z, as[i]? = some x ∧ bs[i]? = some y ∧ cs[i]? = some z ∧ readAt kv elem a i = .ok x ∧
      readAt kv elem b i = .ok y ∧ readAt kv elem base i = .ok z) ∨
    (as[i]? = none ∧ readAt kv elem a i = .error (outOfBounds i base.2) ∧
      readAt kv elem b i = .error (outOfBounds i base.2) ∧
      readAt kv elem base i = .error (outOfBounds i base.2)) := by
  have hlenA := ha.length
  have hlenB := hb.length
  have hlenC := hc.length
  rw [ha.readAt_eq, hb.readAt_eq, hc.readAt_eq, hla, hlb]
  by_cases hi : i < base.2
  · have hiA : i < as.length := by omega
    have hiB : i < bs.length := by omega
    have hiC : i < cs.length := by omega
    rw [List.getElem?_eq_getElem hiA, List.getElem?_eq_getElem hiB, List.getElem?_eq_getElem hiC]
    exact .inl ⟨_, _, _, rfl, rfl, rfl, rfl, rfl, rfl⟩
  · rw [List.getElem?_eq_none (by omega : as.length ≤ i), List.getElem?_eq_none (by omega : bs.length ≤ i),
      List.getElem?_eq_none (by omega : cs.length ≤ i)]
    exact .inr ⟨rfl, rfl, rfl, rfl⟩

/-- What the merged vector reads at an index merges what the sides read there. -/
theorem reads_merged (ha : Stored kv elem a as) (hb : Stored kv elem b bs) (hc : Stored kv elem base cs)
    (hla : a.2 = base.2) (hlb : b.2 = base.2)
    (hcells : ∀ r ∈ mergeThreeWay a.1 a.2 b.1 b.2 base.1 base.2 kv elem, Storable kv r.newCells) {r : MergeResult}
    (hr : r ∈ mergeThreeWay a.1 a.2 b.1 b.2 base.1 base.2 kv elem) (i : ℕ) :
    MergedElement SameRead (readAt kv elem a i) (readAt kv elem b i) (readAt kv elem base i)
      (readAt (storeCells kv r.newCells) elem (r.root, base.2) i) := by
  rcases mergeThreeWay_eq ha hb hc hla hlb hcells with ⟨hnone, -⟩ | ⟨ms, r', hmerged, hr', hstored⟩
  · rw [hnone] at hr
    cases hr
  · rw [hr'] at hr
    obtain rfl := Option.some.inj hr
    have hread := hstored.readAt_eq i
    rcases ha.reads hb hc hla hlb i with ⟨x, y, z, hx, hy, hz, hreadA, hreadB, hreadC⟩ | ⟨hnil, hreadA, hreadB, hreadC⟩
    · obtain ⟨m, hm⟩ : ∃ m, ms[i]? = some m := by
        have hi : i < ms.length := by
          rw [hmerged.length]
          exact (List.getElem?_eq_some_iff.mp hx).1
        exact ⟨_, List.getElem?_eq_getElem hi⟩
      have helem := hmerged.getElem? hx hy hz hm
      rw [hread, hm, hreadA, hreadB, hreadC]
      refine ⟨?_, helem.unchanged, fun h => congrArg _ (helem.changed h), helem.noClash⟩
      exact helem.mem.imp (fun h => congrArg _ h) fun h => congrArg _ h
    · have hnone : ms[i]? = none := by
        rw [List.getElem?_eq_none_iff] at hnil ⊢
        rwa [hmerged.length]
      rw [hread, hnone, hreadA, hreadB, hreadC]
      exact ⟨.inl rfl, fun _ => rfl, fun _ => rfl, .inl rfl⟩

/-- **The merge of stored vectors is per index.** -/
theorem merge_per_index (ha : Stored kv elem a as) (hb : Stored kv elem b bs) (hc : Stored kv elem base cs)
    (hcells : ∀ r ∈ mergeThreeWay a.1 a.2 b.1 b.2 base.1 base.2 kv elem, Storable kv r.newCells) :
    MergesPerIndex kv elem a b base where
  isNone hlen := by rw [mergeThreeWay, if_pos hlen]
  isSome_iff hla hlb := by
    constructor
    · intro h i
      obtain ⟨r, hr⟩ := Option.isSome_iff_exists.mp h
      exact (reads_merged ha hb hc hla hlb hcells hr i).noClash
    · intro h
      have hab : as.length = bs.length := by rw [← ha.length, ← hb.length, hla, hlb]
      have hac : as.length = cs.length := by rw [← ha.length, ← hc.length, hla]
      have hex : ∃ ms, Merged Ops.Same as bs cs ms := by
        refine (exists_merged_iff hab hac hb.fits.same_refl).mpr fun i x y z hx hy hz => ?_
        have hi := h i
        rw [ha.readAt_eq, hb.readAt_eq, hc.readAt_eq, hx, hy, hz] at hi
        exact hi
      obtain ⟨ms, hms⟩ := hex
      rcases mergeThreeWay_eq ha hb hc hla hlb hcells with ⟨-, hno⟩ | ⟨-, r, -, hr, -⟩
      · exact absurd hms (hno ms)
      · rw [hr]
        rfl
  unchanged hla hlb r hr i := (reads_merged ha hb hc hla hlb hcells hr i).unchanged
  changed hla hlb r hr i := (reads_merged ha hb hc hla hlb hcells hr i).changed
  taken hla hlb r hr i := (reads_merged ha hb hc hla hlb hcells hr i).mem

/-- An object with two keys. -/
def point (x y : ℤ) : Value := .json (.object [("x", .int x), ("y", .int y)])

/-- The same object with its keys in the other order. -/
def pointBack (x y : ℤ) : Value := .json (.object [("y", .int y), ("x", .int x)])

/-- One element replaced, put back with its keys in another order, and the other one replaced. -/
def reordered : List Op :=
  [.push (point 1 2), .push (point 3 4), .set 0 (point 5 6), .set 0 (pointBack 1 2), .set 1 (point 7 8)]

/-- The store with the nodes of that run. -/
def reorderedKv : Kv := storeCells (fun _ => none) (logCells (run .json (Tx.new fun _ => none) reordered).1.nodeLog)

/-- The vector after the first calls of the run. -/
def reorderedVec (n : ℕ) : U128 × ℕ := (run .json (Tx.new fun _ => none) (reordered.take n)).2

/-- One side replaces the first element and the other side the second; the first element that the other side has
put back in another order is no change. -/
theorem merge_per_index_two : MergesPerIndex reorderedKv .json (reorderedVec 3) (reorderedVec 5) (reorderedVec 2) := by
  have hst : Storable (fun _ => none) (logCells (run .json (Tx.new fun _ => none) reordered).1.nodeLog) :=
    Pmap.storable_of_list (by decide +kernel)
  have hstored : ∀ n, Stored reorderedKv .json (reorderedVec n) (refRun (reordered.take n)) := fun n =>
    prefix_stored hst (by decide +kernel) (List.take_append_drop n reordered).symm
  refine merge_per_index (hstored 3) (hstored 5) (hstored 2) fun r hr => Pmap.storable_of_list ?_
  revert r
  decide +kernel

end Stored

end Rend.Pvec
