import Rend.Pbtree.Readers

/-!
# The writers keep the tree

An insertion into a tree gives one new tree with the entry put in its place, or two with a key that
separates them (`setInner_eq`); a removal gives a tree without the entry, or nothing when it was the last
(`removeInner_eq`). The levels do not grow below the root, and every node of the new tree is a node of
the old one or has been logged.
-/

namespace Rend.Pbtree

open Lib Tx

open Pmap (RoundTrips)

variable {kt vt : Ty} {n fuel : ℕ} {hash : U128} {es : List (Value × Value)} {tx tx' : Tx}

/-! ### The transaction moves by node steps -/

theorem writeNode_snd (tx : Tx) (bs : Bytes) : (writeNode tx bs).2 = nodeCellKey bs := rfl

theorem writeNode_nodeLog (tx : Tx) (bs : Bytes) : (writeNode tx bs).1.nodeLog = tx.nodeLog ++ [bs] :=
  putNode_nodeLog nodeCellKey tx bs

theorem writeNode_steps (tx : Tx) (bs : Bytes) : KeySteps nodeCellKey tx (writeNode tx bs).1 :=
  .single (.write tx bs)

theorem readNode_steps (tx : Tx) (hash : U128) (kt vt : Ty) : KeySteps nodeCellKey tx (readNode tx hash kt vt).1 :=
  (readNode_reads tx hash kt vt).lift id fun _ _ h => .read h

theorem writeLeaf_steps (tx : Tx) (entries : List (Value × Value)) :
    KeySteps nodeCellKey tx (writeLeaf tx entries).1 := by
  rw [writeLeaf]
  split_ifs
  · exact writeNode_steps ..
  · exact (writeNode_steps ..).trans (writeNode_steps ..)

theorem writeInner_steps (tx : Tx) (keys : List Value) (children : List U128) :
    KeySteps nodeCellKey tx (writeInner tx keys children).1 := by
  rw [writeInner]
  split_ifs
  · exact writeNode_steps ..
  · exact (writeNode_steps ..).trans (writeNode_steps ..)

theorem setInner_steps (key value : Value) (kt vt : Ty) (fuel : ℕ) (hash : U128) (tx : Tx) :
    KeySteps nodeCellKey tx (setInner key value kt vt fuel hash tx).1 := by
  induction fuel generalizing hash tx with
  | zero => exact .refl
  | succ fuel ih =>
    have hread := readNode_steps tx hash kt vt
    rw [setInner]
    generalize readNode tx hash kt vt = r at hread
    obtain ⟨tx₁, _ | ⟨keys, children⟩ | entries⟩ := r
    · exact hread
    · have hbelow := ih (children.getD (descendPos keys key) emptyRoot) tx₁
      dsimp only
      generalize setInner key value kt vt fuel (children.getD (descendPos keys key) emptyRoot) tx₁ = b at hbelow
      obtain ⟨tx₂, _ | _ | _⟩ := b
      · exact hread.trans hbelow
      · exact (hread.trans hbelow).trans (writeNode_steps ..)
      · exact (hread.trans hbelow).trans (writeInner_steps ..)
    · exact hread.trans (writeLeaf_steps ..)

theorem dropChild_steps (tx : Tx) (keys : List Value) (children : List U128) (pos : ℕ) :
    KeySteps nodeCellKey tx (dropChild tx keys children pos).1 := by
  rw [dropChild]
  dsimp only
  generalize (if pos < keys.length then keys.eraseIdx pos
    else if 0 < pos then keys.eraseIdx (pos - 1) else keys) = newKeys
  split_ifs
  · exact .refl
  · exact .refl
  · exact writeNode_steps ..

theorem removeInner_steps (key : Value) (kt vt : Ty) (fuel : ℕ) (hash : U128) (tx : Tx) :
    KeySteps nodeCellKey tx (removeInner key kt vt fuel hash tx).1 := by
  induction fuel generalizing hash tx with
  | zero => exact .refl
  | succ fuel ih =>
    have hread := readNode_steps tx hash kt vt
    rw [removeInner]
    generalize readNode tx hash kt vt = r at hread
    obtain ⟨tx₁, _ | ⟨keys, children⟩ | entries⟩ := r
    · exact hread
    · have hbelow := ih (children.getD (descendPos keys key) emptyRoot) tx₁
      dsimp only
      generalize removeInner key kt vt fuel (children.getD (descendPos keys key) emptyRoot) tx₁ = b at hbelow
      obtain ⟨tx₂, _ | _ | _ | _⟩ := b
      · exact hread.trans hbelow
      · exact hread.trans hbelow
      · exact (hread.trans hbelow).trans (writeNode_steps ..)
      · exact (hread.trans hbelow).trans (dropChild_steps ..)
    · dsimp only
      split
      · exact hread
      · split_ifs
        · exact hread
        · exact hread.trans (writeNode_steps ..)

theorem set_steps (fuel : ℕ) (root : U128) (key value : Value) (tx : Tx) (kt vt : Ty) :
    KeySteps nodeCellKey tx (set fuel root key value tx kt vt).1 := by
  have hset := setInner_steps key value kt vt fuel root tx
  rw [set]
  split_ifs
  · exact writeNode_steps ..
  · generalize setInner key value kt vt fuel root tx = r at hset
    obtain ⟨tx', _ | _ | _⟩ := r
    · exact hset
    · exact hset
    · exact hset.trans (writeNode_steps ..)

theorem remove_steps (fuel : ℕ) (root : U128) (key : Value) (tx : Tx) (kt vt : Ty) :
    KeySteps nodeCellKey tx (remove fuel root key tx kt vt).1 := by
  have hremove := removeInner_steps key kt vt fuel root tx
  rw [remove]
  split_ifs
  · exact .refl
  · generalize removeInner key kt vt fuel root tx = r at hremove
    obtain ⟨tx', _ | _ | _ | _⟩ := r <;> exact hremove

/-! ### Writing a node -/

/-- A tree over a log. -/
abbrev Tree (kt vt : Ty) (log : List Bytes) : ℕ → U128 → List (Value × Value) → Prop := BTree (Logged kt vt log)

theorem BTree.log {log log' : List Bytes} (h : Tree kt vt log n hash es) (hsub : log ⊆ log') :
    Tree kt vt log' n hash es :=
  h.mono (Logged.mono hsub)

/-- A leaf that has been logged. -/
theorem tree_leaf {log : List Bytes} (hlog : serializeLeaf es ∈ log) (hne : es ≠ []) (hs : SortedBy entryRank es)
    (hf : (Node.leaf es).Fits kt vt) (n : ℕ) : Tree kt vt log (n + 1) (nodeCellKey (serializeLeaf es)) es :=
  .inl ⟨⟨hf, hlog, rfl⟩, hne, hs⟩

/-- An inner node that has been logged, over trees. -/
theorem tree_inner {log : List Bytes} {keys : List Value} {kids : List (U128 × List (Value × Value))}
    (hlog : serializeInner keys (kids.map Prod.fst) ∈ log) (hkids : ∀ kid ∈ kids, Tree kt vt log n kid.1 kid.2)
    (hsep : Separates entryRank (keys.map rank) (kids.map Prod.snd)) (hne : keys ≠ []) (hlen : keys.length ≤ maxKeys)
    (hkeys : ∀ k ∈ keys, RoundTrips kt k) :
    Tree kt vt log (n + 1) (nodeCellKey (serializeInner keys (kids.map Prod.fst))) (kids.map Prod.snd).flatten := by
  have hchildren : (kids.map Prod.fst).length = keys.length + 1 := by
    have hlen := hsep.length
    rw [List.length_map, List.length_map] at hlen
    rw [List.length_map, hlen]
  exact .inr ⟨keys, kids, ⟨⟨hlen, hchildren, hkeys⟩, hlog, rfl⟩, hne, rfl, hkids, hsep⟩

/-- What an insertion has made of the entries of a sub-tree. -/
def SetOk (kt vt : Ty) (log : List Bytes) (n : ℕ) (es : List (Value × Value)) : SetResult → Prop
  | .plain hash => Tree kt vt log n hash es
  | .split left sep right => ∃ l r, es = l ++ r ∧ Tree kt vt log n left l ∧ Tree kt vt log n right r ∧
      (∀ e ∈ l, entryRank e < rank sep) ∧ (∀ e ∈ r, rank sep ≤ entryRank e) ∧ RoundTrips kt sep

/-- Entries that read back at their types. -/
def Kept (kt vt : Ty) (es : List (Value × Value)) : Prop := ∀ e ∈ es, RoundTrips kt e.1 ∧ RoundTrips vt e.2

/-- A leaf is written, or split in two. -/
theorem writeLeaf_ok (tx : Tx) (hne : es ≠ []) (hs : SortedBy entryRank es) (hkept : Kept kt vt es)
    (hlen : es.length ≤ maxKeys + 1) (n : ℕ) :
    SetOk kt vt (writeLeaf tx es).1.nodeLog (n + 1) es (writeLeaf tx es).2 := by
  rw [writeLeaf]
  split_ifs with hle
  · dsimp only [SetOk]
    rw [writeNode_snd, writeNode_nodeLog]
    exact tree_leaf (List.mem_append_right _ List.mem_cons_self) hne hs ⟨hle, hkept⟩ n
  · have hmax : maxKeys = 32 := rfl
    have hsplit := List.take_append_drop (es.length / 2) es
    have hl : es.take (es.length / 2) ≠ [] := by
      rw [← List.length_pos_iff, List.length_take]
      omega
    have hr : es.drop (es.length / 2) ≠ [] := by
      rw [← List.length_pos_iff, List.length_drop]
      omega
    obtain ⟨d, D, hD⟩ := List.exists_cons_of_ne_nil hr
    have hd : d ∈ es := List.mem_of_mem_drop (by rw [hD]; exact List.mem_cons_self)
    have hs' := hs
    rw [← hsplit, hD] at hs'
    obtain ⟨hsl, hsr, hlt⟩ := List.pairwise_append.mp hs'
    dsimp only [SetOk]
    rw [writeNode_snd, writeNode_snd, writeNode_nodeLog, writeNode_nodeLog]
    refine ⟨es.take (es.length / 2), es.drop (es.length / 2), hsplit.symm, ?_, ?_, fun e he => ?_, fun e he => ?_, ?_⟩
    · refine tree_leaf (by simp) hl hsl ⟨?_, fun e he => hkept e (List.mem_of_mem_take he)⟩ n
      rw [List.length_take]
      omega
    · refine tree_leaf (by simp) hr (by rw [hD]; exact hsr) ⟨?_, fun e he => hkept e (List.mem_of_mem_drop he)⟩ n
      rw [List.length_drop]
      omega
    · rw [hD]
      exact hlt e he d List.mem_cons_self
    · rw [hD] at he ⊢
      rcases List.mem_cons.mp he with rfl | he
      · exact le_rfl
      · exact ((List.pairwise_cons.mp hsr).1 e he).le
    · rw [hD]
      exact (hkept d hd).1

/-- An inner node is written, or split in two: the middle key goes up. -/
theorem writeInner_ok {keys : List Value} {kids : List (U128 × List (Value × Value))}
    (hkids : ∀ kid ∈ kids, Tree kt vt tx.nodeLog n kid.1 kid.2)
    (hsep : Separates entryRank (keys.map rank) (kids.map Prod.snd)) (hne : keys ≠ [])
    (hlen : keys.length ≤ maxKeys + 1) (hkeys : ∀ k ∈ keys, RoundTrips kt k) :
    SetOk kt vt (writeInner tx keys (kids.map Prod.fst)).1.nodeLog (n + 1) (kids.map Prod.snd).flatten
      (writeInner tx keys (kids.map Prod.fst)).2 := by
  rw [writeInner]
  split_ifs with hle
  · dsimp only [SetOk]
    rw [writeNode_snd, writeNode_nodeLog]
    exact tree_inner (List.mem_append_right _ List.mem_cons_self)
      (fun kid hk => (hkids kid hk).log (List.subset_append_left ..)) hsep hne hle hkeys
  · have hmax : maxKeys = 32 := rfl
    have hlt : keys.length / 2 < keys.length := by omega
    have hmid : keys[keys.length / 2]? = some keys[keys.length / 2] := List.getElem?_eq_getElem hlt
    have hcut : (keys.map rank)[keys.length / 2]? = some (rank keys[keys.length / 2]) := by
      rw [List.getElem?_map, hmid]
      rfl
    obtain ⟨hl, hr, hbelow, habove⟩ := hsep.cut hcut
    rw [← List.map_take, ← List.map_take] at hl
    rw [← List.map_drop, ← List.map_drop] at hr
    dsimp only [SetOk]
    rw [writeNode_snd, writeNode_snd, writeNode_nodeLog, writeNode_nodeLog, List.getD_eq_getElem?_getD, hmid,
      Option.getD_some, ← List.map_take, ← List.map_drop]
    have hsub : tx.nodeLog ⊆ tx.nodeLog ++ [serializeInner (keys.take (keys.length / 2))
        ((kids.take (keys.length / 2 + 1)).map Prod.fst)] ++ [serializeInner (keys.drop (keys.length / 2 + 1))
        ((kids.drop (keys.length / 2 + 1)).map Prod.fst)] := by
      rw [List.append_assoc]
      exact List.subset_append_left ..
    refine ⟨((kids.take (keys.length / 2 + 1)).map Prod.snd).flatten,
      ((kids.drop (keys.length / 2 + 1)).map Prod.snd).flatten, ?_, ?_, ?_, ?_, ?_, ?_⟩
    · rw [← List.flatten_append, ← List.map_append, List.take_append_drop]
    · refine tree_inner (by simp) (fun kid hk => (hkids kid (List.mem_of_mem_take hk)).log hsub) hl ?_ ?_
        fun k hk => hkeys k (List.mem_of_mem_take hk)
      · rw [← List.length_pos_iff, List.length_take]
        omega
      · rw [List.length_take]
        omega
    · refine tree_inner (by simp) (fun kid hk => (hkids kid (List.mem_of_mem_drop hk)).log hsub) hr ?_ ?_
        fun k hk => hkeys k (List.mem_of_mem_drop hk)
      · rw [← List.length_pos_iff, List.length_drop]
        omega
      · rw [List.length_drop]
        omega
    · rw [List.map_take]
      exact hbelow
    · rw [List.map_drop]
      exact habove
    · exact hkeys _ (List.getElem_mem hlt)

/-- A child gives way to another one in its slot. -/
theorem tree_replace {keys : List Value} {kids : List (U128 × List (Value × Value))} {pos : ℕ} {new : U128}
    (hkids : ∀ kid ∈ kids, Tree kt vt tx.nodeLog n kid.1 kid.2)
    (hsep : Separates entryRank (keys.map rank) (kids.map Prod.snd)) (hne : keys ≠ [])
    (hf : (Node.inner keys (kids.map Prod.fst)).Fits kt vt) (hnew : Tree kt vt tx.nodeLog n new es)
    (hslot : ∀ e ∈ es, InSlot (keys.map rank) pos (entryRank e)) :
    Tree kt vt (writeNode tx (serializeInner keys ((kids.map Prod.fst).set pos new))).1.nodeLog (n + 1)
      (writeNode tx (serializeInner keys ((kids.map Prod.fst).set pos new))).2
      ((kids.map Prod.snd).set pos es).flatten := by
  have hset := hsep.set hslot
  have hfst : (kids.map Prod.fst).set pos new = (kids.set pos (new, es)).map Prod.fst := by rw [List.map_set]
  have hsnd : (kids.map Prod.snd).set pos es = (kids.set pos (new, es)).map Prod.snd := by rw [List.map_set]
  rw [hsnd] at hset ⊢
  rw [hfst, writeNode_snd, writeNode_nodeLog]
  refine tree_inner (List.mem_append_right _ List.mem_cons_self) (fun kid hk => ?_) hset hne hf.1 hf.2.2
  rcases List.mem_or_eq_of_mem_set hk with hk | rfl
  · exact (hkids kid hk).log (List.subset_append_left ..)
  · exact hnew.log (List.subset_append_left ..)

/-! ### Insertion -/

theorem length_putEntry_le (es : List (Value × Value)) (key value : Value) :
    (putEntry es key value).length ≤ es.length + 1 := by
  rw [putEntry]
  split
  · rw [List.length_set]
    exact Nat.le_succ _
  · exact List.length_insertIdx_le_succ

/-- **An insertion puts the entry in its place.** -/
theorem setInner_eq (hkt : IsKeyTy kt) (h : Held kt vt tx n hash es) (hn : n ≤ fuel) {key value : Value}
    (hkey : RoundTrips kt key) (hvalue : RoundTrips vt value) :
    ∃ r, (setInner key value kt vt fuel hash tx).2 = .ok r ∧
      SetOk kt vt (setInner key value kt vt fuel hash tx).1.nodeLog n (insertBy entryRank (key, value) es) r := by
  have hkey' := keyOf_of_roundTrips hkt hkey
  induction n generalizing fuel hash es tx with
  | zero => exact h.tree.elim
  | succ n ih =>
    obtain ⟨fuel, rfl⟩ : ∃ m, fuel = m + 1 := ⟨fuel - 1, by omega⟩
    have hreads := readNode_reads tx hash kt vt
    rw [setInner]
    rcases h.read with ⟨hread, -, hs, hf⟩ | ⟨keys, kids, hread, hnonempty, rfl, hkids, hsep, hf⟩
    · generalize readNode tx hash kt vt = r at hread
      obtain ⟨tx₁, node⟩ := r
      subst hread
      have hput := putEntry_eq hs (keyOf_leaf hkt hf) hkey' value
      have hlen := length_putEntry_le es key value
      rw [hput] at hlen
      have hkept : Kept kt vt (insertBy entryRank (key, value) es) := by
        intro e he
        rcases mem_insertBy.mp he with rfl | ⟨he, -⟩
        · exact ⟨hkey, hvalue⟩
        · exact hf.2 e he
      have hne : insertBy entryRank (key, value) es ≠ [] := List.ne_nil_of_mem (mem_insertBy.mpr (.inl rfl))
      dsimp only
      rw [hput]
      exact ⟨_, rfl, writeLeaf_ok tx₁ hne (hs.insertBy _) hkept (hlen.trans (Nat.succ_le_succ hf.1)) n⟩
    · generalize readNode tx hash kt vt = r at hread hreads
      obtain ⟨tx₁, node⟩ := r
      subst hread
      obtain ⟨kid, hkid, hpart, hbefore, hbehind⟩ := exists_route hsep (rank key)
      have hpos := (List.getElem?_eq_some_iff.mp hpart).1
      have hfull : ∀ p ∈ kids.map Prod.snd, p ≠ [] := by
        intro p hp
        obtain ⟨k, hk, rfl⟩ := List.mem_map.mp hp
        exact (hkids k hk).tree.ne_nil
      have hslot : ∀ e ∈ insertBy entryRank (key, value) kid.2,
          InSlot (keys.map rank) (place (keys.map rank) (rank key)) (entryRank e) := by
        intro e he
        rcases mem_insertBy.mp he with rfl | ⟨he, -⟩
        · exact hsep.inSlot_place hfull (rank key)
        · exact hsep.inSlot hpart e he
      have hwhole : insertBy entryRank (key, value) (kids.map Prod.snd).flatten =
          ((kids.map Prod.snd).take (place (keys.map rank) (rank key))).flatten ++
            insertBy entryRank (key, value) kid.2 ++
            ((kids.map Prod.snd).drop (place (keys.map rank) (rank key) + 1)).flatten := by
        rw [flatten_eq hpart]
        exact insertBy_append hbefore hbehind
      dsimp only
      rw [descendPos_eq (keyOf_inner hkt hf) hkey', getD_kid hkid]
      have hfuel : n ≤ fuel := by omega
      obtain ⟨r, hr, hok⟩ := ih ((hkids kid (List.mem_of_getElem? hkid)).reads hreads) hfuel
      have hsteps := setInner_steps key value kt vt fuel kid.1 tx₁
      generalize setInner key value kt vt fuel kid.1 tx₁ = b at hr hok hsteps
      obtain ⟨tx₂, res⟩ := b
      subst hr
      have hkids' : ∀ kid ∈ kids, Tree kt vt tx₂.nodeLog n kid.1 kid.2 :=
        fun kid hk => ((hkids kid hk).reads hreads).tree.log hsteps.log_subset
      cases r with
      | plain new =>
        refine ⟨_, rfl, ?_⟩
        dsimp only [SetOk]
        rw [hwhole, ← flatten_set hpos]
        exact tree_replace hkids' hsep hnonempty hf hok hslot
      | split left sep right =>
        refine ⟨_, rfl, ?_⟩
        obtain ⟨l, r, hlr, hl, hr, hbelow, habove, hround⟩ := hok
        rw [hlr] at hwhole hslot
        rw [hwhole, ← flatten_insertIdx hpos]
        have hsplit := hsep.split hpos (fun e he => hslot e (List.mem_append_left _ he))
          (fun e he => hslot e (List.mem_append_right _ he)) hl.ne_nil hr.ne_nil hbelow habove
        have hfst : ((kids.map Prod.fst).set (place (keys.map rank) (rank key)) left).insertIdx
            (place (keys.map rank) (rank key) + 1) right =
            ((kids.set (place (keys.map rank) (rank key)) (left, l)).insertIdx
              (place (keys.map rank) (rank key) + 1) (right, r)).map Prod.fst := by
          rw [List.map_insertIdx, List.map_set]
        have hsnd : ((kids.map Prod.snd).set (place (keys.map rank) (rank key)) l).insertIdx
            (place (keys.map rank) (rank key) + 1) r =
            ((kids.set (place (keys.map rank) (rank key)) (left, l)).insertIdx
              (place (keys.map rank) (rank key) + 1) (right, r)).map Prod.snd := by
          rw [List.map_insertIdx, List.map_set]
        rw [hsnd] at hsplit ⊢
        rw [← List.map_insertIdx] at hsplit
        dsimp only
        rw [hfst]
        refine writeInner_ok (fun kid hk => ?_) hsplit ?_ ?_ fun k hk => ?_
        · rcases List.eq_or_mem_of_mem_insertIdx hk with rfl | hk
          · exact hr
          · rcases List.mem_or_eq_of_mem_set hk with hk | rfl
            · exact hkids' kid hk
            · exact hl
        · rw [← List.length_pos_iff]
          exact (List.length_pos_iff.mpr hnonempty).trans_le List.length_le_length_insertIdx
        · exact List.length_insertIdx_le_succ.trans (Nat.succ_le_succ hf.1)
        · rcases List.eq_or_mem_of_mem_insertIdx hk with rfl | hk
          · exact hround
          · exact hf.2.2 k hk

/-! ### Removal -/

/-- What a removal has made of the entries `es` of a sub-tree, where `es'` should remain. -/
def RemoveOk (kt vt : Ty) (log : List Bytes) (n : ℕ) (es es' : List (Value × Value)) : RemoveResult → Prop
  | .unchanged => es' = es
  | .plain hash => Tree kt vt log n hash es'
  | .gone => es' = []

/-- An empty child is dropped, and an inner node with one child left gives way to it. -/
theorem dropChild_ok {keys : List Value} {kids : List (U128 × List (Value × Value))} {pos : ℕ}
    (hkids : ∀ kid ∈ kids, Tree kt vt tx.nodeLog n kid.1 kid.2)
    (hsep : Separates entryRank (keys.map rank) (kids.map Prod.snd))
    (hf : (Node.inner keys (kids.map Prod.fst)).Fits kt vt) (hpos : pos < (kids.map Prod.snd).length) :
    RemoveOk kt vt (dropChild tx keys (kids.map Prod.fst) pos).1.nodeLog (n + 1) es
      ((kids.map Prod.snd).eraseIdx pos).flatten (dropChild tx keys (kids.map Prod.fst) pos).2 := by
  have hlen := hsep.length
  have hpos' := hpos
  rw [List.length_map] at hlen hpos'
  rw [List.length_map] at hlen
  have hfst : (kids.map Prod.fst).eraseIdx pos = (kids.eraseIdx pos).map Prod.fst := by rw [List.eraseIdx_map]
  have hsnd : (kids.map Prod.snd).eraseIdx pos = (kids.eraseIdx pos).map Prod.snd := by rw [List.eraseIdx_map]
  have hleft := List.length_eraseIdx_of_lt hpos'
  have hkept : ∀ kid ∈ kids.eraseIdx pos, Tree kt vt tx.nodeLog n kid.1 kid.2 :=
    fun kid hk => hkids kid (List.mem_of_mem_eraseIdx hk)
  rw [dropChild]
  dsimp only
  rw [hfst, hsnd]
  generalize hkeys : (if pos < keys.length then keys.eraseIdx pos
    else if 0 < pos then keys.eraseIdx (pos - 1) else keys) = newKeys
  by_cases hnone : kids.eraseIdx pos = []
  · rw [hnone, List.map_nil, List.map_nil, if_pos List.isEmpty_nil]
    exact List.flatten_nil
  · have hcount := List.length_pos_iff.mpr hnone
    rw [if_neg (by simpa using hnone)]
    split_ifs with hone
    · -- one child is left, and it is a tree already
      obtain ⟨kid, hkid⟩ : ∃ kid, kids.eraseIdx pos = [kid] := by
        rw [← List.length_eq_one_iff]
        simpa using (Bool.and_eq_true_iff.mp hone).2
      rw [hkid, List.map_singleton, List.map_singleton, List.flatten_singleton]
      exact (hkept kid (by rw [hkid]; exact List.mem_singleton_self kid)).succ
    · obtain ⟨q, hq, hbeside, rfl⟩ : ∃ q, q < keys.length ∧ (q = pos ∨ q + 1 = pos) ∧ newKeys = keys.eraseIdx q := by
        by_cases hlast : pos < keys.length
        · exact ⟨pos, hlast, .inl rfl, by rw [← hkeys, if_pos hlast]⟩
        · exact ⟨pos - 1, by omega, .inr (by omega), by rw [← hkeys, if_neg hlast, if_pos (by omega)]⟩
      have herase := hsep.erase hpos (q := q) (by rw [List.length_map]; exact hq) hbeside
      rw [hsnd, List.eraseIdx_map] at herase
      dsimp only [RemoveOk]
      rw [writeNode_snd, writeNode_nodeLog]
      refine tree_inner (List.mem_append_right _ List.mem_cons_self)
        (fun kid hk => (hkept kid hk).log (List.subset_append_left ..)) herase ?_ ?_
        fun k hk => hf.2.2 k (List.mem_of_mem_eraseIdx hk)
      · intro hnil
        refine hone (Bool.and_eq_true_iff.mpr ⟨List.isEmpty_iff.mpr hnil, ?_⟩)
        have hnil' := congrArg List.length hnil
        rw [List.length_eraseIdx_of_lt hq, List.length_nil] at hnil'
        rw [List.length_map, beq_iff_eq]
        omega
      · exact (List.length_eraseIdx_le ..).trans hf.1

/-- **A removal leaves out the entry of the key.** -/
theorem removeInner_eq (hkt : IsKeyTy kt) (h : Held kt vt tx n hash es) (hn : n ≤ fuel) {key : Value}
    (hkey : KeyOf kt key) :
    ∃ r, (removeInner key kt vt fuel hash tx).2 = .ok r ∧
      RemoveOk kt vt (removeInner key kt vt fuel hash tx).1.nodeLog n es (eraseBy entryRank (rank key) es) r := by
  induction n generalizing fuel hash es tx with
  | zero => exact h.tree.elim
  | succ n ih =>
    obtain ⟨fuel, rfl⟩ : ∃ m, fuel = m + 1 := ⟨fuel - 1, by omega⟩
    have hreads := readNode_reads tx hash kt vt
    rw [removeInner]
    rcases h.read with ⟨hread, -, hs, hf⟩ | ⟨keys, kids, hread, hnonempty, rfl, hkids, hsep, hf⟩
    · generalize readNode tx hash kt vt = r at hread
      obtain ⟨tx₁, node⟩ := r
      subst hread
      dsimp only
      rcases searchEntries_cases hs (keyOf_leaf hkt hf) hkey with
        ⟨T, d, D, rfl, hsearch, hd, hT, hD⟩ | ⟨T, D, rfl, hsearch, hT, hD⟩
      · have herase : eraseBy entryRank (rank key) (T ++ d :: D) = T ++ D := by
          have happend : eraseBy entryRank (rank key) (T ++ [d] ++ D) = T ++ eraseBy entryRank (rank key) [d] ++ D :=
            eraseBy_append hT hD
          rw [List.append_assoc, List.singleton_append] at happend
          rw [happend]
          simp [eraseBy, hd]
        have hidx : (T ++ d :: D).eraseIdx T.length = T ++ D := by
          rw [List.eraseIdx_append_of_length_le le_rfl, Nat.sub_self]
          rfl
        have hs' := hs.eraseBy (rank key)
        rw [herase] at hs'
        rw [hsearch, herase]
        dsimp only
        rw [hidx]
        split_ifs with hempty
        · exact ⟨_, rfl, List.isEmpty_iff.mp hempty⟩
        · have hsub : ∀ e ∈ T ++ D, e ∈ T ++ d :: D := by simp; tauto
          have hfit : (Node.leaf (T ++ D)).Fits kt vt := by
            refine ⟨?_, fun e he => hf.2 e (hsub e he)⟩
            have hlen := hf.1
            rw [List.length_append] at hlen ⊢
            exact le_trans (Nat.add_le_add_left (Nat.le_succ _) _) hlen
          refine ⟨_, rfl, ?_⟩
          dsimp only [RemoveOk]
          rw [writeNode_snd, writeNode_nodeLog]
          exact tree_leaf (List.mem_append_right _ List.mem_cons_self) (fun hnil => hempty (List.isEmpty_iff.mpr hnil))
            hs' hfit n
      · have herase : eraseBy entryRank (rank key) (T ++ [] ++ D) = T ++ [] ++ D := eraseBy_append hT hD
        rw [List.append_nil] at herase
        rw [hsearch]
        exact ⟨_, rfl, herase⟩
    · generalize readNode tx hash kt vt = r at hread hreads
      obtain ⟨tx₁, node⟩ := r
      subst hread
      obtain ⟨kid, hkid, hpart, hbefore, hbehind⟩ := exists_route hsep (rank key)
      have hpos := (List.getElem?_eq_some_iff.mp hpart).1
      have hslot : ∀ e ∈ eraseBy entryRank (rank key) kid.2,
          InSlot (keys.map rank) (place (keys.map rank) (rank key)) (entryRank e) :=
        fun e he => hsep.inSlot hpart e (mem_eraseBy.mp he).1
      have hwhole : eraseBy entryRank (rank key) (kids.map Prod.snd).flatten =
          ((kids.map Prod.snd).take (place (keys.map rank) (rank key))).flatten ++
            eraseBy entryRank (rank key) kid.2 ++
            ((kids.map Prod.snd).drop (place (keys.map rank) (rank key) + 1)).flatten := by
        rw [flatten_eq hpart]
        exact eraseBy_append hbefore hbehind
      dsimp only
      rw [descendPos_eq (keyOf_inner hkt hf) hkey, getD_kid hkid]
      have hfuel : n ≤ fuel := by omega
      obtain ⟨r, hr, hok⟩ := ih ((hkids kid (List.mem_of_getElem? hkid)).reads hreads) hfuel
      have hsteps := removeInner_steps key kt vt fuel kid.1 tx₁
      generalize removeInner key kt vt fuel kid.1 tx₁ = b at hr hok hsteps
      obtain ⟨tx₂, res⟩ := b
      subst hr
      have hkids' : ∀ kid ∈ kids, Tree kt vt tx₂.nodeLog n kid.1 kid.2 :=
        fun kid hk => ((hkids kid hk).reads hreads).tree.log hsteps.log_subset
      cases r with
      | unchanged =>
        refine ⟨_, rfl, ?_⟩
        dsimp only [RemoveOk] at hok ⊢
        rw [hwhole, hok, ← flatten_eq hpart]
      | plain new =>
        refine ⟨_, rfl, ?_⟩
        dsimp only [RemoveOk]
        rw [hwhole, ← flatten_set hpos]
        exact tree_replace hkids' hsep hnonempty hf hok hslot
      | gone =>
        refine ⟨_, rfl, ?_⟩
        dsimp only [RemoveOk] at hok
        rw [hwhole, hok, List.append_nil, ← flatten_eraseIdx]
        exact dropChild_ok hkids' hsep hf hpos

end Rend.Pbtree
