import Rend.Pmap.Merge

/-!
# Roots that can be followed

A root is `Sound` for a set of nodes when the trie below it fits its types and all its nodes are in the
set. Nothing is said about where the keys sit, so soundness survives every call of the map, a split
that puts a node too high included. `Sound.set`, `Sound.remove` and `Sound.merge` show that each
operation leads from sound roots to a sound root, over the nodes it has written.
-/

namespace Rend.Pmap

open Lib Tx

variable {kt vt : Ty}

/-! ### Depth -/

theorem Trie.Shallow.mono {T : Trie} {H L L' : ℕ} (h : T.Shallow H L) (hL : L' ≤ L) : T.Shallow H L' := by
  induction T generalizing L L' with
  | empty => exact trivial
  | leaf es => exact trivial
  | inner kids ih => exact ⟨by have := h.1; omega, fun s => ih s (h.2 s) (by omega)⟩

theorem Trie.shallow_build (f L : ℕ) (es : List (Bytes × Bytes)) {H L' : ℕ} (h : L' + f ≤ H) :
    Trie.Shallow H (HTree.build slotOf f L es) L' := by
  induction f generalizing L L' es with
  | zero =>
    rw [HTree.build]
    split_ifs <;> exact trivial
  | succ f ih =>
    rw [HTree.build]
    split_ifs
    · exact trivial
    · exact trivial
    · exact ih (L + 1) es (by omega)
    · exact ⟨by omega, fun s => ih (L + 1) _ (by omega)⟩

theorem Trie.Shallow.update {kids : Fin 32 → Trie} {H L : ℕ} (h : Trie.Shallow H (.inner kids) L)
    (s : Fin 32) {c : Trie} (hc : c.Shallow H (L + 1)) :
    Trie.Shallow H (.inner (Function.update kids s c)) L := by
  refine ⟨h.1, fun t => ?_⟩
  by_cases ht : t = s
  · subst ht
    rwa [Function.update_self]
  · rw [Function.update_of_ne ht]
    exact h.2 t

theorem Trie.Shallow.put {T : Trie} {L : ℕ} (h : T.Shallow 13 L) (key value : Value) :
    Trie.Shallow 13 (T.put kt key value L) L := by
  induction T generalizing L with
  | empty => exact trivial
  | leaf es =>
    rw [Trie.put]
    cases position kt key es with
    | some idx => exact trivial
    | none =>
      dsimp only
      split_ifs with hL
      · exact trivial
      · exact shallow_build _ _ _ (by simp only [maxLevels] at hL ⊢; omega)
  | inner kids ih => exact h.update _ (ih _ (h.2 _))

theorem Trie.Shallow.node {kids : Fin 32 → Trie} {H L : ℕ} (h : Trie.Shallow H (.inner kids) L) :
    Trie.Shallow H (HTree.node kids) L := by
  rw [HTree.node]
  split_ifs
  · exact trivial
  · exact h

theorem Trie.Shallow.drop {T : Trie} {H L : ℕ} (h : T.Shallow H L) (key : Value) :
    Trie.Shallow H (T.drop kt key L).1 L := by
  induction T generalizing L with
  | empty => exact trivial
  | leaf es =>
    rw [Trie.drop]
    cases position kt key es with
    | some idx =>
      dsimp only
      split_ifs <;> exact trivial
    | none => exact trivial
  | inner kids ih =>
    rw [Trie.drop, Trie.dropped]
    split_ifs
    · exact (h.update _ (ih _ (h.2 _))).node
    · exact h

theorem Trie.Shallow.mergeTop {A B C M : Trie} {rest : Option Trie} {H L : ℕ} (hA : A.Shallow H L)
    (hB : B.Shallow H L) (hrest : rest = some M → M.Shallow H L)
    (h : HTree.mergeTop A B C rest = some M) : M.Shallow H L := by
  rw [HTree.mergeTop] at h
  split_ifs at h
  · exact Option.some.inj h ▸ hA
  · exact Option.some.inj h ▸ hB
  · exact Option.some.inj h ▸ hA
  · exact hrest h

/-- A merged trie has inner nodes only where one of the sides has. -/
theorem Trie.Shallow.merge {fuse : List (Bytes × Bytes) → List (Bytes × Bytes) → List (Bytes × Bytes) →
      Option (List (Bytes × Bytes))} {A B C M : Trie} {H L : ℕ} (hA : A.Shallow H L) (hB : B.Shallow H L)
    (h : HTree.merge fuse A B C = some M) : M.Shallow H L := by
  have hnone : (none : Option Trie) = some M → M.Shallow H L := fun h => by cases h
  induction A generalizing B C M L with
  | empty =>
    rw [HTree.merge] at h
    · exact hA.mergeTop hB hnone h
    · simp
    · simp
  | leaf ea =>
    cases B with
    | leaf eb =>
      rw [HTree.merge] at h
      refine hA.mergeTop hB (fun hM => ?_) h
      obtain ⟨es, -, rfl⟩ := Option.map_eq_some_iff.1 hM
      cases es <;> exact trivial
    | _ =>
      rw [HTree.merge] at h
      · exact hA.mergeTop hB hnone h
      · simp
      · simp
  | inner ka ih =>
    cases B with
    | inner kb =>
      rw [HTree.merge] at h
      refine hA.mergeTop hB (fun hM => ?_) h
      obtain ⟨km, hkm, rfl⟩ := HTree.mergeKids_eq_some hM
      exact Trie.Shallow.node ⟨hA.1, fun s => ih s (hA.2 s) (hB.2 s) (hkm s) fun h => by cases h⟩
    | _ =>
      rw [HTree.merge] at h
      · exact hA.mergeTop hB hnone h
      · simp
      · simp

/-! ### Room -/

/-- A leaf that fits a cell has room for one more entry. -/
theorem Trie.Fits.put {T : Trie} (h : T.Fits kt vt) (hsmall : ∀ e ∈ T.encs, e.length < 2 ^ 32) {L : ℕ}
    {key value : Value} (hk : RoundTrips kt key) (hv : RoundTrips vt value) :
    Trie.Fits kt vt (T.put kt key value L) := by
  induction T generalizing L with
  | empty => exact ⟨by simp, by simp, by simpa using ⟨hk.codes, hv.codes⟩⟩
  | leaf es =>
    have hbytes : (leafBytes es).length < 2 ^ 32 := hsmall _ (by simp [Trie.encs])
    exact h.put_leaf hk hv (.inr (lt_of_le_of_lt (length_lt_leafBytes es) hbytes))
  | inner kids ih =>
    refine h.update _ (Trie.put_ne_empty _ _ _ _ _) (ih _ (h.2 _) fun e he => hsmall e ?_)
    exact Trie.mem_encs_inner.2 (.inr ⟨_, he⟩)

/-! ### Sound roots -/

/-- Nodes that can be kept: their hashes do not collide and they fit a cell. -/
structure Keepable (S : Set Bytes) : Prop extends NodeSet S where
  small : ∀ e ∈ S, e.length < 2 ^ 32

theorem Keepable.anti {S S' : Set Bytes} (h : Keepable S') (hs : S ⊆ S') : Keepable S :=
  ⟨h.toNodeSet.mono hs, fun e he => h.small e (hs he)⟩

/-- The root is that of a trie made of these nodes. -/
def Sound (K : Set Bytes) (kt vt : Ty) (root : U128) : Prop :=
  ∃ T : Trie, root = T.hash ∧ T.Fits kt vt ∧ T.Shallow 13 0 ∧ ∀ e ∈ T.encs, e ∈ K

theorem Sound.mono {K K' : Set Bytes} {root : U128} (h : Sound K kt vt root) (hK : K ⊆ K') :
    Sound K' kt vt root := by
  obtain ⟨T, hroot, hfits, hsh, henc⟩ := h
  exact ⟨T, hroot, hfits, hsh, fun e he => hK (henc e he)⟩

theorem sound_empty (K : Set Bytes) : Sound K kt vt emptyRoot :=
  ⟨.empty, rfl, trivial, trivial, by simp [Trie.encs]⟩

/-- The transaction shows all these nodes. -/
def Shown (K : Set Bytes) (tx : Tx) : Prop := ∀ e ∈ K, tx.shows (nodeCellKey e) = some e

/-- The nodes a transaction has written. -/
def logged (tx : Tx) : Set Bytes := {e | e ∈ tx.nodeLog}

variable {K : Set Bytes} {tx : Tx} {root : U128}

theorem Sound.set (h : Sound K kt vt root) (hK : Keepable K) (hshown : Shown K tx) {key value : Value}
    (hk : RoundTrips kt key) (hv : RoundTrips vt value) :
    ∃ tx' root', set root key value tx kt vt = (tx', root') ∧ Steps tx tx' ∧
      Sound (K ∪ logged tx') kt vt root' := by
  obtain ⟨T, rfl, hfits, hsh, henc⟩ := h
  have hheld : T.Held tx.shows := fun e he => ⟨hK.ne_empty e (henc e he), hshown e (henc e he)⟩
  obtain ⟨tx', hset, hsteps, hlog⟩ := set_eq key value hheld hfits hsh
  refine ⟨tx', _, hset, hsteps.steps, _, rfl, ?_, hsh.put _ _, fun e he => ?_⟩
  · exact hfits.put (fun e he => hK.small e (henc e he)) hk hv
  · exact (hlog e he).imp_left (henc e)

theorem Sound.remove (h : Sound K kt vt root) (hK : Keepable K) (hshown : Shown K tx) {key : Value}
    (hz : ∀ e ∈ (remove root key tx kt vt).1.nodeLog, nodeCellKey e ≠ emptyRoot) :
    ∃ tx' root' found, remove root key tx kt vt = (tx', root', found) ∧ Steps tx tx' ∧
      Sound (K ∪ logged tx') kt vt root' := by
  obtain ⟨T, rfl, hfits, hsh, henc⟩ := h
  have hheld : T.Held tx.shows := fun e he => ⟨hK.ne_empty e (henc e he), hshown e (henc e he)⟩
  obtain ⟨tx', hrem, hsteps, hlog⟩ := remove_eq key hheld hfits hsh hz
  exact ⟨tx', _, _, hrem, hsteps.steps, _, rfl, hfits.drop key 0, hsh.drop key,
    fun e he => (hlog e he).imp_left (henc e)⟩

/-- The store holds all these nodes. -/
def Kept (K : Set Bytes) (kv : Kv) : Prop := ∀ e ∈ K, nodeAt kv (nodeCellKey e) = some e

/-- A merge of sound roots is a sound root, over its new cells. -/
theorem Sound.merge {kv : Kv} {a b base : U128} (ha : Sound K kt vt a) (hb : Sound K kt vt b)
    (hbase : Sound K kt vt base) (hK : Keepable K) (hkept : Kept K kv) {r : MergeResult}
    (hr : mergeThreeWay a b base kv kt vt = some r) :
    (∀ c ∈ r.newCells, c.1 = nodeCellKey c.2) ∧ (Keepable {e | ∃ c ∈ r.newCells, c.2 = e} →
      Sound (K ∪ {e | ∃ c ∈ r.newCells, c.2 = e}) kt vt r.root) := by
  obtain ⟨A, rfl, hfA, hsA, hA⟩ := ha
  obtain ⟨B, rfl, hfB, hsB, hB⟩ := hb
  obtain ⟨C, rfl, hfC, -, hC⟩ := hbase
  have hheld : ∀ {T : Trie}, (∀ e ∈ T.encs, e ∈ K) → T.Held (nodeAt kv) :=
    fun hT e he => ⟨hK.ne_empty e (hT e he), hkept e (hT e he)⟩
  have hmerges := mergeAt_eq (hheld hA) (hheld hB) (hheld hC) hfA hfB hfC hsA
    (show 14 ≤ depth + 0 by simp [depth]) (by omega) []
  obtain ⟨⟨h, out⟩, hat, rfl⟩ := Option.map_eq_some_iff.1 hr
  cases hm : HTree.merge (fuseLeaves kt vt) A B C with
  | none =>
    rw [hm, MergesTo, hat] at hmerges
    cases hmerges
  | some M =>
    rw [hm] at hmerges
    obtain ⟨h', new, heq, hkey, hgood⟩ := hmerges
    rw [hat, List.nil_append] at heq
    cases heq
    refine ⟨hkey, fun hnew => ?_⟩
    obtain ⟨hh, hfM, hencs⟩ := hgood fun c hc =>
      ⟨by rw [hkey c hc]; exact hnew.ne_empty _ ⟨c, hc, rfl⟩, hnew.small _ ⟨c, hc, rfl⟩⟩
    refine ⟨M, hh, hfM, hsA.merge hsB hm, fun e he => ?_⟩
    rcases hencs e he with he | he | he
    · exact .inl (hA e he)
    · exact .inl (hB e he)
    · exact .inr (List.mem_map.1 he)

end Rend.Pmap
