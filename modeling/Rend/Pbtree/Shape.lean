import Mathlib.Data.List.InsertIdx
import Mathlib.Data.Prod.Lex
import Rend.Lib.Separated
import Rend.Pmap.Refine
import Rend.Pbtree.Ops

/-!
# The shape of the sorted map

Keys of one supported type are compared by their rank, an element of a linear order. A node that fits its
types reads back from its bytes (`deserializeNode_bytes`).

`BTree R n h es` says that the node at the cell `h` is the root of a tree of at most `n` levels whose
leaves hold the entries `es` from left to right: leaves are sorted and not empty, each inner node has a
key, and its keys separate the entries of its children. `R` tells which node a cell holds. Nothing is said about
where the leaves stand, since removal leaves them at uneven depths.
-/

namespace Rend.Pbtree

open Lib Tx

open Pmap (RoundTrips)

/-! ### The order of keys -/

/-- The key types that are supported. -/
def IsKeyTy : Ty → Prop
  | .u64 => True
  | .u128 => True
  | .bytes => True
  | _ => False

/-- A key of the type. -/
def KeyOf : Ty → Value → Prop
  | .u64, .u64 _ => True
  | .u128, .u128 _ => True
  | .bytes, .bytes _ => True
  | _, _ => False

/-- What keys are compared by. -/
def rank : Value → ℕ ×ₗ Bytes
  | .u64 n => toLex (n.toNat, [])
  | .u128 n => toLex (n.toNat, [])
  | .bytes b => toLex (0, b)
  | _ => toLex (0, [])

/-- The rank of an entry is that of its key. -/
def entryRank (e : Value × Value) : ℕ ×ₗ Bytes := rank e.1

section Keys

variable {kt : Ty} {a b : Value}

theorem KeyOf.rank_injective (ha : KeyOf kt a) (hb : KeyOf kt b) (h : rank a = rank b) : a = b := by
  cases kt <;> cases a <;> try exact ha.elim
  all_goals cases b <;> try exact hb.elim
  all_goals simp only [rank, EmbeddingLike.apply_eq_iff_eq, Prod.mk.injEq, BitVec.toNat_inj, and_true, true_and] at h
  all_goals rw [h]

theorem KeyOf.compareKeys_eq (ha : KeyOf kt a) (hb : KeyOf kt b) : compareKeys a b = cmp (rank a) (rank b) := by
  have hfst : StrictMono fun n : ℕ => toLex (n, ([] : Bytes)) := fun m n h => by
    simpa [Prod.Lex.toLex_lt_toLex] using h
  have hsnd : StrictMono fun x : Bytes => toLex ((0 : ℕ), x) := fun x y h => by
    simpa [Prod.Lex.toLex_lt_toLex] using h
  cases kt <;> cases a <;> try exact ha.elim
  all_goals cases b <;> try exact hb.elim
  · exact (hfst.cmp_map_eq _ _).symm
  · exact (hfst.cmp_map_eq _ _).symm
  · rw [rank, rank, hsnd.cmp_map_eq, compareKeys]
    congr

theorem KeyOf.isLE (ha : KeyOf kt a) (hb : KeyOf kt b) : (compareKeys a b).isLE = decide (rank a ≤ rank b) := by
  rw [ha.compareKeys_eq hb, Bool.eq_iff_iff, decide_eq_true_iff, ← not_lt, ← cmp_eq_gt_iff]
  generalize cmp (rank a) (rank b) = o
  cases o <;> simp

theorem KeyOf.isLT (ha : KeyOf kt a) (hb : KeyOf kt b) : (compareKeys a b).isLT = decide (rank a < rank b) := by
  rw [ha.compareKeys_eq hb, Bool.eq_iff_iff, decide_eq_true_iff, ← cmp_eq_lt_iff]
  generalize cmp (rank a) (rank b) = o
  cases o <;> simp

theorem KeyOf.isEq (ha : KeyOf kt a) (hb : KeyOf kt b) : (compareKeys a b).isEq = decide (rank a = rank b) := by
  rw [ha.compareKeys_eq hb, Bool.eq_iff_iff, decide_eq_true_iff, ← cmp_eq_eq_iff (x := rank a)]
  generalize cmp (rank a) (rank b) = o
  cases o <;> simp

theorem KeyOf.isGT (ha : KeyOf kt a) (hb : KeyOf kt b) : (compareKeys a b).isGT = decide (rank b < rank a) := by
  rw [ha.compareKeys_eq hb, Bool.eq_iff_iff, decide_eq_true_iff, ← cmp_eq_gt_iff]
  generalize cmp (rank a) (rank b) = o
  cases o <;> simp

/-- What the store keeps at a key type is a key of the type. -/
theorem keyOf_of_roundTrips (hkt : IsKeyTy kt) (h : RoundTrips kt a) : KeyOf kt a := by
  have hdes := h.1
  cases kt <;> try exact hkt.elim
  all_goals
    rw [deserialize] at hdes
    obtain ⟨x, -, rfl⟩ := Option.map_eq_some_iff.mp hdes
    exact trivial

theorem takeWhile_congr {α : Type} {p q : α → Bool} {l : List α} (h : ∀ a ∈ l, p a = q a) :
    l.takeWhile p = l.takeWhile q := by
  induction l with
  | nil => rfl
  | cons a l ih =>
    rw [List.takeWhile_cons, List.takeWhile_cons, h a List.mem_cons_self,
      ih fun b hb => h b (List.mem_cons_of_mem _ hb)]

/-- The child to descend into is that of the slot of the key. -/
theorem descendPos_eq {keys : List Value} (hkeys : ∀ k ∈ keys, KeyOf kt k) (hb : KeyOf kt b) :
    descendPos keys b = place (keys.map rank) (rank b) := by
  rw [descendPos, place, List.takeWhile_map, List.length_map,
    takeWhile_congr fun k hk => (hkeys k hk).isLE hb]
  rfl

/-- Searching a sorted leaf. -/
theorem searchEntries_cases {entries : List (Value × Value)} (hs : SortedBy entryRank entries)
    (hkeys : ∀ e ∈ entries, KeyOf kt e.1) (hb : KeyOf kt b) :
    (∃ T d D, entries = T ++ d :: D ∧ searchEntries entries b = .inl T.length ∧ entryRank d = rank b ∧
      (∀ t ∈ T, entryRank t < rank b) ∧ ∀ t ∈ D, rank b < entryRank t) ∨
    ∃ T D, entries = T ++ D ∧ searchEntries entries b = .inr T.length ∧
      (∀ t ∈ T, entryRank t < rank b) ∧ ∀ t ∈ D, rank b < entryRank t := by
  have hT : ∀ t ∈ entries.takeWhile fun e => (compareKeys e.1 b).isLT, entryRank t < rank b := by
    intro t ht
    have hlt := List.mem_takeWhile_imp ht
    rw [(hkeys t (List.takeWhile_subset _ ht)).isLT hb, decide_eq_true_iff] at hlt
    exact hlt
  have hsplit := List.takeWhile_append_dropWhile (p := fun e : Value × Value => (compareKeys e.1 b).isLT) (l := entries)
  unfold searchEntries
  dsimp only
  cases hD : entries.dropWhile fun e => (compareKeys e.1 b).isLT with
  | nil =>
    rw [hD, List.append_nil] at hsplit
    rw [hsplit] at hT ⊢
    refine .inr ⟨entries, [], (List.append_nil _).symm, ?_, hT, List.forall_mem_nil _⟩
    rw [List.getElem?_eq_none le_rfl]
    rfl
  | cons d D =>
    rw [hD] at hsplit
    have hd : d ∈ entries := by
      rw [← hsplit]
      exact List.mem_append_right _ List.mem_cons_self
    have hget : entries[(entries.takeWhile fun e => (compareKeys e.1 b).isLT).length]? = some d := by
      conv_lhs => rw [← hsplit, List.getElem?_append_right (by rw [hsplit]), hsplit, Nat.sub_self]
      rfl
    have hge : ¬ entryRank d < rank b := by
      have hnot := not_of_takeWhile_length hget
      rw [(hkeys d hd).isLT hb, decide_eq_false_iff_not] at hnot
      exact hnot
    have hbehind : ∀ t ∈ D, entryRank d < entryRank t := by
      rw [← hsplit] at hs
      exact (List.pairwise_cons.mp (List.pairwise_append.mp hs).2.1).1
    rw [hget]
    have hany : Option.any (fun e : Value × Value => (compareKeys e.1 b).isEq) (some d) =
        decide (entryRank d = rank b) := (hkeys d hd).isEq hb
    rw [hany]
    by_cases heq : entryRank d = rank b
    · refine .inl ⟨_, d, D, hsplit.symm, if_pos (decide_eq_true heq), heq, hT, fun t ht => ?_⟩
      rw [← heq]
      exact hbehind t ht
    · have hlt : rank b < entryRank d := lt_of_le_of_ne (not_lt.mp hge) (Ne.symm heq)
      refine .inr ⟨_, d :: D, hsplit.symm, if_neg (by simpa using heq), hT, List.forall_mem_cons.mpr ⟨hlt, fun t ht => ?_⟩⟩
      exact hlt.trans (hbehind t ht)

/-- An entry is put where it belongs. -/
theorem putEntry_eq {entries : List (Value × Value)} (hs : SortedBy entryRank entries)
    (hkeys : ∀ e ∈ entries, KeyOf kt e.1) (hb : KeyOf kt b) (v : Value) :
    putEntry entries b v = insertBy entryRank (b, v) entries := by
  rw [putEntry]
  rcases searchEntries_cases hs hkeys hb with ⟨T, d, D, rfl, hsearch, hd, hT, hD⟩ | ⟨T, D, rfl, hsearch, hT, hD⟩
  · have hinsert : insertBy entryRank (b, v) (T ++ [d] ++ D) = T ++ insertBy entryRank (b, v) [d] ++ D :=
      insertBy_append hT hD
    have hd' : entryRank d = entryRank (b, v) := hd
    rw [List.append_assoc, List.singleton_append] at hinsert
    rw [hsearch, hinsert]
    simp [insertBy, hd']
  · have hinsert : insertBy entryRank (b, v) (T ++ [] ++ D) = T ++ insertBy entryRank (b, v) [] ++ D :=
      insertBy_append hT hD
    rw [List.append_nil] at hinsert
    rw [hsearch, hinsert]
    dsimp only
    rw [insertIdx_length_append, List.append_assoc]
    rfl

end Keys

/-! ### Nodes read back -/

/-- The bytes of a node. -/
def Node.bytes : Node → Bytes
  | .inner keys children => serializeInner keys children
  | .leaf entries => serializeLeaf entries

/-- A node that its cell keeps: not too large, with a child more than keys, and with keys and values that
read back at their types. -/
def Node.Fits (kt vt : Ty) : Node → Prop
  | .inner keys children => keys.length ≤ maxKeys ∧ children.length = keys.length + 1 ∧ ∀ k ∈ keys, RoundTrips kt k
  | .leaf entries => entries.length ≤ maxKeys ∧ ∀ e ∈ entries, RoundTrips kt e.1 ∧ RoundTrips vt e.2

theorem readKeys_append {kt : Ty} (pre post : Bytes) {keys : List Value} (h : ∀ k ∈ keys, RoundTrips kt k) :
    readKeys kt (pre ++ ((keys.flatMap fun k => withLen (serialize k)) ++ post)) keys.length pre.length =
      some (keys, pre.length + (keys.flatMap fun k => withLen (serialize k)).length) := by
  induction keys generalizing pre with
  | nil => rfl
  | cons k keys ih =>
    obtain ⟨hk, hlen⟩ := h k List.mem_cons_self
    let rest := (keys.flatMap fun k => withLen (serialize k)) ++ post
    have hcell : pre ++ (((k :: keys).flatMap fun k => withLen (serialize k)) ++ post) =
        pre ++ (lenBytes (serialize k).length ++ (serialize k ++ rest)) := by
      simp [rest, withLen]
    have hlen4 : (lenBytes (serialize k).length).length = 4 := by simp [lenBytes]
    have h₁ : lenAt (pre ++ (lenBytes (serialize k).length ++ (serialize k ++ rest))) pre.length =
        some (serialize k).length := Pmap.lenAt_append rfl hlen
    have h₂ : getRange (pre ++ (lenBytes (serialize k).length ++ (serialize k ++ rest))) (pre.length + 4)
        (pre.length + 4 + (serialize k).length) = some (serialize k) := by
      rw [← List.append_assoc]
      exact Pmap.getRange_append (by simp [hlen4]) (by simp [hlen4])
    have h₃ := ih (pre ++ (lenBytes (serialize k).length ++ serialize k)) fun w hw =>
      h w (List.mem_cons_of_mem _ hw)
    have hpos : (pre ++ (lenBytes (serialize k).length ++ serialize k)).length =
        pre.length + 4 + (serialize k).length := by
      simp only [List.length_append, hlen4]
      omega
    rw [hpos] at h₃
    simp only [List.append_assoc] at h₃
    rw [show (List.flatMap (fun k => withLen (serialize k)) keys ++ post) = rest from rfl] at h₃
    rw [hcell, List.length_cons, readKeys]
    simp only [Option.bind_eq_bind, h₁, h₂, Option.bind_some, hk, h₃]
    rw [List.flatMap_cons, List.length_append, withLen, List.length_append, hlen4]
    congr 2
    omega

/-- A node reads back. -/
theorem deserializeNode_bytes {kt vt : Ty} {node : Node} (h : node.Fits kt vt) :
    deserializeNode kt vt node.bytes = some node := by
  cases node with
  | inner keys children =>
    obtain ⟨hlen, hchildren, hkeys⟩ := h
    have hlen4 : (lenBytes keys.length).length = 4 := by simp [lenBytes]
    have hn : lenAt (serializeInner keys children) 1 = some keys.length := by
      have := @Pmap.lenAt_append [tagInner] ((keys.flatMap fun k => withLen (serialize k)) ++
        children.flatMap fun h => wordBytes 16 h) 1 keys.length rfl (lt_of_le_of_lt hlen (by decide))
      simpa [serializeInner] using this
    have hread := readKeys_append (tagInner :: lenBytes keys.length) (children.flatMap fun h => wordBytes 16 h) hkeys
    rw [List.length_cons, hlen4] at hread
    have hkids := Pmap.readChildren_append
      (tagInner :: (lenBytes keys.length ++ keys.flatMap fun k => withLen (serialize k))) [] children
    rw [List.length_cons, List.length_append, hlen4, List.append_nil] at hkids
    have hcell : serializeInner keys children = (tagInner :: lenBytes keys.length) ++
        ((keys.flatMap fun k => withLen (serialize k)) ++ children.flatMap fun h => wordBytes 16 h) := by
      simp [serializeInner]
    have hcell' : serializeInner keys children =
        (tagInner :: (lenBytes keys.length ++ keys.flatMap fun k => withLen (serialize k))) ++
          children.flatMap fun h => wordBytes 16 h := by
      simp [serializeInner]
    rw [← hcell] at hread
    rw [← hcell', hchildren, show 4 + (keys.flatMap fun k => withLen (serialize k)).length + 1 =
      4 + 1 + (keys.flatMap fun k => withLen (serialize k)).length by omega] at hkids
    have hhead : (serializeInner keys children).head? = some tagInner := rfl
    rw [Node.bytes, deserializeNode, if_pos hhead, hn]
    simp only [Option.bind_eq_bind, Option.bind_some, hread, hkids]
  | leaf entries =>
    obtain ⟨hlen, hentries⟩ := h
    have hn : lenAt (serializeLeaf entries) 1 = some entries.length := by
      have := @Pmap.lenAt_append [tagLeaf] (entries.flatMap fun e => withLen (serialize e.1) ++
        withLen (serialize e.2)) 1 entries.length rfl (lt_of_le_of_lt hlen (by decide))
      simpa [serializeLeaf] using this
    have hcodes : ∀ e ∈ entries.map Pmap.encEntry, Pmap.Codes kt e.1 ∧ Pmap.Codes vt e.2 := by
      intro e he
      obtain ⟨e, hmem, rfl⟩ := List.mem_map.mp he
      exact ⟨(hentries e hmem).1.codes, (hentries e hmem).2.codes⟩
    have hdec : (entries.map Pmap.encEntry).map (Pmap.decEntry kt vt) = entries := by
      rw [List.map_map]
      conv_rhs => rw [← List.map_id entries]
      refine List.map_congr_left fun e he => ?_
      exact Prod.ext (hentries e he).1.decode (hentries e he).2.decode
    have hread := Pmap.readEntries_append (tagLeaf :: lenBytes entries.length) [] hcodes
    rw [hdec, List.length_map, List.flatMap_map, List.append_nil] at hread
    have htag : ¬ (serializeLeaf entries).head? = some tagInner := by simp [serializeLeaf, tagLeaf, tagInner]
    have hhead : (serializeLeaf entries).head? = some tagLeaf := rfl
    have hcursor : (tagLeaf :: lenBytes entries.length).length = 5 := by simp [lenBytes]
    rw [hcursor] at hread
    have hcell : serializeLeaf entries = (tagLeaf :: lenBytes entries.length) ++
        entries.flatMap fun e => withLen (Pmap.encEntry e).1 ++ withLen (Pmap.encEntry e).2 := rfl
    rw [← hcell] at hread
    rw [Node.bytes, deserializeNode, if_neg htag, if_pos hhead, hn]
    simp only [Option.bind_eq_bind, Option.bind_some, hread]

/-! ### Trees -/

/-- The node at a cell is the root of a tree of at most `n` levels with these entries. `R` tells which
node a cell holds. -/
def BTree (R : U128 → Node → Prop) : ℕ → U128 → List (Value × Value) → Prop
  | 0, _, _ => False
  | n + 1, h, es => (R h (.leaf es) ∧ es ≠ [] ∧ SortedBy entryRank es) ∨
      ∃ keys, ∃ kids : List (U128 × List (Value × Value)), R h (.inner keys (kids.map Prod.fst)) ∧ keys ≠ [] ∧
        es = (kids.map Prod.snd).flatten ∧ (∀ kid ∈ kids, BTree R n kid.1 kid.2) ∧
        Separates entryRank (keys.map rank) (kids.map Prod.snd)

section Trees

variable {R R' : U128 → Node → Prop} {n : ℕ} {h : U128} {es : List (Value × Value)}

theorem BTree.mono (hR : ∀ h node, R h node → R' h node) (ht : BTree R n h es) : BTree R' n h es := by
  induction n generalizing h es with
  | zero => exact ht
  | succ n ih =>
    rcases ht with ⟨hleaf, hne, hs⟩ | ⟨keys, kids, hinner, hkeys, hes, hkids, hsep⟩
    · exact .inl ⟨hR _ _ hleaf, hne, hs⟩
    · exact .inr ⟨keys, kids, hR _ _ hinner, hkeys, hes, fun kid hk => ih (hkids kid hk), hsep⟩

theorem BTree.succ (ht : BTree R n h es) : BTree R (n + 1) h es := by
  induction n generalizing h es with
  | zero => exact ht.elim
  | succ n ih =>
    rcases ht with hleaf | ⟨keys, kids, hinner, hkeys, hes, hkids, hsep⟩
    · exact .inl hleaf
    · exact .inr ⟨keys, kids, hinner, hkeys, hes, fun kid hk => ih (hkids kid hk), hsep⟩

theorem BTree.ne_nil (ht : BTree R n h es) : es ≠ [] := by
  induction n generalizing h es with
  | zero => exact ht.elim
  | succ n ih =>
    rcases ht with ⟨-, hne, -⟩ | ⟨keys, kids, -, -, rfl, hkids, hsep⟩
    · exact hne
    · have hlen := hsep.length
      rw [List.length_map] at hlen
      obtain ⟨kid, hk⟩ := List.exists_mem_of_length_pos (show 0 < kids.length by omega)
      obtain ⟨e, he⟩ := List.exists_mem_of_ne_nil _ (ih (hkids kid hk))
      exact List.ne_nil_of_mem (List.mem_flatten.mpr ⟨kid.2, List.mem_map_of_mem hk, he⟩)

theorem BTree.sorted (ht : BTree R n h es) : SortedBy entryRank es := by
  induction n generalizing h es with
  | zero => exact ht.elim
  | succ n ih =>
    rcases ht with ⟨-, -, hs⟩ | ⟨keys, kids, -, -, rfl, hkids, hsep⟩
    · exact hs
    · refine hsep.sorted_flatten fun p hp => ?_
      obtain ⟨kid, hk, rfl⟩ := List.mem_map.mp hp
      exact ih (hkids kid hk)

end Trees

/-- The cell holds a node of the log, which fits its types. -/
structure Logged (kt vt : Ty) (log : List Bytes) (h : U128) (node : Node) : Prop where
  fits : node.Fits kt vt
  mem : node.bytes ∈ log
  key : h = nodeCellKey node.bytes

theorem Logged.mono {kt vt : Ty} {log log' : List Bytes} (hsub : log ⊆ log') (h : U128) (node : Node)
    (hl : Logged kt vt log h node) : Logged kt vt log' h node :=
  { hl with mem := hsub hl.mem }

end Rend.Pbtree
