import Rend.Pmap.Ops
import Rend.Nodes

/-!
# Stored tries

A persistent map is a trie whose nodes are spread over cells. `Trie` is the abstract trie over encoded
keys and values; `Trie.hash` is the root the code computes for it and `Trie.encs` the encodings of its
nodes. `Trie.Held view T` says that a view of the store shows every node of `T` at its own cell.

The operations inside a transaction touch node cells only by reading a cell into the cache and by
writing a node (`Tx.Steps`). From this one description follow the facts all later proofs use: the
log of written encodings grows (`Steps.log_subset`), and where node hashes do not collide a held trie
stays held (`Steps.held`).
-/

namespace Rend.Pmap

open Lib

/-- A trie of encoded keys and values. -/
abbrev Trie := HTree Bytes Bytes 32

/-- The slot of an encoded key at a level. -/
def slotOf (kb : Bytes) (level : ℕ) : Fin 32 := bitsAt (hashBytes kb) level

namespace Trie

/-- The hash a parent links this trie by, none when it is empty. -/
def link : Trie → Option U128
  | .empty => none
  | .leaf es => some (nodeCellKey (leafBytes es))
  | .inner kids => some (nodeCellKey (serializeInner (bits fun s => link (kids s))
      (dense fun s => link (kids s))))

/-- The root hash. -/
def hash (T : Trie) : U128 := T.link.getD emptyRoot

/-- The bytes of the topmost node. -/
def enc : Trie → Bytes
  | .empty => []
  | .leaf es => leafBytes es
  | .inner kids => serializeInner (bits fun s => link (kids s)) (dense fun s => link (kids s))

/-- The bytes of every node. -/
def encs : Trie → List Bytes
  | .empty => []
  | .leaf es => [leafBytes es]
  | .inner kids => serializeInner (bits fun s => link (kids s)) (dense fun s => link (kids s)) ::
      (List.finRange 32).flatMap fun s => encs (kids s)

/-- Leaves are as the code writes them for these types: not empty, and with keys, values and a number of entries
that fit their length fields. -/
def Fits (kt vt : Ty) : Trie → Prop
  | .empty => True
  | .leaf es => es ≠ [] ∧ es.length < 2 ^ 32 ∧ ∀ e ∈ es, Codes kt e.1 ∧ Codes vt e.2
  | .inner kids => (∃ s, kids s ≠ .empty) ∧ ∀ s, Fits kt vt (kids s)

/-- Inner nodes stand above level `H`. -/
def Shallow (H : ℕ) : Trie → ℕ → Prop
  | .inner kids, L => L < H ∧ ∀ s, Shallow H (kids s) (L + 1)
  | _, _ => True

/-- The nodes of the trie. -/
abbrev nodes (T : Trie) : Set Bytes := {e | e ∈ T.encs}

/-- The view shows each node of the trie at its cell. -/
def Held (view : U128 → Option Bytes) (T : Trie) : Prop :=
  ∀ e ∈ T.encs, nodeCellKey e ≠ emptyRoot ∧ view (nodeCellKey e) = some e

@[simp] theorem hash_empty : hash .empty = emptyRoot := rfl

@[simp] theorem hash_leaf (es : List (Bytes × Bytes)) :
    hash (.leaf es) = nodeCellKey (leafBytes es) := by
  rw [hash, link, Option.getD_some]

@[simp] theorem hash_inner (kids : Fin 32 → Trie) : hash (.inner kids) =
    nodeCellKey (serializeInner (bits fun s => link (kids s)) (dense fun s => link (kids s))) := by
  rw [hash, link, Option.getD_some]

@[simp] theorem link_eq_none_iff {T : Trie} : T.link = none ↔ T = .empty := by
  cases T <;> simp [link]

theorem link_isSome_iff {T : Trie} : T.link.isSome ↔ T ≠ .empty := by
  rw [Option.isSome_iff_ne_none, Ne, link_eq_none_iff]

theorem link_of_ne_empty {T : Trie} (h : T ≠ .empty) : T.link = some T.hash := by
  cases T with
  | empty => exact absurd rfl h
  | leaf es => rw [hash_leaf, link]
  | inner kids => rw [hash_inner, link]

theorem hash_of_ne_empty {T : Trie} (h : T ≠ .empty) : T.hash = nodeCellKey T.enc := by
  cases T with
  | empty => exact absurd rfl h
  | leaf es => rw [hash_leaf, enc]
  | inner kids => rw [hash_inner, enc]

theorem enc_mem_encs {T : Trie} (h : T ≠ .empty) : T.enc ∈ T.encs := by
  cases T with
  | empty => exact absurd rfl h
  | leaf es => simp [enc, encs]
  | inner kids => simp [enc, encs]

theorem mem_encs_inner {kids : Fin 32 → Trie} {e : Bytes} :
    e ∈ encs (.inner kids) ↔ e = enc (.inner kids) ∨ ∃ s, e ∈ encs (kids s) := by
  simp [encs, enc]

theorem nodes_kid {kids : Fin 32 → Trie} (s : Fin 32) : nodes (kids s) ⊆ nodes (.inner kids) :=
  fun _ he => mem_encs_inner.2 (.inr ⟨s, he⟩)

theorem Held.kid {view : U128 → Option Bytes} {kids : Fin 32 → Trie} (h : Held view (.inner kids))
    (s : Fin 32) : Held view (kids s) :=
  fun e he => h e (mem_encs_inner.2 (.inr ⟨s, he⟩))

theorem Held.root {view : U128 → Option Bytes} {T : Trie} (h : Held view T) (hne : T ≠ .empty) :
    T.hash ≠ emptyRoot ∧ view T.hash = some T.enc := by
  rw [hash_of_ne_empty hne]
  exact h _ (enc_mem_encs hne)

theorem Held.hash_ne {view : U128 → Option Bytes} {T : Trie} (h : Held view T) :
    T.hash = emptyRoot ↔ T = .empty := by
  constructor
  · intro hT
    by_contra hne
    exact (h.root hne).1 hT
  · rintro rfl
    rfl

theorem held_empty (view : U128 → Option Bytes) : Held view .empty := by
  intro e he
  simp [encs] at he

/-- The node decodes to its entries, or to its children's hashes. -/
theorem deserializeNode_enc_leaf {kt vt : Ty} {es : List (Bytes × Bytes)}
    (h : Fits kt vt (.leaf es)) :
    deserializeNode kt vt (enc (.leaf es)) = some (.leaf (es.map (decEntry kt vt))) :=
  deserializeNode_leaf h.2.1 h.2.2

theorem deserializeNode_enc_inner (kt vt : Ty) (kids : Fin 32 → Trie) :
    deserializeNode kt vt (enc (.inner kids)) =
      some (.inner (bits fun s => link (kids s)) (dense fun s => link (kids s))) :=
  deserializeNode_inner kt vt (countOnes_bits _)

/-- The child the code follows at a slot. -/
theorem dense_getD_link {kids : Fin 32 → Trie} {s : Fin 32} (h : kids s ≠ .empty) :
    (dense fun s => link (kids s)).getD (rank (bits fun s => link (kids s)) s) 0 =
      (kids s).hash := by
  have hs : ((fun s => link (kids s)) s).isSome := link_isSome_iff.2 h
  rw [List.getD_eq_getElem?_getD, dense_getElem? hs, link_of_ne_empty h]
  rfl

theorem and_bitAt_link {kids : Fin 32 → Trie} {s : Fin 32} :
    (bits fun s => link (kids s)) &&& bitAt s = 0#32 ↔ kids s = .empty := by
  rw [and_bitAt_eq_zero_iff, bitSet_bits, Option.isSome_eq_false_iff, Option.isNone_iff_eq_none,
    link_eq_none_iff]

theorem link_update (kids : Fin 32 → Trie) (s : Fin 32) (c : Trie) :
    (fun t => link (Function.update kids s c t)) = Function.update (fun t => link (kids t)) s c.link := by
  funext t
  by_cases ht : t = s
  · subst ht
    simp
  · simp [Function.update_of_ne ht]

end Trie

/-! ### What the operations do to a transaction -/

end Rend.Pmap

namespace Rend.Tx

open Lib Pmap

/-- Reading a cell as a node, or writing a node. -/
inductive NodeStep : Tx → Tx → Prop
  | read {tx tx' : Tx} (h : ReadStep tx tx') : NodeStep tx tx'
  | write (tx : Tx) (bs : Bytes) : NodeStep tx (writeNode tx bs).1

abbrev Steps : Tx → Tx → Prop := Relation.ReflTransGen NodeStep

theorem Reads.steps {tx tx' : Tx} (h : Reads tx tx') : Steps tx tx' := by
  induction h with
  | refl => exact .refl
  | tail _ hstep ih => exact ih.tail (.read hstep)

/-- Reading these nodes. -/
abbrev ReadsIn (S : Set Bytes) : Tx → Tx → Prop :=
  Relation.ReflTransGen fun tx tx' => ∃ e ∈ S, tx' = (tx.fetch (nodeCellKey e)).1

/-- Reading these nodes, or writing any. -/
abbrev StepsIn (S : Set Bytes) : Tx → Tx → Prop :=
  Relation.ReflTransGen fun tx tx' =>
    (∃ e ∈ S, tx' = (tx.fetch (nodeCellKey e)).1) ∨ ∃ bs, tx' = (writeNode tx bs).1

theorem ReadsIn.mono {S S' : Set Bytes} (hS : S ⊆ S') {tx tx' : Tx} (h : ReadsIn S tx tx') :
    ReadsIn S' tx tx' := by
  refine h.lift id fun _ _ hstep => ?_
  obtain ⟨e, he, heq⟩ := hstep
  exact ⟨e, hS he, heq⟩

theorem StepsIn.mono {S S' : Set Bytes} (hS : S ⊆ S') {tx tx' : Tx} (h : StepsIn S tx tx') :
    StepsIn S' tx tx' := by
  refine h.lift id fun _ _ hstep => ?_
  rcases hstep with ⟨e, he, heq⟩ | hw
  · exact .inl ⟨e, hS he, heq⟩
  · exact .inr hw

theorem ReadsIn.stepsIn {S : Set Bytes} {tx tx' : Tx} (h : ReadsIn S tx tx') : StepsIn S tx tx' :=
  h.lift id fun _ _ hstep => .inl hstep

theorem ReadsIn.reads {S : Set Bytes} {tx tx' : Tx} (h : ReadsIn S tx tx') : Reads tx tx' := by
  induction h with
  | refl => exact .refl
  | tail _ hstep ih =>
    obtain ⟨e, -, rfl⟩ := hstep
    exact ih.tail (.read _ _)

theorem StepsIn.steps {S : Set Bytes} {tx tx' : Tx} (h : StepsIn S tx tx') : Steps tx tx' := by
  induction h with
  | refl => exact .refl
  | tail _ hstep ih =>
    rcases hstep with ⟨e, -, rfl⟩ | ⟨bs, rfl⟩
    · exact ih.tail (.read (.read _ _))
    · exact ih.tail (.write _ bs)

theorem ReadsIn.held {S : Set Bytes} {tx tx' : Tx} (h : ReadsIn S tx tx') {T : Trie}
    (hT : Trie.Held tx.shows T) : Trie.Held tx'.shows T :=
  fun e he => ⟨(hT e he).1, h.reads.shows (hT e he).2⟩

/-- Node steps are key steps of the map's own keys. -/
theorem Steps.keySteps {tx tx' : Tx} (h : Steps tx tx') : KeySteps nodeCellKey tx tx' := by
  refine h.lift id fun _ _ hstep => ?_
  cases hstep with
  | read hr => exact .read hr
  | write bs => exact .write _ bs

theorem writeNode_eq (tx : Tx) (bs : Bytes) : writeNode tx bs =
    ({ tx with writes := tx.writes.insert (nodeCellKey bs) (.bytes bs)
               nodeCellsWritten := insert (nodeCellKey bs) tx.nodeCellsWritten
               nodeLog := tx.nodeLog ++ [bs] }, nodeCellKey bs) :=
  putNode_eq nodeCellKey tx bs

@[simp] theorem writeNode_snd (tx : Tx) (bs : Bytes) : (writeNode tx bs).2 = nodeCellKey bs := rfl

@[simp] theorem writeNode_nodeLog (tx : Tx) (bs : Bytes) :
    (writeNode tx bs).1.nodeLog = tx.nodeLog ++ [bs] :=
  putNode_nodeLog nodeCellKey tx bs

theorem writeNode_shows_self (tx : Tx) (bs : Bytes) :
    (writeNode tx bs).1.shows (nodeCellKey bs) = some bs :=
  putNode_shows_self nodeCellKey tx bs

theorem Steps.log_subset {tx tx' : Tx} (h : Steps tx tx') : tx.nodeLog ⊆ tx'.nodeLog :=
  h.keySteps.log_subset

/-- A set of node encodings on which the hash does not collide and is never the empty root. -/
structure NodeSet (S : Set Bytes) : Prop where
  inj : ∀ e ∈ S, ∀ e' ∈ S, nodeCellKey e = nodeCellKey e' → e = e'
  ne_empty : ∀ e ∈ S, nodeCellKey e ≠ emptyRoot

theorem NodeSet.mono {S S' : Set Bytes} (h : NodeSet S') (hs : S ⊆ S') : NodeSet S :=
  ⟨fun e he e' he' => h.inj e (hs he) e' (hs he'), fun e he => h.ne_empty e (hs he)⟩

theorem NodeSet.apart {S : Set Bytes} (h : NodeSet S) : Apart nodeCellKey S := ⟨h.inj, h.ne_empty⟩

/-- A node shown before is shown after. -/
theorem Steps.shows {S : Set Bytes} (hS : NodeSet S) {tx tx' : Tx} (h : Steps tx tx')
    (hlog : ∀ e ∈ tx'.nodeLog, e ∈ S) {e : Bytes} (he : e ∈ S)
    (hshow : tx.shows (nodeCellKey e) = some e) : tx'.shows (nodeCellKey e) = some e :=
  h.keySteps.shows hS.apart hlog he hshow

/-- What has been logged is shown. -/
theorem Steps.log_shows {S : Set Bytes} (hS : NodeSet S) {tx tx' : Tx} (h : Steps tx tx')
    (hlog : ∀ e ∈ tx'.nodeLog, e ∈ S) (hinit : ∀ e ∈ tx.nodeLog, tx.shows (nodeCellKey e) = some e)
    {e : Bytes} (he : e ∈ tx'.nodeLog) : tx'.shows (nodeCellKey e) = some e :=
  h.keySteps.log_shows hS.apart hlog hinit he

/-- **A held trie stays held**, and so does one whose new nodes were logged. -/
theorem Steps.held {S : Set Bytes} (hS : NodeSet S) {tx tx' : Tx} (h : Steps tx tx')
    (hlog : ∀ e ∈ tx'.nodeLog, e ∈ S) (hinit : ∀ e ∈ tx.nodeLog, tx.shows (nodeCellKey e) = some e)
    {T : Trie} (hT : ∀ e ∈ T.encs, (e ∈ S ∧ tx.shows (nodeCellKey e) = some e) ∨ e ∈ tx'.nodeLog) :
    Trie.Held tx'.shows T := by
  intro e he
  rcases hT e he with ⟨heS, hshow⟩ | hl
  · exact ⟨hS.ne_empty e heS, h.shows hS hlog heS hshow⟩
  · exact ⟨hS.ne_empty e (hlog e hl), h.log_shows hS hlog hinit hl⟩

/-- Reading the topmost node of a held trie. -/
theorem readNode_of_held {tx : Tx} {T : Trie} (h : T.Held tx.shows) (hne : T ≠ .empty) (kt vt : Ty) :
    ∃ tx', readNode tx T.hash kt vt = (tx', deserializeNode kt vt T.enc) ∧ ReadsIn T.nodes tx tx' := by
  obtain ⟨hroot, hshow⟩ := h.root hne
  have hread : readNode tx T.hash kt vt =
      ((tx.fetch T.hash).1, (asBytes (tx.fetch T.hash).2).bind (deserializeNode kt vt)) := by
    rw [readNode, if_neg hroot]
    rfl
  refine ⟨(tx.fetch T.hash).1, ?_, .single ⟨T.enc, Trie.enc_mem_encs hne, ?_⟩⟩
  · rw [hread, fetch_of_shows hshow]
    rfl
  · rw [Trie.hash_of_ne_empty hne]

end Rend.Tx
