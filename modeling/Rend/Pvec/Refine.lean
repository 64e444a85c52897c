import Rend.Lib.Chunks
import Rend.Pmap.Refine
import Rend.Pvec.Ops

/-!
# The operations refine a list

The shape of the trie is determined by the list it holds: at level `0` it is one leaf, at level `d + 1`
it is an inner node over the tries of the chunks of `branch ^ (d + 1)` elements. So the root the code
computes for a list is a function of the list (`rootOf`), and so are the encodings of its nodes (`encs`).

On a transaction that shows these nodes (`Held`) each operation computes what it computes on lists:
`getAt` an element, `collectElements` the whole list, `setAt` the root of the list with one element
replaced and `pushAt` that of the list with one element more. New nodes have been logged.
-/

namespace Rend.Pvec

open Lib Tx

open Pmap (RoundTrips)

/-! ### Depth and slots -/

/-- How many elements a trie of this depth can hold. -/
def capacity (d : ℕ) : ℕ := branch ^ (d + 1)

theorem capacity_pos (d : ℕ) : 0 < capacity d := Nat.pow_pos (by decide)

theorem capacity_succ (d : ℕ) : capacity (d + 1) = capacity d * branch := pow_succ ..

theorem depthFor_le_iff {len d : ℕ} : depthFor len ≤ d ↔ len ≤ capacity d := by
  have hpow : capacity d = 2 ^ (bitsPerLevel * (d + 1)) := by
    rw [capacity, pow_mul]
    rfl
  unfold depthFor
  split_ifs with hlen
  · have hle : branch ≤ capacity d := by
      rw [capacity]
      exact Nat.le_self_pow (Nat.succ_ne_zero d) branch
    exact ⟨fun _ => hlen.trans hle, fun _ => Nat.zero_le d⟩
  · have hpos : len - 1 ≠ 0 := by
      simp only [branch] at hlen
      omega
    have hbits : (len - 1).log2 < bitsPerLevel * (d + 1) ↔ len - 1 < capacity d := by
      rw [Nat.log2_lt hpos, hpow]
    have hdiv : ((len - 1).log2 + 1 + bitsPerLevel - 1) / bitsPerLevel - 1 ≤ d ↔
        (len - 1).log2 < bitsPerLevel * (d + 1) := by
      simp only [bitsPerLevel]
      omega
    rw [hdiv, hbits]
    omega

theorem le_capacity_depthFor (len : ℕ) : len ≤ capacity (depthFor len) := depthFor_le_iff.mp le_rfl

/-- One more element leaves the depth as it is, or it fills the trie and the depth grows by one. -/
theorem depthFor_succ (len : ℕ) : depthFor (len + 1) = depthFor len ∧ len < capacity (depthFor len) ∨
    depthFor (len + 1) = depthFor len + 1 ∧ len = capacity (depthFor len) := by
  have hmono : depthFor len ≤ depthFor (len + 1) :=
    depthFor_le_iff.mpr ((Nat.le_succ len).trans (le_capacity_depthFor (len + 1)))
  rcases (le_capacity_depthFor len).lt_or_eq with hlt | heq
  · exact .inl ⟨le_antisymm (depthFor_le_iff.mpr hlt) hmono, hlt⟩
  · refine .inr ⟨le_antisymm (depthFor_le_iff.mpr ?_) ?_, heq⟩
    · have hpos := capacity_pos (depthFor len)
      rw [capacity_succ, branch]
      omega
    · have hnot : ¬ depthFor (len + 1) ≤ depthFor len := by
        rw [depthFor_le_iff]
        omega
      omega

theorem slotAt_eq (i level : ℕ) : slotAt i level = i / branch ^ level % branch := by
  have hpow : (2 : ℕ) ^ (level * bitsPerLevel) = branch ^ level := by
    rw [Nat.mul_comm, pow_mul]
    rfl
  rw [slotAt, Nat.shiftRight_eq_div_pow, hpow]
  exact Nat.and_two_pow_sub_one_eq_mod _ 5

theorem slotAt_zero (i : ℕ) : slotAt i 0 = i % capacity 0 := by
  rw [slotAt_eq, pow_zero, Nat.div_one, capacity, zero_add, pow_one]

theorem slotAt_succ (i d : ℕ) : slotAt i (d + 1) = i % capacity (d + 1) / capacity d := by
  rw [slotAt_eq, capacity_succ, Nat.mod_mul_right_div_self]
  rfl

/-! ### Nodes read back -/

theorem readElements_append {elem : Ty} (pre post : Bytes) {xs : List Value} (h : ∀ v ∈ xs, RoundTrips elem v) :
    readElements elem (pre ++ ((xs.flatMap fun v => withLen (serialize v)) ++ post)) xs.length pre.length =
      some xs := by
  induction xs generalizing pre with
  | nil => rfl
  | cons v xs ih =>
    obtain ⟨hv, hlen⟩ := h v List.mem_cons_self
    let rest := (xs.flatMap fun v => withLen (serialize v)) ++ post
    have hcell : pre ++ (((v :: xs).flatMap fun v => withLen (serialize v)) ++ post) =
        pre ++ (lenBytes (serialize v).length ++ (serialize v ++ rest)) := by
      simp [rest, withLen]
    have hlen4 : (lenBytes (serialize v).length).length = 4 := by simp [lenBytes]
    have h₁ : lenAt (pre ++ (lenBytes (serialize v).length ++ (serialize v ++ rest))) pre.length =
        some (serialize v).length := Pmap.lenAt_append rfl hlen
    have h₂ : getRange (pre ++ (lenBytes (serialize v).length ++ (serialize v ++ rest))) (pre.length + 4)
        (pre.length + 4 + (serialize v).length) = some (serialize v) := by
      rw [← List.append_assoc]
      exact Pmap.getRange_append (by simp [hlen4]) (by simp [hlen4])
    have h₃ := ih (pre ++ (lenBytes (serialize v).length ++ serialize v)) fun w hw =>
      h w (List.mem_cons_of_mem _ hw)
    have hpos : (pre ++ (lenBytes (serialize v).length ++ serialize v)).length =
        pre.length + 4 + (serialize v).length := by
      simp only [List.length_append, hlen4]
      omega
    rw [hpos] at h₃
    simp only [List.append_assoc] at h₃
    rw [hcell, List.length_cons, readElements]
    simp only [Option.bind_eq_bind, h₁, h₂, Option.bind_some, hv]
    rw [show (List.flatMap (fun v => withLen (serialize v)) xs ++ post) = rest from rfl] at h₃
    rw [h₃]
    rfl

theorem toNat_count {n : ℕ} (h : n ≤ branch) : (BitVec.ofNat 8 n).toNat = n := by
  rw [BitVec.toNat_ofNat, Nat.mod_eq_of_lt]
  exact lt_of_le_of_lt h (by decide)

theorem deserializeNode_leaf {elem : Ty} {xs : List Value} (hlen : xs.length ≤ branch)
    (h : ∀ v ∈ xs, RoundTrips elem v) : deserializeNode elem (serializeLeaf xs) = some (.leaf xs) := by
  have hread : readElements elem (serializeLeaf xs) xs.length 2 = some xs := by
    have := readElements_append [tagLeaf, BitVec.ofNat 8 xs.length] [] h
    simpa [serializeLeaf] using this
  have htag : ¬ (serializeLeaf xs).head? = some tagInner := by simp [serializeLeaf, tagLeaf, tagInner]
  have hhead : (serializeLeaf xs).head? = some tagLeaf := rfl
  have hcount : (serializeLeaf xs)[1]? = some (BitVec.ofNat 8 xs.length) := rfl
  rw [deserializeNode, if_neg htag, if_pos hhead, hcount]
  simp only [Option.bind_eq_bind, Option.bind_some, toNat_count hlen, hread]

theorem deserializeNode_inner (elem : Ty) {children : List U128} (hlen : children.length ≤ branch) :
    deserializeNode elem (serializeInner children) = some (.inner children) := by
  have hread : Pmap.readChildren (serializeInner children) children.length 2 = some children := by
    have := Pmap.readChildren_append [tagInner, BitVec.ofNat 8 children.length] [] children
    simpa [serializeInner] using this
  have hhead : (serializeInner children).head? = some tagInner := rfl
  have hcount : (serializeInner children)[1]? = some (BitVec.ofNat 8 children.length) := rfl
  rw [deserializeNode, if_pos hhead, hcount]
  simp only [Option.bind_eq_bind, Option.bind_some, toNat_count hlen, hread]

/-! ### The trie of a list -/

/-- The bytes of the topmost node of the trie of a list. -/
def enc : ℕ → List Value → Bytes
  | 0, xs => serializeLeaf xs
  | d + 1, xs => serializeInner ((chunks (capacity d) xs).map fun c => nodeCellKey (enc d c))

/-- The root of the trie of a list. -/
def rootOf (d : ℕ) (xs : List Value) : U128 := if xs = [] then emptyRoot else nodeCellKey (enc d xs)

/-- The bytes of every node of the trie of a list. -/
def encs : ℕ → List Value → List Bytes
  | 0, xs => if xs = [] then [] else [enc 0 xs]
  | d + 1, xs => if xs = [] then [] else enc (d + 1) xs :: (chunks (capacity d) xs).flatMap (encs d)

/-- The transaction shows every node of the trie at its own cell. -/
def Held (tx : Tx) (d : ℕ) (xs : List Value) : Prop :=
  ∀ e ∈ encs d xs, nodeCellKey e ≠ emptyRoot ∧ tx.shows (nodeCellKey e) = some e

/-- The elements fit the trie, and each is one that the store keeps at the element type. -/
structure Fits (elem : Ty) (d : ℕ) (xs : List Value) : Prop where
  length : xs.length ≤ capacity d
  elems : ∀ v ∈ xs, RoundTrips elem v

section Trie

variable {elem : Ty} {d : ℕ} {xs : List Value} {tx tx' : Tx}

theorem rootOf_of_ne (h : xs ≠ []) : rootOf d xs = nodeCellKey (enc d xs) := if_neg h

theorem encs_nil (d : ℕ) : encs d [] = [] := by
  cases d <;> simp [encs]

theorem enc_mem_encs (h : xs ≠ []) : enc d xs ∈ encs d xs := by
  cases d <;> simp [encs, h]

theorem mem_encs_succ {e : Bytes} : e ∈ encs (d + 1) xs ↔
    xs ≠ [] ∧ e = enc (d + 1) xs ∨ ∃ c ∈ chunks (capacity d) xs, e ∈ encs d c := by
  by_cases h : xs = []
  · simp [encs, h, chunks_nil (capacity_pos d)]
  · simp [encs, h]

/-- The children of an inner node, by their roots. -/
theorem map_rootOf_chunks (d : ℕ) (xs : List Value) :
    (chunks (capacity d) xs).map (rootOf d) = (chunks (capacity d) xs).map fun c => nodeCellKey (enc d c) :=
  List.map_congr_left fun _ hc => rootOf_of_ne (mem_chunks_ne_nil (capacity_pos d) hc)

theorem Held.chunk (h : Held tx (d + 1) xs) {c : List Value} (hc : c ∈ chunks (capacity d) xs) : Held tx d c :=
  fun e he => h e (mem_encs_succ.mpr (.inr ⟨c, hc, he⟩))

theorem Held.reads (h : Held tx d xs) (hr : Reads tx tx') : Held tx' d xs :=
  fun e he => ⟨(h e he).1, hr.shows (h e he).2⟩

theorem held_nil (tx : Tx) (d : ℕ) : Held tx d [] := by
  intro e he
  rw [encs_nil] at he
  cases he

theorem Fits.chunk (h : Fits elem (d + 1) xs) {c : List Value} (hc : c ∈ chunks (capacity d) xs) : Fits elem d c :=
  ⟨length_le_of_mem_chunks hc, fun v hv => h.elems v (mem_of_mem_chunks hc hv)⟩

theorem Fits.length_chunks (h : Fits elem (d + 1) xs) : (chunks (capacity d) xs).length ≤ branch := by
  have hpos := capacity_pos d
  have hlen := h.length
  rw [capacity_succ] at hlen
  rw [Lib.length_chunks, ← Nat.lt_add_one_iff, Nat.div_lt_iff_lt_mul hpos, Nat.add_mul, one_mul, Nat.mul_comm]
  omega

/-! ### Reading a node -/

theorem readNode_reads (tx : Tx) (hash : U128) (elem : Ty) : Reads tx (readNode tx hash elem).1 := by
  rw [readNode]
  split_ifs
  · exact .refl
  · exact .single (.read tx hash)

theorem readNode_of_held (h : Held tx d xs) (hne : xs ≠ []) (elem : Ty) :
    (readNode tx (rootOf d xs) elem).2 = deserializeNode elem (enc d xs) := by
  obtain ⟨hroot, hshow⟩ := h _ (enc_mem_encs hne)
  have hread : readNode tx (rootOf d xs) elem =
      ((tx.fetch (nodeCellKey (enc d xs))).1,
        (asBytes (tx.fetch (nodeCellKey (enc d xs))).2).bind (deserializeNode elem)) := by
    rw [readNode, rootOf_of_ne hne, if_neg hroot]
    rfl
  rw [hread, fetch_of_shows hshow]
  rfl

theorem readNode_leaf (h : Held tx 0 xs) (hf : Fits elem 0 xs) (hne : xs ≠ []) :
    (readNode tx (rootOf 0 xs) elem).2 = some (.leaf xs) := by
  rw [readNode_of_held h hne]
  exact deserializeNode_leaf hf.length hf.elems

theorem readNode_inner (h : Held tx (d + 1) xs) (hf : Fits elem (d + 1) xs) (hne : xs ≠ []) :
    (readNode tx (rootOf (d + 1) xs) elem).2 = some (.inner ((chunks (capacity d) xs).map (rootOf d))) := by
  rw [readNode_of_held h hne, map_rootOf_chunks]
  exact deserializeNode_inner elem (by rw [List.length_map]; exact hf.length_chunks)

/-- What a push starts from, at a leaf and at an inner node. -/
theorem readNode_elements (h : Held tx 0 xs) (hf : Fits elem 0 xs) :
    leafElements (readNode tx (rootOf 0 xs) elem).2 = xs := by
  by_cases hne : xs = []
  · rw [hne, rootOf, if_pos rfl, readNode, if_pos rfl]
    rfl
  · rw [readNode_leaf h hf hne]
    rfl

theorem readNode_children (h : Held tx (d + 1) xs) (hf : Fits elem (d + 1) xs) :
    innerChildren (readNode tx (rootOf (d + 1) xs) elem).2 = (chunks (capacity d) xs).map (rootOf d) := by
  by_cases hne : xs = []
  · rw [hne, rootOf, if_pos rfl, readNode, if_pos rfl, chunks_nil (capacity_pos d)]
    rfl
  · rw [readNode_inner h hf hne]
    rfl

/-- The child in which an index stands. -/
theorem child_getElem? {i : ℕ} (hi : i % capacity (d + 1) < xs.length) :
    ((chunks (capacity d) xs).map (rootOf d))[slotAt i (d + 1)]? =
        some (rootOf d (chunk (capacity d) xs (slotAt i (d + 1)))) ∧
      chunk (capacity d) xs (slotAt i (d + 1)) ∈ chunks (capacity d) xs ∧
      i % capacity d < (chunk (capacity d) xs (slotAt i (d + 1))).length ∧
      (chunk (capacity d) xs (slotAt i (d + 1)))[i % capacity d]? = xs[i % capacity (d + 1)]? := by
  have hslot := slotAt_succ i d
  have hmod : i % capacity (d + 1) % capacity d = i % capacity d := by
    rw [capacity_succ]
    exact Nat.mod_mul_right_mod ..
  have hget := chunks_getElem? (div_lt_length_chunks (capacity_pos d) hi)
  have hval := @getElem?_chunk _ _ xs (i % capacity (d + 1)) (capacity_pos d)
  rw [← hslot] at hget
  rw [← hslot, hmod] at hval
  refine ⟨by rw [List.getElem?_map, hget]; rfl, List.mem_of_getElem? hget, ?_, hval⟩
  rw [List.getElem?_eq_getElem hi] at hval
  exact (List.getElem?_eq_some_iff.mp hval).1

/-! ### Lookup -/

/-- A lookup answers with the element. -/
theorem getAt_eq (h : Held tx d xs) (hf : Fits elem d xs) {i : ℕ} (hi : i % capacity d < xs.length) :
    (getAt elem i d (rootOf d xs) tx).2 = xs[i % capacity d]? := by
  have hne : xs ≠ [] := List.length_pos_iff.mp (Nat.zero_lt_of_lt hi)
  induction d generalizing xs tx with
  | zero =>
    have hread := readNode_leaf h hf hne
    rw [getAt, getNode]
    generalize readNode tx (rootOf 0 xs) elem = r at hread
    obtain ⟨tx₁, node⟩ := r
    subst hread
    rw [slotAt_zero]
  | succ d ih =>
    have hread := readNode_inner h hf hne
    have hreads := readNode_reads tx (rootOf (d + 1) xs) elem
    rw [getAt, getNode]
    generalize readNode tx (rootOf (d + 1) xs) elem = r at hread hreads
    obtain ⟨tx₁, node⟩ := r
    subst hread
    obtain ⟨hchild, hmem, hlt, hval⟩ := child_getElem? hi
    dsimp only
    rw [hchild]
    exact (ih ((h.chunk hmem).reads hreads) (hf.chunk hmem) hlt
      (mem_chunks_ne_nil (capacity_pos d) hmem)).trans hval

/-! ### Reading the whole vector -/

/-- The transaction of a walk moves by reads. -/
def Collect.Reading (collect : Collect) : Prop := ∀ c want out tx, Reads tx (collect c want out tx).1

theorem collectChildren_reads {collect : Collect} (hc : collect.Reading) (cap remaining : ℕ) (cs : List U128)
    (emitted : ℕ) (out : List Value) (tx : Tx) :
    Reads tx (collectChildren collect cap remaining cs emitted out tx).1 := by
  induction cs generalizing emitted out tx with
  | nil => exact .refl
  | cons c cs ih =>
    rw [collectChildren]
    split_ifs
    · exact .refl
    · have hstep := hc c (min cap (remaining - emitted)) out tx
      dsimp only
      generalize collect c (min cap (remaining - emitted)) out tx = r at hstep
      obtain ⟨tx₁, _ | out'⟩ := r
      · exact hstep
      · exact hstep.trans (ih ..)

theorem collectElements_reads (elem : Ty) (d : ℕ) : (collectElements elem d).Reading := by
  have hnode : ∀ {below : Collect} (level : ℕ), below.Reading → (collectNode elem level below).Reading := by
    intro below level hb c want out tx
    have hread := readNode_reads tx c elem
    rw [collectNode]
    generalize readNode tx c elem = r at hread
    obtain ⟨tx₁, _ | _ | _⟩ := r
    · exact hread
    · exact hread.trans (collectChildren_reads hb ..)
    · exact hread
  induction d with
  | zero => exact hnode 0 fun _ _ _ _ => .refl
  | succ d ih => exact hnode (d + 1) ih

/-- Walking the chunks of a list emits the list, when walking each chunk emits the chunk. -/
theorem collectChildren_eq {collect : Collect} (hc : collect.Reading) {m total : ℕ} (hm : 0 < m)
    (hall : ∀ c ∈ chunks m xs, ∀ out tx', Reads tx tx' →
      (collect (rootOf d c) c.length out tx').2 = .ok (out ++ c))
    {emitted : ℕ} (htotal : emitted + xs.length = total) (out : List Value) {tx' : Tx} (hr : Reads tx tx') :
    (collectChildren collect m total ((chunks m xs).map (rootOf d)) emitted out tx').2 = .ok (out ++ xs) := by
  induction hn : xs.length using Nat.strong_induction_on generalizing xs emitted out tx' with
  | _ n ih =>
    subst hn
    by_cases hne : xs = []
    · rw [hne, chunks_nil hm, List.append_nil]
      rfl
    · have hpos := List.length_pos_iff.mpr hne
      rw [chunks_eq_cons hm hne] at hall
      have hhead := hall (xs.take m) List.mem_cons_self
      have hrest := fun c hc => hall c (List.mem_cons_of_mem _ hc)
      have hwant : min m (total - emitted) = (xs.take m).length := by
        rw [List.length_take, ← htotal, Nat.add_sub_cancel_left]
      have hone := hhead out tx' hr
      have hreads := hc (rootOf d (xs.take m)) (xs.take m).length out tx'
      rw [chunks_eq_cons hm hne, List.map_cons, collectChildren, if_neg (by omega)]
      dsimp only
      rw [hwant]
      generalize collect (rootOf d (xs.take m)) (xs.take m).length out tx' = r at hone hreads
      obtain ⟨tx₁, res⟩ := r
      dsimp only at hone hreads
      subst hone
      dsimp only
      have hnext : emitted + ((out ++ xs.take m).length - out.length) + (xs.drop m).length = total := by
        rw [List.length_append, Nat.add_sub_cancel_left, List.length_take, List.length_drop]
        omega
      have hshort : (xs.drop m).length < xs.length := by
        rw [List.length_drop]
        omega
      have hdone := ih _ hshort hrest hnext (out ++ xs.take m) (hr.trans hreads) rfl
      rw [hdone, List.append_assoc, List.take_append_drop]

/-- A walk emits the whole list. -/
theorem collectElements_eq (h : Held tx d xs) (hf : Fits elem d xs) (hne : xs ≠ []) (out : List Value) :
    (collectElements elem d (rootOf d xs) xs.length out tx).2 = .ok (out ++ xs) := by
  induction d generalizing xs tx out with
  | zero =>
    have hread := readNode_leaf h hf hne
    rw [collectElements, collectNode]
    generalize readNode tx (rootOf 0 xs) elem = r at hread
    obtain ⟨tx₁, node⟩ := r
    subst hread
    dsimp only
    rw [min_self, List.take_length]
  | succ d ih =>
    have hread := readNode_inner h hf hne
    have hreads := readNode_reads tx (rootOf (d + 1) xs) elem
    have hcap : 1 <<< ((d + 1) * bitsPerLevel) = capacity d := by
      rw [Nat.one_shiftLeft, Nat.mul_comm, pow_mul]
      rfl
    rw [collectElements, collectNode]
    generalize readNode tx (rootOf (d + 1) xs) elem = r at hread hreads
    obtain ⟨tx₁, node⟩ := r
    subst hread
    dsimp only
    rw [hcap]
    have hall : ∀ c ∈ chunks (capacity d) xs, ∀ out tx', Reads tx tx' →
        (collectElements elem d (rootOf d c) c.length out tx').2 = .ok (out ++ c) := by
      intro c hc out' tx' hr'
      exact ih ((h.chunk hc).reads hr') (hf.chunk hc) (mem_chunks_ne_nil (capacity_pos d) hc) out'
    exact collectChildren_eq (collectElements_reads elem d) (capacity_pos d) hall (Nat.zero_add _) out hreads

/-! ### The transaction moves by node steps -/

theorem readNode_steps (tx : Tx) (hash : U128) (elem : Ty) :
    KeySteps nodeCellKey tx (readNode tx hash elem).1 :=
  (readNode_reads tx hash elem).lift id fun _ _ h => .read h

theorem writeNode_snd (tx : Tx) (bs : Bytes) : (writeNode tx bs).2 = nodeCellKey bs := rfl

theorem writeNode_nodeLog (tx : Tx) (bs : Bytes) : (writeNode tx bs).1.nodeLog = tx.nodeLog ++ [bs] :=
  putNode_nodeLog nodeCellKey tx bs

theorem writeNode_steps (tx : Tx) (bs : Bytes) : KeySteps nodeCellKey tx (writeNode tx bs).1 :=
  .single (.write tx bs)

theorem setAt_steps (elem : Ty) (i : ℕ) (value : Value) (d : ℕ) (hash : U128) (tx : Tx) :
    KeySteps nodeCellKey tx (setAt elem i value d hash tx).1 := by
  have hnode : ∀ (below : U128 → Tx → Tx × Option U128) (level : ℕ),
      (∀ c tx, KeySteps nodeCellKey tx (below c tx).1) →
      ∀ hash tx, KeySteps nodeCellKey tx (setNode elem level i value below hash tx).1 := by
    intro below level hb hash tx
    have hread := readNode_steps tx hash elem
    rw [setNode]
    generalize readNode tx hash elem = r at hread
    obtain ⟨tx₁, _ | children | elements⟩ := r
    · exact hread
    · dsimp only
      split
      · exact hread
      · next c _ =>
        have hbelow := hb c tx₁
        generalize below c tx₁ = b at hbelow
        obtain ⟨tx₂, _ | c'⟩ := b
        · exact hread.trans hbelow
        · exact (hread.trans hbelow).trans (writeNode_steps ..)
    · dsimp only
      split_ifs
      · exact hread.trans (writeNode_steps ..)
      · exact hread
  induction d generalizing hash tx with
  | zero => exact hnode _ 0 (fun _ _ => .refl) hash tx
  | succ d ih => exact hnode _ (d + 1) ih hash tx

theorem pushAt_steps (elem : Ty) (i : ℕ) (value : Value) (d : ℕ) (hash : U128) (tx : Tx) :
    KeySteps nodeCellKey tx (pushAt elem i value d hash tx).1 := by
  induction d generalizing hash tx with
  | zero => exact (readNode_steps tx hash elem).trans (writeNode_steps ..)
  | succ d ih =>
    have hread := readNode_steps tx hash elem
    rw [pushAt]
    dsimp only
    split
    · exact (hread.trans (ih ..)).trans (writeNode_steps ..)
    · exact (hread.trans (ih ..)).trans (writeNode_steps ..)

theorem wrapRoot_one (root : U128) (tx : Tx) : wrapRoot 1 root tx = writeNode tx (serializeInner [root]) := rfl

theorem wrapRoot_steps (n : ℕ) (root : U128) (tx : Tx) : KeySteps nodeCellKey tx (wrapRoot n root tx).1 := by
  induction n generalizing root tx with
  | zero => exact .refl
  | succ n ih => exact (writeNode_steps ..).trans (ih ..)

/-! ### Replacing an element -/

/-- Each node of the new trie is a node of the old one or has been logged. -/
def Kept (d : ℕ) (xs ys : List Value) (log : List Bytes) : Prop := ∀ e ∈ encs d ys, e ∈ encs d xs ∨ e ∈ log

/-- A node above sub-tries that are kept. -/
theorem kept_succ {ys : List Value} {log log' : List Bytes} (hlog : log' = log ++ [enc (d + 1) ys])
    (h : ∀ c ∈ chunks (capacity d) ys, c ∈ chunks (capacity d) xs ∨ ∀ e ∈ encs d c, e ∈ encs (d + 1) xs ∨ e ∈ log) :
    Kept (d + 1) xs ys log' := by
  subst hlog
  intro e he
  rcases mem_encs_succ.mp he with ⟨-, rfl⟩ | ⟨c, hc, he⟩
  · exact .inr (List.mem_append_right _ List.mem_cons_self)
  · rcases h c hc with hold | hnew
    · exact .inl (mem_encs_succ.mpr (.inr ⟨c, hold, he⟩))
    · exact (hnew e he).imp id (List.mem_append_left _)

/-- A node whose children are the roots of the chunks of a list. -/
theorem serializeInner_chunks (d : ℕ) (ys : List Value) :
    serializeInner ((chunks (capacity d) ys).map (rootOf d)) = enc (d + 1) ys := by
  rw [map_rootOf_chunks, enc]

/-- Replacing an element gives the root of the list with the element replaced. -/
theorem setAt_eq (h : Held tx d xs) (hf : Fits elem d xs) {i : ℕ} (hi : i % capacity d < xs.length) (v : Value) :
    (setAt elem i v d (rootOf d xs) tx).2 = some (rootOf d (xs.set (i % capacity d) v)) ∧
      Kept d xs (xs.set (i % capacity d) v) (setAt elem i v d (rootOf d xs) tx).1.nodeLog := by
  have hne : xs ≠ [] := List.length_pos_iff.mp (Nat.zero_lt_of_lt hi)
  have hnew : ∀ {n : ℕ} {ys : List Value}, ys ≠ [] → ys.set n v ≠ [] := by
    intro n ys hys hnil
    rw [← List.length_eq_zero_iff, List.length_set, List.length_eq_zero_iff] at hnil
    exact hys hnil
  induction d generalizing xs tx with
  | zero =>
    have hread := readNode_leaf h hf hne
    have hslot := slotAt_zero i
    rw [setAt, setNode]
    generalize readNode tx (rootOf 0 xs) elem = r at hread
    obtain ⟨tx₁, node⟩ := r
    subst hread
    dsimp only
    rw [hslot, if_pos hi, rootOf_of_ne (hnew hne), writeNode_snd, enc]
    refine ⟨rfl, fun e he => .inr ?_⟩
    rw [encs, if_neg (hnew hne), List.mem_singleton, enc] at he
    rw [he, writeNode_nodeLog]
    exact List.mem_append_right _ List.mem_cons_self
  | succ d ih =>
    have hread := readNode_inner h hf hne
    have hreads := readNode_reads tx (rootOf (d + 1) xs) elem
    obtain ⟨hchild, hmem, hlt, -⟩ := child_getElem? hi
    rw [setAt, setNode]
    generalize readNode tx (rootOf (d + 1) xs) elem = r at hread hreads
    obtain ⟨tx₁, node⟩ := r
    subst hread
    dsimp only
    rw [hchild]
    dsimp only
    obtain ⟨hroot, hkept⟩ := ih ((h.chunk hmem).reads hreads) (hf.chunk hmem) hlt
      (mem_chunks_ne_nil (capacity_pos d) hmem)
    generalize setAt elem i v d (rootOf d (chunk (capacity d) xs (slotAt i (d + 1)))) tx₁ = b at hroot hkept
    obtain ⟨tx₂, c'⟩ := b
    subst hroot
    dsimp only
    -- the chunk that changes is the one the index stands in
    have hchunks : chunks (capacity d) (xs.set (i % capacity (d + 1)) v) =
        (chunks (capacity d) xs).set (slotAt i (d + 1))
          ((chunk (capacity d) xs (slotAt i (d + 1))).set (i % capacity d) v) := by
      have hmod : i % capacity (d + 1) % capacity d = i % capacity d := by
        rw [capacity_succ]
        exact Nat.mod_mul_right_mod ..
      rw [chunks_set (capacity_pos d), ← slotAt_succ, hmod]
    rw [← List.map_set, ← hchunks, serializeInner_chunks, rootOf_of_ne (hnew hne), writeNode_snd]
    refine ⟨rfl, kept_succ (writeNode_nodeLog ..) fun c hc => ?_⟩
    rw [hchunks] at hc
    rcases List.mem_or_eq_of_mem_set hc with hc | rfl
    · exact .inl hc
    · exact .inr fun e he => (hkept e he).imp (fun he => mem_encs_succ.mpr (.inr ⟨_, hmem, he⟩)) id

/-! ### Appending an element -/

theorem Fits.concat_slot {i : ℕ} (hi : i % capacity (d + 1) = xs.length) :
    slotAt i (d + 1) = xs.length / capacity d ∧ i % capacity d = xs.length % capacity d := by
  refine ⟨by rw [slotAt_succ, hi], ?_⟩
  rw [← hi, capacity_succ]
  exact (Nat.mod_mul_right_mod ..).symm

/-- Appending an element gives the root of the list with the element at its end. -/
theorem pushAt_eq (h : Held tx d xs) (hf : Fits elem d xs) {i : ℕ} (hi : i % capacity d = xs.length) (v : Value) :
    (pushAt elem i v d (rootOf d xs) tx).2 = rootOf d (xs ++ [v]) ∧
      Kept d xs (xs ++ [v]) (pushAt elem i v d (rootOf d xs) tx).1.nodeLog := by
  have hnew : ∀ ys : List Value, ys ++ [v] ≠ [] := fun ys => List.append_ne_nil_of_right_ne_nil _ (by simp)
  induction d generalizing xs tx with
  | zero =>
    rw [pushAt]
    dsimp only
    rw [readNode_elements h hf, writeNode_snd, rootOf_of_ne (hnew xs), enc]
    refine ⟨rfl, fun e he => .inr ?_⟩
    rw [encs, if_neg (hnew xs), List.mem_singleton, enc] at he
    rw [he, writeNode_nodeLog]
    exact List.mem_append_right _ List.mem_cons_self
  | succ d ih =>
    have hreads := readNode_reads tx (rootOf (d + 1) xs) elem
    obtain ⟨hslot, hmod⟩ := Fits.concat_slot hi
    rw [pushAt]
    dsimp only
    rw [readNode_children h hf, hslot]
    generalize (readNode tx (rootOf (d + 1) xs) elem).1 = tx₁ at hreads
    by_cases hd : capacity d ∣ xs.length
    · -- every chunk is full: a fresh sub-trie is started
      have hnone : ((chunks (capacity d) xs).map (rootOf d))[xs.length / capacity d]? = none := by
        rw [List.getElem?_eq_none]
        rw [List.length_map, length_chunks_of_dvd (capacity_pos d) hd]
      have hfresh := ih (held_nil tx₁ d) ⟨Nat.zero_le _, List.forall_mem_nil _⟩
        (hmod.trans (Nat.mod_eq_zero_of_dvd hd))
      rw [rootOf, if_pos rfl, List.nil_append] at hfresh
      rw [hnone]
      dsimp only
      have hchunks : chunks (capacity d) (xs ++ [v]) = chunks (capacity d) xs ++ [[v]] :=
        chunks_concat_of_dvd (capacity_pos d) hd
      rw [hfresh.1, writeNode_snd, show [rootOf d [v]] = [[v]].map (rootOf d) from rfl, ← List.map_append,
        ← hchunks, serializeInner_chunks, rootOf_of_ne (hnew xs)]
      refine ⟨rfl, kept_succ (writeNode_nodeLog ..) fun c hc => ?_⟩
      rw [hchunks] at hc
      rcases List.mem_append.mp hc with hc | hc
      · exact .inl hc
      · obtain rfl := List.mem_singleton.mp hc
        refine .inr fun e he => (hfresh.2 e he).imp (fun he => ?_) id
        rw [encs_nil] at he
        cases he
    · have hlt := div_lt_length_chunks_of_not_dvd (capacity_pos d) hd
      have hget := chunks_getElem? hlt
      have hmem := List.mem_of_getElem? hget
      have hlast : i % capacity d = (chunk (capacity d) xs (xs.length / capacity d)).length := by
        have hdiv := Nat.div_add_mod' xs.length (capacity d)
        have hle := Nat.mod_lt xs.length (capacity_pos d)
        rw [hmod, length_chunk]
        omega
      obtain ⟨hroot, hkept⟩ := ih ((h.chunk hmem).reads hreads) (hf.chunk hmem) hlast
      rw [List.getElem?_map, hget]
      dsimp only [Option.map_some]
      have hchunks : chunks (capacity d) (xs ++ [v]) = (chunks (capacity d) xs).set (xs.length / capacity d)
          (chunk (capacity d) xs (xs.length / capacity d) ++ [v]) :=
        chunks_concat_of_not_dvd (capacity_pos d) hd
      rw [hroot, writeNode_snd, ← List.map_set, ← hchunks, serializeInner_chunks, rootOf_of_ne (hnew xs)]
      refine ⟨rfl, kept_succ (writeNode_nodeLog ..) fun c hc => ?_⟩
      rw [hchunks] at hc
      rcases List.mem_or_eq_of_mem_set hc with hc | rfl
      · exact .inl hc
      · exact .inr fun e he => (hkept e he).imp (fun he => mem_encs_succ.mpr (.inr ⟨_, hmem, he⟩)) id

/-- A full trie under one more level is the trie of the same list one level up. -/
theorem enc_wrap (hne : xs ≠ []) (hle : xs.length ≤ capacity d) :
    enc (d + 1) xs = serializeInner [rootOf d xs] ∧
      ∀ e ∈ encs (d + 1) xs, e = serializeInner [rootOf d xs] ∨ e ∈ encs d xs := by
  have hchunks : chunks (capacity d) xs = [xs] := chunks_of_length_le hne hle
  have henc : enc (d + 1) xs = serializeInner [rootOf d xs] := by
    rw [← serializeInner_chunks, hchunks]
    rfl
  refine ⟨henc, fun e he => ?_⟩
  rcases mem_encs_succ.mp he with ⟨-, rfl⟩ | ⟨c, hc, he⟩
  · exact .inl henc
  · rw [hchunks, List.mem_singleton] at hc
    exact .inr (hc ▸ he)

end Trie

end Rend.Pvec
