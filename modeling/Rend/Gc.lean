import Rend.Lib.Search
import Rend.Pmap.Merge
import Rend.Pvec.Merge

/-!
# Garbage collection

The nodes of persistent maps and vectors are cells of their own, which stay in the store when a state comes to
point elsewhere. `sweep` removes those among some candidates that no live state leads to (`gc.rs`). A state of
another type, one of a `pbtree` among them, leads nowhere.
-/

namespace Rend.Gc

open Lib

instance : Fintype U128 := Fintype.ofEquiv (Fin (2 ^ 128)) ⟨BitVec.ofFin, BitVec.toFin, fun _ => rfl, fun _ => rfl⟩

theorem card_u128 : Fintype.card U128 = 2 ^ 128 := by
  rw [Fintype.ofEquiv_card, Fintype.card_fin]

/-! ### Reachable cells -/

/-- The walk over nodes goes no deeper than there are cells. -/
def depth : ℕ := 2 ^ 128 + 1

def pmapChildren (kv : Kv) (kt vt : Ty) (hash : U128) : List U128 :=
  match Pmap.readNodeKv kv hash kt vt with
  | some (.inner _ children) => children
  | _ => []

def pvecChildren (kv : Kv) (elem : Ty) (hash : U128) : List U128 :=
  match Pvec.readNodeKv kv hash elem with
  | some (.inner children) => children
  | _ => []

/-- `pmap::reachable_cells`. -/
def pmapReachable (kv : Kv) (root : U128) (kt vt : Ty) : Finset U128 :=
  visit (· = Pmap.emptyRoot) (pmapChildren kv kt vt) depth root ∅

/-- `pvec::reachable_cells`. -/
def pvecReachable (kv : Kv) (root : U128) (elem : Ty) : Finset U128 :=
  visit (· = Pvec.emptyRoot) (pvecChildren kv elem) depth root ∅

/-! ### The sweep -/

/-- The cells a live state keeps besides its own. -/
def reachableFrom (kv : Kv) (cell : U128) (ty : Ty) : Finset U128 :=
  match ty with
  | .pmap kt vt =>
    match (kv cell).bind (deserialize ty) with
    | some (.pmap root) => pmapReachable kv root kt vt
    | _ => ∅
  | .pvec elem =>
    match (kv cell).bind (deserialize ty) with
    | some (.pvec _ root) => pvecReachable kv root elem
    | _ => ∅
  | _ => ∅

def liveCells (kv : Kv) : List (U128 × Ty) → Finset U128
  | [] => ∅
  | (cell, ty) :: states => insert cell (reachableFrom kv cell ty) ∪ liveCells kv states

structure GcReport where
  kept : ℕ
  swept : ℕ

def sweep (liveStates : List (U128 × Ty)) (candidates : Finset U128) (kv : Kv) : GcReport × Kv :=
  let live := liveCells kv liveStates
  ({ kept := live.card
     swept := (candidates.filter fun c => c ∉ live ∧ (kv c).isSome).card },
    fun c => if c ∈ candidates ∧ c ∉ live then none else kv c)

/-! ### What is kept -/

section Kept

variable {liveStates : List (U128 × Ty)} {candidates : Finset U128} {kv : Kv}

theorem mem_liveCells {c : U128} : c ∈ liveCells kv liveStates ↔
    ∃ p ∈ liveStates, c = p.1 ∨ c ∈ reachableFrom kv p.1 p.2 := by
  induction liveStates with
  | nil => simp [liveCells]
  | cons p states ih =>
    obtain ⟨cell, ty⟩ := p
    simp only [liveCells, Finset.mem_union, Finset.mem_insert, ih, List.mem_cons, exists_eq_or_imp]

/-- A cell that is live is not touched. -/
theorem sweep_of_live {c : U128} (h : c ∈ liveCells kv liveStates) :
    (sweep liveStates candidates kv).2 c = kv c := if_neg fun hc => hc.2 h

theorem fuel_enough : Fintype.card U128 < depth := by
  rw [card_u128]
  exact Nat.lt_succ_self _

theorem mem_pmapReachable {root c : U128} {kt vt : Ty} :
    c ∈ pmapReachable kv root kt vt ↔ Reached (· = Pmap.emptyRoot) (pmapChildren kv kt vt) root c :=
  mem_visit fuel_enough

theorem mem_pvecReachable {root c : U128} {elem : Ty} :
    c ∈ pvecReachable kv root elem ↔ Reached (· = Pvec.emptyRoot) (pvecChildren kv elem) root c :=
  mem_visit fuel_enough

end Kept

/-! ### The nodes of a stored collection -/

section Nodes

variable {kv : Kv} {kt vt elem : Ty}

/-- The cells of the nodes of a trie. -/
def trieCells (T : Pmap.Trie) : Set U128 := {c | ∃ e ∈ T.encs, c = Pmap.nodeCellKey e}

/-- The cells of the nodes of the trie of a list. -/
def listCells (d : ℕ) (xs : List Value) : Set U128 := {c | ∃ e ∈ Pvec.encs d xs, c = Pvec.nodeCellKey e}

theorem mem_dense_link {kids : Fin 32 → Pmap.Trie} {c : U128} :
    c ∈ dense (fun s => (kids s).link) ↔ ∃ s, kids s ≠ .empty ∧ c = (kids s).hash := by
  simp only [dense, List.mem_filterMap, List.mem_finRange, true_and]
  refine exists_congr fun s => ⟨fun h => ?_, fun h => ?_⟩
  · have hne : kids s ≠ .empty := Pmap.Trie.link_isSome_iff.mp (by rw [h]; rfl)
    rw [Pmap.Trie.link_of_ne_empty hne] at h
    exact ⟨hne, (Option.some.inj h).symm⟩
  · rw [Pmap.Trie.link_of_ne_empty h.1, h.2]

/-- A walk from the root of a trie comes to its nodes and to nothing else. -/
theorem reached_trie {T : Pmap.Trie} (hheld : T.Held (Pmap.nodeAt kv)) (hfits : T.Fits kt vt) {x : U128} :
    Reached (· = Pmap.emptyRoot) (pmapChildren kv kt vt) T.hash x ↔ x ∈ trieCells T := by
  induction T with
  | empty => simp [Reached, trieCells, Pmap.Trie.encs]
  | leaf es =>
    have hread := Pmap.readNodeKv_of_held hheld (by simp) kt vt
    rw [Pmap.Trie.deserializeNode_enc_leaf hfits] at hread
    refine Iff.trans (reached_iff (hheld.root (by simp)).1) ?_
    rw [pmapChildren, hread]
    simp [trieCells, Pmap.Trie.encs]
  | inner kids ih =>
    have hread := Pmap.readNodeKv_of_held hheld (by simp) kt vt
    rw [Pmap.Trie.deserializeNode_enc_inner] at hread
    refine Iff.trans (reached_iff (hheld.root (by simp)).1) ?_
    rw [pmapChildren, hread]
    constructor
    · rintro (rfl | ⟨w, hw, hreach⟩)
      · exact ⟨_, Pmap.Trie.enc_mem_encs (by simp), Pmap.Trie.hash_of_ne_empty (by simp)⟩
      · obtain ⟨s, -, rfl⟩ := mem_dense_link.mp hw
        obtain ⟨e, he, hx⟩ := (ih s (hheld.kid s) (hfits.2 s)).mp hreach
        exact ⟨e, Pmap.Trie.mem_encs_inner.mpr (.inr ⟨s, he⟩), hx⟩
    · rintro ⟨e, he, rfl⟩
      rcases Pmap.Trie.mem_encs_inner.mp he with rfl | ⟨s, he⟩
      · exact .inl (Pmap.Trie.hash_of_ne_empty (by simp)).symm
      · have hne : kids s ≠ .empty := fun h => by simp [h, Pmap.Trie.encs] at he
        exact .inr ⟨_, mem_dense_link.mpr ⟨s, hne, rfl⟩, (ih s (hheld.kid s) (hfits.2 s)).mpr ⟨e, he, rfl⟩⟩

/-- A walk from the root of the trie of a list comes to its nodes and to nothing else. -/
theorem reached_list {d : ℕ} {xs : List Value} (hheld : Pvec.HeldIn kv d xs) (hfits : Pvec.Fits elem d xs)
    {x : U128} :
    Reached (· = Pvec.emptyRoot) (pvecChildren kv elem) (Pvec.rootOf d xs) x ↔ x ∈ listCells d xs := by
  by_cases hne : xs = []
  · subst hne
    simp [Reached, Pvec.rootOf, listCells, Pvec.encs_nil]
  · have hroot : Pvec.rootOf d xs ≠ Pvec.emptyRoot := by
      rw [Pvec.rootOf_of_ne hne]
      exact (hheld _ (Pvec.enc_mem_encs hne)).1
    induction d generalizing xs with
    | zero =>
      refine Iff.trans (reached_iff hroot) ?_
      rw [pvecChildren, Pvec.readNodeKv_leaf hheld hfits hne, Pvec.rootOf_of_ne hne]
      simp [listCells, Pvec.encs, hne]
    | succ d ih =>
      have hkid : ∀ c ∈ chunks (Pvec.capacity d) xs,
          (Reached (· = Pvec.emptyRoot) (pvecChildren kv elem) (Pvec.rootOf d c) x ↔ x ∈ listCells d c) := by
        intro c hc
        have hne' := mem_chunks_ne_nil (Pvec.capacity_pos d) hc
        refine ih (hheld.chunk hc) (hfits.chunk hc) hne' ?_
        rw [Pvec.rootOf_of_ne hne']
        exact (hheld.chunk hc _ (Pvec.enc_mem_encs hne')).1
      refine Iff.trans (reached_iff hroot) ?_
      rw [pvecChildren, Pvec.readNodeKv_inner hheld hfits hne]
      constructor
      · rintro (rfl | ⟨w, hw, hreach⟩)
        · exact ⟨_, Pvec.enc_mem_encs hne, Pvec.rootOf_of_ne hne⟩
        · obtain ⟨c, hc, rfl⟩ := List.mem_map.mp hw
          obtain ⟨e, he, hx⟩ := (hkid c hc).mp hreach
          exact ⟨e, Pvec.mem_encs_succ.mpr (.inr ⟨c, hc, he⟩), hx⟩
      · rintro ⟨e, he, rfl⟩
        rcases Pvec.mem_encs_succ.mp he with ⟨-, rfl⟩ | ⟨c, hc, he⟩
        · exact .inl (Pvec.rootOf_of_ne hne).symm
        · exact .inr ⟨_, List.mem_map_of_mem hc, (hkid c hc).mpr ⟨e, he, rfl⟩⟩

end Nodes

/-! ### Stores that agree on what is live -/

section Agree

variable {liveStates : List (U128 × Ty)} {kv kv' : Kv} {cell : U128} {ty : Ty}

theorem reachableFrom_congr (hcell : kv' cell = kv cell) (h : ∀ c ∈ reachableFrom kv cell ty, kv' c = kv c) :
    reachableFrom kv' cell ty = reachableFrom kv cell ty := by
  unfold reachableFrom at h ⊢
  rw [hcell]
  split
  · rename_i kt vt
    split
    · rename_i root hread
      simp only [hread] at h
      ext c
      rw [mem_pmapReachable, mem_pmapReachable]
      refine reached_congr fun y hy => ?_
      rw [pmapChildren, Pmap.readNodeKv, Pmap.nodeAt, h y (mem_pmapReachable.mpr hy)]
      rfl
    · rfl
  · rename_i elem
    split
    · rename_i len root hread
      simp only [hread] at h
      ext c
      rw [mem_pvecReachable, mem_pvecReachable]
      refine reached_congr fun y hy => ?_
      rw [pvecChildren, Pvec.readNodeKv, Pmap.nodeAt, h y (mem_pvecReachable.mpr hy)]
      rfl
    · rfl
  · rfl

theorem liveCells_congr (h : ∀ c ∈ liveCells kv liveStates, kv' c = kv c) :
    liveCells kv' liveStates = liveCells kv liveStates := by
  have hfrom : ∀ p ∈ liveStates, reachableFrom kv' p.1 p.2 = reachableFrom kv p.1 p.2 := fun p hp =>
    reachableFrom_congr (h _ (mem_liveCells.mpr ⟨p, hp, .inl rfl⟩))
      fun c hc => h c (mem_liveCells.mpr ⟨p, hp, .inr hc⟩)
  ext c
  rw [mem_liveCells, mem_liveCells]
  exact exists_congr fun p => and_congr_right fun hp => by rw [hfrom p hp]

theorem liveCells_sweep (candidates : Finset U128) :
    liveCells (sweep liveStates candidates kv).2 liveStates = liveCells kv liveStates :=
  liveCells_congr fun _ hc => sweep_of_live hc

end Agree

/-! ### What a live state leads to -/

/-- The collection stored under a state, if any. -/
inductive Content
  | map (kt vt : Ty) (root : U128) (T : Pmap.Trie)
  | vec (elem : Ty) (len : U64) (root : U128) (xs : List Value)
  | none

/-- The cells of its nodes. -/
def Content.cells : Content → Set U128
  | .map _ _ _ T => trieCells T
  | .vec _ len _ xs => listCells (Pvec.depthFor len.toNat) xs
  | .none => ∅

/-- All nodes of the collection are stored, and its elements read back at its types. -/
def Content.Stored (kv : Kv) : Content → Prop
  | .map kt vt root T => Pmap.Stored kv kt vt root T
  | .vec elem len root xs => Pvec.Stored kv elem (root, len.toNat) xs
  | .none => True

/-- A state of a type leads to a collection. -/
inductive LeadsTo (bytes : Option Bytes) : Ty → Content → Prop
  | pmap {kt vt : Ty} {root : U128} (T : Pmap.Trie)
      (hread : bytes.bind (deserialize (.pmap kt vt)) = some (.pmap root)) :
      LeadsTo bytes (.pmap kt vt) (.map kt vt root T)
  | pvec {elem : Ty} {len : U64} {root : U128} (xs : List Value)
      (hread : bytes.bind (deserialize (.pvec elem)) = some (.pvec len root)) :
      LeadsTo bytes (.pvec elem) (.vec elem len root xs)
  | unread {ty : Ty} (hread : bytes.bind (deserialize ty) = none) : LeadsTo bytes ty .none
  | other {ty : Ty} (hmap : ∀ kt vt, ty ≠ .pmap kt vt) (hvec : ∀ elem, ty ≠ .pvec elem) : LeadsTo bytes ty .none

section Content

variable {liveStates : List (U128 × Ty)} {kv kv' : Kv} {cell c : U128} {ty : Ty} {content : Content}

/-- The walk finds the nodes of the collection a state leads to. -/
theorem LeadsTo.reachable (h : LeadsTo (kv cell) ty content) (hst : content.Stored kv) :
    c ∈ reachableFrom kv cell ty ↔ c ∈ content.cells := by
  cases h with
  | pmap T hread =>
    change Pmap.Stored kv _ _ _ T at hst
    simp only [reachableFrom, hread]
    rw [mem_pmapReachable, hst.root_eq]
    exact reached_trie hst.held hst.fits
  | pvec xs hread =>
    change Pvec.Stored kv _ _ xs at hst
    have hroot := hst.root_eq
    dsimp only at hroot
    simp only [reachableFrom, hread]
    rw [mem_pvecReachable, hroot]
    exact reached_list hst.held hst.fits
  | unread hread =>
    unfold reachableFrom
    split <;> simp [hread, Content.cells]
  | other hmap hvec =>
    unfold reachableFrom
    split
    · exact absurd rfl (hmap _ _)
    · exact absurd rfl (hvec _)
    · simp [Content.cells]

theorem stored_vec {elem : Ty} {vec : U128 × ℕ} {xs : List Value} (hlen : vec.2 < 2 ^ 64)
    (h : Pvec.Stored kv elem vec xs) : (Content.vec elem (BitVec.ofNat 64 vec.2) vec.1 xs).Stored kv := by
  rw [Content.Stored, BitVec.toNat_ofNat, Nat.mod_eq_of_lt hlen]
  exact h

/-- Another store with the same nodes stores the collection too. -/
theorem Content.Stored.congr (h : content.Stored kv)
    (hsame : ∀ c ∈ content.cells, ∀ bs, Pmap.nodeAt kv c = some bs → Pmap.nodeAt kv' c = some bs) :
    content.Stored kv' := by
  cases content with
  | map kt vt root T =>
    change Pmap.Stored kv kt vt root T at h
    exact ⟨h.root_eq, fun e he => ⟨(h.held e he).1, hsame _ ⟨e, he, rfl⟩ e (h.held e he).2⟩, h.fits, h.wf⟩
  | vec elem len root xs =>
    change Pvec.Stored kv elem (root, len.toNat) xs at h
    exact ⟨h.length, h.root_eq, h.elems,
      fun e he => ⟨(h.held e he).1, hsame _ ⟨e, he, rfl⟩ e (h.held e he).2⟩⟩
  | none => trivial

end Content

/-! ### A sweep is exact -/

/-- What a sweep does when each live state leads to a collection that is stored. -/
structure SweptTo (liveStates : List (U128 × Ty)) (candidates : Finset U128) (contents : U128 × Ty → Content)
    (kv : Kv) (report : GcReport) (kv' : Kv) : Prop where
  /-- A cell is missing if it was, or if it is a candidate that is neither a live state nor one of its nodes. -/
  missing : ∀ c, kv' c = none ↔
    kv c = none ∨ c ∈ candidates ∧ ∀ p ∈ liveStates, c ≠ p.1 ∧ c ∉ (contents p).cells
  /-- No cell changes otherwise. -/
  same : ∀ c, kv' c = none ∨ kv' c = kv c
  /-- The report counts the cells that went. -/
  swept : ∀ gone : Finset U128, (∀ c, c ∈ gone ↔ kv c ≠ none ∧ kv' c = none) → report.swept = gone.card
  /-- The collections are stored as they were. -/
  stored : ∀ p ∈ liveStates, LeadsTo (kv' p.1) p.2 (contents p) ∧ (contents p).Stored kv'
  /-- There is nothing left for another sweep. -/
  again : ∀ candidates' ⊆ candidates, sweep liveStates candidates' kv' = ({ report with swept := 0 }, kv')

section Exact

variable {liveStates : List (U128 × Ty)} {candidates : Finset U128} {kv : Kv} {contents : U128 × Ty → Content}

theorem sweep_eq_none_iff {c : U128} :
    (sweep liveStates candidates kv).2 c = none ↔ kv c = none ∨ c ∈ candidates ∧ c ∉ liveCells kv liveStates := by
  by_cases h : c ∈ candidates ∧ c ∉ liveCells kv liveStates
  · exact iff_of_true (if_pos h) (.inr h)
  · have hkeep : (sweep liveStates candidates kv).2 c = kv c := if_neg h
    rw [hkeep, or_iff_left h]

/-- A second sweep finds the live cells of the first, and all else is gone. -/
theorem sweep_again {candidates' : Finset U128} (hsub : candidates' ⊆ candidates) :
    sweep liveStates candidates' (sweep liveStates candidates kv).2 =
      ({ (sweep liveStates candidates kv).1 with swept := 0 }, (sweep liveStates candidates kv).2) := by
  have hgone : ∀ c, c ∈ candidates' ∧ c ∉ liveCells kv liveStates →
      (sweep liveStates candidates kv).2 c = none := fun c hc =>
    sweep_eq_none_iff.mpr (.inr ⟨hsub hc.1, hc.2⟩)
  have hcount : candidates'.filter (fun c => c ∉ liveCells kv liveStates ∧
      ((sweep liveStates candidates kv).2 c).isSome) = ∅ := by
    refine Finset.filter_eq_empty_iff.mpr fun c hc hboth => ?_
    rw [hgone c ⟨hc, hboth.1⟩] at hboth
    exact absurd hboth.2 (by simp)
  rw [sweep, liveCells_sweep, hcount]
  refine Prod.ext rfl (funext fun c => ?_)
  by_cases h : c ∈ candidates' ∧ c ∉ liveCells kv liveStates
  · exact (if_pos h).trans (hgone c h).symm
  · exact if_neg h

/-- **A sweep removes exactly the candidates that no live state leads to.** -/
theorem sweep_exact (h : ∀ p ∈ liveStates, LeadsTo (kv p.1) p.2 (contents p) ∧ (contents p).Stored kv) :
    SweptTo liveStates candidates contents kv (sweep liveStates candidates kv).1
      (sweep liveStates candidates kv).2 := by
  have hlive : ∀ c, c ∉ liveCells kv liveStates ↔ ∀ p ∈ liveStates, c ≠ p.1 ∧ c ∉ (contents p).cells := by
    intro c
    rw [mem_liveCells]
    push Not
    exact forall₂_congr fun p hp => by rw [(h p hp).1.reachable (h p hp).2]
  have hmissing : ∀ c, (sweep liveStates candidates kv).2 c = none ↔
      kv c = none ∨ c ∈ candidates ∧ ∀ p ∈ liveStates, c ≠ p.1 ∧ c ∉ (contents p).cells := fun c => by
    rw [sweep_eq_none_iff, hlive]
  refine ⟨hmissing, fun c => ?_, fun gone hgone => ?_, fun p hp => ⟨?_, ?_⟩, fun _ hsub => sweep_again hsub⟩
  · by_cases hc : c ∈ candidates ∧ c ∉ liveCells kv liveStates
    · exact .inl (if_pos hc)
    · exact .inr (if_neg hc)
  · refine congrArg Finset.card (Finset.ext fun c => ?_)
    rw [hgone, sweep_eq_none_iff, Finset.mem_filter, ← Option.isSome_iff_ne_none]
    constructor
    · rintro ⟨hc, hdead, hsome⟩
      exact ⟨hsome, .inr ⟨hc, hdead⟩⟩
    · rintro ⟨hsome, hnone | ⟨hc, hdead⟩⟩
      · rw [hnone] at hsome
        exact absurd hsome (by simp)
      · exact ⟨hc, hdead, hsome⟩
  · rw [sweep_of_live (mem_liveCells.mpr ⟨p, hp, .inl rfl⟩)]
    exact (h p hp).1
  · refine (h p hp).2.congr fun c hc bs hbs => ?_
    rw [Pmap.nodeAt, sweep_of_live (mem_liveCells.mpr ⟨p, hp, .inr ((h p hp).1.reachable (h p hp).2 |>.mpr hc)⟩)]
    exact hbs

/-- One element replaced, put back, and the other one replaced. -/
def twoSided : List Pvec.Op :=
  [.push (.int 10), .push (.int 11), .set 0 (.int 12), .set 0 (.int 10), .set 1 (.int 13)]

/-- The store with the nodes of that run. -/
def twoSidedKv : Kv :=
  Pmap.storeCells (fun _ => none) (Pvec.logCells (Pvec.run .int (Tx.new fun _ => none) twoSided).1.nodeLog)

/-- The vector after the first calls of the run. -/
def twoSidedVec (n : ℕ) : U128 × ℕ := (Pvec.run .int (Tx.new fun _ => none) (twoSided.take n)).2

/-- The vector of the run, with all the nodes of the run, under a state. -/
def vectorKv : Kv :=
  Function.update twoSidedKv 7
    (some (serialize (.pvec (BitVec.ofNat 64 (twoSidedVec 5).2) (twoSidedVec 5).1)))

/-- The list that it holds. -/
def vectorContent : Content :=
  .vec .int (BitVec.ofNat 64 (twoSidedVec 5).2) (twoSidedVec 5).1 [.int 10, .int 13]

theorem vectorKv_stored : LeadsTo (vectorKv 7) (.pvec .int) vectorContent ∧ vectorContent.Stored vectorKv := by
  have hst : Pmap.Storable (fun _ => none)
      (Pvec.logCells (Pvec.run .int (Tx.new fun _ => none) twoSided).1.nodeLog) :=
    Pmap.storable_of_list (by decide +kernel)
  have hrun : Pvec.Stored twoSidedKv .int (twoSidedVec 5) [.int 10, .int 13] :=
    Pvec.prefix_stored hst (by decide +kernel) (List.take_append_drop 5 twoSided).symm
  have hold : vectorContent.Stored twoSidedKv := stored_vec (by decide +kernel) hrun
  refine ⟨.pvec _ (by decide +kernel), hold.congr fun c hc bs hbs => ?_⟩
  have hne : c ≠ 7 := by
    clear hbs
    obtain ⟨e, he, rfl⟩ := hc
    revert e
    decide +kernel
  rw [Pmap.nodeAt, vectorKv, Function.update_of_ne hne]
  exact hbs

/-- The nodes of the run, all of them candidates. -/
def vectorCandidates : Finset U128 :=
  ((Pvec.run .int (Tx.new fun _ => none) twoSided).1.nodeLog.map Pvec.nodeCellKey).toFinset

/-- Of a run that made five vectors the nodes of the last one stay. -/
theorem sweep_exact_vector : SweptTo [(7, .pvec .int)] vectorCandidates (fun _ => vectorContent) vectorKv
    (sweep [(7, .pvec .int)] vectorCandidates vectorKv).1 (sweep [(7, .pvec .int)] vectorCandidates vectorKv).2 := by
  refine sweep_exact fun p hp => ?_
  rw [List.mem_singleton.mp hp]
  exact vectorKv_stored

end Exact

/-! ### A host that writes and collects -/

/-- What a host does to its store: it stores the nodes a transaction has written, it points a state elsewhere,
and it collects. -/
inductive HostStep
  | nodes (cells : Pmap.NewCells)
  | put (cell : U128) (bytes : Bytes)
  | collect (liveStates : List (U128 × Ty)) (candidates : Finset U128)

def hostStep (kv : Kv) : HostStep → Kv
  | .nodes cells => Pmap.storeCells kv cells
  | .put cell bytes => Function.update kv cell (some bytes)
  | .collect liveStates candidates => (sweep liveStates candidates kv).2

def hostRun (kv : Kv) (steps : List HostStep) : Kv := steps.foldl hostStep kv

/-- The step does not write the state or its nodes, and knows that it is live. -/
def Spares (cell : U128) (ty : Ty) (content : Content) (kv : Kv) : HostStep → Prop
  | .nodes cells => Pmap.Storable kv cells ∧ cell ∉ cells.map Prod.fst
  | .put c _ => c ≠ cell ∧ c ∉ content.cells
  | .collect liveStates _ => (cell, ty) ∈ liveStates

def AllSpare (cell : U128) (ty : Ty) (content : Content) : Kv → List HostStep → Prop
  | _, [] => True
  | kv, s :: steps => Spares cell ty content kv s ∧ AllSpare cell ty content (hostStep kv s) steps

/-- What a collection answers is the same in both stores. -/
def Content.SameReads (kv kv' : Kv) : Content → Prop
  | .map kt vt root _ => ∀ key, Pmap.lookupIn kv' kt vt root key = Pmap.lookupIn kv kt vt root key
  | .vec elem len root _ => ∀ i, Pvec.readAt kv' elem (root, len.toNat) i = Pvec.readAt kv elem (root, len.toNat) i
  | .none => True

section Host

variable {kv kv' : Kv} {cell : U128} {ty : Ty} {content : Content}

theorem Content.Stored.sameReads (h : content.Stored kv) (h' : content.Stored kv') : content.SameReads kv kv' := by
  cases content with
  | map kt vt root T =>
    intro key
    rw [Pmap.Stored.lookupIn_eq h key, Pmap.Stored.lookupIn_eq h' key]
  | vec elem len root xs =>
    intro i
    rw [Pvec.Stored.readAt_eq h i, Pvec.Stored.readAt_eq h' i]
  | none => trivial

/-- One step keeps the state and its collection. -/
theorem hostStep_keeps (hstate : LeadsTo (kv cell) ty content) (hst : content.Stored kv) {s : HostStep}
    (hs : Spares cell ty content kv s) : hostStep kv s cell = kv cell ∧ content.Stored (hostStep kv s) := by
  cases s with
  | nodes cells =>
    obtain ⟨hcells, hcell⟩ := hs
    exact ⟨Pmap.storeCells_of_not_mem hcell, hst.congr fun c _ bs hbs => hcells.nodeAt_old hbs⟩
  | put c bytes =>
    obtain ⟨hcell, hnodes⟩ := hs
    refine ⟨Function.update_of_ne hcell.symm _ _, hst.congr fun c' hc' bs hbs => ?_⟩
    have hne : c' ≠ c := fun heq => hnodes (heq ▸ hc')
    rw [hostStep, Pmap.nodeAt, Function.update_of_ne hne]
    exact hbs
  | collect liveStates candidates =>
    have hlive : (cell, ty) ∈ liveStates := hs
    refine ⟨sweep_of_live (mem_liveCells.mpr ⟨_, hlive, .inl rfl⟩), hst.congr fun c hc bs hbs => ?_⟩
    rw [hostStep, Pmap.nodeAt,
      sweep_of_live (mem_liveCells.mpr ⟨_, hlive, .inr ((hstate.reachable hst).mpr hc)⟩)]
    exact hbs

/-- **Whatever a host stores and collects, a state that stays live reads as before.** -/
theorem hostRun_keeps (hstate : LeadsTo (kv cell) ty content) (hst : content.Stored kv) {steps : List HostStep}
    (hall : AllSpare cell ty content kv steps) :
    hostRun kv steps cell = kv cell ∧ content.Stored (hostRun kv steps) ∧
      content.SameReads kv (hostRun kv steps) := by
  have hkeep : hostRun kv steps cell = kv cell ∧ content.Stored (hostRun kv steps) := by
    induction steps generalizing kv with
    | nil => exact ⟨rfl, hst⟩
    | cons s steps ih =>
      obtain ⟨hs, hrest⟩ := hall
      obtain ⟨hcell, hst'⟩ := hostStep_keeps hstate hst hs
      obtain ⟨hcell', hst''⟩ := ih (by rw [hcell]; exact hstate) hst' hrest
      exact ⟨hcell'.trans hcell, hst''⟩
  exact ⟨hkeep.1, hkeep.2, hst.sameReads hkeep.2⟩

/-- A host that collects, stores a number elsewhere and collects again. -/
theorem hostRun_keeps_vector :
    hostRun vectorKv [.collect [(7, .pvec .int)] vectorCandidates, .put 8 (serialize (.int 3)),
      .collect [(7, .pvec .int), (8, .int)] vectorCandidates] 7 = vectorKv 7 ∧
    vectorContent.SameReads vectorKv (hostRun vectorKv [.collect [(7, .pvec .int)] vectorCandidates,
      .put 8 (serialize (.int 3)), .collect [(7, .pvec .int), (8, .int)] vectorCandidates]) := by
  have hspare : AllSpare 7 (.pvec .int) vectorContent vectorKv [.collect [(7, .pvec .int)] vectorCandidates,
      .put 8 (serialize (.int 3)), .collect [(7, .pvec .int), (8, .int)] vectorCandidates] := by
    refine ⟨List.mem_singleton_self _, ⟨by decide, ?_⟩, List.mem_cons_self, trivial⟩
    rintro ⟨e, he, hkey⟩
    revert e
    decide +kernel
  have hkeep := hostRun_keeps vectorKv_stored.1 vectorKv_stored.2 hspare
  exact ⟨hkeep.1, hkeep.2.2⟩

end Host

end Rend.Gc
