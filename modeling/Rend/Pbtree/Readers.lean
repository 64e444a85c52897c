import Rend.Pbtree.Shape

/-!
# The readers follow the tree

On a transaction that shows every node it has logged, each reader of the sorted map answers from the
entries of the tree alone: `get` finds the entry of a key, `entries` lists all of them, `range` those
between two bounds and `firstGreaterThan` the first that is above a bound. Where a reader skips a child,
the separators guarantee that nothing in it is asked for.
-/

namespace Rend.Pbtree

open Lib Tx

open Pmap (RoundTrips)

variable {kt vt : Ty} {n fuel : ℕ} {hash : U128} {es : List (Value × Value)} {tx tx' : Tx}

/-! ### Reading a node -/

theorem readNode_reads (tx : Tx) (hash : U128) (kt vt : Ty) : Reads tx (readNode tx hash kt vt).1 := by
  rw [readNode]
  split_ifs
  · exact .refl
  · exact .single (.read tx hash)

theorem readNode_logged (hs : LogShown nodeCellKey tx) {node : Node} (h : Logged kt vt tx.nodeLog hash node) :
    (readNode tx hash kt vt).2 = some node := by
  obtain ⟨hroot, hshow⟩ := hs _ h.mem
  rw [← h.key] at hroot hshow
  change hash ≠ emptyRoot at hroot
  have hread : readNode tx hash kt vt =
      ((tx.fetch hash).1, (asBytes (tx.fetch hash).2).bind (deserializeNode kt vt)) := by
    rw [readNode, if_neg hroot]
    rfl
  rw [hread, fetch_of_shows hshow]
  exact deserializeNode_bytes h.fits

/-- A tree over the nodes logged so far, in a transaction that shows them. -/
structure Held (kt vt : Ty) (tx : Tx) (n : ℕ) (hash : U128) (es : List (Value × Value)) : Prop where
  shown : LogShown nodeCellKey tx
  tree : BTree (Logged kt vt tx.nodeLog) n hash es

theorem Held.reads (h : Held kt vt tx n hash es) (hr : Reads tx tx') : Held kt vt tx' n hash es :=
  ⟨hr.logShown h.shown, by rw [hr.nodeLog]; exact h.tree⟩

/-- What reading the root of a tree gives: a sorted leaf, or an inner node whose keys separate the
entries of its children. -/
theorem Held.read (h : Held kt vt tx (n + 1) hash es) :
    ((readNode tx hash kt vt).2 = some (.leaf es) ∧ es ≠ [] ∧ SortedBy entryRank es ∧
      (Node.leaf es).Fits kt vt) ∨
    ∃ keys, ∃ kids : List (U128 × List (Value × Value)),
      (readNode tx hash kt vt).2 = some (.inner keys (kids.map Prod.fst)) ∧ keys ≠ [] ∧
      es = (kids.map Prod.snd).flatten ∧ (∀ kid ∈ kids, Held kt vt tx n kid.1 kid.2) ∧
      Separates entryRank (keys.map rank) (kids.map Prod.snd) ∧ (Node.inner keys (kids.map Prod.fst)).Fits kt vt := by
  rcases h.tree with ⟨hleaf, hne, hs⟩ | ⟨keys, kids, hinner, hkeys, hes, hkids, hsep⟩
  · exact .inl ⟨readNode_logged h.shown hleaf, hne, hs, hleaf.fits⟩
  · exact .inr ⟨keys, kids, readNode_logged h.shown hinner, hkeys, hes, fun kid hk => ⟨h.shown, hkids kid hk⟩, hsep,
      hinner.fits⟩

section Keys

variable (hkt : IsKeyTy kt)
include hkt

theorem keyOf_leaf (h : (Node.leaf es).Fits kt vt) : ∀ e ∈ es, KeyOf kt e.1 :=
  fun e he => keyOf_of_roundTrips hkt (h.2 e he).1

theorem keyOf_inner {keys : List Value} {children : List U128} (h : (Node.inner keys children).Fits kt vt) :
    ∀ k ∈ keys, KeyOf kt k :=
  fun k hk => keyOf_of_roundTrips hkt (h.2.2 k hk)

theorem Held.keyOf (h : Held kt vt tx n hash es) : ∀ e ∈ es, KeyOf kt e.1 := by
  induction n generalizing hash es with
  | zero => exact h.tree.elim
  | succ n ih =>
    rcases h.read with ⟨-, -, -, hf⟩ | ⟨keys, kids, -, -, rfl, hkids, -, -⟩
    · exact keyOf_leaf hkt hf
    · intro e he
      obtain ⟨p, hp, he⟩ := List.mem_flatten.mp he
      obtain ⟨kid, hk, rfl⟩ := List.mem_map.mp hp
      exact ih (hkids kid hk) e he

end Keys

/-- The child that a search follows: what stands before it is below, what stands behind it is above. -/
theorem exists_route {keys : List Value} {kids : List (U128 × List (Value × Value))}
    (hsep : Separates entryRank (keys.map rank) (kids.map Prod.snd)) (x : ℕ ×ₗ Bytes) :
    ∃ kid, kids[place (keys.map rank) x]? = some kid ∧
      (kids.map Prod.snd)[place (keys.map rank) x]? = some kid.2 ∧
      (∀ e ∈ ((kids.map Prod.snd).take (place (keys.map rank) x)).flatten, entryRank e < x) ∧
      ∀ e ∈ ((kids.map Prod.snd).drop (place (keys.map rank) x + 1)).flatten, x < entryRank e := by
  have hlen := hsep.length
  have hle := place_le (keys.map rank) x
  rw [List.length_map] at hlen
  have hkid := List.getElem?_eq_getElem (show place (keys.map rank) x < kids.length by omega)
  refine ⟨_, hkid, ?_, hsep.around x⟩
  rw [List.getElem?_map, hkid]
  rfl

theorem getD_kid {kids : List (U128 × List (Value × Value))} {pos : ℕ} {kid : U128 × List (Value × Value)}
    (h : kids[pos]? = some kid) : (kids.map Prod.fst).getD pos emptyRoot = kid.1 := by
  rw [List.getD_eq_getElem?_getD, List.getElem?_map, h]
  rfl

/-! ### Lookup -/

theorem getAt_eq (hkt : IsKeyTy kt) (h : Held kt vt tx n hash es) (hn : n ≤ fuel) {key : Value}
    (hkey : KeyOf kt key) :
    (getAt key kt vt fuel hash tx).2 = (es.find? fun e => entryRank e = rank key).map Prod.snd := by
  induction n generalizing fuel hash es tx with
  | zero => exact h.tree.elim
  | succ n ih =>
    obtain ⟨fuel, rfl⟩ : ∃ m, fuel = m + 1 := ⟨fuel - 1, by omega⟩
    have hreads := readNode_reads tx hash kt vt
    rw [getAt]
    rcases h.read with ⟨hread, -, -, hf⟩ | ⟨keys, kids, hread, -, rfl, hkids, hsep, hf⟩
    · generalize readNode tx hash kt vt = r at hread
      obtain ⟨tx₁, node⟩ := r
      subst hread
      have heq : ∀ e ∈ es, (compareKeys e.1 key).isEq = decide (entryRank e = rank key) :=
        fun e he => (keyOf_leaf hkt hf e he).isEq hkey
      dsimp only
      rw [List.find?_congr heq]
    · generalize readNode tx hash kt vt = r at hread hreads
      obtain ⟨tx₁, node⟩ := r
      subst hread
      obtain ⟨kid, hkid, hpart, hbefore, hbehind⟩ := exists_route hsep (rank key)
      have hnone₁ := List.find?_eq_none (p := fun e => decide (entryRank e = rank key)).mpr
        fun e he => by simpa using (hbefore e he).ne
      have hnone₂ := List.find?_eq_none (p := fun e => decide (entryRank e = rank key)).mpr
        fun e he => by simpa using (hbehind e he).ne'
      dsimp only
      rw [descendPos_eq (keyOf_inner hkt hf) hkey, getD_kid hkid,
        ih ((hkids kid (List.mem_of_getElem? hkid)).reads hreads) (by omega), flatten_eq hpart,
        List.find?_append, List.find?_append, hnone₁, hnone₂, Option.none_or, Option.or_none]

/-! ### Walks over children -/

/-- A walk over the children emits what each of them emits. -/
theorem walkChildren_eq {α : Type} {walk : U128 → List α → Tx → Tx × List α} {f : List (Value × Value) → List α}
    (hr : ∀ c out tx, Reads tx (walk c out tx).1) {kids : List (U128 × List (Value × Value))}
    (hkids : ∀ kid ∈ kids, ∀ out tx', Reads tx tx' → (walk kid.1 out tx').2 = out ++ f kid.2) (out : List α)
    (htx : Reads tx tx') :
    (walkChildren walk (kids.map Prod.fst) out tx').2 = out ++ (kids.map fun kid => f kid.2).flatten := by
  induction kids generalizing out tx' with
  | nil => exact (List.append_nil out).symm
  | cons kid kids ih =>
    have hone := hkids kid List.mem_cons_self out tx' htx
    have hreads := hr kid.1 out tx'
    rw [List.map_cons, walkChildren]
    dsimp only
    rw [ih (fun k hk => hkids k (List.mem_cons_of_mem _ hk)) _ (htx.trans hreads), hone, List.map_cons,
      List.flatten_cons, List.append_assoc]

theorem walkChildren_reads {α : Type} {walk : U128 → List α → Tx → Tx × List α}
    (hr : ∀ c out tx, Reads tx (walk c out tx).1) (cs : List U128) (out : List α) (tx : Tx) :
    Reads tx (walkChildren walk cs out tx).1 := by
  induction cs generalizing out tx with
  | nil => exact .refl
  | cons c cs ih => exact (hr c out tx).trans (ih ..)

theorem collectEntries_reads (kt vt : Ty) (fuel : ℕ) (hash : U128) (out : List (Value × Value)) (tx : Tx) :
    Reads tx (collectEntries kt vt fuel hash out tx).1 := by
  induction fuel generalizing hash out tx with
  | zero => exact .refl
  | succ fuel ih =>
    have hread := readNode_reads tx hash kt vt
    rw [collectEntries]
    generalize readNode tx hash kt vt = r at hread
    obtain ⟨tx₁, _ | _ | _⟩ := r
    · exact hread
    · exact hread.trans (walkChildren_reads ih ..)
    · exact hread

theorem rangeAt_reads (lo hi : Value) (kt vt : Ty) (fuel : ℕ) (hash : U128) (out : List Value) (tx : Tx) :
    Reads tx (rangeAt lo hi kt vt fuel hash out tx).1 := by
  induction fuel generalizing hash out tx with
  | zero => exact .refl
  | succ fuel ih =>
    have hread := readNode_reads tx hash kt vt
    rw [rangeAt]
    generalize readNode tx hash kt vt = r at hread
    obtain ⟨tx₁, _ | _ | _⟩ := r
    · exact hread
    · exact hread.trans (walkChildren_reads ih ..)
    · exact hread

theorem collectEntries_eq (h : Held kt vt tx n hash es) (hn : n ≤ fuel) (out : List (Value × Value)) :
    (collectEntries kt vt fuel hash out tx).2 = out ++ es := by
  induction n generalizing fuel hash es tx out with
  | zero => exact h.tree.elim
  | succ n ih =>
    obtain ⟨fuel, rfl⟩ : ∃ m, fuel = m + 1 := ⟨fuel - 1, by omega⟩
    have hreads := readNode_reads tx hash kt vt
    rw [collectEntries]
    rcases h.read with ⟨hread, -, -, -⟩ | ⟨keys, kids, hread, -, rfl, hkids, -, -⟩
    · generalize readNode tx hash kt vt = r at hread
      obtain ⟨tx₁, node⟩ := r
      subst hread
      rfl
    · generalize readNode tx hash kt vt = r at hread hreads
      obtain ⟨tx₁, node⟩ := r
      subst hread
      have hall : ∀ kid ∈ kids, ∀ out tx', Reads tx tx' →
          (collectEntries kt vt fuel kid.1 out tx').2 = out ++ id kid.2 :=
        fun kid hk out tx' hr => ih ((hkids kid hk).reads hr) (by omega) out
      exact walkChildren_eq (collectEntries_reads kt vt fuel) hall out hreads

/-! ### Ranges -/

/-- The values between two bounds. -/
def valuesIn (lo hi : Value) (es : List (Value × Value)) : List Value :=
  (es.filter fun e => rank lo ≤ entryRank e ∧ entryRank e ≤ rank hi).map Prod.snd

theorem valuesIn_eq_nil {lo hi : Value} (h : ∀ e ∈ es, entryRank e < rank lo ∨ rank hi < entryRank e) :
    valuesIn lo hi es = [] := by
  rw [valuesIn, List.filter_eq_nil_iff.mpr, List.map_nil]
  intro e he
  rcases h e he with hlt | hlt
  · simpa using fun hle => absurd hlt (not_lt.mpr hle)
  · simpa using fun _ => hlt

theorem rangeLeaf_eq {lo hi : Value} (hs : SortedBy entryRank es) (hes : ∀ e ∈ es, KeyOf kt e.1) (hlo : KeyOf kt lo)
    (hhi : KeyOf kt hi) (out : List Value) : rangeLeaf lo hi es out = out ++ valuesIn lo hi es := by
  induction es generalizing out with
  | nil => exact (List.append_nil out).symm
  | cons e es ih =>
    obtain ⟨k, v⟩ := e
    have hk := hes (k, v) List.mem_cons_self
    obtain ⟨hbehind, hs'⟩ := List.pairwise_cons.mp hs
    have hrest := ih hs' fun e he => hes e (List.mem_cons_of_mem _ he)
    rw [rangeLeaf, hk.isLT hlo, hk.isGT hhi]
    by_cases h₁ : rank k < rank lo
    · have hskip : valuesIn lo hi ((k, v) :: es) = valuesIn lo hi es := by
        rw [valuesIn, List.filter_cons_of_neg, valuesIn]
        rw [decide_eq_true_eq]
        exact fun hin => absurd h₁ (not_lt.mpr hin.1)
      rw [if_pos (decide_eq_true h₁), hrest, hskip]
    · rw [if_neg (by simpa using h₁)]
      by_cases h₂ : rank hi < rank k
      · -- the list is sorted, so nothing behind is in the range
        have hnone : valuesIn lo hi ((k, v) :: es) = [] := by
          refine valuesIn_eq_nil fun e he => .inr ?_
          rcases List.mem_cons.mp he with rfl | he
          · exact h₂
          · exact h₂.trans (hbehind e he)
        rw [if_pos (decide_eq_true h₂), hnone, List.append_nil]
      · have htake : valuesIn lo hi ((k, v) :: es) = v :: valuesIn lo hi es := by
          simp [valuesIn, entryRank, not_lt.mp h₁, not_lt.mp h₂]
        rw [if_neg (by simpa using h₂), hrest, htake, List.append_assoc]
        rfl

/-- A slice has all that the parts give, when the parts outside give nothing. -/
theorem flatten_slice {α β : Type} {f : α → List β} {l : List α} {a b : ℕ}
    (h : ∀ j x, l[j]? = some x → j < a ∨ b ≤ j → f x = []) :
    (((l.take b).drop a).map f).flatten = (l.map f).flatten := by
  have hnil : ∀ l' : List α, (∀ x ∈ l', f x = []) → (l'.map f).flatten = [] := by
    intro l' hl'
    rw [List.flatten_eq_nil_iff]
    intro y hy
    obtain ⟨x, hx, rfl⟩ := List.mem_map.mp hy
    exact hl' x hx
  have hfront : (((l.take b).take a).map f).flatten = [] := by
    refine hnil _ fun x hx => ?_
    obtain ⟨j, hj⟩ := List.mem_iff_getElem?.mp hx
    rw [List.getElem?_take] at hj
    split_ifs at hj with hja
    rw [List.getElem?_take] at hj
    split_ifs at hj
    exact h j x hj (.inl hja)
  have hback : ((l.drop b).map f).flatten = [] := by
    refine hnil _ fun x hx => ?_
    obtain ⟨j, hj⟩ := List.mem_iff_getElem?.mp hx
    rw [List.getElem?_drop] at hj
    exact h (b + j) x hj (.inr (Nat.le_add_right b j))
  conv_rhs => rw [← List.take_append_drop b l, ← List.take_append_drop a (l.take b)]
  rw [List.map_append, List.flatten_append, hback, List.append_nil, List.map_append, List.flatten_append, hfront,
    List.nil_append]

theorem rangeAt_eq (hkt : IsKeyTy kt) (h : Held kt vt tx n hash es) (hn : n ≤ fuel) {lo hi : Value}
    (hlo : KeyOf kt lo) (hhi : KeyOf kt hi) (out : List Value) :
    (rangeAt lo hi kt vt fuel hash out tx).2 = out ++ valuesIn lo hi es := by
  induction n generalizing fuel hash es tx out with
  | zero => exact h.tree.elim
  | succ n ih =>
    obtain ⟨fuel, rfl⟩ : ∃ m, fuel = m + 1 := ⟨fuel - 1, by omega⟩
    have hreads := readNode_reads tx hash kt vt
    rw [rangeAt]
    rcases h.read with ⟨hread, -, hs, hf⟩ | ⟨keys, kids, hread, -, rfl, hkids, hsep, hf⟩
    · generalize readNode tx hash kt vt = r at hread
      obtain ⟨tx₁, node⟩ := r
      subst hread
      exact rangeLeaf_eq hs (keyOf_leaf hkt hf) hlo hhi out
    · generalize readNode tx hash kt vt = r at hread hreads
      obtain ⟨tx₁, node⟩ := r
      subst hread
      dsimp only
      rw [descendPos_eq (keyOf_inner hkt hf) hlo, descendPos_eq (keyOf_inner hkt hf) hhi, ← List.map_take,
        ← List.map_drop]
      have hall : ∀ kid ∈ (kids.take (place (keys.map rank) (rank hi) + 1)).drop (place (keys.map rank) (rank lo)),
          ∀ out tx', Reads tx tx' → (rangeAt lo hi kt vt fuel kid.1 out tx').2 = out ++ valuesIn lo hi kid.2 := by
        intro kid hk out tx' hr
        have hmem : kid ∈ kids := List.mem_of_mem_take (List.mem_of_mem_drop hk)
        exact ih ((hkids kid hmem).reads hr) (by omega) out
      have hflat : valuesIn lo hi (kids.map Prod.snd).flatten = (kids.map fun kid => valuesIn lo hi kid.2).flatten := by
        rw [valuesIn, List.filter_flatten, List.map_flatten, List.map_map, List.map_map]
        rfl
      rw [walkChildren_eq (rangeAt_reads lo hi kt vt fuel) hall out hreads, hflat, flatten_slice]
      intro j kid hkid hj
      have hpart : (kids.map Prod.snd)[j]? = some kid.2 := by
        rw [List.getElem?_map, hkid]
        rfl
      refine valuesIn_eq_nil fun e he => ?_
      rcases hj with hj | hj
      · exact .inl (hsep.lt_of_before hpart hj he)
      · exact .inr (hsep.lt_of_behind hpart hj he)

/-! ### The first entry above a bound -/

/-- The first entry above the target. -/
def firstAbove (target : Option Value) (es : List (Value × Value)) : Option (Value × Value) :=
  es.find? fun e => isAbove target e.1

theorem firstOf_reads {α : Type} {ask : Option Value → U128 → Tx → Tx × Option α}
    (hr : ∀ target c tx, Reads tx (ask target c tx).1) (target : Option Value) (cs : List U128) (tx : Tx) :
    Reads tx (firstOf ask target cs tx).1 := by
  induction cs generalizing target tx with
  | nil => exact .refl
  | cons c cs ih =>
    have hone := hr target c tx
    rw [firstOf]
    generalize ask target c tx = r at hone
    obtain ⟨tx₁, _ | a⟩ := r
    · exact hone.trans (ih ..)
    · exact hone

theorem firstGreaterAt_reads (kt vt : Ty) (fuel : ℕ) (target : Option Value) (hash : U128) (tx : Tx) :
    Reads tx (firstGreaterAt kt vt fuel target hash tx).1 := by
  induction fuel generalizing target hash tx with
  | zero => exact .refl
  | succ fuel ih =>
    have hread := readNode_reads tx hash kt vt
    rw [firstGreaterAt]
    generalize readNode tx hash kt vt = r at hread
    obtain ⟨tx₁, _ | _ | _⟩ := r
    · exact hread
    · exact hread.trans (firstOf_reads ih ..)
    · exact hread

theorem firstGreaterThan_reads (fuel : ℕ) (root : U128) (target : Option Value) (tx : Tx) (kt vt : Ty) :
    Reads tx (firstGreaterThan fuel root target tx kt vt).1 := by
  rw [firstGreaterThan]
  split_ifs
  · exact .refl
  · exact firstGreaterAt_reads ..

/-- Asking the children one after the other, the first with the target and the others without. -/
theorem firstOf_eq {ask : Option Value → U128 → Tx → Tx × Option (Value × Value)}
    (hr : ∀ target c tx, Reads tx (ask target c tx).1) {kids : List (U128 × List (Value × Value))}
    {target : Option Value} (hkids : ∀ t, t = target ∨ t = none → ∀ kid ∈ kids, ∀ tx', Reads tx tx' →
      (ask t kid.1 tx').2 = firstAbove t kid.2)
    (hrest : ∀ kid ∈ kids.tail, ∀ e ∈ kid.2, isAbove target e.1 = true) (htx : Reads tx tx') :
    (firstOf ask target (kids.map Prod.fst) tx').2 = firstAbove target (kids.map Prod.snd).flatten := by
  induction kids generalizing target tx' with
  | nil => rfl
  | cons kid kids ih =>
    have hone := hkids target (.inl rfl) kid List.mem_cons_self tx' htx
    have hreads := hr target kid.1 tx'
    rw [List.map_cons, firstOf, List.map_cons, List.flatten_cons, firstAbove, List.find?_append, ← firstAbove, ← hone]
    generalize ask target kid.1 tx' = r at hone hreads
    obtain ⟨tx₁, _ | a⟩ := r
    · have hsame : (kids.map Prod.snd).flatten.find? (fun e => isAbove target e.1) =
          firstAbove none (kids.map Prod.snd).flatten := by
        refine List.find?_congr fun e he => ?_
        obtain ⟨p, hp, he⟩ := List.mem_flatten.mp he
        obtain ⟨k, hk, rfl⟩ := List.mem_map.mp hp
        rw [hrest k hk e he]
        rfl
      rw [hsame, Option.none_or]
      exact ih (fun t ht k hk => hkids t (.inr (ht.elim id id)) k (List.mem_cons_of_mem _ hk))
        (fun _ _ _ _ => rfl) (htx.trans hreads)
    · rfl

/-- The child at which the search for a larger key starts. -/
theorem startPos_eq {keys : List Value} {t : Value} (hkeys : ∀ k ∈ keys, KeyOf kt k) (ht : KeyOf kt t) :
    startPos keys (some t) = place (keys.map rank) (rank t) := by
  induction keys with
  | nil => rfl
  | cons k keys ih =>
    have hk := hkeys k List.mem_cons_self
    have hrest := ih fun k hk => hkeys k (List.mem_cons_of_mem _ hk)
    simp only [startPos, Option.elim_some, place] at hrest ⊢
    rw [List.map_cons, List.takeWhile_cons, List.findIdx?_cons, hk.isGT ht]
    by_cases hle : rank k ≤ rank t
    · rw [if_neg (by simpa using hle), if_pos (decide_eq_true hle)]
      refine Eq.trans ?_ (congrArg Nat.succ hrest)
      cases keys.findIdx? fun k => (compareKeys k t).isGT <;> rfl
    · rw [if_pos (by simpa using hle), if_neg (by simpa using hle)]
      rfl

theorem firstGreaterAt_eq (hkt : IsKeyTy kt) (h : Held kt vt tx n hash es) (hn : n ≤ fuel) {target : Option Value}
    (ht : ∀ t ∈ target, KeyOf kt t) : (firstGreaterAt kt vt fuel target hash tx).2 = firstAbove target es := by
  induction n generalizing fuel hash es tx target with
  | zero => exact h.tree.elim
  | succ n ih =>
    obtain ⟨fuel, rfl⟩ : ∃ m, fuel = m + 1 := ⟨fuel - 1, by omega⟩
    have hreads := readNode_reads tx hash kt vt
    have hkeyof := h.keyOf hkt
    rw [firstGreaterAt]
    rcases h.read with ⟨hread, -, -, -⟩ | ⟨keys, kids, hread, -, rfl, hkids, hsep, hf⟩
    · generalize readNode tx hash kt vt = r at hread
      obtain ⟨tx₁, node⟩ := r
      subst hread
      rfl
    · generalize readNode tx hash kt vt = r at hread hreads
      obtain ⟨tx₁, node⟩ := r
      subst hread
      dsimp only
      have hall : ∀ t, t = target ∨ t = none → ∀ kid ∈ kids.drop (startPos keys target), ∀ tx', Reads tx tx' →
          (firstGreaterAt kt vt fuel t kid.1 tx').2 = firstAbove t kid.2 := by
        intro t htarget kid hk tx' hr
        refine ih ((hkids kid (List.mem_of_mem_drop hk)).reads hr) (by omega) fun t' ht' => ?_
        rcases htarget with rfl | rfl
        · exact ht t' ht'
        · cases ht'
      rw [← List.map_drop]
      cases target with
      | none =>
        exact firstOf_eq (firstGreaterAt_reads kt vt fuel) hall (fun _ _ _ _ => rfl) hreads
      | some t =>
        have hkt' : KeyOf kt t := ht t rfl
        have habove : ∀ e ∈ (kids.map Prod.snd).flatten, isAbove (some t) e.1 = decide (rank t < entryRank e) :=
          fun e he => (hkeyof e he).isGT hkt'
        obtain ⟨hbefore, hbehind⟩ := hsep.around (rank t)
        rw [startPos_eq (keyOf_inner hkt hf) hkt'] at hall ⊢
        have hsplit : (kids.map Prod.snd).flatten = ((kids.map Prod.snd).take (place (keys.map rank) (rank t))).flatten ++
            ((kids.map Prod.snd).drop (place (keys.map rank) (rank t))).flatten := by
          rw [← List.flatten_append, List.take_append_drop]
        have hskip : firstAbove (some t) ((kids.map Prod.snd).take (place (keys.map rank) (rank t))).flatten = none := by
          refine List.find?_eq_none.mpr fun e he => ?_
          rw [habove e (by rw [hsplit]; exact List.mem_append_left _ he)]
          simpa using (hbefore e he).le
        have hrest : ∀ kid ∈ (kids.drop (place (keys.map rank) (rank t))).tail, ∀ e ∈ kid.2,
            isAbove (some t) e.1 = true := by
          intro kid hk e he
          rw [List.tail_drop] at hk
          have hmem : e ∈ ((kids.map Prod.snd).drop (place (keys.map rank) (rank t) + 1)).flatten := by
            rw [← List.map_drop]
            exact List.mem_flatten.mpr ⟨kid.2, List.mem_map_of_mem hk, he⟩
          have hall' : e ∈ (kids.map Prod.snd).flatten :=
            List.mem_flatten.mpr ⟨kid.2, List.mem_map_of_mem (List.mem_of_mem_drop hk), he⟩
          rw [habove e hall']
          exact decide_eq_true (hbehind e hmem)
        have happend : ∀ l l' : List (Value × Value),
            firstAbove (some t) (l ++ l') = (firstAbove (some t) l).or (firstAbove (some t) l') :=
          fun l l' => List.find?_append
        rw [firstOf_eq (firstGreaterAt_reads kt vt fuel) hall hrest hreads, List.map_drop, hsplit, happend, hskip,
          Option.none_or]

end Rend.Pbtree
