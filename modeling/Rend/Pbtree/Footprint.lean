import Rend.Pbtree.Runs
import Rend.Structs.Stores

/-!
# The cells a sorted map touches

On a tree whose nodes are shown, an operation of the sorted map reads the cells of nodes that have been
written before, and writes nodes (`OwnSteps`). So where a program gives each cell one type, and node
cells hold bytes, the operations keep to that layout and leave all other cells as they are
(`OwnSteps.changes`).
-/

namespace Rend.Pbtree

open Lib Tx Structs

variable {kt vt : Ty} {n fuel : ℕ} {hash : U128} {es : List (Value × Value)} {tx tx' : Tx}

/-- Reading the cell of a node that has been written, or writing a node. -/
inductive OwnStep : Tx → Tx → Prop
  | read (tx : Tx) {e : Bytes} (he : e ∈ tx.nodeLog) : OwnStep tx (tx.fetch (nodeCellKey e)).1
  | write (tx : Tx) (bs : Bytes) : OwnStep tx (writeNode tx bs).1

abbrev OwnSteps : Tx → Tx → Prop := Relation.ReflTransGen OwnStep

theorem OwnStep.keyStep (h : OwnStep tx tx') : KeyStep nodeCellKey tx tx' := by
  cases h with
  | read he => exact .read (.read ..)
  | write bs => exact .write tx bs

theorem OwnSteps.keySteps (h : OwnSteps tx tx') : KeySteps nodeCellKey tx tx' :=
  h.lift id fun _ _ hstep => OwnStep.keyStep hstep

theorem writeNode_own (tx : Tx) (bs : Bytes) : OwnSteps tx (writeNode tx bs).1 := .single (.write tx bs)

theorem writeLeaf_own (tx : Tx) (entries : List (Value × Value)) : OwnSteps tx (writeLeaf tx entries).1 := by
  rw [writeLeaf]
  split_ifs
  · exact writeNode_own ..
  · exact (writeNode_own ..).trans (writeNode_own ..)

theorem writeInner_own (tx : Tx) (keys : List Value) (children : List U128) :
    OwnSteps tx (writeInner tx keys children).1 := by
  rw [writeInner]
  split_ifs
  · exact writeNode_own ..
  · exact (writeNode_own ..).trans (writeNode_own ..)

theorem dropChild_own (tx : Tx) (keys : List Value) (children : List U128) (pos : ℕ) :
    OwnSteps tx (dropChild tx keys children pos).1 := by
  rw [dropChild]
  dsimp only
  generalize (if pos < keys.length then keys.eraseIdx pos
    else if 0 < pos then keys.eraseIdx (pos - 1) else keys) = newKeys
  split_ifs
  · exact .refl
  · exact .refl
  · exact writeNode_own ..

/-! ### Reading -/

/-- The root of a tree is at the cell of a node that has been written. -/
theorem Held.exists_node (h : Held kt vt tx n hash es) : ∃ e ∈ tx.nodeLog, hash = nodeCellKey e := by
  cases n with
  | zero => exact h.tree.elim
  | succ n =>
    rcases h.tree with ⟨hleaf, -, -⟩ | ⟨keys, kids, hinner, -, -, -, -⟩
    · exact ⟨_, hleaf.mem, hleaf.key⟩
    · exact ⟨_, hinner.mem, hinner.key⟩

theorem Held.readNode_own (h : Held kt vt tx n hash es) : OwnSteps tx (readNode tx hash kt vt).1 := by
  obtain ⟨e, he, rfl⟩ := h.exists_node
  rw [readNode]
  split_ifs
  · exact .refl
  · exact .single (.read tx he)

/-- Asking children one after the other. -/
theorem firstOf_own {α : Type} {ask : Option Value → U128 → Tx → Tx × Option α}
    (hr : ∀ target c tx, Reads tx (ask target c tx).1) {cs : List U128}
    (hcs : ∀ target, ∀ c ∈ cs, ∀ tx', Reads tx tx' → OwnSteps tx' (ask target c tx').1) (target : Option Value)
    (htx : Reads tx tx') : OwnSteps tx' (firstOf ask target cs tx').1 := by
  induction cs generalizing target tx' with
  | nil => exact .refl
  | cons c cs ih =>
    have hreads := hr target c tx'
    have hown := hcs target c List.mem_cons_self tx' htx
    rw [firstOf]
    generalize ask target c tx' = r at hreads hown
    obtain ⟨tx₁, _ | a⟩ := r
    · exact hown.trans (ih (fun t d hd => hcs t d (List.mem_cons_of_mem _ hd)) none (htx.trans hreads))
    · exact hown

theorem firstGreaterAt_own (h : Held kt vt tx n hash es) (target : Option Value) :
    OwnSteps tx (firstGreaterAt kt vt fuel target hash tx).1 := by
  induction fuel generalizing n hash es tx target with
  | zero => exact .refl
  | succ fuel ih =>
    obtain ⟨n, rfl⟩ : ∃ m, n = m + 1 := Nat.exists_eq_succ_of_ne_zero fun hn => by subst hn; exact h.tree.elim
    have hreads := readNode_reads tx hash kt vt
    have hown := h.readNode_own
    rw [firstGreaterAt]
    rcases h.read with ⟨hread, -, -, -⟩ | ⟨keys, kids, hread, -, rfl, hkids, -, -⟩
    all_goals
      generalize readNode tx hash kt vt = r at hread hreads hown
      obtain ⟨tx₁, node⟩ := r
      subst hread
    · exact hown
    · refine hown.trans (firstOf_own (firstGreaterAt_reads kt vt fuel) (fun t c hc tx' hr => ?_) target hreads)
      obtain ⟨kid, hk, rfl⟩ := List.mem_map.mp (List.mem_of_mem_drop hc)
      exact ih ((hkids kid hk).reads hr) t

/-! ### Writing -/

/-- A child is one of the list, or the empty root where there is none. -/
theorem getD_mem_or (kids : List (U128 × List (Value × Value))) (pos : ℕ) :
    (∃ kid ∈ kids, (kids.map Prod.fst).getD pos emptyRoot = kid.1) ∨
      (kids.map Prod.fst).getD pos emptyRoot = emptyRoot := by
  rw [List.getD_eq_getElem?_getD, List.getElem?_map]
  cases hkid : kids[pos]? with
  | none => exact .inr rfl
  | some kid => exact .inl ⟨kid, List.mem_of_getElem? hkid, rfl⟩

theorem readNode_empty (tx : Tx) (kt vt : Ty) : readNode tx emptyRoot kt vt = (tx, none) := rfl

theorem setInner_own (h : Held kt vt tx n hash es) (key value : Value) :
    OwnSteps tx (setInner key value kt vt fuel hash tx).1 := by
  induction fuel generalizing n hash es tx with
  | zero => exact .refl
  | succ fuel ih =>
    obtain ⟨n, rfl⟩ : ∃ m, n = m + 1 := Nat.exists_eq_succ_of_ne_zero fun hn => by subst hn; exact h.tree.elim
    have hreads := readNode_reads tx hash kt vt
    have hown := h.readNode_own
    rw [setInner]
    rcases h.read with ⟨hread, -, -, -⟩ | ⟨keys, kids, hread, -, rfl, hkids, -, -⟩
    all_goals
      generalize readNode tx hash kt vt = r at hread hreads hown
      obtain ⟨tx₁, node⟩ := r
      subst hread
    · exact hown.trans (writeLeaf_own ..)
    · have hchild : OwnSteps tx₁ (setInner key value kt vt fuel
          ((kids.map Prod.fst).getD (descendPos keys key) emptyRoot) tx₁).1 := by
        rcases getD_mem_or kids (descendPos keys key) with ⟨kid, hk, heq⟩ | heq
        · rw [heq]
          exact ih ((hkids kid hk).reads hreads)
        · rw [heq]
          cases fuel with
          | zero => exact .refl
          | succ fuel => exact .refl
      dsimp only
      generalize setInner key value kt vt fuel ((kids.map Prod.fst).getD (descendPos keys key) emptyRoot) tx₁ = r
        at hchild
      obtain ⟨tx₂, _ | _ | _⟩ := r
      · exact hown.trans hchild
      · exact (hown.trans hchild).trans (writeNode_own ..)
      · exact (hown.trans hchild).trans (writeInner_own ..)

theorem removeInner_own (h : Held kt vt tx n hash es) (key : Value) :
    OwnSteps tx (removeInner key kt vt fuel hash tx).1 := by
  induction fuel generalizing n hash es tx with
  | zero => exact .refl
  | succ fuel ih =>
    obtain ⟨n, rfl⟩ : ∃ m, n = m + 1 := Nat.exists_eq_succ_of_ne_zero fun hn => by subst hn; exact h.tree.elim
    have hreads := readNode_reads tx hash kt vt
    have hown := h.readNode_own
    rw [removeInner]
    rcases h.read with ⟨hread, -, -, -⟩ | ⟨keys, kids, hread, -, rfl, hkids, -, -⟩
    all_goals
      generalize readNode tx hash kt vt = r at hread hreads hown
      obtain ⟨tx₁, node⟩ := r
      subst hread
      dsimp only
    · cases searchEntries es key with
      | inr pos => exact hown
      | inl pos =>
        dsimp only
        split_ifs
        · exact hown
        · exact hown.trans (writeNode_own ..)
    · have hchild : OwnSteps tx₁ (removeInner key kt vt fuel
          ((kids.map Prod.fst).getD (descendPos keys key) emptyRoot) tx₁).1 := by
        rcases getD_mem_or kids (descendPos keys key) with ⟨kid, hk, heq⟩ | heq
        · rw [heq]
          exact ih ((hkids kid hk).reads hreads)
        · rw [heq]
          cases fuel with
          | zero => exact .refl
          | succ fuel => exact .refl
      generalize removeInner key kt vt fuel ((kids.map Prod.fst).getD (descendPos keys key) emptyRoot) tx₁ = r
        at hchild
      obtain ⟨tx₂, _ | _ | _ | _⟩ := r
      · exact hown.trans hchild
      · exact hown.trans hchild
      · exact (hown.trans hchild).trans (writeNode_own ..)
      · exact (hown.trans hchild).trans (dropChild_own ..)

/-! ### Calls on a root -/

/-- A call on a root that is empty or that of a tree. -/
theorem step_own (hs : LogShown nodeCellKey tx) (hroot : Rooted kt vt tx.nodeLog n hash es) (op : Pmap.Op) :
    OwnSteps tx (step fuel kt vt (tx, hash) op).1 := by
  by_cases hempty : hash = emptyRoot
  · subst hempty
    cases op with
    | set key value =>
      rw [step, set, if_pos rfl]
      exact writeNode_own tx _
    | remove key => exact .refl
  · have hheld : Held kt vt tx n hash es := ⟨hs, hroot.resolve_left fun h => hempty h.1⟩
    cases op with
    | set key value =>
      have hset := @setInner_own kt vt n fuel hash es tx hheld key value
      rw [step, set, if_neg hempty]
      dsimp only
      generalize setInner key value kt vt fuel hash tx = r at hset
      obtain ⟨tx', _ | _ | _⟩ := r
      · exact hset
      · exact hset
      · dsimp only
        exact hset.trans (writeNode_own ..)
    | remove key =>
      have hremove := @removeInner_own kt vt n fuel hash es tx hheld key
      rw [step, remove, if_neg hempty]
      dsimp only
      generalize removeInner key kt vt fuel hash tx = r at hremove
      obtain ⟨tx', _ | _ | _ | _⟩ := r
      · exact hremove
      · exact hremove
      · exact hremove
      · exact hremove

theorem firstGreaterThan_own (hs : LogShown nodeCellKey tx) (hroot : Rooted kt vt tx.nodeLog n hash es)
    (target : Option Value) : OwnSteps tx (firstGreaterThan fuel hash target tx kt vt).1 := by
  rw [firstGreaterThan]
  rcases hroot with ⟨rfl, -⟩ | htree
  · exact .refl
  · split_ifs
    · exact .refl
    · exact firstGreaterAt_own ⟨hs, htree⟩ target

/-! ### The layout -/

variable {Γ : U128 → Ty} {N : Set U128}

/-- The cells of the nodes written so far. -/
def ownCells (tx : Tx) : Set U128 := {c | ∃ e ∈ tx.nodeLog, nodeCellKey e = c}

/-- The nodes of the sorted map hold bytes, and are apart from those of other collections. -/
def OwnLaid (Γ : U128 → Ty) (N : Set U128) (tx : Tx) : Prop := ∀ c ∈ ownCells tx, Γ c = .bytes ∧ c ∉ N

theorem OwnLaid.of_subset (h : OwnLaid Γ N tx') (hsub : tx.nodeLog ⊆ tx'.nodeLog) : OwnLaid Γ N tx := by
  rintro c ⟨e, he, rfl⟩
  exact h _ ⟨e, hsub he, rfl⟩

theorem changes_writeNode (h : Laid Γ N tx) (hf : tx.Fresh) {bs : Bytes} (hbs : nodeCellKey bs ∉ N) :
    Changes Γ N {nodeCellKey bs} tx (writeNode tx bs).1 := by
  have hc := changes_write h hf hbs (v := .bytes bs) rfl
  exact ⟨⟨hc.laid.cached, hc.laid.pending, hc.laid.walks, hc.laid.nodes, hc.laid.clean⟩, hc.fresh, hc.frame, hc.yields⟩

theorem observes_fetch (h : Laid Γ N tx) (hf : tx.Fresh) (hN : ∀ c ∈ N, Γ c = .bytes) {c : U128} (hc : Γ c = .bytes) :
    Observes Γ N tx (tx.fetch c).1 := by
  have hread := (readCell_yields h hf c).1
  rw [hc] at hread
  exact hread.trans (observes_force hread.laid hread.fresh hN _)

/-- **The operations keep to the layout.** -/
theorem OwnSteps.changes (hN : ∀ c ∈ N, Γ c = .bytes) (h : OwnSteps tx tx') (hl : Laid Γ N tx) (hf : tx.Fresh)
    (hown : OwnLaid Γ N tx') : Changes Γ N (ownCells tx') tx tx' := by
  induction h with
  | refl => exact (Observes.refl hl hf).changes _
  | @tail tx₁ tx₂ _ hstep ih =>
    have hsub := (OwnStep.keyStep hstep)
    have hlog : tx₁.nodeLog ⊆ tx₂.nodeLog := KeySteps.log_subset (.single hsub)
    have hbefore := (ih (hown.of_subset hlog)).mono fun c hc => (show c ∈ ownCells tx₂ by
      obtain ⟨e, he, rfl⟩ := hc
      exact ⟨e, hlog he, rfl⟩)
    have hlast : Changes Γ N (ownCells tx₂) tx₁ tx₂ := by
      cases hstep with
      | read he =>
        refine (observes_fetch hbefore.laid hbefore.fresh hN ?_).changes _
        exact (hown _ ⟨_, hlog he, rfl⟩).1
      | write bs =>
        have hmem : nodeCellKey bs ∈ ownCells (writeNode tx₁ bs).1 := by
          refine ⟨bs, ?_, rfl⟩
          rw [writeNode_nodeLog]
          exact List.mem_append_right _ List.mem_cons_self
        refine (changes_writeNode hbefore.laid hbefore.fresh (hown _ hmem).2).mono ?_
        rintro c rfl
        exact hmem
    exact (hbefore.trans hlast).mono (Set.union_self _).le

end Rend.Pbtree
