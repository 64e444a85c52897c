import Rend.Pmap.Runs

/-!
# Maps in the store

`Stored` says that a root of the store is the root of a well-levelled trie all of whose nodes are in the
store; `lookupIn` is what a fresh transaction over the store answers for it. `storeCells` adds node
cells to a store, as a commit does with the nodes a transaction has written, and `Storable` is what
the cells must meet for this: their hashes do not collide.

`calls_stored` shows that calls made in a transaction over a store, starting from a stored root and with keys told
apart, lead to the root of the trie they make (`Trie.applyAll`), and that it is stored once the transaction's nodes
are.
-/

namespace Rend.Pmap

open Lib Tx

/-- The node bytes a cell of the store holds. -/
def nodeAt (kv : Kv) (c : U128) : Option Bytes :=
  ((kv c).bind (deserialize .bytes)).bind asBytes

theorem length_of_getRange {bs w : Bytes} {i j : ℕ} (h : getRange bs i j = some w) : w.length = j - i := by
  unfold getRange at h
  split_ifs at h with hij
  cases h
  simp only [List.length_drop, List.length_take]
  omega

theorem lenAt_lt {bs : Bytes} {i n : ℕ} (h : lenAt bs i = some n) : n < 2 ^ 32 := by
  obtain ⟨w, hw, rfl⟩ := Option.map_eq_some_iff.1 h
  have hlt := ofBeBytes_lt w
  have hlen := length_of_getRange hw
  rwa [hlen, show i + 4 - i = 4 by omega] at hlt

/-- A stored node fits a cell. -/
theorem nodeAt_length {kv : Kv} {c : U128} {bs : Bytes} (h : nodeAt kv c = some bs) : bs.length < 2 ^ 32 := by
  obtain ⟨v, hv, hbs⟩ := Option.bind_eq_some_iff.1 h
  obtain ⟨raw, -, hdes⟩ := Option.bind_eq_some_iff.1 hv
  obtain ⟨b, hb, rfl⟩ := Option.map_eq_some_iff.1 hdes
  cases hbs
  obtain ⟨rest, -, hrest⟩ := Option.bind_eq_some_iff.1 hb
  obtain ⟨n, hn, hrange⟩ := Option.bind_eq_some_iff.1 hrest
  have hlt := lenAt_lt hn
  have hlen := length_of_getRange hrange
  omega

/-- Node cells on their way to the store, oldest first. -/
abbrev NewCells := List (U128 × Bytes)

variable {kt vt : Ty} {K : Set Value}

/-! ### Adding node cells to a store -/

/-- The store with new node cells added. -/
def storeCells (kv : Kv) (cells : NewCells) : Kv :=
  cells.foldl (fun kv c => Function.update kv c.1 (some (serialize (.bytes c.2)))) kv

/-- New cells that can be added to a store: their keys are not the empty root, they fit a cell, and
no two nodes, new or stored, share a key. -/
structure Storable (kv : Kv) (cells : NewCells) : Prop where
  ne_empty : ∀ c ∈ cells, c.1 ≠ emptyRoot
  small : ∀ c ∈ cells, c.2.length < 2 ^ 32
  inj : ∀ c ∈ cells, ∀ c' ∈ cells, c.1 = c'.1 → c.2 = c'.2
  fresh : ∀ c ∈ cells, ∀ bs, nodeAt kv c.1 = some bs → bs = c.2

theorem Storable.mono {kv : Kv} {cells cells' : NewCells} (h : Storable kv cells')
    (hsub : ∀ c ∈ cells, c ∈ cells') : Storable kv cells :=
  ⟨fun c hc => h.ne_empty c (hsub c hc), fun c hc => h.small c (hsub c hc),
    fun c hc c' hc' => h.inj c (hsub c hc) c' (hsub c' hc'), fun c hc => h.fresh c (hsub c hc)⟩

theorem storeCells_of_not_mem {kv : Kv} {cells : NewCells} {k : U128} (h : k ∉ cells.map Prod.fst) :
    storeCells kv cells k = kv k := by
  induction cells generalizing kv with
  | nil => rfl
  | cons c cells ih =>
    rw [List.map_cons, List.mem_cons, not_or] at h
    rw [storeCells, List.foldl_cons, ← storeCells, ih h.2, Function.update_of_ne h.1]

theorem storeCells_mem {kv : Kv} {cells : NewCells} {k : U128} (h : k ∈ cells.map Prod.fst) :
    ∃ bs, (k, bs) ∈ cells ∧ storeCells kv cells k = some (serialize (.bytes bs)) := by
  induction cells generalizing kv with
  | nil => simp at h
  | cons c cells ih =>
    rw [storeCells, List.foldl_cons, ← storeCells]
    by_cases hk : k ∈ cells.map Prod.fst
    · obtain ⟨bs, hbs, hget⟩ := @ih (Function.update kv c.1 (some (serialize (.bytes c.2)))) hk
      exact ⟨bs, List.mem_cons_of_mem _ hbs, hget⟩
    · rw [List.map_cons, List.mem_cons, or_iff_left hk] at h
      refine ⟨c.2, by rw [h]; exact List.mem_cons_self, ?_⟩
      rw [storeCells_of_not_mem hk, h, Function.update_self]

theorem Storable.nodeAt_new {kv : Kv} {cells : NewCells} (h : Storable kv cells) {c : U128 × Bytes}
    (hc : c ∈ cells) : nodeAt (storeCells kv cells) c.1 = some c.2 := by
  obtain ⟨bs, hbs, hget⟩ := @storeCells_mem kv cells c.1 (List.mem_map_of_mem hc)
  have heq : bs = c.2 := h.inj _ hbs _ hc rfl
  rw [nodeAt, hget, Option.bind_some, deserialize_serialize_bytes (h.small _ hbs), Option.bind_some,
    asBytes, heq]

theorem Storable.nodeAt_old {kv : Kv} {cells : NewCells} (h : Storable kv cells) {k : U128}
    {bs : Bytes} (hk : nodeAt kv k = some bs) : nodeAt (storeCells kv cells) k = some bs := by
  by_cases hmem : k ∈ cells.map Prod.fst
  · obtain ⟨c, hc, rfl⟩ := List.mem_map.1 hmem
    rw [h.nodeAt_new hc, h.fresh c hc bs hk]
  · rw [nodeAt, storeCells_of_not_mem hmem]
    exact hk

/-- Adding further cells keeps what the first ones have brought. -/
theorem Storable.nodeAt_append {kv : Kv} {cells cells' : NewCells} (h : Storable kv (cells ++ cells'))
    {k : U128} {bs : Bytes} (hk : nodeAt (storeCells kv cells) k = some bs) :
    nodeAt (storeCells kv (cells ++ cells')) k = some bs := by
  have hleft : ∀ c ∈ cells, c ∈ cells ++ cells' := fun c hc => List.mem_append_left _ hc
  by_cases hmem : k ∈ cells.map Prod.fst
  · obtain ⟨c, hc, rfl⟩ := List.mem_map.1 hmem
    rw [(h.mono hleft).nodeAt_new hc] at hk
    rw [h.nodeAt_new (hleft c hc), hk]
  · rw [nodeAt, storeCells_of_not_mem hmem] at hk
    exact h.nodeAt_old hk

theorem Storable.held {kv : Kv} {cells : NewCells} (h : Storable kv cells) {T : Trie}
    (hT : T.Held (nodeAt kv)) : T.Held (nodeAt (storeCells kv cells)) :=
  fun e he => ⟨(hT e he).1, h.nodeAt_old (hT e he).2⟩

/-- A transaction over a store shows the nodes of the store. -/
theorem shows_new {kv : Kv} {c : U128} {bs : Bytes} (h : nodeAt kv c = some bs) :
    (Tx.new kv).shows c = some bs := by
  obtain ⟨v, hv, hbs⟩ := Option.bind_eq_some_iff.1 h
  obtain ⟨raw, hraw, hdes⟩ := Option.bind_eq_some_iff.1 hv
  have hsettles : (Tx.new kv).Settles c := by simp [Settles, Fresh, Tx.handles, Tx.new]
  have hvalue : (Tx.new kv).storeValue c .bytes = v := by
    simp [Tx.new, storeValue, parentLookup, parentLookupIn, observed, hraw, hdes]
  rw [shows, show (Tx.new kv).writes.lookup c = none from rfl]
  simp only [if_pos hsettles, hvalue, hbs]

theorem Trie.Held.new {kv : Kv} {T : Trie} (h : T.Held (nodeAt kv)) : T.Held (Tx.new kv).shows :=
  fun e he => ⟨(h e he).1, shows_new (h e he).2⟩

/-- A root of the store, with the trie below it: all nodes are stored and read back at these types,
and each key sits below the slots of its hash. -/
structure Stored (kv : Kv) (kt vt : Ty) (root : U128) (T : Trie) : Prop where
  root_eq : root = T.hash
  held : T.Held (nodeAt kv)
  fits : T.Fits kt vt
  wf : T.WF slotOf 13 0

/-- What a fresh transaction over the store answers. -/
def lookupIn (kv : Kv) (kt vt : Ty) (root : U128) (key : Value) : Option Value :=
  (get root key (Tx.new kv) kt vt).2

theorem Stored.lookupIn_eq {kv : Kv} {root : U128} {T : Trie} (h : Stored kv kt vt root T)
    (key : Value) : lookupIn kv kt vt root key = T.find kt vt key 0 := by
  obtain ⟨tx', hget, -⟩ := get_eq key h.held.new h.fits (Trie.shallow_of_wf h.wf)
  rw [lookupIn, h.root_eq, hget]

theorem Stored.lookupIn_told {kv : Kv} {root : U128} {T : Trie} (h : Stored kv kt vt root T) (hK : Told K)
    (hT : T.KeysIn kt K) {key : Value} (hkey : key ∈ K) : lookupIn kv kt vt root key = T.answer kt vt 0 key := by
  rw [h.lookupIn_eq, Trie.find_eq hK hkey h.fits hT]

/-! ### Calls in a transaction over a store -/

/-- The node is in the store. -/
def OnDisk (kv : Kv) (e : Bytes) : Prop :=
  nodeCellKey e ≠ emptyRoot ∧ nodeAt kv (nodeCellKey e) = some e

/-- The transaction shows every node of the store and every node it has written. -/
def Backed (kv : Kv) (tx : Tx) : Prop :=
  ∀ e, OnDisk kv e ∨ e ∈ tx.nodeLog → tx.shows (nodeCellKey e) = some e

/-- A root that a transaction over a store can use: the trie below it is well-levelled, and its nodes
are in the store or among those written so far. -/
structure Live (kv : Kv) (log : List Bytes) (kt vt : Ty) (root : U128) (T : Trie) : Prop where
  root_eq : root = T.hash
  wf : T.WF slotOf 13 0
  fits : T.Fits kt vt
  kept : ∀ e ∈ T.encs, OnDisk kv e ∨ e ∈ log

theorem Stored.live {kv : Kv} {root : U128} {T : Trie} (h : Stored kv kt vt root T) (log : List Bytes) :
    Live kv log kt vt root T :=
  ⟨h.root_eq, h.wf, h.fits, fun e he => .inl (h.held e he)⟩

theorem backed_new (kv : Kv) : Backed kv (Tx.new kv) := by
  rintro e (he | he)
  · exact shows_new he.2
  · cases he

/-- The nodes in sight: those of the store and of the log. -/
def InSight (kv : Kv) (log : List Bytes) : Set Bytes := {e | OnDisk kv e ∨ e ∈ log}

theorem Backed.steps {kv : Kv} {tx tx' : Tx} (h : Backed kv tx)
    (hS : NodeSet (InSight kv tx'.nodeLog)) (hsteps : Steps tx tx') : Backed kv tx' := by
  have hlog : ∀ e ∈ tx'.nodeLog, e ∈ InSight kv tx'.nodeLog := fun e he => .inr he
  rintro e (he | he)
  · exact hsteps.shows hS hlog (.inl he) (h e (.inl he))
  · exact hsteps.log_shows hS hlog (fun e he => h e (.inr he)) he

theorem Live.held {kv : Kv} {tx : Tx} {root : U128} {T : Trie} (h : Live kv tx.nodeLog kt vt root T)
    (hb : Backed kv tx) (hS : NodeSet (InSight kv tx.nodeLog)) : Trie.Held tx.shows T :=
  fun e he => ⟨hS.ne_empty e (h.kept e he), hb e (h.kept e he)⟩

theorem Live.mono {kv : Kv} {log log' : List Bytes} {root : U128} {T : Trie}
    (h : Live kv log kt vt root T) (hlog : log ⊆ log') : Live kv log' kt vt root T :=
  { h with kept := fun e he => (h.kept e he).imp_right (hlog ·) }

/-- What a call makes of the trie. -/
noncomputable def Trie.apply (T : Trie) : Op → Trie
  | .set key value => T.insert slotOf maxLevels 0 (serialize key) (serialize value)
  | .remove key => (T.erase slotOf 0 (serialize key)).1

noncomputable def Trie.applyAll (T : Trie) (ops : List Op) : Trie := ops.foldl Trie.apply T

theorem inSight_mono {kv : Kv} {log log' : List Bytes} (h : log ⊆ log') :
    InSight kv log ⊆ InSight kv log' :=
  fun _ he => he.imp_right (h ·)

/-- One call leads to the trie it makes. -/
theorem Live.step {kv : Kv} {tx : Tx} {root : U128} {T : Trie} (h : Live kv tx.nodeLog kt vt root T)
    (hb : Backed kv tx) (hK : Told K) (hT : T.KeysIn kt K) {op : Op} (hkey : op.key ∈ K)
    (hl : LandsWell kt vt (tx, root) op)
    (hS : NodeSet (InSight kv (step kt vt (tx, root) op).1.nodeLog)) :
    Live kv (step kt vt (tx, root) op).1.nodeLog kt vt (step kt vt (tx, root) op).2 (T.apply op) ∧
      Steps tx (step kt vt (tx, root) op).1 ∧ Trie.KeysIn kt K (T.apply op) := by
  have hheld := h.held hb (hS.mono (inSight_mono (step_nodeLog (tx, root) op)))
  have hsh := Trie.shallow_of_wf h.wf
  have hkept : ∀ {tx' : Tx} {T' : Trie}, Steps tx tx' → (∀ e ∈ T'.encs, e ∈ T.encs ∨ e ∈ tx'.nodeLog) →
      ∀ e ∈ T'.encs, OnDisk kv e ∨ e ∈ tx'.nodeLog := by
    intro tx' T' hsteps hlog e he
    rcases hlog e he with he | he
    · exact (h.kept e he).imp_right (hsteps.log_subset ·)
    · exact .inr he
  obtain rfl := h.root_eq
  cases op with
  | set key value =>
    obtain ⟨hk, hv, htakes⟩ := hl
    change key ∈ K at hkey
    obtain ⟨hlands, hfits⟩ := lands_of_takes hK hkey hk hv hheld h.fits hT hsh (by simp [depth]) (by omega) htakes
    obtain ⟨tx', hset, hsteps, hlog⟩ := set_eq key value hheld h.fits hsh
    rw [Trie.put_eq hK hkey hk.1 h.wf h.fits hT] at hset hlog hfits
    simp only [Pmap.step, hset]
    exact ⟨⟨rfl, h.wf.insert (by simp [maxLevels]) hlands, hfits, hkept hsteps.steps hlog⟩, hsteps.steps,
      hT.insert h.wf hkey hk.1 _⟩
  | remove key =>
    have hz : ∀ e ∈ (remove T.hash key tx kt vt).1.nodeLog, nodeCellKey e ≠ emptyRoot :=
      fun e he => hS.ne_empty e (.inr he)
    change key ∈ K at hkey
    have hfits := h.fits.drop key 0
    obtain ⟨tx', hrem, hsteps, hlog⟩ := remove_eq key hheld h.fits hsh hz
    rw [Trie.drop_eq hK hkey hl.1 h.wf h.fits hT] at hrem hlog hfits
    simp only [Pmap.step, hrem]
    exact ⟨⟨rfl, h.wf.erase _, hfits, hkept hsteps.steps hlog⟩, hsteps.steps, hT.erase h.wf _⟩

/-- A run of calls leads to the trie they make. -/
theorem Live.run {kv : Kv} {tx : Tx} {root : U128} {T : Trie} (h : Live kv tx.nodeLog kt vt root T)
    (hb : Backed kv tx) (hK : Told K) (hT : T.KeysIn kt K) {ops : List Op} (hkeys : ∀ op ∈ ops, op.key ∈ K)
    (hl : AllLandWell kt vt (tx, root) ops)
    (hS : NodeSet (InSight kv (run kt vt (tx, root) ops).1.nodeLog)) :
    Live kv (run kt vt (tx, root) ops).1.nodeLog kt vt (run kt vt (tx, root) ops).2 (T.applyAll ops) ∧
      Steps tx (run kt vt (tx, root) ops).1 ∧ Trie.KeysIn kt K (T.applyAll ops) := by
  induction ops generalizing tx root T with
  | nil => exact ⟨h, .refl, hT⟩
  | cons op ops ih =>
    have hsub : (Pmap.step kt vt (tx, root) op).1.nodeLog ⊆
        (Pmap.run kt vt (tx, root) (op :: ops)).1.nodeLog := by
      have := @run_nodeLog kt vt (tx, root) [op] ops
      simpa [Pmap.run] using this
    have hS₁ := hS.mono (inSight_mono hsub)
    obtain ⟨hlive, hsteps, hT₁⟩ := h.step hb hK hT (hkeys op List.mem_cons_self) hl.1 hS₁
    obtain ⟨hlive', hsteps', hT'⟩ := ih hlive (hb.steps hS₁ hsteps) hT₁
      (fun o ho => hkeys o (List.mem_cons_of_mem _ ho)) hl.2 hS
    exact ⟨hlive', hsteps.trans hsteps', hT'⟩

/-- The nodes a transaction has written, as cells for the store. -/
def logCells (log : List Bytes) : NewCells := log.map fun e => (nodeCellKey e, e)

theorem Storable.nodeSet {kv : Kv} {log : List Bytes} (h : Storable kv (logCells log)) :
    NodeSet (InSight kv log) := by
  have hmem : ∀ {e}, e ∈ log → (nodeCellKey e, e) ∈ logCells log := fun he => List.mem_map_of_mem he
  constructor
  · rintro e (he | he) e' (he' | he') hkey
    · exact Option.some.inj (he.2.symm.trans (hkey ▸ he'.2))
    · exact h.fresh _ (hmem he') e (hkey ▸ he.2)
    · exact (h.fresh _ (hmem he) e' (hkey ▸ he'.2)).symm
    · exact h.inj _ (hmem he) _ (hmem he') hkey
  · rintro e (he | he)
    · exact he.1
    · exact h.ne_empty _ (hmem he)

/-- A live root is stored once the log is. -/
theorem Live.stored {kv : Kv} {log : List Bytes} {root : U128} {T : Trie}
    (h : Live kv log kt vt root T) {cells : NewCells} (hst : Storable kv cells)
    (hlog : ∀ c ∈ logCells log, c ∈ cells) : Stored (storeCells kv cells) kt vt root T := by
  refine ⟨h.root_eq, fun e he => ?_, h.fits, h.wf⟩
  rcases h.kept e he with he | he
  · exact ⟨he.1, hst.nodeAt_old he.2⟩
  · have hc := hlog _ (List.mem_map_of_mem he)
    exact ⟨hst.ne_empty _ hc, hst.nodeAt_new hc⟩

/-- **Calls over a store** lead to the root of the trie they make, stored with the nodes written. -/
theorem calls_stored {kv : Kv} {root : U128} {T : Trie} (h : Stored kv kt vt root T) (hK : Told K)
    (hT : T.KeysIn kt K) {ops : List Op} (hkeys : ∀ op ∈ ops, op.key ∈ K)
    (hl : AllLandWell kt vt (Tx.new kv, root) ops) {cells : NewCells} (hst : Storable kv cells)
    (hlog : ∀ c ∈ logCells (run kt vt (Tx.new kv, root) ops).1.nodeLog, c ∈ cells) :
    Stored (storeCells kv cells) kt vt (run kt vt (Tx.new kv, root) ops).2 (T.applyAll ops) ∧
      Trie.KeysIn kt K (T.applyAll ops) := by
  have hS : NodeSet (InSight kv (run kt vt (Tx.new kv, root) ops).1.nodeLog) :=
    (hst.mono hlog).nodeSet
  obtain ⟨hlive, -, hT'⟩ := (h.live []).run (backed_new kv) hK hT hkeys hl hS
  exact ⟨hlive.stored hst hlog, hT'⟩

/-! ### Two transactions from one root -/

/-- A store with a base root and two roots made from it. -/
structure Fork where
  kv : Kv
  base : U128
  a : U128
  b : U128

/-- Two transactions over one store, each with its own calls on the base root, and both committed. -/
def fork (kt vt : Ty) (kv : Kv) (base : U128) (opsA opsB : List Op) : Fork :=
  let ra := run kt vt (Tx.new kv, base) opsA
  let rb := run kt vt (Tx.new kv, base) opsB
  ⟨storeCells kv (logCells (ra.1.nodeLog ++ rb.1.nodeLog)), base, ra.2, rb.2⟩

/-- The node cells both transactions have written. -/
def forkCells (kt vt : Ty) (kv : Kv) (base : U128) (opsA opsB : List Op) : NewCells :=
  logCells ((run kt vt (Tx.new kv, base) opsA).1.nodeLog ++ (run kt vt (Tx.new kv, base) opsB).1.nodeLog)

/-- The three roots of a fork are stored, with keys that are told apart. -/
structure ForkStored (K : Set Value) (kt vt : Ty) (kv : Kv) (base : U128) (C : Trie) (opsA opsB : List Op) :
    Prop where
  a : Stored (fork kt vt kv base opsA opsB).kv kt vt (fork kt vt kv base opsA opsB).a (C.applyAll opsA)
  b : Stored (fork kt vt kv base opsA opsB).kv kt vt (fork kt vt kv base opsA opsB).b (C.applyAll opsB)
  base : Stored (fork kt vt kv base opsA opsB).kv kt vt (fork kt vt kv base opsA opsB).base C
  keysA : Trie.KeysIn kt K (C.applyAll opsA)
  keysB : Trie.KeysIn kt K (C.applyAll opsB)

theorem fork_stored {kv : Kv} {base : U128} {C : Trie} (h : Stored kv kt vt base C) (hK : Told K)
    (hT : C.KeysIn kt K) {opsA opsB : List Op} (hkeysA : ∀ op ∈ opsA, op.key ∈ K) (hkeysB : ∀ op ∈ opsB, op.key ∈ K)
    (hA : AllLandWell kt vt (Tx.new kv, base) opsA) (hB : AllLandWell kt vt (Tx.new kv, base) opsB)
    (hst : Storable kv (forkCells kt vt kv base opsA opsB)) : ForkStored K kt vt kv base C opsA opsB := by
  have hsub : ∀ {log log' l : List Bytes}, l = log ∨ l = log' → ∀ c ∈ logCells l, c ∈ logCells (log ++ log') := by
    rintro log log' l hl c hc
    rw [logCells, List.map_append, List.mem_append]
    rcases hl with rfl | rfl
    · exact .inl hc
    · exact .inr hc
  obtain ⟨hsA, htA⟩ := calls_stored h hK hT hkeysA hA hst (hsub (.inl rfl))
  obtain ⟨hsB, htB⟩ := calls_stored h hK hT hkeysB hB hst (hsub (.inr rfl))
  exact ⟨hsA, hsB, ⟨h.root_eq, hst.held h.held, h.fits, h.wf⟩, htA, htB⟩

/-- Cells told apart by evaluation. -/
theorem storable_of_list {kv : Kv} {cells : NewCells}
    (h : (∀ c ∈ cells, c.1 ≠ emptyRoot ∧ c.2.length < 2 ^ 32) ∧
      (∀ c ∈ cells, ∀ c' ∈ cells, c.1 = c'.1 → c.2 = c'.2) ∧
      ∀ c ∈ cells, nodeAt kv c.1 = none ∨ nodeAt kv c.1 = some c.2) : Storable kv cells := by
  refine ⟨fun c hc => (h.1 c hc).1, fun c hc => (h.1 c hc).2, h.2.1, fun c hc bs hbs => ?_⟩
  rcases h.2.2 c hc with hn | hs
  · rw [hn] at hbs
    cases hbs
  · exact Option.some.inj (hbs.symm.trans hs)

theorem keysIn_empty (K : Set Value) : Trie.KeysIn kt K .empty := by simp [Trie.KeysIn]

theorem stored_empty (kv : Kv) : Stored kv kt vt emptyRoot .empty :=
  ⟨rfl, Trie.held_empty _, trivial, trivial⟩

end Rend.Pmap
