import Rend.Pbtree.Footprint
import Rend.Pmap.Runs
import Rend.Pvec.Runs
import Rend.Vm.Deferred

/-!
# What the collections read and write

The operations of the persistent collections move the transaction by reads of nodes, or by reads and writes of
nodes. What they read out of a node has been decoded from bytes, so that no handle stands in it.
-/

namespace Rend.Vm

/-- No value that may have been found holds a handle. -/
def FoundSettled (found : Option Value) : Prop := ∀ v, found = some v → handles v = []

theorem foundSettled_none : FoundSettled none := fun v hv => by cases hv

theorem foundSettled_of_find {es : List (Value × Value)} (hes : EntriesSettled es) (p : Value × Value → Bool) :
    FoundSettled ((es.find? p).map Prod.snd) := by
  intro v hv
  obtain ⟨e, he, rfl⟩ := Option.map_eq_some_iff.mp hv
  exact (hes e (List.mem_of_find?_eq_some he)).2

end Rend.Vm

/-! ### Maps -/

namespace Rend.Pmap

open Lib Tx Vm

variable {kt vt : Ty} {tx : Tx} {hash : U128} {es : List (Value × Value)}

theorem readNode_settled (h : (readNode tx hash kt vt).2 = some (.leaf es)) : EntriesSettled es := by
  rw [readNode] at h
  split_ifs at h
  obtain ⟨bs, -, hnode⟩ := Option.bind_eq_some_iff.mp h
  exact handles_of_leaf hnode

theorem getAt_reads (key : Value) (h : U64) (kt vt : Ty) (fuel : ℕ) (hash : U128) (level : ℕ) (tx : Tx) :
    Reads tx (getAt key h kt vt fuel hash level tx).1 ∧ FoundSettled (getAt key h kt vt fuel hash level tx).2 := by
  induction fuel generalizing hash level tx with
  | zero => exact ⟨.refl, foundSettled_none⟩
  | succ fuel ih =>
    have hread := readNode_reads tx hash kt vt
    have hleaf := @readNode_settled kt vt tx hash
    rw [getAt]
    generalize readNode tx hash kt vt = r at hread hleaf
    obtain ⟨tx₁, _ | ⟨bitmap, children⟩ | entries⟩ := r
    · exact ⟨hread, foundSettled_none⟩
    · dsimp only
      split_ifs
      · exact ⟨hread, foundSettled_none⟩
      · exact ⟨hread.trans (ih ..).1, (ih ..).2⟩
    · exact ⟨hread, foundSettled_of_find (hleaf rfl) _⟩

theorem get_reads (root : U128) (key : Value) (tx : Tx) (kt vt : Ty) :
    Reads tx (get root key tx kt vt).1 ∧ FoundSettled (get root key tx kt vt).2 := by
  rw [get]
  split_ifs
  · exact ⟨.refl, foundSettled_none⟩
  · exact getAt_reads ..

theorem collectChildren_reads {collect : U128 → Tx → Tx × List (Value × Value)}
    (hc : ∀ c tx, Reads tx (collect c tx).1 ∧ EntriesSettled (collect c tx).2) (cs : List U128) (tx : Tx) :
    Reads tx (collectChildren collect cs tx).1 ∧ EntriesSettled (collectChildren collect cs tx).2 := by
  induction cs generalizing tx with
  | nil => exact ⟨.refl, fun e he => by cases he⟩
  | cons c cs ih =>
    refine ⟨(hc c tx).1.trans (ih _).1, fun e he => ?_⟩
    exact (List.mem_append.mp he).elim ((hc c tx).2 e) ((ih _).2 e)

theorem entries_reads (root : U128) (tx : Tx) (kt vt : Ty) :
    Reads tx (entries root tx kt vt).1 ∧ EntriesSettled (entries root tx kt vt).2 := by
  have hcollect : ∀ fuel hash tx,
      Reads tx (collectEntries kt vt fuel hash tx).1 ∧ EntriesSettled (collectEntries kt vt fuel hash tx).2 := by
    intro fuel
    induction fuel with
    | zero => exact fun _ _ => ⟨.refl, fun e he => by cases he⟩
    | succ fuel ih =>
      intro hash tx
      have hread := readNode_reads tx hash kt vt
      have hleaf := @readNode_settled kt vt tx hash
      rw [collectEntries]
      generalize readNode tx hash kt vt = r at hread hleaf
      obtain ⟨tx₁, _ | ⟨bitmap, children⟩ | es⟩ := r
      · exact ⟨hread, fun e he => by cases he⟩
      · have hchildren := collectChildren_reads ih children tx₁
        exact ⟨hread.trans hchildren.1, hchildren.2⟩
      · exact ⟨hread, hleaf rfl⟩
  rw [entries]
  split_ifs
  · exact ⟨.refl, fun e he => by cases he⟩
  · exact hcollect ..

end Rend.Pmap

/-! ### Sorted maps -/

namespace Rend.Pbtree

open Lib Tx Vm

variable {kt vt : Ty} {tx : Tx} {hash : U128} {es : List (Value × Value)}

theorem readNode_settled (h : (readNode tx hash kt vt).2 = some (.leaf es)) : EntriesSettled es := by
  rw [readNode] at h
  split_ifs at h
  obtain ⟨bs, -, hnode⟩ := Option.bind_eq_some_iff.mp h
  unfold deserializeNode at hnode
  split_ifs at hnode
  · simp only [Option.bind_eq_bind, Option.bind_eq_some_iff] at hnode
    obtain ⟨n, -, keys, -, children, -, hnode⟩ := hnode
    cases hnode
  · simp only [Option.bind_eq_bind, Option.bind_eq_some_iff] at hnode
    obtain ⟨n, -, entries, hes, hnode⟩ := hnode
    cases hnode
    exact handles_of_readEntries hes

theorem get_reads (fuel : ℕ) (root : U128) (key : Value) (tx : Tx) (kt vt : Ty) :
    Reads tx (get fuel root key tx kt vt).1 ∧ FoundSettled (get fuel root key tx kt vt).2 := by
  have hget : ∀ fuel hash tx,
      Reads tx (getAt key kt vt fuel hash tx).1 ∧ FoundSettled (getAt key kt vt fuel hash tx).2 := by
    intro fuel
    induction fuel with
    | zero => exact fun _ _ => ⟨.refl, foundSettled_none⟩
    | succ fuel ih =>
      intro hash tx
      have hread := readNode_reads tx hash kt vt
      have hleaf := @readNode_settled kt vt tx hash
      rw [getAt]
      generalize readNode tx hash kt vt = r at hread hleaf
      obtain ⟨tx₁, _ | ⟨keys, children⟩ | entries⟩ := r
      · exact ⟨hread, foundSettled_none⟩
      · exact ⟨hread.trans (ih ..).1, (ih ..).2⟩
      · exact ⟨hread, foundSettled_of_find (hleaf rfl) _⟩
  rw [get]
  split_ifs
  · exact ⟨.refl, foundSettled_none⟩
  · exact hget ..

theorem rangeLeaf_settled {lo hi : Value} {out : List Value} (hes : EntriesSettled es)
    (hout : ∀ v ∈ out, handles v = []) :
    ∀ v ∈ rangeLeaf lo hi es out, handles v = [] := by
  induction es generalizing out with
  | nil => exact hout
  | cons e es ih =>
    obtain ⟨k, v⟩ := e
    obtain ⟨⟨-, hv⟩, hrest⟩ := List.forall_mem_cons.mp hes
    rw [rangeLeaf]
    split_ifs
    · exact ih hrest hout
    · exact hout
    · exact ih hrest fun w hw => (List.mem_append.mp hw).elim (hout w) fun hw => by rwa [List.mem_singleton.mp hw]

theorem walkChildren_settled {walk : U128 → List Value → Tx → Tx × List Value}
    (hw : ∀ c out tx, (∀ v ∈ out, handles v = []) → ∀ v ∈ (walk c out tx).2, handles v = []) {cs : List U128}
    {out : List Value} (hout : ∀ v ∈ out, handles v = []) (tx : Tx) :
    ∀ v ∈ (walkChildren walk cs out tx).2, handles v = [] := by
  induction cs generalizing out tx with
  | nil => exact hout
  | cons c cs ih => exact ih (hw c out tx hout) _

theorem range_reads (fuel : ℕ) (root : U128) (lo hi : Value) (tx : Tx) (kt vt : Ty) :
    Reads tx (range fuel root lo hi tx kt vt).1 ∧ ∀ v ∈ (range fuel root lo hi tx kt vt).2, handles v = [] := by
  have hrange : ∀ fuel hash out tx, (∀ v ∈ out, handles v = []) →
      ∀ v ∈ (rangeAt lo hi kt vt fuel hash out tx).2, handles v = [] := by
    intro fuel
    induction fuel with
    | zero => exact fun _ _ _ hout => hout
    | succ fuel ih =>
      intro hash out tx hout
      have hleaf := @readNode_settled kt vt tx hash
      rw [rangeAt]
      generalize readNode tx hash kt vt = r at hleaf
      obtain ⟨tx₁, _ | ⟨keys, children⟩ | entries⟩ := r
      · exact hout
      · exact walkChildren_settled ih hout tx₁
      · exact rangeLeaf_settled (hleaf rfl) hout
  rw [range]
  split_ifs
  · exact ⟨.refl, fun v hv => by cases hv⟩
  · exact ⟨rangeAt_reads .., hrange _ _ _ _ fun v hv => by cases hv⟩

theorem firstOf_settled {ask : Option Value → U128 → Tx → Tx × Option (Value × Value)}
    (ha : ∀ target c tx e, (ask target c tx).2 = some e → handles e.1 = [] ∧ handles e.2 = []) (target : Option Value)
    (cs : List U128) (tx : Tx) {e : Value × Value} (h : (firstOf ask target cs tx).2 = some e) :
    handles e.1 = [] ∧ handles e.2 = [] := by
  induction cs generalizing target tx with
  | nil => cases h
  | cons c cs ih =>
    have hone := ha target c tx
    rw [firstOf] at h
    generalize ask target c tx = r at hone h
    obtain ⟨tx₁, _ | a⟩ := r
    · exact ih _ _ h
    · cases h
      exact hone e rfl

theorem firstGreaterThan_settled {fuel : ℕ} {root : U128} {target : Option Value} {e : Value × Value}
    (h : (firstGreaterThan fuel root target tx kt vt).2 = some e) : handles e.1 = [] ∧ handles e.2 = [] := by
  have hfirst : ∀ fuel target hash tx e, (firstGreaterAt kt vt fuel target hash tx).2 = some e →
      handles e.1 = [] ∧ handles e.2 = [] := by
    intro fuel
    induction fuel with
    | zero => exact fun _ _ _ _ h => by cases h
    | succ fuel ih =>
      intro target hash tx e h
      have hleaf := @readNode_settled kt vt tx hash
      rw [firstGreaterAt] at h
      generalize readNode tx hash kt vt = r at hleaf h
      obtain ⟨tx₁, _ | ⟨keys, children⟩ | entries⟩ := r
      · cases h
      · exact firstOf_settled ih _ _ _ h
      · exact hleaf rfl e (List.mem_of_find?_eq_some h)
  rw [firstGreaterThan] at h
  split_ifs at h
  exact hfirst _ _ _ _ _ h

end Rend.Pbtree

/-! ### Vectors -/

namespace Rend.Pvec

open Lib Tx Vm

variable {elem : Ty} {tx : Tx} {hash : U128} {es : List Value}

theorem readElements_settled {bs : Bytes} {n cursor : ℕ} (h : readElements elem bs n cursor = some es) :
    ∀ v ∈ es, handles v = [] := by
  induction n generalizing cursor es with
  | zero =>
    cases h
    exact fun v hv => by cases hv
  | succ n ih =>
    simp only [readElements, Option.bind_eq_bind, Option.bind_eq_some_iff] at h
    obtain ⟨vl, -, vb, -, v, hv, vs, hvs, heq⟩ := h
    cases heq
    exact List.forall_mem_cons.mpr ⟨handles_deserialize elem hv, ih hvs⟩

theorem readNode_settled (h : (readNode tx hash elem).2 = some (.leaf es)) : ∀ v ∈ es, handles v = [] := by
  rw [readNode] at h
  split_ifs at h
  obtain ⟨bs, -, hnode⟩ := Option.bind_eq_some_iff.mp h
  unfold deserializeNode at hnode
  split_ifs at hnode
  · simp only [Option.bind_eq_bind, Option.bind_eq_some_iff] at hnode
    obtain ⟨n, -, children, -, hnode⟩ := hnode
    cases hnode
  · simp only [Option.bind_eq_bind, Option.bind_eq_some_iff] at hnode
    obtain ⟨n, -, elements, hes, hnode⟩ := hnode
    cases hnode
    exact readElements_settled hes

theorem getNode_reads (level i : ℕ) {below : U128 → Tx → Tx × Option Value}
    (hb : ∀ c tx, Reads tx (below c tx).1 ∧ FoundSettled (below c tx).2) (hash : U128) (tx : Tx) :
    Reads tx (getNode elem level i below hash tx).1 ∧ FoundSettled (getNode elem level i below hash tx).2 := by
  have hread := readNode_reads tx hash elem
  have hleaf := @readNode_settled elem tx hash
  rw [getNode]
  generalize readNode tx hash elem = r at hread hleaf
  obtain ⟨tx₁, _ | children | elements⟩ := r
  · exact ⟨hread, foundSettled_none⟩
  · dsimp only
    split
    · exact ⟨hread, foundSettled_none⟩
    · exact ⟨hread.trans (hb ..).1, (hb ..).2⟩
  · exact ⟨hread, fun v hv => hleaf rfl v (List.mem_of_getElem? hv)⟩

theorem getAt_reads (i level : ℕ) (hash : U128) (tx : Tx) :
    Reads tx (getAt elem i level hash tx).1 ∧ FoundSettled (getAt elem i level hash tx).2 := by
  induction level generalizing hash tx with
  | zero => exact getNode_reads 0 i (fun _ _ => ⟨.refl, foundSettled_none⟩) hash tx
  | succ level ih => exact getNode_reads (level + 1) i ih hash tx

theorem get_reads (root : U128) (len i : ℕ) (tx : Tx) (elem : Ty) :
    Reads tx (get root len i tx elem).1 ∧ ∀ v, (get root len i tx elem).2 = .ok v → handles v = [] := by
  have hget := @getAt_reads elem i (depthFor len) root tx
  rw [get]
  split_ifs
  · exact ⟨.refl, fun v hv => by cases hv⟩
  · generalize getAt elem i (depthFor len) root tx = r at hget
    obtain ⟨tx₁, _ | w⟩ := r
    · exact ⟨hget.1, fun v hv => by cases hv⟩
    · exact ⟨hget.1, fun v hv => by cases hv; exact hget.2 w rfl⟩

/-- A walk that emits no handle. -/
def Collect.Settled (collect : Collect) : Prop :=
  ∀ c want out tx out', (∀ v ∈ out, handles v = []) → (collect c want out tx).2 = .ok out' → ∀ v ∈ out', handles v = []

theorem collectChildren_settled {collect : Collect} (hc : collect.Settled) (cap remaining : ℕ) (cs : List U128)
    (emitted : ℕ) {out out' : List Value} (hout : ∀ v ∈ out, handles v = []) (tx : Tx)
    (h : (collectChildren collect cap remaining cs emitted out tx).2 = .ok out') : ∀ v ∈ out', handles v = [] := by
  induction cs generalizing emitted out tx with
  | nil =>
    cases h
    exact hout
  | cons c cs ih =>
    have hone := hc c (min cap (remaining - emitted)) out tx
    rw [collectChildren] at h
    split_ifs at h
    · cases h
      exact hout
    · dsimp only at h
      generalize collect c (min cap (remaining - emitted)) out tx = r at hone h
      obtain ⟨tx₁, _ | out₁⟩ := r
      · cases h
      · exact ih _ (hone out₁ hout rfl) _ h

theorem collectElements_settled (d : ℕ) : (collectElements elem d).Settled := by
  have hnode : ∀ {below : Collect} (level : ℕ), below.Settled → (collectNode elem level below).Settled := by
    intro below level hb c want out tx out' hout h
    have hleaf := @readNode_settled elem tx c
    rw [collectNode] at h
    generalize readNode tx c elem = r at hleaf h
    obtain ⟨tx₁, _ | children | elements⟩ := r
    · cases h
    · exact collectChildren_settled hb _ _ _ _ hout _ h
    · cases h
      intro v hv
      exact (List.mem_append.mp hv).elim (hout v) fun hv => hleaf rfl v (List.mem_of_mem_take hv)
  induction d with
  | zero => exact hnode 0 fun _ _ _ _ _ _ h => by cases h
  | succ d ih => exact hnode (d + 1) ih

theorem toVec_reads (root : U128) (len : ℕ) (tx : Tx) (elem : Ty) :
    Reads tx (toVec root len tx elem).1 ∧ ∀ vs, (toVec root len tx elem).2 = .ok vs → ∀ v ∈ vs, handles v = [] := by
  rw [toVec]
  split_ifs
  · exact ⟨.refl, fun vs hvs => by cases hvs; exact fun v hv => by cases hv⟩
  · exact ⟨collectElements_reads .., fun vs hvs => collectElements_settled _ _ _ _ _ _ (fun v hv => by cases hv) hvs⟩

theorem set_steps (root : U128) (len i : ℕ) (value : Value) (tx : Tx) (elem : Ty) :
    KeySteps nodeCellKey tx (set root len i value tx elem).1 := by
  have hset := setAt_steps elem i value (depthFor len) root tx
  rw [set]
  split_ifs
  · exact .refl
  · generalize setAt elem i value (depthFor len) root tx = r at hset
    obtain ⟨tx₁, _ | root⟩ := r <;> exact hset

theorem push_steps (root : U128) (len : ℕ) (value : Value) (tx : Tx) (elem : Ty) :
    KeySteps nodeCellKey tx (push root len value tx elem).1 := by
  rw [push]
  split_ifs
  · exact .refl
  · exact (wrapRoot_steps ..).trans (pushAt_steps ..)

end Rend.Pvec
