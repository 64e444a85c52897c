import Rend.Pmap.Levels
import Rend.Vm.Forcing

/-!
# Batched lookups

In lazy mode a lookup in a persistent map is begun and then walks down one level with each round of
`force`, together with all others in flight (`begin_pmap_get`, `advance_walks`). The walk decodes nodes
and picks slots by itself, takes node bytes from three sources, and gives up below level `maxLevels`
where `pmap::get` would go on.

A lookup is on course when it stands in a map that insertions and removals have built. One round moves
it to where the direct lookup would look next, or ends it with what that finds (`advancePmapWalk_finds`);
so it is on course for this (`treeCourse`), through any sequence of reads, forced values and further lookups
(`lookups_agree`).
-/

namespace Rend.Vm

open Lib Pmap Tx

variable {K : Set Bytes} {view : U128 → Option Bytes} {tx : Tx}

/-! ### One step of one lookup -/

/-- What a lookup in flight would find by going straight down. -/
def finds (view : U128 → Option Bytes) (w : PWalk) : Value :=
  (lookup view w.key w.keyHash w.keyTy w.valTy (maxLevels + 1) w.cell w.level).getD (Value.defaultFor w.valTy)

/-- The lookup stands at a node of a map whose inner nodes keep to the first levels. -/
def OnCourse (K : Set Bytes) (w : PWalk) : Prop := ∃ n, n + w.level = maxLevels ∧ Within K n w.cell

/-- **One step of a lookup**: it ends with what it would find, or goes on to where it would look. -/
theorem advancePmapWalk_finds (hview : ∀ e ∈ K, view (nodeCellKey e) = some e) {w : PWalk} (hw : OnCourse K w)
    {bs : Option Bytes} (hbs : ∀ e ∈ K, w.cell = nodeCellKey e → bs = some e) :
    advancePmapWalk w bs = .done (finds view w) ∨
      ∃ w', advancePmapWalk w bs = .continue w' ∧ OnCourse K w' ∧ finds view w' = finds view w := by
  obtain ⟨n, hlevel, hwithin⟩ := hw
  obtain ⟨e, he, hcell, hkids⟩ := hwithin.node
  rw [hbs e he hcell, advancePmapWalk, Option.bind_some, finds, lookup, hcell, hview e he, Option.bind_some]
  rcases hnode : deserializeNode w.keyTy w.valTy e with _ | ⟨bm, cs⟩ | es
  · exact .inl rfl
  · obtain ⟨m, rfl, hkid⟩ := hkids _ _ bm cs hnode
    dsimp only
    -- an inner node stands above the cut-off
    rw [if_neg (by omega)]
    split_ifs with hslot
    · exact .inl rfl
    · have hchild := hkid _ (child_mem hnode hslot)
      refine .inr ⟨_, rfl, ⟨m, by dsimp only; omega, hchild⟩, ?_⟩
      unfold finds
      rw [lookup_fuel w.key w.keyHash w.keyTy w.valTy hview hchild (show m < maxLevels + 1 by omega)
        (show m < maxLevels by omega)]
  · exact .inl rfl

/-! ### One round -/

/-- A lookup that comes to the cell reads this node there. -/
def Offers (tx : Tx) (c : U128) (e : Bytes) : Prop :=
  tx.writes.lookup c = some (.bytes e) ∨
    (tx.writes.lookup c = none ∧ tx.storeValue c .bytes = .bytes e ∧ ∀ v ∈ tx.reads.lookup c, v = .bytes e)

theorem offers_of_shows {c : U128} {e : Bytes} (h : tx.shows c = some e) : Offers tx c e := by
  rcases shows_eq_some_iff.mp h with hw | ⟨hw, ⟨-, hr, -⟩, hv⟩
  · exact .inl hw
  · exact .inr ⟨hw, hv, fun v hmem => by rw [hr v hmem, hv]⟩

theorem fetchNode_of_offers {c : U128} {e : Bytes} (h : Offers tx c e) : (tx.fetchNode c).2 = some e := by
  unfold fetchNode
  rcases h with hw | ⟨hw, hv, hr⟩
  · rw [hw]
    rfl
  · rw [hw]
    cases hread : tx.reads.lookup c with
    | some v =>
      rw [hr v hread]
      rfl
    | none =>
      dsimp only
      rw [← storeValue_bytes, hv]
      rfl

/-- Moving a lookup changes nothing that another one reads. -/
theorem Offers.advanceWalk {c : U128} {e : Bytes} (h : Offers tx c e) (w : PWalk) :
    Offers (tx.advanceWalk w) c e := by
  obtain ⟨resolved, walks, hadv, -, -⟩ := tx.advanceWalk_eq w
  rw [hadv]
  rcases tx.fetchNode_fst w.cell with hf | ⟨-, hf⟩
  · rw [hf]
    exact h
  · rw [hf]
    refine h.imp id fun ⟨hw, hv, hr⟩ => ⟨hw, hv, fun v hmem => ?_⟩
    by_cases hc : c = w.cell
    · subst hc
      simp only [AList.lookup_insert, Option.mem_def, Option.some.injEq] at hmem
      rw [← hmem, hv]
    · simp only [AList.lookup_insert_ne hc] at hmem
      exact hr v hmem

theorem shown_drained {tx' : Tx} (hshown : Shown K tx) (h : Drained tx tx') : Shown K tx' :=
  fun e he => h.shows (hshown e he)

/-- A lookup in a map that has been built of these nodes is on course for what it would find. -/
def treeCourse (hview : ∀ e ∈ K, view (nodeCellKey e) = some e) : Course where
  To w v := OnCourse K w ∧ finds view w = v
  Sees tx := ∀ e ∈ K, Offers tx (nodeCellKey e) e
  Holds tx := Shown K tx
  step := by
    rintro tx w v hoffers ⟨hcourse, rfl⟩
    have hbs : ∀ e ∈ K, w.cell = nodeCellKey e → (tx.fetchNode w.cell).2 = some e := fun e he hc =>
      fetchNode_of_offers (hc ▸ hoffers e he)
    exact advancePmapWalk_finds hview hcourse hbs
  sees_advanceWalk hoffers w e he := (hoffers e he).advanceWalk w
  sees hshown e he := by
    have hoffers := offers_of_shows (shown_drained hshown (drained_flushPending _) e he)
    exact hoffers
  holds_drainRound hshown := shown_drained hshown (drained_drainRound _)

/-! ### Lookups among reads and forced values -/

/-- The arguments of a lookup. -/
structure Request where
  root : U128
  key : Value
  kt : Ty
  vt : Ty

/-- What the direct lookup answers. -/
def direct (tx : Tx) (r : Request) : Value :=
  (Pmap.get r.root r.key tx r.kt r.vt).2.getD (Value.defaultFor r.vt)

/-- What a program can ask of a transaction while lookups are in flight. -/
inductive Ask
  | lookup (r : Request)
  | force (v : Value)
  | read (c : U128) (ty : Ty)

/-- One of these, with the answer that a lookup gives at once: a handle, or a default. -/
def Ask.run (tx : Tx) : Ask → Tx × List (Request × Value)
  | .lookup r => ((tx.beginPmapGet r.root r.key r.kt r.vt).1, [(r, (tx.beginPmapGet r.root r.key r.kt r.vt).2)])
  | .force v => ((tx.force v).1, [])
  | .read c ty => ((tx.readCell c ty).1, [])

def askAll : Tx → List Ask → Tx × List (Request × Value)
  | tx, [] => (tx, [])
  | tx, a :: asks => ((askAll (a.run tx).1 asks).1, (a.run tx).2 ++ (askAll (a.run tx).1 asks).2)

/-- Lookups are in maps that have been built of these nodes, and typed reads are not of node cells. -/
def Ask.Fine (K : Set Bytes) : Ask → Prop
  | .lookup r => Built K r.root
  | .force _ => True
  | .read c ty => ∀ e ∈ K, c = nodeCellKey e → ty = .bytes

/-- The answer is the value, or a handle that is on course for it. -/
def AnswersWith (C : Course) (tx : Tx) (a v : Value) : Prop :=
  (a = v ∧ handles v = []) ∨ ∃ i, a = .pending i ∧ i < tx.nextHandle ∧ Awaits C [] tx i v

section Run

variable {C : Course} {a v : Value}

theorem AnswersWith.substituteResolved (hf : tx.Fresh) (hholds : C.Holds tx) (h : AnswersWith C tx a v) :
    Rend.substituteResolved (tx.drain (maxLevels + 2)).resolved a = v := by
  rcases h with ⟨rfl, hnone⟩ | ⟨i, rfl, -, hawaits⟩
  · have hpending := containsPending_of_handles a hnone
    exact substituteResolved_of_not_pending a hpending
  · rw [Rend.substituteResolved, hawaits.resolved hf hholds, Option.getD_some]

theorem AnswersWith.force (hf : tx.Fresh) (hholds : C.Holds tx) (h : AnswersWith C tx a v) : (tx.force a).2 = v := by
  by_cases hp : containsPending a = true
  · rw [Tx.force, if_pos hp]
    exact h.substituteResolved hf hholds
  · rw [Tx.force, if_neg hp]
    rcases h with ⟨rfl, -⟩ | ⟨i, rfl, -⟩
    · rfl
    · exact absurd rfl hp

/-- What happens while lookups are in flight leaves them on course. -/
theorem AnswersWith.run (hf : tx.Fresh) (hholds : C.Holds tx) (h : AnswersWith C tx a v) (ask : Ask) :
    AnswersWith C (ask.run tx).1 a v := by
  rcases h with hvalue | ⟨i, ha, hi, hawaits⟩
  · exact .inl hvalue
  · refine .inr ⟨i, ha, ?_⟩
    cases ask with
    | lookup r =>
      rw [Ask.run]
      by_cases hroot : r.root = emptyRoot
      · rw [Tx.beginPmapGet, if_pos hroot]
        exact ⟨hi, hawaits⟩
      · refine ⟨?_, hawaits.issue hi (tx.beginPmapGet_handles hroot _ _ _) ?_ ?_⟩
        all_goals rw [Tx.beginPmapGet, if_neg hroot]
        · exact Nat.lt_succ_of_lt hi
        · exact List.subset_append_left _ _
    | force w => exact ⟨by rw [Ask.run, (drained_force tx w).nextHandle_eq]; exact hi, hawaits.force hf hholds w⟩
    | read c ty =>
      rw [Ask.run]
      rcases tx.readCell_cases c ty with ⟨he, -⟩ | ⟨-, he, -⟩ | ⟨-, he⟩ | ⟨-, he⟩
      · rw [he]
        exact ⟨hi, hawaits⟩
      · rw [he]
        exact ⟨hi, hawaits⟩
      · rw [he]
        exact ⟨hi, hawaits⟩
      · rw [he]
        exact ⟨Nat.lt_succ_of_lt hi, hawaits.issue hi (tx.queue_handles c ty) rfl (List.Subset.refl _)⟩

theorem Ask.run_fresh (hf : tx.Fresh) (ask : Ask) : (ask.run tx).1.Fresh := by
  cases ask with
  | lookup r => exact hf.beginPmapGet _ _ _ _
  | force w => exact (drained_force tx w).fresh hf
  | read c ty =>
    rw [Ask.run]
    rcases tx.readCell_cases c ty with ⟨he, -⟩ | ⟨-, he, -⟩ | ⟨-, he⟩ | ⟨-, he⟩
    · rw [he]
      exact hf
    · rw [he]
      exact hf
    · rw [he]
      exact hf
    · rw [he]
      exact hf.queue c ty

/-- A typed read of another cell leaves the nodes shown. -/
theorem shown_readCell (hshown : Shown K tx) {c : U128} {ty : Ty} (hc : ∀ e ∈ K, c = nodeCellKey e → ty = .bytes) :
    Shown K (tx.readCell c ty).1 := by
  rcases tx.readCell_cases c ty with ⟨he, -⟩ | ⟨-, he, -⟩ | ⟨-, he⟩ | ⟨-, he⟩
  · rw [he]
    exact hshown
  · rw [he]
    exact hshown
  · rw [he]
    refine fun e hmem => shows_insert_read (hshown e hmem) fun heq => ?_
    rw [hc e hmem heq.symm]
  · rw [he]
    exact fun e hmem => shows_queue (hshown e hmem) fun heq => hc e hmem heq.symm

/-- What happens while lookups are in flight also leaves the nodes shown. -/
theorem Ask.run_shown (hshown : Shown K tx) {ask : Ask}
    (hask : ∀ c ty, ask = .read c ty → ∀ e ∈ K, c = nodeCellKey e → ty = .bytes) : Shown K (ask.run tx).1 := by
  cases ask with
  | lookup r => exact fun e he => shows_beginPmapGet (hshown e he) _ _ _ _
  | force w => exact shown_drained hshown (drained_force tx w)
  | read c ty => exact shown_readCell hshown (hask c ty rfl)

theorem Ask.Fine.read {ask : Ask} (h : ask.Fine K) (c : U128) (ty : Ty) (hask : ask = .read c ty) :
    ∀ e ∈ K, c = nodeCellKey e → ty = .bytes := by
  subst hask
  exact h

/-- **A lookup that begins is on course for what the direct one answers.** -/
theorem answersWith_begin (hroots : ∀ e ∈ K, nodeCellKey e ≠ emptyRoot)
    (hview : ∀ e ∈ K, view (nodeCellKey e) = some e) {tx₀ : Tx} (hshown₀ : Shown K tx₀) {r : Request}
    (hr : Built K r.root) :
    AnswersWith (treeCourse hview) (tx.beginPmapGet r.root r.key r.kt r.vt).1
      (tx.beginPmapGet r.root r.key r.kt r.vt).2 (direct tx₀ r) := by
  by_cases hroot : r.root = emptyRoot
  · rw [Tx.beginPmapGet, if_pos hroot, direct, Pmap.get, if_pos hroot]
    exact .inl ⟨rfl, handles_defaultFor r.vt⟩
  · have hwithin := (hr.within hroots).resolve_left hroot
    rw [Tx.beginPmapGet, if_neg hroot]
    refine .inr ⟨tx.nextHandle, rfl, Nat.lt_succ_self _, .inr
      ⟨⟨tx.nextHandle, r.key, hashKey r.key, r.kt, r.vt, 0, r.root⟩, ?_, rfl, ⟨maxLevels, rfl, hwithin⟩, ?_⟩⟩
    · exact List.mem_append_right tx.pendingWalks (List.mem_singleton.mpr rfl)
    · rw [direct, Pmap.get, if_neg hroot, getAt_eq_lookup _ _ _ _ hshown₀ hroots hview hwithin]
      unfold finds
      rw [lookup_fuel _ _ _ _ hview hwithin (show maxLevels < maxLevels + 1 by decide)
        (show maxLevels < depth by decide)]

/-- Every answer of a run is on course. -/
theorem askAll_answersWith (hroots : ∀ e ∈ K, nodeCellKey e ≠ emptyRoot)
    (hview : ∀ e ∈ K, view (nodeCellKey e) = some e) {tx₀ : Tx} (hshown₀ : Shown K tx₀) {asks : List Ask}
    (hf : tx.Fresh) (hshown : Shown K tx) (hasks : ∀ a ∈ asks, a.Fine K) :
    (askAll tx asks).1.Fresh ∧ Shown K (askAll tx asks).1 ∧
      (∀ p ∈ (askAll tx asks).2, AnswersWith (treeCourse hview) (askAll tx asks).1 p.2 (direct tx₀ p.1)) ∧
      ∀ a v, AnswersWith (treeCourse hview) tx a v → AnswersWith (treeCourse hview) (askAll tx asks).1 a v := by
  induction asks generalizing tx with
  | nil =>
    refine ⟨hf, hshown, fun p hp => ?_, fun _ _ h => h⟩
    cases hp
  | cons ask asks ih =>
    have hf' := Ask.run_fresh hf ask
    have hshown' := Ask.run_shown hshown (hasks ask List.mem_cons_self).read
    obtain ⟨hfresh, hend, hrest, hkept⟩ := ih hf' hshown' fun a ha => hasks a (List.mem_cons_of_mem _ ha)
    refine ⟨hfresh, hend, fun p hp => ?_, fun a v h => hkept a v (h.run hf hshown ask)⟩
    rcases List.mem_append.mp hp with hp | hp
    · refine hkept _ _ ?_
      cases ask with
      | lookup r =>
        obtain rfl := List.mem_singleton.mp hp
        exact answersWith_begin hroots hview hshown₀ (hasks _ List.mem_cons_self)
      | force w => cases hp
      | read c ty => cases hp
    · exact hrest p hp

/-- The answers of a run forced together. -/
theorem force_array (hf : tx.Fresh) (hholds : C.Holds tx) {f : Request → Value} {answers : List (Request × Value)}
    (h : ∀ p ∈ answers, AnswersWith C tx p.2 (f p.1)) :
    (tx.force (.array (answers.map Prod.snd))).2 = .array (answers.map fun p => f p.1) := by
  have hsubst : substituteResolvedList (tx.drain (maxLevels + 2)).resolved (answers.map Prod.snd) =
      answers.map fun p => f p.1 := by
    induction answers with
    | nil => rfl
    | cons p answers ih =>
      rw [List.map_cons, List.map_cons, substituteResolvedList,
        (h p List.mem_cons_self).substituteResolved hf hholds,
        ih fun q hq => h q (List.mem_cons_of_mem _ hq)]
  by_cases hp : containsPending (.array (answers.map Prod.snd)) = true
  · rw [Tx.force, if_pos hp]
    dsimp only
    rw [Rend.substituteResolved, hsubst]
  · rw [Tx.force, if_neg hp]
    dsimp only
    congr 1
    refine List.map_congr_left fun p hmem => ?_
    rcases h p hmem with ⟨hvalue, -⟩ | ⟨i, hi, -⟩
    · exact hvalue
    · -- a handle among the answers would have been seen
      refine absurd ?_ hp
      have hcontains : ∀ {vs : List Value}, Value.pending i ∈ vs → containsPendingList vs = true := by
        intro vs hvs
        induction vs with
        | nil => cases hvs
        | cons w vs ih =>
          rw [containsPendingList, Bool.or_eq_true]
          rcases List.mem_cons.mp hvs with rfl | hvs
          · exact .inl rfl
          · exact .inr (ih hvs)
      exact hcontains (List.mem_map.mpr ⟨p, hmem, hi⟩)

end Run

/-- **Lazy lookups answer as direct ones.** However lookups, reads and forced values follow one another,
each lookup is answered as the direct one would have been, whether the answers are forced one by one or
together, and the loop of `force` ends. -/
theorem lookups_agree (hroots : ∀ e ∈ K, nodeCellKey e ≠ emptyRoot) (hf : tx.Fresh) (hshown : Shown K tx)
    {asks : List Ask} (hasks : ∀ a ∈ asks, a.Fine K) :
    (∀ p ∈ (askAll tx asks).2, ((askAll tx asks).1.force p.2).2 = direct tx p.1) ∧
      ((askAll tx asks).1.force (.array ((askAll tx asks).2.map Prod.snd))).2 =
        .array ((askAll tx asks).2.map fun p => direct tx p.1) ∧
      ((askAll tx asks).1.drain (maxLevels + 2)).handles = [] := by
  obtain ⟨hfresh, hend, hanswers, -⟩ := askAll_answersWith hroots hshown hshown hf hshown hasks
  exact ⟨fun p hp => (hanswers p hp).force hfresh hend, force_array hfresh hend hanswers, drain_handles _⟩

/-- A root of a transaction that shows all its nodes, and the one an insertion makes of it. -/
theorem built_set {root : U128} (h : Built (logged tx) root) (hshown : Shown (logged tx) tx) (key value : Value)
    (kt vt : Ty) : Built (logged (Pmap.set root key value tx kt vt).1) (Pmap.set root key value tx kt vt).2 :=
  (h.set tx hshown key value kt vt).mono
    (Set.union_subset (set_steps root key value tx kt vt).log_subset (Set.Subset.refl _))

/-- A map of three entries, whose root is an inner node: what each insertion has logged and the root it gives. -/
def entry : ℕ → Tx × U128
  | 0 => (Tx.new fun _ => none, emptyRoot)
  | n + 1 => Pmap.set (entry n).2 (.int (n + 1)) (.int (10 * (n + 1))) (entry n).1 .int .int

/-- A lazy transaction over the store that holds the nodes of the map. -/
def overThree : Tx :=
  (Tx.new fun c => ((entry 3).1.nodeLog.find? fun e => nodeCellKey e = c).map fun e => serialize (.bytes e)).setLazy true

/-- The lookup of a key in the map. -/
def lookupThree (key : ℤ) : Ask := .lookup ⟨(entry 3).2, .int key, .int, .int⟩

/-- Two lookups forced together, and then a third one and one of a key that is not there. -/
def fourLookups : List Ask :=
  [lookupThree 1, lookupThree 2, .force (.array [.pending 0, .pending 1]), lookupThree 3, lookupThree 9,
    .force (.pending 2)]

theorem built_entry (n : ℕ) (hshown : ∀ m < n, Shown (logged (entry m).1) (entry m).1) :
    Built (logged (entry n).1) (entry n).2 := by
  induction n with
  | zero => exact .empty _
  | succ n ih => exact built_set (ih fun m hm => hshown m (by omega)) (hshown n (by omega)) _ _ .int .int

theorem lookups_agree_threeEntries :
    (∀ p ∈ (askAll overThree fourLookups).2, ((askAll overThree fourLookups).1.force p.2).2 = direct overThree p.1) ∧
      ((askAll overThree fourLookups).1.force (.array ((askAll overThree fourLookups).2.map Prod.snd))).2 =
        .array ((askAll overThree fourLookups).2.map fun p => direct overThree p.1) ∧
      ((askAll overThree fourLookups).1.drain (maxLevels + 2)).handles = [] := by
  have hnodes : (∀ e ∈ (entry 3).1.nodeLog, nodeCellKey e ≠ emptyRoot) ∧
      ∀ e ∈ (entry 3).1.nodeLog, overThree.shows (nodeCellKey e) = some e := by decide +kernel
  have hshown : ∀ m < 3, ∀ e ∈ (entry m).1.nodeLog, (entry m).1.shows (nodeCellKey e) = some e := by decide +kernel
  have hbuilt : Built (logged (entry 3).1) (entry 3).2 := built_entry 3 hshown
  have hlookup : ∀ key, (lookupThree key).Fine (logged (entry 3).1) := by
    intro key
    simpa only [lookupThree, Ask.Fine] using hbuilt
  refine lookups_agree (K := logged (entry 3).1) hnodes.1 (by decide +kernel) hnodes.2 ?_
  intro a ha
  simp only [fourLookups, List.mem_cons, List.not_mem_nil, or_false] at ha
  rcases ha with rfl | rfl | rfl | rfl | rfl | rfl
  · exact hlookup 1
  · exact hlookup 2
  · trivial
  · exact hlookup 3
  · exact hlookup 9
  · trivial

end Rend.Vm
