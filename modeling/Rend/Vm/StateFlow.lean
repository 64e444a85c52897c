import Rend.Vm.DataFlow
import Rend.Vm.Frames

/-!
# The instructions on state are flows

An operation on a collection reads and writes nodes, which hold no handles, and what a cursor yields stands in
the cursor or in a node. So the instructions on state are flows as well, and with them the whole kernel
(`dataKernel_byFlow`). `program_stored` and `program_known` say what follows for the programs of the machine.
-/

namespace Rend.Vm

open Lib Tx

/-! ### Operations on the transaction -/

section Flows

variable {tx tx' : Tx} {held : List Value} {v : Value}

/-- What an operation answers need not be held. -/
theorem flow_op (o : TxOp) (hops : ∀ v ∈ o.operands, v ∈ held) : Flow True (tx, held) (o.run tx, held) :=
  ((Flow.refl _).op o hops).overwrite (List.subset_append_right ..)

theorem flow_fetch (tx : Tx) (c : U128) : Flow True (tx, held) ((tx.fetch c).1, held) := by
  have hread : Flow True (tx, held) ((tx.readCell c .bytes).1, (tx.readCell c .bytes).2 :: held) :=
    (Flow.refl _).op (.readCell c .bytes) (List.forall_mem_nil _)
  have hforce := hread.op (.force (tx.readCell c .bytes).2) (List.forall_mem_singleton.mpr List.mem_cons_self)
  exact hforce.overwrite fun w hw => List.mem_append_right _ (List.mem_cons_of_mem _ hw)

theorem flow_reads (h : Reads tx tx') : Flow True (tx, held) (tx', held) := by
  induction h with
  | refl => exact .refl _
  | tail _ hstep ih =>
    cases hstep with
    | read c => exact ih.trans (flow_fetch _ c)

theorem flow_keySteps {key : Bytes → U128} (h : KeySteps key tx tx') : Flow True (tx, held) (tx', held) := by
  induction h with
  | refl => exact .refl _
  | tail _ hstep ih =>
    cases hstep with
    | read hread => exact ih.trans (flow_reads (.single hread))
    | write bs => exact ih.trans (flow_op (.putNode key bs) (List.forall_mem_nil _))

theorem flow_write (tx : Tx) (c : U128) (h : Covers held [v]) : Flow True (tx, held) (tx.write c v, held) := by
  have hheld : Flow True (tx, held) (tx, v :: held) := (Flow.refl _).build v (covers_one.mp h)
  have hwrite := hheld.trans (flow_op (.write c v) (List.forall_mem_singleton.mpr List.mem_cons_self))
  exact hwrite.overwrite (List.subset_cons_self _ _)

theorem covers_fieldOrDefault {actual : List (String × Value)} (h : Covers held (actual.map Prod.snd))
    (fname : String) (fty : Ty) : Covers held [fieldOrDefault actual fname fty] := by
  unfold fieldOrDefault
  cases hv : actual.lookup fname with
  | none => exact covers_settled (handles_defaultFor fty)
  | some v =>
    obtain ⟨l₁, l₂, rfl, -⟩ := List.lookup_eq_some_iff.mp hv
    exact h.trans (covers_mem (by simp))

theorem covers_buildGroupBlob {actual : List (String × Value)} (h : Covers held (actual.map Prod.snd))
    (parent : String) (declared : List (String × Ty)) (groups : List (Option String)) (group : String) :
    Covers held [(buildGroupBlob parent declared groups actual group).2] := by
  refine covers_struct _ fun w hw => ?_
  obtain ⟨e, he, rfl⟩ := List.mem_map.mp hw
  obtain ⟨d, -, rfl⟩ := List.mem_map.mp he
  exact covers_fieldOrDefault h d.1 d.2 _ List.mem_cons_self

mutual

/-- A typed write stores the parts of a value that is held. -/
theorem flow_writeTyped (tx : Tx) (key : U128) (ty : Ty) {v : Value} {held : List Value} (h : Covers held [v]) :
    Flow True (tx, held) (tx.writeTyped key ty v, held) := by
  have hforce : Flow True (tx, held) ((tx.force v).1, (tx.force v).2 :: held) := by
    have hheld : Flow True (tx, held) (tx, v :: held) := (Flow.refl _).build v (covers_one.mp h)
    have hforced := hheld.op (.force v) (List.forall_mem_singleton.mpr List.mem_cons_self)
    exact hforced.overwrite (List.cons_subset_cons _ (List.subset_cons_self _ _))
  have hplain : Flow True (tx, held) ((tx.force v).1.write key (tx.force v).2, held) :=
    (hforce.trans (flow_write _ key (covers_mem List.mem_cons_self))).overwrite (List.subset_cons_self _ _)
  cases ty with
  | explicitLiteral inner => exact flow_writeTyped tx key inner h
  | struct name fields groups =>
    unfold writeTyped
    dsimp only
    split
    · next name' actual hv =>
      rw [hv] at hforce
      have hactual : Covers (.struct name' actual :: held) (actual.map Prod.snd) :=
        (covers_fieldValues name').mono (List.cons_subset_cons _ (List.nil_subset _))
      have hfields := flow_writeFields (tx.force v).1 key hactual
        (covers_buildGroupBlob hactual name fields groups) fields groups []
      exact (hforce.trans hfields).overwrite (List.subset_cons_self _ _)
    · exact hplain
  | _ => exact hplain

theorem flow_writeFields (tx : Tx) (key : U128) {blob : String → Value} {actual : List (String × Value)}
    {held : List Value} (hactual : Covers held (actual.map Prod.snd)) (hblob : ∀ g, Covers held [blob g])
    (fields : List (String × Ty)) (groups : List (Option String)) (emitted : List String) :
    Flow True (tx, held) (tx.writeFields key blob actual fields groups emitted, held) := by
  cases fields with
  | nil => exact .refl _
  | cons f fields =>
    obtain ⟨fname, fty⟩ := f
    have hrest := fun (t : Tx) (emitted : List String) =>
      flow_writeFields t key hactual hblob fields groups.tail emitted
    unfold writeFields
    split
    · exact (flow_writeTyped tx _ fty (covers_fieldOrDefault hactual fname fty)).trans (hrest _ _)
    · next g _ =>
      split_ifs
      · exact hrest tx _
      · exact (flow_write tx _ (hblob g)).trans (hrest _ _)

end

end Flows

namespace Data

variable {α : Type} {held : List Value} {v : Value}

/-- A call of a collection, whose answers hold nothing. -/
theorem sound_call {g : Tx → Tx × α} (h : ∀ tx held, Flow True (tx, held) ((g tx).1, held)) :
    Sound held (ask g) fun _ => held :=
  sound_ask fun tx regs => h tx (held ++ regs)

/-- A call of a collection with what is known of its answer. -/
theorem sound_callThen {β : Type} {g : Tx → Tx × α} {k : α → DataM β} {Q : β → List Value}
    (h : ∀ tx held, Flow True (tx, held) ((g tx).1, held)) (hk : ∀ tx, Sound held (k (g tx).2) Q) :
    Sound held (ask g >>= k) Q := by
  intro tx regs b tx' regs' hrun
  obtain ⟨a, ⟨tx₁, regs₁⟩, hask, hrest⟩ := bind_ok hrun
  cases hask
  obtain ⟨hlen, hflow⟩ := hk tx hrest
  exact ⟨hlen, (h tx (held ++ regs)).trans hflow⟩

theorem sound_onTx {g : Tx → Tx} (h : ∀ tx held, Flow True (tx, held) (g tx, held)) :
    Sound held (onTx g) fun _ => held :=
  sound_call h

theorem sound_write {c : U128} (h : Covers held [v]) : Sound held (onTx fun tx => tx.write c v) fun _ => held :=
  sound_ask fun tx _ => flow_write tx c (h.mono (List.subset_append_left ..))

theorem sound_writeTyped {c : U128} {ty : Ty} (h : Covers held [v]) :
    Sound held (onTx fun tx => tx.writeTyped c ty v) fun _ => held :=
  sound_ask fun tx _ => flow_writeTyped tx c ty (h.mono (List.subset_append_left ..))

theorem sound_readState (c : U128) (ty : Ty) : Sound held (ask fun tx => tx.readState c ty) fun w => w :: held :=
  sound_op (G := fun w => [w]) (fun _ => .readState c ty) (fun _ => List.forall_mem_nil _) fun _ => ⟨rfl, rfl⟩

theorem sound_readTypedMany (ops : List (U128 × Ty)) :
    Sound held (ask fun tx => tx.readTypedMany ops) fun ws => ws ++ held :=
  sound_op (G := fun ws => ws) (fun _ => .readTypedMany ops) (fun _ => List.forall_mem_nil _)
    fun _ => ⟨rfl, rfl⟩

/-! ### Cells -/

section Cells

variable (X : Outside) (m : BcModule) (f : BcFn)

theorem carried_kvGet (dst : Reg) (keyIdx : ℕ) : Carried (kvGet m dst keyIdx) := by
  refine sound_orPanic fun s _ => (sound_readState s.1 s.2).bind fun v => ?_
  exact sound_store (covers_mem List.mem_cons_self)

theorem carried_kvPut (src : Reg) (keyIdx : ℕ) : Carried (kvPut m src keyIdx) := by
  refine sound_orPanic fun s _ => (sound_peek src).bind fun v => ?_
  exact (sound_writeTyped (covers_mem List.mem_cons_self)).last

theorem carried_kvGetPath (dst : Reg) (pathIdx : ℕ) : Carried (kvGetPath m dst pathIdx) := by
  refine sound_orPanic fun spec _ => Sound.bind (M := fun v => [v]) ?_ fun v =>
    sound_store (covers_mem List.mem_cons_self)
  split_ifs
  · exact sound_readCell ..
  · exact sound_readState ..

theorem carried_kvPutPath (src : Reg) (pathIdx : ℕ) : Carried (kvPutPath m src pathIdx) := by
  refine sound_orPanic fun spec _ => (sound_peek src).bind fun v => ?_
  split_ifs
  · exact (sound_write (covers_mem List.mem_cons_self)).last
  · exact (sound_writeTyped (covers_mem List.mem_cons_self)).last

theorem carried_readBatch (groupIdx : ℕ) : Carried (readBatch m f groupIdx) := by
  refine sound_orPanic fun group _ => sound_orPanic fun ops _ => (sound_readTypedMany ops).bind fun values => ?_
  refine (sound_foldlM (G := fun _ => values ++ []) (fun p hp _ => sound_put (covers_mem ?_)) ()).last
  exact List.mem_append_left _ (List.of_mem_zip hp).2

theorem handles_ids (prev n : U64) : ∀ v ∈ (idsAfter prev n).map Value.u64, handles v = [] := by
  intro v hv
  obtain ⟨i, -, rfl⟩ := List.mem_map.mp hv
  rfl

theorem carried_reserve (dst : Reg) (stateIdx : ℕ) (countReg : Reg) : Carried (reserve X m dst stateIdx countReg) := by
  refine (sound_forceReg countReg).bind fun countV => ?_
  split
  · exact sound_fail _
  · next n _ =>
    refine sound_orPanic fun root _ => (sound_readTypedMany _).bind fun prevV => ?_
    split
    · next prev _ =>
      refine (sound_writeTyped (covers_settled rfl)).bind fun _ => sound_store (covers_list rfl ?_)
      exact covers_settledList (handles_ids prev n)
    · exact sound_fail _

/-! ### Maps of cells -/

theorem sound_composeMapCell (root : U128) (key : Value) : Sound held (composeMapCell X root key) fun _ => held := by
  unfold composeMapCell
  split_ifs
  · exact sound_pure (.of_subset (List.Subset.refl _))
  · exact sound_fail _

theorem carried_prefetchMap (arrReg : Reg) (stateIdx : ℕ) : Carried (prefetchMap m arrReg stateIdx) := by
  refine (sound_forceReg arrReg).bind fun arr => ?_
  split
  · refine sound_orPanic fun s _ => ?_
    split
    · exact (sound_onTx fun tx held => flow_op (.readTypedMany _) (List.forall_mem_nil _)).last
    · exact sound_done
  · exact sound_done

theorem carried_mapGet (dst : Reg) (stateIdx : ℕ) (keyReg : Reg) : Carried (mapGet X m dst stateIdx keyReg) := by
  refine sound_orPanic fun s _ => (sound_forceReg keyReg).bind fun key => ?_
  refine (sound_composeMapCell X s.1 key).bind fun cell => (sound_readCell _ _).bind fun v => ?_
  exact sound_store (covers_mem List.mem_cons_self)

theorem carried_mapPut (stateIdx : ℕ) (keyReg src : Reg) : Carried (mapPut X m stateIdx keyReg src) := by
  refine sound_orPanic fun s _ => (sound_forceReg keyReg).bind fun key => ?_
  refine (sound_composeMapCell X s.1 key).bind fun cell => (sound_peek src).bind fun v => ?_
  exact (sound_write (covers_mem List.mem_cons_self)).last

end Cells

/-! ### Persistent maps -/

namespace MapKind

variable (M : MapKind) (X : Outside) (m : BcModule)

theorem sound_loadRoot (s : MapState) : Sound held (M.loadRoot s) fun _ => held := by
  refine (sound_readCell s.cell s.ty).bind fun u => (sound_force List.mem_cons_self).bind fun v => sound_pure ?_
  exact .of_subset fun w hw => List.mem_cons_of_mem _ (List.mem_cons_of_mem _ hw)

variable {β : Type} {Q : β → List Value}

/-- What a lookup finds holds no handle. -/
theorem sound_lookup {k : Option Value → DataM β} (s : MapState) (root : U128) (key : Value)
    (hk : ∀ found, FoundSettled found → Sound held (k found) Q) : Sound held (M.lookup s root key >>= k) Q :=
  sound_callThen (fun _ _ => flow_reads (M.get_reads ..).1) fun _ => hk _ (M.get_reads ..).2

theorem carried_store (s : MapState) (newRoot : Except String U128) : Sound held (M.store s newRoot) fun _ => [] :=
  sound_orRuntime fun root _ => (sound_write (covers_settled (M.handles_ofRoot root))).last

theorem carried_insert (s : MapState) (root : U128) (key value : Value) :
    Sound held (M.insert s root key value) fun _ => [] :=
  (sound_call fun _ _ => flow_keySteps (M.set_steps ..)).bind fun _ => M.carried_store s _

theorem carried_erase (s : MapState) (root : U128) (key : Value) : Sound held (M.erase s root key) fun _ => [] :=
  (sound_call fun _ _ => flow_keySteps (M.remove_steps ..)).bind fun _ => M.carried_store s _

theorem carried_putAt (stateIdx : ℕ) (keyReg src : Reg) : Carried (M.putAt m stateIdx keyReg src) := by
  refine (sound_forceReg keyReg).bind fun key => (sound_forceReg src).bind fun value => sound_orPanic fun s _ => ?_
  exact (M.sound_loadRoot s).bind fun root => M.carried_insert s root key value

theorem carried_contains (dst : Reg) (stateIdx : ℕ) (keyReg : Reg) :
    Carried (M.contains m dst stateIdx keyReg) := by
  refine (sound_forceReg keyReg).bind fun key => sound_orPanic fun s _ => (M.sound_loadRoot s).bind fun root => ?_
  exact M.sound_lookup s root key fun found _ => sound_storeSettled rfl

theorem carried_delete (stateIdx : ℕ) (keyReg : Reg) : Carried (M.delete m stateIdx keyReg) := by
  refine (sound_forceReg keyReg).bind fun key => sound_orPanic fun s _ => (M.sound_loadRoot s).bind fun root => ?_
  exact M.carried_erase s root key

theorem carried_putUnique (stateIdx : ℕ) (keyReg src : Reg) : Carried (M.putUnique X m stateIdx keyReg src) := by
  refine (sound_forceReg keyReg).bind fun key => (sound_forceReg src).bind fun value => sound_orPanic fun s _ => ?_
  refine (M.sound_loadRoot s).bind fun root => M.sound_lookup s root key fun found _ => ?_
  split
  · split_ifs
    · exact sound_done
    · exact sound_fail _
  · exact M.carried_insert s root key value

theorem carried_appendUnique (stateIdx : ℕ) (keyReg elemReg : Reg) :
    Carried (M.appendUnique m stateIdx keyReg elemReg) := by
  refine (sound_forceReg keyReg).bind fun key => (sound_forceReg elemReg).bind fun elem => sound_orPanic fun s _ => ?_
  refine (M.sound_loadRoot s).bind fun root => M.sound_lookup s root key fun found _ => ?_
  dsimp only
  split_ifs
  · exact sound_done
  · exact M.carried_insert s root key _

theorem carried_removeUnique (stateIdx : ℕ) (keyReg expectedReg : Reg) :
    Carried (M.removeUnique m stateIdx keyReg expectedReg) := by
  refine (sound_forceReg keyReg).bind fun key => (sound_forceReg expectedReg).bind fun expected => ?_
  refine sound_orPanic fun s _ => (M.sound_loadRoot s).bind fun root => M.sound_lookup s root key fun found _ => ?_
  split
  · split_ifs
    · exact M.carried_erase s root key
    · exact sound_done
  · exact sound_done

theorem carried_removeFromList (stateIdx : ℕ) (keyReg elemReg : Reg) :
    Carried (M.removeFromList m stateIdx keyReg elemReg) := by
  refine (sound_forceReg keyReg).bind fun key => (sound_forceReg elemReg).bind fun elem => sound_orPanic fun s _ => ?_
  refine (M.sound_loadRoot s).bind fun root => M.sound_lookup s root key fun found _ => ?_
  split
  · dsimp only
    split_ifs
    · exact sound_done
    · exact M.carried_erase s root key
    · exact M.carried_insert s root key _
  · exact sound_done

end MapKind

section Collections

variable (X : Outside) (m : BcModule) (bound : ℕ)

theorem sound_recordTypes (stateIdx : ℕ) : Sound held (recordTypes m stateIdx) fun _ => held :=
  sound_orPanic fun s _ => sound_onTx fun _ _ =>
    flow_op (.recordPmapTypes s.cell s.keyTy s.valueTy) (List.forall_mem_nil _)

theorem carried_pmapPut (stateIdx : ℕ) (keyReg src : Reg) : Carried (pmapPut m stateIdx keyReg src) :=
  (sound_recordTypes m stateIdx).bind fun _ => pmapKind.carried_putAt m stateIdx keyReg src

theorem carried_pmapGet (dst : Reg) (stateIdx : ℕ) (keyReg : Reg) : Carried (pmapGet m dst stateIdx keyReg) := by
  refine (sound_recordTypes m stateIdx).bind fun _ => (sound_forceReg keyReg).bind fun key => ?_
  refine sound_orPanic fun s _ => (pmapKind.sound_loadRoot s).bind fun root => ?_
  refine (sound_op (G := fun w => [w]) (fun _ => .beginPmapGet root key s.keyTy s.valueTy)
    (fun _ => List.forall_mem_singleton.mpr List.mem_cons_self) fun _ => ⟨rfl, rfl⟩).bind fun v => ?_
  exact sound_store (covers_mem List.mem_cons_self)

/-- The keys and values of a listing hold no handles. -/
theorem sound_pmapWalkEntries (stateIdx : ℕ) :
    Sound [] (pmapWalkEntries m stateIdx) fun es => es.map Prod.fst ++ es.map Prod.snd := by
  refine sound_orPanic fun s _ => (pmapKind.sound_loadRoot s).bind fun root => sound_ask fun tx regs => ?_
  obtain ⟨hreads, hsettled⟩ := Pmap.entries_reads root tx s.keyTy s.valueTy
  refine (flow_reads hreads).covered (.append (covers_settledList ?_) (.of_subset (List.Subset.refl _)))
  intro w hw
  rcases List.mem_append.mp hw with hw | hw
  · obtain ⟨e, he, rfl⟩ := List.mem_map.mp hw
    exact (hsettled e he).1
  · obtain ⟨e, he, rfl⟩ := List.mem_map.mp hw
    exact (hsettled e he).2

theorem carried_pmapEntries (dst : Reg) (stateIdx : ℕ) : Carried (pmapEntries m dst stateIdx) := by
  refine (sound_pmapWalkEntries m stateIdx).bind fun es => sound_store (covers_list rfl fun v hv => ?_)
  obtain ⟨e, he, rfl⟩ := List.mem_map.mp hv
  have hkey : e.1 ∈ es.map Prod.fst ++ es.map Prod.snd := List.mem_append_left _ (List.mem_map_of_mem he)
  have hvalue : e.2 ∈ es.map Prod.fst ++ es.map Prod.snd := List.mem_append_right _ (List.mem_map_of_mem he)
  exact covers_list rfl ((covers_mem hkey).cons (covers_mem hvalue)) _ List.mem_cons_self

theorem carried_pmapKeys (dst : Reg) (stateIdx : ℕ) : Carried (pmapKeys m dst stateIdx) :=
  (sound_pmapWalkEntries m stateIdx).bind fun _ =>
    sound_store (covers_list rfl (.of_subset (List.subset_append_left ..)))

theorem carried_pmapValues (dst : Reg) (stateIdx : ℕ) : Carried (pmapValues m dst stateIdx) :=
  (sound_pmapWalkEntries m stateIdx).bind fun _ =>
    sound_store (covers_list rfl (.of_subset (List.subset_append_right ..)))

theorem carried_pbtreeGet (dst : Reg) (stateIdx : ℕ) (keyReg : Reg) :
    Carried (pbtreeGet m bound dst stateIdx keyReg) := by
  refine (sound_forceReg keyReg).bind fun key => sound_orPanic fun s _ => ?_
  refine ((pbtreeKind bound).sound_loadRoot s).bind fun root => ?_
  refine (pbtreeKind bound).sound_lookup s root key fun found hfound => sound_storeSettled ?_
  cases found with
  | none => exact handles_defaultFor s.valueTy
  | some v => exact hfound v rfl

theorem carried_pbtreeRange (dst : Reg) (stateIdx : ℕ) (loReg hiReg : Reg) :
    Carried (pbtreeRange m bound dst stateIdx loReg hiReg) := by
  refine (sound_forceReg loReg).bind fun lo => (sound_forceReg hiReg).bind fun hi => sound_orPanic fun s _ => ?_
  refine ((pbtreeKind bound).sound_loadRoot s).bind fun root => ?_
  refine sound_callThen (fun _ _ => flow_reads (Pbtree.range_reads ..).1) fun tx => sound_storeSettled ?_
  exact handlesList_eq_nil (Pbtree.range_reads ..).2

/-! ### Cursors -/

theorem carried_pmapWalkInit (dst : Reg) (stateIdx : ℕ) : Carried (pmapWalkInit m dst stateIdx) :=
  sound_orPanic fun s _ => (pmapKind.sound_loadRoot s).bind fun _ => sound_storeSettled rfl

theorem carried_pbtreeWalkInit (dst : Reg) (stateIdx : ℕ) : Carried (pbtreeWalkInit m bound dst stateIdx) :=
  sound_orPanic fun _ _ => sound_storeSettled rfl

/-- What a cursor yields, and what it holds afterwards, stood in it before or in a node. -/
structure Yields (tx tx' : Tx) (cursor cursor' : PMapCursor) (next : Option (Value × Value)) : Prop where
  reads : Reads tx tx'
  left : Covers [pmapCursorValue cursor] [pmapCursorValue cursor']
  yielded : ∀ p, next = some p → Covers [pmapCursorValue cursor] [p.2]

/-- One step of the cursor before. -/
theorem Yields.after {tx tx₁ tx' : Tx} {cursor cursor₁ cursor' : PMapCursor} {next : Option (Value × Value)}
    (h : Yields tx₁ tx' cursor₁ cursor' next) (hread : Reads tx tx₁)
    (hcursor : Covers [pmapCursorValue cursor] [pmapCursorValue cursor₁]) : Yields tx tx' cursor cursor' next :=
  ⟨hread.trans h.reads, hcursor.trans h.left, fun p hp => hcursor.trans (h.yielded p hp)⟩

theorem handlesPairs_settled {es : List (Value × Value)} (h : EntriesSettled es) : handlesPairs es = [] := by
  refine List.eq_nil_iff_forall_not_mem.mpr fun i hi => ?_
  obtain ⟨p, hp, hi⟩ := mem_handlesPairs.mp hi
  obtain ⟨hk, hv⟩ := h p hp
  rw [hk, hv] at hi
  exact hi.elim List.not_mem_nil List.not_mem_nil

theorem pmapWalkAdvance_yields {fuel : ℕ} {cursor cursor' : PMapCursor} {tx tx' : Tx} {next : Option (Value × Value)}
    (h : pmapWalkAdvance fuel cursor tx = some (tx', cursor', next)) : Yields tx tx' cursor cursor' next := by
  induction fuel generalizing cursor tx with
  | zero => cases h
  | succ fuel ih =>
    obtain ⟨stack, pending, kt, vt⟩ := cursor
    rcases pending with _ | ⟨pair, pending⟩
    · rcases stack with _ | ⟨⟨nodeHash, nextChild⟩, stack⟩
      · cases h
        exact ⟨.refl, .of_subset (List.Subset.refl _), fun p hp => by cases hp⟩
      · -- a frame of the stack: what is pending afterwards comes from a node
        have hread := Pmap.readNode_reads tx nodeHash kt vt
        have hleaf := @Pmap.readNode_settled kt vt tx nodeHash
        rw [pmapWalkAdvance] at h
        dsimp only at h
        generalize Pmap.readNode tx nodeHash kt vt = r at hread hleaf h
        obtain ⟨tx₁, _ | ⟨bitmap, children⟩ | entries⟩ := r
        · exact (ih h).after hread (covers_settled rfl)
        · dsimp only at h
          split at h
          · exact (ih h).after hread (covers_settled rfl)
          · exact (ih h).after hread (covers_settled rfl)
        · exact (ih h).after hread (covers_settled (handlesPairs_settled (hleaf rfl)))
    · cases h
      refine ⟨.refl, covers_one.mpr fun i hi => ?_, fun p hp => covers_one.mpr fun i hi => ?_⟩
      · exact ⟨_, List.mem_cons_self, List.mem_append_right _ hi⟩
      · cases hp
        exact ⟨_, List.mem_cons_self, mem_handlesPairs.mpr ⟨pair, List.mem_cons_self, .inr hi⟩⟩

theorem sound_yieldNext (cursorReg valueReg : Reg) (endOffset : ℤ) (pc : ℕ) {cursor : Value}
    {next : Option (Value × Value)} (hc : Covers held [cursor]) (hn : ∀ p, next = some p → Covers held [p.2]) :
    Sound held (yieldNext cursorReg valueReg endOffset pc cursor next) fun _ => [] := by
  refine (sound_put hc).bind fun _ => ?_
  split
  · next k v => exact (sound_put (hn (k, v) rfl)).bind fun _ => sound_done
  · exact sound_done

theorem sound_advancePmap {β : Type} {Q : β → List Value} {cursor : PMapCursor}
    {k : PMapCursor × Option (Value × Value) → DataM β}
    (hk : ∀ cursor' next, Covers [pmapCursorValue cursor] [pmapCursorValue cursor'] →
      (∀ p, next = some p → Covers [pmapCursorValue cursor] [p.2]) → Sound held (k (cursor', next)) Q) :
    Sound held (advancePmap bound cursor >>= k) Q := by
  intro tx regs b tx' regs' hrun
  obtain ⟨a, s₁, hadv, hrest⟩ := bind_ok hrun
  unfold advancePmap at hadv
  split at hadv
  · cases hadv
  · next tx₁ cursor' next heq =>
    cases hadv
    obtain ⟨hreads, hcursor, hnext⟩ := pmapWalkAdvance_yields heq
    obtain ⟨hlen, hflow⟩ := hk cursor' next hcursor hnext hrest
    exact ⟨hlen, (flow_reads hreads).trans hflow⟩

theorem sound_pmapWalkNext (cursorReg valueReg : Reg) (endOffset : ℤ) (pc : ℕ) :
    Sound [] (pmapWalkNext bound cursorReg valueReg endOffset pc) fun _ => [] := by
  refine (sound_peek cursorReg).bind fun v => ?_
  split
  · refine sound_advancePmap bound fun cursor next hcursor hnext => ?_
    exact sound_yieldNext _ _ _ _ hcursor hnext
  · exact sound_fail _

theorem pbtreeWalkAdvance_covers (fuel : ℕ) (cursor : PBTreeCursor) (tx : Tx) (held : List Value) :
    Flow True (tx, held) ((pbtreeWalkAdvance fuel cursor tx).1, held) ∧
      Covers [pbtreeCursorValue cursor] [pbtreeCursorValue (pbtreeWalkAdvance fuel cursor tx).2.1] ∧
      ∀ p, (pbtreeWalkAdvance fuel cursor tx).2.2 = some p → handles p.2 = [] := by
  have hsame : Covers [pbtreeCursorValue cursor] [pbtreeCursorValue cursor] := .of_subset (List.Subset.refl _)
  have hroot : Flow True (tx, held) ((readRootCell tx cursor.rootCell cursor.keyTy cursor.valueTy).1, held) := by
    have hread : Flow True (tx, held) (_, _) :=
      (Flow.refl _).op (.readCell cursor.rootCell (.pbtree cursor.keyTy cursor.valueTy)) (List.forall_mem_nil _)
    have hforce := hread.op (.force _) (List.forall_mem_singleton.mpr List.mem_cons_self)
    exact hforce.overwrite fun w hw => List.mem_append_right _ (List.mem_append_right _ hw)
  unfold pbtreeWalkAdvance
  generalize readRootCell tx cursor.rootCell cursor.keyTy cursor.valueTy = r at hroot
  split
  · next tx₁ rootHash =>
    have hreads := Pbtree.firstGreaterThan_reads fuel rootHash cursor.lastYielded tx₁ cursor.keyTy cursor.valueTy
    have hsettled := @Pbtree.firstGreaterThan_settled cursor.keyTy cursor.valueTy tx₁ fuel rootHash cursor.lastYielded
    generalize Pbtree.firstGreaterThan fuel rootHash cursor.lastYielded tx₁ cursor.keyTy cursor.valueTy = q
      at hreads hsettled
    obtain ⟨tx₂, _ | ⟨k, v⟩⟩ := q
    · exact ⟨hroot.trans (flow_reads hreads), hsame, fun p hp => by cases hp⟩
    · refine ⟨hroot.trans (flow_reads hreads), covers_settled (hsettled rfl).1, fun p hp => ?_⟩
      cases hp
      exact (hsettled rfl).2
  · exact ⟨hroot, hsame, fun p hp => by cases hp⟩

theorem sound_pbtreeWalkNext (cursorReg valueReg : Reg) (endOffset : ℤ) (pc : ℕ) :
    Sound [] (pbtreeWalkNext bound cursorReg valueReg endOffset pc) fun _ => [] := by
  refine (sound_peek cursorReg).bind fun v => ?_
  split
  · next rootCell lastYielded kt vt =>
    have hadv := pbtreeWalkAdvance_covers bound ⟨rootCell, lastYielded, kt, vt⟩
    refine sound_callThen (fun tx held => (hadv tx held).1) fun tx => ?_
    exact sound_yieldNext _ _ _ _ (hadv tx []).2.1 fun p hp => covers_settled ((hadv tx []).2.2 p hp)
  · exact sound_fail _

/-! ### Persistent vectors -/

theorem sound_recordPvecType (cell : U128) (elem : Ty) :
    Sound held (onTx fun tx => tx.recordPvecType cell elem) fun _ => held :=
  sound_onTx fun _ _ => flow_op (.recordPvecType cell elem) (List.forall_mem_nil _)

theorem sound_loadVec (cell : U128) (ty : Ty) : Sound held (loadVec cell ty) fun _ => held := by
  refine (sound_readCell cell ty).bind fun u => (sound_force List.mem_cons_self).bind fun v => ?_
  have hheld : held ⊆ v :: u :: held := fun w hw => List.mem_cons_of_mem _ (List.mem_cons_of_mem _ hw)
  split
  · exact sound_pure (.of_subset hheld)
  · exact sound_pure (.of_subset hheld)

theorem sound_intIndex (n : ℤ) : Sound held (intIndex n) fun _ => held := by
  unfold intIndex
  split_ifs
  · exact sound_pure (.of_subset (List.Subset.refl _))
  · exact sound_fail _

theorem sound_readIndex (v : Value) : Sound held (readIndex X v) fun _ => held := by
  unfold readIndex
  split
  · exact sound_intIndex _
  · exact sound_pure (.of_subset (List.Subset.refl _))
  · exact sound_fail _

theorem sound_writeIndex (v : Value) : Sound held (writeIndex X v) fun _ => held := by
  unfold writeIndex
  split
  · exact sound_intIndex _
  · exact sound_fail _

theorem carried_pvecGet (dst : Reg) (stateIdx : ℕ) (idxReg : Reg) : Carried (pvecGet X m dst stateIdx idxReg) := by
  refine (sound_forceReg idxReg).bind fun idxV => sound_orPanic fun s _ => (sound_recordPvecType _ _).bind fun _ => ?_
  refine (sound_loadVec _ _).bind fun vec => (sound_readIndex X idxV).bind fun i => ?_
  refine sound_callThen (fun _ _ => flow_reads (Pvec.get_reads ..).1) fun tx => sound_orRuntime fun v hv => ?_
  exact sound_storeSettled ((Pvec.get_reads ..).2 v hv)

theorem carried_pvecSet (stateIdx : ℕ) (idxReg src : Reg) : Carried (pvecSet X m stateIdx idxReg src) := by
  refine (sound_forceReg idxReg).bind fun idxV => (sound_forceReg src).bind fun value => sound_orPanic fun s _ => ?_
  refine (sound_recordPvecType _ _).bind fun _ => (sound_loadVec _ _).bind fun vec => ?_
  refine (sound_writeIndex X idxV).bind fun i => ?_
  refine (sound_call fun _ _ => flow_keySteps (Pvec.set_steps ..)).bind fun r => sound_orRuntime fun root _ => ?_
  exact (sound_write (covers_settled rfl)).last

theorem carried_pvecLen (dst : Reg) (stateIdx : ℕ) : Carried (pvecLen m dst stateIdx) :=
  sound_orPanic fun _ _ => (sound_loadVec _ _).bind fun _ => sound_storeSettled rfl

theorem carried_pvecToArray (dst : Reg) (stateIdx : ℕ) : Carried (pvecToArray m dst stateIdx) := by
  refine sound_orPanic fun s _ => (sound_recordPvecType _ _).bind fun _ => (sound_loadVec _ _).bind fun vec => ?_
  refine sound_callThen (fun _ _ => flow_reads (Pvec.toVec_reads ..).1) fun tx => sound_orRuntime fun elems helems => ?_
  exact sound_storeSettled (handlesList_eq_nil ((Pvec.toVec_reads ..).2 elems helems))

theorem carried_pvecPush (dst : Reg) (stateIdx : ℕ) (src : Reg) : Carried (pvecPush m dst stateIdx src) := by
  refine (sound_forceReg src).bind fun value => sound_orPanic fun s _ => ?_
  refine (sound_recordPvecType _ _).bind fun _ => (sound_loadVec _ _).bind fun vec => ?_
  refine (sound_call fun _ _ => flow_keySteps (Pvec.push_steps ..)).bind fun r => sound_orRuntime fun root _ => ?_
  exact (sound_write (covers_settled rfl)).bind fun _ => sound_storeSettled rfl

end Collections

/-! ### The kernel -/

section Kernel

variable (X : Outside) (modules : List BcModule) (bound : ℕ) (m : BcModule) (f : BcFn)

theorem carried_straight (instr : Instr) : Carried (straight X modules bound m f instr) := by
  cases instr with
  | loadConst => exact carried_loadConst ..
  | move => exact carried_move ..
  | bin => exact carried_bin ..
  | un => exact carried_un ..
  | callHost => exact carried_callHost ..
  | makeInterface => exact carried_makeInterface ..
  | builtinResource => exact carried_builtinResource ..
  | builtinUnwrap => exact carried_builtinUnwrap ..
  | builtinAddress => exact carried_builtinAddress ..
  | builtinLen => exact carried_builtinLen ..
  | convert => exact carried_convert ..
  | makeArray => exact carried_makeArray ..
  | arrayGet => exact carried_arrayGet ..
  | arrayAppend => exact carried_arrayAppend ..
  | makeSet => exact carried_makeSet ..
  | makeDict => exact carried_makeDict ..
  | builtinCall => exact carried_builtinCall ..
  | makeStruct => exact carried_makeStruct ..
  | fieldGet => exact carried_fieldGet ..
  | fieldSet => exact carried_fieldSet ..
  | kvGet => exact carried_kvGet ..
  | kvPut => exact carried_kvPut ..
  | kvGetPath => exact carried_kvGetPath ..
  | kvPutPath => exact carried_kvPutPath ..
  | readBatch => exact carried_readBatch ..
  | prefetchMap => exact carried_prefetchMap ..
  | arrayAlloc => exact carried_arrayAlloc ..
  | reserve => exact carried_reserve ..
  | context => exact carried_context ..
  | makeTuple => exact carried_makeTuple ..
  | tupleGet => exact carried_tupleGet ..
  | makeEnum => exact carried_makeEnum ..
  | enumTag => exact carried_enumTag ..
  | enumPayload => exact carried_enumPayload ..
  | mapGet => exact carried_mapGet ..
  | mapPut => exact carried_mapPut ..
  | pmapGet => exact carried_pmapGet ..
  | pmapPut => exact carried_pmapPut ..
  | pmapContains => exact MapKind.carried_contains ..
  | pmapDelete => exact MapKind.carried_delete ..
  | pmapPutUnique => exact MapKind.carried_putUnique ..
  | pmapAppendUnique => exact MapKind.carried_appendUnique ..
  | pmapRemoveUnique => exact MapKind.carried_removeUnique ..
  | pmapRemoveFromList => exact MapKind.carried_removeFromList ..
  | pmapEntries => exact carried_pmapEntries ..
  | pmapKeys => exact carried_pmapKeys ..
  | pmapValues => exact carried_pmapValues ..
  | pmapWalkInit => exact carried_pmapWalkInit ..
  | pbtreeGet => exact carried_pbtreeGet ..
  | pbtreePut => exact MapKind.carried_putAt ..
  | pbtreeContains => exact MapKind.carried_contains ..
  | pbtreeDelete => exact MapKind.carried_delete ..
  | pbtreePutUnique => exact MapKind.carried_putUnique ..
  | pbtreeAppendUnique => exact MapKind.carried_appendUnique ..
  | pbtreeRemoveUnique => exact MapKind.carried_removeUnique ..
  | pbtreeRemoveFromList => exact MapKind.carried_removeFromList ..
  | pbtreeRange => exact carried_pbtreeRange ..
  | pbtreeWalkInit => exact carried_pbtreeWalkInit ..
  | pvecGet => exact carried_pvecGet ..
  | pvecSet => exact carried_pvecSet ..
  | pvecPush => exact carried_pvecPush ..
  | pvecLen => exact carried_pvecLen ..
  | pvecToArray => exact carried_pvecToArray ..
  | incReg => exact carried_incReg ..
  | _ => exact sound_fail _

theorem sound_dataInstr (instr : Instr) (pc : ℕ) :
    Sound [] (dataInstr X modules bound m f instr pc) fun _ => [] := by
  have hstraight : ∀ instr, Sound [] (do straight X modules bound m f instr; return pc) fun _ => [] :=
    fun instr => (carried_straight X modules bound m f instr).bind fun _ => sound_done
  cases instr with
  | pmapWalkNext cursorReg valueReg endOffset => exact sound_pmapWalkNext ..
  | pbtreeWalkNext cursorReg valueReg endOffset => exact sound_pbtreeWalkNext ..
  | _ => exact hstraight _

end Kernel

end Data

section Machine

variable {X : Outside} {modules loaded : List BcModule} {treeBound : ℕ}

theorem dataKernel_ok {m : BcModule} {f : BcFn} {instr : Instr} {pc : ℕ} {regs : List Value} {tx : Tx}
    {r : ℕ × List Value × Tx} (h : dataKernel X loaded treeBound m f instr pc regs tx = .ok r) :
    r.2.1.length = regs.length ∧ Flow True (tx, regs) (r.2.2, r.2.1) := by
  unfold dataKernel at h
  cases hrun : Data.dataInstr X loaded treeBound m f instr pc (tx, regs) with
  | error e =>
    rw [hrun] at h
    cases h
  | ok s =>
    rw [hrun] at h
    cases h
    exact Data.sound_dataInstr X loaded treeBound m f instr pc hrun

/-- **The data instructions are flows** in which no handle crosses a fork. -/
theorem dataKernel_byFlow : (dataKernel X loaded treeBound).ByFlow := fun _ _ _ _ _ _ _ h => (dataKernel_ok h).2

/-- **The data instructions keep the register file.** -/
theorem dataKernel_keepsFrame : (dataKernel X loaded treeBound).KeepsFrame :=
  fun _ _ _ _ _ _ _ _ _ h => (dataKernel_ok h).1

/-- On well-formed modules the machine with its own instructions runs as the one that looks at every register first. -/
theorem dataKernel_checked (hwf : WellFormed modules) (bound mi fi : ℕ) (args : List Value) :
    call modules (checkedAt (dataKernel X loaded treeBound) modules bound) mi fi args =
      call modules (callBodyAt (dataKernel X loaded treeBound) modules bound) mi fi args :=
  call_same hwf (checkedAt_eq hwf dataKernel_keepsFrame bound) mi fi args

variable {bound mainIdx fuel : ℕ} {name : String} {args : List Value} {tx : VmTx} {kv : Kv} {o : Out Value}
  (hargs : ∀ v ∈ args, handles v = []) (htx : tx.toTx = Tx.new kv)
  (h : runWorld (dataKernel X modules treeBound) modules bound mainIdx name args fuel tx = some o)
include hargs htx h

/-- **What a program has not written it has read from the store**, whatever instructions it is made of. -/
theorem program_stored : ∃ asked, Run (fun _ _ => True) (Tx.new kv) asked o.state.tx.toTx ∧
    StoredBut {c | (o.state.tx.writes.lookup c).isSome} kv asked o.state.tx.reads :=
  runWorld_stored dataKernel_byFlow hargs htx h

/-- **A program without legs answers with resolved handles only**, whatever instructions it is made of. -/
theorem program_known (hforks : ForkFree modules) : ∀ v, o.result = .ok v → ∀ i ∈ handles v,
    ((o.state.tx.toTx.drain (Pmap.maxLevels + 2)).resolved.lookup i).isSome :=
  runWorld_known dataKernel_byFlow hforks hargs htx h

end Machine

end Rend.Vm
