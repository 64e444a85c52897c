import Rend.Lib.Reorder
import Rend.Artifact.Parts
import Rend.Link.Engine

/-!
# The order of the sources

The engine keeps the sources of a set in a hash map, and goes through them in the order the map yields
them. Each module is compiled alike in every order, since what the modules see of each other is
gathered by name (`linkModules_perm`). The order of the compiled modules is that of the sources.

* `order_independence`: the artifact of an accepted set is the same in every order exactly when the set
  has at most one module. A run is the same in every order when no two modules handle one event and the
  modules agree on the interfaces they declare under one name.
-/

namespace Rend.Link

open Lib Optimize

variable {Ast Outcome : Type} {F : Frontend Ast Outcome}

/-! ### Names -/

/-- A module whose name has no colon can be told from the name of its item. -/
theorem qualified_inj {m m' n n' : String} (hm : ':' ∉ m.toList) (hm' : ':' ∉ m'.toList)
    (h : qualified m n = qualified m' n') : m = m' := by
  have hlist : m.toList ++ ':' :: ':' :: n.toList = m'.toList ++ ':' :: ':' :: n'.toList := by
    simpa [qualified] using congrArg String.toList h
  have htake : ∀ {l r : List Char}, ':' ∉ l → (l ++ ':' :: r).takeWhile (· ≠ ':') = l := by
    intro l r hl
    rw [List.takeWhile_append_of_pos]
    · simp
    · intro c hc
      simpa using fun heq : c = ':' => hl (heq ▸ hc)
  refine String.toList_injective ?_
  rw [← htake hm, hlist, htake hm']

/-- Modules as the engine keeps them: no two of one name, and no colon in a name. -/
structure Named (l : List (String × Ast)) : Prop where
  nodup : (l.map Prod.fst).Nodup
  ident : ∀ p ∈ l, ':' ∉ p.1.toList

theorem Named.ne {l : List (String × Ast)} (h : Named l) {p q : String × Ast} (hp : p ∈ l) (hq : q ∈ l)
    (hne : p ≠ q) : p.1 ≠ q.1 :=
  fun heq => hne (List.inj_on_of_nodup_map h.nodup hp hq heq)

theorem Named.perm {l l' : List (String × Ast)} (h : Named l) (hp : l.Perm l') : Named l' :=
  ⟨(hp.map _).nodup_iff.mp h.nodup, fun p hm => h.ident p (hp.mem_iff.mpr hm)⟩

/-- A catalog of items under the names of their modules does not depend on the order of the modules. -/
theorem Named.catalog_perm {V X : Type} {l l' : List (String × Ast)} (h : Named l) (hp : l.Perm l')
    (items : Ast → List X) (name : X → String) (value : X → V) :
    SortedMap.ofEntries (l.flatMap fun p => (items p.2).map fun x => (qualified p.1 (name x), value x)) =
      SortedMap.ofEntries (l'.flatMap fun p => (items p.2).map fun x =>
        (qualified p.1 (name x), value x)) := by
  refine SortedMap.ofEntries_flatMap_perm hp fun p hm q hq hne e he e' he' heq => ?_
  obtain ⟨x, -, rfl⟩ := List.mem_map.mp he
  obtain ⟨y, -, rfl⟩ := List.mem_map.mp he'
  exact h.ne hm hq hne (qualified_inj (h.ident p hm) (h.ident q hq) heq)

theorem Named.fnFlags_perm {l l' : List (String × Ast)} (h : Named l) (hp : l.Perm l') :
    collectDeclFnFlags F l = collectDeclFnFlags F l' := by
  refine SortedMap.ofEntries_flatMap_perm hp fun p hm q hq hne e he e' he' heq => ?_
  obtain ⟨x, -, rfl⟩ := List.mem_map.mp he
  obtain ⟨y, -, rfl⟩ := List.mem_map.mp he'
  exact h.ne hm hq hne (congrArg (fun k => (ofLex k).1) heq)

/-! ### Compiled modules -/

theorem compileNamed_parts {src : Artifact.Source} {n : String} {m : BcModule}
    (h : Artifact.compileNamed src n = .ok m) : m.name = n ∧ m.interfaces = src.interfaces ∧
      m.interfaceIndex = nameIndex (src.interfaces.map fun d => d.name) ∧
      Artifact.handlerDispatch n m.fnIndex src.handlers [] = .ok m.handlerDispatch := by
  unfold Artifact.compileNamed at h
  cases hd : Artifact.handlerDispatch n (nameIndex (src.functions.map fun f => f.name)) src.handlers [] with
  | error e => simp [hd, bind, Except.bind] at h
  | ok dispatch =>
    simp only [hd, bind, Except.bind, pure, Except.pure, Except.ok.injEq] at h
    subst h
    exact ⟨rfl, rfl, rfl, hd⟩

/-- What a module that was linked is compiled from. -/
theorem mem_linkModules {resolved : List (String × Ast)} {mods : List BcModule}
    (h : linkModules F resolved = some mods) {m : BcModule} (hm : m ∈ mods) :
    ∃ p ∈ resolved, m.name = p.1 ∧ m.interfaces = F.interfaces p.2 ∧
      m.interfaceIndex = nameIndex ((F.interfaces p.2).map fun d => d.name) ∧
      Artifact.handlerDispatch p.1 m.fnIndex (F.handlers p.2) [] = .ok m.handlerDispatch := by
  obtain ⟨mods', hmods, hval⟩ := Option.bind_eq_some_iff.mp h
  split_ifs at hval
  obtain rfl := Option.some.inj hval
  obtain ⟨p, hp, hf⟩ := mem_of_mapM hmods hm
  obtain ⟨src, hsrc, hcomp⟩ := Option.bind_eq_some_iff.mp hf
  obtain ⟨hname, hifaces, hidx, hdisp⟩ := compileNamed_parts (toOption_eq_some hcomp)
  rw [F.lower_interfaces _ _ _ hsrc] at hifaces hidx
  rw [F.lower_handlers _ _ _ hsrc] at hdisp
  exact ⟨p, hp, hname, hifaces, hidx, hdisp⟩

theorem linkModules_names {resolved : List (String × Ast)} {mods : List BcModule}
    (h : linkModules F resolved = some mods) : mods.map BcModule.name = resolved.map Prod.fst := by
  obtain ⟨mods', hmods, hval⟩ := Option.bind_eq_some_iff.mp h
  split_ifs at hval
  obtain rfl := Option.some.inj hval
  refine map_of_mapM (fun p m hf => ?_) hmods
  obtain ⟨src, -, hcomp⟩ := Option.bind_eq_some_iff.mp hf
  exact (compileNamed_parts (toOption_eq_some hcomp)).1

theorem validateCrossModuleCalls_perm {mods mods' : List BcModule} (h : mods.Perm mods')
    (hn : (mods.map BcModule.name).Nodup) :
    validateCrossModuleCalls mods = validateCrossModuleCalls mods' := by
  have hcall : callResolves mods = callResolves mods' := by
    funext f i
    cases i <;> try rfl
    simp only [callResolves, find_perm h hn]
  unfold validateCrossModuleCalls
  rw [hcall]
  exact h.all_eq

/-- **Modules are compiled alike in every order.** -/
theorem linkModules_perm {l l' : List (String × Ast)} (hl : Named l) (hp : l.Perm l')
    {mods : List BcModule} (h : linkModules F l = some mods) :
    ∃ mods', linkModules F l' = some mods' ∧ mods.Perm mods' := by
  have hnames := linkModules_names h
  obtain ⟨r, hmods, hval⟩ := Option.bind_eq_some_iff.mp h
  split_ifs at hval with hv
  obtain rfl := Option.some.inj hval
  obtain ⟨r', hr', hperm⟩ := mapM_perm hp hmods
  refine ⟨r', ?_, hperm⟩
  have hext : collectManifest F l = collectManifest F l' :=
    hl.catalog_perm hp F.entrySigs Prod.fst Prod.snd
  have heff : collectDeclEffects F l = collectDeclEffects F l' :=
    hl.catalog_perm hp (fun m => (F.functions m).filter FnDecl.isEntry) FnDecl.name
      fun f => declEffect f.isView f.isPure
  rw [hext, heff, hl.fnFlags_perm hp] at hr'
  rw [validateCrossModuleCalls_perm hperm (hnames ▸ hl.nodup)] at hv
  exact Option.bind_eq_some_iff.mpr ⟨r', hr', if_pos hv⟩

/-! ### Orders of a set -/

/-- An order the engine can go through the sources in: the caller lists them in some order, and the map
they are put into yields them in some order. -/
def Enumerates (F : Frontend Ast Outcome) (sources : List String) (order : List (String × String)) : Prop :=
  ∃ listed entries, listed.Perm sources ∧ byName F listed = some entries ∧ order.Perm entries

section Enumerates

variable {sources : List String} {o o' : List (String × String)}

theorem Enumerates.of_perm (h : Enumerates F sources o) (hp : o'.Perm o) : Enumerates F sources o' := by
  obtain ⟨listed, entries, hl, hb, ho⟩ := h
  exact ⟨listed, entries, hl, hb, hp.trans ho⟩

theorem Enumerates.perm (h : Enumerates F sources o) (h' : Enumerates F sources o') : o.Perm o' := by
  obtain ⟨listed, entries, hl, hb, ho⟩ := h
  obtain ⟨listed', entries', hl', hb', ho'⟩ := h'
  obtain ⟨r, hr, hval⟩ := Option.bind_eq_some_iff.mp hb
  obtain ⟨r', hr', hval'⟩ := Option.bind_eq_some_iff.mp hb'
  split_ifs at hval hval'
  obtain rfl := Option.some.inj hval
  obtain rfl := Option.some.inj hval'
  obtain ⟨s, hs, hperm⟩ := mapM_perm (hl.trans hl'.symm) hr
  obtain rfl := Option.some.inj (hs.symm.trans hr')
  exact ho.trans (hperm.trans ho'.symm)

theorem Enumerates.length_eq (h : Enumerates F sources o) : o.length = sources.length := by
  obtain ⟨listed, entries, hl, hb, ho⟩ := h
  obtain ⟨r, hr, hval⟩ := Option.bind_eq_some_iff.mp hb
  split_ifs at hval
  obtain rfl := Option.some.inj hval
  rw [ho.length_eq, length_of_mapM hr, hl.length_eq]

theorem Enumerates.nodup (h : Enumerates F sources o) : (o.map Prod.fst).Nodup := by
  obtain ⟨listed, entries, hl, hb, ho⟩ := h
  obtain ⟨r, hr, hval⟩ := Option.bind_eq_some_iff.mp hb
  split_ifs at hval with hnd
  obtain rfl := Option.some.inj hval
  exact (ho.map _).nodup_iff.mpr hnd

theorem Enumerates.ident (h : Enumerates F sources o) {e : String × String} (he : e ∈ o) :
    ':' ∉ e.1.toList := by
  obtain ⟨listed, entries, hl, hb, ho⟩ := h
  obtain ⟨r, hr, hval⟩ := Option.bind_eq_some_iff.mp hb
  split_ifs at hval
  obtain rfl := Option.some.inj hval
  obtain ⟨src, -, hf⟩ := mem_of_mapM hr (ho.mem_iff.mp he)
  obtain ⟨m, -, hm⟩ := Option.bind_eq_some_iff.mp hf
  obtain ⟨n, hn, rfl⟩ := Option.map_eq_some_iff.mp hm
  exact F.ident m n hn

theorem parseSources_names {parsed : List (String × Ast)} (h : parseSources F o = some parsed) :
    parsed.map Prod.fst = o.map Prod.fst := by
  refine map_of_mapM (fun e p hf => ?_) h
  obtain ⟨m, -, hm⟩ := Option.bind_eq_some_iff.mp hf
  split_ifs at hm
  exact congrArg Prod.fst (Option.some.inj hm).symm

theorem resolve_names {cross : SortedMap String CrossStruct} {parsed resolved : List (String × Ast)}
    (h : (parsed.mapM fun p => (F.resolve cross [] p.2).map fun m => (p.1, m)) = some resolved) :
    resolved.map Prod.fst = parsed.map Prod.fst := by
  refine map_of_mapM (fun p q hf => ?_) h
  obtain ⟨m, -, rfl⟩ := Option.map_eq_some_iff.mp hf
  rfl

theorem Enumerates.named (h : Enumerates F sources o) {l : List (String × Ast)}
    (hl : l.map Prod.fst = o.map Prod.fst) : Named l := by
  refine ⟨hl ▸ h.nodup, fun p hp => ?_⟩
  obtain ⟨e, he, heq⟩ := List.mem_map.mp (hl ▸ List.mem_map_of_mem hp : p.1 ∈ o.map Prod.fst)
  exact heq ▸ h.ident he

theorem resolveSet_names {resolved : List (String × Ast)} (h : resolveSet F o = some resolved) :
    resolved.map Prod.fst = o.map Prod.fst := by
  obtain ⟨parsed, hparsed, hres⟩ := Option.bind_eq_some_iff.mp h
  exact (resolve_names hres).trans (parseSources_names hparsed)

theorem resolveSet_perm (h : Enumerates F sources o) (hp : o.Perm o') {resolved : List (String × Ast)}
    (hr : resolveSet F o = some resolved) :
    ∃ resolved', resolveSet F o' = some resolved' ∧ resolved.Perm resolved' := by
  obtain ⟨parsed, hparsed, hres⟩ := Option.bind_eq_some_iff.mp hr
  obtain ⟨parsed', hparsed', hperm⟩ := mapM_perm hp hparsed
  have hcross : crossStructs F parsed = crossStructs F parsed' :=
    (h.named (parseSources_names hparsed)).catalog_perm hperm F.structs Prod.fst Prod.snd
  obtain ⟨resolved', hres', hperm'⟩ := mapM_perm hperm hres
  rw [hcross] at hres'
  exact ⟨resolved', Option.bind_eq_some_iff.mpr ⟨parsed', hparsed', hres'⟩, hperm'⟩

theorem compileModuleSet_names {mods : List BcModule} (h : compileModuleSet F o = some mods) :
    mods.map BcModule.name = o.map Prod.fst := by
  obtain ⟨parsed, hparsed, h⟩ := Option.bind_eq_some_iff.mp h
  obtain ⟨resolved, hres, hlink⟩ := Option.bind_eq_some_iff.mp h
  exact (linkModules_names hlink).trans ((resolve_names hres).trans (parseSources_names hparsed))

end Enumerates

/-! ### The artifact of a set -/

theorem writeStr_append_inj {s s' : String} {r r' : Bytes} (hs : Artifact.FitsStr s)
    (hs' : Artifact.FitsStr s') (h : Artifact.writeStr s ++ r = Artifact.writeStr s' ++ r') : s = s' := by
  have hread := Artifact.reads_str hs r 0
  rw [h, Artifact.reads_str hs' r' 0] at hread
  exact (congrArg Prod.fst (Except.ok.inj hread)).symm

/-- Artifacts of equally many modules that have the same bytes begin with modules of one name. -/
theorem encode_head_name {m m' : BcModule} {ms ms' : List BcModule} (hlen : ms.length = ms'.length)
    (hm : Artifact.FitsStr m.name) (hm' : Artifact.FitsStr m'.name)
    (h : Artifact.encode (m :: ms) = Artifact.encode (m' :: ms')) : m.name = m'.name := by
  simp only [Artifact.encode, Artifact.writeVec, List.length_cons, hlen, List.append_cancel_left_eq,
    List.flatMap_cons, Artifact.writeModule, List.append_assoc] at h
  exact writeStr_append_inj hm hm' h

/-- The artifact is the same in every order. -/
def CompileIndependent (F : Frontend Ast Outcome) (sources : List String) : Prop :=
  ∀ o o', Enumerates F sources o → Enumerates F sources o' → compileModules F o = compileModules F o'

/-- The result of running any module of the set is the same in every order, and the handlers of every
event are run in the same order. -/
def ExecIndependent (F : Frontend Ast Outcome) (sources : List String) : Prop :=
  ∀ o o', Enumerates F sources o → Enumerates F sources o' →
    (∀ mainModule, executeMain F mainModule o = executeMain F mainModule o') ∧
    ∀ key, ((resolveSet F o).bind (linkModules F)).map (fun mods => handlersOf mods key) =
      ((resolveSet F o').bind (linkModules F)).map fun mods => handlersOf mods key

/-- **Nothing depends on the order of the sources.** -/
def OrderIndependent (F : Frontend Ast Outcome) (sources : List String) : Prop :=
  CompileIndependent F sources ∧ ExecIndependent F sources

/-- Some order of the set is accepted by `compile_modules`. -/
def Accepted (F : Frontend Ast Outcome) (sources : List String) : Prop :=
  ∃ o mods, Enumerates F sources o ∧ compileModuleSet F o = some mods

section Set

variable {sources : List String}

/-- At most one module leaves one order. -/
theorem Enumerates.eq_of_length_le_one {o o' : List (String × String)} (h : Enumerates F sources o)
    (h' : Enumerates F sources o') (hlen : sources.length ≤ 1) : o = o' := by
  have hp := h.perm h'
  rw [← h.length_eq] at hlen
  obtain _ | ⟨e, _ | ⟨e', rest⟩⟩ := o
  · exact hp.nil_eq
  · exact List.singleton_perm.mp hp
  · simp at hlen

/-- Two modules, the other way round, make another artifact. -/
theorem length_le_one_of_compileIndependent (hacc : Accepted F sources)
    (hfit : ∀ o, Enumerates F sources o → ∀ e ∈ o, Artifact.FitsStr e.1)
    (h : CompileIndependent F sources) : sources.length ≤ 1 := by
  obtain ⟨o, mods, ho, hmods⟩ := hacc
  by_contra hlen
  rw [← ho.length_eq] at hlen
  obtain _ | ⟨e, _ | ⟨e', rest⟩⟩ := o
  · simp at hlen
  · simp at hlen
  have ho' : Enumerates F sources (e' :: e :: rest) := ho.of_perm (.swap e e' rest)
  have heq := h _ _ ho ho'
  obtain ⟨mods', hmods', hart⟩ : ∃ mods', compileModuleSet F (e' :: e :: rest) = some mods' ∧
      Artifact.fromModules mods' = Artifact.fromModules mods := by
    rw [compileModules, hmods] at heq
    exact Option.map_eq_some_iff.mp heq.symm
  have hnames := compileModuleSet_names hmods
  have hnames' := compileModuleSet_names hmods'
  obtain _ | ⟨m, ms⟩ := mods
  · cases hnames
  obtain _ | ⟨m', ms'⟩ := mods'
  · cases hnames'
  rw [List.map_cons, List.map_cons, List.cons.injEq] at hnames hnames'
  have hlen' : ms'.length = ms.length := by
    have hl := congrArg List.length hnames.2
    have hl' := congrArg List.length hnames'.2
    simp only [List.length_map, List.map_cons, List.length_cons] at hl hl'
    omega
  have hname := encode_head_name hlen' (hnames'.1 ▸ hfit _ ho' e' List.mem_cons_self)
    (hnames.1 ▸ hfit _ ho e List.mem_cons_self) (congrArg Artifact.bytes hart)
  have hnd := ho.nodup
  rw [List.map_cons, List.map_cons, ← hnames.1, ← hnames'.1, hname] at hnd
  simp at hnd

end Set

/-! ### Running a set -/

/-- The event a handler of a module is for. -/
def eventKey (moduleName : String) (h : Artifact.HandlerDecl) : String :=
  qualified (h.eventModule.getD moduleName) h.eventType

/-- No two modules handle one event, and they agree on the interfaces they declare under one name. -/
structure Quiet (F : Frontend Ast Outcome) (resolved : List (String × Ast)) : Prop where
  events : ∀ p ∈ resolved, ∀ q ∈ resolved, p.1 ≠ q.1 → ∀ h ∈ F.handlers p.2, ∀ h' ∈ F.handlers q.2,
    eventKey p.1 h ≠ eventKey q.1 h'
  interfaces : ∀ p ∈ resolved, ∀ q ∈ resolved, p.1 ≠ q.1 → ∀ d ∈ F.interfaces p.2,
    ∀ d' ∈ F.interfaces q.2, d.name = d'.name → methodSigs d = methodSigs d'

/-- An event that is in the dispatch table has a handler that was declared. -/
theorem handlerDispatch_lookup {moduleName : String} {fnIndex : SortedMap String ℕ}
    {hs : List Artifact.HandlerDecl} {m m' : SortedMap String (List ℕ)} {key : String}
    (h : Artifact.handlerDispatch moduleName fnIndex hs m = .ok m') (hkey : m.lookup key = none)
    (hkey' : m'.lookup key ≠ none) : ∃ d ∈ hs, eventKey moduleName d = key := by
  induction hs generalizing m with
  | nil =>
    cases h
    exact absurd hkey hkey'
  | cons d hs ih =>
    by_cases hd : eventKey moduleName d = key
    · exact ⟨d, List.mem_cons_self, hd⟩
    rw [Artifact.handlerDispatch] at h
    split at h
    · cases h
    · obtain ⟨d', hd', heq⟩ := ih h ((SortedMap.lookup_insert_of_ne (Ne.symm hd) _ _).trans hkey)
      exact ⟨d', List.mem_cons_of_mem d hd', heq⟩

section Run

variable {resolved : List (String × Ast)} {mods mods' : List BcModule}

theorem handlersOf_perm (hl : Named resolved) (hq : Quiet F resolved)
    (hlink : linkModules F resolved = some mods) (hp : mods.Perm mods') (key : String) :
    handlersOf mods key = handlersOf mods' key := by
  have hnd : (mods.map BcModule.name).Nodup := linkModules_names hlink ▸ hl.nodup
  refine flatMap_perm hp (hnd.of_map.pairwise_of_forall_ne fun m hm m' hm' hne => ?_)
  obtain ⟨p, hpm, hname, -, -, hdisp⟩ := mem_linkModules hlink hm
  obtain ⟨q, hqm, hname', -, -, hdisp'⟩ := mem_linkModules hlink hm'
  have hpq : p.1 ≠ q.1 := by
    rw [← hname, ← hname']
    exact fun heq => hne (List.inj_on_of_nodup_map hnd hm hm' heq)
  by_contra hboth
  rw [not_or] at hboth
  -- both tables have the event, so both modules declare a handler for it
  have hhas : m.handlerDispatch.lookup key ≠ none := fun hnone => hboth.1 (by simp [hnone])
  have hhas' : m'.handlerDispatch.lookup key ≠ none := fun hnone => hboth.2 (by simp [hnone])
  obtain ⟨d, hd, hkey⟩ := handlerDispatch_lookup hdisp rfl hhas
  obtain ⟨d', hd', hkey'⟩ := handlerDispatch_lookup hdisp' rfl hhas'
  exact hq.events p hpm q hqm hpq d hd d' hd' (hkey.trans hkey'.symm)

theorem firstDecl_perm (hl : Named resolved) (hq : Quiet F resolved)
    (hlink : linkModules F resolved = some mods) (hp : mods.Perm mods') (name : String) :
    (firstDecl mods name).map methodSigs = (firstDecl mods' name).map methodSigs := by
  have hnd : (mods.map BcModule.name).Nodup := linkModules_names hlink ▸ hl.nodup
  unfold firstDecl
  rw [List.map_findSome?, List.map_findSome?]
  refine findSome_perm hp fun m hm m' hm' sigs sigs' hs hs' => ?_
  by_cases hne : m = m'
  · subst hne
    exact Option.some.inj (hs.symm.trans hs')
  obtain ⟨p, hpm, hname, hifaces, hidx, -⟩ := mem_linkModules hlink hm
  obtain ⟨q, hqm, hname', hifaces', hidx', -⟩ := mem_linkModules hlink hm'
  have hpq : p.1 ≠ q.1 := by
    rw [← hname, ← hname']
    exact fun heq => hne (List.inj_on_of_nodup_map hnd hm hm' heq)
  obtain ⟨d, hd, rfl⟩ := Option.map_eq_some_iff.mp hs
  obtain ⟨d', hd', rfl⟩ := Option.map_eq_some_iff.mp hs'
  dsimp only at hd hd'
  rw [hidx, hifaces] at hd
  rw [hidx', hifaces'] at hd'
  obtain ⟨hmem, hdname⟩ := mem_of_nameIndex hd
  obtain ⟨hmem', hdname'⟩ := mem_of_nameIndex hd'
  exact hq.interfaces p hpm q hqm hpq d hmem d' hmem' (hdname.trans hdname'.symm)

theorem worldOf_perm (hl : Named resolved) (hq : Quiet F resolved)
    (hlink : linkModules F resolved = some mods) (hp : mods.Perm mods') : worldOf mods = worldOf mods' := by
  have hnd : (mods.map BcModule.name).Nodup := linkModules_names hlink ▸ hl.nodup
  have hmodule : (worldOf mods).module = (worldOf mods').module := funext fun name => find_perm hp hnd name
  have hiface : (worldOf mods).iface = (worldOf mods').iface := funext (firstDecl_perm hl hq hlink hp)
  have hhandlers : (worldOf mods).handlers = (worldOf mods').handlers :=
    funext (handlersOf_perm hl hq hlink hp)
  calc worldOf mods = ⟨(worldOf mods).module, (worldOf mods).iface, (worldOf mods).handlers⟩ := rfl
    _ = worldOf mods' := by rw [hmodule, hiface, hhandlers]

/-- The modules a run is made of, in two orders. -/
theorem linkSet_perm {sources : List String} {o o' : List (String × String)}
    (ho : Enumerates F sources o) (ho' : Enumerates F sources o') (hr : resolveSet F o = some resolved)
    (hlink : linkModules F resolved = some mods) : ∃ resolved' mods', resolveSet F o' = some resolved' ∧
      linkModules F resolved' = some mods' ∧ mods.Perm mods' := by
  obtain ⟨resolved', hr', hp⟩ := resolveSet_perm ho (ho.perm ho') hr
  obtain ⟨mods', hlink', hpm⟩ := linkModules_perm (ho.named (resolveSet_names hr)) hp hlink
  exact ⟨resolved', mods', hr', hlink', hpm⟩

end Run

theorem execIndependent_of_quiet {sources : List String}
    (hquiet : ∀ o resolved, Enumerates F sources o → resolveSet F o = some resolved → Quiet F resolved) :
    ExecIndependent F sources := by
  intro o o' ho ho'
  cases hset : (resolveSet F o).bind (linkModules F) with
  | some mods =>
    obtain ⟨resolved, hr, hlink⟩ := Option.bind_eq_some_iff.mp hset
    obtain ⟨resolved', mods', hr', hlink', hp⟩ := linkSet_perm ho ho' hr hlink
    have hl := ho.named (resolveSet_names hr)
    have hq := hquiet o resolved ho hr
    refine ⟨fun mainModule => ?_, fun key => ?_⟩
    · simp only [executeMain, hr, hr', hlink, hlink', Option.bind_eq_bind, Option.bind_some]
      rw [hp.any_eq, worldOf_perm hl hq hlink hp]
    · rw [hr', Option.bind_some, hlink', Option.map_some, Option.map_some, handlersOf_perm hl hq hlink hp]
  | none =>
    have hset' : (resolveSet F o').bind (linkModules F) = none := by
      refine Option.eq_none_iff_forall_ne_some.mpr fun mods' hmods' => ?_
      obtain ⟨resolved', hr', hlink'⟩ := Option.bind_eq_some_iff.mp hmods'
      obtain ⟨resolved, mods, hr, hlink, -⟩ := linkSet_perm ho' ho hr' hlink'
      rw [hr, Option.bind_some, hlink] at hset
      cases hset
    refine ⟨fun mainModule => ?_, fun key => by rw [hset']⟩
    have hmain : ∀ order, executeMain F mainModule order = ((resolveSet F order).bind (linkModules F)).bind
        fun mods => if mods.any (fun m => m.name = mainModule) then
          F.runWorld (worldOf mods) mainModule else none := by
      intro order
      rw [Option.bind_assoc]
      rfl
    rw [hmain, hmain, hset, hset']

/-- **What depends on the order of the sources.** Where `compile_modules` accepts the set, everything is
the same in every order exactly when the set has at most one module. A run is the same in every order
when no two modules handle one event and they agree on the interfaces declared under one name. -/
theorem order_independence (F : Frontend Ast Outcome) (sources : List String)
    (hfit : ∀ o, Enumerates F sources o → ∀ e ∈ o, Artifact.FitsStr e.1) :
    (Accepted F sources → (OrderIndependent F sources ↔ sources.length ≤ 1)) ∧
      ((∀ o resolved, Enumerates F sources o → resolveSet F o = some resolved → Quiet F resolved) →
        ExecIndependent F sources) := by
  refine ⟨fun hacc => ⟨fun h => ?_, fun hlen => ⟨?_, ?_⟩⟩, execIndependent_of_quiet⟩
  · exact length_le_one_of_compileIndependent hacc hfit h.1
  · intro o o' ho ho'
    rw [ho.eq_of_length_le_one ho' hlen]
  · intro o o' ho ho'
    rw [ho.eq_of_length_le_one ho' hlen]
    exact ⟨fun _ => rfl, fun _ => rfl⟩

/-! ### Sets of two modules -/

/-- A front end that reads the sources of two empty modules. -/
def emptyModules : Frontend String Unit where
  parse := fun _ src => if src = "module a;" then some "a" else if src = "module b;" then some "b" else none
  declared := fun m => if m = "a" ∨ m = "b" then some m else none
  structs := fun _ => []
  resolve := fun _ _ m => some m
  entrySigs := fun _ => []
  functions := fun _ => []
  handlers := fun _ => []
  interfaces := fun _ => []
  lower := fun _ _ => some ⟨[], [], [], [], [], [], [], [], []⟩
  runWorld := fun _ _ => none
  ident := by
    intro m n h
    split_ifs at h with hm
    obtain rfl := Option.some.inj h
    rcases hm with rfl | rfl <;> decide
  lower_handlers := by
    intro _ _ src h
    rw [← Option.some.inj h]
  lower_interfaces := by
    intro _ _ src h
    rw [← Option.some.inj h]

theorem enumerates_empty_module : Enumerates emptyModules ["module a;"] [("a", "module a;")] :=
  ⟨_, _, .refl _, rfl, .refl _⟩

theorem enumerates_empty_modules :
    Enumerates emptyModules ["module a;", "module b;"] [("a", "module a;"), ("b", "module b;")] :=
  ⟨_, _, .refl _, rfl, .refl _⟩

/-- The name of a module, `ping` or `pong`. -/
def sideName : Bool → String
  | false => "ping"
  | true => "pong"

/-- The event that a module handles. -/
def sideHandler : Bool → Artifact.HandlerDecl
  | false => ⟨"on", none, "Ping"⟩
  | true => ⟨"on", none, "Pong"⟩

/-- `interface Token { view fn total() -> u64; }` -/
def sideInterface : InterfaceDecl where
  name := "Token"
  methods := [{ name := "total", params := [], returnType := .u64, isView := true, isPure := false, span := ⟨0, 0⟩ }]
  span := ⟨0, 0⟩

/-- A front end that reads two modules, each with a handler for an event of its own and with the same interface. A
run lists the handlers of both events. -/
def pingPong : Frontend Bool (List (String × ℕ)) where
  parse := fun _ src => if src = "module ping;" then some false else if src = "module pong;" then some true else none
  declared := fun m => some (sideName m)
  structs := fun _ => []
  resolve := fun _ _ m => some m
  entrySigs := fun _ => []
  functions := fun _ => [⟨"on", false, false, false⟩]
  handlers := fun m => [sideHandler m]
  interfaces := fun _ => [sideInterface]
  lower := fun _ m => some
    { imports := [], states := [], structs := [], caps := [], enums := [], interfaces := [sideInterface]
      handlers := [sideHandler m]
      functions := [{ name := "on", nParams := 1, nRegs := 1, consts := [], isEntry := false, isNore := false
                      paramTypes := [.int], returnType := .unit, isView := false, isPure := false
                      code := [.returnUnit] }]
      pathSpecs := [] }
  runWorld := fun w main => (w.module main).map fun _ => w.handlers "pong::Pong" ++ w.handlers "ping::Ping"
  ident := by
    intro m n h
    obtain rfl := Option.some.inj h
    cases m <;> decide
  lower_handlers := by
    intro _ _ src h
    rw [← Option.some.inj h]
  lower_interfaces := by
    intro _ _ src h
    rw [← Option.some.inj h]

theorem pingPong_named {o : List (String × String)} {resolved : List (String × Bool)}
    (h : resolveSet pingPong o = some resolved) : ∀ p ∈ resolved, p.1 = sideName p.2 := by
  intro p hp
  obtain ⟨parsed, hparsed, hres⟩ := Option.bind_eq_some_iff.mp h
  obtain ⟨q, hq, heq⟩ := mem_of_mapM hres hp
  obtain rfl : q = p := Option.some.inj heq
  obtain ⟨e, -, he⟩ := mem_of_mapM hparsed hq
  obtain ⟨m, -, hm⟩ := Option.bind_eq_some_iff.mp he
  split_ifs at hm with hname
  obtain rfl := Option.some.inj hm
  simpa [pingPong, eq_comm] using hname

/-- No two of these modules handle one event, and they declare the interface alike. -/
theorem pingPong_quiet {o : List (String × String)} {resolved : List (String × Bool)}
    (h : resolveSet pingPong o = some resolved) : Quiet pingPong resolved := by
  refine ⟨fun p hp q hq hne d hd d' hd' => ?_, fun p _ q _ _ d hd d' hd' _ => ?_⟩
  · obtain rfl := List.mem_singleton.mp hd
    obtain rfl := List.mem_singleton.mp hd'
    rw [pingPong_named h p hp, pingPong_named h q hq] at hne ⊢
    cases hp2 : p.2 <;> cases hq2 : q.2 <;> rw [hp2, hq2] at hne <;> first | exact absurd rfl hne | decide
  · rw [List.mem_singleton.mp hd, List.mem_singleton.mp hd']

/-- One module has one order, and the run of two quiet modules is the same in both: it finds the handlers of both
events. -/
theorem order_independence_quiet : OrderIndependent emptyModules ["module a;"] ∧
    ExecIndependent pingPong ["module ping;", "module pong;"] ∧
    executeMain pingPong "pong" [("ping", "module ping;"), ("pong", "module pong;")] =
      some [("pong", 0), ("ping", 0)] := by
  have hfit : ∀ o, Enumerates emptyModules ["module a;"] o → ∀ e ∈ o, Artifact.FitsStr e.1 := by
    intro o ho e he
    have hmem := (ho.perm enumerates_empty_module).mem_iff.mp he
    obtain rfl := List.mem_singleton.mp hmem
    unfold Artifact.FitsStr Artifact.FitsU32
    decide
  have hfit' : ∀ o, Enumerates pingPong ["module ping;", "module pong;"] o → ∀ e ∈ o, Artifact.FitsStr e.1 := by
    intro o ho e he
    have hlisted : Enumerates pingPong ["module ping;", "module pong;"]
        [("ping", "module ping;"), ("pong", "module pong;")] := ⟨_, _, .refl _, rfl, .refl _⟩
    have hmem := (ho.perm hlisted).mem_iff.mp he
    unfold Artifact.FitsStr Artifact.FitsU32
    rcases List.mem_cons.mp hmem with rfl | hmem
    · decide
    · obtain rfl := List.mem_singleton.mp hmem
      decide
  have hacc : Accepted emptyModules ["module a;"] := ⟨_, _, enumerates_empty_module, rfl⟩
  exact ⟨((order_independence emptyModules _ hfit).1 hacc).mpr (by decide),
    (order_independence pingPong _ hfit').2 fun o resolved _ h => pingPong_quiet h, by decide +kernel⟩

/-- The two orders of two empty modules make different artifacts. -/
theorem two_modules_two_artifacts : ¬ OrderIndependent emptyModules ["module a;", "module b;"] := by
  rintro ⟨hcomp, -⟩
  have heq := hcomp _ _ enumerates_empty_modules (enumerates_empty_modules.of_perm (.swap _ _ _))
  have hbytes := congrArg (Option.map Artifact.bytes) heq
  revert hbytes
  decide +kernel

end Rend.Link
