import Rend.Typeck.Canonical

/-!
# Resolution of bodies

The annotations of a resolved body are those of the body, filled where resolution goes and the same elsewhere
(`tagged_stmts`). A function, a state, an import and a constant follow.
-/

namespace Rend.Typeck

open Ast Lib

/-- What resolution does to an annotation. -/
def visit (σ : Filling) (l : Bool × Ty) : Bool × Ty := (l.1, if l.1 then fillAt σ .walked l.2 else l.2)

@[simp] theorem map_visit_hidden (σ : Filling) (ts : List Ty) : (hidden ts).map (visit σ) = hidden ts := by
  simp [hidden, visit]

/-- The tables have something for each name that resolution goes to. -/
def Known (T : Tables) (t : Ty) : Prop := ∀ r ∈ mentions t, r.2 ≠ .buried → (T.value r.1).isSome = true

/-- The annotations of a part, and those of what it is resolved to. -/
structure Visited (T : Tables) (ls ls' : List (Bool × Ty)) : Prop where
  eq : ls' = ls.map (visit (tablesFilling T))
  known : ∀ l ∈ ls, l.1 = true → Known T l.2

namespace Visited

variable {T : Tables} {ls ls' ks ks' : List (Bool × Ty)}

theorem hidden (T : Tables) (ts : List Ty) : Visited T (hidden ts) (hidden ts) := by
  refine ⟨(map_visit_hidden _ ts).symm, fun l hl htrue => ?_⟩
  obtain ⟨t, _, rfl⟩ := List.mem_map.mp hl
  cases htrue

theorem append (hl : Visited T ls ls') (hk : Visited T ks ks') : Visited T (ls ++ ks) (ls' ++ ks') :=
  ⟨by rw [hl.eq, hk.eq, List.map_append], List.forall_mem_append.mpr ⟨hl.known, hk.known⟩⟩

end Visited

mutual

theorem tagged_stmts {T : Tables} : ∀ {stmts stmts' : List Stmt}, (∀ l ∈ taggedStmts stmts, Raw l.2) →
    resolveStmts T stmts = .ok stmts' → Visited T (taggedStmts stmts) (taggedStmts stmts')
  | [], _, _, h => by
    cases h
    exact Visited.hidden T []
  | s :: stmts, _, hraw, h => by
    obtain ⟨hs, hstmts⟩ := List.forall_mem_append.mp hraw
    obtain ⟨s', hs', h⟩ := bind_ok h
    obtain ⟨stmts', hstmts', h⟩ := bind_ok h
    cases h
    exact (tagged_stmt hs hs').append (tagged_stmts hstmts hstmts')

theorem tagged_stmt {T : Tables} : ∀ {s s' : Stmt}, (∀ l ∈ taggedStmt s, Raw l.2) →
    resolveStmt T s = .ok s' → Visited T (taggedStmt s) (taggedStmt s')
  | .letVar _ (some ty) value, _, hraw, h => by
    obtain ⟨ty', hty, h⟩ := bind_ok h
    cases h
    obtain ⟨rfl, hsome⟩ := resolveOneWithEnums_ok (show Reach.walked ≠ .buried by simp)
      (hraw (true, ty) List.mem_cons_self) hty
    have hhead : Visited T [(true, ty)] [(true, fillAt (tablesFilling T) .walked ty)] := by
      refine ⟨rfl, fun l hl _ => ?_⟩
      rw [List.mem_singleton.mp hl]
      exact hsome
    exact hhead.append (Visited.hidden T (letsExpr value))
  | .ifStmt s, _, hraw, h => by
    obtain ⟨s', hs', h⟩ := bind_ok h
    cases h
    exact tagged_if hraw hs'
  | .whileLoop cond (.mk stmts tail), _, hraw, h => by
    obtain ⟨stmts', hstmts', h⟩ := bind_ok h
    cases h
    have hstmts := (List.forall_mem_append.mp (List.forall_mem_append.mp hraw).1).2
    exact ((Visited.hidden T _).append (tagged_stmts hstmts hstmts')).append (Visited.hidden T _)
  | .forLoop _ iter limit (.mk stmts tail), _, hraw, h => by
    obtain ⟨stmts', hstmts', h⟩ := bind_ok h
    cases h
    have hstmts := (List.forall_mem_append.mp (List.forall_mem_append.mp hraw).1).2
    exact ((Visited.hidden T _).append (tagged_stmts hstmts hstmts')).append (Visited.hidden T _)
  | .forRange _ start finish _ (.mk stmts tail), _, hraw, h => by
    obtain ⟨stmts', hstmts', h⟩ := bind_ok h
    cases h
    have hstmts := (List.forall_mem_append.mp (List.forall_mem_append.mp hraw).1).2
    exact ((Visited.hidden T _).append (tagged_stmts hstmts hstmts')).append (Visited.hidden T _)
  -- The other forms are left as they are, with what they have inside.
  | .letVar _ none _, _, _, h | .assign _ _, _, _, h | .ret _, _, _, h | .expr _, _, _, h | .parallel _, _, _, h
  | .parallelForTo _ _ _ _ _, _, _, h | .emit _, _, _, h | .delete _, _, _, h | .letTuple _ _, _, _, h
  | .breakStmt, _, _, h | .continueStmt, _, _, h | .placeholder, _, _, h => by
    cases h
    exact Visited.hidden T _

theorem tagged_if {T : Tables} : ∀ {s s' : IfStmt}, (∀ l ∈ taggedIf s, Raw l.2) →
    resolveIf T s = .ok s' → Visited T (taggedIf s) (taggedIf s')
  | .mk cond (.mk stmts tail) orElse, _, hraw, h => by
    obtain ⟨stmts', hstmts', h⟩ := bind_ok h
    obtain ⟨orElse', horElse', h⟩ := bind_ok h
    cases h
    obtain ⟨hbody, horElse⟩ := List.forall_mem_append.mp hraw
    have hstmts := (List.forall_mem_append.mp (List.forall_mem_append.mp hbody).1).2
    exact (((Visited.hidden T _).append (tagged_stmts hstmts hstmts')).append (Visited.hidden T _)).append
      (tagged_else horElse horElse')

theorem tagged_else {T : Tables} : ∀ {e e' : ElseBranch}, (∀ l ∈ taggedElse e, Raw l.2) →
    resolveElse T e = .ok e' → Visited T (taggedElse e) (taggedElse e')
  | .none, _, _, h => by
    cases h
    exact Visited.hidden T []
  | .block (.mk stmts tail), _, hraw, h => by
    obtain ⟨stmts', hstmts', h⟩ := bind_ok h
    cases h
    exact (tagged_stmts (List.forall_mem_append.mp hraw).1 hstmts').append (Visited.hidden T _)
  | .elseIf inner, _, hraw, h => by
    obtain ⟨inner', hinner', h⟩ := bind_ok h
    cases h
    exact tagged_if hraw hinner'

end

/-! ### Lists of types -/

theorem rawAll_iff {ts : List Ty} : RawAll ts ↔ ∀ t ∈ ts, Raw t := by
  induction ts with
  | nil => simp [RawAll]
  | cons t ts ih => rw [RawAll, ih, List.forall_mem_cons]

theorem fillAllAt_eq (σ : Filling) (reach : Reach) (ts : List Ty) : fillAllAt σ reach ts = ts.map (fillAt σ reach) := by
  induction ts with
  | nil => rfl
  | cons t ts ih => rw [fillAllAt, ih, List.map_cons]

theorem mentionsAllAt_eq (reach : Reach) (ts : List Ty) : mentionsAllAt reach ts = ts.flatMap (mentionsAt reach) := by
  induction ts with
  | nil => rfl
  | cons t ts ih => rw [mentionsAllAt, ih, List.flatMap_cons]

/-- Types, and what they are resolved to. -/
structure Full (T : Tables) (ts ts' : List Ty) : Prop where
  eq : ts' = ts.map (fillAt (tablesFilling T) .walked)
  known : ∀ t ∈ ts, Known T t

namespace Full

variable {T : Tables} {ts ts' us us' : List Ty}

theorem append (ht : Full T ts ts') (hu : Full T us us') : Full T (ts ++ us) (ts' ++ us') :=
  ⟨by rw [ht.eq, hu.eq, List.map_append], List.forall_mem_append.mpr ⟨ht.known, hu.known⟩⟩

theorem flatMap {α : Type} {resolve : α → Except String α} {types : α → List Ty} {as as' : List α}
    (hone : ∀ a ∈ as, ∀ a', resolve a = .ok a' → Full T (types a) (types a')) (h : as.mapM resolve = .ok as') :
    Full T (as.flatMap types) (as'.flatMap types) := by
  refine ⟨?_, fun t ht => ?_⟩
  · have hmap : as'.map types = as.map fun a => (types a).map (fillAt (tablesFilling T) .walked) :=
      map_of_mapM_ok (fun a ha a' ha' => (hone a ha a' ha').eq) h
    rw [List.flatMap_def, hmap, List.map_flatMap, List.flatMap_def]
  · obtain ⟨a, ha, ht⟩ := List.mem_flatMap.mp ht
    obtain ⟨a', ha'⟩ := exists_of_mapM_ok h ha
    exact (hone a ha a' ha').known t ht

theorem one {t t' : Ty} (ht : Raw t) (h : resolveOneWithEnums T t = .ok t') : Full T [t] [t'] := by
  obtain ⟨rfl, hknown⟩ := resolveOneWithEnums_ok (show Reach.walked ≠ .buried by simp) ht h
  refine ⟨rfl, fun u hu => ?_⟩
  rw [List.mem_singleton.mp hu]
  exact hknown

theorem all (ht : ∀ t ∈ ts, Raw t) (h : resolveOnesWithEnums T ts = .ok ts') : Full T ts ts' := by
  obtain ⟨rfl, hknown⟩ := resolveOnesWithEnums_ok (show Reach.walked ≠ .buried by simp) (rawAll_iff.mpr ht) h
  refine ⟨fillAllAt_eq _ _ _, fun t ht r hr => hknown r ?_⟩
  rw [mentionsAllAt_eq]
  exact List.mem_flatMap_of_mem ht hr

end Full

/-! ### Functions and the other declarations without content -/

/-- The types of a function that resolution goes to. -/
def fnTypes (f : FnDef) : List Ty := f.params.map Ast.Param.ty ++ [f.returnType] ++ lets true f

def importTypes (i : Import) : List Ty := i.params ++ [i.returnType]

theorem params_full {T : Tables} {params params' : List Ast.Param} (hraw : ∀ t ∈ params.map Ast.Param.ty, Raw t)
    (h : resolveParams T params = .ok params') : Full T (params.map Ast.Param.ty) (params'.map Ast.Param.ty) := by
  have hone : ∀ p ∈ params, ∀ p', (do let ty ← resolveOneWithEnums T p.ty; .ok { p with ty := ty }) = .ok p' →
      Full T [p.ty] [p'.ty] := by
    intro p hp p' h
    obtain ⟨ty, hty, h⟩ := bind_ok h
    cases h
    exact Full.one (hraw _ (List.mem_map_of_mem hp)) hty
  rw [List.map_eq_flatMap, List.map_eq_flatMap]
  exact Full.flatMap hone h

/-- The annotations of a function, with those of its tail. -/
def tagged (f : FnDef) : List (Bool × Ty) := taggedStmts f.body.stmts ++ hidden (letsOption f.body.tail)

theorem mem_tagged {f : FnDef} {l : Bool × Ty} (hl : l ∈ tagged f) : l.2 ∈ lets l.1 f := by
  refine List.mem_filterMap.mpr ⟨l, hl, ?_⟩
  rw [if_pos rfl]

theorem lets_of_visited {T : Tables} {f f' : FnDef} (h : Visited T (tagged f) (tagged f')) :
    Full T (lets true f) (lets true f') ∧ lets false f' = lets false f := by
  have heq : taggedStmts f'.body.stmts ++ hidden (letsOption f'.body.tail) =
    (taggedStmts f.body.stmts ++ hidden (letsOption f.body.tail)).map (visit (tablesFilling T)) := h.eq
  refine ⟨⟨?_, fun t ht => ?_⟩, ?_⟩
  · rw [lets, heq, lets, List.filterMap_map, List.map_filterMap]
    congr 1
    funext l
    obtain ⟨visited, t⟩ := l
    cases visited <;> rfl
  · obtain ⟨l, hl, ht⟩ := List.mem_filterMap.mp ht
    split_ifs at ht with htrue
    cases ht
    exact h.known l hl htrue
  · rw [lets, heq, lets, List.filterMap_map]
    congr 1
    funext l
    obtain ⟨visited, t⟩ := l
    cases visited <;> rfl

theorem fn_full {T : Tables} {f f' : FnDef} (hraw : ∀ t ∈ fnTypes f, Raw t) (hhidden : ∀ t ∈ lets false f, Raw t)
    (h : resolveFn T f = .ok f') : Full T (fnTypes f) (fnTypes f') ∧ lets false f' = lets false f := by
  obtain ⟨hsig, hlets⟩ := List.forall_mem_append.mp hraw
  obtain ⟨hparams, hreturn⟩ := List.forall_mem_append.mp hsig
  obtain ⟨params', hparams', h⟩ := bind_ok h
  obtain ⟨returnType', hreturn', h⟩ := bind_ok h
  obtain ⟨stmts', hstmts', h⟩ := bind_ok h
  cases h
  have htagged : ∀ l ∈ tagged f, Raw l.2 := by
    intro l hl
    have hmem := mem_tagged hl
    cases hvisited : l.1 <;> rw [hvisited] at hmem
    · exact hhidden _ hmem
    · exact hlets _ hmem
  have hvisited : Visited T (tagged f)
      (tagged { f with params := params', returnType := returnType', body := .mk stmts' f.body.tail }) :=
    (tagged_stmts (List.forall_mem_append.mp htagged).1 hstmts').append (Visited.hidden T (letsOption f.body.tail))
  obtain ⟨hfull, hsame⟩ := lets_of_visited hvisited
  exact ⟨((params_full hparams hparams').append (Full.one (hreturn _ List.mem_cons_self) hreturn')).append hfull, hsame⟩

theorem import_full {T : Tables} {i i' : Import} (hraw : ∀ t ∈ importTypes i, Raw t) (h : resolveImport T i = .ok i') :
    Full T (importTypes i) (importTypes i') := by
  obtain ⟨hparams, hreturn⟩ := List.forall_mem_append.mp hraw
  obtain ⟨params', hparams', h⟩ := bind_ok h
  obtain ⟨returnType', hreturn', h⟩ := bind_ok h
  cases h
  exact (Full.all hparams hparams').append (Full.one (hreturn _ List.mem_cons_self) hreturn')

theorem state_full {T : Tables} {s s' : StateDecl} (hraw : Raw s.ty) (h : resolveState T s = .ok s') :
    Full T [s.ty] [s'.ty] := by
  obtain ⟨ty', hty', h⟩ := bind_ok h
  cases h
  exact Full.one hraw hty'

theorem const_full {T : Tables} {c c' : ConstDecl} (hraw : Raw c.ty) (h : resolveConst T c = .ok c') :
    Full T [c.ty] [c'.ty] ∧ c'.value = c.value := by
  obtain ⟨ty', hty', h⟩ := bind_ok h
  cases h
  exact ⟨Full.one hraw hty', rfl⟩

end Rend.Typeck
