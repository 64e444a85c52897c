import Rend.Structs.Stores

/-!
# Struct states are coherent

A struct state is read and written as a whole, and field by field along paths. Both reach the same
cells: every read gives what the same reads and writes give on a struct in memory, whenever it is forced
(`run_coherent`), for every type whose names stand for one thing each.

Nothing in the front end asks for such names: where a field that has a cell of its own is named as a
group, both are stored in one cell (`field_named_as_group`).
-/

namespace Rend.Structs

open Lib Tx

attribute [local irreducible] child

variable {Γ : U128 → Ty} {N : Set U128} {root : U128} {T : Ty} {tx tx' : Tx} {mem : Value}

/-! ### The accesses of a state -/

/-- Reads a path: the cell it leads to, and the fields of its blob. -/
def readPath (root : U128) (T : Ty) (path : List String) (tx : Tx) : Option (Tx × Value) :=
  (internPath root T path).bind fun p =>
    if p.2.2 = [] then some (tx.readState p.1 p.2.1)
    else getChain (tx.readCell p.1 p.2.1).1 p.2.2 (tx.readCell p.1 p.2.1).2

/-- Assigns a register to a path: a typed write of the cells it leads to, or the blob read, changed and
written. -/
def writePath (root : U128) (T : Ty) (path : List String) (a : Value) (tx : Tx) : Option Tx :=
  (internPath root T path).bind fun p =>
    if p.2.2 = [] then some (tx.writeTyped p.1 p.2.1 a)
    else (setChain (tx.readCell p.1 p.2.1).1 p.2.2 (tx.readCell p.1 p.2.1).2 a).map fun s => s.1.write p.1 s.2

/-- An access of a state. A write has the register that is written, and the value it stands for. -/
inductive Access
  | write (a v : Value)
  | writePath (path : List String) (a v : Value)
  | read
  | readPath (path : List String)
  /-- Some register is forced. -/
  | force (a : Value)

/-- An access of the store, with the register of a read. -/
def Access.store (root : U128) (T : Ty) (tx : Tx) : Access → Option (Tx × List Value)
  | .write a _ => some (tx.writeTyped root T a, [])
  | .writePath path a _ => (Structs.writePath root T path a tx).map fun tx => (tx, [])
  | .read => some ((tx.readState root T).1, [(tx.readState root T).2])
  | .readPath path => (Structs.readPath root T path tx).map fun r => (r.1, [r.2])
  | .force a => some ((tx.force a).1, [])

/-- The same access of a struct in memory. -/
def Access.memory (mem : Value) : Access → Option (Value × List Value)
  | .write _ v => some (v, [])
  | .writePath path _ v => (setPath path mem v).map fun mem => (mem, [])
  | .read => some (mem, [mem])
  | .readPath path => (getPath path mem).map fun v => (mem, [v])
  | .force _ => some (mem, [])

/-- The accesses of a state one after the other, with the registers of the reads; an error ends them. -/
def runStore (root : U128) (T : Ty) : List Access → Tx → Option (Tx × List Value)
  | [], tx => some (tx, [])
  | o :: os, tx => (o.store root T tx).bind fun s => (runStore root T os s.1).map fun r => (r.1, s.2 ++ r.2)

def runMemory : List Access → Value → Option (Value × List Value)
  | [], mem => some (mem, [])
  | o :: os, mem => (o.memory mem).bind fun s => (runMemory os s.1).map fun r => (r.1, s.2 ++ r.2)

/-! ### Registers that are written -/

/-- A register stands for a value: it gives it whenever it is forced. -/
def Stands (Γ : U128 → Ty) (N : Set U128) (tx : Tx) (a v : Value) : Prop :=
  containsPending v = false ∧ ∀ tx', Observes Γ N tx tx' → (tx'.force a).2 = v

theorem stands_of_yields {a v : Value} (hv : containsPending v = false) (h : Yields tx a v) : Stands Γ N tx a v :=
  ⟨hv, fun _ hobs => (hobs.yields a v h).force hobs.fresh⟩

/-- A path is one of the type, as type checking promises. A register that is written stands for a value of the
type there, which is more than that: forcing it gives this value from now on, without a handle that `force`
sees. -/
def Access.Legal (Γ : U128 → Ty) (N : Set U128) (root : U128) (T : Ty) (tx : Tx) : Access → Prop
  | .write a v => Stands Γ N tx a v ∧ Shaped T v
  | .writePath path a v => Stands Γ N tx a v ∧
      ∃ key ty chain, internPath root T path = some (key, ty, chain) ∧ (chain = [] → Shaped ty v)
  | .readPath path => ∃ key ty chain, internPath root T path = some (key, ty, chain)
  | .read => True
  | .force _ => True

def LegalRun (Γ : U128 → Ty) (N : Set U128) (root : U128) (T : Ty) : List Access → Tx → Prop
  | [], _ => True
  | o :: os, tx => o.Legal Γ N root T tx ∧ ∀ s, o.store root T tx = some s → LegalRun Γ N root T os s.1

/-! ### One access -/

/-- How a type is laid out at a state: each leaf at its type, in a cell of its own, and no leaf is a
node. -/
structure StateLaid (Γ : U128 → Ty) (N : Set U128) (root : U128) (T : Ty) : Prop where
  node : ∀ c ∈ N, Γ c = .bytes
  leaf : ∀ l ∈ leafPaths T, l.2 = Γ (pathCell root l.1) ∧ pathCell root l.1 ∉ N
  apart : CellsApart root T

/-- The state holds the value in memory. -/
structure Holds (Γ : U128 → Ty) (N : Set U128) (root : U128) (T : Ty) (tx : Tx) (mem : Value) : Prop where
  laid : Laid Γ N tx
  fresh : tx.Fresh
  stores : Stores (laidValue Γ tx) root T mem

theorem Holds.observes (h : Holds Γ N root T tx mem) (hobs : Observes Γ N tx tx') : Holds Γ N root T tx' mem :=
  ⟨hobs.laid, hobs.fresh, hobs.value ▸ h.stores⟩

theorem StateLaid.slot (h : StateLaid Γ N root T) {path chain : List String} {key : U128} {ty : Ty}
    (hi : internPath root T path = some (key, ty, chain)) :
    ∀ l ∈ slotLeaves key ty chain, l.2 = Γ l.1 ∧ l.1 ∉ N := by
  intro l hl
  obtain ⟨p, hp, rfl⟩ := slotLeaves_subset hi l hl
  exact h.leaf p hp

theorem laidAt_of_leafPaths {key : U128} {ty : Ty} (h : ∀ l ∈ (leafPaths ty).map (cellAt key), l.2 = Γ l.1) :
    LaidAt Γ key ty := by
  intro l hl
  rw [collectLeaves_paths, List.nil_append] at hl
  exact h l hl

/-- What a read finds at the end of a path. -/
theorem slot_yields (hl : StateLaid Γ N root T) (h : Holds Γ N root T tx mem) {path chain : List String} {key : U128}
    {ty : Ty} (hi : internPath root T path = some (key, ty, chain)) {b : Value}
    (hb : Slot (laidValue Γ tx) key ty chain b) :
    let r := if chain = [] then tx.readState key ty else tx.readCell key ty
    Observes Γ N tx r.1 ∧ Yields r.1 r.2 b ∧ containsPending b = false := by
  have hslot := hl.slot hi
  unfold Slot at hb
  unfold slotLeaves at hslot
  split_ifs with hchain
  · rw [if_pos hchain] at hb hslot
    obtain ⟨hobs, hy⟩ := readState_yields h.laid h.fresh key ty (laidAt_of_leafPaths fun l hl => (hslot l hl).1)
    have hstored : stored Γ tx key ty = b := hb.assemble
    rw [hstored] at hy
    exact ⟨hobs, hy, hstored ▸ not_pending_assemble (fun c _ => h.laid.clean c) key ty⟩
  · rw [if_neg hchain] at hb hslot
    obtain ⟨hty, -⟩ := hslot _ List.mem_cons_self
    dsimp only at hty
    rw [hty]
    subst hb
    obtain ⟨hobs, hy⟩ := readCell_yields h.laid h.fresh key
    exact ⟨hobs, hy, h.laid.clean key⟩

/-- **A path read** is the path of the struct in memory. -/
theorem readPath_coherent (hp : Proper T) (hl : StateLaid Γ N root T) (h : Holds Γ N root T tx mem)
    {path chain : List String} {key : U128} {ty : Ty} (hi : internPath root T path = some (key, ty, chain)) :
    Option.Rel (fun r v => Observes Γ N tx r.1 ∧ Yields r.1 r.2 v) (readPath root T path tx) (getPath path mem) := by
  obtain ⟨b, hb, hget⟩ := stores_get hp h.stores hi
  obtain ⟨hobs, hy, hclean⟩ := slot_yields hl h hi hb
  unfold readPath
  rw [hi, hget, Option.bind_some]
  dsimp only
  split_ifs at hobs hy ⊢ with hchain
  · subst hchain
    exact .some ⟨hobs, hy⟩
  · rw [getChain_eq hobs.laid hobs.fresh hl.node hy hclean hchain]
    cases hu : getPath chain b with
    | none => exact .none
    | some u =>
      obtain ⟨hspine, -⟩ := forceSpine_yields hobs.laid hobs.fresh hl.node hy
      exact .some ⟨hobs.trans hspine, .inl ⟨rfl, not_pending_getPath hclean hu⟩⟩

theorem write_force {a : Value} (hv : containsPending (tx.force a).2 = false) (c : U128) :
    tx.write c a = (tx.force a).1.write c (tx.force a).2 := by
  rw [write_of_not_pending hv]
  rfl

/-- **An assignment to a path** is the assignment in memory. -/
theorem writePath_coherent (hp : Proper T) (hl : StateLaid Γ N root T) (h : Holds Γ N root T tx mem)
    {path chain : List String} {key : U128} {ty : Ty} (hi : internPath root T path = some (key, ty, chain))
    {a v : Value} (ha : Stands Γ N tx a v) (hs : chain = [] → Shaped ty v) :
    Option.Rel (fun tx' mem' => Holds Γ N root T tx' mem' ∧ ∀ a u, Yields tx a u → Yields tx' a u)
      (writePath root T path a tx) (setPath path mem v) := by
  obtain ⟨b, hb, hget⟩ := stores_get hp h.stores hi
  obtain ⟨hobs, hy, hclean⟩ := slot_yields hl h hi hb
  have hslot := hl.slot hi
  unfold writePath
  rw [hi, Option.bind_some]
  dsimp only
  by_cases hchain : chain = []
  · -- the cells of a type, written leaf by leaf
    subst hchain
    have hforce := ha.2 tx (.refl h.laid h.fresh)
    have hforced := observes_force h.laid h.fresh hl.node a
    obtain ⟨hproper, hapart⟩ := internPath_proper hp hl.apart hi
    obtain ⟨hchange, hstores⟩ := writeTyped_stores hforced.laid hforced.fresh hproper hapart
      (fun l hl' => (hslot (cellAt key l) (List.mem_map_of_mem hl')).2) ha.1 (hs rfl)
    rw [if_pos rfl, writeTyped_force (by rw [hforce]; exact ha.1), hforce]
    obtain ⟨mem', hset, hmem'⟩ := stores_set hp hl.apart h.stores hi hb (w := v) rfl
      (by rw [Slot, if_pos rfl]; exact hstores) fun c hc => by
        rw [hchange.frame c ?_, hforced.value]
        rintro ⟨l, hl', rfl⟩
        exact hc (cellAt key l) (List.mem_map_of_mem hl') rfl
    rw [hset]
    exact .some ⟨⟨hchange.laid, hchange.fresh, hmem'⟩, fun a u hu => hchange.yields a u (hforced.yields a u hu)⟩
  · -- a blob, read, changed and written
    rw [if_neg hchain] at hobs hy ⊢
    rw [setChain_eq hobs.laid hobs.fresh hl.node hy hclean hchain]
    cases hset : setPath chain b a with
    | none =>
      have hsome := setPath_isSome path mem v
      rw [hget, ← setPath_isSome chain b a, hset] at hsome
      have hnone : setPath path mem v = none :=
        Option.not_isSome_iff_eq_none.mp (by rw [hsome]; exact Bool.false_ne_true)
      rw [hnone]
      exact .none
    | some b' =>
      obtain ⟨hspine, -⟩ := forceSpine_yields hobs.laid hobs.fresh hl.node hy
      have hbefore := hobs.trans hspine
      generalize (forceSpine (tx.readCell key ty).1 (tx.readCell key ty).2).1 = tx₁ at hbefore ⊢
      have hforced := observes_force hbefore.laid hbefore.fresh hl.node b'
      have hset' := @force_setPath tx₁ chain b b' a hclean hset
      rw [ha.2 tx₁ hbefore] at hset'
      have hb' : containsPending (tx₁.force b').2 = false := (setPath_pending hclean hset').1.trans ha.1
      rw [slotLeaves, if_neg hchain] at hslot
      have hchange := changes_write hforced.laid hforced.fresh (hslot _ List.mem_cons_self).2 hb'
      have hblob : Slot (laidValue Γ ((tx₁.force b').1.write key (tx₁.force b').2)) key ty chain (tx₁.force b').2 := by
        rw [Slot, if_neg hchain, laidValue_write hb', if_pos rfl]
      obtain ⟨mem', hmem, hmem'⟩ := stores_set hp hl.apart h.stores hi hb hset' hblob fun c hc => by
          rw [slotLeaves, if_neg hchain] at hc
          rw [hchange.frame c fun hc' => hc _ List.mem_cons_self hc'.symm, hforced.value, hbefore.value]
      rw [hmem, Option.map_some, Option.map_some, write_force hb']
      exact .some ⟨⟨hchange.laid, hchange.fresh, hmem'⟩,
        fun a u hu => hchange.yields a u (hforced.yields a u (hbefore.yields a u hu))⟩

/-- **One access** of the state and of the struct in memory: both fail, or the state holds what memory
does, and the register of a read yields what memory gives. -/
theorem access_coherent (hp : Proper T) (hl : StateLaid Γ N root T) (h : Holds Γ N root T tx mem) (o : Access)
    (ho : o.Legal Γ N root T tx) :
    Option.Rel (fun s m => Holds Γ N root T s.1 m.1 ∧ (∀ a u, Yields tx a u → Yields s.1 a u) ∧
      List.Forall₂ (Yields s.1) s.2 m.2) (o.store root T tx) (o.memory mem) := by
  cases o with
  | write a v =>
    obtain ⟨hstands, hshaped⟩ := ho
    have hwhole := writePath_coherent hp hl h (internPath_nil root T) hstands fun _ => hshaped
    rw [writePath, internPath_nil, Option.bind_some, if_pos rfl, setPath] at hwhole
    obtain ⟨hholds, hyields⟩ := Option.rel_some_some.mp hwhole
    exact .some ⟨hholds, hyields, .nil⟩
  | writePath path a v =>
    obtain ⟨hstands, key, ty, chain, hi, hshaped⟩ := ho
    have hpath := writePath_coherent hp hl h hi hstands hshaped
    rw [Access.store, Access.memory]
    cases hs : writePath root T path a tx <;> cases hm : setPath path mem v <;> rw [hs, hm] at hpath <;> cases hpath
    · exact .none
    · next hrel => exact .some ⟨hrel.1, hrel.2, .nil⟩
  | read =>
    have hwhole := readPath_coherent hp hl h (internPath_nil root T)
    rw [readPath, internPath_nil, Option.bind_some, if_pos rfl, getPath] at hwhole
    obtain ⟨hobs, hy⟩ := Option.rel_some_some.mp hwhole
    exact .some ⟨h.observes hobs, hobs.yields, .cons hy .nil⟩
  | readPath path =>
    obtain ⟨key, ty, chain, hi⟩ := ho
    have hpath := readPath_coherent hp hl h hi
    rw [Access.store, Access.memory]
    cases hs : readPath root T path tx <;> cases hm : getPath path mem <;> rw [hs, hm] at hpath <;> cases hpath
    · exact .none
    · next hrel => exact .some ⟨h.observes hrel.1, hrel.1.yields, .cons hrel.2 .nil⟩
  | force a =>
    have hobs := observes_force h.laid h.fresh hl.node a
    exact .some ⟨h.observes hobs, hobs.yields, .nil⟩

/-! ### Runs -/

/-- Any accesses, with the registers of all their reads. -/
theorem run_holds (hp : Proper T) (hl : StateLaid Γ N root T) (os : List Access) (h : Holds Γ N root T tx mem)
    (hos : LegalRun Γ N root T os tx) :
    Option.Rel (fun s m => Holds Γ N root T s.1 m.1 ∧ (∀ a u, Yields tx a u → Yields s.1 a u) ∧
      List.Forall₂ (Yields s.1) s.2 m.2) (runStore root T os tx) (runMemory os mem) := by
  induction os generalizing tx mem with
  | nil => exact .some ⟨h, fun _ _ hy => hy, .nil⟩
  | cons o os ih =>
    obtain ⟨ho, hos⟩ := hos
    have hstep := access_coherent hp hl h o ho
    rw [runStore, runMemory]
    cases hs : o.store root T tx <;> cases hm : o.memory mem <;> rw [hs, hm] at hstep <;> cases hstep
    · exact .none
    next s m hrel =>
      obtain ⟨hholds, hkeep, hreads⟩ := hrel
      have hrest := ih hholds (hos s hs)
      rw [Option.bind_some, Option.bind_some]
      cases hr : runStore root T os s.1 <;> cases hn : runMemory os m.1 <;> rw [hr, hn] at hrest <;> cases hrest
      · exact .none
      next r n hrel =>
        obtain ⟨hholds', hkeep', hreads'⟩ := hrel
        exact .some ⟨hholds', fun a u hy => hkeep' a u (hkeep a u hy),
          List.rel_append (hreads.imp fun a u hy => hkeep' a u hy) hreads'⟩

/-- An assignment to a path changes no other path of the state. -/
theorem writePath_frame (hp : Proper T) (hl : StateLaid Γ N root T) (h : Holds Γ N root T tx mem) {p q : List String}
    {a v : Value} (hlegal : (Access.writePath p a v).Legal Γ N root T tx)
    (hq : (Access.readPath q).Legal Γ N root T tx) (hpq : ¬ p <+: q) (hqp : ¬ q <+: p)
    (hwrite : writePath root T p a tx = some tx') :
    (readPath root T q tx').map (fun r => (r.1.force r.2).2) = (readPath root T q tx).map fun r => (r.1.force r.2).2 := by
  have hforced : ∀ {t : Tx} {m : Value}, Holds Γ N root T t m →
      (readPath root T q t).map (fun r => (r.1.force r.2).2) = getPath q m := by
    intro t m ht
    obtain ⟨key, ty, chain, hi⟩ := hq
    have hread := readPath_coherent hp hl ht hi
    cases hr : readPath root T q t <;> cases hg : getPath q m <;> rw [hr, hg] at hread <;> cases hread
    · rfl
    next hrel => exact congrArg some (hrel.2.force hrel.1.fresh)
  obtain ⟨hstands, key, ty, chain, hi, hshaped⟩ := hlegal
  have hset := writePath_coherent hp hl h hi hstands hshaped
  rw [hwrite] at hset
  cases hm : setPath p mem v with
  | none => rw [hm] at hset; cases hset
  | some mem' =>
    rw [hm] at hset
    rw [hforced (Option.rel_some_some.mp hset).1, hforced h, getPath_setPath hm hpq hqp]

/-- **A struct state is coherent across granularities**, if the names of its type stand for one thing
each: whatever is written, assigned to and read, the reads give what they give on a struct in memory, and
the state holds what memory does; and an assignment to a field changes no other field. -/
theorem run_coherent (hp : Proper T) (hl : StateLaid Γ N root T) (h : Holds Γ N root T tx mem) :
    (∀ os, LegalRun Γ N root T os tx →
      Option.Rel (fun s m => Stores (laidValue Γ s.1) root T m.1 ∧
        List.Forall₂ (fun a v => (s.1.force a).2 = v) s.2 m.2) (runStore root T os tx) (runMemory os mem)) ∧
    ∀ p q a v tx', (Access.writePath p a v).Legal Γ N root T tx → (Access.readPath q).Legal Γ N root T tx →
      ¬ p <+: q → ¬ q <+: p → writePath root T p a tx = some tx' →
      (readPath root T q tx').map (fun r => (r.1.force r.2).2) =
        (readPath root T q tx).map fun r => (r.1.force r.2).2 := by
  refine ⟨fun os hos => ?_, fun p q a v tx' hlegal hq hpq hqp hwrite =>
    writePath_frame hp hl h hlegal hq hpq hqp hwrite⟩
  have hrun := run_holds hp hl os h hos
  cases hs : runStore root T os tx <;> cases hm : runMemory os mem <;> rw [hs, hm] at hrun <;> cases hrun
  · exact .none
  next hrel => exact .some ⟨hrel.1.stores, hrel.2.2.imp fun a v hy => hy.force hrel.1.fresh⟩

/-! ### A user with a profile -/

/-- `struct User { id: i64, group profile { name: string, email: string } }`. -/
def userTy : Ty := .struct "User" [("id", .int), ("name", .string), ("email", .string)]
  [none, some "profile", some "profile"]

def user (name : String) : Value := .struct "User" [("id", .int 1), ("name", .str name), ("email", .str "a@x.com")]

/-- The layout of a state of this type with root 2. -/
def userLayout (c : U128) : Ty :=
  if c = child 2 (strBytes "profile") then
    .struct "User::group::profile" [("name", .string), ("email", .string)] []
  else .int

/-- `u = User { .. }; u.name = "bob"; u.id; u`. -/
def userAccesses : List Access :=
  [.write (user "alice") (user "alice"), .writePath ["name"] (.str "bob") (.str "bob"), .readPath ["id"], .read]

theorem user_cells : child 2 (strBytes "id") ≠ child 2 (strBytes "profile") := by
  decide +kernel

theorem user_leafPaths : leafPaths userTy =
    [(["id"], .int), (["profile"], .struct "User::group::profile" [("name", .string), ("email", .string)] [])] := by
  decide +kernel

theorem user_proper : Proper userTy := by
  refine ⟨⟨by decide, fun f f' g hf hf' hname => ?_⟩, fun _ => trivial, fun h => (by cases h), fun h => (by cases h),
    trivial⟩
  -- the only group is not named as a field
  simp only [fieldAt_cons] at hf hf'
  rcases hf with ⟨rfl, -⟩ | ⟨-, hg⟩ | ⟨-, hg⟩ | ⟨i, hi, -⟩
  · rcases hf' with ⟨-, hg⟩ | ⟨-, hg⟩ | ⟨-, hg⟩ | ⟨i, hi, -⟩
    · cases hg
    · cases hg
      exact absurd hname (by decide)
    · cases hg
      exact absurd hname (by decide)
    · cases hi
  · cases hg
  · cases hg
  · cases hi

theorem user_laid : StateLaid userLayout ∅ 2 userTy := by
  have hcells : ∀ l ∈ leafPaths userTy, l.2 = userLayout (pathCell 2 l.1) := by
    rw [user_leafPaths]
    intro l hl
    rcases List.mem_cons.mp hl with rfl | hl
    · rw [pathCell_group, userLayout, if_neg user_cells]
    · rw [List.mem_singleton.mp hl, pathCell_group, userLayout, if_pos rfl]
  refine ⟨fun c hc => hc.elim, fun l hl => ⟨hcells l hl, fun hc => hc.elim⟩, ?_⟩
  unfold CellsApart
  rw [user_leafPaths]
  intro l hl l' hl' heq
  rcases List.mem_cons.mp hl with rfl | hl <;> rcases List.mem_cons.mp hl' with rfl | hl'
  · rfl
  · rw [List.mem_singleton.mp hl', pathCell_group, pathCell_group] at heq
    exact absurd heq user_cells
  · rw [List.mem_singleton.mp hl, pathCell_group, pathCell_group] at heq
    exact absurd heq.symm user_cells
  · rw [List.mem_singleton.mp hl, List.mem_singleton.mp hl']

/-- A transaction on an empty store holds the default. -/
theorem user_holds : Holds userLayout ∅ 2 userTy (Tx.new fun _ => none)
    (.struct "User" [("id", .int 0), ("name", .str ""), ("email", .str "")]) := by
  have hvalue : ∀ c, laidValue userLayout (Tx.new fun _ => none) c = Value.defaultFor (userLayout c) := fun c => rfl
  refine ⟨⟨fun c v _ hr => ?_, fun p hp => ?_, fun w hw => ?_, fun c hc => hc.elim, fun c => ?_⟩,
    ⟨List.nodup_nil, fun i hi => by cases hi⟩, _, rfl, ?_⟩
  · cases hr
  · cases hp
  · cases hw
  · rw [hvalue]
    exact containsPending_of_handles _ (handles_defaultFor _)
  · refine ⟨_, _, rfl, ?_, _, _, rfl, ?_, _, _, rfl, ?_, rfl⟩
    · exact (hvalue _).trans (by rw [userLayout, if_neg user_cells]; rfl)
    · exact (congrArg (getField · "name") (hvalue _)).trans (by rw [userLayout, if_pos rfl]; rfl)
    · exact (congrArg (getField · "email") (hvalue _)).trans (by rw [userLayout, if_pos rfl]; rfl)

/-- A value without handles stands for itself. -/
theorem stands_self {v : Value} (hv : containsPending v = false) : Stands Γ N tx v v :=
  ⟨hv, fun tx' _ => by rw [force_eq_of_not_pending hv]⟩

theorem user_legal (tx : Tx) : LegalRun userLayout ∅ 2 userTy userAccesses tx := by
  have hname : internPath 2 userTy ["name"] = some (child 2 (strBytes "profile"),
      .struct "User::group::profile" [("name", .string), ("email", .string)] [], ["name"]) := by
    decide +kernel
  have hid : internPath 2 userTy ["id"] = some (child 2 (strBytes "id"), .int, []) := by
    decide +kernel
  refine ⟨⟨stands_self rfl, _, rfl, rfl, ?_⟩, fun _ _ => ⟨⟨stands_self rfl, _, _, _, hname, fun h => ?_⟩,
    fun _ _ => ⟨⟨_, _, _, hid⟩, fun _ _ => ⟨trivial, fun _ _ => trivial⟩⟩⟩⟩
  · exact ⟨fun _ => trivial, fun h => (by cases h), fun h => (by cases h), trivial⟩
  · cases h

/-- The accesses of a user: the whole value, a name in the group, a field of its own. -/
theorem run_coherent_user :
    Option.Rel (fun s m => Stores (laidValue userLayout s.1) 2 userTy m.1 ∧
        List.Forall₂ (fun a v => (s.1.force a).2 = v) s.2 m.2) (runStore 2 userTy userAccesses (Tx.new fun _ => none))
      (some (user "bob", [.int 1, user "bob"])) :=
  (run_coherent user_proper user_laid user_holds).1 userAccesses (user_legal _)

/-! ### A field named as a group -/

/-- `struct S { g: u64, group g { x: u64 } }`. -/
def clashTy : Ty := .struct "S" [("g", .u64), ("x", .u64)] [none, some "g"]

def clash : Value := .struct "S" [("g", .u64 1), ("x", .u64 2)]

/-- The leaves of the two are one cell. -/
theorem clash_leafPaths : leafPaths clashTy = [(["g"], .u64), (["g"], .struct "S::group::g" [("x", .u64)] [])] := by
  decide +kernel

/-- **A field named as a group reads back the blob**: `s = S { g: 1, x: 2 }; s.g` is not 1. -/
theorem field_named_as_group : CellsApart 2 clashTy ∧
    LegalRun (fun _ => .u64) ∅ 2 clashTy [.write clash clash, .readPath ["g"]] (Tx.new fun _ => none) ∧
    ¬ Option.Rel (fun s m => List.Forall₂ (fun a v => (s.1.force a).2 = v) s.2 m.2)
      (runStore 2 clashTy [.write clash clash, .readPath ["g"]] (Tx.new fun _ => none))
      (runMemory [.write clash clash, .readPath ["g"]] clash) := by
  have hg : internPath 2 clashTy ["g"] = some (child 2 (strBytes "g"), .u64, []) := by
    decide +kernel
  refine ⟨?_, ⟨⟨stands_self rfl, _, rfl, rfl, fun _ => trivial, fun h => (by cases h), trivial⟩,
    fun _ _ => ⟨⟨_, _, _, hg⟩, fun _ _ => trivial⟩⟩, fun hrel => ?_⟩
  · unfold CellsApart
    rw [clash_leafPaths]
    intro l hl l' hl' _
    simp only [List.mem_cons, List.not_mem_nil, or_false] at hl hl'
    rcases hl with rfl | rfl <;> rcases hl' with rfl | rfl <;> rfl
  · -- the blob is written over the field
    have hwritten : ((Tx.new fun _ => none).writeTyped 2 clashTy clash).writes.lookup (child 2 (strBytes "g")) =
        some (.struct "S::group::g" [("x", .u64 2)]) := AList.lookup_insert _
    have hread : readPath 2 clashTy ["g"] ((Tx.new fun _ => none).writeTyped 2 clashTy clash) =
        some ((Tx.new fun _ => none).writeTyped 2 clashTy clash, .struct "S::group::g" [("x", .u64 2)]) := by
      rw [readPath, hg, Option.bind_some, if_pos rfl]
      simp only [Tx.readState, Tx.readTyped, hwritten]
    have hstore : runStore 2 clashTy [.write clash clash, .readPath ["g"]] (Tx.new fun _ => none) =
        some ((Tx.new fun _ => none).writeTyped 2 clashTy clash, [.struct "S::group::g" [("x", .u64 2)]]) := by
      simp only [runStore, Access.store, Option.bind_some, hread, Option.map_some, List.nil_append, List.append_nil]
    rw [hstore] at hrel
    cases Option.rel_some_some.mp hrel with
    | cons hforce _ =>
      rw [force_eq_of_not_pending rfl] at hforce
      cases hforce

end Rend.Structs
