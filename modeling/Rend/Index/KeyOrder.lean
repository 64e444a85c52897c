import Rend.Index.Maintain
import Rend.Lib.ByteOrder
import Rend.Pbtree.Shape

/-!
# The order of index keys

The key of a record in an index over several fields, or over one that is descending, is the concatenation
of the fields in big-endian bytes, the sign bit of a signed one flipped and the bytes of a descending one
complemented. In a sorted map such keys stand in the order of the tuples of fields, each compared in its
declared direction.

* `keyPart_order`: one component.
* `emitIndexKey_order`: the whole key.
-/

namespace Rend.Index

open Lib Pbtree

/-! ### The order of tuples -/

/-- The number in a field. -/
def fieldNumber : Value → ℤ
  | .u32 n => n.toNat
  | .u64 n => n.toNat
  | .u128 n => n.toNat
  | .i32 n => n.toInt
  | _ => 0

/-- A value of an integer type of fixed width. -/
def IntOf : Ty → Value → Prop
  | .u32, .u32 _ => True
  | .u64, .u64 _ => True
  | .u128, .u128 _ => True
  | .i32, .i32 _ => True
  | _, _ => False

/-- One field, in its direction. -/
def compareField (d : SortDirection) (x y : Value) : Ordering :=
  match d with
  | .asc => cmp (fieldNumber x) (fieldNumber y)
  | .desc => cmp (fieldNumber y) (fieldNumber x)

/-- The fields in the order of their declaration. -/
def compareTuples : List IndexField → List Value → List Value → Ordering
  | f :: fs, x :: xs, y :: ys => (compareField f.direction x y).then (compareTuples fs xs ys)
  | _, _, _ => .eq

/-- The paths of the fields lead from a record to the values, which have the types. -/
structure Projects (v : Value) (fs : List IndexField) (tys : List Ty) (xs : List Value) : Prop where
  paths : List.Forall₂ (fun f x => fieldPath v f.path = .ok x) fs xs
  typed : List.Forall₂ IntOf tys xs

theorem IntOf.fieldNumber_inj {ty : Ty} {x y : Value} (hx : IntOf ty x) (hy : IntOf ty y)
    (h : fieldNumber x = fieldNumber y) : x = y := by
  cases ty <;> cases x <;> try exact hx.elim
  all_goals cases y <;> try exact hy.elim
  · rw [BitVec.toInt_inj.mp h]
  all_goals rw [BitVec.toNat_inj.mp (Int.ofNat.inj h)]

theorem compareField_eq {d : SortDirection} {ty : Ty} {x y : Value} (hx : IntOf ty x) (hy : IntOf ty y) :
    compareField d x y = .eq ↔ x = y := by
  refine ⟨fun h => hx.fieldNumber_inj hy ?_, ?_⟩
  · cases d with
    | asc => exact (cmp_eq_eq_iff _ _).mp h
    | desc => exact ((cmp_eq_eq_iff _ _).mp h).symm
  · rintro rfl
    cases d <;> exact cmp_self_eq_eq _

/-! ### One component -/

/-- Packed integers of one type have one length and are in the order of the numbers. -/
theorem toBeBytes_order {ty : Ty} {x y : Value} (hx : IntOf ty x) (hy : IntOf ty y) :
    ∃ bs cs, toBeBytes x = .ok (.bytes bs) ∧ toBeBytes y = .ok (.bytes cs) ∧ bs.length = cs.length ∧
      cmpBytes bs cs = cmp (fieldNumber x) (fieldNumber y) := by
  have hcast : StrictMono (fun n : ℕ => (n : ℤ)) := fun _ _ => Int.ofNat_lt.mpr
  cases ty <;> cases x <;> try exact hx.elim
  all_goals cases y <;> try exact hy.elim
  · rename_i n k
    refine ⟨_, _, rfl, rfl, by rw [length_beBytes, length_beBytes], ?_⟩
    rw [cmpBytes_beBytes (n ^^^ 0x80000000#32).isLt (k ^^^ 0x80000000#32).isLt, ← hcast.cmp_map_eq, toNat_flipSign,
      toNat_flipSign]
    exact (strictMono_id.add_const _).cmp_map_eq _ _
  all_goals
    rename_i n k
    refine ⟨_, _, rfl, rfl, by rw [length_beBytes, length_beBytes], ?_⟩
    rw [cmpBytes_beBytes n.isLt k.isLt]
    exact (hcast.cmp_map_eq _ _).symm

/-- **One component** of the packed keys is in the order of the fields, in the direction of the field. -/
theorem keyPart_order {a b : Value} {f : IndexField} {ty : Ty} {x y : Value} (ha : fieldPath a f.path = .ok x)
    (hb : fieldPath b f.path = .ok y) (hx : IntOf ty x) (hy : IntOf ty y) :
    ∃ bs cs, keyPart a f = .ok (.bytes bs) ∧ keyPart b f = .ok (.bytes cs) ∧ bs.length = cs.length ∧
      cmpBytes bs cs = compareField f.direction x y := by
  obtain ⟨bs, cs, hbs, hcs, hlen, hcmp⟩ := toBeBytes_order hx hy
  unfold keyPart
  rw [ha, hb]
  simp only [bind, Except.bind, hbs, hcs]
  cases f.direction with
  | asc => exact ⟨bs, cs, rfl, rfl, hlen, hcmp⟩
  | desc =>
    refine ⟨bs.map (~~~ ·), cs.map (~~~ ·), rfl, rfl, by simpa using hlen, ?_⟩
    rw [cmpBytes_not hlen, ← cmpBytes_swap, hcmp, cmp_swap]
    rfl

/-! ### The whole key -/

/-- The components that are still to come, after prefixes of one length. -/
theorem packKey_order {a b : Value} {fs : List IndexField} {tys : List Ty} {xs ys : List Value}
    (ha : Projects a fs tys xs) (hb : Projects b fs tys ys) {p q : Bytes} (hpq : p.length = q.length) :
    ∃ bs cs, packKey a (some (.bytes p)) fs = .ok (.bytes bs) ∧ packKey b (some (.bytes q)) fs = .ok (.bytes cs) ∧
      bs.length = cs.length ∧ cmpBytes bs cs = (cmpBytes p q).then (compareTuples fs xs ys) := by
  induction fs generalizing tys xs ys p q with
  | nil =>
    obtain ⟨⟨⟩, -⟩ := ha
    refine ⟨p, q, rfl, rfl, hpq, ?_⟩
    rw [compareTuples, Ordering.then_eq]
    exact nofun
  | cons f fs ih =>
    obtain ⟨hpa, hta⟩ := ha
    obtain ⟨hpb, htb⟩ := hb
    cases hpa with
    | cons hx hxs =>
      cases hpb with
      | cons hy hys =>
        cases hta with
        | cons htx htxs =>
          cases htb with
          | cons hty htys =>
            obtain ⟨bs, cs, hbs, hcs, hlen, hcmp⟩ := keyPart_order hx hy htx hty
            have hpre : (p ++ bs).length = (q ++ cs).length := by rw [List.length_append, List.length_append, hpq, hlen]
            obtain ⟨bs', cs', hbs', hcs', hlen', hcmp'⟩ := ih ⟨hxs, htxs⟩ ⟨hys, htys⟩ hpre
            refine ⟨bs', cs', ?_, ?_, hlen', ?_⟩
            · simp only [packKey, hbs, bind, Except.bind, bytesConcat]
              exact hbs'
            · simp only [packKey, hcs, bind, Except.bind, bytesConcat]
              exact hcs'
            · rw [hcmp', cmpBytes, compareLex_append hpq, ← cmpBytes, hcmp, Ordering.then_assoc]
              rfl

/-- The key that is packed from the fields. -/
theorem packKey_none_order {a b : Value} {f : IndexField} {fs : List IndexField} {tys : List Ty} {xs ys : List Value}
    (ha : Projects a (f :: fs) tys xs) (hb : Projects b (f :: fs) tys ys) :
    ∃ bs cs, packKey a none (f :: fs) = .ok (.bytes bs) ∧ packKey b none (f :: fs) = .ok (.bytes cs) ∧
      cmpBytes bs cs = compareTuples (f :: fs) xs ys := by
  obtain ⟨hpa, hta⟩ := ha
  obtain ⟨hpb, htb⟩ := hb
  cases hpa with
  | cons hx hxs =>
    cases hpb with
    | cons hy hys =>
      cases hta with
      | cons htx htxs =>
        cases htb with
        | cons hty htys =>
          obtain ⟨bs, cs, hbs, hcs, hlen, hcmp⟩ := keyPart_order hx hy htx hty
          obtain ⟨bs', cs', hbs', hcs', -, hcmp'⟩ := packKey_order ⟨hxs, htxs⟩ ⟨hys, htys⟩ hlen
          refine ⟨bs', cs', ?_, ?_, by rw [hcmp', hcmp]; rfl⟩
          · simp only [packKey, hbs, bind, Except.bind]
            exact hbs'
          · simp only [packKey, hcs, bind, Except.bind]
            exact hcs'

theorem compareTuples_eq {a b : Value} {fs : List IndexField} {tys : List Ty} {xs ys : List Value}
    (ha : Projects a fs tys xs) (hb : Projects b fs tys ys) : compareTuples fs xs ys = .eq ↔ xs = ys := by
  induction fs generalizing tys xs ys with
  | nil =>
    obtain ⟨⟨⟩, -⟩ := ha
    obtain ⟨⟨⟩, -⟩ := hb
    exact ⟨fun _ => rfl, fun _ => rfl⟩
  | cons f fs ih =>
    obtain ⟨hpa, hta⟩ := ha
    obtain ⟨hpb, htb⟩ := hb
    cases hpa with
    | cons hx hxs =>
      cases hpb with
      | cons hy hys =>
        cases hta with
        | cons htx htxs =>
          cases htb with
          | cons hty htys =>
            rw [compareTuples, Ordering.then_eq_eq, compareField_eq htx hty, ih ⟨hxs, htxs⟩ ⟨hys, htys⟩, List.cons.injEq]

/-- A single ascending field is the key itself, at its own type. -/
theorem eq_of_checkKey {name onState : String} {path : List String} {kind : IndexKind} {ty key : Ty}
    (h : checkKey ⟨name, onState, [⟨path, .asc⟩], kind⟩ [ty] key = .ok ()) : ty = key := by
  unfold checkKey at h
  by_contra hne
  simp [hne] at h

theorem compareKeys_of_intOf {ty : Ty} {x y : Value} (hkey : IsKeyTy ty) (hx : IntOf ty x) (hy : IntOf ty y) :
    compareKeys x y = compareField .asc x y := by
  have hcast : StrictMono (fun n : ℕ => (n : ℤ)) := fun _ _ => Int.ofNat_lt.mpr
  cases ty <;> cases x <;> try exact hx.elim
  all_goals cases y <;> try exact hy.elim
  · exact hkey.elim
  · exact hkey.elim
  all_goals exact (hcast.cmp_map_eq _ _).symm

/-- **Keys of a sorted index are in the order of the tuples of fields.** The checker has accepted the key
type of the slot for the fields, which are integers of fixed width. -/
theorem emitIndexKey_order {idx : IndexDecl} {tys : List Ty} {key : Ty} {a b : Value} {xs ys : List Value}
    (hkey : IsKeyTy key) (hcheck : checkKey idx tys key = .ok ()) (hne : idx.fields ≠ [])
    (ha : Projects a idx.fields tys xs) (hb : Projects b idx.fields tys ys) :
    ∃ ka kb, emitIndexKey idx a = .ok ka ∧ emitIndexKey idx b = .ok kb ∧
      compareKeys ka kb = compareTuples idx.fields xs ys ∧ (ka = kb ↔ xs = ys) := by
  have heq := compareTuples_eq ha hb
  obtain ⟨name, onState, fields, kind⟩ := idx
  by_cases hsingle : ∃ path, fields = [⟨path, .asc⟩]
  · obtain ⟨path, rfl⟩ := hsingle
    obtain ⟨hpa, hta⟩ := ha
    obtain ⟨hpb, htb⟩ := hb
    cases hpa with
    | cons hx hxs =>
      cases hpb with
      | cons hy hys =>
        cases hta with
        | cons htx htxs =>
          cases htb with
          | cons hty htys =>
            cases hxs
            cases hys
            cases htxs
            refine ⟨_, _, hx, hy, ?_, ?_⟩
            · obtain rfl := eq_of_checkKey hcheck
              rw [compareKeys_of_intOf hkey htx hty]
              exact Ordering.then_eq.symm
            · rw [List.cons.injEq, and_iff_left rfl]
  · obtain ⟨f, fs, rfl⟩ := List.exists_cons_of_ne_nil hne
    obtain ⟨bs, cs, hbs, hcs, hcmp⟩ := packKey_none_order ha hb
    have hemit : ∀ v, emitIndexKey ⟨name, onState, f :: fs, kind⟩ v = packKey v none (f :: fs) := by
      intro v
      unfold emitIndexKey
      split
      · rename_i path h
        exact absurd ⟨path, h⟩ hsingle
      · rfl
    have hbytes : compareKeys (.bytes bs) (.bytes cs) = cmpBytes bs cs := cmp_eq_cmpBytes bs cs
    refine ⟨.bytes bs, .bytes cs, (hemit a).trans hbs, (hemit b).trans hcs, hbytes.trans hcmp, ?_⟩
    rw [← heq, ← hcmp, cmpBytes_eq, Value.bytes.injEq]

/-- An index over a signed level, descending, and a time. -/
def byLevel : IndexDecl := ⟨"byLevel", "logs", [⟨["level"], .desc⟩, ⟨["at"], .asc⟩], .unique⟩

/-- A record of the indexed state. -/
def logRecord (level : BitVec 32) (time : U64) : Value := .struct "Log" [("level", .i32 level), ("at", .u64 time)]

/-- The record of level 3 stands before the one of level -1. -/
theorem emitIndexKey_order_byLevel :
    ∃ ka kb, emitIndexKey byLevel (logRecord 3#32 5#64) = .ok ka ∧ emitIndexKey byLevel (logRecord (-1#32) 5#64) = .ok kb ∧
      compareKeys ka kb = compareTuples byLevel.fields [.i32 3#32, .u64 5#64] [.i32 (-1#32), .u64 5#64] ∧
      (ka = kb ↔ [Value.i32 3#32, .u64 5#64] = [.i32 (-1#32), .u64 5#64]) :=
  emitIndexKey_order (show IsKeyTy .bytes from trivial) (show checkKey byLevel [.i32, .u64] .bytes = .ok () from rfl)
    (List.cons_ne_nil _ _) ⟨.cons rfl (.cons rfl .nil), .cons trivial (.cons trivial .nil)⟩
    ⟨.cons rfl (.cons rfl .nil), .cons trivial (.cons trivial .nil)⟩

end Rend.Index
