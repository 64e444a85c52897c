import Rend.Vm.Collections

/-!
# The data instructions on values are flows

A step of an instruction is sound when it keeps the register file and is a flow of its frame, in which no handle
crosses a fork; what is held beside the registers may change (`Sound`). The instructions are put together of a
few kinds of steps, and the handles of what they compute come from the values they compute it from.
-/

namespace Rend.Vm

open Lib Tx

/-! ### Where the handles of a value come from -/

section Covers

variable {held : List Value} {v : Value} {elems : List Value} {fields : List (String × Value)}
  {pairs : List (Value × Value)}

theorem covers_one : Covers held [v] ↔ ∀ i ∈ handles v, ∃ w ∈ held, i ∈ handles w :=
  ⟨fun h => h v List.mem_cons_self, fun h => List.forall_mem_singleton.mpr h⟩

theorem covers_mem (h : v ∈ held) : Covers held [v] :=
  .of_subset (List.cons_subset.mpr ⟨h, List.nil_subset _⟩)

/-- Values of a list that is held. -/
theorem covers_elems (h : handles v = handlesList elems) : Covers [v] elems :=
  fun w hw i hi => ⟨v, List.mem_cons_self, by rw [h]; exact mem_handlesList.mpr ⟨w, hw, hi⟩⟩

/-- A list of values that are held. -/
theorem covers_list (h : handles v = handlesList elems) (helems : Covers held elems) : Covers held [v] := by
  rw [covers_one, h]
  intro i hi
  obtain ⟨w, hw, hi⟩ := mem_handlesList.mp hi
  exact helems w hw i hi

theorem covers_fieldValues (name : String) : Covers [.struct name fields] (fields.map Prod.snd) := by
  intro w hw i hi
  obtain ⟨e, he, rfl⟩ := List.mem_map.mp hw
  exact ⟨_, List.mem_cons_self, mem_handlesFields.mpr ⟨e, he, hi⟩⟩

theorem covers_struct (name : String) (h : Covers held (fields.map Prod.snd)) : Covers held [.struct name fields] := by
  rw [covers_one]
  intro i hi
  obtain ⟨e, he, hi⟩ := mem_handlesFields.mp hi
  exact h e.2 (List.mem_map_of_mem he) i hi

theorem mem_handlesPairs {i : ℕ} : i ∈ handlesPairs pairs ↔ ∃ p ∈ pairs, i ∈ handles p.1 ∨ i ∈ handles p.2 := by
  induction pairs with
  | nil => simp [handlesPairs]
  | cons p pairs ih => simp [handlesPairs, ih, or_assoc]

theorem covers_dict (hk : Covers held (pairs.map Prod.fst)) (hv : Covers held (pairs.map Prod.snd)) :
    Covers held [.dict pairs] := by
  rw [covers_one]
  intro i hi
  obtain ⟨p, hp, hi | hi⟩ := mem_handlesPairs.mp hi
  · exact hk p.1 (List.mem_map_of_mem hp) i hi
  · exact hv p.2 (List.mem_map_of_mem hp) i hi

theorem covers_settledList (h : ∀ w ∈ elems, handles w = []) : Covers held elems :=
  fun w hw i hi => absurd hi (by rw [h w hw]; exact List.not_mem_nil)

end Covers

/-! ### What the operators answer -/

section Operators

open Ops

variable {R : Runtime} {v w : Value}

theorem orOverflow_variant {n : ℕ} {t : Word n} {r : Option (BitVec n)} (h : t.orOverflow r = .ok v) :
    ∃ a, v = t.variant a := by
  cases r with
  | none => cases h
  | some a =>
    cases h
    exact ⟨a, rfl⟩

/-- Arithmetic on words answers with a word or with a boolean. -/
theorem intArith_variant {n : ℕ} {t : Word n} {op : BinOp} {a b : BitVec n} (h : intArith t op a b = .ok v) :
    (∃ c, v = t.variant c) ∨ ∃ c, v = .bool c := by
  unfold intArith at h
  cases op <;> dsimp only at h
  case div => split_ifs at h; exact .inl (orOverflow_variant h)
  case mod => split_ifs at h; exact .inl (orOverflow_variant h)
  case add => exact .inl (orOverflow_variant h)
  case sub => exact .inl (orOverflow_variant h)
  case mul => exact .inl (orOverflow_variant h)
  case shl => exact .inl (orOverflow_variant h)
  case shr => exact .inl (orOverflow_variant h)
  all_goals first | cases h; exact .inl ⟨_, rfl⟩ | cases h; exact .inr ⟨_, rfl⟩ | cases h

theorem handles_intArith {n : ℕ} {t : Word n} (ht : ∀ a, handles (t.variant a) = []) {op : BinOp} {a b : BitVec n}
    (h : intArith t op a b = .ok v) : handles v = [] := by
  rcases intArith_variant h with ⟨c, rfl⟩ | ⟨c, rfl⟩
  · exact ht c
  · rfl

theorem handles_wrap (unsigned : Bool) (n : ℤ) : handles (wrap unsigned n) = [] := by
  cases unsigned <;> rfl

theorem handles_bigintArith {op : BinOp} {a b : ℤ} {unsigned : Bool} (h : bigintArith op a b unsigned = .ok v) :
    handles v = [] := by
  unfold bigintArith at h
  cases op <;> dsimp only at h
  case shl => split at h <;> cases h; exact handles_wrap ..
  case shr => split at h <;> cases h; exact handles_wrap ..
  case sub => split_ifs at h; cases h; exact handles_wrap ..
  case div => split_ifs at h; cases h; exact handles_wrap ..
  case mod => split_ifs at h; cases h; exact handles_wrap ..
  all_goals cases h <;> first | exact handles_wrap .. | rfl

/-- **The operators answer without handles.** -/
theorem handles_evalBinary {op : BinOp} {l r : Value} (h : evalBinary R op l r = .ok v) : handles v = [] := by
  unfold evalBinary at h
  split at h
  · exact handles_bigintArith h
  · exact handles_bigintArith h
  · cases op <;> cases h <;> rfl
  · exact handles_intArith (fun _ => rfl) h
  · exact handles_intArith (fun _ => rfl) h
  · exact handles_intArith (fun _ => rfl) h
  · exact handles_intArith (fun _ => rfl) h
  · cases op <;> cases h <;> rfl
  · split_ifs at h
    · cases op <;> cases h <;> rfl
    · cases h

theorem handles_orOverflow {n : ℕ} {t : Word n} (ht : ∀ a, handles (t.variant a) = []) {r : Option (BitVec n)}
    (h : t.orOverflow r = .ok v) : handles v = [] := by
  obtain ⟨a, rfl⟩ := orOverflow_variant h
  exact ht a

theorem handles_negUnsigned {n : ℕ} {t : Word n} (ht : ∀ a, handles (t.variant a) = []) {a : BitVec n}
    (h : negUnsigned t a = .ok v) : handles v = [] := by
  unfold negUnsigned at h
  split_ifs at h
  cases h
  exact ht 0

theorem handles_evalUnary {op : UnOp} (h : evalUnary R op v = .ok w) : handles w = [] := by
  unfold evalUnary at h
  split at h
  · cases h; rfl
  · split_ifs at h; cases h; rfl
  · cases h; rfl
  · exact handles_orOverflow (fun _ => rfl) h
  · exact handles_negUnsigned (fun _ => rfl) h
  · exact handles_negUnsigned (fun _ => rfl) h
  · exact handles_negUnsigned (fun _ => rfl) h
  · cases h; rfl
  · cases h

theorem handles_inc (h : inc R v = .ok w) : handles w = [] := by
  unfold inc at h
  split at h
  · cases h; rfl
  · cases h; rfl
  · cases h; rfl
  · exact handles_orOverflow (fun _ => rfl) h
  · exact handles_orOverflow (fun _ => rfl) h
  · exact handles_orOverflow (fun _ => rfl) h
  · exact handles_orOverflow (fun _ => rfl) h
  · cases h

theorem handles_okOrBounds {α : Type} {mk : α → Value} (hmk : ∀ a, handles (mk a) = []) {r : Option α}
    (h : okOrBounds mk r = .ok w) : handles w = [] := by
  cases r with
  | none => cases h
  | some a =>
    cases h
    exact hmk a

theorem handles_convert {target : ℕ} (h : Ops.convert v target = .ok w) : handles w = [] := by
  have hfrom : ∀ n : ℤ, fromI128 target n = .ok w → handles w = [] := by
    intro n h
    unfold fromI128 at h
    split at h
    · cases h; rfl
    · exact handles_okOrBounds (fun _ => rfl) h
    · exact handles_okOrBounds (fun _ => rfl) h
    · exact handles_okOrBounds (fun _ => rfl) h
    · split_ifs at h
      cases h; rfl
    · cases h
  unfold Ops.convert at h
  split at h
  · unfold convertInt at h
    split_ifs at h
    · cases h; rfl
    · split at h
      · exact handles_okOrBounds (fun _ => rfl) h
      · exact handles_okOrBounds (fun _ => rfl) h
      · exact handles_okOrBounds (fun _ => rfl) h
      · exact handles_okOrBounds (fun _ => rfl) h
      · cases h
  · exact hfrom _ h
  · exact hfrom _ h
  · exact hfrom _ h
  · split_ifs at h
    · cases h; rfl
    · exact hfrom _ h
  · cases h

end Operators

namespace Data

/-! ### Steps -/

variable {α β σ ι : Type}

/-- A step keeps the register file and is a flow of the frame, in which no handle crosses a fork. `held` is held
beside the registers before, `Q` afterwards. -/
def Sound (held : List Value) (x : DataM α) (Q : α → List Value) : Prop :=
  ∀ ⦃tx regs a tx' regs'⦄, x (tx, regs) = .ok (a, tx', regs') →
    regs'.length = regs.length ∧ Flow True (tx, held ++ regs) (tx', Q a ++ regs')

/-- Inverts one step. -/
theorem bind_ok {x : DataM α} {k : α → DataM β} {s s' : Frame} {b : β} (h : (x >>= k) s = .ok (b, s')) :
    ∃ a s₁, x s = .ok (a, s₁) ∧ k a s₁ = .ok (b, s') := by
  change (x s >>= fun p => k p.1 p.2) = .ok (b, s') at h
  cases hx : x s with
  | error e =>
    rw [hx] at h
    cases h
  | ok p =>
    rw [hx] at h
    exact ⟨p.1, p.2, rfl, h⟩

section Sound

variable {held held' : List Value} {x : DataM α} {Q Q' : α → List Value} {v : Value}

theorem Sound.bind {M : α → List Value} {k : α → DataM β} {Q : β → List Value} (hx : Sound held x M)
    (hk : ∀ a, Sound (M a) (k a) Q) : Sound held (x >>= k) Q := by
  intro tx regs b tx' regs' h
  obtain ⟨a, ⟨tx₁, regs₁⟩, hx₁, hk₁⟩ := bind_ok h
  obtain ⟨hlen₁, hflow₁⟩ := hx hx₁
  obtain ⟨hlen, hflow⟩ := hk a hk₁
  exact ⟨hlen.trans hlen₁, hflow₁.trans hflow⟩

theorem Sound.conseq (hx : Sound held x Q) (hheld : Covers held' held) (hout : ∀ a, Covers (Q a) (Q' a)) :
    Sound held' x Q' := by
  intro tx regs a tx' regs' h
  obtain ⟨hlen, hflow⟩ := hx h
  have hregs : ∀ held regs : List Value, Covers (held ++ regs) regs := fun _ _ =>
    .of_subset (List.subset_append_right ..)
  have hbefore : Covers (held' ++ regs) (held ++ regs) :=
    (hheld.mono (List.subset_append_left ..)).append (hregs _ _)
  have hafter : Covers (Q a ++ regs') (Q' a ++ regs') :=
    ((hout a).mono (List.subset_append_left ..)).append (hregs _ _)
  exact ⟨hlen, (((Flow.refl _).covered hbefore).trans hflow).covered hafter⟩

/-- What is held afterwards may be let go. -/
theorem Sound.last (hx : Sound held x Q) : Sound held x fun _ => [] :=
  hx.conseq (.of_subset (List.Subset.refl _)) fun _ => .of_subset (List.nil_subset _)

theorem sound_pure {a : α} (h : Covers held (Q a)) : Sound held (pure a) Q := by
  intro tx regs b tx' regs' hrun
  cases hrun
  exact ⟨rfl, (Flow.refl _).covered ((h.mono (List.subset_append_left ..)).append
    (.of_subset (List.subset_append_right ..)))⟩

theorem sound_done {a : α} : Sound held (pure a) fun _ => [] := sound_pure (.of_subset (List.nil_subset _))

theorem sound_fail (e : Fault) : Sound held (fail e : DataM α) Q := fun _ _ _ _ _ h => by cases h

theorem sound_orPanic {r : Option α} {k : α → DataM β} {Q : β → List Value}
    (hk : ∀ a, r = some a → Sound held (k a) Q) : Sound held (orPanic r >>= k) Q := by
  intro tx regs b tx' regs' h
  obtain ⟨a, s, ha, hrun⟩ := bind_ok h
  cases r with
  | none => cases ha
  | some a =>
    cases ha
    exact hk a rfl hrun

theorem sound_orRuntime {r : Except String α} {k : α → DataM β} {Q : β → List Value}
    (hk : ∀ a, r = .ok a → Sound held (k a) Q) : Sound held (orRuntime r >>= k) Q := by
  intro tx regs b tx' regs' h
  obtain ⟨a, s, ha, hrun⟩ := bind_ok h
  cases r with
  | error e => cases ha
  | ok a =>
    cases ha
    exact hk a rfl hrun

theorem sound_orFault {r : Except Fault α} {k : α → DataM β} {Q : β → List Value}
    (hk : ∀ a, r = .ok a → Sound held (k a) Q) : Sound held (orFault r >>= k) Q := by
  intro tx regs b tx' regs' h
  obtain ⟨a, s, ha, hrun⟩ := bind_ok h
  cases r with
  | error e => cases ha
  | ok a =>
    cases ha
    exact hk a rfl hrun

theorem sound_peek (r : Reg) : Sound held (peek r) fun v => v :: held := by
  intro tx regs v tx' regs' h
  cases h
  refine ⟨rfl, (Flow.refl _).covered (Covers.cons ?_ (.of_subset (List.Subset.refl _)))⟩
  exact (covers_reg regs r).mono (List.subset_append_right ..)

theorem sound_peekAll (argsStart : Reg) (n : ℕ) : Sound held (peekAll argsStart n) fun vs => vs ++ held := by
  intro tx regs vs tx' regs' h
  cases h
  have hargs : Covers (held ++ regs) (callArgs regs argsStart n) :=
    (covers_callArgs regs argsStart n).mono (List.subset_append_right ..)
  refine ⟨rfl, (Flow.refl _).covered ?_⟩
  rw [List.append_assoc]
  exact hargs.append (.of_subset (List.Subset.refl _))

theorem sound_put {r : Reg} (h : Covers held [v]) : Sound held (put r v) fun _ => held := by
  intro tx regs a tx' regs' hrun
  cases hrun
  have hset : Covers (held ++ regs) (regs.set r v) :=
    Covers.trans (Covers.cons (h.mono (List.subset_append_left ..)) (.of_subset (List.subset_append_right ..)))
      (covers_set regs r v)
  exact ⟨List.length_set, (Flow.refl _).covered (.append (.of_subset (List.subset_append_left ..)) hset)⟩

theorem sound_ask {g : Tx → Tx × α}
    (h : ∀ tx regs, Flow True (tx, held ++ regs) ((g tx).1, Q (g tx).2 ++ regs)) : Sound held (ask g) Q := by
  intro tx regs a tx' regs' hrun
  cases hrun
  exact ⟨rfl, h tx regs⟩

/-- An operation of the transaction on values that are held. -/
theorem sound_op {g : Tx → Tx × α} {G : α → List Value} (o : Tx → TxOp)
    (hops : ∀ tx, ∀ v ∈ (o tx).operands, v ∈ held)
    (hg : ∀ tx, (g tx).1 = (o tx).run tx ∧ G (g tx).2 = (o tx).answers tx) :
    Sound held (ask g) fun a => G a ++ held :=
  sound_ask fun tx regs => by
    rw [(hg tx).1, (hg tx).2, List.append_assoc]
    exact (Flow.refl _).op (o tx) fun v hv => List.mem_append_left _ (hops tx v hv)

theorem sound_force (h : v ∈ held) : Sound held (ask fun tx => tx.force v) fun w => w :: held :=
  sound_op (G := fun w => [w]) (fun _ => .force v) (fun _ => List.forall_mem_singleton.mpr h)
    fun _ => ⟨rfl, rfl⟩

theorem sound_readCell (c : U128) (ty : Ty) : Sound held (ask fun tx => tx.readCell c ty) fun w => w :: held :=
  sound_op (G := fun w => [w]) (fun _ => .readCell c ty) (fun _ => List.forall_mem_nil _) fun _ => ⟨rfl, rfl⟩

theorem sound_foldlM {G : σ → List Value} {step : σ → ι → DataM σ} {l : List ι}
    (h : ∀ i ∈ l, ∀ acc, Sound (G acc) (step acc i) G) (acc : σ) : Sound (G acc) (l.foldlM step acc) G := by
  induction l generalizing acc with
  | nil => exact sound_pure (.of_subset (List.Subset.refl _))
  | cons i l ih =>
    rw [List.foldlM_cons]
    exact (h i List.mem_cons_self acc).bind fun acc => ih (fun j hj => h j (List.mem_cons_of_mem _ hj)) acc

theorem sound_forceReg (r : Reg) : Sound held (forceReg r) fun v => v :: held := by
  unfold forceReg
  refine (sound_peek r).bind fun u => ?_
  refine (sound_force List.mem_cons_self).bind fun v => ?_
  refine (sound_put (covers_mem List.mem_cons_self)).bind fun _ => sound_pure (.of_subset ?_)
  exact List.cons_subset_cons v (List.subset_cons_self u held)

theorem sound_forceRegSpine (r : Reg) : Sound held (forceRegSpine r) fun v => v :: held := by
  unfold forceRegSpine
  refine (sound_peek r).bind fun u => ?_
  refine Sound.bind (M := fun v => v :: u :: held) (sound_ask fun tx regs => ?_) fun v => ?_
  · unfold Structs.forceSpine
    split
    · exact (Flow.refl _).op (.force _) (List.forall_mem_singleton.mpr List.mem_cons_self)
    · exact (Flow.refl _).covered (Covers.cons (covers_mem List.mem_cons_self) (.of_subset (List.Subset.refl _)))
  · refine (sound_put (covers_mem List.mem_cons_self)).bind fun _ => sound_pure (.of_subset ?_)
    exact List.cons_subset_cons v (List.subset_cons_self u held)

theorem sound_forceArgs (argsStart : Reg) (n : ℕ) : Sound held (forceArgs argsStart n) fun vs => vs ++ held := by
  have hstep : ∀ i ∈ List.range n, ∀ vs : List Value, Sound (vs ++ held)
      (do let v ← forceReg (argsStart + i); return vs ++ [v]) fun vs => vs ++ held := by
    intro i _ vs
    refine (sound_forceReg _).bind fun v => sound_pure (.of_subset ?_)
    simp
  exact sound_foldlM hstep []

end Sound

/-! ### Values -/

section Values

variable (X : Outside) (m : BcModule) (f : BcFn)

/-- An instruction that can be carried out by itself. -/
abbrev Carried (x : DataM α) : Prop := Sound [] x fun _ => []

variable {held : List Value} {v : Value} {r : Reg}

/-- The last step of an instruction stores what it has computed. -/
theorem sound_store (h : Covers held [v]) : Sound held (put r v) fun _ => [] := (sound_put h).last

theorem sound_storeSettled (h : handles v = []) : Sound held (put r v) fun _ => [] := sound_store (covers_settled h)

theorem handles_constValue (c : Const) : handles (constValue c) = [] := by cases c <;> rfl

theorem carried_loadConst (dst : Reg) (idx : ℕ) : Carried (loadConst f dst idx) :=
  sound_orPanic fun c _ => sound_storeSettled (handles_constValue c)

theorem carried_move (dst src : Reg) : Carried (move dst src) :=
  (sound_peek src).bind fun _ => sound_store (covers_mem List.mem_cons_self)

theorem carried_convert (dst src : Reg) (target : ℕ) : Carried (convert X dst src target) := by
  refine (sound_forceReg src).bind fun v => ?_
  split
  · next w hw => exact sound_storeSettled (handles_convert hw)
  · exact sound_fail _

theorem carried_bin (op : BinOp) (dst lhs rhs : Reg) : Carried (bin X op dst lhs rhs) := by
  refine (sound_forceReg lhs).bind fun l => (sound_forceReg rhs).bind fun r => ?_
  exact sound_orRuntime fun v hv => sound_storeSettled (handles_evalBinary hv)

theorem carried_un (op : UnOp) (dst src : Reg) : Carried (un X op dst src) := by
  refine (sound_forceReg src).bind fun v => ?_
  exact sound_orRuntime fun w hw => sound_storeSettled (handles_evalUnary hw)

theorem carried_incReg (r : Reg) : Carried (incReg X r) := by
  refine (sound_forceReg r).bind fun v => ?_
  exact sound_orRuntime fun w hw => sound_storeSettled (handles_inc hw)

theorem carried_callHost (dst : Reg) (importIdx : ℕ) (argsStart : Reg) (nArgs : ℕ) :
    Carried (callHost X m dst importIdx argsStart nArgs) := by
  refine (sound_forceArgs argsStart nArgs).bind fun args => sound_orPanic fun name _ => ?_
  split
  · next v hv => exact sound_store ((X.host_covers hv).mono (List.subset_append_left ..))
  · exact sound_fail _

theorem carried_builtinCall (dst : Reg) (nameIdx : ℕ) (argsStart : Reg) (nArgs : ℕ) :
    Carried (builtinCall X f dst nameIdx argsStart nArgs) := by
  refine sound_orFault fun name _ => (sound_forceArgs argsStart nArgs).bind fun args => ?_
  exact sound_orRuntime fun v hv => sound_store ((X.callBuiltin_covers hv).mono (List.subset_append_left ..))

theorem handles_makeInterface {modules : List BcModule} {iface : Const} {target v : Value}
    (h : Link.makeInterface modules iface target = .ok v) : handles v = [] := by
  unfold Link.makeInterface at h
  repeat' split at h
  all_goals cases h
  rfl

theorem carried_makeInterface (modules : List BcModule) (dst : Reg) (ifaceNameIdx : ℕ) (targetReg : Reg) :
    Carried (makeInterface f modules dst ifaceNameIdx targetReg) := by
  refine sound_orPanic fun iface _ => (sound_forceReg targetReg).bind fun target => ?_
  split
  · next v hv => exact sound_storeSettled (handles_makeInterface hv)
  · exact sound_fail _

theorem carried_builtinResource (dst src : Reg) : Carried (builtinResource X dst src) := by
  refine (sound_forceReg src).bind fun v => ?_
  split
  · split_ifs
    · exact sound_storeSettled rfl
    · exact sound_fail _
  · exact sound_fail _

theorem carried_builtinUnwrap (dst src : Reg) : Carried (builtinUnwrap X dst src) := by
  refine (sound_forceReg src).bind fun v => ?_
  split
  · exact sound_storeSettled rfl
  · exact sound_fail _

theorem carried_builtinAddress (dst src : Reg) : Carried (builtinAddress X dst src) := by
  refine (sound_forceReg src).bind fun v => ?_
  split
  · exact sound_storeSettled rfl
  · exact sound_fail _

theorem carried_builtinLen (dst src : Reg) : Carried (builtinLen X dst src) := by
  refine (sound_forceRegSpine src).bind fun v => ?_
  split
  · exact sound_storeSettled rfl
  · exact sound_storeSettled rfl
  · exact sound_storeSettled rfl
  · exact sound_storeSettled rfl
  · exact sound_fail _

theorem carried_context (dst : Reg) (kind : ℕ) : Carried (context X dst kind) := by
  unfold context
  split
  · exact sound_storeSettled rfl
  · exact sound_storeSettled rfl
  · exact sound_storeSettled rfl
  · exact sound_fail _

/-! ### Collections in memory -/

theorem carried_makeArray (dst argsStart : Reg) (n : ℕ) : Carried (makeArray dst argsStart n) :=
  (sound_peekAll argsStart n).bind fun _ =>
    sound_store (covers_list rfl (.of_subset (List.subset_append_left ..)))

theorem carried_makeTuple (dst argsStart : Reg) (n : ℕ) : Carried (makeTuple dst argsStart n) :=
  (sound_peekAll argsStart n).bind fun _ =>
    sound_store (covers_list rfl (.of_subset (List.subset_append_left ..)))

theorem carried_arrayAlloc (dst lenReg defaultReg : Reg) : Carried (arrayAlloc X dst lenReg defaultReg) := by
  refine (sound_forceReg lenReg).bind fun lenV => ?_
  split
  · exact sound_fail _
  · refine (sound_forceReg defaultReg).bind fun default => sound_store (covers_list rfl (.of_subset fun w hw => ?_))
    rw [List.eq_of_mem_replicate hw]
    exact List.mem_cons_self

theorem carried_arrayAppend (dst arr elem : Reg) : Carried (arrayAppend X dst arr elem) := by
  refine (sound_forceRegSpine arr).bind fun a => ?_
  split
  · next elems =>
    refine (sound_peek elem).bind fun v => sound_store (covers_list rfl (Covers.append ?_ ?_))
    · exact (covers_elems (v := .array elems) rfl).mono (by simp)
    · exact covers_mem List.mem_cons_self
  · exact sound_fail _

theorem carried_arrayGet (dst arr idx : Reg) : Carried (arrayGet dst arr idx) := by
  refine (sound_forceRegSpine arr).bind fun arrVal => (sound_forceReg idx).bind fun idxVal => ?_
  split
  · next elems i =>
    split
    · next v hv =>
      have hmem : v ∈ elems := by
        split_ifs at hv
        exact List.mem_of_getElem? hv
      have helems : Covers [.array elems] [v] := (covers_elems rfl).trans (covers_mem hmem)
      exact sound_store (helems.mono (by simp))
    · exact sound_fail _
  · exact sound_fail _

theorem carried_makeSet (dst argsStart : Reg) (n : ℕ) : Carried (makeSet dst argsStart n) := by
  refine Sound.bind (M := fun elems : List Value => elems) (sound_foldlM (G := fun elems => elems) ?_ [])
    fun elems => sound_store (covers_list rfl (.of_subset (List.Subset.refl _)))
  intro i _ elems
  refine (sound_forceReg _).bind fun v => sound_pure (.of_subset ?_)
  split_ifs
  · exact List.subset_cons_self _ _
  · simp

theorem covers_putPair {held : List Value} (k v : Value) (pairs : List (Value × Value))
    (hpairs : Covers held (pairs.map Prod.fst) ∧ Covers held (pairs.map Prod.snd)) (hk : k ∈ held) (hv : v ∈ held) :
    Covers held ((putPair k v pairs).map Prod.fst) ∧ Covers held ((putPair k v pairs).map Prod.snd) := by
  induction pairs with
  | nil => exact ⟨covers_mem hk, covers_mem hv⟩
  | cons p pairs ih =>
    obtain ⟨k', v'⟩ := p
    have hkeys : Covers held [k'] ∧ Covers held (pairs.map Prod.fst) :=
      ⟨fun w hw => hpairs.1 w (by simpa using .inl (List.mem_singleton.mp hw)),
        fun w hw => hpairs.1 w (List.mem_cons_of_mem _ hw)⟩
    have hvalues : Covers held [v'] ∧ Covers held (pairs.map Prod.snd) :=
      ⟨fun w hw => hpairs.2 w (by simpa using .inl (List.mem_singleton.mp hw)),
        fun w hw => hpairs.2 w (List.mem_cons_of_mem _ hw)⟩
    rw [putPair]
    split_ifs
    · exact ⟨hpairs.1, (covers_mem hv).cons hvalues.2⟩
    · obtain ⟨ihk, ihv⟩ := ih ⟨hkeys.2, hvalues.2⟩
      exact ⟨hkeys.1.cons ihk, hvalues.1.cons ihv⟩

theorem carried_makeDict (dst argsStart : Reg) (nPairs : ℕ) : Carried (makeDict dst argsStart nPairs) := by
  refine Sound.bind (M := fun pairs => pairs.map Prod.fst ++ pairs.map Prod.snd)
    (sound_foldlM (G := fun pairs => pairs.map Prod.fst ++ pairs.map Prod.snd) ?_ []) fun pairs =>
      sound_store (covers_dict (.of_subset (List.subset_append_left ..)) (.of_subset (List.subset_append_right ..)))
  intro i _ pairs
  refine (sound_forceReg _).bind fun k => (sound_peek _).bind fun v => sound_pure ?_
  have hkeys : Covers (v :: k :: (pairs.map Prod.fst ++ pairs.map Prod.snd)) (pairs.map Prod.fst) :=
    .of_subset fun w hw => List.mem_cons_of_mem _ (List.mem_cons_of_mem _ (List.mem_append_left _ hw))
  have hvalues : Covers (v :: k :: (pairs.map Prod.fst ++ pairs.map Prod.snd)) (pairs.map Prod.snd) :=
    .of_subset fun w hw => List.mem_cons_of_mem _ (List.mem_cons_of_mem _ (List.mem_append_right _ hw))
  have hput := covers_putPair k v pairs ⟨hkeys, hvalues⟩ (by simp) (by simp)
  exact hput.1.append hput.2

theorem carried_makeStruct (dst : Reg) (shapeIdx : ℕ) (argsStart : Reg) (n : ℕ) :
    Carried (makeStruct m dst shapeIdx argsStart n) := by
  refine sound_orPanic fun shape _ => (sound_peekAll argsStart n).bind fun vs => ?_
  split_ifs
  · exact sound_fail _
  · refine sound_store (covers_struct _ (.of_subset fun w hw => List.mem_append_left _ ?_))
    obtain ⟨e, he, rfl⟩ := List.mem_map.mp hw
    exact (List.of_mem_zip he).2

theorem covers_lookup {name : String} {fields : List (String × Value)} {field : String} {v : Value}
    (h : fields.lookup field = some v) : Covers [.struct name fields] [v] := by
  have hmem : v ∈ fields.map Prod.snd := by
    obtain ⟨l₁, l₂, rfl, -⟩ := List.lookup_eq_some_iff.mp h
    simp
  exact (covers_fieldValues name).trans (covers_mem hmem)

theorem carried_fieldGet (dst src : Reg) (nameIdx : ℕ) : Carried (fieldGet X f dst src nameIdx) := by
  refine sound_orFault fun name _ => (sound_forceRegSpine src).bind fun v => ?_
  split
  · split
    · next w hw => exact sound_store (covers_lookup hw)
    · exact sound_fail _
  · exact sound_fail _

theorem covers_setField {name field : String} {fields : List (String × Value)} {v w : Value}
    (h : Structs.setField (.struct name fields) field w = some v) : Covers [.struct name fields, w] [v] := by
  have hreplace : ∀ {held : List Value} {fields : List (String × Value)}, Covers held [w] →
      Covers held (fields.map Prod.snd) → Covers held ((Structs.replaceField field w fields).map Prod.snd) := by
    intro held fields hw hfields
    induction fields with
    | nil => exact hfields
    | cons e fields ih =>
      obtain ⟨n, u⟩ := e
      obtain ⟨hu, hrest⟩ := List.forall_mem_cons.mp hfields
      rw [Structs.replaceField]
      split_ifs
      · exact hw.cons hrest
      · exact Covers.cons (List.forall_mem_singleton.mpr hu) (ih hrest)
  unfold Structs.setField at h
  dsimp only at h
  split_ifs at h
  cases h
  exact covers_struct name (hreplace (covers_mem (by simp)) ((covers_fieldValues name).mono (by simp)))

theorem carried_fieldSet (dst : Reg) (nameIdx : ℕ) (val : Reg) : Carried (fieldSet X f dst nameIdx val) := by
  refine sound_orFault fun name _ => (sound_peek val).bind fun w => (sound_forceRegSpine dst).bind fun v => ?_
  split
  · split
    · next u hu => exact sound_store (covers_setField hu)
    · exact sound_fail _
  · exact sound_fail _

theorem carried_makeEnum (dst : Reg) (shapeIdx variantIdx : ℕ) (argsStart : Reg) (n : ℕ) :
    Carried (makeEnum m dst shapeIdx variantIdx argsStart n) := by
  refine sound_orPanic fun shape _ => sound_orPanic fun variant _ => (sound_peekAll argsStart n).bind fun payload => ?_
  exact sound_store (covers_list rfl (.of_subset (List.subset_append_left ..)))

theorem carried_enumTag (dst src : Reg) : Carried (enumTag X m dst src) := by
  refine (sound_forceRegSpine src).bind fun v => ?_
  split
  · split
    · exact sound_fail _
    · refine sound_orPanic fun shape _ => ?_
      split
      · exact sound_storeSettled rfl
      · exact sound_fail _
  · exact sound_fail _

theorem carried_enumPayload (dst src : Reg) (index : ℕ) : Carried (enumPayload X dst src index) := by
  refine (sound_forceRegSpine src).bind fun v => ?_
  split
  · split
    · next w hw => exact sound_store ((covers_elems rfl).trans (covers_mem (List.mem_of_getElem? hw)))
    · exact sound_fail _
  · exact sound_fail _

theorem carried_tupleGet (dst src : Reg) (index : ℕ) : Carried (tupleGet X dst src index) := by
  refine (sound_forceRegSpine src).bind fun v => ?_
  split
  · split
    · next w hw => exact sound_store ((covers_elems rfl).trans (covers_mem (List.mem_of_getElem? hw)))
    · exact sound_fail _
  · exact sound_fail _

end Values

end Data

end Rend.Vm
