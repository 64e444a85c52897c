import Rend.Pmap.Merge

/-!
# What a merged root answers

`merge_per_key_iff` gives the exact condition under which the answers of a merged root are the per-key three-way merge
of the answers of the three, and the merge gives up only for a reason. Answers are compared by the runtime's
equality of values. The condition can fail: a base of another shape than the two sides is taken as empty, and a key
removed on one side then comes back (`merge_resurrects_key`).
-/

namespace Rend.Pmap

open Lib Tx

variable {kt vt : Ty}

/-! ### Answers and encodings -/

theorem decode_injOn {ty : Ty} {x y : Bytes} (hx : Codes ty x) (hy : Codes ty y)
    (h : decode ty x = decode ty y) : x = y := by
  rw [← hx.serialize_decode, h, hy.serialize_decode]

theorem map_decode_inj {p q : Option Bytes} (hp : ∀ b ∈ p, Codes vt b) (hq : ∀ b ∈ q, Codes vt b) :
    p.map (decode vt) = q.map (decode vt) ↔ p = q := by
  refine ⟨fun h => ?_, fun h => by rw [h]⟩
  cases p with
  | none => simpa [eq_comm] using h
  | some p =>
    cases q with
    | none => simp at h
    | some q => rw [decode_injOn (hp p rfl) (hq q rfl) (by simpa using h)]

/-- Values merge as their encodings do. -/
theorem merges_map_decode {x y z m : Option Bytes} (hx : ∀ b ∈ x, Codes vt b) (hy : ∀ b ∈ y, Codes vt b)
    (hm : ∀ b ∈ m, Codes vt b) :
    Merges Ops.Same (x.map (decode vt)) (y.map (decode vt)) (z.map (decode vt)) (m.map (decode vt)) ↔
      Merges (sameBytes vt) x y z m := by
  constructor
  · rintro ⟨htaken, hleft, hright, hboth⟩
    rw [map_decode_inj hm hx, map_decode_inj hm hy] at htaken
    simp only [alike_map_decode] at hleft hright hboth
    exact ⟨htaken, hleft, hright, hboth⟩
  · rintro ⟨htaken, hleft, hright, hboth⟩
    rw [← map_decode_inj hm hx, ← map_decode_inj hm hy] at htaken
    simp only [← alike_map_decode] at hleft hright hboth
    exact ⟨htaken, hleft, hright, hboth⟩

theorem clash_map_decode {x y z : Option Bytes} :
    Clash Ops.Same (x.map (decode vt)) (y.map (decode vt)) (z.map (decode vt)) ↔ Clash (sameBytes vt) x y z := by
  rw [Clash, Clash, alike_map_decode, alike_map_decode, alike_map_decode]

/-- What the trie answers codes at these types, for keys among `K`. -/
def Coded (K : Set Value) (kt vt : Ty) (T : Trie) : Prop :=
  ∀ kb vb, T.lookup slotOf 0 kb = some vb → (Codes kt kb ∧ decode kt kb ∈ K) ∧ Codes vt vb

variable {K : Set Value}

theorem Stored.coded {kv : Kv} {root : U128} {T : Trie} (h : Stored kv kt vt root T) (hT : T.KeysIn kt K) :
    Coded K kt vt T := by
  intro kb vb hl
  have hmem := h.wf.lookup_eq_some_iff.1 hl
  obtain ⟨hk, hv⟩ := h.fits.codes hmem
  exact ⟨⟨hk, hT _ hmem⟩, hv⟩

theorem Coded.lookup_eq_none {T : Trie} (h : Coded K kt vt T) {kb : Bytes} (hk : ¬ (Codes kt kb ∧ decode kt kb ∈ K)) :
    T.lookup slotOf 0 kb = none := by
  by_contra hne
  obtain ⟨vb, hvb⟩ := Option.ne_none_iff_exists'.1 hne
  exact hk (h kb vb hvb).1

theorem answer_decode {kb : Bytes} (hk : Codes kt kb) (T : Trie) :
    T.answer kt vt 0 (decode kt kb) = (T.lookup slotOf 0 kb).map (decode vt) := by
  rw [Trie.answer, hk.serialize_decode, if_pos hk.deserialize]

theorem forall_merges_answer_iff {A B C M : Trie} (hA : Coded K kt vt A) (hB : Coded K kt vt B)
    (hC : Coded K kt vt C) (hM : Coded K kt vt M) :
    (∀ key ∈ K, Merges Ops.Same (A.answer kt vt 0 key) (B.answer kt vt 0 key) (C.answer kt vt 0 key)
      (M.answer kt vt 0 key)) ↔
    ∀ kb, Merges (sameBytes vt) (A.lookup slotOf 0 kb) (B.lookup slotOf 0 kb) (C.lookup slotOf 0 kb)
      (M.lookup slotOf 0 kb) := by
  have hmap := fun kb => @merges_map_decode vt _ _ (C.lookup slotOf 0 kb) _ (fun b hb => (hA kb b hb).2)
    (fun b hb => (hB kb b hb).2) fun b hb => (hM kb b hb).2
  have hnone : Merges Ops.Same (none : Option Value) none none none :=
    ⟨.inl rfl, fun _ => .none, fun _ => .none, fun h => absurd .none h⟩
  constructor
  · intro h kb
    by_cases hk : Codes kt kb ∧ decode kt kb ∈ K
    · have hkey := h (decode kt kb) hk.2
      rw [answer_decode hk.1, answer_decode hk.1, answer_decode hk.1, answer_decode hk.1] at hkey
      exact (hmap kb).1 hkey
    · rw [hA.lookup_eq_none hk, hB.lookup_eq_none hk, hC.lookup_eq_none hk, hM.lookup_eq_none hk]
      exact merges_of_eq (sameBytes_equivalence vt)
  · intro h key _
    unfold Trie.answer
    split_ifs
    · exact (hmap _).2 (h _)
    · exact hnone

theorem exists_clash_answer_iff {A B C : Trie} (hA : Coded K kt vt A) (hB : Coded K kt vt B) :
    (∃ key ∈ K, Clash Ops.Same (A.answer kt vt 0 key) (B.answer kt vt 0 key) (C.answer kt vt 0 key)) ↔
      ∃ kb, Clash (sameBytes vt) (A.lookup slotOf 0 kb) (B.lookup slotOf 0 kb) (C.lookup slotOf 0 kb) := by
  constructor
  · rintro ⟨key, -, hkey⟩
    unfold Trie.answer at hkey
    split_ifs at hkey
    · exact ⟨_, clash_map_decode.1 hkey⟩
    · exact absurd .none hkey.1
  · rintro ⟨kb, hkb⟩
    have hk : Codes kt kb ∧ decode kt kb ∈ K := by
      by_contra hk
      refine hkb.1 ?_
      rw [hA.lookup_eq_none hk, hB.lookup_eq_none hk]
      exact .none
    refine ⟨decode kt kb, hk.2, ?_⟩
    rw [answer_decode hk.1, answer_decode hk.1, answer_decode hk.1]
    exact clash_map_decode.2 hkb

/-! ### Merging per key -/

/-- The merge of two stored roots over a third: the merged root answers each of these keys by the three-way
merge of the three answers, and the merge gives up only where some key was changed to different
values on both sides or where the two sides have nodes of different shapes. Values are compared by the runtime's
equality. -/
structure MergesPerKey (K : Set Value) (kv : Kv) (kt vt : Ty) (a b base : U128) (A B C : Trie) : Prop where
  merged : ∀ r, mergeThreeWay a b base kv kt vt = some r → ∀ key ∈ K,
    Merges Ops.Same (lookupIn kv kt vt a key) (lookupIn kv kt vt b key) (lookupIn kv kt vt base key)
      (lookupIn (storeCells kv r.newCells) kt vt r.root key)
  gaveUp : mergeThreeWay a b base kv kt vt = none →
    (∃ key ∈ K, Clash Ops.Same (lookupIn kv kt vt a key) (lookupIn kv kt vt b key)
      (lookupIn kv kt vt base key)) ∨ HTree.Mismatch A B C

/-- **When the merge is per key.** Exactly when, wherever it takes a base node of another shape as
empty, both sides agree on the keys of that node; or when it gives up and comes to a reason to. The keys of the
three maps and those asked for are told apart. -/
theorem merge_per_key_iff {K : Set Value} {kv : Kv} {kt vt : Ty} {a b base : U128} {A B C : Trie} (hK : Told K)
    (hA : Stored kv kt vt a A) (hB : Stored kv kt vt b B) (hC : Stored kv kt vt base C)
    (hkA : A.KeysIn kt K) (hkB : B.KeysIn kt K) (hkC : C.KeysIn kt K)
    (hcells : ∀ r ∈ mergeThreeWay a b base kv kt vt, Storable kv r.newCells) :
    MergesPerKey K kv kt vt a b base A B C ↔
      HTree.Aligned (sameBytes vt) slotOf A B C 0 ∨
        (HTree.Stuck (sameBytes vt) A B C ∧
          HTree.Excused (sameBytes vt) slotOf (fun kb => C.lookup slotOf 0 kb) A B C 0) := by
  have hspec := mergeThreeWay_eq hA hB hC hcells
  have hr := sameBytes_equivalence vt
  have hexcused := HTree.excused_iff hr (g := fun kb => C.lookup slotOf 0 kb) (c := C) hA.wf hB.wf
    fun _ _ _ => rfl
  have hclash : (∃ key ∈ K, Clash Ops.Same (lookupIn kv kt vt a key) (lookupIn kv kt vt b key)
      (lookupIn kv kt vt base key)) ↔
      ∃ kb, Clash (sameBytes vt) (A.lookup slotOf 0 kb) (B.lookup slotOf 0 kb) (C.lookup slotOf 0 kb) := by
    rw [← exists_clash_answer_iff (hA.coded hkA) (hB.coded hkB)]
    refine exists_congr fun key => and_congr_right fun hkey => ?_
    rw [hA.lookupIn_told hK hkA hkey, hB.lookupIn_told hK hkB hkey, hC.lookupIn_told hK hkC hkey]
  cases hm : HTree.merge (mergeEntries (sameBytes vt)) A B C with
  | none =>
    have hstuck := HTree.merge_eq_none_iff.1 hm
    rw [hm] at hspec
    have hnone : mergeThreeWay a b base kv kt vt = none := hspec
    constructor
    · intro h
      have hgave := h.gaveUp hnone
      rw [hclash, ← hexcused] at hgave
      exact .inr ⟨hstuck, hgave⟩
    · intro h
      refine ⟨fun r hr => (by rw [hnone] at hr; cases hr), fun _ => ?_⟩
      rw [hclash]
      rcases h with h | h
      · exact hstuck.excused hA.wf hB.wf hC.wf h
      · exact hexcused.1 h.2
  | some M =>
    rw [hm] at hspec
    obtain ⟨r, hrun, hM⟩ := hspec
    have hkM : Trie.KeysIn kt K M := fun e he =>
      (HTree.mem_entries_merge hA.wf hB.wf hm he).elim (hkA e) (hkB e)
    have hnot : ¬ HTree.Stuck (sameBytes vt) A B C := fun h => by
      rw [HTree.merge_eq_none_iff.2 h] at hm
      cases hm
    have hmerged : (∀ key ∈ K, Merges Ops.Same (lookupIn kv kt vt a key) (lookupIn kv kt vt b key)
        (lookupIn kv kt vt base key) (lookupIn (storeCells kv r.newCells) kt vt r.root key)) ↔
        HTree.Aligned (sameBytes vt) slotOf A B C 0 := by
      rw [HTree.merge_spec_iff hr hA.wf hB.wf hC.wf hm,
        ← forall_merges_answer_iff (hA.coded hkA) (hB.coded hkB) (hC.coded hkC) (hM.coded hkM)]
      refine forall_congr' fun key => forall_congr' fun hkey => ?_
      rw [hA.lookupIn_told hK hkA hkey, hB.lookupIn_told hK hkB hkey, hC.lookupIn_told hK hkC hkey,
        hM.lookupIn_told hK hkM hkey]
    constructor
    · exact fun h => .inl (hmerged.1 (h.merged r hrun))
    · intro h
      refine ⟨fun r' hr' => ?_, fun hnone => (by rw [hnone] at hrun; cases hrun)⟩
      rw [hrun, Option.some.injEq] at hr'
      rw [← hr']
      exact hmerged.2 (h.resolve_right fun h => hnot h.1)

/-- A JSON object, and the same members in another order. -/
def point : Value := .json (.object [("a", .int 1), ("b", .int 2)])

def pointBack : Value := .json (.object [("b", .int 2), ("a", .int 1)])

/-- Over the base `0 ↦ point`, one side writes the members in another order, and the other puts another value. -/
def reorderedFork : Fork :=
  let f := fork .int .json (fun _ => none) emptyRoot [.set (.int 0) point] []
  fork .int .json f.kv f.a [.set (.int 0) pointBack] [.set (.int 0) (.json .null)]

/-- Members in another order are no change: the merge takes the value of the other side. -/
theorem merge_per_key_reordered : ∃ A B C : Trie,
    Stored reorderedFork.kv .int .json reorderedFork.a A ∧ Stored reorderedFork.kv .int .json reorderedFork.b B ∧
    Stored reorderedFork.kv .int .json reorderedFork.base C ∧
    MergesPerKey {k | Ops.atomic k = true} reorderedFork.kv .int .json reorderedFork.a reorderedFork.b
      reorderedFork.base A B C := by
  have h₀ := @fork_stored .int .json _ (fun _ => none) emptyRoot .empty (stored_empty _) told_atomic
    (keysIn_empty _) [.set (.int 0) point] [] (by decide) (by decide) (by decide +kernel) (by decide +kernel)
    (storable_of_list (by decide +kernel))
  have h := @fork_stored .int .json _ _ _ _ h₀.a told_atomic h₀.keysA [.set (.int 0) pointBack]
    [.set (.int 0) (.json .null)] (by decide) (by decide) (by decide +kernel) (by decide +kernel)
    (storable_of_list (by decide +kernel))
  have hleaf : ∃ es, Trie.applyAll (Trie.applyAll .empty [.set (.int 0) point]) [.set (.int 0) pointBack] =
      .leaf es := by simp [Trie.applyAll, Trie.apply, HTree.insert]
  obtain ⟨es, hes⟩ := hleaf
  refine ⟨_, _, _, h.a, h.b, h.base, (merge_per_key_iff told_atomic h.a h.b h.base h.keysA h.keysB h₀.keysA
    fun r hr => storable_of_list ?_).2 (.inl ?_)⟩
  · revert r
    decide +kernel
  · rw [hes]
    exact HTree.aligned_leaf _ _ _ _

/-- Over the base `0 ↦ 10`, one side puts `1`, and the other puts `2` and removes `0`. -/
def splitFork : Fork :=
  let f := fork .int .int (fun _ => none) emptyRoot [.set (.int 0) (.int 10)] []
  fork .int .int f.kv f.a [.set (.int 1) (.int 11)] [.set (.int 2) (.int 12), .remove (.int 0)]

/-- **A merge can bring a removed key back.** Both sides have split the leaf of the base, which is then
taken as empty: the merged root answers for the removed key again. -/
theorem merge_resurrects_key : ∃ A B C : Trie,
    Stored splitFork.kv .int .int splitFork.a A ∧ Stored splitFork.kv .int .int splitFork.b B ∧
    Stored splitFork.kv .int .int splitFork.base C ∧
    (∀ r ∈ mergeThreeWay splitFork.a splitFork.b splitFork.base splitFork.kv .int .int,
      Storable splitFork.kv r.newCells) ∧
    ¬ MergesPerKey {k | Ops.atomic k = true} splitFork.kv .int .int splitFork.a splitFork.b splitFork.base A B C := by
  have h₀ := @fork_stored .int .int _ (fun _ => none) emptyRoot .empty (stored_empty _) told_atomic
    (keysIn_empty _) [.set (.int 0) (.int 10)] [] (by decide) (by decide) (by decide +kernel) (by decide +kernel)
    (storable_of_list (by decide +kernel))
  have hfork := @fork_stored .int .int _ _ _ _ h₀.a told_atomic h₀.keysA [.set (.int 1) (.int 11)]
    [.set (.int 2) (.int 12), .remove (.int 0)] (by decide) (by decide) (by decide +kernel) (by decide +kernel)
    (storable_of_list (by decide +kernel))
  refine ⟨_, _, _, hfork.a, hfork.b, hfork.base, fun r hr => storable_of_list ?_, fun h => ?_⟩
  · revert r
    decide +kernel
  · have hkept : sameValue (lookupIn splitFork.kv .int .int splitFork.a (.int 0))
        (lookupIn splitFork.kv .int .int splitFork.base (.int 0)) = true := by decide +kernel
    have hgone : lookupIn splitFork.kv .int .int splitFork.b (.int 0) = none := by decide +kernel
    have hback : (mergeThreeWay splitFork.a splitFork.b splitFork.base splitFork.kv .int .int).map
        (fun r => lookupIn (storeCells splitFork.kv r.newCells) .int .int r.root (.int 0)) =
          some (some (.int 10)) := by decide +kernel
    obtain ⟨r, hr, hr0⟩ := Option.map_eq_some_iff.1 hback
    have hm := (h.merged r hr (.int 0) rfl).left (sameValue_iff.1 hkept)
    rw [hr0, hgone] at hm
    cases hm

end Rend.Pmap
