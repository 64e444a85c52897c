import Rend.Optimize.Places

/-!
# Where jumps land

A pointer into the code is followed faithfully when the new target has at or after it exactly the
instructions that stood at or after the old one (`Lands`). The pass relocates the two kinds of jump and
no other pointer. `controlPreserved_iff` shows when all the pointers of a function are followed: no
target may stand between two reads of one cluster, and no read may join a cluster between a pointer that
is not relocated and the place it is counted from.
-/

namespace Rend.Optimize

variable {E : Effects}

/-! ### Pointers -/

/-- The places an instruction at `pc` may send control to. -/
def targets (pc : ℤ) : Instr → List ℤ
  | .jump offset | .jumpIfFalse _ offset => [pc + 1 + offset]
  | .pmapWalkNext _ _ endOffset | .pbtreeWalkNext _ _ endOffset => [pc + 1 + endOffset]
  | .parallelBegin ranges afterPc =>
    (ranges.flatMap fun r => [(r.start : ℤ), (r.end : ℤ)]) ++ [(afterPc : ℤ)]
  | .parallelForBegin bodyStart bodyEnd _ _ _ _ afterPc => [(bodyStart : ℤ), (bodyEnd : ℤ), (afterPc : ℤ)]
  | _ => []

/-- Exactly the instructions that stood at or after `t` stand at or after `t'` in the new code. -/
def Lands (E : Effects) (f : BcCode) (t t' : ℤ) : Prop :=
  ∀ i < f.code.length, t' ≤ place E f i ↔ t ≤ i

/-- Every pointer of the function is followed. -/
def ControlPreserved (E : Effects) (f : BcCode) : Prop :=
  ∀ k i, f.code[k]? = some i → ∃ i', (optimizeFn E f).code[place E f k]? = some i' ∧
    List.Forall₂ (Lands E f) (targets k i) (targets (place E f k) i')

/-- The place from which a pointer that is not relocated is counted. -/
def origin (k : ℕ) : Instr → ℕ
  | .pmapWalkNext _ _ _ | .pbtreeWalkNext _ _ _ => k
  | _ => 0

/-- What the pointers of the instruction at `k` must meet: no cluster takes reads on both sides of a
target; and no read joins a cluster between a target that is not relocated and the place it is counted
from. -/
def Followed (E : Effects) (code : List Instr) (k : ℕ) (i : Instr) : Prop :=
  ∀ t ∈ targets k i, ¬ Straddled E code t ∧ (isJump i = false → 0 < t → t < code.length →
    ∀ j, Joined E code j → ((j : ℤ) < t ↔ j < origin k i))

section Lands

variable {f : BcCode} {t t' : ℤ}

theorem lands_of_nonpos (ht : t ≤ 0) (ht' : t' ≤ 0) : Lands E f t t' := by
  intro i _
  constructor <;> intro _ <;> omega

theorem lands_of_length_le (ht : f.code.length ≤ t) (ht' : (scan E f.code f.code.length).pos ≤ t') :
    Lands E f t t' := by
  intro i hi
  have := @image_lt_pos E f.code i _ hi (le_refl _)
  rw [place_eq_image E f hi]
  constructor <;> intro _ <;> omega

theorem not_lands_of_straddled (hs : Straddled E f.code t) : ¬ Lands E f t t' := by
  intro h
  obtain ⟨i, j, hit, htj, hi, hj, him⟩ := hs.image_eq
  have h₁ := h i hi
  have h₂ := h j hj
  rw [place_eq_image E f hi] at h₁
  rw [place_eq_image E f hj] at h₂
  rw [him] at h₁
  exact absurd (h₁.1 (h₂.2 htj)) (by omega)

/-- Inside the code there is one place to land. -/
theorem lands_iff {t : ℕ} (h0 : 0 < t) (ht : t < f.code.length) (hs : ¬ Straddled E f.code t) :
    Lands E f t t' ↔ t' = (scan E f.code t).pos := by
  constructor
  · intro h
    obtain ⟨i, hit, him⟩ := @exists_image_eq_pred E f.code t h0 ht.le
    have h₁ := h i (by omega)
    have h₂ := h t ht
    rw [place_eq_image E f (by omega)] at h₁
    rw [place_eq_image E f ht, image_eq_pos ht hs] at h₂
    have h₃ : t' ≤ (scan E f.code t).pos := h₂.2 (le_refl _)
    have h₄ : ¬ t' ≤ image E f.code i := fun hle => absurd (h₁.1 hle) (by omega)
    omega
  · rintro rfl i hi
    rw [place_eq_image E f hi]
    constructor
    · intro hle
      by_contra hlt
      have := @image_lt_pos E f.code i t (by omega) ht.le
      omega
    · intro hle
      exact_mod_cast pos_le_image (by exact_mod_cast hle) hi hs

/-- Places move together exactly when no read between them joins a cluster. -/
theorem scan_pos_add_eq_iff (E : Effects) {code : List Instr} {s t : ℕ} (hst : s ≤ t) (ht : t ≤ code.length) :
    (scan E code t).pos + s ≤ (scan E code s).pos + t ∧
    ((scan E code t).pos + s = (scan E code s).pos + t ↔ ∀ j, s ≤ j → j < t → ¬ Joined E code j) := by
  induction t, hst using Nat.le_induction with
  | base => exact ⟨le_refl _, by simp; omega⟩
  | succ t hst ih =>
    obtain ⟨hle, hiff⟩ := ih (by omega)
    have hjoined : (∀ j, s ≤ j → j < t + 1 → ¬ Joined E code j) ↔
        (∀ j, s ≤ j → j < t → ¬ Joined E code j) ∧ ¬ Joined E code t := by
      constructor
      · exact fun h => ⟨fun j hj hjt => h j hj (by omega), h t hst (by omega)⟩
      · rintro ⟨h, ht⟩ j hj hjt
        rcases Nat.lt_succ_iff_lt_or_eq.1 hjt with hlt | rfl
        · exact h j hj hlt
        · exact ht
    rw [hjoined, ← hiff]
    rcases scan_cases E (show t < code.length by omega) with ⟨hr, hc, -, hp, -⟩ | ⟨hj, -, hp, -⟩ | ⟨hr, -, -, hp, -⟩
    · have hn : ¬ Joined E code t := fun h => h.2 hc
      exact ⟨by omega, fun h => ⟨by omega, hn⟩, fun h => by omega⟩
    · exact ⟨by omega, fun h => by omega, fun h => absurd hj h.2⟩
    · have hn : ¬ Joined E code t := fun h => hr h.1
      exact ⟨by omega, fun h => ⟨by omega, hn⟩, fun h => by omega⟩

/-- A pointer that keeps its distance from `o` is followed exactly when no read between `o` and its target
joins a cluster. -/
theorem lands_shift_iff {o : ℕ} (ho : o < f.code.length) :
    Lands E f t (t + (scan E f.code o).pos - o) ↔ ¬ Straddled E f.code t ∧
      (0 < t → t < f.code.length → ∀ j, Joined E f.code j → ((j : ℤ) < t ↔ j < o)) := by
  by_cases hs : Straddled E f.code t
  · exact ⟨fun h => absurd h (not_lands_of_straddled hs), fun h => absurd hs h.1⟩
  obtain ⟨ho', -⟩ := scan_pos_add_eq_iff E (Nat.zero_le o) ho.le
  have hend := (scan_pos_add_eq_iff E ho.le (le_refl f.code.length)).1
  simp only [scan_zero] at ho'
  rcases le_or_gt t 0 with h0 | h0
  · exact ⟨fun _ => ⟨hs, fun h => absurd h (by omega)⟩, fun _ => lands_of_nonpos h0 (by omega)⟩
  rcases le_or_gt (f.code.length : ℤ) t with hlen | hlen
  · exact ⟨fun _ => ⟨hs, fun _ h => absurd h (by omega)⟩, fun _ => lands_of_length_le hlen (by omega)⟩
  obtain ⟨n, rfl⟩ := Int.eq_ofNat_of_zero_le h0.le
  have hn0 : 0 < n := by exact_mod_cast h0
  have hn : n < f.code.length := by exact_mod_cast hlen
  rw [lands_iff hn0 hn hs]
  have hbetween : ((n : ℤ) + (scan E f.code o).pos - o = (scan E f.code n).pos) ↔
      ∀ j, Joined E f.code j → ((j : ℤ) < n ↔ j < o) := by
    rcases le_total o n with hon | hno
    · have hiff := (scan_pos_add_eq_iff E hon hn.le).2
      constructor
      · intro h j hj
        have := hiff.1 (by omega) j
        constructor <;> intro _ <;> by_contra _ <;> exact absurd hj (this (by omega) (by omega))
      · intro h
        have := hiff.2 fun j hj hjn hjoin => absurd ((h j hjoin).1 (by omega)) (by omega)
        omega
    · have hiff := (scan_pos_add_eq_iff E hno ho.le).2
      constructor
      · intro h j hj
        have := hiff.1 (by omega) j
        constructor <;> intro _ <;> by_contra _ <;> exact absurd hj (this (by omega) (by omega))
      · intro h
        have := hiff.2 fun j hj hjn hjoin => absurd ((h j hjoin).2 (by omega)) (by omega)
        omega
  rw [hbetween]
  exact ⟨fun h => ⟨hs, fun _ _ => h⟩, fun h => h.2 h0 hlen⟩

/-- A jump is followed exactly when no cluster takes reads on both sides of its target. -/
theorem lands_mapOrEnd_iff :
    Lands E f t (mapOrEnd (clustered E f).idxMap f.code.length (clustered E f).newCode.length t) ↔
      ¬ Straddled E f.code t := by
  by_cases hs : Straddled E f.code t
  · exact ⟨fun h => absurd h (not_lands_of_straddled hs), fun h => absurd hs h⟩
  refine ⟨fun _ => hs, fun _ => ?_⟩
  rw [mapOrEnd]
  split_ifs with hneg hlen
  · exact lands_of_nonpos hneg.le (le_refl _)
  · exact lands_of_length_le (by omega) (by rw [clustered_length])
  · obtain ⟨n, rfl⟩ := Int.eq_ofNat_of_zero_le (not_lt.1 hneg)
    have hn : n < f.code.length := by simpa using hlen
    have hfirst : firstFrom (clustered E f).idxMap (clustered E f).newCode.length n (f.code.length - n) =
        (scan E f.code n).pos := by
      obtain ⟨m, hm⟩ : ∃ m, f.code.length - n = m + 1 := ⟨f.code.length - n - 1, by omega⟩
      rw [hm, firstFrom, (clustered_placed E f (List.getElem?_eq_getElem hn)).idxMap]
      exact image_eq_pos hn hs
    rw [Int.toNat_natCast, hfirst]
    rcases Nat.eq_zero_or_pos n with rfl | hn0
    · exact lands_of_nonpos (le_refl _) (le_refl _)
    · exact (lands_iff hn0 hn hs).2 rfl

end Lands

/-! ### Every pointer -/

theorem forall₂_map_right {α : Type*} {R : α → α → Prop} (g : α → α) (l : List α) :
    List.Forall₂ R l (l.map g) ↔ ∀ a ∈ l, R a (g a) := by
  induction l with
  | nil => simp
  | cons a l ih => simp [ih]

theorem relocate_of_not_jump (s : State) (oldLen newPc : ℕ) {i : Instr} (h : isJump i = false) :
    relocate s oldLen newPc i = i := by
  cases i <;> first | rfl | cases h

/-- The new code has the instruction, relocated, at its place. -/
theorem optimizeFn_getElem? (E : Effects) (f : BcCode) {k : ℕ} {i : Instr} (hk : f.code[k]? = some i)
    (hr : readOp? i = none) : (optimizeFn E f).code[place E f k]? =
      some (relocate (clustered E f) f.code.length (place E f k) i) := by
  have hlt := (List.getElem?_eq_some_iff.1 hk).1
  rw [place_eq_image E f hlt, optimizeFn, List.getElem?_mapIdx, (clustered_placed E f hk).other hr,
    Option.map_some]

theorem targets_readOp (pc : ℤ) {i : Instr} {op : ReadOp} (h : readOp? i = some op) : targets pc i = [] := by
  rw [readOp?_eq_some.1 h]
  cases op <;> rfl

/-- A read has no pointers, wherever it has gone. -/
theorem exists_read_place (E : Effects) (f : BcCode) {k : ℕ} {i : Instr} {op : ReadOp}
    (hk : f.code[k]? = some i) (hop : readOp? i = some op) :
    ∃ i', (optimizeFn E f).code[place E f k]? = some i' ∧ ∀ pc, targets pc i' = [] := by
  have hlt := (List.getElem?_eq_some_iff.1 hk).1
  rw [place_eq_image E f hlt, optimizeFn, List.getElem?_mapIdx]
  rcases (clustered_placed E f hk).read op hop with hnew | ⟨g, hnew, -⟩
  · rw [hnew]
    refine ⟨_, rfl, fun pc => ?_⟩
    rw [relocate_of_not_jump _ _ _ (by cases op <;> rfl)]
    exact targets_readOp pc (readOp?_eq_some.2 rfl)
  · rw [hnew]
    exact ⟨_, rfl, fun pc => rfl⟩

/-- An instruction that is not relocated keeps the distance of its pointers from their origin. -/
theorem targets_eq_map {code : List Instr} {k : ℕ} {i : Instr} (hj : isJump i = false) :
    targets (scan E code k).pos i =
      (targets k i).map fun t : ℤ => t + (scan E code (origin k i)).pos - origin k i := by
  cases i <;> try rfl
  case jump => cases hj
  case jumpIfFalse => cases hj
  case parallelBegin ranges afterPc => simp [targets, origin]
  case pmapWalkNext =>
    simp only [targets, origin, List.map_cons, List.map_nil, List.cons.injEq, and_true]
    omega
  case pbtreeWalkNext =>
    simp only [targets, origin, List.map_cons, List.map_nil, List.cons.injEq, and_true]
    omega

/-- A jump is sent where the pass maps its target. -/
theorem targets_relocate {f : BcCode} {k pc : ℕ} {i : Instr} (hj : isJump i = true)
    (hold : (clustered E f).newJumpOld pc = some k) :
    targets pc (relocate (clustered E f) f.code.length pc i) = (targets k i).map
      (mapOrEnd (clustered E f).idxMap f.code.length (clustered E f).newCode.length) := by
  cases i <;> first | (cases hj; done) | skip
  all_goals
    simp only [relocate, hold, Option.getD_some, targets, List.map_cons, List.map_nil, List.cons.injEq, and_true]
    omega

/-- The pointers of one instruction are followed exactly when they meet the condition. -/
theorem followed_iff (E : Effects) (f : BcCode) {k : ℕ} {i : Instr} (hk : f.code[k]? = some i) :
    (∃ i', (optimizeFn E f).code[place E f k]? = some i' ∧
      List.Forall₂ (Lands E f) (targets k i) (targets (place E f k) i')) ↔ Followed E f.code k i := by
  have hlt := (List.getElem?_eq_some_iff.1 hk).1
  have h0 : 0 < f.code.length := by omega
  cases hr : readOp? i with
  | some op =>
    obtain ⟨i', hi', ht⟩ := exists_read_place E f hk hr
    rw [Followed, targets_readOp _ hr]
    exact ⟨fun _ t ht => absurd ht (by simp), fun _ => ⟨i', hi', by rw [ht]; exact .nil⟩⟩
  | none =>
    have hplace : place E f k = (scan E f.code k).pos := by
      rw [place_eq_image E f hlt, image, if_neg (by simp [isRead, hk, hr])]
    have hnew := optimizeFn_getElem? E f hk hr
    simp only [hnew, Option.some.injEq, exists_eq_left']
    cases hj : isJump i with
    | true =>
      have hold : (clustered E f).newJumpOld (place E f k) = some k := by
        rw [place_eq_image E f hlt]
        exact (clustered_placed E f hk).jump hj
      rw [targets_relocate hj hold, forall₂_map_right]
      refine forall₂_congr fun t _ => ?_
      rw [lands_mapOrEnd_iff]
      exact ⟨fun h => ⟨h, fun hf => by rw [hj] at hf; cases hf⟩, fun h => h.1⟩
    | false =>
      have horigin : origin k i < f.code.length := by
        unfold origin
        split <;> omega
      rw [relocate_of_not_jump _ _ _ hj, hplace, targets_eq_map hj, forall₂_map_right]
      refine forall₂_congr fun t _ => ?_
      rw [lands_shift_iff horigin]
      exact ⟨fun h => ⟨h.1, fun _ => h.2⟩, fun h => ⟨h.1, h.2 hj⟩⟩

/-- **The pass preserves control exactly when every pointer meets the condition.** -/
theorem controlPreserved_iff (E : Effects) (f : BcCode) :
    ControlPreserved E f ↔ ∀ k i, f.code[k]? = some i → Followed E f.code k i := by
  constructor
  · exact fun h k i hk => (followed_iff E f hk).1 (h k i hk)
  · exact fun h k i hk => (followed_iff E f hk).2 (h k i hk)

/-- `for x in m { let p = a; let q = b; } return 7;`, where `m` is a pmap. -/
def walkLoop : BcCode where
  code := [.pmapWalkInit 0 2, .pmapWalkNext 0 1 3, .kvGet 2 0, .kvGet 3 1, .jump (-4), .loadConst 0 0, .ret 0]

/-- The end of the walk skips the constant that is to be returned. -/
theorem walk_end_not_followed : ¬ ControlPreserved ⟨fun _ => none, []⟩ walkLoop := by
  intro h
  obtain ⟨i, hi, hl⟩ := h 1 (.pmapWalkNext 0 1 3) rfl
  have hcode : (optimizeFn ⟨fun _ => none, []⟩ walkLoop).code[place ⟨fun _ => none, []⟩ walkLoop 1]? =
      some (.pmapWalkNext 0 1 3) := by decide +kernel
  obtain rfl : i = .pmapWalkNext 0 1 3 := by
    rw [hcode] at hi
    exact (Option.some.inj hi).symm
  have hland := (List.forall₂_cons.1 hl).1 5 (by decide)
  have hplaces : place ⟨fun _ => none, []⟩ walkLoop 1 = 1 ∧ place ⟨fun _ => none, []⟩ walkLoop 5 = 4 := by
    decide +kernel
  rw [hplaces.1, hplaces.2] at hland
  exact absurd (hland.2 (by decide)) (by decide)

end Rend.Optimize
