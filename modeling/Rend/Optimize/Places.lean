import Rend.Optimize.Pass

/-!
# Where instructions go

The pass shortens the code. `Scan` says where it puts each instruction, without its queues: a read that
joins an open cluster goes where the cluster stands, and every other instruction goes to the next free
place. `clustered_placed` shows that the pass does so. The places before and after a target stay apart
unless a cluster takes reads on both sides of it (`Straddled`).
-/

namespace Rend.Optimize

variable {E : Effects}

/-! ### Clusters -/

/-- The registers that the open cluster is to write, after one more instruction. -/
def openStep (E : Effects) (dsts : List Reg) (i : Instr) : List Reg :=
  match readOp? i with
  | some op => dsts ++ [op.dst]
  | none => if clusterBreaker E i || readsPendingDst i dsts then [] else dsts

/-- The registers that the cluster open before place `t` is to write. -/
def openReads (E : Effects) (code : List Instr) (t : ℕ) : List Reg := (code.take t).foldl (openStep E) []

/-- The instruction at `j` is a read. -/
def isRead (code : List Instr) (j : ℕ) : Bool := ((code[j]?).bind readOp?).isSome

/-- The instruction at `j` is a read that joins an open cluster. -/
def Joined (E : Effects) (code : List Instr) (j : ℕ) : Prop := isRead code j ∧ openReads E code j ≠ []

/-- A cluster that is open before `t` takes a read at or after `t`. -/
def Straddled (E : Effects) (code : List Instr) (t : ℤ) : Prop :=
  ∃ j : ℕ, t ≤ j ∧ Joined E code j ∧ ∀ k : ℕ, t ≤ k → k ≤ j → openReads E code k ≠ []

/-! ### Places -/

/-- What is known of the new code after some instructions. -/
structure Scan where
  dsts : List Reg
  /-- Where the open cluster stands. -/
  slot : ℕ
  /-- The next free place. -/
  pos : ℕ

def Scan.step (E : Effects) (c : Scan) (i : Instr) : Scan :=
  match readOp? i with
  | some op => if c.dsts = [] then ⟨[op.dst], c.pos, c.pos + 1⟩ else ⟨c.dsts ++ [op.dst], c.slot, c.pos⟩
  | none => ⟨openStep E c.dsts i, c.slot, c.pos + 1⟩

/-- The scan before place `t`. -/
def scan (E : Effects) (code : List Instr) (t : ℕ) : Scan := (code.take t).foldl (Scan.step E) ⟨[], 0, 0⟩

/-- Where the instruction at `k` goes. -/
def image (E : Effects) (code : List Instr) (k : ℕ) : ℕ :=
  if isRead code k then (scan E code (k + 1)).slot else (scan E code k).pos

@[simp] theorem scan_zero (code : List Instr) : scan E code 0 = ⟨[], 0, 0⟩ := rfl

theorem scan_succ {code : List Instr} {t : ℕ} {i : Instr} (h : code[t]? = some i) :
    scan E code (t + 1) = (scan E code t).step E i := by
  rw [scan, List.take_add_one, h, Option.toList_some, List.foldl_append, List.foldl_cons, List.foldl_nil,
    scan]

theorem openReads_succ {code : List Instr} {t : ℕ} {i : Instr} (h : code[t]? = some i) :
    openReads E code (t + 1) = openStep E (openReads E code t) i := by
  rw [openReads, List.take_add_one, h, Option.toList_some, List.foldl_append, List.foldl_cons,
    List.foldl_nil, openReads]

theorem Scan.step_dsts (c : Scan) (i : Instr) : (c.step E i).dsts = openStep E c.dsts i := by
  unfold Scan.step openStep
  cases readOp? i with
  | none => rfl
  | some op =>
    dsimp only
    split_ifs with h
    · rw [h]
      rfl
    · rfl

theorem scan_dsts (code : List Instr) (t : ℕ) : (scan E code t).dsts = openReads E code t := by
  rw [scan, openReads]
  induction code.take t using List.reverseRecOn with
  | nil => rfl
  | append_singleton p i ih =>
    rw [List.foldl_append, List.foldl_append, List.foldl_cons, List.foldl_nil, List.foldl_cons,
      List.foldl_nil, Scan.step_dsts, ih]

theorem lt_of_isRead {code : List Instr} {t : ℕ} (h : isRead code t) : t < code.length := by
  by_contra hge
  rw [isRead, List.getElem?_eq_none (by omega)] at h
  cases h

/-- An instruction opens a cluster at the next free place, joins the open cluster, or takes the next free
place and leaves the cluster open or not. -/
theorem scan_cases (E : Effects) {code : List Instr} {t : ℕ} (ht : t < code.length) :
    (isRead code t ∧ openReads E code t = [] ∧ (scan E code (t + 1)).slot = (scan E code t).pos ∧
      (scan E code (t + 1)).pos = (scan E code t).pos + 1 ∧ image E code t = (scan E code t).pos) ∨
    (Joined E code t ∧ (scan E code (t + 1)).slot = (scan E code t).slot ∧
      (scan E code (t + 1)).pos = (scan E code t).pos ∧ image E code t = (scan E code t).slot) ∨
    (¬ isRead code t ∧ (openReads E code (t + 1) ≠ [] → openReads E code t ≠ []) ∧
      (scan E code (t + 1)).slot = (scan E code t).slot ∧
      (scan E code (t + 1)).pos = (scan E code t).pos + 1 ∧ image E code t = (scan E code t).pos) := by
  obtain ⟨i, hi⟩ : ∃ i, code[t]? = some i := ⟨_, List.getElem?_eq_getElem ht⟩
  unfold image Joined isRead
  rw [scan_succ hi, openReads_succ hi, openStep, hi, Option.bind_some, Scan.step, scan_dsts]
  cases hr : readOp? i with
  | none =>
    refine .inr (.inr ⟨Bool.false_ne_true, ?_, rfl, rfl, rfl⟩)
    dsimp only
    split_ifs
    · exact fun h => absurd rfl h
    · exact id
  | some op =>
    dsimp only
    by_cases hd : openReads E code t = []
    · rw [if_pos hd]
      exact .inl ⟨rfl, hd, rfl, rfl, rfl⟩
    · rw [if_neg hd]
      exact .inr (.inl ⟨⟨rfl, hd⟩, rfl, rfl, rfl⟩)

theorem scan_pos_mono (E : Effects) {code : List Instr} {s t : ℕ} (hst : s ≤ t) (ht : t ≤ code.length) :
    (scan E code s).pos ≤ (scan E code t).pos := by
  induction t, hst using Nat.le_induction with
  | base => exact le_refl _
  | succ t hst ih =>
    have hle := ih (by omega)
    rcases scan_cases E (show t < code.length by omega) with ⟨-, -, -, h, -⟩ | ⟨-, -, h, -⟩ | ⟨-, -, -, h, -⟩ <;>
      omega

/-- An open cluster stands where the read that opened it went. -/
theorem exists_opening {code : List Instr} {t : ℕ} (ht : t ≤ code.length) (ho : openReads E code t ≠ []) :
    ∃ f < t, isRead code f ∧ image E code f = (scan E code t).slot ∧
      (scan E code f).pos = (scan E code t).slot ∧ (scan E code (f + 1)).pos = (scan E code t).slot + 1 := by
  induction t with
  | zero => exact absurd rfl ho
  | succ t ih =>
    rcases scan_cases E (show t < code.length by omega) with
      ⟨hr, -, hs, hp, hi⟩ | ⟨hj, hs, hp, -⟩ | ⟨-, hkeep, hs, hp, -⟩
    · exact ⟨t, by omega, hr, by rw [hi, hs], hs.symm, by omega⟩
    · obtain ⟨f, hf, h⟩ := ih (by omega) hj.2
      exact ⟨f, by omega, by rwa [hs]⟩
    · obtain ⟨f, hf, h⟩ := ih (by omega) (hkeep ho)
      exact ⟨f, by omega, by rwa [hs]⟩

theorem slot_lt_pos {code : List Instr} {t : ℕ} (ht : t ≤ code.length) (ho : openReads E code t ≠ []) :
    (scan E code t).slot < (scan E code t).pos := by
  obtain ⟨f, hf, -, -, -, hp⟩ := exists_opening ht ho
  have hmono := scan_pos_mono E (show f + 1 ≤ t from hf) ht
  omega

/-- A cluster opened at or after `s` stands at or after the place free before `s`. -/
theorem pos_le_slot {code : List Instr} {s t : ℕ} (hst : s ≤ t) (ht : t ≤ code.length)
    (hs : openReads E code s = []) (ho : openReads E code t ≠ []) :
    (scan E code s).pos ≤ (scan E code t).slot := by
  induction t, hst using Nat.le_induction with
  | base => exact absurd hs ho
  | succ t hst ih =>
    rcases scan_cases E (show t < code.length by omega) with
      ⟨-, -, hslot, -, -⟩ | ⟨hj, hslot, -, -⟩ | ⟨-, hkeep, hslot, -, -⟩
    · rw [hslot]
      exact scan_pos_mono E hst (by omega)
    · rw [hslot]
      exact ih (by omega) hj.2
    · rw [hslot]
      exact ih (by omega) (hkeep ho)

/-- A cluster that stays open stays where it is. -/
theorem slot_eq_of_open {code : List Instr} {s t : ℕ} (hst : s ≤ t) (ht : t ≤ code.length)
    (ho : ∀ k, s ≤ k → k ≤ t → openReads E code k ≠ []) : (scan E code t).slot = (scan E code s).slot := by
  induction t, hst using Nat.le_induction with
  | base => rfl
  | succ t hst ih =>
    have hslot := ih (by omega) fun k hk hkt => ho k hk (by omega)
    rcases scan_cases E (show t < code.length by omega) with ⟨-, hc, -⟩ | ⟨-, hs, -⟩ | ⟨-, -, hs, -⟩
    · exact absurd hc (ho t hst (by omega))
    · rw [hs, hslot]
    · rw [hs, hslot]

/-! ### Places around a target -/

theorem image_lt_pos {code : List Instr} {i t : ℕ} (hit : i < t) (ht : t ≤ code.length) :
    image E code i < (scan E code t).pos := by
  have hmono := scan_pos_mono E (show i + 1 ≤ t from hit) ht
  rcases scan_cases E (show i < code.length by omega) with
    ⟨-, -, -, hp, hi⟩ | ⟨hj, -, hp, hi⟩ | ⟨-, -, -, hp, hi⟩
  · omega
  · have hlt := slot_lt_pos (show i ≤ code.length by omega) hj.2
    omega
  · omega

/-- Only reads go into a cluster. -/
theorem image_ne_slot {code : List Instr} {k t : ℕ} (hkt : k < t) (ht : t ≤ code.length)
    (ho : openReads E code t ≠ []) (hk : ¬ isRead code k) : image E code k ≠ (scan E code t).slot := by
  obtain ⟨f, hf, hr, -, hpf, hps⟩ := exists_opening ht ho
  rcases lt_trichotomy k f with hlt | rfl | hgt
  · have := @image_lt_pos E code k f hlt (by omega)
    omega
  · exact absurd hr hk
  · have hmono := scan_pos_mono E (show f + 1 ≤ k from hgt) (show k ≤ code.length by omega)
    rw [image, if_neg hk]
    omega

theorem pos_le_image {code : List Instr} {i t : ℕ} (hti : t ≤ i) (hi : i < code.length)
    (hs : ¬ Straddled E code t) : (scan E code t).pos ≤ image E code i := by
  have hmono := scan_pos_mono E hti (le_of_lt hi)
  rcases scan_cases E hi with ⟨-, -, -, -, him⟩ | ⟨hj, -, -, him⟩ | ⟨-, -, -, -, him⟩
  · omega
  · -- the cluster it joins was opened after `t`, or `t` would be straddled
    obtain ⟨k, htk, hki, hk⟩ : ∃ k, t ≤ k ∧ k ≤ i ∧ openReads E code k = [] := by
      by_contra hcon
      push Not at hcon
      exact hs ⟨i, by exact_mod_cast hti, hj, fun k hk hki => hcon k (by exact_mod_cast hk) hki⟩
    rw [him]
    exact (scan_pos_mono E htk (by omega)).trans (pos_le_slot hki (le_of_lt hi) hk hj.2)
  · omega

theorem image_eq_pos {code : List Instr} {t : ℕ} (ht : t < code.length) (hs : ¬ Straddled E code t) :
    image E code t = (scan E code t).pos := by
  rcases scan_cases E ht with ⟨-, -, -, -, him⟩ | ⟨hj, -⟩ | ⟨-, -, -, -, him⟩
  · exact him
  · refine absurd ⟨t, le_refl _, hj, fun k hk hkt => ?_⟩ hs
    obtain rfl : k = t := by omega
    exact hj.2
  · exact him

theorem exists_image_eq_pred {code : List Instr} {t : ℕ} (h0 : 0 < t) (ht : t ≤ code.length) :
    ∃ i < t, image E code i + 1 = (scan E code t).pos := by
  induction t with
  | zero => exact absurd h0 (lt_irrefl _)
  | succ t ih =>
    rcases scan_cases E (show t < code.length by omega) with
      ⟨-, -, -, hp, hi⟩ | ⟨hj, -, hp, -⟩ | ⟨-, -, -, hp, hi⟩
    · exact ⟨t, by omega, by omega⟩
    · have hpos : 0 < t := Nat.pos_of_ne_zero fun h0 => hj.2 (by rw [h0]; rfl)
      obtain ⟨i, hi, him⟩ := ih hpos (by omega)
      exact ⟨i, by omega, by omega⟩
    · exact ⟨t, by omega, by omega⟩

/-- The places before and after a straddled target are one. -/
theorem Straddled.image_eq {code : List Instr} {t : ℤ} (h : Straddled E code t) :
    ∃ f j : ℕ, (f : ℤ) < t ∧ t ≤ j ∧ f < code.length ∧ j < code.length ∧ image E code f = image E code j := by
  obtain ⟨j, htj, hj, ho⟩ := h
  have hlen : j < code.length := lt_of_isRead hj.1
  have ht0 : 0 < t := by
    by_contra hneg
    exact ho 0 (by omega) (Nat.zero_le _) rfl
  obtain ⟨s, rfl⟩ := Int.eq_ofNat_of_zero_le ht0.le
  have hsj : s ≤ j := by exact_mod_cast htj
  obtain ⟨f, hf, -, hif, -⟩ := exists_opening (show s ≤ code.length by omega) (ho s (le_refl _) hsj)
  have hslot := slot_eq_of_open hsj (le_of_lt hlen) fun k hk hkj => ho k (by exact_mod_cast hk) hkj
  refine ⟨f, j, by exact_mod_cast hf, htj, by omega, hlen, ?_⟩
  rcases scan_cases E hlen with ⟨-, hc, -⟩ | ⟨-, -, -, him⟩ | ⟨hn, -⟩
  · exact absurd hc hj.2
  · rw [hif, him, hslot]
  · exact absurd hj.1 hn

/-! ### The pass -/

/-- The instruction that stood at `k` has gone to `j`: as it is, or into a batch. -/
structure Placed (s : State) (k : ℕ) (i : Instr) (j : ℕ) : Prop where
  idxMap : s.idxMap k = some j
  lt : j < s.newCode.length
  other : readOp? i = none → s.newCode[j]? = some i
  read : ∀ op, readOp? i = some op → s.newCode[j]? = some op.instr ∨
    ∃ g, s.newCode[j]? = some (.readBatch g) ∧ ∃ group ∈ s.readGroups, op ∈ group
  jump : isJump i = true → s.newJumpOld j = some k

theorem Placed.emit {s : State} {k j old : ℕ} {i : Instr} (h : Placed s k i j) (hk : k ≠ old) (i' : Instr) :
    Placed (s.emit old i') k i j where
  idxMap := by
    rw [← h.idxMap]
    exact Function.update_of_ne hk _ _
  lt := by
    have := h.lt
    simp only [State.emit, List.length_append, List.length_singleton]
    omega
  other hr := by
    rw [← h.other hr]
    exact List.getElem?_append_left h.lt
  read op hop := by
    simp only [State.emit, List.getElem?_append_left h.lt]
    exact h.read op hop
  jump hj := by
    simp only [State.emit]
    split_ifs
    · rw [Function.update_of_ne (by have := h.lt; omega), h.jump hj]
    · exact h.jump hj

theorem readOp?_eq_some {i : Instr} {op : ReadOp} : readOp? i = some op ↔ i = op.instr := by
  constructor
  · intro h
    cases i <;> simp only [readOp?, reduceCtorEq, Option.some.injEq] at h <;> rw [← h] <;> rfl
  · rintro rfl
    cases op <;> rfl

theorem placed_emit (s : State) (old : ℕ) (i : Instr) : Placed (s.emit old i) old i s.newCode.length where
  idxMap := Function.update_self _ _ _
  lt := by simp [State.emit]
  other _ := by simp [State.emit]
  read op hop := .inl (by simp [State.emit, readOp?_eq_some.1 hop])
  jump hj := by
    simp only [State.emit, hj, if_true]
    exact Function.update_self _ _ _

/-- What emitting the instructions that waited does. -/
theorem foldl_emit (l : List (ℕ × Instr)) (s : State) :
    (l.foldl (fun s p => s.emit p.1 p.2) s).newCode = s.newCode ++ l.map Prod.snd ∧
    (l.foldl (fun s p => s.emit p.1 p.2) s).cluster = s.cluster ∧
    (l.foldl (fun s p => s.emit p.1 p.2) s).clusterOld = s.clusterOld ∧
    (l.foldl (fun s p => s.emit p.1 p.2) s).readGroups = s.readGroups ∧
    ∀ k ∉ l.map Prod.fst, (l.foldl (fun s p => s.emit p.1 p.2) s).idxMap k = s.idxMap k := by
  induction l generalizing s with
  | nil => simp
  | cons p l ih =>
    obtain ⟨hc, hcl, hco, hrg, hm⟩ := ih (s.emit p.1 p.2)
    rw [List.foldl_cons]
    refine ⟨?_, hcl, hco, hrg, fun k hk => ?_⟩
    · rw [hc, State.emit, List.map_cons, List.append_assoc, List.singleton_append]
    · rw [List.map_cons, List.mem_cons, not_or] at hk
      rw [hm k hk.2]
      exact Function.update_of_ne hk.1 _ _

/-- The instructions that waited go to the same places behind any two clusters of one length. -/
theorem foldl_emit_congr (l : List (ℕ × Instr)) {a b : State} (hlen : a.newCode.length = b.newCode.length)
    (hjump : a.newJumpOld = b.newJumpOld) {old : ℕ} (hmap : ∀ k ≠ old, a.idxMap k = b.idxMap k) :
    (l.foldl (fun s p => s.emit p.1 p.2) a).newJumpOld = (l.foldl (fun s p => s.emit p.1 p.2) b).newJumpOld ∧
    ∀ k ≠ old, (l.foldl (fun s p => s.emit p.1 p.2) a).idxMap k =
      (l.foldl (fun s p => s.emit p.1 p.2) b).idxMap k := by
  induction l generalizing a b with
  | nil => exact ⟨hjump, hmap⟩
  | cons p l ih =>
    refine @ih (a.emit p.1 p.2) (b.emit p.1 p.2) ?_ ?_ fun k hk => ?_
    · simp [State.emit, hlen]
    · simp only [State.emit, hlen, hjump]
    · simp only [State.emit, hlen, Function.update_apply, hmap k hk]

theorem State.emitCluster_cluster (s : State) : s.emitCluster.cluster = [] := by
  unfold State.emitCluster
  split <;> first | assumption | rfl

theorem State.emitCluster_pendingNonreads (s : State) :
    s.emitCluster.pendingNonreads = s.pendingNonreads := by
  unfold State.emitCluster
  split <;> rfl

theorem State.flush_eq (s : State) : s.flush =
    { s.pendingNonreads.foldl (fun s p => s.emit p.1 p.2) s.emitCluster with
      pendingNonreads := [], clusterDsts := [] } := by
  rw [State.flush]
  dsimp only
  rw [s.emitCluster_pendingNonreads]

theorem State.flush_cluster (s : State) : s.flush.cluster = [] := by
  have h := (foldl_emit s.emitCluster.pendingNonreads s.emitCluster).2.1
  rw [s.emitCluster_cluster] at h
  exact h

theorem State.flush_of_closed {s : State} (hc : s.cluster = []) (hp : s.pendingNonreads = [])
    (hd : s.clusterDsts = []) : s.flush = s := by
  have he : s.emitCluster = s := by rw [State.emitCluster, hc]
  rw [State.flush, he, hp]
  cases s
  subst hp hd
  rfl

theorem foldl_emit_pendingNonreads (l : List (ℕ × Instr)) (s : State) (q : List (ℕ × Instr)) :
    l.foldl (fun s p => s.emit p.1 p.2) { s with pendingNonreads := q } =
      { l.foldl (fun s p => s.emit p.1 p.2) s with pendingNonreads := q } := by
  induction l generalizing s with
  | nil => rfl
  | cons p l ih => exact ih (s.emit p.1 p.2)

/-- Waiting behind a cluster is being emitted once it is closed. -/
theorem State.flush_wait (s : State) (old : ℕ) (i : Instr) :
    State.flush { s with pendingNonreads := s.pendingNonreads ++ [(old, i)] } = s.flush.emit old i := by
  have he : State.emitCluster { s with pendingNonreads := s.pendingNonreads ++ [(old, i)] } =
      { s.emitCluster with pendingNonreads := s.pendingNonreads ++ [(old, i)] } := by
    rcases s with ⟨_, _ | ⟨op, _ | ⟨op', ops⟩⟩, _, _, _, _, _, _⟩ <;> rfl
  unfold State.flush
  rw [he]
  dsimp only
  rw [foldl_emit_pendingNonreads, List.foldl_append, s.emitCluster_pendingNonreads]
  rfl

/-- A read that finds no cluster open goes to the next free place. -/
theorem State.flush_open {s : State} (hc : s.cluster = []) (hco : s.clusterOld = [])
    (hp : s.pendingNonreads = []) (hd : s.clusterDsts = []) (old : ℕ) (op : ReadOp) :
    (s.addRead old op).flush = s.emit old op.instr := by
  cases s
  subst hc hco hp hd
  cases op <;> rfl

/-- The cluster becomes one instruction. -/
theorem State.emitCluster_eq {s : State} (hc : s.cluster ≠ []) : ∃ i groups, s.emitCluster =
      { s with newCode := s.newCode ++ [i]
               idxMap := s.clusterOld.foldl (fun m old => Function.update m old (some s.newCode.length)) s.idxMap
               cluster := [], clusterOld := [], readGroups := groups } ∧
      ((∃ op, s.cluster = [op] ∧ i = op.instr ∧ groups = s.readGroups) ∨
        (2 ≤ s.cluster.length ∧ (∃ g, i = .readBatch g) ∧ groups = s.readGroups ++ [s.cluster])) := by
  rcases s with ⟨_, _ | ⟨op, _ | ⟨op', ops⟩⟩, _, _, _, _, _, _⟩
  · exact absurd rfl hc
  · exact ⟨_, _, rfl, .inl ⟨op, rfl, rfl, rfl⟩⟩
  · exact ⟨_, _, rfl, .inr ⟨by simp, ⟨_, rfl⟩, rfl⟩⟩

/-- A read that joins a cluster goes where the cluster stands, and nothing else moves. -/
theorem State.flush_join {s : State} (hc : s.cluster ≠ []) {old : ℕ}
    (hold : old ∉ s.pendingNonreads.map Prod.fst) (op : ReadOp) :
    (s.addRead old op).flush.newCode.length = s.flush.newCode.length ∧
      (s.addRead old op).flush.newJumpOld = s.flush.newJumpOld ∧
      (s.addRead old op).flush.idxMap old = some s.newCode.length ∧
      (∀ k ≠ old, (s.addRead old op).flush.idxMap k = s.flush.idxMap k) ∧
      (∀ j ≠ s.newCode.length, (s.addRead old op).flush.newCode[j]? = s.flush.newCode[j]?) ∧
      (∃ g, (s.addRead old op).flush.newCode[s.newCode.length]? = some (.readBatch g)) ∧
      s.cluster ++ [op] ∈ (s.addRead old op).flush.readGroups ∧
      (∀ group ∈ s.flush.readGroups, ∃ group' ∈ (s.addRead old op).flush.readGroups, group ⊆ group') ∧
      (∀ op', s.flush.newCode[s.newCode.length]? = some op'.instr → op' ∈ s.cluster) := by
  have hlen : 2 ≤ (s.addRead old op).cluster.length := by
    have := List.length_pos_of_ne_nil hc
    simp only [State.addRead, List.length_append, List.length_singleton]
    omega
  obtain ⟨i, groups, hb, hcase⟩ := State.emitCluster_eq hc
  obtain ⟨i', groups', ha, hcase'⟩ := @State.emitCluster_eq (s.addRead old op) (by
    intro hnil
    rw [hnil] at hlen
    simp at hlen)
  obtain ⟨⟨g, rfl⟩, rfl⟩ : (∃ g, i' = .readBatch g) ∧
      groups' = (s.addRead old op).readGroups ++ [(s.addRead old op).cluster] := by
    rcases hcase' with ⟨op', hop', -, -⟩ | ⟨-, hg, hgs⟩
    · rw [hop'] at hlen
      simp at hlen
    · exact ⟨hg, hgs⟩
  -- what waits goes behind the one instruction of either cluster
  obtain ⟨hjump, hmap⟩ := @foldl_emit_congr s.pendingNonreads (s.addRead old op).emitCluster s.emitCluster
    (by rw [ha, hb]; simp [State.addRead]) (by rw [ha, hb]; rfl) old (fun k hk => by
      rw [ha, hb]
      simp only [State.addRead, List.foldl_append, List.foldl_cons, List.foldl_nil]
      exact Function.update_of_ne hk _ _)
  obtain ⟨hcode, -, -, hgroups, hkeep⟩ := foldl_emit s.pendingNonreads (s.addRead old op).emitCluster
  obtain ⟨hcode', -, -, hgroups', -⟩ := foldl_emit s.pendingNonreads s.emitCluster
  have hacode : (s.addRead old op).emitCluster.newCode = s.newCode ++ [.readBatch g] := by
    rw [ha]
    rfl
  have hagroups : (s.addRead old op).emitCluster.readGroups = s.readGroups ++ [s.cluster ++ [op]] := by
    rw [ha]
    rfl
  have hbcode : s.emitCluster.newCode = s.newCode ++ [i] := by rw [hb]
  have hbgroups : s.emitCluster.readGroups = groups := by rw [hb]
  rw [(s.addRead old op).flush_eq, s.flush_eq]
  dsimp only
  rw [show (s.addRead old op).pendingNonreads = s.pendingNonreads from rfl, hcode, hcode', hgroups, hgroups',
    hkeep old hold, hacode, hbcode, hagroups, hbgroups]
  refine ⟨by simp, hjump, ?_, hmap, fun j hj => ?_, ⟨g, by simp⟩, by simp, fun group hgroup => ?_,
    fun op' hop' => ?_⟩
  · rw [ha]
    simp [State.addRead]
  · rcases lt_or_gt_of_ne hj with hlt | hgt
    · simp only [List.append_assoc, List.getElem?_append_left hlt]
    · rw [List.getElem?_append_right (by simp; omega), List.getElem?_append_right (by simp; omega)]
      simp
  · rcases hcase with ⟨op₀, -, -, rfl⟩ | ⟨-, -, rfl⟩
    · exact ⟨group, List.mem_append_left _ hgroup, fun _ h => h⟩
    · rcases List.mem_append.1 hgroup with hgroup | hgroup
      · exact ⟨group, List.mem_append_left _ hgroup, fun _ h => h⟩
      · rw [List.mem_singleton.1 hgroup]
        exact ⟨s.cluster ++ [op], by simp, List.subset_append_left _ _⟩
  · have hi : i = op'.instr := by simpa using hop'
    rcases hcase with ⟨op₀, hcl, rfl, -⟩ | ⟨-, ⟨g', rfl⟩, -⟩
    · rw [hcl, ReadOp.instr_injective hi]
      exact List.mem_singleton_self _
    · exact absurd hi.symm (op'.instr_ne_readBatch g')

/-! ### The pass follows the scan -/

theorem State.run_append (s : State) (old : ℕ) (p : List Instr) (i : Instr) :
    s.run E old (p ++ [i]) = (s.run E old p).step E (old + p.length) i := by
  induction p generalizing s old with
  | nil => rfl
  | cons j p ih =>
    rw [List.cons_append, State.run, ih, State.run, List.length_cons]
    congr 1
    omega

theorem image_append {p : List Instr} (i : Instr) {k : ℕ} (hk : k < p.length) :
    image E (p ++ [i]) k = image E p k := by
  unfold image scan isRead
  rw [List.getElem?_append_left hk, List.take_append_of_le_length hk.le, List.take_append_of_le_length hk]

theorem scan_append (p : List Instr) (i : Instr) :
    scan E (p ++ [i]) (p.length + 1) = (scan E p p.length).step E i := by
  rw [scan_succ (i := i) (by simp), scan, scan, List.take_append_of_le_length (le_refl _)]

/-- How the pass stands after the instructions `p`. -/
structure Follows (E : Effects) (p : List Instr) (s : State) : Prop where
  dsts : s.clusterDsts = (scan E p p.length).dsts
  cluster : s.cluster.map ReadOp.dst = s.clusterDsts
  old : s.cluster = [] → s.clusterOld = []
  closed : s.cluster = [] → s.pendingNonreads = []
  slot : s.cluster ≠ [] → s.newCode.length = (scan E p p.length).slot
  waiting : ∀ q ∈ s.pendingNonreads, q.1 < p.length
  length : s.flush.newCode.length = (scan E p p.length).pos
  placed : ∀ k i, p[k]? = some i → Placed s.flush k i (image E p k)

theorem readsPendingDst_readOp {i : Instr} {op : ReadOp} (h : readOp? i = some op) (dsts : List Reg) :
    readsPendingDst i dsts = false := by
  rw [readOp?_eq_some.1 h]
  cases op <;> rfl

theorem Follows.closed_flush {p : List Instr} {s : State} (h : Follows E p s) (hc : s.cluster = []) :
    s.flush = s :=
  State.flush_of_closed hc (h.closed hc) (by rw [← h.cluster, hc, List.map_nil])

theorem Follows.flush_clusterOld {p : List Instr} {s : State} (h : Follows E p s) :
    s.flush.clusterOld = [] := by
  by_cases hc : s.cluster = []
  · rw [h.closed_flush hc, h.old hc]
  · obtain ⟨i, groups, he, -⟩ := State.emitCluster_eq hc
    rw [s.flush_eq]
    dsimp only
    rw [(foldl_emit s.pendingNonreads s.emitCluster).2.2.1, he]

/-- An instruction that is no read goes behind all that came before it. -/
theorem Follows.flush_step {p : List Instr} {s : State} (h : Follows E p s) {i : Instr}
    (hr : readOp? i = none) (old : ℕ) : (s.step E old i).flush = s.flush.emit old i := by
  rw [State.step, hr]
  dsimp only
  split_ifs with hflush hempty
  · refine State.flush_of_closed ?_ ?_ ?_
    · exact s.flush_cluster
    · rfl
    · rfl
  · have hc : s.cluster = [] := List.isEmpty_iff.1 hempty
    have hd : s.clusterDsts = [] := by rw [← h.cluster, hc, List.map_nil]
    rw [h.closed_flush hc]
    exact State.flush_of_closed hc (h.closed hc) hd
  · exact s.flush_wait old i

/-- What was placed before an instruction stays, and the instruction is placed. -/
theorem placed_append {p : List Instr} {t : State} {i : Instr}
    (hold : ∀ k j, p[k]? = some j → Placed t k j (image E p k))
    (hnew : Placed t p.length i (image E (p ++ [i]) p.length)) :
    ∀ k j, (p ++ [i])[k]? = some j → Placed t k j (image E (p ++ [i]) k) := by
  intro k j hk
  rcases lt_or_ge k p.length with hlt | hge
  · rw [List.getElem?_append_left hlt] at hk
    rw [image_append i hlt]
    exact hold k j hk
  · obtain rfl : k = p.length := by
      have := (List.getElem?_eq_some_iff.1 hk).1
      simp only [List.length_append, List.length_singleton] at this
      omega
    obtain rfl : i = j := by simpa using hk
    exact hnew

theorem Follows.step_other {p : List Instr} {s : State} (h : Follows E p s) {i : Instr}
    (hr : readOp? i = none) : Follows E (p ++ [i]) (s.step E p.length i) := by
  have hscan : scan E (p ++ [i]) (p ++ [i]).length =
      ⟨openStep E (scan E p p.length).dsts i, (scan E p p.length).slot, (scan E p p.length).pos + 1⟩ := by
    rw [List.length_append, List.length_singleton, scan_append, Scan.step, hr]
  have himage : image E (p ++ [i]) p.length = s.flush.newCode.length := by
    have hread : ¬ isRead (p ++ [i]) p.length := by simp [isRead, hr]
    rw [image, h.length, if_neg hread]
    rw [scan, scan, List.take_append_of_le_length (le_refl _)]
  have hflush := h.flush_step hr p.length
  have hplaced : ∀ k j, (p ++ [i])[k]? = some j → Placed (s.step E p.length i).flush k j (image E (p ++ [i]) k) := by
    rw [hflush]
    refine placed_append (fun k j hk => (h.placed k j hk).emit ?_ i) ?_
    · exact (List.getElem?_eq_some_iff.1 hk).1.ne
    · rw [himage]
      exact placed_emit _ _ _
  have hlen : (s.step E p.length i).flush.newCode.length = (scan E (p ++ [i]) (p ++ [i]).length).pos := by
    rw [hflush, hscan, ← h.length]
    simp [State.emit]
  have hdsts := h.dsts
  have hcl := h.cluster
  rw [State.step, hr] at hplaced hlen ⊢
  dsimp only at hplaced hlen ⊢
  split_ifs at hplaced hlen ⊢ with hbreak hempty
  · -- the cluster is closed
    refine ⟨?_, ?_, ?_, ?_, ?_, ?_, hlen, hplaced⟩
    · rw [hscan, openStep, hr, ← hdsts, if_pos hbreak]
      rfl
    · rw [show (s.flush.emit p.length i).cluster = [] from s.flush_cluster]
      rfl
    · exact fun _ => h.flush_clusterOld
    · exact fun _ => rfl
    · exact fun hc => absurd s.flush_cluster hc
    · exact fun q hq => absurd hq (by simp [State.emit, State.flush])
  · -- no cluster is open
    have hc : s.cluster = [] := List.isEmpty_iff.1 hempty
    refine ⟨?_, hcl, h.old, h.closed, fun hn => absurd hc hn, fun q hq => ?_, hlen, hplaced⟩
    · rw [hscan, openStep, hr, ← hdsts, if_neg hbreak]
      rfl
    · exact absurd (h.closed hc ▸ hq) (by simp)
  · refine ⟨?_, hcl, ?_, ?_, ?_, ?_, hlen, hplaced⟩
    · rw [hscan, openStep, hr, ← hdsts, if_neg hbreak]
    · exact fun hc => absurd (List.isEmpty_iff.2 hc) hempty
    · exact fun hc => absurd (List.isEmpty_iff.2 hc) hempty
    · intro hc
      rw [hscan]
      exact h.slot hc
    · intro q hq
      rw [List.length_append, List.length_singleton]
      rcases List.mem_append.1 hq with hq | hq
      · exact Nat.lt_succ_of_lt (h.waiting q hq)
      · rw [List.mem_singleton.1 hq]
        exact Nat.lt_succ_self _

theorem scan_read (p : List Instr) (op : ReadOp) :
    scan E (p ++ [op.instr]) (p ++ [op.instr]).length = (scan E p p.length).step E op.instr ∧
      image E (p ++ [op.instr]) p.length = ((scan E p p.length).step E op.instr).slot := by
  have hr : readOp? op.instr = some op := readOp?_eq_some.2 rfl
  constructor
  · rw [List.length_append, List.length_singleton, scan_append]
  · have hread : isRead (p ++ [op.instr]) p.length := by simp [isRead, hr]
    rw [image, if_pos hread, ← scan_append]

theorem Follows.addRead {p : List Instr} {s : State} (h : Follows E p s) (op : ReadOp)
    (hslot : s.newCode.length = ((scan E p p.length).step E op.instr).slot)
    (hlen : (s.addRead p.length op).flush.newCode.length = ((scan E p p.length).step E op.instr).pos)
    (hold : ∀ k j, p[k]? = some j → Placed (s.addRead p.length op).flush k j (image E p k))
    (hnew : Placed (s.addRead p.length op).flush p.length op.instr s.newCode.length) :
    Follows E (p ++ [op.instr]) (s.addRead p.length op) := by
  obtain ⟨hscan, himage⟩ := scan_read (E := E) p op
  have hne : (s.addRead p.length op).cluster ≠ [] := by simp [State.addRead]
  refine ⟨?_, ?_, fun hc => absurd hc hne, fun hc => absurd hc hne, fun _ => ?_, fun q hq => ?_, ?_, ?_⟩
  · rw [hscan, Scan.step_dsts, openStep, readOp?_eq_some.2 rfl, ← h.dsts]
    rfl
  · rw [State.addRead, List.map_append, h.cluster]
    rfl
  · rw [hscan]
    exact hslot
  · rw [List.length_append, List.length_singleton]
    exact Nat.lt_succ_of_lt (h.waiting q hq)
  · rw [hscan]
    exact hlen
  · refine placed_append hold ?_
    rw [himage, ← hslot]
    exact hnew

theorem Follows.step_read {p : List Instr} {s : State} (h : Follows E p s) (op : ReadOp) :
    Follows E (p ++ [op.instr]) (s.addRead p.length op) := by
  have hr : readOp? op.instr = some op := readOp?_eq_some.2 rfl
  have hlt : ∀ k j, p[k]? = some j → k ≠ p.length := fun k j hk => (List.getElem?_eq_some_iff.1 hk).1.ne
  by_cases hc : s.cluster = []
  · -- it opens a cluster
    have hd : s.clusterDsts = [] := by rw [← h.cluster, hc, List.map_nil]
    have hstep : (scan E p p.length).step E op.instr =
        ⟨[op.dst], (scan E p p.length).pos, (scan E p p.length).pos + 1⟩ := by
      rw [Scan.step, hr]
      exact if_pos (by rw [← h.dsts, hd])
    have hflush := State.flush_open hc (h.old hc) (h.closed hc) hd p.length op
    have hpos : s.newCode.length = (scan E p p.length).pos := by rw [← h.length, h.closed_flush hc]
    refine h.addRead op (by rw [hstep, hpos]) ?_ (fun k j hk => ?_) ?_
    · rw [hflush, hstep, ← hpos]
      simp [State.emit]
    · rw [hflush]
      exact (h.closed_flush hc ▸ h.placed k j hk).emit (hlt k j hk) _
    · rw [hflush]
      exact placed_emit _ _ _
  · -- it joins the open cluster
    have hd : s.clusterDsts ≠ [] := by
      rw [← h.cluster]
      simpa using hc
    have hstep : (scan E p p.length).step E op.instr =
        ⟨(scan E p p.length).dsts ++ [op.dst], (scan E p p.length).slot, (scan E p p.length).pos⟩ := by
      rw [Scan.step, hr]
      exact if_neg (by rwa [← h.dsts])
    have hnot : p.length ∉ s.pendingNonreads.map Prod.fst := by
      intro hmem
      obtain ⟨q, hq, hql⟩ := List.mem_map.1 hmem
      exact absurd (h.waiting q hq) (by omega)
    obtain ⟨hlen, hjump, hnew, hmap, hcode, ⟨g, hg⟩, hmem, hgroups, hop⟩ := State.flush_join hc hnot op
    have hslot := h.slot hc
    have ho : openReads E p p.length ≠ [] := by rwa [← scan_dsts, ← h.dsts]
    have hbound : s.newCode.length < s.flush.newCode.length := by
      rw [hslot, h.length]
      exact slot_lt_pos (le_refl _) ho
    refine h.addRead op (by rw [hstep, hslot]) (by rw [hlen, hstep, h.length]) (fun k j hk => ?_) ?_
    · have hpl := h.placed k j hk
      refine ⟨?_, ?_, ?_, ?_, ?_⟩
      · rw [hmap k (hlt k j hk), hpl.idxMap]
      · rw [hlen]
        exact hpl.lt
      · intro hrj
        have hread : ¬ isRead p k := by simp [isRead, hk, hrj]
        rw [hcode _ (hslot ▸ image_ne_slot (List.getElem?_eq_some_iff.1 hk).1 (le_refl _) ho hread)]
        exact hpl.other hrj
      · intro op' hop'
        by_cases hj : image E p k = s.newCode.length
        · -- it was in the cluster, and so it is in the batch
          rw [hj]
          refine .inr ⟨g, hg, ?_⟩
          rcases hpl.read op' hop' with hi | ⟨-, -, group, hgroup, hin⟩
          · rw [hj] at hi
            exact ⟨_, hmem, List.mem_append_left _ (hop op' hi)⟩
          · obtain ⟨group', hgroup', hsub⟩ := hgroups group hgroup
            exact ⟨group', hgroup', hsub hin⟩
        · rw [hcode _ hj]
          refine (hpl.read op' hop').imp_right fun ⟨g', hg', group, hgroup, hin⟩ => ⟨g', hg', ?_⟩
          obtain ⟨group', hgroup', hsub⟩ := hgroups group hgroup
          exact ⟨group', hgroup', hsub hin⟩
      · rw [hjump]
        exact hpl.jump
    · refine ⟨hnew, by rw [hlen]; exact hbound, ?_, fun op' hop' => .inr ⟨g, hg, _, hmem, ?_⟩, ?_⟩
      · rw [hr]
        exact fun hn => by cases hn
      · rw [ReadOp.instr_injective (readOp?_eq_some.1 hop')]
        simp
      · cases op <;> exact fun hj => by cases hj

theorem follows_run (E : Effects) (groups : List (List ReadOp)) (p : List Instr) :
    Follows E p (State.run E { readGroups := groups } 0 p) := by
  induction p using List.reverseRecOn with
  | nil =>
    exact ⟨rfl, rfl, fun _ => rfl, fun _ => rfl, fun h => absurd rfl h, fun q hq => absurd hq (by simp [State.run]),
      rfl, fun k i hk => absurd hk (by simp)⟩
  | append_singleton p i ih =>
    rw [State.run_append, Nat.zero_add]
    cases hr : readOp? i with
    | none => exact ih.step_other hr
    | some op =>
      rw [State.step, hr]
      dsimp only
      rw [readsPendingDst_readOp hr, readOp?_eq_some.1 hr]
      exact ih.step_read op

/-- Where the instruction at `k` has gone. -/
def place (E : Effects) (f : BcCode) (k : ℕ) : ℕ := ((clustered E f).idxMap k).getD 0

/-- **The pass puts every instruction where the scan says**, as it is or into a batch. -/
theorem clustered_placed (E : Effects) (f : BcCode) {k : ℕ} {i : Instr} (hk : f.code[k]? = some i) :
    Placed (clustered E f) k i (image E f.code k) := (follows_run E f.readGroups f.code).placed k i hk

theorem clustered_length (E : Effects) (f : BcCode) :
    (clustered E f).newCode.length = (scan E f.code f.code.length).pos :=
  (follows_run E f.readGroups f.code).length

theorem place_eq_image (E : Effects) (f : BcCode) {k : ℕ} (hk : k < f.code.length) :
    place E f k = image E f.code k := by
  rw [place, (clustered_placed E f (List.getElem?_eq_getElem hk)).idxMap, Option.getD_some]

end Rend.Optimize
