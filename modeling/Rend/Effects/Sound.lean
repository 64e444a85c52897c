import Rend.Effects.Looks
import Rend.Lib.Checks

/-!
# What the classes promise

A function that is classed as pure leaves no trace and one that is classed as reading only reads. This is
so of a module exactly when nothing slips past the walk: whatever a function does at a place that the
classifier does not look at, or looks at as something else, the function also does, or does worse, at a
place that it looks at, itself or through the functions it calls there.

* `classifies_total`: the rounds end.
* `allows_iff_visible`: the class of a function is what its looks show, through the functions it calls.
* `sound_iff`: when the classes keep their promise.
-/

namespace Rend.Effects

open Lib Lib.UsePaths

/-! ### What a class allows -/

/-- What a class leaves open. A pure function has no effect, one that only reads may read; the other
classes promise nothing here. -/
def EffectClass.allows : EffectClass → Effect → Bool
  | .pure, _ => false
  | .readOnly, e => decide (e = .read)
  | _, _ => true

theorem allows_join (a b : EffectClass) (e : Effect) :
    (a.join b).allows e = true ↔ a.allows e = true ∨ b.allows e = true := by
  cases a <;> cases b <;> cases e <;> decide

theorem allows_joinAll {classes : Classes} {e : Effect} {ls : List Look} {acc : EffectClass} :
    (joinAll classes acc ls).allows e = true ↔
      acc.allows e = true ∨ ∃ l ∈ ls, (l.within classes).allows e = true := by
  induction ls generalizing acc with
  | nil => simp
  | cons l ls ih => rw [joinAll_cons, ih, allows_join, List.exists_mem_cons_iff, or_assoc]

/-! ### The promise and its condition -/

section Statements

variable (m : Module) (K : Known)

/-- A class that is joined at a function, or at one it calls at a place that is looked at. -/
inductive Visible : String → EffectClass → Prop
  | own {f : FnDef} {c : EffectClass} (hf : f ∈ m.functions) (h : .cls c ∈ f.looks m K) : Visible f.name c
  | call {f : FnDef} {g : String} {c : EffectClass} (hf : f ∈ m.functions) (h : .local g ∈ f.looks m K)
      (hg : Visible g c) : Visible f.name c

/-- What is joined for a thing done allows the effect, or is the class of the function it calls. -/
def Accounted (d : Done) (e : Effect) : Prop :=
  (∃ c, d.2 = some (.cls c) ∧ c.allows e = true) ∨ ∃ g, d = (.call g, some (.local g))

/-- The classes keep their promise: a function has the effects its class allows and no others. -/
def Sound (W : World) (classes : Classes) : Prop :=
  ∀ f ∈ m.functions, ∀ c, classes f.name = some c → ∀ e, Performs m K W (.call f.name) e → c.allows e = true

/-- Nothing slips past the walk: an effect of a function that is not accounted for where it comes about is
one that something visible in the function allows. -/
def NothingSlips (W : World) : Prop :=
  ∀ f ∈ m.functions, ∀ p ∈ f.paths m K, ∀ d ∈ p.uses, ∀ e, Performs m K W d.1 e → ¬ Accounted d e →
    ∃ c, Visible m K f.name c ∧ c.allows e = true

/-- The functions of the module that running a function may come to. -/
inductive Reaches : String → String → Prop
  | refl (x : String) : Reaches x x
  | call {f : FnDef} {p : Path Done} {d : Done} {g x : String} (hf : f ∈ m.functions) (hp : p ∈ f.paths m K)
      (hd : d ∈ p.uses) (hg : d.1 = .call g) (h : Reaches g x) : Reaches f.name x

/-- Nothing slips past the walk in the functions that running this one may come to. -/
def NothingSlipsBelow (W : World) (x : String) : Prop :=
  ∀ f ∈ m.functions, Reaches m K x f.name → ∀ p ∈ f.paths m K, ∀ d ∈ p.uses, ∀ e, Performs m K W d.1 e →
    ¬ Accounted d e → ∃ c, Visible m K f.name c ∧ c.allows e = true

end Statements

/-! ### The rounds -/

section Rounds

variable {m : Module} {K : Known}

/-- A function of the module is known by its name. -/
theorem eq_of_name {f g : FnDef} (hf : f ∈ m.functions) (hg : g ∈ m.functions) (h : f.name = g.name) : f = g :=
  List.inj_on_of_nodup_map (List.Nodup.of_append_right m.names_nodup) hf hg h

theorem name_mem {f : FnDef} (hf : f ∈ m.functions) : f.name ∈ m.fnNames := List.mem_map_of_mem hf

theorem insert_self (classes : Classes) (x : String) (c : EffectClass) : classes.insert x c x = some c := if_pos rfl

theorem insert_of_ne {classes : Classes} {x y : String} {c : EffectClass} (h : y ≠ x) :
    classes.insert x c y = classes y :=
  if_neg h

theorem complete_initial : Complete m m.initial := by
  intro g
  unfold Module.initial Module.fnNames
  split <;> simp_all

theorem complete_insert {classes : Classes} (h : Complete m classes) {f : FnDef} (hf : f ∈ m.functions)
    (c : EffectClass) : Complete m (classes.insert f.name c) := by
  intro g
  by_cases hg : g = f.name
  · subst hg
    rw [insert_self]
    exact ⟨fun hn => (nomatch hn), fun hn => absurd (name_mem hf) hn⟩
  · rw [insert_of_ne hg]
    exact h g

/-- What the walk of one function does in a round. -/
theorem classifyStep_cases (s : Classes × Bool) (f : FnDef) :
    (s.1 f.name = some (classifyFn (m.ctx K s.1) f) ∧ classifyStep m K s f = s) ∨
      (s.1 f.name ≠ some (classifyFn (m.ctx K s.1) f) ∧
        classifyStep m K s f = (s.1.insert f.name (classifyFn (m.ctx K s.1) f), true)) := by
  by_cases h : s.1 f.name = some (classifyFn (m.ctx K s.1) f)
  · exact .inl ⟨h, if_pos h⟩
  · exact .inr ⟨h, if_neg h⟩

/-- What the walk of a function preserves a round preserves. -/
theorem classifyRound_induct {Q : Classes × Bool → Prop}
    (hQ : ∀ s, ∀ f ∈ m.functions, Q s → Q (classifyStep m K s f)) {classes : Classes} (h : Q (classes, false)) :
    Q (classifyRound m K classes) :=
  List.foldlRecOn m.functions (classifyStep m K) h fun s hs f hf => hQ s f hf hs

/-- A round without a change has walked every function to the class it has. -/
theorem foldl_unchanged {fs : List FnDef} {s : Classes × Bool} (h : (fs.foldl (classifyStep m K) s).2 = false) :
    fs.foldl (classifyStep m K) s = s ∧ s.2 = false ∧
      ∀ f ∈ fs, s.1 f.name = some (classifyFn (m.ctx K s.1) f) := by
  induction fs generalizing s with
  | nil => exact ⟨rfl, h, fun f hf => nomatch hf⟩
  | cons f fs ih =>
    obtain ⟨heq, hflag, hfs⟩ := ih h
    rcases classifyStep_cases (m := m) (K := K) s f with ⟨hf, hs⟩ | ⟨-, hs⟩
    · rw [hs] at heq hflag hfs
      refine ⟨?_, hflag, List.forall_mem_cons.mpr ⟨hf, hfs⟩⟩
      rw [List.foldl_cons, hs, heq]
    · rw [hs] at hflag
      cases hflag

/-! ### The rounds end -/

/-- How high a class is. -/
def EffectClass.rank : EffectClass → ℕ
  | .pure => 0
  | .readOnly | .writeOnly => 1
  | .readWrite => 2
  | .impure => 3

theorem rank_lt {a b : EffectClass} (h : a < b) : a.rank < b.rank := by
  have hab : a.join b = b := sup_eq_right.mpr h.le
  have hne : a ≠ b := h.ne
  revert hab hne
  cases a <;> cases b <;> decide

theorem rank_le (a : EffectClass) : a.rank ≤ 3 := by
  cases a <;> decide

theorem joinAll_mono {classes classes' : Classes} (h : ∀ x, classes.at x ≤ classes'.at x) {ls : List Look}
    {acc acc' : EffectClass} (hacc : acc ≤ acc') : joinAll classes acc ls ≤ joinAll classes' acc' ls := by
  induction ls generalizing acc acc' with
  | nil => exact hacc
  | cons l ls ih =>
    refine ih (sup_le_sup hacc ?_)
    cases l with
    | cls c => exact le_refl c
    | «local» g => exact h g

/-- Walking a function again can only raise its class. -/
def Rising (m : Module) (K : Known) (classes : Classes) : Prop :=
  Complete m classes ∧ ∀ f ∈ m.functions, classes.at f.name ≤ classifyFn (m.ctx K classes) f

/-- The classes of the functions together. -/
def total (m : Module) (classes : Classes) : ℕ := (m.functions.map fun f => (classes.at f.name).rank).sum

theorem at_insert_self (classes : Classes) (x : String) (c : EffectClass) : (classes.insert x c).at x = c := by
  rw [Classes.at, insert_self]
  rfl

theorem at_insert_of_ne {classes : Classes} {x y : String} {c : EffectClass} (h : y ≠ x) :
    (classes.insert x c).at y = classes.at y := by
  rw [Classes.at, insert_of_ne h]
  rfl

theorem le_insert {classes : Classes} {x : String} {c : EffectClass} (h : classes.at x ≤ c) (y : String) :
    classes.at y ≤ (classes.insert x c).at y := by
  by_cases hy : y = x
  · subst hy
    rwa [at_insert_self]
  · rw [at_insert_of_ne hy]

theorem rising_insert {classes : Classes} (h : Rising m K classes) {f : FnDef} (hf : f ∈ m.functions) :
    Rising m K (classes.insert f.name (classifyFn (m.ctx K classes) f)) := by
  have hcomplete := complete_insert h.1 hf (classifyFn (m.ctx K classes) f)
  refine ⟨hcomplete, fun g hg => ?_⟩
  have hup : classifyFn (m.ctx K classes) g ≤
      classifyFn (m.ctx K (classes.insert f.name (classifyFn (m.ctx K classes) f))) g := by
    rw [classifyFn_eq h.1, classifyFn_eq hcomplete]
    exact joinAll_mono (le_insert (h.2 f hf)) le_rfl
  by_cases hgf : g.name = f.name
  · obtain rfl := eq_of_name hg hf hgf
    rwa [at_insert_self]
  · rw [at_insert_of_ne hgf]
    exact (h.2 g hg).trans hup

theorem total_insert {classes : Classes} (h : Rising m K classes) {f : FnDef} (hf : f ∈ m.functions)
    (hne : classes f.name ≠ some (classifyFn (m.ctx K classes) f)) :
    total m classes < total m (classes.insert f.name (classifyFn (m.ctx K classes) f)) := by
  have hle := h.2 f hf
  have hlt : classes.at f.name < classifyFn (m.ctx K classes) f := by
    refine lt_of_le_of_ne hle fun heq => hne ?_
    obtain ⟨c, hc⟩ := Option.ne_none_iff_exists'.mp (mt (h.1 f.name).mp (not_not.mpr (name_mem hf)))
    rw [← heq, Classes.at, hc]
    rfl
  refine List.sum_lt_sum _ _ (fun g _ => ?_) ⟨f, hf, ?_⟩
  · rcases (le_insert hle g.name).lt_or_eq with hg | hg
    · exact (rank_lt hg).le
    · rw [← hg]
  · rw [at_insert_self]
    exact rank_lt hlt

theorem total_le (classes : Classes) : total m classes ≤ 3 * m.functions.length := by
  have := List.sum_le_card_nsmul (m.functions.map fun f => (classes.at f.name).rank) 3 (by
    intro x hx
    obtain ⟨f, -, rfl⟩ := List.mem_map.mp hx
    exact rank_le _)
  simpa [total, mul_comm] using this

/-- A round keeps the classes rising, and a change raises them. -/
theorem rising_round {classes : Classes} (h : Rising m K classes) :
    Rising m K (classifyRound m K classes).1 ∧
      total m classes + (if (classifyRound m K classes).2 then 1 else 0) ≤ total m (classifyRound m K classes).1 := by
  refine classifyRound_induct (Q := fun s => Rising m K s.1 ∧
    total m classes + (if s.2 then 1 else 0) ≤ total m s.1) (fun s f hf hs => ?_) ⟨h, le_rfl⟩
  rcases classifyStep_cases (m := m) (K := K) s f with ⟨-, heq⟩ | ⟨hne, heq⟩
  · rwa [heq]
  · rw [heq]
    refine ⟨rising_insert hs.1 hf, ?_⟩
    have := total_insert hs.1 hf hne
    have := hs.2
    simp only [if_pos]
    omega

theorem classifyLoop_total (n : ℕ) {classes : Classes} (h : Rising m K classes)
    (hn : 3 * m.functions.length < n + total m classes) : ∃ r, classifyLoop m K n classes = some r := by
  induction n generalizing classes with
  | zero =>
    have := total_le (m := m) classes
    omega
  | succ n ih =>
    obtain ⟨hrise, htotal⟩ := rising_round h
    unfold classifyLoop
    by_cases hc : (classifyRound m K classes).2 = true
    · rw [if_pos hc] at htotal
      obtain ⟨r, hr⟩ := ih hrise (by omega)
      exact ⟨r, (if_pos hc).trans hr⟩
    · exact ⟨_, if_neg hc⟩

theorem initial_of_mem {f : FnDef} (hf : f ∈ m.functions) : m.initial f.name = some .pure := if_pos (name_mem hf)

/-- **The rounds end**: the functions of every module get their classes. -/
theorem classifies_total (m : Module) (K : Known) : ∃ classes, Classifies m K classes := by
  have h : Rising m K m.initial := by
    refine ⟨complete_initial, fun f hf => ?_⟩
    rw [Classes.at, initial_of_mem hf]
    exact sup_eq_right.mp (EffectClass.pure_join _)
  obtain ⟨r, hr⟩ := classifyLoop_total (3 * m.functions.length + 1) h (by omega)
  exact ⟨r, _, hr⟩

/-! ### The classes are what is visible -/

/-- What holds of the classes to begin with, and is preserved by the walk of a function, holds of the
classes at the end, which no walk changes. -/
theorem Classifies.induct {classes : Classes} (h : Classifies m K classes) {P : Classes → Prop} (h₀ : P m.initial)
    (hP : ∀ cs, ∀ f ∈ m.functions, P cs → P (cs.insert f.name (classifyFn (m.ctx K cs) f))) :
    P classes ∧ ∀ f ∈ m.functions, classes f.name = some (classifyFn (m.ctx K classes) f) := by
  obtain ⟨n, hn⟩ := h
  generalize m.initial = cs at hn h₀
  induction n generalizing cs with
  | zero => cases hn
  | succ n ih =>
    have hround : P (classifyRound m K cs).1 := by
      refine classifyRound_induct (Q := fun s => P s.1) (fun s f hf hs => ?_) h₀
      rcases classifyStep_cases (m := m) (K := K) s f with ⟨-, heq⟩ | ⟨-, heq⟩
      · rwa [heq]
      · rw [heq]
        exact hP s.1 f hf hs
    unfold classifyLoop at hn
    by_cases hc : (classifyRound m K cs).2 = true
    · exact ih _ ((if_pos hc).symm.trans hn) hround
    · obtain rfl := Option.some.inj ((if_neg hc).symm.trans hn)
      obtain ⟨heq, -, hfix⟩ := foldl_unchanged (Bool.eq_false_iff.mpr hc)
      refine ⟨hround, ?_⟩
      rw [classifyRound, heq]
      exact hfix

theorem Classifies.complete {classes : Classes} (h : Classifies m K classes) : Complete m classes :=
  (h.induct complete_initial fun _ _ hf hcs => complete_insert hcs hf _).1

theorem Classifies.fixed {classes : Classes} (h : Classifies m K classes) {f : FnDef} (hf : f ∈ m.functions) :
    classes f.name = some (joinAll classes .pure (f.looks m K)) := by
  rw [← classifyFn_eq h.complete]
  exact (h.induct complete_initial fun _ _ hg hcs => complete_insert hcs hg _).2 f hf

/-- What a class allows is allowed by something visible. -/
def Shown (m : Module) (K : Known) (classes : Classes) : Prop :=
  ∀ g c, classes g = some c → ∀ e, c.allows e = true → ∃ c', Visible m K g c' ∧ c'.allows e = true

theorem shown_insert {classes : Classes} (hc : Complete m classes) (h : Shown m K classes) {f : FnDef}
    (hf : f ∈ m.functions) : Shown m K (classes.insert f.name (classifyFn (m.ctx K classes) f)) := by
  intro g c hg e he
  by_cases hgf : g = f.name
  · subst hgf
    rw [insert_self] at hg
    obtain rfl := Option.some.inj hg
    rw [classifyFn_eq hc, allows_joinAll] at he
    rcases he with he | ⟨l, hl, he⟩
    · cases he
    cases l with
    | cls c => exact ⟨c, .own hf hl, he⟩
    | «local» g =>
      rw [Look.within, Classes.at] at he
      cases hcg : classes g with
      | none =>
        rw [hcg] at he
        cases he
      | some c =>
        rw [hcg] at he
        obtain ⟨c', hv, hc'⟩ := h g c hcg e he
        exact ⟨c', .call hf hl hv, hc'⟩
  · rw [insert_of_ne hgf] at hg
    exact h g c hg e he

theorem Classifies.shown {classes : Classes} (h : Classifies m K classes) : Shown m K classes := by
  refine (h.induct (P := fun cs => Complete m cs ∧ Shown m K cs) ⟨complete_initial, ?_⟩ ?_).1.2
  · intro g c hg e he
    unfold Module.initial at hg
    split at hg
    · obtain rfl := Option.some.inj hg
      cases he
    · cases hg
  · exact fun cs f hf hcs => ⟨complete_insert hcs.1 hf _, shown_insert hcs.1 hcs.2 hf⟩

/-- What something visible allows the class allows. -/
theorem Classifies.allows_of_visible {classes : Classes} (h : Classifies m K classes) {g : String}
    {c' : EffectClass} (hv : Visible m K g c') {e : Effect} (he : c'.allows e = true) :
    (classes.at g).allows e = true := by
  induction hv with
  | own hf hl =>
    rw [Classes.at, h.fixed hf]
    exact allows_joinAll.mpr (.inr ⟨_, hl, he⟩)
  | call hf hl hg ih =>
    rw [Classes.at, h.fixed hf]
    exact allows_joinAll.mpr (.inr ⟨_, hl, ih he⟩)

/-- **The class of a function is what is visible in it.** -/
theorem Classifies.allows_iff_visible {classes : Classes} (h : Classifies m K classes) {g : String}
    {c : EffectClass} (hg : classes g = some c) (e : Effect) :
    c.allows e = true ↔ ∃ c', Visible m K g c' ∧ c'.allows e = true := by
  refine ⟨h.shown g c hg e, ?_⟩
  rintro ⟨c', hv, he⟩
  have := h.allows_of_visible hv he
  rwa [Classes.at, hg] at this

end Rounds

/-! ### Soundness -/

section Soundness

variable {m : Module} {K : Known} {W : World}

theorem NothingSlips.below (h : NothingSlips m K W) (x : String) : NothingSlipsBelow m K W x := fun f hf _ => h f hf

theorem NothingSlipsBelow.call {f : FnDef} {p : Path Done} {d : Done} {g : String}
    (h : NothingSlipsBelow m K W f.name) (hf : f ∈ m.functions) (hp : p ∈ f.paths m K) (hd : d ∈ p.uses)
    (hg : d.1 = .call g) : NothingSlipsBelow m K W g :=
  fun f' hf' hreach => h f' hf' (.call hf hp hd hg hreach)

/-- When nothing slips past the walk, an effect of a function is allowed by something visible in it. -/
theorem visible_of_performs {a : Act} {e : Effect} (hp : Performs m K W a e) :
    ∀ g, a = .call g → NothingSlipsBelow m K W g → ∃ c, Visible m K g c ∧ c.allows e = true := by
  induction hp with
  | @call f p d e hf hp hd hperf ih =>
    rintro _ ⟨rfl⟩ h
    by_cases hacc : Accounted d e
    · rcases hacc with ⟨c, hc, hce⟩ | ⟨g, rfl⟩
      · exact ⟨c, .own hf (seen_fn hp hd hc), hce⟩
      · obtain ⟨c, hv, hce⟩ := ih g rfl (h.call hf hp hd rfl)
        exact ⟨c, .call hf (seen_fn hp hd rfl) hv, hce⟩
    · exact h f hf (.refl f.name) p hp d hd e hperf hacc
  | does => exact fun g hg => nomatch hg
  | const _ _ _ _ _ => exact fun g hg => nomatch hg
  | external _ => exact fun g hg => nomatch hg
  | dynamic _ => exact fun g hg => nomatch hg

/-- **The classes keep their promise** exactly when nothing slips past the walk. -/
theorem sound_iff (m : Module) (K : Known) (W : World) :
    (∀ classes, Classifies m K classes → Sound m K W classes) ↔ NothingSlips m K W := by
  constructor
  · intro h f hf p hp d hd e hperf _
    obtain ⟨classes, hcl⟩ := classifies_total m K
    have hc := hcl.fixed hf
    exact (hcl.allows_iff_visible hc e).mp (h classes hcl f hf _ hc e (.call hf hp hd hperf))
  · intro h classes hcl f hf c hc e hperf
    exact (hcl.allows_iff_visible hc e).mpr (visible_of_performs hperf f.name rfl (h.below f.name))

/-- A function whose declaration is accepted has a class that meets it. -/
theorem allowed_of_verify {classes : Classes} (hv : verifyPurityAnnotations m classes = .ok ()) {f : FnDef}
    (hf : f ∈ m.functions) (hd : (f.isView || f.isPure) = true) : f.allowed ((classes f.name).getD .impure) = true := by
  have h := forM_ok hv f hf
  unfold verifyFn at h
  rw [hd] at h
  by_contra ha
  simp [ha] at h

/-- Where nothing slips past the walk, a function that is declared and accepted as `pure` has no effect, and
one that is as `view` only reads. -/
theorem declared_quiet {classes : Classes} (hcl : Classifies m K classes)
    (hv : verifyPurityAnnotations m classes = .ok ()) {f : FnDef} (hf : f ∈ m.functions)
    (h : NothingSlipsBelow m K W f.name) {e : Effect} (hperf : Performs m K W (.call f.name) e) :
    f.isPure = false ∧ (f.isView = true → e = .read) := by
  have hc := hcl.fixed hf
  have hclass := (hcl.allows_iff_visible hc e).mpr (visible_of_performs hperf f.name rfl h)
  have hallowed := allowed_of_verify hv hf
  rw [hc, Option.getD_some] at hallowed
  generalize joinAll classes .pure (f.looks m K) = c at hclass hallowed
  unfold FnDef.allowed at hallowed
  constructor
  · by_contra hp
    rw [Bool.not_eq_false] at hp
    simp only [hp, Bool.or_true, if_true, beq_iff_eq, true_implies] at hallowed
    subst hallowed
    cases hclass
  · intro hview
    cases c <;> cases hp : f.isPure <;> simp_all [EffectClass.allows]

end Soundness

/-! ### A declaration that is accepted -/

/-- A module with a counter and a function, declared `pure`, that ends in `reserve 1 from total`. -/
def tally : Module where
  imports := []
  states := [("total", .u64)]
  interfaces := []
  consts := []
  functions := [⟨"next", [], .mk [] (some (.reserve .lit "total")), false, true, .default⟩]
  names_nodup := by decide

/-- Nothing is known of other modules. -/
def alone : Known := ⟨fun _ => none, []⟩

/-- Other modules do nothing. -/
def still : World := ⟨fun _ _ _ => False, fun _ _ _ => False⟩

theorem tally_classes : Classifies tally alone tally.initial := ⟨1, by rfl⟩

/-- **The tail of a function is not walked**: the function is accepted as `pure`, and it reads and writes the
counter. -/
theorem tail_slips : Classifies tally alone tally.initial ∧ verifyPurityAnnotations tally tally.initial = .ok () ∧
    tally.initial "next" = some .pure ∧ Performs tally alone still (.call "next") .read ∧
    Performs tally alone still (.call "next") .write ∧
    ¬ ∀ classes, Classifies tally alone classes → Sound tally alone still classes := by
  have htouch : (⟨[(.does .read, none), (.does .write, none)], false, .next⟩ : Path Done) ∈
      touch [(.read, none), (.write, none)] := by
    refine .inr ⟨⟨[(.does .read, none)], false, .next⟩, rfl, ⟨[(.does .write, none)], false, .next⟩, ?_, rfl, rfl⟩
    exact .inr ⟨⟨[(.does .write, none)], false, .next⟩, rfl, ⟨[], false, .next⟩, rfl, rfl, rfl⟩
  have htail : (⟨[(.does .read, none), (.does .write, none)], false, .next⟩ : Path Done) ∈
      exprPaths tally alone false [] (.reserve .lit "total") := by
    refine .inr ⟨⟨[], false, .next⟩, rfl, ⟨[(.does .read, none), (.does .write, none)], false, .next⟩, ?_, rfl, rfl⟩
    rw [if_pos (by decide)]
    exact htouch
  have hpath : (⟨[(.does .read, none), (.does .write, none)], false, .next⟩ : Path Done) ∈
      FnDef.paths tally alone ⟨"next", [], .mk [] (some (.reserve .lit "total")), false, true, .default⟩ :=
    .inr ⟨⟨[], false, .next⟩, rfl, ⟨[(.does .read, none), (.does .write, none)], false, .next⟩, htail, rfl, rfl⟩
  have hperf : ∀ e, (Act.does e, none) ∈ [((.does .read, none) : Done), (.does .write, none)] →
      Performs tally alone still (.call "next") e :=
    fun e he => .call (List.mem_singleton_self _) hpath he .does
  have hread := hperf .read List.mem_cons_self
  refine ⟨tally_classes, by decide, by decide, hread, hperf .write (List.mem_cons_of_mem _ List.mem_cons_self),
    fun h => ?_⟩
  cases h _ tally_classes _ (List.mem_singleton_self _) .pure (by decide) .read hread

end Rend.Effects
