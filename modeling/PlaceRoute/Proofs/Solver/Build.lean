import PlaceRoute.Proofs.Solver.Represent

/-!
# Commands that build terms

`Run.Sound` is the invariant of runs: the solver represents the assertions and every term has its meaning. Commands that
build a term keep it (`Sound.freshBool`, `Sound.freshWord`, `Sound.buildBool`, `Sound.buildWord`).
-/

namespace PlaceRoute

open PlaceRoute.Sat (Literal Clause Cnf Assignment Engine AgreeBelow)

namespace Solver

/-- The solver of the run represents the assertions, and the terms have their meanings. -/
structure Run.Sound (r : Run) : Prop where
  represents : ∃ retired, r.solver.Represents r.free r.asserted retired
  bools : ∀ p ∈ r.bools, r.solver.ReadsBool r.free p.literal p.meaning
  words : ∀ v ∈ r.words, r.solver.ReadsWord r.free v.word v.width v.meaning

namespace Run

/-- A sound run with the terms and the model of `r`, and perhaps more terms. -/
structure Follows (r r' : Run) : Prop where
  sound : r'.Sound
  bools : r.bools <+: r'.bools
  words : r.words <+: r'.words
  model : r'.solver.model = r.solver.model

variable {r r' r'' : Run}

theorem Follows.refl (h : r.Sound) : r.Follows r := ⟨h, List.prefix_refl _, List.prefix_refl _, rfl⟩

theorem Follows.trans (h : r.Follows r') (h' : r'.Follows r'') : r.Follows r'' :=
  ⟨h'.sound, h.bools.trans h'.bools, h.words.trans h'.words, h'.model.trans h.model⟩

theorem sound_new : new.Sound := ⟨⟨[], represents_new⟩, by simp [new], by simp [new]⟩

/-! ## Building terms -/

theorem Sound.addBool {m : CheckedM Literal} {v : Assignment → Bool} {f : Env → Bool} (h : r.Sound)
    (hm : Succeeds m r.solver fun l t => t.Means l v)
    (hv : ∀ {e : Env} {a : Assignment}, r.solver.Respects a → r.free.Agrees e a → v a = f e) :
    r.Follows (r.addBool m f) := by
  obtain ⟨hst, l, hrun, hl⟩ := hm
  obtain ⟨retired, hr⟩ := h.represents
  have hadd : r.addBool m f = { r with solver := (m.run.run r.solver).2, bools := r.bools ++ [⟨l, f⟩] } := by
    unfold Run.addBool
    rw [← Prod.eta (m.run.run r.solver), hrun]
  rw [hadd]
  refine ⟨⟨⟨retired, hr.build hst⟩, fun p hp => ?_, fun w hw => (h.words w hw).grow hst id⟩,
    List.prefix_append .., List.prefix_refl _, hst.model⟩
  rcases List.mem_append.mp hp with hp | hp
  · exact (h.bools p hp).grow hst id
  · rw [List.mem_singleton.mp hp]
    exact ⟨hl.lt, fun ha he => (hl.eval ha).trans (hv (hst.respects ha) he)⟩

theorem Sound.addWord {m : CheckedM Word} {n : Nat} {v : Assignment → Nat} {f : Env → Nat} (h : r.Sound)
    (hm : Succeeds m r.solver fun w t => t.Denotes w n v)
    (hv : ∀ {e : Env} {a : Assignment}, r.solver.Respects a → r.free.Agrees e a → v a = f e) :
    r.Follows (r.addWord m n f) := by
  obtain ⟨hst, w, hrun, hw⟩ := hm
  obtain ⟨retired, hr⟩ := h.represents
  have hadd : r.addWord m n f = { r with solver := (m.run.run r.solver).2, words := r.words ++ [⟨w, n, f⟩] } := by
    unfold Run.addWord
    rw [← Prod.eta (m.run.run r.solver), hrun]
  rw [hadd]
  refine ⟨⟨⟨retired, hr.build hst⟩, fun p hp => (h.bools p hp).grow hst id, fun v' hv' => ?_⟩,
    List.prefix_refl _, List.prefix_append .., hst.model⟩
  rcases List.mem_append.mp hv' with hv' | hv'
  · exact (h.words v' hv').grow hst id
  · rw [List.mem_singleton.mp hv']
    exact ⟨hw.width, hw.lt, fun ha he => (hw.eval ha).trans (hv (hst.respects ha) he)⟩

/-- A step that fails before it changes the solver builds no term. -/
theorem addBool_of_error {m : CheckedM Literal} {err : Solver.Error} (f : Env → Bool)
    (hm : m.run.run r.solver = (.error err, r.solver)) : r.addBool m f = r := by
  unfold Run.addBool
  rw [hm]

theorem addWord_of_error {m : CheckedM Word} {err : Solver.Error} (n : Nat) (f : Env → Nat)
    (hm : m.run.run r.solver = (.error err, r.solver)) : r.addWord m n f = r := by
  unfold Run.addWord
  rw [hm]

/-- A literal that is at hand. -/
theorem Sound.addBool_pure {l : Literal} {f : Env → Bool} (h : r.Sound) (hl : r.solver.ReadsBool r.free l f) :
    r.Follows (r.addBool (pure l) f) := by
  obtain ⟨retired, hr⟩ := h.represents
  exact h.addBool (Succeeds.pure hr.wellFormed hl.means) hl.eval

/-- A word that is at hand. -/
theorem Sound.addWord_pure {w : Word} {n : Nat} {v : Assignment → Nat} {f : Env → Nat} (h : r.Sound)
    (hw : r.solver.Denotes w n v)
    (hv : ∀ {e : Env} {a : Assignment}, r.solver.Respects a → r.free.Agrees e a → v a = f e) :
    r.Follows (r.addWord (pure w) n f) := by
  obtain ⟨retired, hr⟩ := h.represents
  exact h.addWord (Succeeds.pure hr.wellFormed hw) hv

end Run

/-! ## Operands that do not fit -/

section
variable {x y : Word} {s : Solver}

theorem WordOp.build_of_ne (op : WordOp) (s : Solver) (h : x.width ≠ y.width) :
    ∃ err, (op.build x y).run.run s = (.error err, s) := by
  have hny : x.width ≠ (notWord y).width := by rwa [Word.width, Word.width, notWord, List.length_map]
  cases op with
  | sub => exact ⟨_, requireSameWidth_bind_of_ne _ s hny⟩
  | _ => exact ⟨_, requireSameWidth_bind_of_ne _ s h⟩

theorem iteWord_of_ne (c : Literal) (s : Solver) (h : x.width ≠ y.width) :
    ∃ err, (iteWord c x y).run.run s = (.error err, s) := ⟨_, requireSameWidth_bind_of_ne _ s h⟩

theorem Comparison.build_of_ne (op : Comparison) (s : Solver) (h : x.width ≠ y.width) :
    ∃ err, (op.build x y).run.run s = (.error err, s) := by
  cases op with
  | eq =>
    refine ⟨.widthMismatch x.width y.width, ?_⟩
    show (eqWord x y).run.run s = _
    rw [eqWord, zipWord, bind_assoc]
    exact requireSameWidth_bind_of_ne _ s h
  | lt => exact ⟨_, requireSameWidth_bind_of_ne _ s h⟩
  | le =>
    refine ⟨.widthMismatch y.width x.width, ?_⟩
    show (leWord x y).run.run s = _
    rw [leWord, ltWord, bind_assoc]
    exact requireSameWidth_bind_of_ne _ s (Ne.symm h)

end

/-! ## Free terms -/

section
variable {free : Free} {e : Env} {a : Assignment} {l : Literal} {w : Word}

theorem Free.agrees_addBool : ({ free with bools := free.bools ++ [l] } : Free).Agrees e a ↔
    free.Agrees e a ∧ l.eval a = e.bool free.bools.length := by
  constructor
  · intro h
    exact ⟨⟨fun hl => h.bool (List.getElem?_append_left (List.getElem?_eq_some_iff.mp hl).1 ▸ hl), h.word⟩,
      h.bool List.getElem?_concat_length⟩
  · rintro ⟨h, hl⟩
    refine ⟨fun {i k} hk => ?_, h.word⟩
    rw [List.getElem?_append] at hk
    split at hk
    · exact h.bool hk
    · next hi =>
      rw [List.getElem?_singleton] at hk
      split at hk
      · have hi : i = free.bools.length := by omega
        rw [← Option.some.inj hk, hi]
        exact hl
      · cases hk

theorem Free.agrees_addWord : ({ free with words := free.words ++ [w] } : Free).Agrees e a ↔
    free.Agrees e a ∧ w.toNat a = e.word free.words.length % 2 ^ w.width := by
  constructor
  · intro h
    exact ⟨⟨h.bool, fun hl => h.word (List.getElem?_append_left (List.getElem?_eq_some_iff.mp hl).1 ▸ hl)⟩,
      h.word List.getElem?_concat_length⟩
  · rintro ⟨h, hl⟩
    refine ⟨h.bool, fun {i k} hk => ?_⟩
    rw [List.getElem?_append] at hk
    split at hk
    · exact h.word hk
    · next hi =>
      rw [List.getElem?_singleton] at hk
      split at hk
      · have hi : i = free.words.length := by omega
        rw [← Option.some.inj hk, hi]
        exact hl
      · cases hk

end

namespace Run

variable {r r' : Run} {engine : Engine}

theorem Sound.freshBool (h : r.Sound) (hr' : r.step? engine .freshBool = some r') : r.Follows r' := by
  obtain ⟨retired, hr⟩ := h.represents
  obtain ⟨hst, hl⟩ := fresh_free hr.wellFormed
  cases hr'
  refine ⟨⟨⟨retired, hr.grow hst (fun he => (Free.agrees_addBool.mp he).1) ?_ ?_ ?_⟩, fun p hp => ?_, fun w hw => ?_⟩,
    List.prefix_append .., List.prefix_refl _, hst.model⟩
  · intro l hl'
    rcases List.mem_append.mp hl' with hl' | hl'
    · exact Nat.lt_of_lt_of_le (hr.bools_lt l hl') hst.vars_le
    · rw [List.mem_singleton.mp hl']
      exact hl.lt
  · exact fun w hw l hl => Nat.lt_of_lt_of_le (hr.words_lt w hw l hl) hst.vars_le
  · intro e a ha he
    obtain ⟨b, hab, hb, hx⟩ := hl.extend ha (e.bool r.free.bools.length)
    exact ⟨b, hab, hb, Free.agrees_addBool.mpr ⟨he.congr hr.bools_lt hr.words_lt hab, hx⟩⟩
  · rcases List.mem_append.mp hp with hp | hp
    · exact (h.bools p hp).grow hst fun he => (Free.agrees_addBool.mp he).1
    · rw [List.mem_singleton.mp hp]
      exact ⟨hl.lt, fun _ he => (Free.agrees_addBool.mp he).2⟩
  · exact (h.words w hw).grow hst fun he => (Free.agrees_addBool.mp he).1

theorem Sound.freshWord {n : Nat} (h : r.Sound) (hr' : r.step? engine (.freshWord n) = some r') : r.Follows r' := by
  obtain ⟨retired, hr⟩ := h.represents
  obtain ⟨hst, hw⟩ := freshWord_free n hr.wellFormed
  cases hr'
  refine ⟨⟨⟨retired, hr.grow hst (fun he => (Free.agrees_addWord.mp he).1) ?_ ?_ ?_⟩, fun p hp => ?_, fun v hv => ?_⟩,
    List.prefix_refl _, List.prefix_append .., hst.model⟩
  · exact fun l hl => Nat.lt_of_lt_of_le (hr.bools_lt l hl) hst.vars_le
  · intro v hv
    rcases List.mem_append.mp hv with hv | hv
    · exact fun l hl => Nat.lt_of_lt_of_le (hr.words_lt v hv l hl) hst.vars_le
    · rw [List.mem_singleton.mp hv]
      exact hw.lt
  · intro e a ha he
    obtain ⟨b, hab, hb, hbits⟩ := hw.extend ha ((List.range n).map (e.word r.free.words.length).testBit) (by simp)
    refine ⟨b, hab, hb, Free.agrees_addWord.mpr ⟨he.congr hr.bools_lt hr.words_lt hab, ?_⟩⟩
    show Word.toNat b ((Solver.freshWord n).run r.solver).1 = _ % 2 ^ ((Solver.freshWord n).run r.solver).1.width
    rw [Word.toNat_eq, hbits, Bits.value_testBit, hw.width]
  · exact (h.bools p hp).grow hst fun he => (Free.agrees_addWord.mp he).1
  · rcases List.mem_append.mp hv with hv | hv
    · exact (h.words v hv).grow hst fun he => (Free.agrees_addWord.mp he).1
    · rw [List.mem_singleton.mp hv]
      refine ⟨hw.width, hw.lt, fun _ he => (Free.agrees_addWord.mp he).2.trans ?_⟩
      exact congrArg (_ % 2 ^ ·) hw.width

theorem mem_of_mapM_getElem? {α : Type} {terms : List α} {is : List Nat} {picked : List α}
    (h : is.mapM (terms[·]?) = some picked) : ∀ p ∈ picked, p ∈ terms := by
  induction is generalizing picked with
  | nil => cases h; simp
  | cons i is ih =>
    simp only [List.mapM_cons, Option.bind_eq_bind, Option.bind_eq_some_iff, Option.pure_def, Option.some.injEq] at h
    obtain ⟨p, hp, ps, hps, rfl⟩ := h
    exact List.forall_mem_cons.mpr ⟨List.mem_of_getElem? hp, ih hps⟩

/-- Commands that build a boolean term on terms at hand. -/
theorem Sound.buildBool (h : r.Sound) {c : Command} (hr' : r.step? engine c = some r')
    (hc : c matches .constant _ | .negate _ | .connect .. | .choose .. | .all _ | .any _ | .bit .. | .compare ..
      | .isZero _) : r.Follows r' := by
  obtain ⟨retired, hr⟩ := h.represents
  have hs := hr.wellFormed
  cases c <;> cases hc
  case constant b =>
    cases hr'
    exact h.addBool_pure ⟨(means_ofBool hs b).lt, fun ha _ => (means_ofBool hs b).eval ha⟩
  case negate p =>
    simp only [step?, Option.bind_eq_bind, Option.bind_eq_some_iff, Option.some.injEq] at hr'
    obtain ⟨p, hp, rfl⟩ := hr'
    have hp := h.bools p (List.mem_of_getElem? hp)
    exact h.addBool_pure ⟨hp.lt, fun ha he => by rw [Literal.eval_neg, hp.eval ha he]⟩
  case connect c p q =>
    simp only [step?, Option.bind_eq_bind, Option.bind_eq_some_iff, Option.some.injEq] at hr'
    obtain ⟨p, hp, q, hq, rfl⟩ := hr'
    have hp := h.bools p (List.mem_of_getElem? hp)
    have hq := h.bools q (List.mem_of_getElem? hq)
    exact h.addBool (c.build_implements hs hp.means hq.means).succeeds fun ha he => by
      rw [hp.eval ha he, hq.eval ha he]
  case choose p q k =>
    simp only [step?, Option.bind_eq_bind, Option.bind_eq_some_iff, Option.some.injEq] at hr'
    obtain ⟨p, hp, q, hq, k, hk, rfl⟩ := hr'
    have hp := h.bools p (List.mem_of_getElem? hp)
    have hq := h.bools q (List.mem_of_getElem? hq)
    have hk := h.bools k (List.mem_of_getElem? hk)
    exact h.addBool (ite_means hs hp.means hq.means hk.means).succeeds fun ha he => by
      rw [hp.eval ha he, hq.eval ha he, hk.eval ha he]
  case all ps =>
    simp only [step?, Option.bind_eq_bind, Option.bind_eq_some_iff, Option.some.injEq] at hr'
    obtain ⟨ps, hps, rfl⟩ := hr'
    have hps (p) (hp : p ∈ ps) := h.bools p (mem_of_mapM_getElem? hps p hp)
    have hlt : ∀ l ∈ ps.map (·.literal), l.var < r.solver.vars :=
      List.forall_mem_map.mpr fun p hp => (hps p hp).lt
    refine h.addBool (andAll_means hs hlt).succeeds fun {e a} ha he => ?_
    rw [List.all_map, Bool.eq_iff_iff, List.all_eq_true, List.all_eq_true]
    exact forall₂_congr fun p hp => by rw [Function.comp_apply, (hps p hp).eval ha he]
  case any ps =>
    simp only [step?, Option.bind_eq_bind, Option.bind_eq_some_iff, Option.some.injEq] at hr'
    obtain ⟨ps, hps, rfl⟩ := hr'
    have hps (p) (hp : p ∈ ps) := h.bools p (mem_of_mapM_getElem? hps p hp)
    have hlt : ∀ l ∈ ps.map (·.literal), l.var < r.solver.vars :=
      List.forall_mem_map.mpr fun p hp => (hps p hp).lt
    refine h.addBool (orAll_means hs hlt).succeeds fun {e a} ha he => ?_
    rw [List.any_map, Bool.eq_iff_iff, List.any_eq_true, List.any_eq_true]
    exact exists_congr fun p => and_congr_right fun hp => by rw [Function.comp_apply, (hps p hp).eval ha he]
  case bit v i =>
    simp only [step?, Option.bind_eq_bind, Option.bind_eq_some_iff, Option.some.injEq] at hr'
    obtain ⟨v, hv, l, hl, rfl⟩ := hr'
    have hv := h.words v (List.mem_of_getElem? hv)
    refine h.addBool_pure ⟨hv.lt l (List.mem_of_getElem? hl), fun {e a} ha he => ?_⟩
    rw [← hv.eval ha he, Word.toNat_eq, Bits.testBit_value, Word.bits, List.getD_eq_getElem?_getD, List.getElem?_map, hl]
    rfl
  case compare c v w =>
    simp only [step?, Option.bind_eq_bind, Option.bind_eq_some_iff, Option.some.injEq] at hr'
    obtain ⟨v, hv, w, hw, rfl⟩ := hr'
    have hv := h.words v (List.mem_of_getElem? hv)
    have hw := h.words w (List.mem_of_getElem? hw)
    by_cases heq : v.word.width = w.word.width
    · have hdw := hv.denotes_of_width hw heq
      exact h.addBool (c.build_means hs hv.denotes hdw) fun ha he => by
        rw [hv.eval ha he, hw.eval ha he]
    · obtain ⟨err, herr⟩ := c.build_of_ne r.solver heq
      rw [addBool_of_error _ herr]
      exact .refl h
  case isZero v =>
    simp only [step?, Option.bind_eq_bind, Option.bind_eq_some_iff, Option.some.injEq] at hr'
    obtain ⟨v, hv, rfl⟩ := hr'
    have hv := h.words v (List.mem_of_getElem? hv)
    exact h.addBool (isZero_means hs hv.denotes).succeeds fun ha he => by rw [hv.eval ha he]

/-- Commands that build a word on terms at hand. -/
theorem Sound.buildWord (h : r.Sound) {c : Command} (hr' : r.step? engine c = some r')
    (hc : c matches .constantWord .. | .ofBits _ | .negateWord _ | .combine .. | .chooseWord .. | .shiftRight ..
      | .shiftLeft .. | .concat .. | .extract .. | .zeroExtend ..) : r.Follows r' := by
  obtain ⟨retired, hr⟩ := h.represents
  have hs := hr.wellFormed
  cases c <;> cases hc
  case constantWord n value =>
    cases hr'
    exact h.addWord_pure (constWord_denotes hs n value) fun _ _ => rfl
  case ofBits ps =>
    simp only [step?, Option.bind_eq_bind, Option.bind_eq_some_iff, Option.some.injEq] at hr'
    obtain ⟨ps, hps, rfl⟩ := hr'
    have hps (p) (hp : p ∈ ps) := h.bools p (mem_of_mapM_getElem? hps p hp)
    have hw : r.solver.Denotes (ps.map (·.literal)) ps.length fun a => Word.toNat a (ps.map (·.literal)) :=
      ⟨List.length_map .., List.forall_mem_map.mpr fun p hp => (hps p hp).lt, fun _ => rfl⟩
    refine h.addWord_pure hw fun {e a} ha he => ?_
    rw [Word.toNat_eq, Word.bits, List.map_map]
    exact congrArg Bits.value (List.map_congr_left fun p hp => (hps p hp).eval ha he)
  case negateWord v =>
    simp only [step?, Option.bind_eq_bind, Option.bind_eq_some_iff, Option.some.injEq] at hr'
    obtain ⟨v, hv, rfl⟩ := hr'
    have hv := h.words v (List.mem_of_getElem? hv)
    exact h.addWord_pure (notWord_denotes hv.denotes) fun ha he => by rw [hv.eval ha he]
  case combine op v w =>
    simp only [step?, Option.bind_eq_bind, Option.bind_eq_some_iff, Option.some.injEq] at hr'
    obtain ⟨v, hv, w, hw, rfl⟩ := hr'
    have hv := h.words v (List.mem_of_getElem? hv)
    have hw := h.words w (List.mem_of_getElem? hw)
    by_cases heq : v.word.width = w.word.width
    · have hdw := hv.denotes_of_width hw heq
      exact h.addWord (op.build_denotes hs hv.denotes hdw) fun ha he => by
        rw [hv.eval ha he, hw.eval ha he]
    · obtain ⟨err, herr⟩ := op.build_of_ne r.solver heq
      rw [addWord_of_error _ _ herr]
      exact .refl h
  case chooseWord p v w =>
    simp only [step?, Option.bind_eq_bind, Option.bind_eq_some_iff, Option.some.injEq] at hr'
    obtain ⟨p, hp, v, hv, w, hw, rfl⟩ := hr'
    have hp := h.bools p (List.mem_of_getElem? hp)
    have hv := h.words v (List.mem_of_getElem? hv)
    have hw := h.words w (List.mem_of_getElem? hw)
    by_cases heq : v.word.width = w.word.width
    · have hdw := hv.denotes_of_width hw heq
      exact h.addWord (iteWord_denotes hs hp.means hv.denotes hdw) fun ha he => by
        rw [hp.eval ha he, hv.eval ha he, hw.eval ha he]
    · obtain ⟨err, herr⟩ := iteWord_of_ne p.literal r.solver heq
      rw [addWord_of_error _ _ herr]
      exact .refl h
  case shiftRight v k =>
    simp only [step?, Option.bind_eq_bind, Option.bind_eq_some_iff, Option.some.injEq] at hr'
    obtain ⟨v, hv, w, hw, rfl⟩ := hr'
    have hv := h.words v (List.mem_of_getElem? hv)
    rw [shiftRight?_eq, Option.ite_none_right_eq_some, Option.some.injEq] at hw
    obtain ⟨-, rfl⟩ := hw
    exact h.addWord_pure (shiftRight_denotes hs hv.denotes k.toNat) fun ha he => by rw [hv.eval ha he]
  case shiftLeft v k =>
    simp only [step?, Option.bind_eq_bind, Option.bind_eq_some_iff, Option.some.injEq] at hr'
    obtain ⟨v, hv, rfl⟩ := hr'
    have hv := h.words v (List.mem_of_getElem? hv)
    exact h.addWord_pure (shiftLeft_denotes hs hv.denotes k) fun ha he => by rw [hv.eval ha he]
  case concat hi lo =>
    simp only [step?, Option.bind_eq_bind, Option.bind_eq_some_iff, Option.some.injEq] at hr'
    obtain ⟨hi, hhi, lo, hlo, rfl⟩ := hr'
    have hhi := h.words hi (List.mem_of_getElem? hhi)
    have hlo := h.words lo (List.mem_of_getElem? hlo)
    exact h.addWord_pure (concat_denotes hhi.denotes hlo.denotes) fun ha he => by rw [hhi.eval ha he, hlo.eval ha he]
  case extract v hi lo =>
    simp only [step?, Option.bind_eq_bind, Option.bind_eq_some_iff, Option.some.injEq] at hr'
    obtain ⟨v, hv, rfl⟩ := hr'
    have hv := h.words v (List.mem_of_getElem? hv)
    by_cases hfit : lo ≤ hi ∧ hi < v.width
    · obtain ⟨w, hw, hden⟩ := extract_denotes hv.denotes hfit.1 hfit.2
      rw [hw]
      exact h.addWord_pure hden fun ha he => by rw [hv.eval ha he]
    · have herr : extract v.word hi lo = .error (.outOfRange hi lo v.word.width) := by
        refine if_pos ?_
        rw [hv.width]
        omega
      rw [herr]
      exact (congrArg r.Follows (addWord_of_error _ _ rfl)).mpr (.refl h)
  case zeroExtend v k =>
    simp only [step?, Option.bind_eq_bind, Option.bind_eq_some_iff, Option.some.injEq] at hr'
    obtain ⟨v, hv, rfl⟩ := hr'
    have hv := h.words v (List.mem_of_getElem? hv)
    exact h.addWord_pure (zeroExtend_denotes hs hv.denotes k) fun ha he => hv.eval ha he

end Run

end Solver
end PlaceRoute
