import PlaceRoute.Proofs.Solver.Command
import PlaceRoute.Proofs.Solver.Scope

/-!
# Solvers that represent assertions

`Represents s free q retired` ties the clauses, the gates and the activation literals of a solver to the meanings of the
assertions `q`: the clauses ask for them, scope by scope, and leave all values open to the free terms. Building terms,
asserting, opening and closing scopes and checking keep it, and the answer of a check is whether the assertions can hold
together (`Represents.check_iff`).
-/

namespace PlaceRoute

open PlaceRoute.Sat (Literal Clause Cnf Assignment Engine AgreeBelow)

namespace Solver

/-- The assignment gives the free terms the values of the environment. -/
structure Free.Agrees (free : Free) (e : Env) (a : Assignment) : Prop where
  bool : ∀ {i : Nat} {l : Literal}, free.bools[i]? = some l → l.eval a = e.bool i
  word : ∀ {i : Nat} {w : Word}, free.words[i]? = some w → w.toNat a = e.word i % 2 ^ w.width

/-- The literal has the meaning `f`. -/
structure ReadsBool (s : Solver) (free : Free) (l : Literal) (f : Env → Bool) : Prop where
  lt : l.var < s.vars
  eval : ∀ {e : Env} {a : Assignment}, s.Respects a → free.Agrees e a → l.eval a = f e

/-- The word has `n` bits and the meaning `f`. -/
structure ReadsWord (s : Solver) (free : Free) (w : Word) (n : Nat) (f : Env → Nat) : Prop where
  width : w.width = n
  lt : ∀ l ∈ w, l.var < s.vars
  eval : ∀ {e : Env} {a : Assignment}, s.Respects a → free.Agrees e a → w.toNat a = f e

/-- The assertions outside of scopes, those of each scope whose activation literal holds, and that the scopes of
`retired` are switched off. -/
structure Assertions.Asks (q : Assertions) (scopes retired : List Literal) (e : Env) (a : Assignment) : Prop where
  base : ∀ f ∈ q.base, f e = true
  scopes : ∀ p ∈ scopes.zip q.scopes, p.1.eval a = true → ∀ f ∈ p.2, f e = true
  retired : ∀ act ∈ retired, act.eval a = false

/-- The clauses of the solver ask for the assertions; `retired` are the activation literals of closed scopes. -/
structure Represents (s : Solver) (free : Free) (q : Assertions) (retired : List Literal) : Prop where
  wellFormed : s.WellFormed
  bools_lt : ∀ l ∈ free.bools, l.var < s.vars
  words_lt : ∀ w ∈ free.words, ∀ l ∈ w, l.var < s.vars
  retired_lt : ∀ act ∈ retired, act.var < s.vars
  nodup : (s.scopes ++ retired).Nodup
  depth : s.scopes.length = q.scopes.length
  asks : ∀ {e : Env} {a : Assignment}, s.Respects a → free.Agrees e a → (s.Holds a ↔ q.Asks s.scopes retired e a)
  /-- All values of the free terms are possible, with each scope switched on or off at will. -/
  extend : ∀ (e : Env) (on : Literal → Bool), ∃ a, s.Respects a ∧ free.Agrees e a ∧
    ∀ act ∈ s.scopes ++ retired, act.eval a = on act

section
variable {s t : Solver} {free free' : Free} {q : Assertions} {retired : List Literal} {e : Env} {a b : Assignment}

/-- Whether the free terms have their values is decided by their own variables. -/
theorem Free.Agrees.congr {n : Nat} (hbools : ∀ l ∈ free.bools, l.var < n) (hwords : ∀ w ∈ free.words, ∀ l ∈ w, l.var < n)
    (hab : AgreeBelow n a b) (ha : free.Agrees e a) : free.Agrees e b where
  bool hl := (hab.eval (hbools _ (List.mem_of_getElem? hl))).symm.trans (ha.bool hl)
  word hw := by
    rw [Word.toNat_eq, ← Word.bits_congr hab (hwords _ (List.mem_of_getElem? hw)), ← Word.toNat_eq]
    exact ha.word hw

/-- The environment that an assignment gives. -/
def Free.env (free : Free) (a : Assignment) : Env where
  bool i := (free.bools.getD i tt).eval a
  word i := (free.words.getD i []).toNat a

theorem Free.agrees_env (free : Free) (a : Assignment) : free.Agrees (free.env a) a where
  bool hl := by simp [env, hl]
  word {i w} hw := by
    have hget : free.words.getD i [] = w := by simp [hw]
    show w.toNat a = (free.words.getD i []).toNat a % 2 ^ w.width
    rw [hget, Nat.mod_eq_of_lt (Word.toNat_lt a w)]

theorem ReadsBool.means {l : Literal} {f : Env → Bool} (h : s.ReadsBool free l f) : s.Means l fun a => l.eval a :=
  means_self h.lt

theorem ReadsWord.denotes {w : Word} {n : Nat} {f : Env → Nat} (h : s.ReadsWord free w n f) :
    s.Denotes w n fun a => w.toNat a := ⟨h.width, h.lt, fun _ => rfl⟩

/-- Of two words that are equally wide, the second has the width that the first is known to have. -/
theorem ReadsWord.denotes_of_width {w w' : Word} {n n' : Nat} {f f' : Env → Nat} (h : s.ReadsWord free w n f)
    (h' : s.ReadsWord free w' n' f') (heq : w.width = w'.width) : s.Denotes w' n fun a => w'.toNat a :=
  ⟨heq.symm.trans h.width, h'.lt, fun _ => rfl⟩

theorem ReadsBool.grow {l : Literal} {f : Env → Bool} (h : s.ReadsBool free l f) (hst : s.GrowsTo t)
    (hfree : ∀ {e : Env} {a : Assignment}, free'.Agrees e a → free.Agrees e a) : t.ReadsBool free' l f :=
  ⟨Nat.lt_of_lt_of_le h.lt hst.vars_le, fun ha he => h.eval (hst.respects ha) (hfree he)⟩

theorem ReadsWord.grow {w : Word} {n : Nat} {f : Env → Nat} (h : s.ReadsWord free w n f) (hst : s.GrowsTo t)
    (hfree : ∀ {e : Env} {a : Assignment}, free'.Agrees e a → free.Agrees e a) : t.ReadsWord free' w n f :=
  ⟨h.width, fun l hl => Nat.lt_of_lt_of_le (h.lt l hl) hst.vars_le, fun ha he => h.eval (hst.respects ha) (hfree he)⟩

theorem represents_new : new.Represents ⟨[], []⟩ .none [] where
  wellFormed := wellFormed_new
  bools_lt := by simp
  words_lt := by simp
  retired_lt := by simp
  nodup := List.nodup_nil
  depth := rfl
  asks {e a} ha hea := by
    refine ⟨fun _ => ⟨by simp [Assertions.none], by simp [new], by simp⟩, fun _ => ?_⟩
    simp [Holds, new, Cnf.eval, Clause.eval, tt, Literal.eval, ha.truth]
  extend e on := by
    refine ⟨fun _ => true, ⟨rfl, ?_, ?_⟩, ⟨?_, ?_⟩, ?_⟩ <;> simp [new]

theorem Represents.act_lt (h : s.Represents free q retired) {act : Literal} (hact : act ∈ s.scopes ++ retired) :
    act.var < s.vars :=
  (List.mem_append.mp hact).elim (h.wellFormed.scopes_lt act) (h.retired_lt act)

/-- Building steps that leave all values open to the free terms. -/
theorem Represents.grow (h : s.Represents free q retired) (hst : s.GrowsTo t)
    (hfree : ∀ {e : Env} {a : Assignment}, free'.Agrees e a → free.Agrees e a)
    (hbools : ∀ l ∈ free'.bools, l.var < t.vars) (hwords : ∀ w ∈ free'.words, ∀ l ∈ w, l.var < t.vars)
    (hextend : ∀ {e : Env} {a : Assignment}, s.Respects a → free.Agrees e a →
      ∃ b, AgreeBelow s.vars a b ∧ t.Respects b ∧ free'.Agrees e b) : t.Represents free' q retired where
  wellFormed := hst.wellFormed
  bools_lt := hbools
  words_lt := hwords
  retired_lt act hact := Nat.lt_of_lt_of_le (h.retired_lt act hact) hst.vars_le
  nodup := by
    rw [hst.scopes]
    exact h.nodup
  depth := by
    rw [hst.scopes]
    exact h.depth
  asks ha he := by
    rw [hst.scopes]
    exact (hst.holds ha).trans (h.asks (hst.respects ha) (hfree he))
  extend e on := by
    obtain ⟨a, ha, he, hon⟩ := h.extend e on
    obtain ⟨b, hab, hb, he'⟩ := hextend ha he
    refine ⟨b, hb, he', fun act hact => ?_⟩
    rw [hst.scopes] at hact
    rw [← hab.eval (h.act_lt hact)]
    exact hon act hact

/-- Building steps on the terms at hand. -/
theorem Represents.build (h : s.Represents free q retired) (hst : s.GrowsTo t) : t.Represents free q retired := by
  refine h.grow hst id (fun l hl => Nat.lt_of_lt_of_le (h.bools_lt l hl) hst.vars_le)
    (fun w hw l hl => Nat.lt_of_lt_of_le (h.words_lt w hw l hl) hst.vars_le) fun ha he => ?_
  obtain ⟨b, hab, hb⟩ := hst.extend ha
  exact ⟨b, hab, hb, he.congr h.bools_lt h.words_lt hab⟩

end

/-! ## Assertions, scopes and checks -/

section
variable {s : Solver} {free : Free} {q : Assertions} {retired scopes : List Literal}

/-- One more assertion asks for itself if the innermost scope is switched on. -/
theorem Assertions.asks_add {f : Env → Bool} {e : Env} {a : Assignment} (hdepth : scopes.length = q.scopes.length) :
    (q.add f).Asks scopes retired e a ↔
      ((∀ act ∈ scopes.head?, act.eval a = true) → f e = true) ∧ q.Asks scopes retired e a := by
  unfold Assertions.add
  cases hq : q.scopes with
  | nil =>
    rw [hq, List.length_nil, List.length_eq_zero_iff] at hdepth
    subst hdepth
    constructor
    · rintro ⟨hb, hs, hr⟩
      obtain ⟨hf, hb⟩ := List.forall_mem_cons.mp hb
      exact ⟨fun _ => hf, hb, hs, hr⟩
    · rintro ⟨hf, hb, hs, hr⟩
      exact ⟨List.forall_mem_cons.mpr ⟨hf (by simp), hb⟩, hs, hr⟩
  | cons fs rest =>
    rw [hq, List.length_cons] at hdepth
    obtain ⟨act, acts, rfl⟩ := List.exists_cons_of_length_eq_add_one hdepth
    constructor
    · rintro ⟨hb, hs, hr⟩
      obtain ⟨hact, hs⟩ := List.forall_mem_cons.mp hs
      refine ⟨fun hon => (List.forall_mem_cons.mp (hact (hon act rfl))).1, hb, ?_, hr⟩
      rw [hq, List.zip_cons_cons, List.forall_mem_cons]
      exact ⟨fun hon => (List.forall_mem_cons.mp (hact hon)).2, hs⟩
    · rintro ⟨hf, hb, hs, hr⟩
      rw [hq, List.zip_cons_cons, List.forall_mem_cons] at hs
      refine ⟨hb, List.forall_mem_cons.mpr ⟨fun hon => List.forall_mem_cons.mpr ⟨hf ?_, hs.1 hon⟩, hs.2⟩, hr⟩
      intro k hk
      rw [← Option.some.inj hk]
      exact hon

theorem Represents.assert {l : Literal} {f : Env → Bool} (h : s.Represents free q retired)
    (hl : s.ReadsBool free l f) : ((Solver.assert l).run s).2.Represents free (q.add f) retired := by
  have hwf := h.wellFormed
  have hguard : ∀ k ∈ l :: guard s, k.var < s.vars := by
    refine List.forall_mem_cons.mpr ⟨hl.lt, fun k hk => ?_⟩
    obtain ⟨act, hact, rfl⟩ := Option.map_eq_some_iff.mp (Option.mem_toList.mp hk)
    exact hwf.scopes_lt act (List.mem_of_mem_head? hact)
  have hdepth : (q.add f).scopes.length = q.scopes.length := by
    unfold Assertions.add
    cases q.scopes <;> rfl
  rw [assert_run]
  refine ⟨hwf.with (List.forall_mem_singleton.mpr hguard) hwf.scopes_lt _ _, h.bools_lt, h.words_lt, h.retired_lt,
    h.nodup, h.depth.trans hdepth.symm, fun {e a} ha he => ?_, fun e on => ?_⟩
  · have ha := (respects_with_iff _ _ _ _).mp ha
    refine holds_cons.trans ((and_congr ?_ (h.asks ha he)).trans (Assertions.asks_add h.depth).symm)
    rw [Clause.eval, List.any_cons, hl.eval ha he, guard]
    cases s.scopes with
    | nil => simp
    | cons act acts => cases hon : act.eval a <;> simp [hon]
  · obtain ⟨a, ha, he, hon⟩ := h.extend e on
    exact ⟨a, (respects_with_iff _ _ _ _).mpr ha, he, hon⟩

theorem Represents.push (h : s.Represents free q retired) :
    (Solver.push.run s).2.Represents free { q with scopes := [] :: q.scopes } retired := by
  obtain ⟨hst, hfree⟩ := fresh_free h.wellFormed
  have hbuilt := h.build hst
  have hwf := hst.wellFormed
  have hnew : ∀ act ∈ s.scopes ++ retired, act ≠ (fresh.run s).1 := by
    rintro act hact rfl
    exact Nat.lt_irrefl _ (h.act_lt hact)
  rw [push_run]
  refine ⟨hwf.with (List.forall_mem_nil _) (List.forall_mem_cons.mpr ⟨hfree.lt, hwf.scopes_lt⟩) _ _, hbuilt.bools_lt,
    hbuilt.words_lt, hbuilt.retired_lt, ?_, congrArg Nat.succ h.depth, fun {e a} ha he => ?_, fun e on => ?_⟩
  · refine List.nodup_cons.mpr ⟨fun hact => hnew _ hact rfl, h.nodup⟩
  · have ha := (respects_with_iff _ _ _ _).mp ha
    refine (hbuilt.asks ha he).trans ⟨fun hq => ⟨hq.base, ?_, hq.retired⟩, fun hq => ⟨hq.base, ?_, hq.retired⟩⟩
    · exact List.forall_mem_cons.mpr ⟨fun _ => List.forall_mem_nil _, hq.scopes⟩
    · exact (List.forall_mem_cons.mp hq.scopes).2
  · obtain ⟨a, ha, he, hon⟩ := h.extend e on
    obtain ⟨b, hab, hb, hx⟩ := hfree.extend ha (on (fresh.run s).1)
    refine ⟨b, (respects_with_iff _ _ _ _).mpr hb, he.congr h.bools_lt h.words_lt hab, fun act hact => ?_⟩
    rcases List.mem_cons.mp hact with rfl | hact
    · exact hx
    · rw [← hab.eval (h.act_lt hact)]
      exact hon act hact

theorem Represents.pop (h : s.Represents free q retired) :
    ∃ retired, (Solver.pop.run.run s).2.Represents free { q with scopes := q.scopes.tail } retired := by
  have hwf := h.wellFormed
  cases hscopes : s.scopes with
  | nil =>
    have hq : q.scopes.tail = q.scopes := by
      rw [List.length_eq_zero_iff.mp (h.depth ▸ hscopes ▸ rfl : q.scopes.length = 0)]
      rfl
    rw [pop_run_nil hscopes, hq]
    exact ⟨retired, h⟩
  | cons act acts =>
    have hlen : q.scopes.length = acts.length + 1 := by rw [← h.depth, hscopes, List.length_cons]
    obtain ⟨fs, rest, hq⟩ := List.exists_cons_of_length_eq_add_one hlen
    have hnodup := h.nodup
    rw [hscopes, List.cons_append] at hnodup
    have hlt : ∀ k ∈ act :: acts, k.var < s.vars := hscopes ▸ hwf.scopes_lt
    obtain ⟨hact, hacts⟩ := List.forall_mem_cons.mp hlt
    rw [pop_run_cons hscopes, hq, List.tail_cons]
    refine ⟨act :: retired, hwf.with (List.forall_mem_singleton.mpr (by simpa using hact)) hacts _ _, h.bools_lt,
      h.words_lt, List.forall_mem_cons.mpr ⟨hact, h.retired_lt⟩, (List.perm_middle.nodup_iff).mpr hnodup, ?_,
      fun {e a} ha he => ?_, fun e on => ?_⟩
    · exact Nat.succ.inj (hlen.symm.trans (congrArg List.length hq))
    · have ha := (respects_with_iff _ _ _ _).mp ha
      refine holds_cons.trans ((and_congr_right' (h.asks ha he)).trans ?_)
      have hval : Clause.eval a [-act] = true ↔ act.eval a = false := by simp [Clause.eval]
      rw [hval]
      constructor
      · rintro ⟨hoff, hb, hs, hr⟩
        rw [hscopes, hq, List.zip_cons_cons, List.forall_mem_cons] at hs
        exact ⟨hb, hs.2, List.forall_mem_cons.mpr ⟨hoff, hr⟩⟩
      · rintro ⟨hb, hs, hr⟩
        obtain ⟨hoff, hr⟩ := List.forall_mem_cons.mp hr
        refine ⟨hoff, hb, ?_, hr⟩
        rw [hscopes, hq, List.zip_cons_cons, List.forall_mem_cons]
        exact ⟨fun hon => absurd (hon.symm.trans hoff) (by simp), hs⟩
    · obtain ⟨a, ha, he, hon⟩ := h.extend e on
      refine ⟨a, (respects_with_iff _ _ _ _).mpr ha, he, fun k hk => hon k ?_⟩
      rw [hscopes]
      exact List.perm_middle.mem_iff.mp hk

/-- Assertions, scopes and checks leave the terms as they are. -/
theorem ReadsBool.with {l : Literal} {f : Env → Bool} (h : s.ReadsBool free l f) (c : Cnf) (checks : Nat)
    (scopes : List Literal) (model : Option Assignment) :
    { s with clauses := c, checks := checks, scopes := scopes, model := model }.ReadsBool free l f :=
  ⟨h.lt, fun ha he => h.eval ((respects_with_iff ..).mp ha) he⟩

theorem ReadsWord.with {w : Word} {n : Nat} {f : Env → Nat} (h : s.ReadsWord free w n f) (c : Cnf) (checks : Nat)
    (scopes : List Literal) (model : Option Assignment) :
    { s with clauses := c, checks := checks, scopes := scopes, model := model }.ReadsWord free w n f :=
  ⟨h.width, h.lt, fun ha he => h.eval ((respects_with_iff ..).mp ha) he⟩

theorem Represents.check (engine : Engine) (h : s.Represents free q retired) :
    ((Solver.check engine).run s).2.Represents free q retired :=
  ⟨h.wellFormed.with (List.forall_mem_nil _) h.wellFormed.scopes_lt _ _, h.bools_lt, h.words_lt, h.retired_lt, h.nodup,
    h.depth, fun ha he => h.asks ((respects_with_iff _ _ _ _).mp ha) he, fun e on => by
      obtain ⟨a, ha, he, hon⟩ := h.extend e on
      exact ⟨a, (respects_with_iff _ _ _ _).mpr ha, he, hon⟩⟩

end

/-! ## Answers -/

section
variable {s : Solver} {free : Free} {q : Assertions} {retired : List Literal} {e : Env} {a : Assignment}
  {engine : Engine}

/-- With all scopes switched on what is asked for is that the assertions hold. -/
theorem Assertions.asks_iff {scopes : List Literal} (hdepth : scopes.length = q.scopes.length)
    (hon : ∀ act ∈ scopes, act.eval a = true) :
    q.Asks scopes retired e a ↔ q.Satisfied e ∧ ∀ act ∈ retired, act.eval a = false := by
  constructor
  · rintro ⟨hb, hs, hr⟩
    refine ⟨⟨hb, fun fs hfs => ?_⟩, hr⟩
    obtain ⟨i, hi, rfl⟩ := List.mem_iff_getElem.mp hfs
    have hzip : (scopes[i], q.scopes[i]) ∈ scopes.zip q.scopes :=
      List.mem_iff_getElem.mpr ⟨i, by simp [hdepth, hi], List.getElem_zip⟩
    exact hs _ hzip (hon _ (List.getElem_mem _))
  · rintro ⟨⟨hb, hs⟩, hr⟩
    exact ⟨hb, fun p hp _ => hs p.2 (List.of_mem_zip hp).2, hr⟩

/-- A satisfying assignment of the problem satisfies the assertions. -/
theorem Represents.satisfied (h : s.Represents free q retired) (ha : s.problem.eval a = true) :
    s.Respects a ∧ q.Satisfied (free.env a) := by
  obtain ⟨hon, hholds⟩ := problem_eval.mp ha
  have hresp := h.wellFormed.respects hholds
  exact ⟨hresp, ((Assertions.asks_iff h.depth hon).mp ((h.asks hresp (free.agrees_env a)).mp hholds)).1⟩

/-- Assertions that can hold together give a satisfying assignment of the problem. -/
theorem Represents.satisfiable (h : s.Represents free q retired) (he : q.Satisfied e) : s.problem.Satisfiable := by
  obtain ⟨a, ha, hagrees, hon⟩ := h.extend e fun act => decide (act ∈ s.scopes)
  have hscopes : ∀ act ∈ s.scopes, act.eval a = true := fun act hact => by
    rw [hon act (List.mem_append_left _ hact), decide_eq_true hact]
  have hretired : ∀ act ∈ retired, act.eval a = false := fun act hact => by
    have hout : act ∉ s.scopes := fun hin => (List.nodup_append.mp h.nodup).2.2 act hin act hact rfl
    rw [hon act (List.mem_append_right _ hact), decide_eq_false hout]
  exact ⟨a, problem_eval.mpr ⟨hscopes, (h.asks ha hagrees).mpr ((Assertions.asks_iff h.depth hscopes).mpr
    ⟨he, hretired⟩)⟩⟩

theorem Represents.check_iff (h : s.Represents free q retired) (hengine : engine.Correct) :
    ((Solver.check engine).run s).1 = true ↔ ∃ e, q.Satisfied e := by
  have hanswer : ((Solver.check engine).run s).1 = (engine.solve s.problem).isSome := Option.isSome_map
  rw [hanswer]
  cases hsolve : engine.solve s.problem with
  | some a =>
    refine iff_of_true rfl ⟨_, (h.satisfied (hengine.sound hsolve)).2⟩
  | none =>
    refine iff_of_false (by simp) ?_
    rintro ⟨e, he⟩
    exact hengine.complete hsolve (h.satisfiable he)

end

end Solver
end PlaceRoute
