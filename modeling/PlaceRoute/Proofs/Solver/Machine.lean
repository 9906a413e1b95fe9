import PlaceRoute.Proofs.Solver.Run

/-!
# Machine arithmetic on words

The operations on words compute what machine numbers of their width do, for all words over the variables of a solver that
commands lead to (`machine_steps`). "Under every assignment that satisfies the gate clauses" is `Fixes` for words and
`Settles` for literals; `respects_iff` says that these are the assignments that respect the solver. Operands of different
widths and bad ranges of bits are refused, and then the solver stays as it is.

A shift to the right reads bit `i` at `i + n`. It divides as long as no such sum passes the machine numbers; beyond them the
program breaks off.
-/

namespace PlaceRoute

open PlaceRoute.Sat (Literal Clause Cnf Assignment Engine)

namespace Solver

variable {s t : Solver} {a : Assignment}

/-! ## Gate clauses -/

/-- The clauses of the constant and of all gates. -/
def gateClauses (s : Solver) : Cnf :=
  [tt] ::
    (s.andGates.toList.flatMap fun (k, out) => [[-out, k.low], [-out, k.high], [out, -k.low, -k.high]]) ++
    s.xorGates.toList.flatMap fun (k, out) =>
      [[-out, k.low, k.high], [-out, -k.low, -k.high], [out, -k.low, k.high], [out, k.low, -k.high]]

/-- The clauses of a conjunction hold exactly if the output is that of the gate. -/
theorem eval_andClauses (a : Assignment) (x y out : Literal) :
    Cnf.eval a [[-out, x], [-out, y], [out, -x, -y]] = true ↔ out.eval a = (x.eval a && y.eval a) := by
  simp only [Cnf.eval, Clause.eval, List.all_cons, List.any_cons, List.all_nil, List.any_nil, Literal.eval_neg]
  cases out.eval a <;> cases x.eval a <;> cases y.eval a <;> simp

/-- The clauses of an exclusive disjunction hold exactly if the output is that of the gate. -/
theorem eval_xorClauses (a : Assignment) (x y out : Literal) :
    Cnf.eval a [[-out, x, y], [-out, -x, -y], [out, -x, y], [out, x, -y]] = true ↔
      out.eval a = (x.eval a ^^ y.eval a) := by
  simp only [Cnf.eval, Clause.eval, List.all_cons, List.any_cons, List.all_nil, List.any_nil, Literal.eval_neg]
  cases out.eval a <;> cases x.eval a <;> cases y.eval a <;> simp

/-- The clauses of a table of gates hold exactly if those of each gate do. -/
theorem eval_flatMap_gates (a : Assignment) (gates : Std.TreeMap GateKey Literal) (f : GateKey × Literal → Cnf) :
    Cnf.eval a (gates.toList.flatMap f) = true ↔
      ∀ {k : GateKey} {out : Literal}, gates[k]? = some out → Cnf.eval a (f (k, out)) = true := by
  simp only [Cnf.eval, List.all_flatMap, List.all_eq_true, Prod.forall, Std.TreeMap.mem_toList_iff_getElem?_eq_some]

/-- The assignments that respect a solver are those that satisfy its gate clauses. -/
theorem respects_iff : s.Respects a ↔ Cnf.eval a s.gateClauses = true := by
  have hsplit : Cnf.eval a s.gateClauses = true ↔ a 0 = true ∧
      (∀ {k : GateKey} {out : Literal}, s.andGates[k]? = some out → out.eval a = (k.low.eval a && k.high.eval a)) ∧
      ∀ {k : GateKey} {out : Literal}, s.xorGates[k]? = some out → out.eval a = (k.low.eval a ^^ k.high.eval a) := by
    rw [gateClauses, Cnf.eval, List.cons_append, List.all_cons, List.all_append, Bool.and_eq_true, Bool.and_eq_true]
    refine and_congr ?_ (and_congr ?_ ?_)
    · simp [Clause.eval, tt, Literal.eval]
    · exact (eval_flatMap_gates a s.andGates _).trans (by simp only [eval_andClauses])
    · exact (eval_flatMap_gates a s.xorGates _).trans (by simp only [eval_xorClauses])
  rw [hsplit]
  exact ⟨fun h => ⟨h.truth, h.and, h.xor⟩, fun h => ⟨h.1, h.2.1, h.2.2⟩⟩

/-! ## Values under the gate clauses -/

section
variable {w : Word} {l : Literal} {n : Nat} {f g : Assignment → Nat} {p : Assignment → Bool}

/-- The word has `n` bits and stands for the number that `f` gives, under every assignment of the gate clauses. -/
def Fixes (s : Solver) (w : Word) (n : Nat) (f : Assignment → Nat) : Prop :=
  w.width = n ∧ ∀ a, Cnf.eval a s.gateClauses = true → w.toNat a = f a

/-- The literal has the value that `p` gives, under every assignment of the gate clauses. -/
def Settles (s : Solver) (l : Literal) (p : Assignment → Bool) : Prop :=
  ∀ a, Cnf.eval a s.gateClauses = true → l.eval a = p a

theorem Denotes.fixes (h : s.Denotes w n f) : s.Fixes w n f := by
  refine ⟨h.width, ?_⟩
  intro a ha
  exact h.eval (respects_iff.mpr ha)

theorem Means.settles (h : s.Means l p) : s.Settles l p := by
  intro a ha
  exact h.eval (respects_iff.mpr ha)

/-- The steps succeed, add gates only, and give a word of `n` bits that stands for the number that `f` gives. -/
def Computes (m : CheckedM Word) (s : Solver) (n : Nat) (f : Assignment → Nat) : Prop :=
  ∃ out t, m.run.run s = (.ok out, t) ∧ s.GrowsTo t ∧ t.Fixes out n f

/-- The steps succeed, add gates only, and give a literal with the value that `p` gives. -/
def Decides (m : CheckedM Literal) (s : Solver) (p : Assignment → Bool) : Prop :=
  ∃ out t, m.run.run s = (.ok out, t) ∧ s.GrowsTo t ∧ t.Settles out p

/-- The steps fail with an error and change nothing. -/
def Fails {α : Type} (m : CheckedM α) (s : Solver) (err : Solver.Error) : Prop := m.run.run s = (.error err, s)

theorem Succeeds.computes {m : CheckedM Word} (h : Succeeds m s fun out t => t.Denotes out n f) : Computes m s n f := by
  obtain ⟨hgrow, out, hout, hden⟩ := h
  exact ⟨out, _, Prod.ext hout rfl, hgrow, hden.fixes⟩

theorem Succeeds.decides {m : CheckedM Literal} (h : Succeeds m s fun out t => t.Means out p) : Decides m s p := by
  obtain ⟨hgrow, out, hout, hmeans⟩ := h
  exact ⟨out, _, Prod.ext hout rfl, hgrow, hmeans.settles⟩

theorem Computes.congr {m : CheckedM Word} (h : Computes m s n f) (hfg : ∀ a, f a = g a) : Computes m s n g := by
  obtain ⟨out, t, hrun, hgrow, hwidth, hval⟩ := h
  refine ⟨out, t, hrun, hgrow, hwidth, ?_⟩
  intro a ha
  rw [hval a ha, hfg]

end

/-! ## Machine numbers -/

/-- The operations on two words of one width are those of machine numbers of that width. -/
structure Pairs (s : Solver) (c : Literal) (x y : Word) : Prop where
  and : Computes (andWord x y) s x.width fun a => x.toNat a &&& y.toNat a
  or : Computes (orWord x y) s x.width fun a => x.toNat a ||| y.toNat a
  xor : Computes (xorWord x y) s x.width fun a => x.toNat a ^^^ y.toNat a
  add : Computes (addWord x y) s x.width fun a => (x.toNat a + y.toNat a) % 2 ^ x.width
  sub : Computes (subWord x y) s x.width fun a => (((x.toNat a : Int) - y.toNat a) % 2 ^ x.width).toNat
  ite : Computes (iteWord c x y) s x.width fun a => if c.eval a then x.toNat a else y.toNat a
  eq : Decides (eqWord x y) s fun a => decide (x.toNat a = y.toNat a)
  lt : Decides (ltWord x y) s fun a => decide (x.toNat a < y.toNat a)
  le : Decides (leWord x y) s fun a => decide (x.toNat a ≤ y.toNat a)

/-- All operations on two words of different widths fail and change nothing. The comparison that is made of the
reverse one names the widths in reverse. -/
structure Refuses (s : Solver) (c : Literal) (x y : Word) : Prop where
  combine : ∀ op : WordOp, Fails (op.build x y) s (.widthMismatch x.width y.width)
  ite : Fails (iteWord c x y) s (.widthMismatch x.width y.width)
  eq : Fails (eqWord x y) s (.widthMismatch x.width y.width)
  lt : Fails (ltWord x y) s (.widthMismatch x.width y.width)
  le : Fails (leWord x y) s (.widthMismatch y.width x.width)

/-- The operations on words of any widths are those of machine numbers; a bad range of bits is refused, and at a shift to the
right whose last position passes the machine numbers the program breaks off. Of these only the test for zero needs gates. -/
structure Reshapes (s : Solver) (x y : Word) : Prop where
  const : ∀ n v : Nat, s.Fixes (constWord n v) n fun _ => v % 2 ^ n
  not : s.Fixes (notWord x) x.width fun a => 2 ^ x.width - 1 - x.toNat a
  concat : s.Fixes (concat x y) (x.width + y.width) fun a => 2 ^ y.width * x.toNat a + y.toNat a
  zeroExtend : ∀ n : Nat, s.Fixes (zeroExtend x n) (x.width + n) fun a => x.toNat a
  extract : ∀ {hi lo : Nat}, lo ≤ hi → hi < x.width → ∃ out, Solver.extract x hi lo = .ok out ∧
    s.Fixes out (hi + 1 - lo) fun a => x.toNat a / 2 ^ lo % 2 ^ (hi + 1 - lo)
  badRange : ∀ {hi lo : Nat}, ¬ (lo ≤ hi ∧ hi < x.width) →
    Solver.extract x hi lo = .error (.outOfRange hi lo x.width)
  shiftLeft : ∀ n : Nat, s.Fixes (shiftLeft x n) x.width fun a => x.toNat a * 2 ^ n % 2 ^ x.width
  shiftRight : ∀ {n : UInt64}, x.width + n.toNat ≤ 2 ^ 64 → ∃ out, shiftRight? x n = some out ∧
    s.Fixes out x.width fun a => x.toNat a / 2 ^ n.toNat
  breaksOff : ∀ {n : UInt64}, 2 ^ 64 < x.width + n.toNat → shiftRight? x n = none
  isZero : Decides (liftM (isZero x)) s fun a => decide (x.toNat a = 0)

section
variable {c : Literal} {x y : Word}

/-- Subtraction by adding the complement is subtraction of integers, modulo the same. -/
theorem sub_mod_eq {m n : Nat} (k : Nat) (hn : n < 2 ^ k) :
    (m + (2 ^ k - n)) % 2 ^ k = (((m : Int) - n) % 2 ^ k).toNat := by
  have hcast : (((m + (2 ^ k - n) : Nat) : Int)) = m - n + 2 ^ k := by
    rw [Nat.cast_add, Nat.cast_sub (Nat.le_of_lt hn)]
    push_cast
    ring
  have hmod : (((m + (2 ^ k - n)) % 2 ^ k : Nat) : Int) = ((m : Int) - n) % 2 ^ k := by
    rw [Int.natCast_mod, hcast, Nat.cast_pow, Nat.cast_ofNat]
    exact Int.add_emod_right ..
  rw [← hmod, Int.toNat_natCast]

theorem WellFormed.pairs (hs : s.WellFormed) (hc : c.var < s.vars) (hx : ∀ l ∈ x, l.var < s.vars)
    (hy : ∀ l ∈ y, l.var < s.vars) (hw : x.width = y.width) : s.Pairs c x y := by
  have hdx := denotes_self hx
  have hdy : s.Denotes y x.width fun a => y.toNat a := hw ▸ denotes_self hy
  refine ⟨(andWord_denotes hs hdx hdy).computes, (orWord_denotes hs hdx hdy).computes,
    (xorWord_denotes hs hdx hdy).computes, (addWord_denotes hs hdx hdy).computes,
    (subWord_denotes hs hdx hdy).computes.congr ?_, (iteWord_denotes hs (means_self hc) hdx hdy).computes, ?_,
    (ltWord_means hs hdx hdy).decides, (leWord_means hs hdx hdy).decides⟩
  · intro a
    exact sub_mod_eq _ (hw ▸ Word.toNat_lt a y)
  · exact (eqWord_means hs hdx hdy).decides

theorem refuses (s : Solver) (c : Literal) (hw : x.width ≠ y.width) : s.Refuses c x y := by
  refine ⟨?_, requireSameWidth_bind_of_ne _ s hw, ?_, requireSameWidth_bind_of_ne _ s hw, ?_⟩
  · intro op
    cases op with
    | sub =>
      have hny : (notWord y).width = y.width := List.length_map ..
      rw [← hny] at hw ⊢
      exact requireSameWidth_bind_of_ne _ s hw
    | _ => exact requireSameWidth_bind_of_ne _ s hw
  · rw [eqWord, zipWord, bind_assoc]
    exact requireSameWidth_bind_of_ne _ s hw
  · rw [leWord, ltWord, bind_assoc]
    exact requireSameWidth_bind_of_ne _ s (Ne.symm hw)

theorem WellFormed.reshapes (hs : s.WellFormed) (hx : ∀ l ∈ x, l.var < s.vars) (hy : ∀ l ∈ y, l.var < s.vars) :
    s.Reshapes x y where
  const n v := (constWord_denotes hs n v).fixes
  not := (notWord_denotes (denotes_self hx)).fixes
  concat := (concat_denotes (denotes_self hx) (denotes_self hy)).fixes
  zeroExtend n := (zeroExtend_denotes hs (denotes_self hx) n).fixes
  extract hle hlt := by
    obtain ⟨out, hout, hden⟩ := extract_denotes (denotes_self hx) hle hlt
    exact ⟨out, hout, hden.fixes⟩
  badRange hbad := if_pos (by omega)
  shiftLeft n := (shiftLeft_denotes hs (denotes_self hx) n).fixes
  shiftRight {n} h := by
    refine ⟨shiftRight x n.toNat, ?_, (shiftRight_denotes hs (denotes_self hx) n.toNat).fixes⟩
    rw [shiftRight?_eq, if_pos h]
  breaksOff h := by rw [shiftRight?_eq, if_neg (Nat.not_le.mpr h)]
  isZero := (isZero_means hs (denotes_self hx)).succeeds.decides

end

/-! ## Every solver that commands lead to -/

/-- On a solver that commands lead to, and for all words over its variables: operations on words of one width, or of any
widths, compute what machine numbers do under every assignment of the gate clauses; other operands are refused. -/
theorem machine_steps (engine : Engine) (commands : List Command) (c : Literal) (x y : Word) :
    let s := (Run.new.steps engine commands).solver
    (∀ l ∈ c :: x ++ y, l.var < s.vars) →
      (x.width = y.width → s.Pairs c x y) ∧ (x.width ≠ y.width → s.Refuses c x y) ∧ s.Reshapes x y := by
  intro s hlt
  obtain ⟨retired, hr⟩ := (Run.sound_new.steps engine commands).represents
  have hs : s.WellFormed := hr.wellFormed
  have hc : c.var < s.vars := hlt c (by simp)
  have hx : ∀ l ∈ x, l.var < s.vars := fun l hl => hlt l (by simp [hl])
  have hy : ∀ l ∈ y, l.var < s.vars := fun l hl => hlt l (by simp [hl])
  exact ⟨hs.pairs hc hx hy, refuses s c, hs.reshapes hx hy⟩

/-- Two free bits, and a word of a negated bit and the constant. -/
theorem machine_steps_pair :
    let s := (Run.new.steps Sat.exhaustive [.freshWord 2]).solver
    (∀ l ∈ (⟨1, true⟩ : Literal) :: [⟨1, true⟩, ⟨2, true⟩] ++ [-⟨2, true⟩, tt], l.var < s.vars) ∧
      s.Pairs ⟨1, true⟩ [⟨1, true⟩, ⟨2, true⟩] [-⟨2, true⟩, tt] := by
  intro s
  have hlt : ∀ l ∈ (⟨1, true⟩ : Literal) :: [⟨1, true⟩, ⟨2, true⟩] ++ [-⟨2, true⟩, tt], l.var < s.vars := by decide
  exact ⟨hlt, (machine_steps Sat.exhaustive [.freshWord 2] _ _ _ hlt).1 rfl⟩

/-- Not every shift to the right gives a quotient: two free bits shifted by the greatest machine number. -/
theorem shiftRight?_not_div :
    ¬ ∀ (engine : Engine) (commands : List Command) (x : Word) (n : UInt64),
      let s := (Run.new.steps engine commands).solver
      (∀ l ∈ x, l.var < s.vars) →
        ∃ out, shiftRight? x n = some out ∧ s.Fixes out x.width fun a => x.toNat a / 2 ^ n.toNat := by
  intro h
  have hlt : ∀ l ∈ ([⟨1, true⟩, ⟨2, true⟩] : Word),
      l.var < (Run.new.steps Sat.exhaustive [.freshWord 2]).solver.vars := by decide
  obtain ⟨out, hout, -⟩ := h Sat.exhaustive [.freshWord 2] [⟨1, true⟩, ⟨2, true⟩] 18446744073709551615 hlt
  have hnone : shiftRight? [⟨1, true⟩, ⟨2, true⟩] 18446744073709551615 = none := by
    rw [shiftRight?_eq]
    exact if_neg (by decide)
  rw [hnone] at hout
  cases hout

end Solver
end PlaceRoute
