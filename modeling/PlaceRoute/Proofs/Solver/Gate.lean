import PlaceRoute.Proofs.Solver.Growth

/-!
# What gates mean

A new variable that clauses tie to old ones lets a solver grow (`Solver.GrowsTo.of_gate`), and so do the two kinds of gates
(`newAnd_means`, `newXor_means`). The other terms are made of these and mean their connectives: `and_means`, `or_means`,
`xor_means`, `iff_means`, `implies_means`, `ite_means`, `andAll_means`, `orAll_means`.
-/

namespace PlaceRoute

open PlaceRoute.Sat (Literal Clause Cnf Assignment AgreeBelow)

namespace Solver

variable {s t u : Solver} {a b : Assignment}

/-! ## New gates -/

/-- A new variable that the clauses `cs` tie to a function of the old ones lets a solver grow. -/
theorem GrowsTo.of_gate (hs : s.WellFormed) (value : Assignment → Bool) (cs : Cnf)
    (hvars : t.vars = s.vars + 1) (hclauses : t.clauses = cs ++ s.clauses) (hscopes : t.scopes = s.scopes)
    (hmodel : t.model = s.model) (hbelow : Cnf.Below cs t.vars)
    (hvalue : ∀ {a b : Assignment}, AgreeBelow s.vars a b → value a = value b)
    (hcs : ∀ {a : Assignment}, Cnf.eval a cs = true ↔ a s.vars = value a)
    (hrespects : ∀ {a : Assignment}, t.Respects a ↔ s.Respects a ∧ a s.vars = value a)
    (hand : ∀ {k : GateKey} {out : Literal}, t.andGates[k]? = some out → s.andGates[k]? = some out ∨
      k.low.var < t.vars ∧ k.high.var < t.vars ∧ out.var < t.vars)
    (hxor : ∀ {k : GateKey} {out : Literal}, t.xorGates[k]? = some out → s.xorGates[k]? = some out ∨
      k.low.var < t.vars ∧ k.high.var < t.vars ∧ out.var < t.vars) : s.GrowsTo t := by
  have hle : s.vars ≤ t.vars := by omega
  have hholds (a : Assignment) : t.Holds a ↔ a s.vars = value a ∧ s.Holds a := by
    rw [Holds, hclauses, Cnf.eval, List.all_append, Bool.and_eq_true]
    exact and_congr_left' hcs
  refine ⟨⟨by omega, ?_, ?_, ?_, ?_, ?_⟩, hle, fun h => (hrespects.mp h).1, ?_, ?_, hscopes, hmodel⟩
  · intro c hc l hl
    rw [hclauses] at hc
    rcases List.mem_append.mp hc with hc | hc
    · exact hbelow c hc l hl
    · exact Nat.lt_of_lt_of_le (hs.below c hc l hl) hle
  · intro k out hk
    rcases hand hk with hk | hk
    · obtain ⟨hl, hh, ho⟩ := hs.and_lt hk
      omega
    · exact hk
  · intro k out hk
    rcases hxor hk with hk | hk
    · obtain ⟨hl, hh, ho⟩ := hs.xor_lt hk
      omega
    · exact hk
  · intro act hact
    rw [hscopes] at hact
    exact Nat.lt_of_lt_of_le (hs.scopes_lt act hact) hle
  · intro a ha
    obtain ⟨hv, ha⟩ := (hholds a).mp ha
    exact hrespects.mpr ⟨hs.respects ha, hv⟩
  · intro a ha
    rw [hholds]
    exact and_iff_right (hrespects.mp ha).2
  · intro a ha
    have hagree := AgreeBelow.set a (Nat.le_refl s.vars) (value a)
    refine ⟨a.set s.vars (value a), hagree, hrespects.mpr ⟨ha.congr hs hagree, ?_⟩⟩
    rw [← hvalue hagree]
    simp [Assignment.set]

/-- A gate of the table after one was added: the new one, or one that was there. -/
theorem mem_insert_gate {gates : Std.TreeMap GateKey Literal} {key k : GateKey} {new out : Literal}
    (h : (gates.insert key new)[k]? = some out) : key = k ∧ new = out ∨ gates[k]? = some out := by
  rw [getElem?_insert_gate] at h
  split at h
  · next same => exact Or.inl ⟨same, Option.some.inj h⟩
  · exact Or.inr h

section
variable {x y : Literal}

theorem newAnd_means (hs : s.WellFormed) (hx : x.var < s.vars) (hy : y.var < s.vars)
    (hnew : s.andGates[GateKey.of x y]? = none) :
    Builds (newAnd x y) s fun out t => t.Means out fun a => x.eval a && y.eval a := by
  have hgates : ((newAnd x y).run s).2.andGates = s.andGates.insert (.of x y) ⟨s.vars, true⟩ := rfl
  have hout (a : Assignment) : (Literal.mk s.vars true).eval a = a s.vars := beq_true _
  have hrespects (a : Assignment) : ((newAnd x y).run s).2.Respects a ↔
      s.Respects a ∧ a s.vars = (x.eval a && y.eval a) := by
    constructor
    · intro h
      refine ⟨⟨h.truth, fun {k out} hk => h.and ?_, h.xor⟩, ?_⟩
      · rw [hgates, getElem?_insert_gate, if_neg, hk]
        rintro rfl
        rw [hnew] at hk
        cases hk
      · rw [← hout a, ← GateKey.of_and]
        exact h.and ((getElem?_insert_gate ..).trans (if_pos rfl))
    · rintro ⟨h, hv⟩
      refine ⟨h.truth, fun {k out} hk => ?_, h.xor⟩
      rcases mem_insert_gate hk with ⟨rfl, rfl⟩ | hk
      · rw [hout, hv, GateKey.of_and]
      · exact h.and hk
  refine ⟨GrowsTo.of_gate hs (fun a => x.eval a && y.eval a)
    [[⟨s.vars, true⟩, -x, -y], [-⟨s.vars, true⟩, y], [-⟨s.vars, true⟩, x]]
    rfl rfl rfl rfl ?_ ?_ ?_ (hrespects _) ?_ Or.inl, Nat.lt_succ_self _, ?_⟩
  · show Cnf.Below _ (s.vars + 1)
    simp only [Cnf.Below, List.mem_cons, List.not_mem_nil, or_false, forall_eq_or_imp, forall_eq, Literal.neg_var]
    omega
  · intro a b h
    rw [h.eval hx, h.eval hy]
  · intro a
    simp only [Cnf.eval, Clause.eval, List.all_cons, List.any_cons, List.all_nil, List.any_nil, Literal.eval_neg, hout]
    cases a s.vars <;> cases x.eval a <;> cases y.eval a <;> simp
  · intro k out hk
    rcases mem_insert_gate hk with ⟨rfl, rfl⟩ | hk
    · obtain ⟨hl, hh⟩ := GateKey.of_lt hx hy
      exact Or.inr ⟨Nat.lt_succ_of_lt hl, Nat.lt_succ_of_lt hh, Nat.lt_succ_self _⟩
    · exact Or.inl hk
  · intro a ha
    rw [← ((hrespects a).mp ha).2]
    exact hout a

theorem newXor_means (hs : s.WellFormed) (hx : x.var < s.vars) (hy : y.var < s.vars)
    (hnew : s.xorGates[GateKey.of x y]? = none) :
    Builds (newXor x y) s fun out t => t.Means out fun a => x.eval a ^^ y.eval a := by
  have hgates : ((newXor x y).run s).2.xorGates = s.xorGates.insert (.of x y) ⟨s.vars, true⟩ := rfl
  have hout (a : Assignment) : (Literal.mk s.vars true).eval a = a s.vars := beq_true _
  have hrespects (a : Assignment) : ((newXor x y).run s).2.Respects a ↔
      s.Respects a ∧ a s.vars = (x.eval a ^^ y.eval a) := by
    constructor
    · intro h
      refine ⟨⟨h.truth, h.and, fun {k out} hk => h.xor ?_⟩, ?_⟩
      · rw [hgates, getElem?_insert_gate, if_neg, hk]
        rintro rfl
        rw [hnew] at hk
        cases hk
      · rw [← hout a, ← GateKey.of_xor]
        exact h.xor ((getElem?_insert_gate ..).trans (if_pos rfl))
    · rintro ⟨h, hv⟩
      refine ⟨h.truth, h.and, fun {k out} hk => ?_⟩
      rcases mem_insert_gate hk with ⟨rfl, rfl⟩ | hk
      · rw [hout, hv, GateKey.of_xor]
      · exact h.xor hk
  refine ⟨GrowsTo.of_gate hs (fun a => x.eval a ^^ y.eval a)
    [[⟨s.vars, true⟩, x, -y], [⟨s.vars, true⟩, -x, y], [-⟨s.vars, true⟩, -x, -y], [-⟨s.vars, true⟩, x, y]]
    rfl rfl rfl rfl ?_ ?_ ?_ (hrespects _) Or.inl ?_, Nat.lt_succ_self _, ?_⟩
  · show Cnf.Below _ (s.vars + 1)
    simp only [Cnf.Below, List.mem_cons, List.not_mem_nil, or_false, forall_eq_or_imp, forall_eq, Literal.neg_var]
    omega
  · intro a b h
    rw [h.eval hx, h.eval hy]
  · intro a
    simp only [Cnf.eval, Clause.eval, List.all_cons, List.any_cons, List.all_nil, List.any_nil, Literal.eval_neg, hout]
    cases a s.vars <;> cases x.eval a <;> cases y.eval a <;> simp
  · intro k out hk
    rcases mem_insert_gate hk with ⟨rfl, rfl⟩ | hk
    · obtain ⟨hl, hh⟩ := GateKey.of_lt hx hy
      exact Or.inr ⟨Nat.lt_succ_of_lt hl, Nat.lt_succ_of_lt hh, Nat.lt_succ_self _⟩
    · exact Or.inl hk
  · intro a ha
    rw [← ((hrespects a).mp ha).2]
    exact hout a

end

/-! ## Connectives -/

/-- The construction `op` gives a literal with the value that `sem` has on the values of its operands. -/
def Implements (op : Literal → Literal → SolverM Literal) (sem : Bool → Bool → Bool) : Prop :=
  ∀ {s : Solver} {x y : Literal} {f g : Assignment → Bool}, s.WellFormed → s.Means x f → s.Means y g →
    Builds (op x y) s fun out t => t.Means out fun a => sem (f a) (g a)

section
variable {x y z : Literal} {f g h : Assignment → Bool}

theorem and_means : Implements and (· && ·) := by
  intro s x y f g hs hx hy
  have hval {a : Assignment} (ha : s.Respects a) : (x.eval a && y.eval a) = (f a && g a) := by
    rw [hx.eval ha, hy.eval ha]
  have done {l : Literal} (hl : s.Means l fun a => x.eval a && y.eval a) :
      Builds (pure l) s fun out t => t.Means out fun a => f a && g a :=
    Builds.pure hs (hl.congr fun _ ha => hval ha)
  unfold Solver.and
  split
  · next h =>
    refine done ((means_ff hs).congr fun a ha => ?_)
    rcases h with rfl | rfl | rfl
    · simp [(means_ff hs).eval ha]
    · simp [(means_ff hs).eval ha]
    · simp
  · split
    · next h =>
      refine done ((means_self hy.lt).congr fun a ha => ?_)
      rcases h with rfl | rfl
      · simp [(means_tt hs).eval ha]
      · simp
    · split
      · next h =>
        subst h
        exact done ((means_self hx.lt).congr fun a ha => by simp [(means_tt hs).eval ha])
      · refine Builds.get ?_
        split
        · next out hk => exact done ⟨(hs.and_lt hk).2.2, fun {a} ha => (ha.and hk).trans (GateKey.of_and a x y)⟩
        · next hk =>
          exact (newAnd_means hs hx.lt hy.lt hk).mono fun out t hgrow hout =>
            hout.congr fun a ha => hval (hgrow.respects ha)

theorem or_means : Implements or (· || ·) := by
  intro s x y f g hs hx hy
  refine (and_means hs hx.neg hy.neg).bind fun out t hgrow hout => ?_
  exact Builds.pure hgrow.wellFormed (hout.neg.congr fun a _ => by simp)

/-- The value of a literal by that of its variable. -/
theorem eval_eq_positive (a : Assignment) (l : Literal) : l.eval a = ((positive l).eval a == l.positive) := by
  simp [positive, Literal.eval]

theorem xor_means : Implements xor (· ^^ ·) := by
  intro s x y f g hs hx hy
  have hval {a : Assignment} (ha : s.Respects a) : (x.eval a ^^ y.eval a) = (f a ^^ g a) := by
    rw [hx.eval ha, hy.eval ha]
  have done {l : Literal} (hl : s.Means l fun a => x.eval a ^^ y.eval a) :
      Builds (pure l) s fun out t => t.Means out fun a => f a ^^ g a :=
    Builds.pure hs (hl.congr fun _ ha => hval ha)
  have htt {a : Assignment} (ha : s.Respects a) : tt.eval a = true := (means_tt hs).eval ha
  have hff {a : Assignment} (ha : s.Respects a) : ff.eval a = false := (means_ff hs).eval ha
  unfold Solver.xor
  split
  · next h => exact done ((means_self hy.lt).congr fun a ha => by simp [h, hff ha])
  split
  · next h => exact done ((means_self hx.lt).congr fun a ha => by simp [h, hff ha])
  split
  · next h => exact done ((means_self hy.lt).neg.congr fun a ha => by simp [h, htt ha])
  split
  · next h => exact done ((means_self hx.lt).neg.congr fun a ha => by simp [h, htt ha])
  split
  · next h => exact done ((means_ff hs).congr fun a ha => by simp [h])
  split
  · next h => exact done ((means_tt hs).congr fun a ha => by simp [h])
  have hgate : ∀ out t, s.GrowsTo t → (t.Means out fun a => (positive x).eval a ^^ (positive y).eval a) →
      Builds (pure (if x.positive = y.positive then out else -out)) t fun out t => t.Means out fun a => f a ^^ g a := by
    intro out t hgrow hout
    refine Builds.pure hgrow.wellFormed ?_
    have hflip {a : Assignment} (ha : t.Respects a) :
        (f a ^^ g a) = (((positive x).eval a ^^ (positive y).eval a) == (x.positive == y.positive)) := by
      rw [← hval (hgrow.respects ha), eval_eq_positive, eval_eq_positive a y]
      cases (positive x).eval a <;> cases (positive y).eval a <;> cases x.positive <;> cases y.positive <;> rfl
    split
    · next same => exact hout.congr fun a ha => by rw [hflip ha, same]; simp
    · next other =>
      refine hout.neg.congr fun a ha => ?_
      rw [hflip ha, beq_false_of_ne other]
      simp
  refine Builds.get ?_
  cases hk : s.xorGates[GateKey.of (positive x) (positive y)]? with
  | some out =>
    simp only [pure_bind]
    exact hgate out s (.refl hs) ⟨(hs.xor_lt hk).2.2, fun {a} ha => (ha.xor hk).trans (GateKey.of_xor a _ _)⟩
  | none => exact (newXor_means hs (x := positive x) (y := positive y) hx.lt hy.lt hk).bind hgate

theorem iff_means : Implements iff (· == ·) := by
  intro s x y f g hs hx hy
  refine (xor_means hs hx hy).bind fun out t hgrow hout => ?_
  refine Builds.pure hgrow.wellFormed (hout.neg.congr fun a _ => ?_)
  cases f a <;> cases g a <;> rfl

theorem implies_means : Implements implies (fun p q => !p || q) := fun hs hx hy => or_means hs hx.neg hy

theorem ite_means (hs : s.WellFormed) (hx : s.Means x f) (hy : s.Means y g) (hz : s.Means z h) :
    Builds (ite x y z) s fun out t => t.Means out fun a => if f a then g a else h a := by
  unfold ite
  split
  · next c hc =>
    have hf {a : Assignment} (ha : s.Respects a) : f a = c := by
      rw [← hx.eval ha]
      unfold asConst at hc
      split at hc
      · next h => rw [h, ← Option.some.inj hc]; exact (means_tt hs).eval ha
      · split at hc
        · next h => rw [h, ← Option.some.inj hc]; exact (means_ff hs).eval ha
        · cases hc
    refine Builds.pure hs ?_
    cases c
    · exact hz.congr fun a ha => by simp [hf ha]
    · exact hy.congr fun a ha => by simp [hf ha]
  · split
    · next same =>
      subst same
      refine Builds.pure hs (hy.congr fun a ha => ?_)
      have : g a = h a := (hy.eval ha).symm.trans (hz.eval ha)
      simp [this]
    · refine (and_means hs hx hy).bind fun l t hst hl => ?_
      refine (and_means hst.wellFormed (hx.grow hst).neg (hz.grow hst)).bind fun r u htu hr => ?_
      refine (or_means htu.wellFormed (hl.grow htu) hr).mono fun out v _ hout => hout.congr fun a _ => ?_
      cases f a <;> simp

end

/-! ## Lists of terms -/

/-- Combining the terms of a list one after the other. -/
theorem Implements.foldlM {op : Literal → Literal → SolverM Literal} {sem : Bool → Bool → Bool}
    (hop : Implements op sem) (terms : List Literal) {s : Solver} {x : Literal} {f : Assignment → Bool}
    (hs : s.WellFormed) (hx : s.Means x f) (hlt : ∀ l ∈ terms, l.var < s.vars) :
    Builds (terms.foldlM op x) s fun out t =>
      t.Means out fun a => terms.foldl (fun b l => sem b (l.eval a)) (f a) := by
  induction terms generalizing s x f with
  | nil => exact Builds.pure hs hx
  | cons y terms ih =>
    rw [List.foldlM_cons]
    refine (hop hs hx (means_self (hlt y List.mem_cons_self))).bind fun l t hst hl => ?_
    exact ih hst.wellFormed hl fun l hl => Nat.lt_of_lt_of_le (hlt l (List.mem_cons_of_mem _ hl)) hst.vars_le

theorem foldl_and_eval (a : Assignment) (terms : List Literal) (b : Bool) :
    terms.foldl (fun b l => b && l.eval a) b = (b && terms.all (·.eval a)) := by
  induction terms generalizing b with
  | nil => simp
  | cons y terms ih => simp [ih, Bool.and_assoc]

theorem foldl_or_eval (a : Assignment) (terms : List Literal) (b : Bool) :
    terms.foldl (fun b l => b || l.eval a) b = (b || terms.any (·.eval a)) := by
  induction terms generalizing b with
  | nil => simp
  | cons y terms ih => simp [ih, Bool.or_assoc]

theorem andAll_means {terms : List Literal} (hs : s.WellFormed) (hlt : ∀ l ∈ terms, l.var < s.vars) :
    Builds (andAll terms) s fun out t => t.Means out fun a => terms.all (·.eval a) :=
  (and_means.foldlM terms hs (means_tt hs) hlt).mono fun _ _ _ hout => hout.congr fun a _ =>
    (foldl_and_eval a terms true).trans (Bool.true_and _)

theorem orAll_means {terms : List Literal} (hs : s.WellFormed) (hlt : ∀ l ∈ terms, l.var < s.vars) :
    Builds (orAll terms) s fun out t => t.Means out fun a => terms.any (·.eval a) :=
  (or_means.foldlM terms hs (means_ff hs) hlt).mono fun _ _ _ hout => hout.congr fun a _ =>
    (foldl_or_eval a terms false).trans (Bool.false_or _)

end Solver
end PlaceRoute
