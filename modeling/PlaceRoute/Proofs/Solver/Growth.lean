import PlaceRoute.Sat.Exhaustive
import PlaceRoute.Solver.Scope

/-!
# How a solver grows

An assignment respects a solver when every gate output has the value of its gate (`Solver.Respects`). A construction
step only defines new gates: it lets the solver grow (`Solver.GrowsTo`), so that every assignment that respects the
old solver extends to one that respects the new one, and clauses that were there before keep their value.

* `Solver.Builds m s post`: from `s` the steps `m` lead to a grown solver, and `post` holds of it and the result;
* `Solver.Means s l f`: under every assignment that respects `s` the literal `l` has the value that `f` gives.
-/

namespace PlaceRoute

open PlaceRoute.Sat (Literal Clause Cnf Assignment)

/-! ## Assignments that agree -/

/-- Two assignments give the variables below `n` the same values. -/
def Sat.AgreeBelow (n : Nat) (a b : Assignment) : Prop := ∀ v < n, a v = b v

open PlaceRoute.Sat (AgreeBelow)

namespace Sat.AgreeBelow

variable {m n : Nat} {a b c : Assignment}

theorem refl (n : Nat) (a : Assignment) : AgreeBelow n a a := fun _ _ => rfl

theorem symm (h : AgreeBelow n a b) : AgreeBelow n b a := fun v hv => (h v hv).symm

theorem trans (hab : AgreeBelow n a b) (hbc : AgreeBelow n b c) : AgreeBelow n a c :=
  fun v hv => (hab v hv).trans (hbc v hv)

theorem mono (h : AgreeBelow n a b) (hm : m ≤ n) : AgreeBelow m a b := fun v hv => h v (Nat.lt_of_lt_of_le hv hm)

/-- A literal of a common variable has one value. -/
theorem eval (h : AgreeBelow n a b) {l : Literal} (hl : l.var < n) : l.eval a = l.eval b := by
  unfold Literal.eval
  rw [h l.var hl]

/-- A change at `n` or above is not seen. -/
theorem set (a : Assignment) {v : Nat} (hv : n ≤ v) (x : Bool) : AgreeBelow n a (a.set v x) := fun w hw => by
  have hne : w ≠ v := by omega
  simp [Assignment.set, hne]

end Sat.AgreeBelow

/-! ## Operands of gates -/

namespace GateKey

variable {x y : Literal} {n : Nat}

/-- A gate keeps its operands in one of the two orders. -/
theorem of_cases (x y : Literal) : of x y = ⟨x, y⟩ ∨ of x y = ⟨y, x⟩ := by
  unfold of
  split
  · exact Or.inl rfl
  · exact Or.inr rfl

theorem of_lt (hx : x.var < n) (hy : y.var < n) : (of x y).low.var < n ∧ (of x y).high.var < n := by
  rcases of_cases x y with h | h <;> rw [h]
  · exact ⟨hx, hy⟩
  · exact ⟨hy, hx⟩

theorem of_and (a : Assignment) (x y : Literal) :
    ((of x y).low.eval a && (of x y).high.eval a) = (x.eval a && y.eval a) := by
  rcases of_cases x y with h | h <;> rw [h]
  exact Bool.and_comm ..

theorem of_xor (a : Assignment) (x y : Literal) :
    ((of x y).low.eval a ^^ (of x y).high.eval a) = (x.eval a ^^ y.eval a) := by
  rcases of_cases x y with h | h <;> rw [h]
  exact Bool.xor_comm ..

end GateKey

/-- Looking up a gate after one was added. -/
theorem Solver.getElem?_insert_gate (gates : Std.TreeMap GateKey Literal) (key k : GateKey) (out : Literal) :
    (gates.insert key out)[k]? = if key = k then some out else gates[k]? := by
  rw [Std.TreeMap.getElem?_insert]
  simp

namespace Solver

/-! ## Solvers that are well formed -/

/-- The assignment gives the constant and every gate output its value. -/
structure Respects (s : Solver) (a : Assignment) : Prop where
  truth : a 0 = true
  and : ∀ {k : GateKey} {out : Literal}, s.andGates[k]? = some out → out.eval a = (k.low.eval a && k.high.eval a)
  xor : ∀ {k : GateKey} {out : Literal}, s.xorGates[k]? = some out → out.eval a = (k.low.eval a ^^ k.high.eval a)

/-- All clauses hold. -/
def Holds (s : Solver) (a : Assignment) : Prop := Cnf.eval a s.clauses = true

/-- Everything that the solver speaks about is one of its variables, and its clauses define its gates. -/
structure WellFormed (s : Solver) : Prop where
  vars_pos : 0 < s.vars
  below : Cnf.Below s.clauses s.vars
  and_lt : ∀ {k : GateKey} {out : Literal}, s.andGates[k]? = some out →
    k.low.var < s.vars ∧ k.high.var < s.vars ∧ out.var < s.vars
  xor_lt : ∀ {k : GateKey} {out : Literal}, s.xorGates[k]? = some out →
    k.low.var < s.vars ∧ k.high.var < s.vars ∧ out.var < s.vars
  scopes_lt : ∀ act ∈ s.scopes, act.var < s.vars
  respects : ∀ {a : Assignment}, s.Holds a → s.Respects a

/-- The new solver is well formed. -/
theorem wellFormed_new : new.WellFormed where
  vars_pos := Nat.one_pos
  below := by simp [Cnf.Below, new, tt]
  and_lt h := by simp [new] at h
  xor_lt h := by simp [new] at h
  scopes_lt := by simp [new]
  respects h := by
    refine ⟨by simpa [Holds, new, Cnf.eval, Clause.eval, tt, Literal.eval] using h, ?_, ?_⟩ <;> simp [new]

variable {s t u : Solver} {a b : Assignment}

/-- Whether the gates have their values is decided by the solver's own variables. -/
theorem Respects.congr (hs : s.WellFormed) (h : AgreeBelow s.vars a b) (ha : s.Respects a) : s.Respects b where
  truth := (h 0 hs.vars_pos).symm.trans ha.truth
  and hk := by
    obtain ⟨hl, hh, ho⟩ := hs.and_lt hk
    rw [← h.eval hl, ← h.eval hh, ← h.eval ho]
    exact ha.and hk
  xor hk := by
    obtain ⟨hl, hh, ho⟩ := hs.xor_lt hk
    rw [← h.eval hl, ← h.eval hh, ← h.eval ho]
    exact ha.xor hk

/-- Whether the clauses hold is decided by the solver's own variables. -/
theorem Holds.congr (hs : s.WellFormed) (h : AgreeBelow s.vars a b) (ha : s.Holds a) : s.Holds b :=
  (hs.below.eval_congr h).symm.trans ha

/-! ## Growth -/

/-- `t` is `s` with more variables and gates, and with no more than that. -/
structure GrowsTo (s t : Solver) : Prop where
  wellFormed : t.WellFormed
  vars_le : s.vars ≤ t.vars
  respects : ∀ {a : Assignment}, t.Respects a → s.Respects a
  holds : ∀ {a : Assignment}, t.Respects a → (t.Holds a ↔ s.Holds a)
  extend : ∀ {a : Assignment}, s.Respects a → ∃ b, AgreeBelow s.vars a b ∧ t.Respects b
  scopes : t.scopes = s.scopes
  model : t.model = s.model

theorem GrowsTo.refl (hs : s.WellFormed) : s.GrowsTo s :=
  ⟨hs, Nat.le_refl _, id, fun _ => Iff.rfl, fun h => ⟨_, .refl _ _, h⟩, rfl, rfl⟩

theorem GrowsTo.trans (hst : s.GrowsTo t) (htu : t.GrowsTo u) : s.GrowsTo u where
  wellFormed := htu.wellFormed
  vars_le := Nat.le_trans hst.vars_le htu.vars_le
  respects h := hst.respects (htu.respects h)
  holds h := (htu.holds h).trans (hst.holds (htu.respects h))
  extend h := by
    obtain ⟨b, hab, hb⟩ := hst.extend h
    obtain ⟨c, hbc, hc⟩ := htu.extend hb
    exact ⟨c, hab.trans (hbc.mono hst.vars_le), hc⟩
  scopes := htu.scopes.trans hst.scopes
  model := htu.model.trans hst.model

/-- The steps `m` let the solver `s` grow, and `post` holds of their result and the grown solver. -/
def Builds {α : Type} (m : SolverM α) (s : Solver) (post : α → Solver → Prop) : Prop :=
  s.GrowsTo (m.run s).2 ∧ post (m.run s).1 (m.run s).2

section
variable {α β : Type} {m : SolverM α} {f : α → SolverM β} {post post' : α → Solver → Prop} {after : β → Solver → Prop}

theorem Builds.pure {x : α} (hs : s.WellFormed) (h : post x s) : Builds (pure x) s post := ⟨.refl hs, h⟩

theorem Builds.bind (h : Builds m s post) (hf : ∀ x t, s.GrowsTo t → post x t → Builds (f x) t after) :
    Builds (m >>= f) s after := by
  obtain ⟨grows, holds⟩ := h
  obtain ⟨grows', holds'⟩ := hf _ _ grows holds
  exact ⟨grows.trans grows', holds'⟩

/-- Steps that look at the solver see the one that they start from. -/
theorem Builds.get {f : Solver → SolverM β} (h : Builds (f s) s after) : Builds (MonadState.get >>= f) s after := h

theorem Builds.mono (h : Builds m s post) (hp : ∀ x t, s.GrowsTo t → post x t → post' x t) : Builds m s post' :=
  ⟨h.1, hp _ _ h.1 h.2⟩

end

/-- Under every assignment that respects the solver the literal has the value that `f` gives. -/
structure Means (s : Solver) (l : Literal) (f : Assignment → Bool) : Prop where
  lt : l.var < s.vars
  eval : ∀ {a : Assignment}, s.Respects a → l.eval a = f a

section
variable {l : Literal} {f g : Assignment → Bool}

theorem Means.grow (h : s.Means l f) (hst : s.GrowsTo t) : t.Means l f :=
  ⟨Nat.lt_of_lt_of_le h.lt hst.vars_le, fun ha => h.eval (hst.respects ha)⟩

theorem Means.congr (h : s.Means l f) (hfg : ∀ a, s.Respects a → f a = g a) : s.Means l g :=
  ⟨h.lt, fun ha => (h.eval ha).trans (hfg _ ha)⟩

theorem Means.neg (h : s.Means l f) : s.Means (-l) (fun a => !f a) :=
  ⟨h.lt, fun ha => by rw [Literal.eval_neg, h.eval ha]⟩

/-- A literal means itself. -/
theorem means_self (h : l.var < s.vars) : s.Means l (fun a => l.eval a) := ⟨h, fun _ => rfl⟩

theorem means_tt (hs : s.WellFormed) : s.Means tt (fun _ => true) :=
  ⟨hs.vars_pos, fun ha => by simp [tt, Literal.eval, ha.truth]⟩

theorem means_ff (hs : s.WellFormed) : s.Means ff (fun _ => false) :=
  ⟨hs.vars_pos, fun ha => by simp [ff, Literal.eval, ha.truth]⟩

theorem means_ofBool (hs : s.WellFormed) (b : Bool) : s.Means (ofBool b) (fun _ => b) := by
  cases b
  · exact means_ff hs
  · exact means_tt hs

end

end Solver
end PlaceRoute
