import PlaceRoute.Proofs.Solver.Growth
import PlaceRoute.Proofs.Word.Bits

/-!
# What words mean

`Solver.Spells s w n f` says that the word `w` has `n` bits, those of `f` under every assignment that respects `s`, and
`Solver.Denotes s w n f` that the number of `w` is that of `f`. A free literal or word takes any value (`fresh_free`,
`freshWord_free`). `Solver.Succeeds` is `Solver.Builds` for steps that may fail.
-/

namespace PlaceRoute

open PlaceRoute.Sat (Literal Assignment AgreeBelow)

namespace Word

variable {a b : Assignment}

/-- The values of the bits of a word. -/
def bits (a : Assignment) (w : Word) : List Bool := w.map (·.eval a)

@[simp] theorem length_bits (a : Assignment) (w : Word) : (w.bits a).length = w.width := List.length_map ..

@[simp] theorem bits_nil (a : Assignment) : bits a [] = [] := rfl

@[simp] theorem bits_cons (a : Assignment) (l : Literal) (w : Word) : bits a (l :: w) = l.eval a :: bits a w := rfl

theorem toNat_eq (a : Assignment) (w : Word) : w.toNat a = Bits.value (w.bits a) := by
  induction w with
  | nil => rfl
  | cons l w ih =>
    rw [toNat, ih, bits_cons, Bits.value_cons]
    cases l.eval a <;> rfl

theorem toNat_lt (a : Assignment) (w : Word) : w.toNat a < 2 ^ w.width := by
  rw [toNat_eq, ← length_bits a w]
  exact Bits.value_lt _

theorem toNat_append (a : Assignment) (v w : Word) : toNat a (v ++ w) = v.toNat a + 2 ^ v.width * w.toNat a := by
  rw [toNat_eq, toNat_eq, toNat_eq, bits, List.map_append, Bits.value_append, List.length_map]
  rfl

/-- A word over common variables has one list of bits. -/
theorem bits_congr {n : Nat} (h : AgreeBelow n a b) {w : Word} (hw : ∀ l ∈ w, l.var < n) : w.bits a = w.bits b :=
  List.map_congr_left fun l hl => h.eval (hw l hl)

end Word

namespace Solver

variable {s t : Solver} {a : Assignment}

/-! ## Steps that may fail -/

/-- The steps `m` succeed on the solver `s` and let it grow, and `post` holds of their result. -/
def Succeeds {α : Type} (m : CheckedM α) (s : Solver) (post : α → Solver → Prop) : Prop :=
  Builds m.run s fun r t => ∃ x, r = .ok x ∧ post x t

section
variable {α β : Type} {m : SolverM α} {c : CheckedM α} {f : α → CheckedM β} {post post' : α → Solver → Prop}
  {after : β → Solver → Prop}

theorem Builds.succeeds (h : Builds m s post) : Succeeds (liftM m) s post := ⟨h.1, _, rfl, h.2⟩

theorem Succeeds.pure {x : α} (hs : s.WellFormed) (h : post x s) : Succeeds (pure x) s post :=
  ⟨.refl hs, _, rfl, h⟩

theorem Succeeds.bind (h : Succeeds c s post) (hf : ∀ x t, s.GrowsTo t → post x t → Succeeds (f x) t after) :
    Succeeds (c >>= f) s after := by
  obtain ⟨grows, x, hx, holds⟩ := h
  have hrun : (c >>= f).run.run s = (f x).run.run (c.run.run s).2 := by
    show ExceptT.bindCont f (c.run.run s).1 (c.run.run s).2 = _
    rw [hx]
    rfl
  obtain ⟨grows', holds'⟩ := hf x _ grows holds
  refine ⟨?_, ?_⟩ <;> rw [hrun]
  · exact grows.trans grows'
  · exact holds'

theorem Succeeds.mono (h : Succeeds c s post) (hp : ∀ x t, s.GrowsTo t → post x t → post' x t) :
    Succeeds c s post' := by
  obtain ⟨grows, x, hx, holds⟩ := h
  exact ⟨grows, x, hx, hp _ _ grows holds⟩

end

/-! ## Free literals and words -/

theorem fresh_grows (hs : s.WellFormed) : s.GrowsTo (fresh.run s).2 := by
  have hrespects (b : Assignment) : (fresh.run s).2.Respects b ↔ s.Respects b :=
    ⟨fun h => ⟨h.truth, h.and, h.xor⟩, fun h => ⟨h.truth, h.and, h.xor⟩⟩
  have hle : s.vars ≤ (fresh.run s).2.vars := Nat.le_succ _
  refine ⟨⟨Nat.succ_pos _, ?_, ?_, ?_, ?_, fun h => (hrespects _).mpr (hs.respects h)⟩, hle, (hrespects _).mp,
    fun _ => Iff.rfl, fun h => ⟨_, .refl _ _, (hrespects _).mpr h⟩, rfl, rfl⟩
  · intro c hc l hl
    exact Nat.lt_of_lt_of_le (hs.below c hc l hl) hle
  · intro k out hk
    obtain ⟨hl, hh, ho⟩ := hs.and_lt hk
    exact ⟨Nat.lt_of_lt_of_le hl hle, Nat.lt_of_lt_of_le hh hle, Nat.lt_of_lt_of_le ho hle⟩
  · intro k out hk
    obtain ⟨hl, hh, ho⟩ := hs.xor_lt hk
    exact ⟨Nat.lt_of_lt_of_le hl hle, Nat.lt_of_lt_of_le hh hle, Nat.lt_of_lt_of_le ho hle⟩
  · intro act hact
    exact Nat.lt_of_lt_of_le (hs.scopes_lt act hact) hle

/-- The literal `l` is none of the old ones, and both values are open to it. -/
structure FreeBit (s t : Solver) (l : Literal) : Prop where
  lt : l.var < t.vars
  extend : ∀ {a : Assignment}, s.Respects a → ∀ x : Bool, ∃ b, AgreeBelow s.vars a b ∧ t.Respects b ∧ l.eval b = x

theorem fresh_free (hs : s.WellFormed) : Builds fresh s fun l t => FreeBit s t l := by
  refine ⟨fresh_grows hs, Nat.lt_succ_self _, fun {a} ha x => ?_⟩
  have hagree := AgreeBelow.set a (Nat.le_refl s.vars) x
  have hb := ha.congr hs hagree
  refine ⟨a.set s.vars x, hagree, ⟨hb.truth, hb.and, hb.xor⟩, ?_⟩
  show ((a.set s.vars x) s.vars == true) = x
  simp [Sat.Assignment.set]

/-- The word `w` has `n` bits, and all their values are open to it. -/
structure FreeWord (s t : Solver) (n : Nat) (w : Word) : Prop where
  width : w.width = n
  lt : ∀ l ∈ w, l.var < t.vars
  extend : ∀ {a : Assignment}, s.Respects a → ∀ bs : List Bool, bs.length = n →
    ∃ b, AgreeBelow s.vars a b ∧ t.Respects b ∧ w.bits b = bs

theorem freshWord_free (n : Nat) (hs : s.WellFormed) : Builds (freshWord n) s fun w t => FreeWord s t n w := by
  induction n generalizing s with
  | zero =>
    refine Builds.pure hs ⟨rfl, by simp, fun {a} ha bs hbs => ⟨a, .refl _ _, ha, ?_⟩⟩
    exact (List.length_eq_zero_iff.mp hbs).symm
  | succ n ih =>
    refine (fresh_free hs).bind fun l t hst hl => ?_
    refine (ih hst.wellFormed).bind fun w u htu hw => ?_
    refine Builds.pure htu.wellFormed ⟨by simp [hw.width], ?_, fun {a} ha bs hbs => ?_⟩
    · intro k hk
      rcases List.mem_cons.mp hk with rfl | hk
      · exact Nat.lt_of_lt_of_le hl.lt htu.vars_le
      · exact hw.lt k hk
    · cases bs with
      | nil => simp at hbs
      | cons x bs =>
        obtain ⟨b, hab, hb, hx⟩ := hl.extend ha x
        obtain ⟨c, hbc, hc, hbits⟩ := hw.extend hb bs (Nat.succ.inj hbs)
        refine ⟨c, hab.trans (hbc.mono hst.vars_le), hc, ?_⟩
        rw [Word.bits_cons, hbits, ← hbc.eval hl.lt, hx]

/-! ## Words and their bits -/

/-- The word has `n` bits, and they are those that `f` gives. -/
structure Spells (s : Solver) (w : Word) (n : Nat) (f : Assignment → List Bool) : Prop where
  width : w.width = n
  lt : ∀ l ∈ w, l.var < s.vars
  bits : ∀ {a : Assignment}, s.Respects a → w.bits a = f a

/-- The word has `n` bits and stands for the number that `f` gives. -/
structure Denotes (s : Solver) (w : Word) (n : Nat) (f : Assignment → Nat) : Prop where
  width : w.width = n
  lt : ∀ l ∈ w, l.var < s.vars
  eval : ∀ {a : Assignment}, s.Respects a → w.toNat a = f a

section
variable {w : Word} {n : Nat} {l : Literal} {f g : Assignment → Nat}

theorem Spells.denotes {f : Assignment → List Bool} (h : s.Spells w n f) : s.Denotes w n fun a => Bits.value (f a) :=
  ⟨h.width, h.lt, fun ha => by rw [Word.toNat_eq, h.bits ha]⟩

theorem Spells.cons {f : Assignment → List Bool} {p : Assignment → Bool} (hl : s.Means l p) (h : s.Spells w n f) :
    s.Spells (l :: w) (n + 1) fun a => p a :: f a where
  width := congrArg Nat.succ h.width
  lt := List.forall_mem_cons.mpr ⟨hl.lt, h.lt⟩
  bits ha := by rw [Word.bits_cons, hl.eval ha, h.bits ha]

theorem spells_nil (s : Solver) : s.Spells [] 0 fun _ => [] := ⟨rfl, by simp, fun _ => rfl⟩

theorem Denotes.grow (h : s.Denotes w n f) (hst : s.GrowsTo t) : t.Denotes w n f :=
  ⟨h.width, fun l hl => Nat.lt_of_lt_of_le (h.lt l hl) hst.vars_le, fun ha => h.eval (hst.respects ha)⟩

theorem Denotes.congr (h : s.Denotes w n f) (hfg : ∀ a, s.Respects a → f a = g a) : s.Denotes w n g :=
  ⟨h.width, h.lt, fun ha => (h.eval ha).trans (hfg _ ha)⟩

/-- A word denotes its own number. -/
theorem denotes_self (h : ∀ l ∈ w, l.var < s.vars) : s.Denotes w w.width fun a => w.toNat a := ⟨rfl, h, fun _ => rfl⟩

theorem Denotes.value (h : s.Denotes w n f) (ha : s.Respects a) : Bits.value (w.bits a) = f a := by
  rw [← Word.toNat_eq, h.eval ha]

theorem Denotes.length (h : s.Denotes w n f) (a : Assignment) : (w.bits a).length = n :=
  (Word.length_bits a w).trans h.width

theorem Denotes.lt_two_pow (h : s.Denotes w n f) (ha : s.Respects a) : f a < 2 ^ n := by
  rw [← h.eval ha, ← h.width]
  exact Word.toNat_lt a w

/-- A literal as a word of one bit. -/
theorem denotes_bit {p : Assignment → Bool} (h : s.Means l p) : s.Denotes [l] 1 fun a => (p a).toNat := by
  refine ((spells_nil s).cons h).denotes.congr fun a _ => ?_
  simp

end

end Solver
end PlaceRoute
