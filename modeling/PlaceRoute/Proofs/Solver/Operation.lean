import PlaceRoute.Proofs.Solver.Gate
import PlaceRoute.Proofs.Solver.Word

/-!
# What operations on words mean

The operations are those of numbers below `2 ^ n`: `andWord_denotes`, `orWord_denotes`, `xorWord_denotes`, `notWord_denotes`,
`addWord_denotes`, `subWord_denotes`, `shiftRight_denotes`, `shiftLeft_denotes`, `concat_denotes`, `extract_denotes`,
`zeroExtend_denotes`, `constWord_denotes`, `iteWord_denotes`, `eqWord_means`, `ltWord_means`, `leWord_means`, `isZero_means`.

The shift to the right by a machine number reads bit `i` at `i + k` and breaks off where this sum passes `2 ^ 64`. It is
`shiftRight` as long as the last position does not, and otherwise gives no word (`shiftRight?_eq`).
-/

namespace PlaceRoute

open PlaceRoute.Sat (Literal Assignment AgreeBelow)

namespace Solver

variable {s t : Solver} {a : Assignment}

/-! ## Operations bit by bit -/

section
variable {x y : Word} {n : Nat}

/-- Combining two words by steps that give each pair of bits the value of `sem`. -/
theorem zipBits_spells {op : Literal → Literal → SolverM Literal} (sem : Assignment → Bool → Bool → Bool)
    (hs : s.WellFormed) (hop : ∀ {t : Solver} {p q : Literal}, s.GrowsTo t → p.var < t.vars → q.var < t.vars →
      Builds (op p q) t fun out u => u.Means out fun a => sem a (p.eval a) (q.eval a))
    (hw : x.width = y.width) (hx : ∀ l ∈ x, l.var < s.vars) (hy : ∀ l ∈ y, l.var < s.vars) :
    Builds (zipBits op x y) s fun out t =>
      t.Spells out x.width fun a => List.zipWith (sem a) (x.bits a) (y.bits a) := by
  induction x generalizing y s with
  | nil => exact Builds.pure hs (spells_nil s)
  | cons p x ih =>
    cases y with
    | nil => cases hw
    | cons q y =>
      rw [List.forall_mem_cons] at hx hy
      refine (hop (.refl hs) hx.1 hy.1).bind fun l t hst hl => ?_
      have hgrow {l : Literal} (hl : l.var < s.vars) : l.var < t.vars := Nat.lt_of_lt_of_le hl hst.vars_le
      refine (ih hst.wellFormed (fun htu => hop (hst.trans htu)) (Nat.succ.inj hw) (fun l hl => hgrow (hx.2 l hl))
        (fun l hl => hgrow (hy.2 l hl))).bind fun w u htu hw => ?_
      exact Builds.pure htu.wellFormed (hw.cons (hl.grow htu))

theorem Implements.zipBits {op : Literal → Literal → SolverM Literal} {sem : Bool → Bool → Bool}
    (hop : Implements op sem) (hs : s.WellFormed) (hw : x.width = y.width) (hx : ∀ l ∈ x, l.var < s.vars)
    (hy : ∀ l ∈ y, l.var < s.vars) :
    Builds (zipBits op x y) s fun out t => t.Spells out x.width fun a => List.zipWith sem (x.bits a) (y.bits a) :=
  zipBits_spells (fun _ => sem) hs (fun hst hp hq => hop hst.wellFormed (means_self hp) (means_self hq)) hw hx hy

theorem requireSameWidth_succeeds (hs : s.WellFormed) (hw : x.width = y.width) :
    Succeeds (requireSameWidth x y) s fun _ t => t = s := by
  rw [requireSameWidth, if_pos hw]
  exact Succeeds.pure hs rfl

/-- Steps on two words of different widths fail and change nothing. -/
theorem requireSameWidth_bind_of_ne {α : Type} (f : Unit → CheckedM α) (s : Solver) (hw : x.width ≠ y.width) :
    (requireSameWidth x y >>= f).run.run s = (.error (.widthMismatch x.width y.width), s) := by
  rw [requireSameWidth, if_neg hw]
  rfl

variable {f g : Assignment → Nat}

theorem Implements.zipWord {op : Literal → Literal → SolverM Literal} {sem : Bool → Bool → Bool} {fn : Nat → Nat → Nat}
    (hop : Implements op sem) (hs : s.WellFormed) (hx : s.Denotes x n f) (hy : s.Denotes y n g)
    (hfn : ∀ {bs cs : List Bool}, bs.length = cs.length →
      Bits.value (List.zipWith sem bs cs) = fn (Bits.value bs) (Bits.value cs)) :
    Succeeds (zipWord op x y) s fun out t => t.Denotes out n fun a => fn (f a) (g a) := by
  have hw : x.width = y.width := hx.width.trans hy.width.symm
  refine (requireSameWidth_succeeds hs hw).bind fun _ t hst heq => ?_
  subst heq
  refine (hop.zipBits hs hw hx.lt hy.lt).succeeds.mono fun out t hst hout => ?_
  rw [← hx.width]
  refine hout.denotes.congr fun a ha => ?_
  have ha := hst.respects ha
  rw [hfn ((hx.length a).trans (hy.length a).symm), hx.value ha, hy.value ha]

theorem andWord_denotes (hs : s.WellFormed) (hx : s.Denotes x n f) (hy : s.Denotes y n g) :
    Succeeds (andWord x y) s fun out t => t.Denotes out n fun a => f a &&& g a :=
  and_means.zipWord hs hx hy Bits.value_and

theorem orWord_denotes (hs : s.WellFormed) (hx : s.Denotes x n f) (hy : s.Denotes y n g) :
    Succeeds (orWord x y) s fun out t => t.Denotes out n fun a => f a ||| g a :=
  or_means.zipWord hs hx hy Bits.value_or

theorem xorWord_denotes (hs : s.WellFormed) (hx : s.Denotes x n f) (hy : s.Denotes y n g) :
    Succeeds (xorWord x y) s fun out t => t.Denotes out n fun a => f a ^^^ g a :=
  xor_means.zipWord hs hx hy Bits.value_xor

theorem notWord_denotes (hx : s.Denotes x n f) : s.Denotes (notWord x) n fun a => 2 ^ n - 1 - f a where
  width := (List.length_map ..).trans hx.width
  lt l hl := by
    obtain ⟨k, hk, rfl⟩ := List.mem_map.mp hl
    exact hx.lt k hk
  eval {a} ha := by
    have hbits : (notWord x).bits a = (x.bits a).map not := by
      rw [Word.bits, Word.bits, notWord, List.map_map, List.map_map]
      exact List.map_congr_left fun l _ => Literal.eval_neg a l
    rw [Word.toNat_eq, hbits, Bits.value_not, hx.length, hx.value ha]

theorem iteWord_denotes {cond : Literal} {c : Assignment → Bool} (hs : s.WellFormed) (hc : s.Means cond c)
    (hx : s.Denotes x n f) (hy : s.Denotes y n g) :
    Succeeds (iteWord cond x y) s fun out t => t.Denotes out n fun a => if c a then f a else g a := by
  have hw : x.width = y.width := hx.width.trans hy.width.symm
  refine (requireSameWidth_succeeds hs hw).bind fun _ t hst heq => ?_
  subst heq
  refine (zipBits_spells (fun a p q => if c a then p else q) hs (fun htu hp hq =>
    ite_means htu.wellFormed (hc.grow htu) (means_self hp) (means_self hq)) hw hx.lt hy.lt).succeeds.mono
    fun out u htu hout => ?_
  rw [← hx.width]
  refine hout.denotes.congr fun a ha => ?_
  have ha := htu.respects ha
  rw [Bits.zipWith_ite _ ((hx.length a).trans (hy.length a).symm), apply_ite Bits.value, hx.value ha, hy.value ha]

theorem eqWord_means (hs : s.WellFormed) (hx : s.Denotes x n f) (hy : s.Denotes y n g) :
    Succeeds (eqWord x y) s fun out t => t.Means out fun a => f a == g a := by
  have hw : x.width = y.width := hx.width.trans hy.width.symm
  have hsame : Succeeds (zipWord iff x y) s fun out t =>
      t.Spells out x.width fun a => List.zipWith (· == ·) (x.bits a) (y.bits a) := by
    refine (requireSameWidth_succeeds hs hw).bind fun _ t hst heq => ?_
    subst heq
    exact (iff_means.zipBits hs hw hx.lt hy.lt).succeeds
  refine hsame.bind fun same t hst hsame => ?_
  refine (andAll_means hst.wellFormed hsame.lt).succeeds.mono fun out u htu hout => hout.congr fun a ha => ?_
  have hall : same.all (·.eval a) = (same.bits a).all id := by rw [Word.bits, List.all_map]; rfl
  have hat := htu.respects ha
  have has := hst.respects hat
  rw [hall, hsame.bits hat, Bits.all_zipWith_beq ((hx.length a).trans (hy.length a).symm), hx.value has, hy.value has]

theorem isZero_means (hs : s.WellFormed) (hx : s.Denotes x n f) :
    Builds (isZero x) s fun out t => t.Means out fun a => f a == 0 := by
  have hlt : ∀ l ∈ notWord x, l.var < s.vars := (notWord_denotes hx).lt
  refine (andAll_means hs hlt).mono fun out t hst hout => hout.congr fun a ha => ?_
  rw [← hx.value (hst.respects ha), Bool.eq_iff_iff, beq_iff_eq, Bits.value_eq_zero_iff, List.all_eq_true]
  simp [notWord, Word.bits]

end

/-! ## Arithmetic -/

section
variable {x y : Word} {n : Nat} {l : Literal} {c : Assignment → Bool}

theorem addBits_spells (hs : s.WellFormed) (hw : x.width = y.width) (hx : ∀ l ∈ x, l.var < s.vars)
    (hy : ∀ l ∈ y, l.var < s.vars) (hl : s.Means l c) :
    Builds (addBits x y l) s fun out t => t.Spells out x.width fun a => Bits.sum (x.bits a) (y.bits a) (c a) := by
  induction x generalizing y s l c with
  | nil => exact Builds.pure hs (spells_nil s)
  | cons p x ih =>
    cases y with
    | nil => cases hw
    | cons q y =>
      rw [List.forall_mem_cons] at hx hy
      have hp := means_self hx.1
      have hq := means_self hy.1
      refine (xor_means hs hp hq).bind fun half t hst hhalf => ?_
      refine (xor_means hst.wellFormed hhalf (hl.grow hst)).bind fun sum u htu hsum => ?_
      have hsu := hst.trans htu
      refine (and_means htu.wellFormed (hp.grow hsu) (hq.grow hsu)).bind fun both v huv hboth => ?_
      have hsv := hsu.trans huv
      refine (and_means huv.wellFormed (hhalf.grow (htu.trans huv)) (hl.grow hsv)).bind fun prop w hvw hprop => ?_
      refine (or_means hvw.wellFormed (hboth.grow hvw) hprop).bind fun carry z hwz hcarry => ?_
      have hsz := hsv.trans (hvw.trans hwz)
      have hgrow {l : Literal} (hl : l.var < s.vars) : l.var < z.vars := Nat.lt_of_lt_of_le hl hsz.vars_le
      refine (ih hwz.wellFormed (Nat.succ.inj hw) (fun l hl => hgrow (hx.2 l hl)) (fun l hl => hgrow (hy.2 l hl))
        hcarry).bind fun rest z' hzz' hrest => ?_
      exact Builds.pure hzz'.wellFormed (hrest.cons (hsum.grow (huv.trans (hvw.trans (hwz.trans hzz')))))

theorem lessBits_means (hs : s.WellFormed) (hw : x.width = y.width) (hx : ∀ l ∈ x, l.var < s.vars)
    (hy : ∀ l ∈ y, l.var < s.vars) (hl : s.Means l c) :
    Builds (lessBits x y l) s fun out t => t.Means out fun a => Bits.less (x.bits a) (y.bits a) (c a) := by
  induction x generalizing y s l c with
  | nil => exact Builds.pure hs hl
  | cons p x ih =>
    cases y with
    | nil => cases hw
    | cons q y =>
      rw [List.forall_mem_cons] at hx hy
      have hp := means_self hx.1
      have hq := means_self hy.1
      refine (and_means hs hp.neg hq).bind fun here t hst hhere => ?_
      refine (iff_means hst.wellFormed (hp.grow hst) (hq.grow hst)).bind fun same u htu hsame => ?_
      refine (and_means htu.wellFormed hsame (hl.grow (hst.trans htu))).bind fun carried v huv hcarried => ?_
      refine (or_means huv.wellFormed (hhere.grow (htu.trans huv)) hcarried).bind fun less w hvw hless => ?_
      have hsw := hst.trans (htu.trans (huv.trans hvw))
      have hgrow {l : Literal} (hl : l.var < s.vars) : l.var < w.vars := Nat.lt_of_lt_of_le hl hsw.vars_le
      exact ih hvw.wellFormed (Nat.succ.inj hw) (fun l hl => hgrow (hx.2 l hl)) (fun l hl => hgrow (hy.2 l hl)) hless

variable {f g : Assignment → Nat}

theorem addWord_denotes (hs : s.WellFormed) (hx : s.Denotes x n f) (hy : s.Denotes y n g) :
    Succeeds (addWord x y) s fun out t => t.Denotes out n fun a => (f a + g a) % 2 ^ n := by
  have hw : x.width = y.width := hx.width.trans hy.width.symm
  refine (requireSameWidth_succeeds hs hw).bind fun _ t hst heq => ?_
  subst heq
  refine (addBits_spells hs hw hx.lt hy.lt (means_ff hs)).succeeds.mono fun out u htu hout => ?_
  rw [← hx.width]
  refine hout.denotes.congr fun a ha => ?_
  have ha := htu.respects ha
  rw [Bits.value_sum ((hx.length a).trans (hy.length a).symm), hx.value ha, hy.value ha, Word.length_bits]
  rfl

theorem subWord_denotes (hs : s.WellFormed) (hx : s.Denotes x n f) (hy : s.Denotes y n g) :
    Succeeds (subWord x y) s fun out t => t.Denotes out n fun a => (f a + (2 ^ n - g a)) % 2 ^ n := by
  have hny := notWord_denotes hy
  have hw : x.width = (notWord y).width := hx.width.trans hny.width.symm
  refine (requireSameWidth_succeeds hs hw).bind fun _ t hst heq => ?_
  subst heq
  refine (addBits_spells hs hw hx.lt hny.lt (means_tt hs)).succeeds.mono fun out u htu hout => ?_
  rw [← hx.width]
  refine hout.denotes.congr fun a ha => ?_
  have ha := htu.respects ha
  have hlt := hy.lt_two_pow ha
  have hneg : f a + (2 ^ n - 1 - g a) + 1 = f a + (2 ^ n - g a) := by omega
  rw [Bits.value_sum ((hx.length a).trans (hny.length a).symm), hx.value ha, hny.value ha, Word.length_bits, hx.width]
  exact congrArg (· % 2 ^ n) hneg

theorem ltWord_means (hs : s.WellFormed) (hx : s.Denotes x n f) (hy : s.Denotes y n g) :
    Succeeds (ltWord x y) s fun out t => t.Means out fun a => decide (f a < g a) := by
  have hw : x.width = y.width := hx.width.trans hy.width.symm
  refine (requireSameWidth_succeeds hs hw).bind fun _ t hst heq => ?_
  subst heq
  refine (lessBits_means hs hw hx.lt hy.lt (means_ff hs)).succeeds.mono fun out u htu hout => hout.congr fun a ha => ?_
  have ha := htu.respects ha
  rw [Bool.eq_iff_iff, Bits.less_iff ((hx.length a).trans (hy.length a).symm), hx.value ha, hy.value ha]
  simp

theorem leWord_means (hs : s.WellFormed) (hx : s.Denotes x n f) (hy : s.Denotes y n g) :
    Succeeds (leWord x y) s fun out t => t.Means out fun a => decide (f a ≤ g a) := by
  refine (ltWord_means hs hy hx).bind fun greater t hst hgreater => ?_
  refine Succeeds.pure hst.wellFormed (hgreater.neg.congr fun a _ => ?_)
  rw [← decide_not]
  exact decide_eq_decide.mpr Nat.not_lt

end

/-! ## Words from bits at hand -/

section
variable {x y : Word} {n m : Nat} {f g : Assignment → Nat}

theorem ofBool_bits (hs : s.WellFormed) {bs : List Bool} (ha : s.Respects a) : Word.bits a (bs.map ofBool) = bs := by
  rw [Word.bits, List.map_map]
  exact (List.map_congr_left fun b _ => (means_ofBool hs b).eval ha).trans (List.map_id bs)

theorem ofBool_lt (hs : s.WellFormed) (bs : List Bool) : ∀ l ∈ bs.map ofBool, l.var < s.vars := by
  intro l hl
  obtain ⟨b, -, rfl⟩ := List.mem_map.mp hl
  exact (means_ofBool hs b).lt

/-- A word of constants. -/
theorem ofBool_denotes (hs : s.WellFormed) (bs : List Bool) :
    s.Denotes (bs.map ofBool) bs.length fun _ => Bits.value bs :=
  ⟨List.length_map .., ofBool_lt hs bs, fun ha => by rw [Word.toNat_eq, ofBool_bits hs ha]⟩

theorem zeros_denotes (hs : s.WellFormed) (n : Nat) : s.Denotes (List.replicate n ff) n fun _ => 0 := by
  have h := ofBool_denotes hs (List.replicate n false)
  rw [List.map_replicate, List.length_replicate, Bits.value_replicate_false] at h
  exact h

theorem constWord_denotes (hs : s.WellFormed) (n v : Nat) : s.Denotes (constWord n v) n fun _ => v % 2 ^ n := by
  have h := ofBool_denotes hs ((List.range n).map v.testBit)
  rw [List.map_map, List.length_map, List.length_range, Bits.value_testBit] at h
  exact h

/-- The word `y` above the word `x`. -/
theorem append_denotes (hx : s.Denotes x n f) (hy : s.Denotes y m g) :
    s.Denotes (x ++ y) (n + m) fun a => f a + 2 ^ n * g a where
  width := by rw [← hx.width, ← hy.width]; exact List.length_append
  lt l hl := (List.mem_append.mp hl).elim (hx.lt l) (hy.lt l)
  eval ha := by rw [Word.toNat_append, hx.eval ha, hy.eval ha, hx.width]

theorem concat_denotes (hx : s.Denotes x n f) (hy : s.Denotes y m g) :
    s.Denotes (concat x y) (n + m) fun a => 2 ^ m * f a + g a := by
  have h := append_denotes hy hx
  rw [Nat.add_comm m n] at h
  exact h.congr fun a _ => Nat.add_comm ..

theorem zeroExtend_denotes (hs : s.WellFormed) (hx : s.Denotes x n f) (m : Nat) :
    s.Denotes (zeroExtend x m) (n + m) f :=
  (append_denotes hx (zeros_denotes hs m)).congr fun a _ => by simp

theorem drop_denotes (hx : s.Denotes x n f) (k : Nat) : s.Denotes (x.drop k) (n - k) fun a => f a / 2 ^ k where
  width := by rw [← hx.width]; exact List.length_drop
  lt l hl := hx.lt l (List.mem_of_mem_drop hl)
  eval {a} ha := by rw [Word.toNat_eq, Word.bits, List.map_drop, Bits.value_drop]; exact congrArg (· / 2 ^ k) (hx.value ha)

theorem take_denotes (hx : s.Denotes x n f) (k : Nat) : s.Denotes (x.take k) (min k n) fun a => f a % 2 ^ k where
  width := by rw [← hx.width]; exact List.length_take
  lt l hl := hx.lt l (List.mem_of_mem_take hl)
  eval {a} ha := by rw [Word.toNat_eq, Word.bits, List.map_take, Bits.value_take]; exact congrArg (· % 2 ^ k) (hx.value ha)

theorem shiftRight_denotes (hs : s.WellFormed) (hx : s.Denotes x n f) (k : Nat) :
    s.Denotes (shiftRight x k) n fun a => f a / 2 ^ k := by
  have h := append_denotes (drop_denotes hx k) (zeros_denotes hs (min k n))
  have hwidth : n - k + min k n = n := by omega
  rw [hwidth, ← hx.width] at h
  rw [← hx.width]
  exact h.congr fun a _ => by simp

theorem shiftLeft_denotes (hs : s.WellFormed) (hx : s.Denotes x n f) (k : Nat) :
    s.Denotes (shiftLeft x k) n fun a => f a * 2 ^ k % 2 ^ n := by
  have h := append_denotes (zeros_denotes hs (min k n)) (take_denotes hx (n - k))
  have hwidth : min k n + min (n - k) n = n := by omega
  rw [hwidth] at h
  unfold shiftLeft
  rw [hx.width]
  refine h.congr fun a _ => ?_
  rcases Nat.le_total k n with hk | hk
  · obtain ⟨m, rfl⟩ := Nat.exists_eq_add_of_le hk
    rw [Nat.min_eq_left hk, Nat.add_sub_cancel_left, Nat.pow_add, Nat.mul_comm (f a), Nat.mul_mod_mul_left, Nat.zero_add]
  · obtain ⟨m, rfl⟩ := Nat.exists_eq_add_of_le hk
    rw [Nat.sub_eq_zero_of_le hk, Nat.pow_add, Nat.mul_left_comm, Nat.mul_mod_right, Nat.pow_zero, Nat.mod_one,
      Nat.mul_zero]

theorem extract_denotes {hi lo : Nat} (hx : s.Denotes x n f) (hle : lo ≤ hi) (hlt : hi < n) :
    ∃ out, extract x hi lo = .ok out ∧ s.Denotes out (hi + 1 - lo) fun a => f a / 2 ^ lo % 2 ^ (hi + 1 - lo) := by
  have h := take_denotes (drop_denotes hx lo) (hi + 1 - lo)
  have hwidth : min (hi + 1 - lo) (n - lo) = hi + 1 - lo := by omega
  rw [hwidth] at h
  refine ⟨_, if_neg ?_, h⟩
  rw [hx.width]
  omega

end

/-! ## Shifts to the right by machine numbers -/

theorem getElem?_shiftRight (x : Word) (k i : Nat) :
    (shiftRight x k)[i]? = if i < x.length then some (x.getD (i + k) ff) else none := by
  rw [shiftRight, Word.width, List.getElem?_append, List.length_drop, List.getElem?_drop, List.getElem?_replicate,
    List.getD_eq_getElem?_getD, Nat.add_comm k i]
  by_cases hlow : i < x.length - k
  · have hget : i + k < x.length := by omega
    have hi : i < x.length := by omega
    simp [hlow, hi, hget]
  · have hout : x.length ≤ i + k := by omega
    rw [if_neg hlow, List.getElem?_eq_none hout, Option.getD_none]
    exact if_congr (by omega) rfl rfl

/-- A list mapped by a function that is checked for each element. -/
theorem mapM_guarded {α β : Type} (p : α → Prop) [DecidablePred p] (f : α → β) (xs : List α) :
    (xs.mapM fun i => if p i then some (f i) else none) = if ∀ i ∈ xs, p i then some (xs.map f) else none := by
  induction xs with
  | nil => rfl
  | cons i xs ih =>
    simp only [List.mapM_cons, ih, List.forall_mem_cons]
    by_cases hi : p i
    · by_cases hxs : ∀ j ∈ xs, p j
      · rw [if_pos hi, if_pos hxs, if_pos ⟨hi, hxs⟩]
        rfl
      · rw [if_pos hi, if_neg hxs]
        exact (if_neg fun h => hxs h.2).symm
    · rw [if_neg hi]
      exact (if_neg fun h => hi h.1).symm

/-- A shift to the right by a machine number divides, unless the last position passes the machine numbers. -/
theorem shiftRight?_eq (x : Word) (k : UInt64) :
    shiftRight? x k = if x.width + k.toNat ≤ 2 ^ 64 then some (shiftRight x k.toNat) else none := by
  have hk : k.toNat < 2 ^ 64 := k.toNat_lt
  have hsize : UInt64.size = 2 ^ 64 := rfl
  have hlast : (∀ i ∈ List.range x.width, i + k.toNat < UInt64.size) ↔ x.width + k.toNat ≤ 2 ^ 64 := by
    refine ⟨fun h => ?_, fun h i hi => ?_⟩
    · by_contra hpass
      have := h (x.width - 1) (List.mem_range.mpr (by omega))
      omega
    · have := List.mem_range.mp hi
      omega
  have hword : ((List.range x.width).map fun i => x.getD (i + k.toNat) ff) = shiftRight x k.toNat := by
    refine List.ext_getElem? fun i => ?_
    rw [getElem?_shiftRight, List.getElem?_map]
    by_cases hi : i < x.length
    · rw [if_pos hi, List.getElem?_range hi, Option.map_some]
    · rw [if_neg hi, List.getElem?_eq_none (by simpa using hi), Option.map_none]
  rw [shiftRight?, mapM_guarded, hword]
  exact if_congr hlast rfl rfl

end Solver
end PlaceRoute
