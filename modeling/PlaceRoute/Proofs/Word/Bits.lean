import Mathlib.Data.Nat.Bitwise
import Mathlib.Tactic.Ring

/-!
# Lists of bits as numbers

A list of bits, least significant first, stands for `Bits.value`. The bitwise operations are those of numbers
(`value_and`, `value_or`, `value_xor`, `value_not`), `Bits.sum` is addition with a carry modulo the width (`value_sum`)
and `Bits.less` comparison (`less_iff`). A number `v` has at most one bit set exactly if `v &&& (v - 1) = 0`
(`and_pred_eq_zero_iff`).
-/

namespace PlaceRoute
namespace Bits

/-- The number that a list of bits stands for. -/
def value : List Bool → Nat
  | [] => 0
  | b :: bs => b.toNat + 2 * value bs

@[simp] theorem value_nil : value [] = 0 := rfl

@[simp] theorem value_cons (b : Bool) (bs : List Bool) : value (b :: bs) = b.toNat + 2 * value bs := rfl

theorem value_lt (bs : List Bool) : value bs < 2 ^ bs.length := by
  induction bs with
  | nil => simp
  | cons b bs ih =>
    rw [value_cons, List.length_cons, pow_succ]
    have := b.toNat_le
    omega

theorem value_append (xs ys : List Bool) : value (xs ++ ys) = value xs + 2 ^ xs.length * value ys := by
  induction xs with
  | nil => simp
  | cons x xs ih =>
    rw [List.cons_append, value_cons, value_cons, List.length_cons, ih, pow_succ]
    ring

@[simp] theorem value_replicate_false (n : Nat) : value (List.replicate n false) = 0 := by
  induction n with
  | zero => rfl
  | succ n ih => simp [List.replicate_succ, ih]

theorem testBit_value (bs : List Bool) (i : Nat) : (value bs).testBit i = bs.getD i false := by
  induction bs generalizing i with
  | nil => simp
  | cons b bs ih =>
    have hbit : value (b :: bs) = Nat.bit b (value bs) := by
      rw [value_cons, Nat.bit_val, Nat.add_comm]
    rw [hbit]
    cases i with
    | zero => simp
    | succ i => rw [Nat.testBit_bit_succ, ih, List.getD_cons_succ]

theorem value_drop (bs : List Bool) (k : Nat) : value (bs.drop k) = value bs / 2 ^ k :=
  Nat.eq_of_testBit_eq fun i => by
    rw [testBit_value, Nat.testBit_div_two_pow, testBit_value, List.getD_eq_getElem?_getD, List.getElem?_drop,
      List.getD_eq_getElem?_getD, Nat.add_comm]

theorem value_take (bs : List Bool) (k : Nat) : value (bs.take k) = value bs % 2 ^ k :=
  Nat.eq_of_testBit_eq fun i => by
    rw [testBit_value, Nat.testBit_mod_two_pow, testBit_value, List.getD_eq_getElem?_getD, List.getElem?_take,
      List.getD_eq_getElem?_getD]
    by_cases hi : i < k <;> simp [hi]

/-- The low bits of a number. -/
theorem value_testBit (n v : Nat) : value ((List.range n).map v.testBit) = v % 2 ^ n :=
  Nat.eq_of_testBit_eq fun i => by
    rw [testBit_value, Nat.testBit_mod_two_pow, List.getD_eq_getElem?_getD, List.getElem?_map]
    by_cases hi : i < n <;> simp [hi]

theorem value_eq_zero_iff {bs : List Bool} : value bs = 0 ↔ ∀ b ∈ bs, b = false := by
  induction bs with
  | nil => simp
  | cons b bs ih => cases b <;> simp [ih]

/-- Lists of one length that stand for one number are equal. -/
theorem value_inj {xs ys : List Bool} (h : xs.length = ys.length) : value xs = value ys ↔ xs = ys := by
  refine ⟨fun he => ?_, fun he => he ▸ rfl⟩
  refine List.ext_getElem h fun i hx hy => ?_
  have := congrArg (Nat.testBit · i) he
  simpa [testBit_value, List.getD_eq_getElem?_getD, hx, hy] using this

/-! ## Bitwise operations -/

section
variable {xs ys : List Bool}

theorem getD_zipWith (f : Bool → Bool → Bool) (hf : f false false = false) (h : xs.length = ys.length) (i : Nat) :
    (List.zipWith f xs ys).getD i false = f (xs.getD i false) (ys.getD i false) := by
  simp only [List.getD_eq_getElem?_getD, List.getElem?_zipWith]
  by_cases hi : i < xs.length
  · have hy : i < ys.length := h ▸ hi
    simp [hi, hy]
  · have hy : ¬ i < ys.length := h ▸ hi
    simp [List.getElem?_eq_none (Nat.le_of_not_lt hi), List.getElem?_eq_none (Nat.le_of_not_lt hy), hf]

theorem value_and (h : xs.length = ys.length) : value (List.zipWith (· && ·) xs ys) = value xs &&& value ys :=
  Nat.eq_of_testBit_eq fun i => by
    rw [testBit_value, getD_zipWith _ rfl h, Nat.testBit_and, testBit_value, testBit_value]

theorem value_or (h : xs.length = ys.length) : value (List.zipWith (· || ·) xs ys) = value xs ||| value ys :=
  Nat.eq_of_testBit_eq fun i => by
    rw [testBit_value, getD_zipWith _ rfl h, Nat.testBit_or, testBit_value, testBit_value]

theorem value_xor (h : xs.length = ys.length) : value (List.zipWith (· ^^ ·) xs ys) = value xs ^^^ value ys :=
  Nat.eq_of_testBit_eq fun i => by
    rw [testBit_value, getD_zipWith _ rfl h, Nat.testBit_xor, testBit_value, testBit_value]

end

theorem value_not (bs : List Bool) : value (bs.map not) = 2 ^ bs.length - 1 - value bs := by
  induction bs with
  | nil => rfl
  | cons b bs ih =>
    have := value_lt bs
    rw [List.map_cons, value_cons, ih, value_cons, List.length_cons, pow_succ]
    cases b <;> simp <;> omega

/-- Bits from a choice between two lists. -/
theorem zipWith_ite (c : Bool) {xs ys : List Bool} (h : xs.length = ys.length) :
    List.zipWith (fun x y => if c then x else y) xs ys = if c then xs else ys := by
  induction xs generalizing ys with
  | nil => cases c <;> simp [List.length_eq_zero_iff.mp h.symm]
  | cons x xs ih =>
    cases ys with
    | nil => simp at h
    | cons y ys =>
      rw [List.zipWith_cons_cons, ih (by simpa using h)]
      cases c <;> rfl

/-- Two lists are equal exactly if all pairs of bits are. -/
theorem all_zipWith_beq {xs ys : List Bool} (h : xs.length = ys.length) :
    (List.zipWith (· == ·) xs ys).all id = (value xs == value ys) := by
  rw [Bool.eq_iff_iff, beq_iff_eq, value_inj h]
  induction xs generalizing ys with
  | nil => simp [List.length_eq_zero_iff.mp h.symm]
  | cons x xs ih =>
    cases ys with
    | nil => simp at h
    | cons y ys => simp [ih (Nat.succ.inj h)]

/-! ## Addition and comparison -/

/-- Addition bit by bit with a carry; the last carry is dropped. -/
def sum : List Bool → List Bool → Bool → List Bool
  | x :: xs, y :: ys, c => ((x ^^ y) ^^ c) :: sum xs ys ((x && y) || ((x ^^ y) && c))
  | _, _, _ => []

theorem value_sum {xs ys : List Bool} (h : xs.length = ys.length) (c : Bool) :
    value (sum xs ys c) = (value xs + value ys + c.toNat) % 2 ^ xs.length := by
  induction xs generalizing ys c with
  | nil => simp [sum, Nat.mod_one]
  | cons x xs ih =>
    cases ys with
    | nil => simp at h
    | cons y ys =>
      have hpow : 0 < 2 ^ xs.length := Nat.two_pow_pos _
      have hbit (p q : Nat) (hp : p < 2) : (p + 2 * q) % (2 ^ xs.length * 2) = p + 2 * (q % 2 ^ xs.length) := by
        have hmod : (p + 2 * q) % 2 = p := by omega
        have hdiv : (p + 2 * q) / 2 = q := by omega
        rw [Nat.mul_comm (2 ^ xs.length), Nat.mod_mul, hmod, hdiv]
      rw [sum, value_cons, ih (Nat.succ.inj h), List.length_cons, pow_succ, ← hbit _ _ (Bool.toNat_lt _)]
      congr 1
      cases x <;> cases y <;> cases c <;> simp <;> ring

/-- Comparison from the least significant bit on; `l` is the result for the bits below. -/
def less : List Bool → List Bool → Bool → Bool
  | x :: xs, y :: ys, l => less xs ys ((!x && y) || ((x == y) && l))
  | _, _, l => l

theorem less_iff {xs ys : List Bool} (h : xs.length = ys.length) (l : Bool) :
    less xs ys l = true ↔ value xs < value ys ∨ value xs = value ys ∧ l = true := by
  induction xs generalizing ys l with
  | nil => simp [less, List.length_eq_zero_iff.mp h.symm]
  | cons x xs ih =>
    cases ys with
    | nil => simp at h
    | cons y ys =>
      rw [less, ih (Nat.succ.inj h)]
      cases x <;> cases y <;> cases l <;> simp <;> omega

/-! ## Counting bits -/

theorem and_pred_eq_zero_iff (bs : List Bool) : value bs &&& (value bs - 1) = 0 ↔ bs.count true ≤ 1 := by
  have hbit (p : Bool) (n : Nat) : p.toNat + 2 * n = Nat.bit p n := by rw [Nat.bit_val, Nat.add_comm]
  induction bs with
  | nil => simp
  | cons b bs ih =>
    cases b with
    | true =>
      have hpred : value (true :: bs) - 1 = Nat.bit false (value bs) := by simp [Nat.bit_val]
      have hzero : value bs = 0 ↔ bs.count true = 0 := by
        rw [value_eq_zero_iff, List.count_eq_zero]
        exact ⟨fun h hm => by simpa using h _ hm, fun h b hb => by cases b <;> simp_all⟩
      rw [hpred, value_cons, hbit, Nat.land_bit]
      simp [Nat.bit_val, hzero]
    | false =>
      rw [List.count_cons_of_ne (by simp)]
      refine Iff.trans ?_ ih
      cases hv : value bs with
      | zero => simp [hv]
      | succ n =>
        have hpred : value (false :: bs) - 1 = Nat.bit true n := by simp [Nat.bit_val, hv]; omega
        rw [hpred, value_cons, hbit, hv, Nat.land_bit]
        simp [Nat.bit_val]

/-- Subtraction of one by a sum with the word of ones. -/
theorem and_add_ones_eq_zero_iff (bs : List Bool) :
    value bs &&& ((value bs + (2 ^ bs.length - 1)) % 2 ^ bs.length) = 0 ↔ bs.count true ≤ 1 := by
  rw [← and_pred_eq_zero_iff]
  have hlt := value_lt bs
  cases hv : value bs with
  | zero => simp
  | succ n =>
    rw [hv] at hlt
    have hsub : n + 1 + (2 ^ bs.length - 1) = n + 2 ^ bs.length := by omega
    rw [hsub, Nat.add_mod_right, Nat.mod_eq_of_lt (by omega), Nat.add_sub_cancel]

end Bits
end PlaceRoute
