import Mathlib.Tactic.Ring
import PlaceRoute.Proofs.Word.Bits

/-!
# Numbers as fields

`lanes g fs` is the number with the `g`-bit fields `fs`, lowest first. Masking with `ones g k` keeps every other field, and so
neighbouring fields can be added in parallel as long as the sums fit: `lanes_pairUp_one` in single bits, `lanes_pairUp_masked`
where the sums need the next field, and `lanes_pairUp_added` where they do not. `pairUp` keeps the sum of the fields.
-/

namespace PlaceRoute

/-! ## Fields -/

/-- The number with the given fields of `g` bits, lowest first. -/
def lanes (g : Nat) : List Nat → Nat
  | [] => 0
  | f :: fs => f + 2 ^ g * lanes g fs

/-- The sums of neighbouring fields. -/
def pairUp : List Nat → List Nat
  | a :: b :: fs => (a + b) :: pairUp fs
  | fs => fs

/-- The mask that keeps the lower half of `k` fields of `2 * g` bits. -/
def ones (g k : Nat) : Nat := lanes (2 * g) (List.replicate k (2 ^ g - 1))

variable {g k n B : Nat} {fs : List Nat}

theorem lanes_lt (h : ∀ f ∈ fs, f < 2 ^ g) : lanes g fs < 2 ^ (g * fs.length) := by
  induction fs with
  | nil => simp [lanes]
  | cons f fs ih =>
    obtain ⟨hf, hfs⟩ := List.forall_mem_cons.mp h
    have hpow : 2 ^ (g * (f :: fs).length) = 2 ^ g * 2 ^ (g * fs.length) := by
      rw [List.length_cons, ← Nat.pow_add]
      congr 1
      ring
    have hmul : 2 ^ g * (lanes g fs + 1) ≤ 2 ^ g * 2 ^ (g * fs.length) := Nat.mul_le_mul_left _ (ih hfs)
    rw [hpow, lanes]
    rw [Nat.mul_succ] at hmul
    omega

/-- The lowest field. -/
theorem lanes_mod_le (h : ∀ f ∈ fs, f ≤ B) : lanes g fs % 2 ^ g ≤ B := by
  cases fs with
  | nil => simp [lanes]
  | cons f fs =>
    rw [lanes, Nat.add_mul_mod_self_left]
    exact Nat.le_trans (Nat.mod_le _ _) (h f List.mem_cons_self)

theorem length_pairUp (h : fs.length = 2 * k) : (pairUp fs).length = k := by
  induction k generalizing fs with
  | zero => rw [List.length_eq_zero_iff.mp h]; rfl
  | succ k ih =>
    match fs, h with
    | a :: b :: fs, h => exact congrArg Nat.succ (ih (by simp only [List.length_cons] at h; omega))

theorem sum_pairUp (fs : List Nat) : (pairUp fs).sum = fs.sum := by
  induction fs using pairUp.induct with
  | case1 a b fs ih => rw [pairUp, List.sum_cons, List.sum_cons, List.sum_cons, ih, Nat.add_assoc]
  | case2 fs h => rw [pairUp.eq_2 fs h]

theorem pairUp_le (hk : fs.length = 2 * k) (h : ∀ f ∈ fs, f ≤ B) : ∀ f ∈ pairUp fs, f ≤ 2 * B := by
  induction k generalizing fs with
  | zero => rw [List.length_eq_zero_iff.mp hk]; nofun
  | succ k ih =>
    match fs, hk, h with
    | a :: b :: fs, hk, h =>
      obtain ⟨ha, h⟩ := List.forall_mem_cons.mp h
      obtain ⟨hb, h⟩ := List.forall_mem_cons.mp h
      refine List.forall_mem_cons.mpr ⟨by omega, ih ?_ h⟩
      simp only [List.length_cons] at hk
      omega

/-! ## Masks -/

/-- A conjunction splits at any bit. -/
theorem and_split {lo lo' hi hi' : Nat} (hlo : lo < 2 ^ n) (hlo' : lo' < 2 ^ n) :
    (lo + 2 ^ n * hi) &&& (lo' + 2 ^ n * hi') = (lo &&& lo') + 2 ^ n * (hi &&& hi') := by
  have hdiv {x y : Nat} (hx : x < 2 ^ n) : (x + 2 ^ n * y) / 2 ^ n = y := by
    rw [Nat.add_mul_div_left _ _ (Nat.two_pow_pos n), Nat.div_eq_of_lt hx, Nat.zero_add]
  have hmod {x y : Nat} (hx : x < 2 ^ n) : (x + 2 ^ n * y) % 2 ^ n = x := by
    rw [Nat.add_mul_mod_self_left, Nat.mod_eq_of_lt hx]
  rw [← Nat.mod_add_div ((lo + 2 ^ n * hi) &&& (lo' + 2 ^ n * hi')) (2 ^ n), Nat.and_mod_two_pow, Nat.and_div_two_pow,
    hmod hlo, hmod hlo', hdiv hlo, hdiv hlo']

/-- The mask keeps the first of two fields. -/
theorem and_ones {a b r : Nat} (ha : a < 2 ^ g) (hb : b < 2 ^ g) :
    (a + 2 ^ g * (b + 2 ^ g * r)) &&& ones g (k + 1) = a + 2 ^ (2 * g) * (r &&& ones g k) := by
  have hpow : 2 ^ (2 * g) = 2 ^ g * 2 ^ g := by rw [← Nat.pow_add, Nat.two_mul]
  have hlow : a + 2 ^ g * b < 2 ^ (2 * g) := by
    have hmul : 2 ^ g * (b + 1) ≤ 2 ^ g * 2 ^ g := Nat.mul_le_mul_left _ hb
    rw [Nat.mul_succ] at hmul
    omega
  have hmask : 2 ^ g - 1 < 2 ^ (2 * g) :=
    Nat.lt_of_lt_of_le (Nat.sub_lt (Nat.two_pow_pos g) Nat.one_pos) (Nat.pow_le_pow_right Nat.two_pos (by omega))
  have hfields : a + 2 ^ g * (b + 2 ^ g * r) = (a + 2 ^ g * b) + 2 ^ (2 * g) * r := by rw [hpow]; ring
  have hones : ones g (k + 1) = (2 ^ g - 1) + 2 ^ (2 * g) * ones g k := rfl
  rw [hfields, hones, and_split hlow hmask, Nat.and_two_pow_sub_one_eq_mod, Nat.add_mul_mod_self_left,
    Nat.mod_eq_of_lt ha]

/-- The mask as a list of bits. -/
theorem value_mask (hg : 0 < g) (k : Nat) :
    Bits.value ((List.range (2 * g * k)).map fun i => i / g % 2 == 0) = ones g k := by
  induction k with
  | zero => rfl
  | succ k ih =>
    have hlow : (List.range g).map (fun i => i / g % 2 == 0) = (List.replicate g false).map not := by
      rw [List.map_replicate, List.eq_replicate_iff]
      refine ⟨by rw [List.length_map, List.length_range], List.forall_mem_map.mpr fun i hi => ?_⟩
      rw [Nat.div_eq_of_lt (List.mem_range.mp hi)]
      rfl
    have hmid : ((List.range g).map (g + ·)).map (fun i => i / g % 2 == 0) = List.replicate g false := by
      rw [List.eq_replicate_iff]
      refine ⟨by rw [List.length_map, List.length_map, List.length_range], ?_⟩
      refine List.forall_mem_map.mpr (List.forall_mem_map.mpr fun i hi => ?_)
      rw [Nat.add_div_left i hg, Nat.div_eq_of_lt (List.mem_range.mp hi)]
      rfl
    have hrest : (((List.range (2 * g * k)).map (g + ·)).map (g + ·)).map (fun i => i / g % 2 == 0) =
        (List.range (2 * g * k)).map fun i => i / g % 2 == 0 := by
      rw [List.map_map, List.map_map]
      refine List.map_congr_left fun i _ => ?_
      show ((g + (g + i)) / g % 2 == 0) = _
      rw [Nat.add_div_left _ hg, Nat.add_div_left _ hg, Nat.add_assoc, Nat.add_mod_right]
    have hsplit : 2 * g * (k + 1) = g + (g + 2 * g * k) := by ring
    have hones : ones g (k + 1) = (2 ^ g - 1) + 2 ^ g * (2 ^ g * ones g k) := by
      rw [← Nat.mul_assoc, ← Nat.pow_add, ← Nat.two_mul]
      rfl
    rw [hsplit, List.range_add, List.range_add, List.map_append, List.map_append, List.map_append, hlow, hmid, hrest,
      Bits.value_append, Bits.value_append, Bits.value_not, ih, Bits.value_replicate_false, hones, List.length_map,
      List.length_replicate, Nat.sub_zero, Nat.zero_add]

/-! ## Adding neighbouring fields -/

/-- A list of an even number of fields that is not empty starts with two. -/
theorem exists_two (h : fs.length = 2 * (k + 1)) : ∃ a b rest, fs = a :: b :: rest ∧ rest.length = 2 * k := by
  match fs, h with
  | a :: b :: rest, h =>
    refine ⟨a, b, rest, rfl, ?_⟩
    simp only [List.length_cons] at h
    omega

/-- Two fields and what is above them, shifted down by one field. -/
theorem lanes_div {a b : Nat} (ha : a < 2 ^ g) (fs : List Nat) :
    lanes g (a :: b :: fs) / 2 ^ g = b + 2 ^ g * (lanes g fs % 2 ^ g + 2 ^ g * (lanes g fs / 2 ^ g)) := by
  rw [Nat.mod_add_div, lanes, Nat.add_mul_div_left _ _ (Nat.two_pow_pos g), Nat.div_eq_of_lt ha, Nat.zero_add, lanes]

theorem lanes_two {a b : Nat} (fs : List Nat) :
    lanes g (a :: b :: fs) = a + 2 ^ g * b + 2 ^ (2 * g) * lanes g fs := by
  show a + 2 ^ g * (b + 2 ^ g * lanes g fs) = _
  rw [Nat.two_mul, Nat.pow_add]
  ring

/-- Single bits: what the odd ones add to themselves makes the sums of pairs. -/
theorem lanes_pairUp_one (hk : fs.length = 2 * k) (h : ∀ f ∈ fs, f ≤ 1) :
    lanes 1 fs = lanes 2 (pairUp fs) + (lanes 1 fs / 2 ^ 1 &&& ones 1 k) := by
  induction k generalizing fs with
  | zero => rw [List.length_eq_zero_iff.mp hk]; rfl
  | succ k ih =>
    obtain ⟨a, b, rest, rfl, hrest⟩ := exists_two hk
    obtain ⟨ha, h⟩ := List.forall_mem_cons.mp h
    obtain ⟨hb, h⟩ := List.forall_mem_cons.mp h
    have hsum := ih hrest h
    rw [lanes_div (Nat.lt_succ_of_le ha), and_ones (Nat.lt_succ_of_le hb) (Nat.mod_lt _ (Nat.two_pow_pos 1)),
      pairUp, lanes_two, lanes]
    omega

/-- Fields that are masked first: their sums may need twice the bits. -/
theorem lanes_pairUp_masked (hk : fs.length = 2 * k) (h : ∀ f ∈ fs, f < 2 ^ g) :
    (lanes g fs &&& ones g k) + (lanes g fs / 2 ^ g &&& ones g k) = lanes (2 * g) (pairUp fs) := by
  induction k generalizing fs with
  | zero => rw [List.length_eq_zero_iff.mp hk]; simp [lanes, pairUp]
  | succ k ih =>
    obtain ⟨a, b, rest, rfl, hrest⟩ := exists_two hk
    obtain ⟨ha, h⟩ := List.forall_mem_cons.mp h
    obtain ⟨hb, h⟩ := List.forall_mem_cons.mp h
    have hfields : lanes g (a :: b :: rest) = a + 2 ^ g * (b + 2 ^ g * lanes g rest) := rfl
    rw [lanes_div ha, hfields, and_ones ha hb, and_ones hb (Nat.mod_lt _ (Nat.two_pow_pos g)), pairUp, lanes, ← ih hrest h]
    ring

/-- Fields whose sums fit can be added first. -/
theorem lanes_pairUp_added (hk : fs.length = 2 * k) (h : ∀ f ∈ fs, f ≤ B) (hB : 2 * B < 2 ^ g) :
    lanes g fs + lanes g fs / 2 ^ g < 2 ^ (g * fs.length) ∧
    (lanes g fs + lanes g fs / 2 ^ g) &&& ones g k = lanes (2 * g) (pairUp fs) := by
  induction k generalizing fs with
  | zero => rw [List.length_eq_zero_iff.mp hk]; simp [lanes, pairUp]
  | succ k ih =>
    obtain ⟨a, b, rest, rfl, hrest⟩ := exists_two hk
    obtain ⟨ha, h⟩ := List.forall_mem_cons.mp h
    obtain ⟨hb, h⟩ := List.forall_mem_cons.mp h
    obtain ⟨hlt, hand⟩ := ih hrest h
    have hmod : lanes g rest % 2 ^ g ≤ B := lanes_mod_le h
    have hfields : lanes g (a :: b :: rest) + lanes g (a :: b :: rest) / 2 ^ g =
        (a + b) + 2 ^ g * ((b + lanes g rest % 2 ^ g) + 2 ^ g * (lanes g rest + lanes g rest / 2 ^ g)) := by
      rw [lanes_div (by omega), lanes, lanes]
      ring
    rw [hfields, and_ones (by omega) (by omega), hand, pairUp, lanes]
    refine ⟨?_, rfl⟩
    -- Each field of the sum is below `2 ^ g`, and the fields above the first two are by induction.
    have hpow : 2 ^ (g * (a :: b :: rest).length) = 2 ^ g * (2 ^ g * 2 ^ (g * rest.length)) := by
      rw [List.length_cons, List.length_cons, ← Nat.pow_add, ← Nat.pow_add]
      congr 1
      ring
    have hmul : 2 ^ g * (lanes g rest + lanes g rest / 2 ^ g + 1) ≤ 2 ^ g * 2 ^ (g * rest.length) :=
      Nat.mul_le_mul_left _ hlt
    rw [hpow]
    have hmul' : 2 ^ g * ((b + lanes g rest % 2 ^ g) + 2 ^ g * (lanes g rest + lanes g rest / 2 ^ g) + 1) ≤
        2 ^ g * (2 ^ g * 2 ^ (g * rest.length)) := by
      refine Nat.mul_le_mul_left _ ?_
      rw [Nat.mul_succ] at hmul
      omega
    rw [Nat.mul_succ] at hmul'
    omega

end PlaceRoute
