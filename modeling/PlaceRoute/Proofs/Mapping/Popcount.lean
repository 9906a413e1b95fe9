import PlaceRoute.Mapping.Objective
import PlaceRoute.Proofs.Solver.Operation
import PlaceRoute.Proofs.Word.Lanes

/-!
# Adding the bits of a word in parallel

`Count.sumFields` gathers the bits of a word in fields of one, two, four and more bits. At each stage the fields add up to the
number of true bits (`Gathers`), and in the end there is one field (`sumFields_denotes`). No shift on the way breaks off
(`shiftRight?_of_mem_groups`).
-/

namespace PlaceRoute
namespace Count

open PlaceRoute.Sat (Literal Assignment)
open Solver (Succeeds andWord_denotes subWord_denotes addWord_denotes shiftRight_denotes ofBool_denotes)

/-! ## Fields that add up -/

/-- `k` fields, none above `g`, that add up to `n`. -/
structure Tally (g k n : Nat) (fs : List Nat) : Prop where
  length : fs.length = k
  le : ∀ f ∈ fs, f ≤ g
  sum : fs.sum = n

theorem Tally.pairUp {g k n : Nat} {fs : List Nat} (h : Tally g (2 * k) n fs) : Tally (2 * g) k n (pairUp fs) :=
  ⟨length_pairUp h.length, pairUp_le h.length h.le, (sum_pairUp fs).trans h.sum⟩

/-- The single bits of a word. -/
theorem tally_bits (bs : List Bool) : Tally 1 bs.length (bs.count true) (bs.map Bool.toNat) := by
  refine ⟨List.length_map _, List.forall_mem_map.mpr fun b _ => Bool.toNat_le b, ?_⟩
  induction bs with
  | nil => rfl
  | cons b bs ih =>
    rw [List.map_cons, List.sum_cons, ih, List.count_cons]
    cases b <;> simp [Nat.add_comm]

theorem lanes_bits (bs : List Bool) : lanes 1 (bs.map Bool.toNat) = Bits.value bs := by
  induction bs with
  | nil => rfl
  | cons b bs ih => rw [List.map_cons, lanes, ih]; rfl

variable {s : Solver} {x : Word} {g k W : Nat} {n : Assignment → Nat}

/-- The word holds `k` fields of `g` bits that add up to `n`. -/
def Gathers (s : Solver) (x : Word) (g k : Nat) (n : Assignment → Nat) : Prop :=
  ∃ fields : Assignment → List Nat, s.Denotes x (g * k) (fun a => lanes g (fields a)) ∧ ∀ a, Tally g k (n a) (fields a)

theorem gathers_bits (hx : ∀ l ∈ x, l.var < s.vars) : Gathers s x 1 x.width fun a => (x.bits a).count true := by
  refine ⟨fun a => (x.bits a).map Bool.toNat, ?_, fun a => Word.length_bits a x ▸ tally_bits _⟩
  rw [Nat.one_mul]
  exact (Solver.denotes_self hx).congr fun a _ => by rw [lanes_bits, Word.toNat_eq]

/-- One field is the sum. -/
theorem Gathers.denotes (h : Gathers s x g 1 n) : s.Denotes x g n := by
  obtain ⟨fields, hx, hfields⟩ := h
  rw [Nat.mul_one] at hx
  refine hx.congr fun a _ => ?_
  obtain ⟨f, hf⟩ := List.length_eq_one_iff.mp (hfields a).length
  rw [← (hfields a).sum, hf]
  simp [lanes]

theorem mask_denotes (hs : s.WellFormed) (hg : 0 < g) (k : Nat) :
    s.Denotes (mask (2 * g * k) g) (2 * g * k) fun _ => ones g k := by
  have h := ofBool_denotes hs ((List.range (2 * g * k)).map fun i => i / g % 2 == 0)
  rw [List.map_map, List.length_map, List.length_range, value_mask hg] at h
  exact h

/-! ## The stages -/

/-- From single bits to fields of two. -/
theorem sumPairs_gathers (hs : s.WellFormed) (h : Gathers s x 1 (2 * k) n) (hW : W = 2 * k) :
    Succeeds (do
      let pairs ← Solver.andWord (Solver.shiftRight x 1) (mask W 1)
      Solver.subWord x pairs) s fun out t => Gathers t out 2 k n := by
  obtain ⟨fields, hx, hfields⟩ := h
  subst hW
  rw [Nat.one_mul] at hx
  refine (andWord_denotes hs (shiftRight_denotes hs hx 1) (mask_denotes hs Nat.one_pos k)).bind fun pairs t hst hpairs => ?_
  refine (subWord_denotes hst.wellFormed (hx.grow hst) hpairs).mono fun out u htu hout => ?_
  refine ⟨fun a => pairUp (fields a), hout.congr fun a ha => ?_, fun a => (hfields a).pairUp⟩
  have hsum := lanes_pairUp_one (hfields a).length (hfields a).le
  have hlt := hx.lt_two_pow (hst.respects (htu.respects ha))
  have hstep : lanes 1 (fields a) + (2 ^ (2 * k) - (lanes 1 (fields a) / 2 ^ 1 &&& ones 1 k)) =
      lanes 2 (pairUp (fields a)) + 2 ^ (2 * k) := by omega
  rw [hstep, Nat.add_mod_right, Nat.mod_eq_of_lt (by omega)]

/-- From fields of two bits to fields of four. -/
theorem sumMasked_gathers (hs : s.WellFormed) (h : Gathers s x 2 (2 * k) n) (hW : W = 2 * (2 * k)) :
    Succeeds (do
      let low ← Solver.andWord x (mask W 2)
      let high ← Solver.andWord (Solver.shiftRight x 2) (mask W 2)
      Solver.addWord low high) s fun out t => Gathers t out 4 k n := by
  obtain ⟨fields, hx, hfields⟩ := h
  have hwidth : 2 * (2 * k) = 2 * 2 * k := by omega
  rw [hW]
  rw [hwidth] at hx ⊢
  refine (andWord_denotes hs hx (mask_denotes hs Nat.two_pos k)).bind fun low t hst hlow => ?_
  refine (andWord_denotes hst.wellFormed (shiftRight_denotes hst.wellFormed (hx.grow hst) 2)
    (mask_denotes hst.wellFormed Nat.two_pos k)).bind fun high u htu hhigh => ?_
  refine (addWord_denotes htu.wellFormed (hlow.grow htu) hhigh).mono fun out w huw hout => ?_
  refine ⟨fun a => pairUp (fields a), hout.congr fun a ha => ?_, fun a => (hfields a).pairUp⟩
  have hsum := lanes_pairUp_masked (g := 2) (hfields a).length fun f hf =>
    Nat.lt_of_le_of_lt ((hfields a).le f hf) (by decide)
  rw [hsum]
  refine Nat.mod_eq_of_lt ?_
  have hlanes : lanes 4 (pairUp (fields a)) < _ := lanes_lt fun f hf =>
    Nat.lt_of_le_of_lt ((hfields a).pairUp.le f hf) (by decide)
  rwa [(hfields a).pairUp.length] at hlanes

theorem two_mul_lt_two_pow {g : Nat} (hg : 4 ≤ g) : 2 * g < 2 ^ g := by
  induction g, hg using Nat.le_induction with
  | base => decide
  | succ g hg ih => rw [Nat.pow_succ]; omega

/-- From fields of at least four bits to fields of twice as many. -/
theorem sumNext_gathers (hs : s.WellFormed) (hg : 4 ≤ g) (h : Gathers s x g (2 * k) n) (hW : W = g * (2 * k)) :
    Succeeds (do
      let sum ← Solver.addWord x (Solver.shiftRight x g)
      Solver.andWord sum (mask W g)) s fun out t => Gathers t out (2 * g) k n := by
  obtain ⟨fields, hx, hfields⟩ := h
  have hwidth : g * (2 * k) = 2 * g * k := by ring
  rw [hW]
  rw [hwidth] at hx ⊢
  refine (addWord_denotes hs hx (shiftRight_denotes hs hx g)).bind fun sum t hst hsum => ?_
  refine (andWord_denotes hst.wellFormed hsum (mask_denotes hst.wellFormed (by omega) k)).mono fun out u htu hout => ?_
  refine ⟨fun a => pairUp (fields a), hout.congr fun a ha => ?_, fun a => (hfields a).pairUp⟩
  obtain ⟨hlt, hand⟩ := lanes_pairUp_added (hfields a).length (hfields a).le (two_mul_lt_two_pow hg)
  rw [(hfields a).length, hwidth] at hlt
  rw [Nat.mod_eq_of_lt hlt, hand]

/-! ## All stages -/

/-- The shifts of the stages are those by machine numbers: no position passes them in a word of at most `2 ^ 63` bits. -/
theorem shiftRight?_of_mem_groups (hx : x.width ≤ 2 ^ 63) (hg : g ∈ 1 :: 2 :: groups x.width) :
    Solver.shiftRight? x (.ofNat g) = some (Solver.shiftRight x g) := by
  have hle : g ≤ 2 ^ 63 := by
    obtain rfl | rfl | hg := (List.mem_cons.mp hg).imp_right List.mem_cons.mp
    · decide
    · decide
    · have hlt := of_decide_eq_true (List.mem_filter.mp hg).2
      exact Nat.le_of_lt (Nat.lt_of_lt_of_le hlt hx)
  have htoNat : (UInt64.ofNat g).toNat = g := UInt64.toNat_ofNat_of_lt' (Nat.lt_of_le_of_lt hle (by decide))
  rw [Solver.shiftRight?_eq, htoNat]
  exact if_pos (Nat.add_le_add hx hle)

theorem bitLength_two_pow (p : Nat) : bitLength (2 ^ p) = p + 1 := by
  rw [bitLength, if_neg (Nat.two_pow_pos p).ne', Nat.log2_two_pow]

/-- The fields from four bits on, up to half of the word. -/
theorem groups_two_pow (q : Nat) : groups (2 ^ (q + 2)) = (List.range q).map fun i => 2 ^ (i + 2) := by
  have hfour (i : Nat) : 4 * Nat.pow 2 i = 2 ^ (i + 2) := by rw [Nat.pow_add, Nat.mul_comm]; rfl
  have hbelow : ((List.range q).map fun i => 2 ^ (i + 2)).filter (· < 2 ^ (q + 2)) =
      (List.range q).map fun i => 2 ^ (i + 2) := by
    refine List.filter_eq_self.mpr (List.forall_mem_map.mpr fun i hi => decide_eq_true ?_)
    exact Nat.pow_lt_pow_right (by decide) (Nat.add_lt_add_right (List.mem_range.mp hi) 2)
  have hnot (j : Nat) : ¬ 2 ^ (q + j + 2) < 2 ^ (q + 2) :=
    Nat.not_lt.mpr (Nat.pow_le_pow_right Nat.two_pos (by omega))
  unfold groups
  rw [bitLength_two_pow, List.range_succ, List.range_succ, List.range_succ]
  simp only [hfour, List.map_append, List.filter_append, hbelow, List.map_cons, List.map_nil]
  rw [List.filter_cons_of_neg (by simp), List.filter_cons_of_neg (by simpa using hnot 1),
    List.filter_cons_of_neg (by simpa using hnot 2)]
  simp

theorem sumGroups_gathers (hs : s.WellFormed) {q i : Nat} (hi : i ≤ q) (h : Gathers s x 4 (2 ^ q) n) :
    Succeeds (((List.range i).map fun i => 2 ^ (i + 2)).foldlM (fun x group => do
      let sum ← Solver.addWord x (Solver.shiftRight x group)
      Solver.andWord sum (mask (2 ^ (q + 2)) group)) x) s fun out t => Gathers t out (2 ^ (i + 2)) (2 ^ (q - i)) n := by
  induction i with
  | zero => exact Succeeds.pure hs h
  | succ i ih =>
    rw [List.range_succ, List.map_append, List.foldlM_append]
    refine (ih (Nat.le_of_succ_le hi)).bind fun y t hst hy => ?_
    have hk : 2 ^ (q - i) = 2 * 2 ^ (q - (i + 1)) := by
      rw [← Nat.pow_succ']
      congr 1
      omega
    have hg : 2 ^ (i + 1 + 2) = 2 * 2 ^ (i + 2) := Nat.pow_succ'
    have hW : 2 ^ (q + 2) = 2 ^ (i + 2) * (2 * 2 ^ (q - (i + 1))) := by
      rw [← hk, ← Nat.pow_add]
      congr 1
      omega
    have h4 : 4 ≤ 2 ^ (i + 2) := Nat.pow_le_pow_right (n := 2) Nat.two_pos (Nat.le_add_left 2 i)
    rw [hk] at hy
    rw [hg]
    simp only [List.map_cons, List.map_nil, List.foldlM_cons, List.foldlM_nil, bind_pure]
    exact sumNext_gathers hst.wellFormed h4 hy hW

/-- The parallel sum of a word is the number of its true bits. -/
theorem sumFields_denotes (hs : s.WellFormed) {p : Nat} (hp : x.width = 2 ^ p) (hx : ∀ l ∈ x, l.var < s.vars) :
    Succeeds (sumFields x) s fun out t => t.Denotes out (2 ^ p) fun a => (x.bits a).count true := by
  have hbits := gathers_bits hx
  unfold sumFields
  rw [← bind_assoc, hp]
  match p with
  | 0 =>
    -- A single bit has no neighbour, so nothing is taken from it.
    rw [hp] at hbits
    have hx' := hbits.denotes
    have hmask : s.Denotes (mask (2 ^ 0) 1) 1 fun _ => 1 := ofBool_denotes hs [true]
    have hpairs : Succeeds (do
        let pairs ← Solver.andWord (Solver.shiftRight x 1) (mask (2 ^ 0) 1)
        Solver.subWord x pairs) s fun out t => t.Denotes out (2 ^ 0) fun a => (x.bits a).count true := by
      refine (andWord_denotes hs (shiftRight_denotes hs hx' 1) hmask).bind fun pairs t hst hpairs => ?_
      refine (subWord_denotes hst.wellFormed (hx'.grow hst) hpairs).mono fun out u htu hout => hout.congr fun a ha => ?_
      have hlt := hx'.lt_two_pow (hst.respects (htu.respects ha))
      rw [Nat.div_eq_of_lt hlt, Nat.zero_and]
      omega
    exact hpairs.bind fun y t hst hy => Succeeds.pure hst.wellFormed hy
  | 1 =>
    rw [hp] at hbits
    refine (sumPairs_gathers (k := 1) hs hbits rfl).bind fun y t hst hy => ?_
    exact Succeeds.pure hst.wellFormed hy.denotes
  | q + 2 =>
    have hwidth : 2 ^ (q + 2) = 2 * (2 * 2 ^ q) := by rw [Nat.pow_succ, Nat.pow_succ]; ring
    rw [hp, hwidth] at hbits
    refine (sumPairs_gathers hs hbits hwidth).bind fun y t hst hy => ?_
    have hfour : 4 ≤ 2 ^ (q + 2) := Nat.pow_le_pow_right (n := 2) Nat.two_pos (Nat.le_add_left 2 q)
    dsimp only
    rw [if_pos hfour, groups_two_pow]
    suffices hall : Succeeds ((do
        let low ← Solver.andWord y (mask (2 ^ (q + 2)) 2)
        let high ← Solver.andWord (Solver.shiftRight y 2) (mask (2 ^ (q + 2)) 2)
        Solver.addWord low high) >>= fun x => ((List.range q).map fun i => 2 ^ (i + 2)).foldlM (fun x group => do
          let sum ← Solver.addWord x (Solver.shiftRight x group)
          Solver.andWord sum (mask (2 ^ (q + 2)) group)) x) t
        fun out u => u.Denotes out (2 ^ (q + 2)) fun a => (x.bits a).count true by
      simpa only [bind_assoc] using hall
    refine (sumMasked_gathers hst.wellFormed hy hwidth).bind fun z u htu hz => ?_
    refine (sumGroups_gathers htu.wellFormed (Nat.le_refl q) hz).mono fun out w _ hout => ?_
    rw [Nat.sub_self] at hout
    exact hout.denotes

end Count
end PlaceRoute
