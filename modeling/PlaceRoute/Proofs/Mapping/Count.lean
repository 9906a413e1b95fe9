import PlaceRoute.Proofs.Mapping.OneHot
import PlaceRoute.Proofs.Mapping.Popcount

/-!
# Sums of literals

The word that `Count.sumOf` builds is the number of the literals that are true, in every encoding by words: its pins ask
nothing of the literals, and where they hold the sum is right (`Count.sumOf_sums`).
-/

namespace PlaceRoute
namespace Count

open PlaceRoute.Sat (Literal Assignment AgreeBelow)
open Solver (Builds Succeeds)

theorem lt_two_pow_bitLength (n : Nat) : n < 2 ^ bitLength n := by
  unfold bitLength
  split
  · next h => rw [h]; exact Nat.one_pos
  · exact Nat.lt_log2_self

theorem bitLength_le {n : Nat} (hn : 0 < n) : bitLength n ≤ n := by
  unfold bitLength
  rw [if_neg hn.ne']
  exact (Nat.log2_lt hn.ne').mpr Nat.lt_two_pow_self

theorem bitLength_mono {m n : Nat} (h : m ≤ n) : bitLength m ≤ bitLength n := by
  unfold bitLength
  split
  · exact Nat.zero_le _
  next hm =>
  rw [if_neg (by omega), Nat.add_le_add_iff_right, Nat.le_log2 (by omega)]
  exact (Nat.log2_self_le hm).trans h

/-- Half of a number has one digit less. -/
theorem bitLength_half {n : Nat} (hn : 0 < n) : bitLength (n / 2) + 1 = bitLength n := by
  unfold bitLength
  rw [if_neg hn.ne', Nat.log2_def n]
  split <;> split <;> omega

/-! ## Sums -/

section
variable {e e' : Encoder} {bits : List Literal} {width : Nat}

/-- Where the pins hold, the word of some width is the number of true literals. -/
structure Sums (e e' : Encoder) (bits : List Literal) (width : Nat) (pins : List Literal) (sum : Word) : Prop where
  pinned : Pinned e e' pins
  width : sum.width = width
  lt : ∀ l ∈ sum, l.var < e'.solver.vars
  eval : ∀ {a : Assignment}, e'.solver.Respects a → (∀ p ∈ pins, p.eval a = true) →
    sum.toNat a = (Word.bits a bits).count true

/-- A sum to which the literals are added one by one. -/
theorem foldlM_denotes {step : Word → Literal → EncodeM Word}
    (hstep : ∀ {e : Encoder} {sum : Word} {b : Literal} {f : Assignment → Nat}, e.solver.WellFormed →
      b.var < e.solver.vars → e.solver.Denotes sum width f → Encodes (step sum b) e fun out e' =>
        e'.solver.Denotes out width fun a => (f a + (b.eval a).toNat) % 2 ^ width)
    (he : e.solver.WellFormed) (hlt : ∀ l ∈ bits, l.var < e.solver.vars) {sum : Word} {f : Assignment → Nat}
    (hsum : e.solver.Denotes sum width f) (hf : ∀ a, f a + bits.length < 2 ^ width) :
    Encodes (bits.foldlM step sum) e fun out e' =>
      e'.solver.Denotes out width fun a => f a + (Word.bits a bits).count true := by
  induction bits generalizing e sum f with
  | nil => exact Encodes.pure he hsum
  | cons b bits ih =>
    obtain ⟨hb, hlt⟩ := List.forall_mem_cons.mp hlt
    have hone (a : Assignment) : (b.eval a).toNat ≤ 1 := Bool.toNat_le _
    rw [List.foldlM_cons]
    refine (hstep he hb hsum).bind fun next e₁ hgrow hnext => ?_
    have hnext : e₁.solver.Denotes next width fun a => f a + (b.eval a).toNat := hnext.congr fun a _ => by
      have := hf a
      rw [List.length_cons] at this
      exact Nat.mod_eq_of_lt (by have := hone a; omega)
    refine (ih hgrow.solver.wellFormed (fun l hl => Nat.lt_of_lt_of_le (hlt l hl) hgrow.solver.vars_le) hnext
      fun a => ?_).mono fun out e₂ _ hout => hout.congr fun a _ => ?_
    · have := hf a
      have := hone a
      rw [List.length_cons] at *
      omega
    · rw [Word.bits_cons, List.count_cons, Nat.add_assoc, Nat.add_comm (List.count _ _)]
      cases b.eval a <;> rfl

theorem sums_of_denotes (he : e.solver.WellFormed) (hlt : ∀ l ∈ bits, l.var < e.solver.vars)
    (hwidth : bits.length < 2 ^ width) {step : Word → Literal → EncodeM Word}
    (hstep : ∀ {e : Encoder} {sum : Word} {b : Literal} {f : Assignment → Nat}, e.solver.WellFormed →
      b.var < e.solver.vars → e.solver.Denotes sum width f → Encodes (step sum b) e fun out e' =>
        e'.solver.Denotes out width fun a => (f a + (b.eval a).toNat) % 2 ^ width) :
    Encodes (do
      let sum ← bits.foldlM step (Solver.constWord width 0)
      pure (([] : List Literal), sum)) e fun r e' => Sums e e' bits width r.1 r.2 := by
  have hzero : e.solver.Denotes (Solver.constWord width 0) width fun _ => 0 :=
    (Solver.constWord_denotes he width 0).congr fun a _ => Nat.zero_mod _
  refine (foldlM_denotes hstep he hlt hzero fun a => by rwa [Nat.zero_add]).bind fun sum e₁ hgrow hsum => ?_
  refine Encodes.pure hgrow.solver.wellFormed ⟨pinned_nil hgrow, hsum.width, hsum.lt, fun ha _ => ?_⟩
  rw [hsum.eval ha, Nat.zero_add]

theorem le_powerAbove (n : Nat) : n ≤ powerAbove n := by
  have := lt_two_pow_bitLength (n - 1)
  show n ≤ 2 ^ bitLength (n - 1)
  omega

/-- The number of true bits of a packed word, in parallel. -/
theorem sumOf_bitHack_sums (he : e.solver.WellFormed) (hlt : ∀ l ∈ bits, l.var < e.solver.vars) (hpos : 0 < width)
    (hle : width ≤ max bits.length 1) (hwidth : bits.length < 2 ^ width) :
    Encodes (sumOf .bitHack width bits) e fun r e' => Sums e e' bits width r.1 r.2 := by
  unfold sumOf
  refine packed_bind he hlt fun packed pins e₁ h₁ hpacks => ?_
  dsimp only
  have hwf := h₁.solver.wellFormed
  have hpadded : max bits.length 1 ≤ powerAbove (max bits.length 1) := le_powerAbove _
  generalize hn : powerAbove (max bits.length 1) - bits.length = n
  have hpower : Word.width (packed ++ List.replicate n Solver.ff) = 2 ^ bitLength (max bits.length 1 - 1) := by
    have hpacked : packed.length = bits.length := hpacks.width
    rw [Word.width, List.length_append, List.length_replicate, hpacked, ← hn]
    show _ = powerAbove _
    omega
  have hvars : ∀ l ∈ packed ++ List.replicate n Solver.ff, l.var < e₁.solver.vars :=
    List.forall_mem_append.mpr ⟨hpacks.lt, (Solver.zeros_denotes hwf n).lt⟩
  refine (Encodes.checked (sumFields_denotes hwf hpower hvars)).bind fun x e₂ h₂ hx => ?_
  have hhi : width - 1 < 2 ^ bitLength (max bits.length 1 - 1) := by
    show _ < powerAbove _
    omega
  obtain ⟨sum, hsum, hdenotes⟩ := Solver.extract_denotes hx (Nat.zero_le _) hhi
  have hlow : width - 1 + 1 - 0 = width := by omega
  rw [hlow] at hdenotes
  rw [hsum]
  refine Encodes.pure h₂.solver.wellFormed ⟨hpacks.pinned.grow h₁ h₂, hdenotes.width, hdenotes.lt, fun {a} ha hp => ?_⟩
  have hzeros : (Word.bits a (List.replicate n Solver.ff)).count true = 0 := by
    have hff := (Solver.means_ff h₂.solver.wellFormed).eval ha
    simp [Word.bits, hff, List.count_replicate]
  have happend : Word.bits a (packed ++ List.replicate n Solver.ff) =
      Word.bits a packed ++ Word.bits a (List.replicate n Solver.ff) := List.map_append
  have hcount := List.count_le_length (a := true) (l := Word.bits a bits)
  rw [Word.length_bits] at hcount
  rw [hdenotes.eval ha, happend, List.count_append, hzeros, hpacks.bits (h₂.solver.respects ha) hp, Nat.pow_zero,
    Nat.div_one, Nat.add_zero]
  exact Nat.mod_eq_of_lt (Nat.lt_of_le_of_lt hcount hwidth)

/-- Every word encoding sums up the literals. -/
theorem sumOf_sums (encoding : PopcountEncoding) (he : e.solver.WellFormed) (hlt : ∀ l ∈ bits, l.var < e.solver.vars)
    (hpos : 0 < width) (hle : width ≤ max bits.length 1) (hwidth : bits.length < 2 ^ width) :
    Encodes (sumOf encoding width bits) e fun r e' => Sums e e' bits width r.1 r.2 := by
  have hextended : Encodes (do
      let sum ← bits.foldlM (fun sum b => Encoder.checked (Solver.addWord sum (Solver.zeroExtend [b] (width - 1))))
        (Solver.constWord width 0)
      pure (([] : List Literal), sum)) e fun r e' => Sums e e' bits width r.1 r.2 := by
    refine sums_of_denotes he hlt hwidth fun {e sum b f} he hb hsum => ?_
    have hterm := Solver.zeroExtend_denotes he (Solver.denotes_bit (Solver.means_self hb)) (width - 1)
    rw [Nat.add_sub_cancel' hpos] at hterm
    exact Encodes.checked (Solver.addWord_denotes he hsum hterm)
  cases encoding with
  | bitHack => exact sumOf_bitHack_sums he hlt hpos hle hwidth
  | zeroExtend => exact hextended
  | shannon => exact hextended
  | ite =>
    refine sums_of_denotes he hlt hwidth fun {e sum b f} he hb hsum => ?_
    have hone := Solver.constWord_denotes he width 1
    have hzero := Solver.constWord_denotes he width 0
    refine (Encodes.checked (Solver.iteWord_denotes he (Solver.means_self hb) hone hzero)).bind
      fun term e₁ h₁ hterm => ?_
    refine (Encodes.checked (Solver.addWord_denotes h₁.solver.wellFormed (hsum.grow h₁.solver) hterm)).mono
      fun out e₂ _ hout => hout.congr fun a _ => ?_
    have hmod : 1 % 2 ^ width = 1 := Nat.mod_eq_of_lt (Nat.one_lt_two_pow hpos.ne')
    rw [hmod, Nat.zero_mod]
    cases b.eval a <;> rfl

end
end Count
end PlaceRoute
