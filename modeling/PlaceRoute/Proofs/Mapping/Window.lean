import PlaceRoute.Proofs.Mapping.Count

/-!
# Counts and their windows

In every encoding the count of a list of literals is the number of those that are true (`Count.encode_defines`), under every
assignment that satisfies the defining formula; the formula itself asks nothing of the literals. The window of a count says
that the number lies between two bounds (`Count.window_means`).
-/

namespace PlaceRoute
namespace Count

open PlaceRoute.Sat (Literal Assignment AgreeBelow)
open Solver (Builds Succeeds)

/-- The literals of a count. -/
def literals : Count → List Literal
  | word w => w
  | thresholds atLeast => atLeast

/-- Under the assignment the count is `n`. -/
def Is (c : Count) (a : Assignment) (n : Nat) : Prop :=
  match c with
  | word w => w.toNat a = n
  | thresholds atLeast => ∀ k, (reaches atLeast k).eval a = decide (k ≤ n)

variable {s : Solver} {c : Assignment → Nat} {k : Nat} {ls : List Literal}

/-! ## Thresholds -/

/-- From `k` on, the literals say whether the number is reached. -/
def Ranks (s : Solver) (c : Assignment → Nat) : Nat → List Literal → Prop
  | _, [] => True
  | k, l :: ls => s.Means l (fun a => decide (k ≤ c a)) ∧ Ranks s c (k + 1) ls

theorem Ranks.grow {t : Solver} (h : Ranks s c k ls) (hst : s.GrowsTo t) : Ranks t c k ls := by
  induction ls generalizing k with
  | nil => trivial
  | cons l ls ih => exact ⟨h.1.grow hst, ih h.2⟩

/-- A number that is never reached. -/
theorem Ranks.snoc (hs : s.WellFormed) (h : Ranks s c k ls) (hc : ∀ a, c a < k + ls.length) :
    Ranks s c k (ls ++ [Solver.ff]) := by
  induction ls generalizing k with
  | nil =>
    refine ⟨(Solver.means_ff hs).congr fun a _ => ?_, trivial⟩
    have := hc a
    rw [List.length_nil] at this
    exact (decide_eq_false (by omega)).symm
  | cons l ls ih =>
    refine ⟨h.1, ih h.2 fun a => ?_⟩
    have := hc a
    rw [List.length_cons] at this
    omega

theorem Ranks.lt (h : Ranks s c k ls) : ∀ l ∈ ls, l.var < s.vars := by
  induction ls generalizing k with
  | nil => simp
  | cons l ls ih => exact List.forall_mem_cons.mpr ⟨h.1.lt, ih h.2⟩

theorem Ranks.eval_getD (hs : s.WellFormed) (h : Ranks s c k ls) {a : Assignment} (ha : s.Respects a)
    (hc : c a < k + ls.length) (i : Nat) : (ls.getD i Solver.ff).eval a = decide (k + i ≤ c a) := by
  induction ls generalizing k i with
  | nil =>
    rw [List.length_nil] at hc
    rw [List.getD_nil, (Solver.means_ff hs).eval ha]
    exact (decide_eq_false (by omega)).symm
  | cons l ls ih =>
    rw [List.length_cons] at hc
    cases i with
    | zero => exact h.1.eval ha
    | succ i =>
      have hnext := ih h.2 (by omega) i
      rw [Nat.add_right_comm] at hnext
      exact hnext

/-- The thresholds above the first one count one more literal. -/
theorem raise_ranks {x : Literal} (hs : s.WellFormed) (hx : x.var < s.vars) (h : Ranks s c k ls) :
    Builds (raise x ls) s fun out t =>
      out.length = ls.length - 1 ∧ Ranks t (fun a => c a + (x.eval a).toNat) (k + 1) out := by
  induction ls generalizing k with
  | nil => exact Builds.pure hs ⟨rfl, trivial⟩
  | cons below ls ih =>
    cases ls with
    | nil => exact Builds.pure hs ⟨rfl, trivial⟩
    | cons here above =>
      obtain ⟨hbelow, hrest⟩ := h
      unfold raise
      refine (ih hrest).bind fun above' t hst habove => ?_
      refine (Solver.and_means hst.wellFormed (hbelow.grow hst) ((Solver.means_self hx).grow hst)).bind
        fun carried u htu hcarried => ?_
      refine (Solver.or_means htu.wellFormed ((hrest.1.grow hst).grow htu) hcarried).bind fun new w huw hnew => ?_
      refine Builds.pure huw.wellFormed ⟨?_, hnew.congr fun a _ => ?_, (habove.2.grow htu).grow huw⟩
      · rw [List.length_cons, habove.1]
        simp
      · rw [Bool.eq_iff_iff, Bool.or_eq_true, Bool.and_eq_true, decide_eq_true_eq, decide_eq_true_eq, decide_eq_true_eq]
        show k + 1 ≤ c a ∨ k ≤ c a ∧ _ ↔ k + 1 ≤ c a + (x.eval a).toNat
        cases x.eval a with
        | false => simp
        | true =>
          rw [Bool.toNat_true, eq_self, and_true]
          omega

/-- One literal after the other is counted. -/
theorem foldlM_ranks {bits : List Literal} (hs : s.WellFormed) (hlt : ∀ l ∈ bits, l.var < s.vars) (h : Ranks s c 0 ls)
    (hc : ∀ a, c a < ls.length) :
    Builds (bits.foldlM (fun atLeast x => do return Solver.tt :: (← raise x (atLeast ++ [Solver.ff]))) ls) s fun out t =>
      out.length = ls.length + bits.length ∧ Ranks t (fun a => c a + (Word.bits a bits).count true) 0 out := by
  induction bits generalizing s c ls with
  | nil => exact Builds.pure hs ⟨rfl, h⟩
  | cons x bits ih =>
    obtain ⟨hx, hlt⟩ := List.forall_mem_cons.mp hlt
    rw [List.foldlM_cons]
    have hfalse := h.snoc hs fun a => by rw [Nat.zero_add]; exact hc a
    have hnext : Builds (do return Solver.tt :: (← raise x (ls ++ [Solver.ff]))) s fun out t =>
        out.length = ls.length + 1 ∧ Ranks t (fun a => c a + (x.eval a).toNat) 0 out := by
      refine (raise_ranks hs hx hfalse).bind fun above t hst habove => ?_
      refine Builds.pure hst.wellFormed ⟨?_, (Solver.means_tt hst.wellFormed).congr fun a _ => ?_, habove.2⟩
      · rw [List.length_cons, habove.1, List.length_append, List.length_singleton, Nat.add_sub_cancel]
      · exact (decide_eq_true (Nat.zero_le _)).symm
    refine hnext.bind fun next t hst hnext => ?_
    refine (ih hst.wellFormed (fun l hl => Nat.lt_of_lt_of_le (hlt l hl) hst.vars_le) hnext.2 fun a => ?_).mono
      fun out u _ hout => ⟨?_, ?_⟩
    · have := hc a
      have := Bool.toNat_le (x.eval a)
      rw [hnext.1]
      omega
    · rw [hout.1, hnext.1, List.length_cons]
      omega
    · have hcount : (fun a => c a + (x.eval a).toNat + (Word.bits a bits).count true) =
          fun a => c a + (Word.bits a (x :: bits)).count true := by
        funext a
        rw [Word.bits_cons, List.count_cons, Nat.add_assoc, Nat.add_comm (List.count _ _)]
        cases x.eval a <;> rfl
      rw [← hcount]
      exact hout.2

theorem thresholdsOf_ranks {bits : List Literal} (hs : s.WellFormed) (hlt : ∀ l ∈ bits, l.var < s.vars) :
    Builds (thresholdsOf bits) s fun out t =>
      out.length = bits.length + 1 ∧ Ranks t (fun a => (Word.bits a bits).count true) 0 out := by
  have hnone : Ranks s (fun _ => 0) 0 [Solver.tt] := ⟨Solver.means_tt hs, trivial⟩
  refine (foldlM_ranks hs hlt hnone fun _ => Nat.one_pos).mono fun out t _ hout => ⟨?_, ?_⟩
  · rw [hout.1, List.length_singleton, Nat.add_comm]
  · simpa only [Nat.zero_add] using hout.2

/-! ## The count -/

section
variable {e e' : Encoder} {bits : List Literal} {defined : Literal} {count : Count}

/-- The formula can always be made true, and where it holds the count is the number of true literals. -/
structure Defines (e e' : Encoder) (bits : List Literal) (defined : Literal) (count : Count) : Prop where
  pinned : Pinned e e' [defined]
  lt : ∀ l ∈ count.literals, l.var < e'.solver.vars
  is : ∀ {a : Assignment}, e'.solver.Respects a → defined.eval a = true → count.Is a ((Word.bits a bits).count true)

theorem thresholds_defines (he : e.solver.WellFormed) (hlt : ∀ l ∈ bits, l.var < e.solver.vars) :
    Encodes (encode .shannon bits) e fun r e' => Defines e e' bits r.1 r.2 := by
  refine (Encodes.build (thresholdsOf_ranks he hlt)).bind fun atLeast e₁ h₁ hranks => ?_
  have hwf := h₁.solver.wellFormed
  have htrue := Solver.means_tt hwf
  refine Encodes.pure hwf ⟨⟨List.forall_mem_singleton.mpr htrue.lt, fun {a} ha => ?_⟩, hranks.2.lt, fun {a} ha _ k => ?_⟩
  · obtain ⟨b, hab, hb⟩ := h₁.solver.extend ha
    exact ⟨b, hab, hb, List.forall_mem_singleton.mpr (htrue.eval hb)⟩
  · have hcount : (Word.bits a bits).count true ≤ bits.length :=
      List.count_le_length.trans_eq (Word.length_bits a bits)
    have := hranks.2.eval_getD hwf ha (by rw [hranks.1]; omega) k
    rwa [Nat.zero_add] at this

/-- A helper word that is pinned to a sum. -/
theorem word_defines {encoding : PopcountEncoding} (hne : encoding ≠ .shannon) (he : e.solver.WellFormed)
    (hlt : ∀ l ∈ bits, l.var < e.solver.vars) :
    Encodes (encode encoding bits) e fun r e' => Defines e e' bits r.1 r.2 := by
  have hencode : encode encoding bits = (do
      let width := max (bitLength bits.length) 1
      let r ← sumOf encoding width bits
      let count ← Encoder.anonymous width
      let same ← Encoder.checked (Solver.eqWord count r.2)
      let defined ← Encoder.build (Solver.andAll (r.1 ++ [same]))
      pure (defined, .word count)) := by
    cases encoding with
    | shannon => exact absurd rfl hne
    | _ => rfl
  rw [hencode]
  generalize hn : max (bitLength bits.length) 1 = width
  have hbits := lt_two_pow_bitLength bits.length
  have hpow : 2 ^ bitLength bits.length ≤ 2 ^ width := Nat.pow_le_pow_right Nat.two_pos (by omega)
  have hle : width ≤ max bits.length 1 := by
    rcases Nat.eq_zero_or_pos bits.length with hzero | hpos
    · rw [← hn, hzero]
      decide
    · have := bitLength_le hpos
      omega
  refine (sumOf_sums encoding he hlt (by omega) hle (by omega)).bind fun r e₁ h₁ hsums => ?_
  obtain ⟨pins, sum⟩ := r
  refine (Encodes.anonymous h₁.solver.wellFormed width).bind fun count e₂ h₂ hfree => ?_
  have hcount : e₂.solver.Denotes count width fun a => count.toNat a := ⟨hfree.width, hfree.lt, fun _ => rfl⟩
  have hsum : e₂.solver.Denotes sum width fun a => sum.toNat a :=
    ⟨hsums.width, fun l hl => Nat.lt_of_lt_of_le (hsums.lt l hl) h₂.solver.vars_le, fun _ => rfl⟩
  refine (Encodes.checked (Solver.eqWord_means h₂.solver.wellFormed hcount hsum)).bind fun same e₃ h₃ hsame => ?_
  have hterms : ∀ l ∈ pins ++ [same], l.var < e₃.solver.vars := by
    refine List.forall_mem_append.mpr ⟨fun l hl => ?_, List.forall_mem_singleton.mpr hsame.lt⟩
    exact Nat.lt_of_lt_of_le (hsums.pinned.lt l hl) (h₂.trans h₃).solver.vars_le
  refine (Encodes.build (Solver.andAll_means h₃.solver.wellFormed hterms)).bind fun defined e₄ h₄ hdefined => ?_
  have hall {a : Assignment} (ha : e₄.solver.Respects a) :
      defined.eval a = true ↔ (∀ p ∈ pins, p.eval a = true) ∧ count.toNat a = sum.toNat a := by
    rw [hdefined.eval ha, List.all_eq_true, List.forall_mem_append, List.forall_mem_singleton,
      hsame.eval (h₄.solver.respects ha), beq_iff_eq]
  refine Encodes.pure h₄.solver.wellFormed ⟨⟨List.forall_mem_singleton.mpr hdefined.lt, fun {a} ha => ?_⟩, fun l hl => ?_,
    fun {a} ha hd => ?_⟩
  · obtain ⟨b, hab, hb, hpins⟩ := hsums.pinned.extend ha
    obtain ⟨c, hbc, hc, hword⟩ := hfree.extend hb (Word.bits b sum) ((Word.length_bits ..).trans hsums.width)
    obtain ⟨d, hcd, hd⟩ := (h₃.trans h₄).solver.extend hc
    have hbd : AgreeBelow e₁.solver.vars b d := hbc.trans (hcd.mono h₂.solver.vars_le)
    refine ⟨d, hab.trans (hbd.mono h₁.solver.vars_le), hd, List.forall_mem_singleton.mpr ((hall hd).mpr ⟨?_, ?_⟩)⟩
    · intro p hp
      rw [← hbd.eval (hsums.pinned.lt p hp)]
      exact hpins p hp
    · rw [Word.toNat_eq, Word.toNat_eq, ← Word.bits_congr hcd hfree.lt, hword, Word.bits_congr hbd hsums.lt]
  · exact Nat.lt_of_lt_of_le (hfree.lt l hl) (h₃.trans h₄).solver.vars_le
  · obtain ⟨hpins, hcount⟩ := (hall ha).mp hd
    exact hcount.trans (hsums.eval ((h₂.trans (h₃.trans h₄)).solver.respects ha) hpins)

/-- In every encoding the count is the number of true literals. -/
theorem encode_defines (encoding : PopcountEncoding) (he : e.solver.WellFormed) (hlt : ∀ l ∈ bits, l.var < e.solver.vars) :
    Encodes (encode encoding bits) e fun r e' => Defines e e' bits r.1 r.2 := by
  rcases eq_or_ne encoding .shannon with rfl | hne
  · exact thresholds_defines he hlt
  · exact word_defines hne he hlt

end

/-! ## The window -/

/-- The window of a count holds where the count lies in it. -/
theorem window_means (count : Count) (hs : s.WellFormed) (hlt : ∀ l ∈ count.literals, l.var < s.vars) (lower upper : Nat) :
    Succeeds (count.window lower upper) s fun out t => out.var < t.vars ∧
      ∀ a n, t.Respects a → count.Is a n → out.eval a = decide (lower ≤ n ∧ n < upper) := by
  unfold window
  split
  · next hle =>
    have hfalse := Solver.means_ff hs
    refine Succeeds.pure hs ⟨hfalse.lt, fun a n ha _ => ?_⟩
    rw [hfalse.eval ha]
    exact (decide_eq_false (by omega)).symm
  · next hlower =>
    cases count with
    | word w =>
      dsimp only
      have hw : s.Denotes w w.width fun a => w.toNat a := Solver.denotes_self hlt
      have hext := Solver.zeroExtend_denotes hs hw (max w.width (bitLength upper) - w.width)
      rw [Nat.add_sub_cancel' (Nat.le_max_left _ _)] at hext
      generalize hn : max w.width (bitLength upper) = width at hext ⊢
      have hupper : upper < 2 ^ width := Nat.lt_of_lt_of_le (lt_two_pow_bitLength upper)
        (Nat.pow_le_pow_right Nat.two_pos (by omega))
      have hlow : s.Denotes (Solver.constWord width lower) width fun _ => lower :=
        (Solver.constWord_denotes hs width lower).congr fun _ _ => Nat.mod_eq_of_lt (by omega)
      have hhigh : s.Denotes (Solver.constWord width upper) width fun _ => upper :=
        (Solver.constWord_denotes hs width upper).congr fun _ _ => Nat.mod_eq_of_lt hupper
      refine (Solver.leWord_means hs hlow hext).bind fun above t hst habove => ?_
      refine (Solver.ltWord_means hst.wellFormed (hext.grow hst) (hhigh.grow hst)).bind fun below u htu hbelow => ?_
      refine (Solver.and_means htu.wellFormed (habove.grow htu) hbelow).succeeds.mono fun out v huv hout => ?_
      refine ⟨hout.lt, fun a n ha his => ?_⟩
      have hcount : w.toNat a = n := his
      rw [hout.eval ha, hcount, Bool.decide_and]
    | thresholds atLeast =>
      have hreaches (k : Nat) : (reaches atLeast k).var < s.vars := by
        unfold reaches
        rw [List.getD_eq_getElem?_getD]
        cases hk : atLeast[k]? with
        | none => exact (Solver.means_ff hs).lt
        | some l => exact hlt l (List.mem_of_getElem? hk)
      refine (Solver.and_means hs (Solver.means_self (hreaches lower)) (Solver.means_self (hreaches upper)).neg).succeeds.mono
        fun out t _ hout => ⟨hout.lt, fun a n ha his => ?_⟩
      have hcount : ∀ k, (reaches atLeast k).eval a = decide (k ≤ n) := his
      rw [hout.eval ha, hcount, hcount, Bool.decide_and]
      congr 1
      rw [← decide_not]
      exact decide_eq_decide.mpr Nat.not_le

end Count
end PlaceRoute
