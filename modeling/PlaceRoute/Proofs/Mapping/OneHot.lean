import PlaceRoute.Proofs.Mapping.Captures

/-!
# Helper words and the count of true literals

`Pinned e e' pins` says that the pins can always be made true by a choice of the helper words. `packed_pinned` packs
literals into a helper word, and `oneHot_judges` shows that the condition of `Family.oneHot` decides, where its pins
hold, whether at most or exactly one of the literals does. `oneHotTerms_captures` states this as a captured condition.
-/

namespace PlaceRoute

open PlaceRoute.Sat (Literal Assignment AgreeBelow)

/-- The pins built from `e` to `e'` can be made true whatever the values of the variables of `e`. -/
structure Pinned (e e' : Encoder) (pins : List Literal) : Prop where
  lt : ∀ p ∈ pins, p.var < e'.solver.vars
  extend : ∀ {a : Assignment}, e.solver.Respects a →
    ∃ b, AgreeBelow e.solver.vars a b ∧ e'.solver.Respects b ∧ ∀ p ∈ pins, p.eval b = true

section
variable {e e' e'' : Encoder} {keys : List Key} {pins : List Literal}

theorem pinned_nil (hgrow : e.GrowsTo e') : Pinned e e' [] := by
  refine ⟨by simp, fun ha => ?_⟩
  obtain ⟨b, hab, hb⟩ := hgrow.solver.extend ha
  exact ⟨b, hab, hb, by simp⟩

theorem Pinned.grow (h : Pinned e e' pins) (hgrow : e.GrowsTo e') (hgrow' : e'.GrowsTo e'') : Pinned e e'' pins where
  lt p hp := Nat.lt_of_lt_of_le (h.lt p hp) hgrow'.solver.vars_le
  extend ha := by
    obtain ⟨b, hab, hb, hpins⟩ := h.extend ha
    obtain ⟨c, hbc, hc⟩ := hgrow'.solver.extend hb
    refine ⟨c, hab.trans (hbc.mono hgrow.solver.vars_le), hc, fun p hp => ?_⟩
    rw [← hbc.eval (h.lt p hp)]
    exact hpins p hp

/-- Pins and a term whose value, where the pins hold, says whether `P` does. -/
theorem Pinned.captures {l : Literal} {P : (Key → Bool) → Prop} (h : Pinned e e' pins) (he : e.Ready keys)
    (hl : l.var < e'.solver.vars) (hv : ∀ {δ : Key → Bool} {a : Assignment}, e'.solver.Respects a →
      (∀ p ∈ pins, p.eval a = true) → (l.eval a = true ↔ P (e.read δ a))) : Captures e e' (pins ++ [l]) P where
  lt := List.forall_mem_append.mpr ⟨h.lt, List.forall_mem_singleton.mpr hl⟩
  sound ha hterms := by
    obtain ⟨hpins, hl⟩ := List.forall_mem_append.mp hterms
    exact (hv ha hpins).mp (hl l List.mem_cons_self)
  complete {δ a} ha hp := by
    obtain ⟨b, hab, hb, hpins⟩ := h.extend ha
    refine ⟨b, hab, hb, List.forall_mem_append.mpr ⟨hpins, List.forall_mem_singleton.mpr ?_⟩⟩
    refine (hv (δ := δ) hb hpins).mpr ?_
    rw [← he.read_congr hab]
    exact hp

/-- A helper word that packs literals: it has their values where its pins hold. -/
structure Packs (e e' : Encoder) (bits : List Literal) (packed : Word) (pins : List Literal) : Prop where
  pinned : Pinned e e' pins
  width : packed.width = bits.length
  lt : ∀ l ∈ packed, l.var < e'.solver.vars
  bits : ∀ {a : Assignment}, e'.solver.Respects a → (∀ p ∈ pins, p.eval a = true) → packed.bits a = Word.bits a bits

theorem packed_pinned {bits : List Literal} (he : e.solver.WellFormed) (hlt : ∀ l ∈ bits, l.var < e.solver.vars) :
    Encodes (do
      let packed ← Encoder.anonymous bits.length
      let pins ← Encoder.build (Solver.zipBits Solver.iff packed bits)
      pure (packed, pins)) e fun r e' => Packs e e' bits r.1 r.2 := by
  refine (Encodes.anonymous he bits.length).bind fun packed e₁ hgrow hfree => ?_
  have hbits : ∀ l ∈ bits, l.var < e₁.solver.vars := fun l hl => Nat.lt_of_lt_of_le (hlt l hl) hgrow.solver.vars_le
  refine (Encodes.build (Solver.iff_means.zipBits hgrow.solver.wellFormed hfree.width hfree.lt hbits)).bind
    fun pins e₂ hgrow' hpins => ?_
  have hsame {a : Assignment} (ha : e₂.solver.Respects a) :
      (∀ p ∈ pins, p.eval a = true) ↔ packed.bits a = Word.bits a bits := by
    have hlen : (packed.bits a).length = (Word.bits a bits).length := by
      rw [Word.length_bits, Word.length_bits, hfree.width]
    have hall : (∀ p ∈ pins, p.eval a = true) ↔ (Word.bits a pins).all id = true := by simp [Word.bits]
    rw [hall, hpins.bits ha, Bits.all_zipWith_beq hlen, beq_iff_eq]
    exact Bits.value_inj hlen
  refine Encodes.pure hgrow'.solver.wellFormed ⟨⟨hpins.lt, fun {a} ha => ?_⟩, hfree.width, fun l hl => ?_,
    fun ha => (hsame ha).mp⟩
  · obtain ⟨b, hab, hb, hpacked⟩ := hfree.extend ha (Word.bits a bits) (Word.length_bits ..)
    obtain ⟨c, hbc, hc⟩ := hgrow'.solver.extend hb
    have hac : AgreeBelow e.solver.vars a c := hab.trans (hbc.mono hgrow.solver.vars_le)
    refine ⟨c, hac, hc, (hsame hc).mpr ?_⟩
    rw [← Word.bits_congr hbc hfree.lt, hpacked]
    exact List.map_congr_left fun l hl => hac.eval (hlt l hl)
  · exact Nat.lt_of_lt_of_le (hfree.lt l hl) hgrow'.solver.vars_le

/-- Steps that go on with packed literals. -/
theorem packed_bind {β : Type} {bits : List Literal} {k : Word → List Literal → EncodeM β} {Q : β → Encoder → Prop}
    (he : e.solver.WellFormed) (hlt : ∀ l ∈ bits, l.var < e.solver.vars)
    (hk : ∀ packed pins e₁, e.GrowsTo e₁ → Packs e e₁ bits packed pins → Encodes (k packed pins) e₁ Q) :
    Encodes (do
      let packed ← Encoder.anonymous bits.length
      let pins ← Encoder.build (Solver.zipBits Solver.iff packed bits)
      k packed pins) e Q := by
  have hassoc : (do
      let packed ← Encoder.anonymous bits.length
      let pins ← Encoder.build (Solver.zipBits Solver.iff packed bits)
      k packed pins) =
      (do
        let packed ← Encoder.anonymous bits.length
        let pins ← Encoder.build (Solver.zipBits Solver.iff packed bits)
        pure (packed, pins)) >>= fun r => k r.1 r.2 := by
    simp only [bind_assoc, pure_bind]
  rw [hassoc]
  exact (packed_pinned he hlt).bind fun r e₁ h₁ hpacks => hk r.1 r.2 e₁ h₁ hpacks

end

namespace Family

/-- At most one of the values is true, and exactly one if `strict`. -/
def OneHot (strict : Bool) (bs : List Bool) : Prop := bs.count true ≤ 1 ∧ (strict = true → bs.count true = 1)

/-- Where the pins hold, the condition says whether the literals are one-hot. -/
structure Judges (e e' : Encoder) (bits : List Literal) (strict : Bool) (pins : List Literal) (condition : Literal) :
    Prop where
  pinned : Pinned e e' pins
  lt : condition.var < e'.solver.vars
  iff : ∀ {a : Assignment}, e'.solver.Respects a → (∀ p ∈ pins, p.eval a = true) →
    (condition.eval a = true ↔ OneHot strict (Word.bits a bits))

variable {e : Encoder} {keys : List Key} {bits : List Literal}

theorem oneHot_judges (he : e.solver.WellFormed) (hlt : ∀ l ∈ bits, l.var < e.solver.vars) (strict : Bool) :
    Encodes (oneHot bits strict) e fun r e' => Judges e e' bits strict r.1 r.2 := by
  unfold oneHot
  split
  · next hempty =>
    have hnil : bits = [] := List.isEmpty_iff.mp hempty
    have hc := Solver.means_ofBool he !strict
    refine Encodes.pure he ⟨pinned_nil (.refl he), hc.lt, fun ha _ => ?_⟩
    rw [hc.eval ha, hnil]
    cases strict <;> simp [OneHot]
  · next hne =>
    have hpos : 1 ≤ bits.length := by
      rw [List.isEmpty_iff] at hne
      exact List.length_pos_iff.mpr hne
    refine packed_bind he hlt fun packed pins e₁ h₁ hpacks => ?_
    have hwf := h₁.solver.wellFormed
    have hself : e₁.solver.Denotes packed bits.length fun a => packed.toNat a :=
      ⟨hpacks.width, hpacks.lt, fun _ => rfl⟩
    have hone := Solver.constWord_denotes hwf bits.length 1
    refine (Encodes.checked (Solver.subWord_denotes hwf hself hone)).bind fun less e₂ h₂ hless => ?_
    refine (Encodes.checked (Solver.andWord_denotes h₂.solver.wellFormed (hself.grow h₂.solver) hless)).bind
      fun masked e₃ h₃ hmasked => ?_
    refine (Encodes.build (Solver.isZero_means h₃.solver.wellFormed hmasked)).bind fun most e₄ h₄ hmost => ?_
    have h₁₄ := h₂.trans (h₃.trans h₄)
    have hcount {a : Assignment} (ha : e₄.solver.Respects a) (hp : ∀ p ∈ pins, p.eval a = true) :
        most.eval a = true ↔ (Word.bits a bits).count true ≤ 1 := by
      have hpow : 1 % 2 ^ bits.length = 1 := Nat.mod_eq_of_lt (Nat.one_lt_two_pow (by omega))
      have hbits := hpacks.bits (h₁₄.solver.respects ha) hp
      rw [hmost.eval ha, beq_iff_eq, hpow, Word.toNat_eq, hbits]
      have := Bits.and_add_ones_eq_zero_iff (Word.bits a bits)
      rwa [Word.length_bits] at this
    cases strict with
    | false =>
      refine Encodes.pure h₄.solver.wellFormed ⟨hpacks.pinned.grow h₁ h₁₄, hmost.lt, fun ha hp => ?_⟩
      rw [hcount ha hp]
      simp [OneHot]
    | true =>
      have hself₄ := hself.grow h₁₄.solver
      refine (Encodes.build (Solver.isZero_means h₄.solver.wellFormed hself₄)).bind fun none e₅ h₅ hnone => ?_
      refine (Encodes.build (Solver.and_means h₅.solver.wellFormed (hmost.grow h₅.solver) hnone.neg)).bind
        fun one e₆ h₆ hone => ?_
      refine Encodes.pure h₆.solver.wellFormed ⟨hpacks.pinned.grow h₁ (h₁₄.trans (h₅.trans h₆)), hone.lt,
        fun {a} ha hp => ?_⟩
      have ha₄ := h₅.solver.respects (h₆.solver.respects ha)
      have hbits := hpacks.bits (h₁₄.solver.respects ha₄) hp
      have hzero : packed.toNat a = 0 ↔ (Word.bits a bits).count true = 0 := by
        rw [Word.toNat_eq, hbits, Bits.value_eq_zero_iff, List.count_eq_zero]
        exact ⟨fun h hm => by simpa using h _ hm, fun h b hb => Bool.eq_false_iff.mpr fun hb' => h (hb' ▸ hb)⟩
      rw [hone.eval ha, Bool.and_eq_true, ← hmost.eval ha₄, hcount ha₄ hp, Bool.not_eq_true', beq_eq_false_iff_ne, Ne,
        hzero]
      constructor
      · rintro ⟨hmost, hsome⟩
        exact ⟨hmost, fun _ => by omega⟩
      · rintro ⟨hmost, hone⟩
        exact ⟨hmost, by rw [hone rfl]; exact Nat.one_ne_zero⟩

/-- The terms of `oneHot` capture that the decisions behind the literals are one-hot. -/
theorem oneHotTerms_captures {α : Type} {items : List α} {key : α → Key} (he : e.Ready keys)
    (hlt : ∀ l ∈ bits, l.var < e.solver.vars)
    (hbits : ∀ δ a, Word.bits a bits = items.map fun x => e.read δ a (key x)) (strict : Bool) :
    Encodes (oneHotTerms bits strict) e fun terms e' =>
      Captures e e' terms fun δ => OneHot strict (items.map fun x => δ (key x)) := by
  refine (oneHot_judges he.wellFormed hlt strict).bind fun r e' hgrow hr => ?_
  refine Encodes.pure hgrow.solver.wellFormed (hr.pinned.captures he hr.lt fun {δ a} ha hp => ?_)
  rw [hr.iff ha hp, hbits δ a]

end Family
end PlaceRoute
