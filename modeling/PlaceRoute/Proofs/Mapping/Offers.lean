import PlaceRoute.Proofs.Mapping.Models
import PlaceRoute.Proofs.Mapping.Prune
import PlaceRoute.Proofs.Mapping.Window
import PlaceRoute.Proofs.Solver.Conserve
import PlaceRoute.Session.Optimize

/-!
# What a check may find

`Encoder.Offers e keys P`: with the open scopes switched on, the next check may find the decisions that satisfy `P` and no other.
`Encoder.Counts e keys P count f` adds that the count which the encoder holds is `f` of the decisions. An encoder gets there by
asserting the formula of an objective's count (`Models.counts`); pins and windows narrow `P` (`Counts.pin`, `Counts.window`).

`Encoder.Ready.extract`: the model that is read after a check takes the decisions of the solution found.
-/

namespace PlaceRoute

open PlaceRoute.Sat (Literal Assignment AgreeBelow)
open Solver (Builds Succeeds)

/-! ## The count of an objective -/

/-- Terms whose values are conditions on the decisions. -/
theorem Encodes.mapM_bits {α : Type} {e : Encoder} {keys : List Key} {items : List α} {term : α → EncodeM Literal}
    {p : α → (Key → Bool) → Bool} (he : e.Ready keys)
    (h : ∀ x ∈ items, ∀ {e' : Encoder}, e'.Ready keys → Encodes (term x) e' fun l e'' => l.var < e''.solver.vars ∧
      ∀ δ a, e''.solver.Respects a → l.eval a = p x (e'.read δ a)) :
    Encodes (items.mapM term) e fun ls e' => (∀ l ∈ ls, l.var < e'.solver.vars) ∧
      ∀ δ a, e'.solver.Respects a → Word.bits a ls = items.map fun x => p x (e.read δ a) := by
  induction items generalizing e with
  | nil => exact Encodes.pure he.wellFormed ⟨by simp, fun _ _ _ => rfl⟩
  | cons x items ih =>
    obtain ⟨hx, hitems⟩ := List.forall_mem_cons.mp h
    rw [List.mapM_cons]
    refine (hx he).bind fun l e₁ h₁ hl => ?_
    refine (ih (he.grow h₁) hitems).bind fun ls e₂ h₂ hls => ?_
    refine Encodes.pure h₂.solver.wellFormed ⟨List.forall_mem_cons.mpr ⟨?_, hls.1⟩, fun δ a ha => ?_⟩
    · exact Nat.lt_of_lt_of_le hl.1 h₂.solver.vars_le
    · rw [Word.bits_cons, List.map_cons, hl.2 δ a (h₂.solver.respects ha), hls.2 δ a ha, h₁.read]

/-- The formula can always be made true, and where it holds the count is the number of counted nodes that carry a net. -/
structure Objective.Defines (o : Objective) (g : Graph) (d : Design) (e e' : Encoder) (defined : Literal) (count : Count) :
    Prop where
  pinned : Pinned e e' [defined]
  lt : ∀ l ∈ count.literals, l.var < e'.solver.vars
  is : ∀ {δ : Key → Bool} {a : Assignment}, e'.solver.Respects a → defined.eval a = true →
    count.Is a (o.carried g d (e.read δ a))

theorem Objective.encode_defines {g : Graph} {d : Design} {e : Encoder} (o : Objective)
    (he : e.Ready (allKeys g d)) : Encodes (o.encode g d) e fun r e' => o.Defines g d e e' r.1 r.2 := by
  have hused : Encodes ((o.countedNodes g).mapM fun n => do
      let routes ← d.values.mapM fun v => Encoder.bit (.route n v.id)
      Encoder.build (Solver.orAll routes)) e fun used e' => (∀ l ∈ used, l.var < e'.solver.vars) ∧
        ∀ δ a, e'.solver.Respects a → Word.bits a used =
          (o.countedNodes g).map fun n => d.values.any fun v => e.read δ a (.route n v.id) := by
    refine Encodes.mapM_bits (p := fun n δ => d.values.any fun v => δ (.route n v.id)) he fun n hn e' he' => ?_
    have hid : n ∈ g.ids := by
      obtain ⟨node, hnode, rfl⟩ := List.mem_map.mp hn
      exact List.mem_map_of_mem (List.mem_filter.mp hnode).1
    refine (he'.bits fun v hv => route_mem_allKeys hid hv).bind fun routes e₁ _ hroutes => ?_
    obtain ⟨rfl, hlt, hbits⟩ := hroutes
    refine (Encodes.build (Solver.orAll_means he'.wellFormed hlt)).mono fun l e₂ _ hl => ⟨hl.lt, fun δ a ha => ?_⟩
    have hany : routes.any (·.eval a) = (Word.bits a routes).any id := by simp [Word.bits]
    rw [hl.eval ha, hany, hbits δ a]
    simp
  refine hused.bind fun used e₁ h₁ hused => ?_
  refine (Count.encode_defines o.encoding h₁.solver.wellFormed hused.1).mono fun r e₂ h₂ hr => ?_
  refine ⟨⟨hr.pinned.lt, fun {a} ha => ?_⟩, hr.lt, fun {δ a} ha hd => ?_⟩
  · obtain ⟨b, hab, hb⟩ := h₁.solver.extend ha
    obtain ⟨c, hbc, hc, hpins⟩ := hr.pinned.extend hb
    exact ⟨c, hab.trans (hbc.mono h₁.solver.vars_le), hc, hpins⟩
  · have hcount : (Word.bits a used).count true = o.carried g d (e.read δ a) := by
      rw [hused.2 δ a (h₂.solver.respects ha), List.count_eq_countP, List.countP_map]
      exact List.countP_congr fun n _ => by simp
    exact hcount ▸ hr.is ha hd

/-! ## Decisions on offer -/

namespace Encoder

variable {e e' : Encoder} {keys : List Key} {P Q : (Key → Bool) → Prop} {count : Count} {f : (Key → Bool) → Nat}

/-- With the open scopes switched on, the clauses hold for decisions that satisfy `P` and for no other. -/
structure Offers (e : Encoder) (keys : List Key) (P : (Key → Bool) → Prop) : Prop where
  ready : e.Ready keys
  sound : ∀ {δ : Key → Bool} {a : Assignment}, e.solver.problem.eval a = true → P (e.read δ a)
  complete : ∀ {δ : Key → Bool}, P δ → ∃ a, e.solver.problem.eval a = true ∧ e.read δ a = δ

/-- The count is `f` of the decisions. -/
structure Counts (e : Encoder) (keys : List Key) (P : (Key → Bool) → Prop) (count : Count) (f : (Key → Bool) → Nat) :
    Prop where
  offers : e.Offers keys P
  lt : ∀ l ∈ count.literals, l.var < e.solver.vars
  is : ∀ {δ : Key → Bool} {a : Assignment}, e.solver.problem.eval a = true → count.Is a (f (e.read δ a))

theorem problem_iff_holds (hscopes : e.solver.scopes = []) {a : Assignment} :
    e.solver.problem.eval a = true ↔ e.solver.Holds a := by
  rw [Solver.problem_eval, hscopes]
  simp

theorem Models.offers (h : e.Models keys P) : e.Offers keys P where
  ready := h.ready
  sound ha := h.sound ((problem_iff_holds h.scopes).mp ha)
  complete hp := by
    obtain ⟨a, ha, hread⟩ := h.complete hp
    exact ⟨a, (problem_iff_holds h.scopes).mpr ha, hread⟩

theorem Counts.congr (h : e.Counts keys P count f) (hpq : ∀ δ, P δ ↔ Q δ) : e.Counts keys Q count f :=
  ⟨⟨h.offers.ready, fun ha => (hpq _).mp (h.offers.sound ha), fun hq => h.offers.complete ((hpq _).mpr hq)⟩, h.lt, h.is⟩

theorem literal?_congr (hvars : e'.store.vars = e.store.vars) : e'.literal? = e.literal? := by
  funext k
  unfold literal?
  rw [hvars]

theorem read_of_vars (hvars : e'.store.vars = e.store.vars) {δ : Key → Bool} {a : Assignment} :
    e'.read δ a = e.read δ a := by
  funext k
  unfold read
  rw [literal?_congr hvars]

theorem Ready.of_vars (h : e.Ready keys) (hvars : e'.store.vars = e.store.vars) (hwf : e'.solver.WellFormed)
    (hle : e.solver.vars ≤ e'.solver.vars) : e'.Ready keys where
  wellFormed := hwf
  lt hl := Nat.lt_of_lt_of_le (h.lt (literal?_congr hvars ▸ hl)) hle
  declared k hk := literal?_congr hvars ▸ h.declared k hk
  only hk := h.only (hvars ▸ hk)

/-- What conserves the solutions keeps decisions and count. -/
theorem Counts.conserve (h : e.Counts keys P count f) (hvars : e'.store.vars = e.store.vars)
    (hs : e.solver.Conserves e'.solver) : e'.Counts keys P count f := by
  have hread {δ : Key → Bool} {a : Assignment} : e'.read δ a = e.read δ a := read_of_vars hvars
  refine ⟨⟨h.offers.ready.of_vars hvars hs.wellFormed hs.vars_le, fun ha => ?_, fun hp => ?_⟩,
    fun l hl => Nat.lt_of_lt_of_le (h.lt l hl) hs.vars_le, fun ha => ?_⟩
  · rw [hread]
    exact h.offers.sound (hs.problem ha)
  · obtain ⟨a, ha, hδ⟩ := h.offers.complete hp
    obtain ⟨b, hab, hb⟩ := hs.extend_problem h.offers.ready.wellFormed ha
    exact ⟨b, hb, hread.trans ((h.offers.ready.read_congr hab).symm.trans hδ)⟩
  · rw [hread]
    exact h.is (hs.problem ha)

theorem Counts.push (h : e.Counts keys P count f) :
    { e with solver := (Solver.push.run e.solver).2 }.Counts keys P count f := by
  have hwf := h.offers.ready.wellFormed
  have hscoped := Solver.scoped_push hwf
  have hproblem {a : Assignment} (ha : (Solver.push.run e.solver).2.problem.eval a = true) :
      e.solver.problem.eval a = true := by
    obtain ⟨hon, hholds⟩ := Solver.problem_eval.mp ha
    rw [hscoped.scopes, List.forall_mem_cons] at hon
    exact Solver.problem_eval.mpr ⟨hon.2, hscoped.holds hholds⟩
  refine ⟨⟨h.offers.ready.of_vars rfl hscoped.wellFormed hscoped.vars_le, fun ha => h.offers.sound (hproblem ha),
    fun hp => ?_⟩, fun l hl => Nat.lt_of_lt_of_le (h.lt l hl) hscoped.vars_le, fun ha => h.is (hproblem ha)⟩
  obtain ⟨a, ha, hread⟩ := h.offers.complete hp
  obtain ⟨b, hab, hb⟩ := Solver.push_problem hwf ha
  exact ⟨b, hb, (h.offers.ready.read_congr hab).symm.trans hread⟩

/-- An assertion narrows the decisions on offer to those under which the term holds. -/
theorem Offers.assert {l : Literal} (h : e.Offers keys P) (hl : l.var < e.solver.vars)
    (hlq : ∀ {δ : Key → Bool} {a : Assignment}, e.solver.problem.eval a = true → (l.eval a = true ↔ Q (e.read δ a))) :
    { e with solver := ((Solver.assert l).run e.solver).2 }.Offers keys fun δ => P δ ∧ Q δ := by
  have hready : { e with solver := ((Solver.assert l).run e.solver).2 }.Ready keys := by
    rw [Solver.assert_run]
    refine h.ready.of_vars rfl (h.ready.wellFormed.with (c := [l :: Solver.guard e.solver])
      (List.forall_mem_singleton.mpr (List.forall_mem_cons.mpr ⟨hl, fun k hk => ?_⟩)) h.ready.wellFormed.scopes_lt _ _)
      (Nat.le_refl _)
    obtain ⟨act, hact, rfl⟩ := Option.map_eq_some_iff.mp (Option.mem_toList.mp hk)
    exact h.ready.wellFormed.scopes_lt act (List.mem_of_mem_head? hact)
  refine ⟨hready, fun {δ a} ha => ?_, fun {δ} hpq => ?_⟩
  · obtain ⟨hla, ha⟩ := Solver.assert_problem.mp ha
    exact ⟨h.sound ha, (hlq ha).mp hla⟩
  · obtain ⟨a, ha, hread⟩ := h.complete hpq.1
    have hq : Q (e.read δ a) := by
      rw [hread]
      exact hpq.2
    exact ⟨a, Solver.assert_problem.mpr ⟨(hlq ha).mpr hq, ha⟩, hread⟩

theorem Counts.assert {l : Literal} (h : e.Counts keys P count f) (hl : l.var < e.solver.vars)
    (hlq : ∀ {δ : Key → Bool} {a : Assignment}, e.solver.problem.eval a = true → (l.eval a = true ↔ Q (e.read δ a))) :
    { e with solver := ((Solver.assert l).run e.solver).2 }.Counts keys (fun δ => P δ ∧ Q δ) count f := by
  refine ⟨h.offers.assert hl hlq, fun k hk => ?_, fun ha => h.is (Solver.assert_problem.mp ha).2⟩
  rw [Solver.assert_run]
  exact h.lt k hk

/-! ## Counts, pins and windows -/

/-- The formula of a count is asserted. -/
theorem Models.counts {o : Objective} {g : Graph} {d : Design} {defined : Literal} (h : e.Models keys P)
    (hgrow : e.GrowsTo e') (hdefines : o.Defines g d e e' defined count) :
    { e' with solver := ((Solver.assert defined).run e'.solver).2 }.Counts keys P count (o.carried g d) := by
  have hscopes : e'.solver.scopes = [] := hgrow.solver.scopes.trans h.scopes
  have hlt := List.forall_mem_singleton.mp hdefines.pinned.lt
  have hcaptures : Captures e e' [defined] fun _ => True :=
    ⟨hdefines.pinned.lt, fun _ _ => trivial, fun ha _ => hdefines.pinned.extend ha⟩
  have hformula : e'.solver.Means defined fun a => [defined].all (·.eval a) :=
    (Solver.means_self hlt).congr fun a _ => by simp
  have hmodels := (h.assert hgrow hcaptures hformula).congr fun δ => iff_of_eq (and_true (P δ))
  refine ⟨hmodels.offers, fun l hl => ?_, fun {δ a} ha => ?_⟩
  · rw [Solver.assert_run]
    exact hdefines.lt l hl
  · obtain ⟨hd, ha⟩ := Solver.assert_problem.mp ha
    have hresp := hgrow.solver.wellFormed.respects ((problem_iff_holds hscopes).mp ha)
    exact hgrow.read (δ := δ) ▸ hdefines.is hresp hd

/-- Decisions are pinned. -/
theorem Counts.pin {pins : List (Key × Bool)} (h : e.Counts keys P count f) (hpins : ∀ p ∈ pins, p.1 ∈ keys) :
    ∃ s, (Session.pin pins).run.run e = (.ok (), { e with solver := s }) ∧
      { e with solver := s }.Counts keys (fun δ => P δ ∧ ∀ p ∈ pins, δ p.1 = p.2) count f := by
  induction pins generalizing e P with
  | nil => exact ⟨e.solver, rfl, h.congr fun δ => by simp⟩
  | cons p pins ih =>
    obtain ⟨k, value⟩ := p
    obtain ⟨hk, hpins⟩ := List.forall_mem_cons.mp hpins
    obtain ⟨l, hl⟩ := h.offers.ready.declared k hk
    have hlt := h.offers.ready.lt hl
    have hread (δ : Key → Bool) (a : Assignment) : (if value then l else -l).eval a = true ↔ e.read δ a k = value := by
      rw [read_of_literal? hl]
      cases value <;> simp
    have hcond : (if value then l else -l).var < e.solver.vars := by cases value <;> simpa using hlt
    have hone := h.assert (Q := fun δ => δ k = value) hcond fun {δ a} _ => hread δ a
    obtain ⟨s, hrun, hcounts⟩ := ih hone hpins
    refine ⟨s, ?_, hcounts.congr fun δ => ?_⟩
    · have hstep : (do
          let b ← Encoder.bit k
          Encoder.assert (if value then b else -b) : EncodeM Unit).run.run e = (.ok (), _) :=
        (Encodes.run_bind (bit_run hl)).trans (assert_run' _ e)
      exact (Encodes.run_bind (f := fun _ => Session.pin pins) hstep).trans hrun
    · rw [List.forall_mem_cons, and_assoc]

/-- A window is asserted. -/
theorem Counts.window (h : e.Counts keys P count f) (lower upper : Nat) :
    ∃ e' l, (do Encoder.assert (← Encoder.checked (count.window lower upper)) : EncodeM Unit).run.run e =
        (.ok (), { e' with solver := ((Solver.assert l).run e'.solver).2 }) ∧ e.GrowsTo e' ∧ l.var < e'.solver.vars ∧
      { e' with solver := ((Solver.assert l).run e'.solver).2 }.Offers keys fun δ => P δ ∧ lower ≤ f δ ∧ f δ < upper := by
  obtain ⟨l, e', hrun, hgrow, hlt, hwindow⟩ :=
    Encodes.checked (Count.window_means count h.offers.ready.wellFormed h.lt lower upper)
  have hconserves := hgrow.solver.conserves h.offers.ready.wellFormed
  have hcounts := h.conserve hgrow.vars hconserves
  refine ⟨e', l, (Encodes.run_bind hrun).trans (assert_run' l e'), hgrow, hlt, ?_⟩
  refine hcounts.offers.assert (Q := fun δ => lower ≤ f δ ∧ f δ < upper) hlt fun {δ a} ha => ?_
  have hresp := hgrow.solver.wellFormed.respects (Solver.problem_eval.mp ha).2
  rw [hwindow a (f (e'.read δ a)) hresp (hcounts.is ha), decide_eq_true_eq]

/-! ## The model of a check -/

/-- The model that is read takes the decisions of the solution that the check found. -/
theorem Ready.extract {a : Assignment} (h : e.Ready keys) (hmodel : e.solver.model = some a) :
    ∃ m, e.store.extract e.solver = .ok m ∧ m.isSet = e.read (fun _ => false) a := by
  have hread (entries : List (Key × Word)) :
      (entries.mapM fun x => do return (x.1, ← e.solver.wordValue x.2) : Except Solver.Error (List (Key × Nat))) =
        .ok (entries.map fun x => (x.1, Word.toNat a (x.2.take 64))) := by
    induction entries with
    | nil => rfl
    | cons x entries ih =>
      rw [List.mapM_cons, ih]
      unfold Solver.wordValue Solver.currentModel
      rw [hmodel]
      rfl
  refine ⟨.ofList (e.store.vars.toList.map fun x => (x.1, Word.toNat a (x.2.take 64))), ?_, ?_⟩
  · unfold Store.extract
    dsimp only
    rw [hread]
    rfl
  funext k
  have hget : (Model.ofList (e.store.vars.toList.map fun x => (x.1, Word.toNat a (x.2.take 64)))).get? k =
      e.store.vars[k]?.map fun w => Word.toNat a (w.take 64) := by
    refine getElem?_foldl_insert (fun {v} hv => ?_) fun hnone => ?_
    · obtain ⟨x, hx, heq⟩ := List.mem_map.mp hv
      obtain ⟨rfl, rfl⟩ := Prod.mk.inj heq
      rw [Std.TreeMap.mem_toList_iff_getElem?_eq_some.mp hx]
      rfl
    · cases hw : e.store.vars[k]? with
      | none => simp
      | some w =>
        refine absurd (List.mem_map.mpr ⟨(k, w), Std.TreeMap.mem_toList_iff_getElem?_eq_some.mpr hw, rfl⟩) (hnone _)
  unfold Model.isSet
  rw [hget]
  cases hw : e.store.vars[k]? with
  | none => simp [read, literal?, hw]
  | some w =>
    obtain ⟨l, hl⟩ := h.declared k (h.only (by simp [hw]))
    have hword : w = [l] := by
      unfold literal? at hl
      rw [hw] at hl
      split at hl
      · next l' heq => rw [Option.some.inj heq, Option.some.inj hl]
      · cases hl
    rw [read_of_literal? hl, hword]
    cases hv : l.eval a <;> simp [Word.toNat, hv]

end Encoder

end PlaceRoute
