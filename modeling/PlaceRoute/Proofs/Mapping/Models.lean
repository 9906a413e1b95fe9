import PlaceRoute.Proofs.Mapping.Families
import PlaceRoute.Proofs.Solver.Scope
import PlaceRoute.Session.Basic
import Mathlib.Data.List.Nodup

/-!
# Encoders whose models are the decisions that satisfy a condition

`Encoder.Models e keys P`: outside of scopes, the satisfying assignments of the clauses take exactly the decisions that
satisfy `P`. Declaring keys leaves all decisions open (`declareAll_models`), and asserting the formula of a family adds
what it asks for (`generate_models`).
-/

namespace PlaceRoute

open PlaceRoute.Sat (Literal Clause Cnf Assignment AgreeBelow)
open Solver (Builds Succeeds Means)

namespace Encoder

/-- The clauses hold for decisions that satisfy `P` and for no other. -/
structure Models (e : Encoder) (keys : List Key) (P : (Key → Bool) → Prop) : Prop where
  ready : e.Ready keys
  scopes : e.solver.scopes = []
  sound : ∀ {δ : Key → Bool} {a : Assignment}, e.solver.Holds a → P (e.read δ a)
  complete : ∀ {δ : Key → Bool}, P δ → ∃ a, e.solver.Holds a ∧ e.read δ a = δ

variable {e e' : Encoder} {keys : List Key} {P Q : (Key → Bool) → Prop}

theorem Models.congr (h : e.Models keys P) (hpq : ∀ δ, P δ ↔ Q δ) : e.Models keys Q :=
  ⟨h.ready, h.scopes, fun ha => (hpq _).mp (h.sound ha), fun hq => h.complete ((hpq _).mpr hq)⟩

theorem assert_run' (l : Literal) (e : Encoder) :
    (Encoder.assert l).run.run e = (.ok (), { e with solver := ((Solver.assert l).run e.solver).2 }) := rfl

/-! ## Declaring keys -/

theorem models_new : new.Models [] fun _ => True where
  ready := ⟨Solver.wellFormed_new, fun {k l} hl => by simp [literal?, new, Store.empty] at hl, nofun,
    fun {k} hk => by simp [new, Store.empty] at hk⟩
  scopes := rfl
  sound _ := trivial
  complete {δ} _ := by
    refine ⟨fun _ => true, rfl, ?_⟩
    funext k
    simp [read, literal?, new, Store.empty]

theorem declare_run {k : Key} (hk : e.store.vars.contains k = false) (n : Nat) :
    (declare k n).run.run e = (.ok ((Solver.freshWord n).run e.solver).1,
      ⟨((Solver.freshWord n).run e.solver).2,
        { e.store with vars := e.store.vars.insert k ((Solver.freshWord n).run e.solver).1 }⟩) := by
  show (if e.store.vars.contains k = true then _ else _ : EncodeM Word).run.run e = _
  rw [hk]
  rfl

theorem contains_iff {k : Key} : e.store.vars.contains k = true ↔ e.store.vars[k]? ≠ none := by
  rw [Std.TreeMap.contains_eq_isSome_getElem?, Option.isSome_iff_ne_none]

/-- One more key, to which both values are open. -/
theorem Models.declare {k : Key} (h : e.Models keys fun _ => True) (hk : k ∉ keys) :
    ∃ e', (discard (Encoder.declare k 1)).run.run e = (.ok (), e') ∧ e'.Models (k :: keys) fun _ => True := by
  have hnot : e.store.vars.contains k = false := by
    rw [Bool.eq_false_iff]
    exact fun hc => hk (h.ready.only (contains_iff.mp hc))
  obtain ⟨hst, hfree⟩ := Solver.freshWord_free 1 h.ready.wellFormed
  obtain ⟨l, hl⟩ := List.length_eq_one_iff.mp hfree.width
  obtain ⟨t, ht⟩ : ∃ t, ((Solver.freshWord 1).run e.solver).2 = t := ⟨_, rfl⟩
  rw [hl, ht] at hfree
  rw [ht] at hst
  have hrun := (Encodes.run_bind (f := fun _ => pure ()) (declare_run hnot 1)).trans rfl
  rw [hl, ht] at hrun
  have hget (k' : Key) : (e.store.vars.insert k [l])[k']? = if k = k' then some [l] else e.store.vars[k']? := by
    rw [Std.TreeMap.getElem?_insert]
    simp
  have hlit (k' : Key) : literal? ⟨t, { e.store with vars := e.store.vars.insert k [l] }⟩ k' =
      if k = k' then some l else e.literal? k' := by
    unfold literal?
    rw [hget k']
    by_cases hkk : k = k' <;> simp [hkk]
  refine ⟨_, hrun, ⟨⟨hst.wellFormed, ?_, ?_, ?_⟩, hst.scopes.trans h.scopes, fun _ => trivial, ?_⟩⟩
  · intro k' l' hl'
    rw [hlit] at hl'
    split at hl'
    · rw [← Option.some.inj hl']
      exact hfree.lt l List.mem_cons_self
    · exact Nat.lt_of_lt_of_le (h.ready.lt hl') hst.vars_le
  · intro k' hk'
    rw [hlit]
    split
    · exact ⟨l, rfl⟩
    · next hne => exact h.ready.declared k' ((List.mem_cons.mp hk').resolve_left (Ne.symm hne))
  · intro k' hk'
    rw [hget] at hk'
    split at hk'
    · next heq => exact heq ▸ List.mem_cons_self
    · exact List.mem_cons_of_mem _ (h.ready.only hk')
  · intro δ _
    obtain ⟨a, ha, hread⟩ := h.complete (δ := δ) trivial
    obtain ⟨b, hab, hb, hbits⟩ := hfree.extend (h.ready.wellFormed.respects ha) [δ k] rfl
    refine ⟨b, (hst.holds hb).mpr (ha.congr h.ready.wellFormed hab), ?_⟩
    funext k'
    by_cases hkk : k = k'
    · subst hkk
      rw [read_of_literal? ((hlit k).trans (if_pos rfl))]
      exact (List.cons.inj hbits).1
    · rw [h.ready.read_congr hab] at hread
      rw [← congrFun hread k', read, read, hlit, if_neg hkk]

/-- Declaring keys leaves all decisions open. -/
theorem declare_models (keys : List Key) {more : List Key} (hnodup : (keys ++ more).Nodup)
    (h : e.Models keys fun _ => True) : ∃ e', (more.forM fun k => discard (Encoder.declare k 1)).run.run e = (.ok (), e') ∧
      e'.Models (keys ++ more) fun _ => True := by
  induction more generalizing e keys with
  | nil => exact ⟨e, rfl, by rwa [List.append_nil]⟩
  | cons k more ih =>
    have hk : k ∉ keys := fun hk => (List.nodup_append.mp hnodup).2.2 k hk k List.mem_cons_self rfl
    obtain ⟨e₁, hrun, h₁⟩ := h.declare hk
    obtain ⟨e₂, hrun', h₂⟩ := ih _ (List.perm_middle.nodup_iff.mp hnodup) h₁
    refine ⟨e₂, (Encodes.run_bind (f := fun _ => more.forM _) hrun).trans hrun', ⟨⟨h₂.ready.wellFormed, h₂.ready.lt,
      fun k' hk' => h₂.ready.declared k' (List.perm_middle.mem_iff.mp hk'),
      fun hk' => List.perm_middle.mem_iff.mpr (h₂.ready.only hk')⟩, h₂.scopes, fun _ => trivial, h₂.complete⟩⟩

end Encoder

/-! ## Keys of all decisions -/

theorem allKeys_nodup {g : Graph} {d : Design} (hg : g.WellWired) (hd : d.WellWired) : (allKeys g d).Nodup := by
  have hops := hd.nodup_operations
  have hvalues := hd.nodup_values
  have hplace (u : NodeId) : (d.operations.map fun op => Key.place u op.id).Nodup := by
    have h := hops.map (f := Key.place u) fun i j hij => (Key.place.inj hij).2
    rwa [List.map_map] at h
  have hflow (n : NodeId) (v : Value) (hv : v ∈ d.values) :
      (Key.route n v.id :: v.dsts.map fun t => Key.routeTo n v.id t).Nodup := by
    refine List.nodup_cons.mpr ⟨by simp, (hd.dsts_nodup hv).map fun t t' ht => (Key.routeTo.inj ht).2.2⟩
  refine List.nodup_append.mpr ⟨List.nodup_flatMap.mpr ⟨fun u _ => hplace u, ?_⟩,
    List.nodup_flatMap.mpr ⟨fun n _ => List.nodup_flatMap.mpr ⟨fun v hv => hflow n v hv, ?_⟩, ?_⟩, ?_⟩
  · refine hg.units_nodup.imp fun {u w} hne => List.disjoint_left.mpr fun k hk hk' => ?_
    obtain ⟨op, -, rfl⟩ := List.mem_map.mp hk
    obtain ⟨op', -, heq⟩ := List.mem_map.mp hk'
    exact hne (Key.place.inj heq).1.symm
  · refine (List.pairwise_map.mp hvalues).imp fun {v w} hne => List.disjoint_left.mpr fun k hk hk' => ?_
    have hitem {v : Value} (hk : k ∈ Key.route n v.id :: v.dsts.map fun t => Key.routeTo n v.id t) : k.item = v.id := by
      rcases List.mem_cons.mp hk with rfl | hk
      · rfl
      · obtain ⟨t, -, rfl⟩ := List.mem_map.mp hk
        rfl
    exact hne ((hitem hk).symm.trans (hitem hk'))
  · refine hg.nodup_ids.imp fun {n m} hne => List.disjoint_left.mpr fun k hk hk' => ?_
    have hnode {n : NodeId} (hk : k ∈ d.values.flatMap fun v => Key.route n v.id :: v.dsts.map fun t =>
        Key.routeTo n v.id t) : k.node = n := by
      obtain ⟨v, -, hk⟩ := List.mem_flatMap.mp hk
      rcases List.mem_cons.mp hk with rfl | hk
      · rfl
      · obtain ⟨t, -, rfl⟩ := List.mem_map.mp hk
        rfl
    exact hne ((hnode hk).symm.trans (hnode hk'))
  · intro k hk k' hk' heq
    obtain ⟨u, -, hk⟩ := List.mem_flatMap.mp hk
    obtain ⟨op, -, rfl⟩ := List.mem_map.mp hk
    obtain ⟨n, -, hk'⟩ := List.mem_flatMap.mp hk'
    obtain ⟨v, -, hk'⟩ := List.mem_flatMap.mp hk'
    rw [← heq] at hk'
    simp at hk'

/-! ## Asserting families -/

namespace Encoder

variable {e e' : Encoder} {keys : List Key} {P Q : (Key → Bool) → Prop}

/-- An assertion outside of scopes. -/
theorem assert_holds (hscopes : e.solver.scopes = []) (l : Literal) {a : Assignment} :
    { e with solver := ((Solver.assert l).run e.solver).2 }.solver.Holds a ↔ l.eval a = true ∧ e.solver.Holds a := by
  rw [Solver.assert_run]
  refine Solver.holds_cons.trans (and_congr_left' ?_)
  rw [Solver.guard, hscopes]
  simp [Clause.eval]

theorem Ready.assert {l : Literal} (h : e.Ready keys) (hl : l.var < e.solver.vars) (hscopes : e.solver.scopes = []) :
    { e with solver := ((Solver.assert l).run e.solver).2 }.Ready keys := by
  have hguard : Solver.guard e.solver = [] := by rw [Solver.guard, hscopes]; rfl
  rw [Solver.assert_run, hguard]
  exact ⟨h.wellFormed.with (List.forall_mem_singleton.mpr (List.forall_mem_singleton.mpr hl)) h.wellFormed.scopes_lt _ _,
    h.lt, h.declared, h.only⟩

/-- Terms that capture a condition, all of them asserted at once. -/
theorem Models.assert {terms : List Literal} {formula : Literal} (h : e.Models keys P) (hgrow : e.GrowsTo e')
    (hterms : Captures e e' terms Q) (hformula : e'.solver.Means formula fun a => terms.all (·.eval a)) :
    { e' with solver := ((Solver.assert formula).run e'.solver).2 }.Models keys fun δ => P δ ∧ Q δ := by
  have hscopes : e'.solver.scopes = [] := hgrow.solver.scopes.trans h.scopes
  have hread (δ : Key → Bool) (a : Assignment) :
      { e' with solver := ((Solver.assert formula).run e'.solver).2 }.read δ a = e.read δ a := hgrow.read
  have hwf := hgrow.solver.wellFormed
  refine ⟨(h.ready.grow hgrow).assert hformula.lt hscopes, ?_, fun {δ a} ha => ?_, fun {δ} hpq => ?_⟩
  · rw [Solver.assert_run]
    exact hscopes
  · obtain ⟨hl, ha⟩ := (assert_holds hscopes formula).mp ha
    have hresp := hwf.respects ha
    rw [hformula.eval hresp, List.all_eq_true] at hl
    rw [hread]
    exact ⟨h.sound ((hgrow.solver.holds hresp).mp ha), hterms.sound hresp hl⟩
  · obtain ⟨a, ha, hδ⟩ := h.complete hpq.1
    have hq : Q (e.read δ a) := by
      rw [hδ]
      exact hpq.2
    obtain ⟨b, hab, hb, hall⟩ := hterms.complete (h.ready.wellFormed.respects ha) hq
    refine ⟨b, (assert_holds hscopes formula).mpr ⟨?_, ?_⟩, ?_⟩
    · rw [hformula.eval hb, List.all_eq_true]
      exact hall
    · exact (hgrow.solver.holds hb).mpr (ha.congr h.ready.wellFormed hab)
    · rw [hread, ← h.ready.read_congr hab, hδ]

end Encoder

/-- The formula of a family is the conjunction of terms that capture it. -/
theorem Family.generate_captures {g : Graph} {d : Design} {e : Encoder} (hd : d.WellWired) (hg : g.WellWired)
    (he : e.Ready (allKeys g d)) (f : Family) : Encodes (f.generate g d) e fun formula e' => ∃ terms,
      Captures e e' terms (fun δ => f.Holds g d δ) ∧ e'.solver.Means formula fun a => terms.all (·.eval a) := by
  refine (Family.terms_captures hd hg he f).bind fun terms e₁ h₁ hterms => ?_
  refine (Encodes.build (Solver.andAll_means h₁.solver.wellFormed hterms.lt)).mono fun formula e₂ h₂ hformula => ?_
  exact ⟨terms, hterms.before h₂ h₁, hformula⟩

section
variable {p : Problem} {e : Encoder} {P : (Key → Bool) → Prop}

/-- Asserting one family. -/
theorem generate_one (hg : p.graph.WellWired) (hd : p.design.WellWired) (h : e.Models (allKeys p.graph p.design) P)
    (f : Family) : ∃ e', (do
      let formula ← f.generate p.graph p.design
      Encoder.assert formula : EncodeM Unit).run.run e = (.ok (), e') ∧
      e'.Models (allKeys p.graph p.design) fun δ => P δ ∧ f.Holds p.graph p.design δ := by
  obtain ⟨formula, e₁, hrun, h₁, terms, hterms, hformula⟩ := f.generate_captures hd hg h.ready
  exact ⟨_, (Encodes.run_bind hrun).trans (Encoder.assert_run' formula e₁), h.assert h₁ hterms hformula⟩

/-- Asserting families adds what they ask for, in any order and however often. -/
theorem generate_models (hg : p.graph.WellWired) (hd : p.design.WellWired) (families : List Family)
    (h : e.Models (allKeys p.graph p.design) P) :
    ∃ e', (Session.generate p families).run.run e = (.ok (), e') ∧
      e'.Models (allKeys p.graph p.design) fun δ => P δ ∧ ∀ f ∈ families, f.Holds p.graph p.design δ := by
  induction families generalizing e P with
  | nil => exact ⟨e, rfl, h.congr fun δ => by simp⟩
  | cons f families ih =>
    obtain ⟨e₁, hrun, h₁⟩ := generate_one hg hd h f
    obtain ⟨e₂, hrun', h₂⟩ := ih h₁
    refine ⟨e₂, (Encodes.run_bind (f := fun _ => families.forM _) hrun).trans hrun', h₂.congr fun δ => ?_⟩
    rw [List.forall_mem_cons, and_assoc]

/-- A new encoder with the families asserted on declared decisions. -/
theorem encode_models (hg : p.graph.WellWired) (hd : p.design.WellWired) (families : List Family) :
    ∃ e, (do
      declareAll p.graph p.design
      Session.generate p families : EncodeM Unit).run.run .new = (.ok (), e) ∧
      e.Models (allKeys p.graph p.design) fun δ => ∀ f ∈ families, f.Holds p.graph p.design δ := by
  obtain ⟨e₁, hrun, h₁⟩ := Encoder.declare_models [] (allKeys_nodup hg hd) Encoder.models_new
  obtain ⟨e₂, hrun', h₂⟩ := generate_models hg hd families h₁
  exact ⟨e₂, (Encodes.run_bind hrun).trans hrun', h₂.congr fun δ => by rw [true_and]⟩

end

end PlaceRoute
