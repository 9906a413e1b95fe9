import PlaceRoute.Proofs.Mapping.Offers
import PlaceRoute.Proofs.Session.Steps

/-!
# Solver calls of a session

From an encoder that offers the decisions satisfying `P`, a call finds such decisions exactly if there are any
(`solveModel_leads`). A probe finds those of them whose count lies in a window (`probe_leads`); what is done in a scope of its own
leaves decisions and count as they were (`inScope_leads`). `rebuild_leads` starts over with families, count and pins.
-/

namespace PlaceRoute

open PlaceRoute.Sat (Literal Assignment)

/-- What a call found of the decisions about `keys` that satisfy `P`. -/
def Finds (keys : List Key) (P : (Key → Bool) → Prop) : Option Model → Prop
  | some m => (∀ {k : Key}, m.isSet k = true → k ∈ keys) ∧ P m.isSet
  | none => ∀ δ, ¬ P δ

theorem Finds.congr {keys : List Key} {P Q : (Key → Bool) → Prop} {found : Option Model} (h : Finds keys P found)
    (hpq : ∀ δ, P δ ↔ Q δ) : Finds keys Q found := by
  cases found with
  | none => exact fun δ hδ => h δ ((hpq δ).mpr hδ)
  | some m => exact ⟨h.1, (hpq _).mp h.2⟩

instance {keys : List Key} {P : (Key → Bool) → Prop} {m : Model} [Decidable (P m.isSet)] : Decidable (Finds keys P (some m)) :=
  decidable_of_iff' _ (and_congr_left' (Model.forall_isSet_iff (P := (· ∈ keys))))

/-- Only what the last check left behind differs. -/
structure Encoder.Rechecked (e e' : Encoder) : Prop where
  store : e'.store = e.store
  solver : ∃ checks model, e'.solver = { e.solver with checks := checks, model := model }

theorem Encoder.Rechecked.conserves {e e' : Encoder} (h : e.Rechecked e') (he : e.solver.WellFormed) :
    e.solver.Conserves e'.solver := by
  obtain ⟨checks, model, hsolver⟩ := h.solver
  rw [hsolver]
  exact ⟨he.with (List.forall_mem_nil _) he.scopes_lt _ _, Nat.le_refl _, rfl, id, fun ha => ⟨_, .refl _ _, ha⟩⟩

section
variable {p : Problem} {keys : List Key} {P : (Key → Bool) → Prop} {count : Count} {f : (Key → Bool) → Nat}
  {excused : Prop} {s : Session}

/-! ## One call -/

/-- The model of a call takes the decisions of the assignment that the engine found. -/
theorem solveModel_answers (h : s.encoder.Ready keys) :
    Leads excused (Session.solveModel p) s fun found s' => s.encoder.Rechecked s'.encoder ∧
      match p.engine.solve s.encoder.solver.problem with
      | some a => ∃ m, found = some m ∧ m.isSet = s.encoder.read (fun _ => false) a
      | none => found = none := by
  have hwf := h.wellFormed
  generalize hanswer : p.engine.solve s.encoder.solver.problem = answer
  have hbuild : (Encoder.build (Solver.check p.engine)).run.run s.encoder = (.ok answer.isSome, { s.encoder with
      solver := { s.encoder.solver with
        checks := s.encoder.solver.checks + 1, model := answer.map (Solver.restrict s.encoder.solver.vars) } }) := by
    show (Except.ok ((Solver.check p.engine).run s.encoder.solver).1,
      { s.encoder with solver := ((Solver.check p.engine).run s.encoder.solver).2 }) = _
    rw [Solver.check_run, hanswer]
  have hsolve : Leads excused (Session.solve p) s fun sat s' => sat = answer.isSome ∧ s'.encoder = { s.encoder with
      solver := { s.encoder.solver with
        checks := s.encoder.solver.checks + 1, model := answer.map (Solver.restrict s.encoder.solver.vars) } } := by
    refine (Leads.modify _).bind fun _ s₁ h₁ => ?_
    have hencoder : s₁.encoder = s.encoder := by rw [h₁]
    rw [← hencoder] at hbuild ⊢
    refine Leads.now.bind fun start s₂ h₂ => ?_
    subst h₂
    refine (Leads.encode hbuild).bind fun sat s₃ h₃ => ?_
    obtain ⟨rfl, h₃⟩ := h₃
    refine Leads.now.bind fun stop s₄ h₄ => ?_
    subst h₄
    refine (Leads.modify _).bind fun _ s₅ h₅ => ?_
    subst h₅
    exact Leads.pure ⟨rfl, h₃⟩
  refine hsolve.bind fun sat s' hs' => ?_
  obtain ⟨rfl, hs'⟩ := hs'
  have hrechecked : s.encoder.Rechecked s'.encoder := by
    rw [hs']
    exact ⟨rfl, _, _, rfl⟩
  cases answer with
  | none => exact Leads.pure ⟨hrechecked, rfl⟩
  | some a =>
    have hready : s'.encoder.Ready keys := by
      rw [hs']
      exact h.of_vars rfl (hwf.with (List.forall_mem_nil _) hwf.scopes_lt _ _) (Nat.le_refl _)
    obtain ⟨m, hextract, hset⟩ := hready.extract (by rw [hs']; rfl)
    have hdecisions : m.isSet = s.encoder.read (fun _ => false) a := by
      rw [hset, Encoder.read_of_vars (congrArg Store.vars hrechecked.store)]
      exact h.read_congr (Solver.agreeBelow_restrict _ a)
    have hread : Leads excused Session.extract s' fun m' s₁ => m' = m ∧ s₁ = s' := by
      refine Leads.get.bind fun s₁ s₂ h₂ => ?_
      obtain ⟨rfl, rfl⟩ := h₂
      exact Leads.ofResult hextract ⟨rfl, rfl⟩
    refine hread.bind fun m' s₁ h₁ => ?_
    obtain ⟨rfl, rfl⟩ := h₁
    exact Leads.pure ⟨hrechecked, m', rfl, hdecisions⟩

theorem solveModel_leads (hengine : p.engine.Correct) (h : s.encoder.Offers keys P) :
    Leads excused (Session.solveModel p) s fun found s' => s.encoder.Rechecked s'.encoder ∧ Finds keys P found := by
  refine (solveModel_answers h.ready).mono fun found s' h' => ⟨h'.1, ?_⟩
  have hfound := h'.2
  cases hanswer : p.engine.solve s.encoder.solver.problem with
  | none =>
    rw [hanswer] at hfound
    obtain rfl := hfound
    intro δ hδ
    obtain ⟨a, ha, -⟩ := h.complete hδ
    exact hengine.complete hanswer ⟨a, ha⟩
  | some a =>
    rw [hanswer] at hfound
    obtain ⟨m, rfl, hset⟩ := hfound
    refine ⟨fun {k} hk => h.ready.only fun hnone => ?_, hset ▸ h.sound (hengine.sound hanswer)⟩
    simp [hset, Encoder.read, Encoder.literal?, hnone] at hk

/-- A call finds the decisions that the engine answers with. -/
theorem solveModel_finds {m : Model} {a : Assignment} (h : s.encoder.Ready keys)
    (hanswer : p.engine.solve s.encoder.solver.problem = some a) (hdeclared : ∀ {k : Key}, m.isSet k = true → k ∈ keys)
    (hread : s.encoder.read m.isSet a = m.isSet) :
    Leads excused (Session.solveModel p) s fun found _ => ∃ m', found = some m' ∧ m'.isSet = m.isSet := by
  refine (solveModel_answers h).mono fun found s' h' => ?_
  have hfound := h'.2
  rw [hanswer] at hfound
  obtain ⟨m', rfl, hset⟩ := hfound
  exact ⟨m', rfl, hset.trans (h.read_eq_of_declared (δ := m.isSet) hdeclared hread)⟩

/-- The first half of a probe: only decisions whose count lies in a window are left on offer. -/
def Session.narrow (count : Count) (lower upper : Nat) : SessionM Unit :=
  Session.encode do Encoder.assert (← Encoder.checked (count.window lower upper))

theorem Session.probe_eq (lower upper : Nat) :
    Session.probe p count lower upper = (Session.narrow count lower upper >>= fun _ => Session.solveModel p) := rfl

/-- Variables stay declared as they are, and what is open stays open. -/
structure Encoder.Within (e e' : Encoder) : Prop where
  vars : e'.store.vars = e.store.vars
  scope : ∀ {base : Solver} {act : Literal}, base.Scoped e.solver act → base.Scoped e'.solver act

theorem Encoder.Within.trans {e e' e'' : Encoder} (h : e.Within e') (h' : e'.Within e'') : e.Within e'' :=
  ⟨h'.vars.trans h.vars, fun hscoped => h'.scope (h.scope hscoped)⟩

theorem Encoder.Rechecked.within {e e' : Encoder} (h : e.Rechecked e') : e.Within e' := by
  obtain ⟨hstore, checks, model, hsolver⟩ := h
  refine ⟨by rw [hstore], fun hscoped => ?_⟩
  rw [hsolver]
  exact hscoped.check _ _

/-- All sessions are narrowed alike. -/
theorem exists_narrowed {e : Encoder} (h : e.Counts keys P count f) (lower upper : Nat) :
    ∃ e', e'.Offers keys (fun δ => P δ ∧ lower ≤ f δ ∧ f δ < upper) ∧ e.Within e' ∧
      ∀ {excused : Prop} (s : Session), s.encoder = e →
        Leads excused (Session.narrow count lower upper) s fun _ s' => s'.encoder = e' := by
  obtain ⟨e', l, hrun, hgrow, hl, hoffers⟩ := h.window lower upper
  refine ⟨_, hoffers, ⟨hgrow.vars, fun hscoped => (hscoped.grow hgrow.solver).assert hl⟩, fun s hs => ?_⟩
  rw [← hs] at hrun
  exact (Leads.encode hrun).mono fun _ _ h₁ => h₁.2

theorem narrow_leads (h : s.encoder.Counts keys P count f) (lower upper : Nat) :
    Leads excused (Session.narrow count lower upper) s fun _ s' =>
      s'.encoder.Offers keys (fun δ => P δ ∧ lower ≤ f δ ∧ f δ < upper) ∧ s.encoder.Within s'.encoder := by
  obtain ⟨e', hoffers, hwithin, hrun⟩ := exists_narrowed h lower upper
  refine (hrun s rfl).mono fun _ s₁ h₁ => ?_
  rw [h₁]
  exact ⟨hoffers, hwithin⟩

/-- A model whose count lies in a window. -/
theorem probe_leads (hengine : p.engine.Correct) (h : s.encoder.Counts keys P count f) (lower upper : Nat) :
    Leads excused (Session.probe p count lower upper) s fun found s' =>
      Finds keys (fun δ => P δ ∧ lower ≤ f δ ∧ f δ < upper) found ∧ s.encoder.Within s'.encoder := by
  rw [Session.probe_eq]
  refine (narrow_leads h lower upper).bind fun _ s₁ h₁ => ?_
  exact (solveModel_leads hengine h₁.1).mono fun found s₂ h₂ => ⟨h₂.2, h₁.2.trans h₂.1.within⟩

/-- Steps in a scope of their own leave decisions and count as they were. -/
theorem inScope_leads {α : Type} {m : SessionM α} {post : α → Prop} (h : s.encoder.Counts keys P count f)
    (hm : ∀ s' : Session, s'.encoder.Counts keys P count f →
      Leads excused m s' fun x s'' => post x ∧ s'.encoder.Within s''.encoder) :
    Leads excused (Session.inScope m) s fun x s' => post x ∧ s'.encoder.Counts keys P count f := by
  have hwf := h.offers.ready.wellFormed
  refine Leads.inScope fun s₁ h₁ => ?_
  refine (hm s₁ (h₁ ▸ h.push)).mono fun x s₂ h₂ => ?_
  obtain ⟨hx, hwithin⟩ := h₂
  have hscope : s.encoder.solver.Scoped s₂.encoder.solver (Solver.fresh.run s.encoder.solver).1 :=
    hwithin.scope (by rw [h₁]; exact Solver.scoped_push hwf)
  obtain ⟨t, hpop, hconserves⟩ := hscope.pop
  refine ⟨t, hpop, fun s₃ h₃ => ⟨hx, h.conserve ?_ ?_⟩⟩
  · rw [h₃]
    exact hwithin.vars.trans (congrArg (fun e => e.store.vars) h₁)
  · rw [h₃]
    exact hconserves

theorem inScope_probe_leads (hengine : p.engine.Correct) (h : s.encoder.Counts keys P count f) (lower upper : Nat) :
    Leads excused (Session.inScope (Session.probe p count lower upper)) s fun found s' =>
      Finds keys (fun δ => P δ ∧ lower ≤ f δ ∧ f δ < upper) found ∧ s'.encoder.Counts keys P count f :=
  inScope_leads h fun _ h' => probe_leads hengine h' lower upper

/-! ## Starting over -/

/-- Whatever a session held and whichever engine is used, starting over ends with the same encoder. -/
theorem exists_rebuilt {g : Graph} {d : Design} (hg : g.WellWired) (hd : d.WellWired) (o : Objective) (families : List Family)
    {pins : List (Key × Bool)} (hpins : ∀ x ∈ pins, x.1 ∈ allKeys g d) :
    ∃ e count, e.Counts (allKeys g d) (fun δ => (∀ f ∈ families, f.Holds g d δ) ∧ ∀ x ∈ pins, δ x.1 = x.2) count
        (o.carried g d) ∧
      ∀ {excused : Prop} (engine : Sat.Engine) (s : Session),
        Leads excused (Session.rebuild ⟨g, d, engine⟩ o families pins) s fun count' s' =>
          count' = count ∧ s'.encoder = e := by
  obtain ⟨e₁, hdeclare, h₁⟩ := Encoder.declare_models [] (allKeys_nodup hg hd) Encoder.models_new
  obtain ⟨e₂, hgenerate, h₂⟩ := generate_models (p := ⟨g, d, Sat.exhaustive⟩) hg hd families h₁
  obtain ⟨⟨defined, count⟩, e₃, hcount, hgrow, hdefines⟩ := o.encode_defines h₂.ready
  have hcounts := (h₂.counts hgrow hdefines).congr fun δ => iff_of_eq (true_and _)
  obtain ⟨t, hpin, hpinned⟩ := hcounts.pin hpins
  refine ⟨_, count, hpinned, fun engine s => (Leads.modify _).bind fun _ s₁ hs₁ => ?_⟩
  have hnew : s₁.encoder = .new := by rw [hs₁]
  rw [← hnew] at hdeclare
  refine (Leads.build hdeclare).bind fun _ s₂ hs₂ => ?_
  rw [← hs₂.2] at hgenerate
  have hbuild : (do
      Session.generate ⟨g, d, engine⟩ families
      let r ← o.encode g d
      Encoder.assert r.1
      Session.pin pins
      pure r.2 : EncodeM Count).run.run s₂.encoder = (.ok count, _) :=
    (Encodes.run_bind hgenerate).trans <| (Encodes.run_bind hcount).trans <|
      (Encodes.run_bind (Encoder.assert_run' defined e₃)).trans <| (Encodes.run_bind hpin).trans rfl
  exact Leads.build hbuild

theorem rebuild_leads (hg : p.graph.WellWired) (hd : p.design.WellWired) (o : Objective) (families : List Family)
    {pins : List (Key × Bool)} (hpins : ∀ x ∈ pins, x.1 ∈ allKeys p.graph p.design) :
    Leads excused (Session.rebuild p o families pins) s fun count s' =>
      s'.encoder.Counts (allKeys p.graph p.design)
        (fun δ => (∀ f ∈ families, f.Holds p.graph p.design δ) ∧ ∀ x ∈ pins, δ x.1 = x.2) count
        (o.carried p.graph p.design) := by
  obtain ⟨e, count, hcounts, hrun⟩ := exists_rebuilt hg hd o families hpins
  refine (hrun p.engine s).mono fun count' s' h => ?_
  obtain ⟨rfl, rfl⟩ := h
  exact hcounts

end
end PlaceRoute
