import PlaceRoute.Proofs.Session.Found
import PlaceRoute.Proofs.Session.Search

/-!
# Steps of a search over any families

What one step of a search does, whichever families it is about: what the solver of an incremental search holds (`Search.Loaded`), and
what an answer makes of the search (`Search.Answered`, `advanceFound_leads`). A model that is scored has also passed the check, if models
are checked (`score_leads`). What freezing and probing keep is kept by the whole search (`searchFound_induction`).
-/

namespace PlaceRoute

section
variable {p : Problem} {o : SearchOptions} {objective : Objective} {families : List Family} {excused : Prop} {t : Session}
  {s : Search} {m : Model} {bound : Nat}

/-- Steps with a result that is changed afterwards. -/
theorem Leads.map {α β : Type} {x : SessionM α} {f : α → β} {post : β → Session → Prop}
    (h : Leads excused x t fun a => post (f a)) : Leads excused (f <$> x) t post := by
  rw [map_eq_pure_bind]
  exact h.bind fun _ _ => Leads.pure

/-! ## Scores of models -/

theorem confirm_leads (h : excused ∨ ∃ solution, m.verify p.graph p.design = .ok solution) :
    Leads excused (Session.confirm p m) t fun solution t' =>
      m.verify p.graph p.design = .ok solution ∧ t'.encoder = t.encoder := by
  unfold Session.confirm
  cases hverify : m.verify p.graph p.design with
  | ok solution => exact Leads.pure ⟨rfl, rfl⟩
  | error e =>
    rcases h with h | ⟨solution, h⟩
    · exact (Leads.tell _).bind fun _ _ _ => Leads.throw h
    · rw [hverify] at h
      cases h

theorem exists_eval_of_verify {g : Graph} {d : Design} {solution : Solution} (h : m.verify g d = .ok solution) :
    ∃ c, objective.eval g d m = .ok c := by
  unfold Model.verify at h
  obtain ⟨placements, -, h⟩ := bind_eq_ok h
  obtain ⟨nets, -, h⟩ := bind_eq_ok h
  obtain ⟨paths, hpaths, -⟩ := bind_eq_ok h
  unfold Objective.eval
  rw [hpaths]
  exact ⟨_, rfl⟩

/-- A model has a score, and has passed the check if models are checked. -/
structure Scored (p : Problem) (o : SearchOptions) (objective : Objective) (m : Model) (c : Nat) : Prop where
  eval : objective.eval p.graph p.design m = .ok c
  verify : o.checkModels = true → ∃ solution, m.verify p.graph p.design = .ok solution

theorem score_leads (h : excused ∨ ∃ solution, m.verify p.graph p.design = .ok solution) :
    Leads excused (Session.score p o objective m) t fun c t' => Scored p o objective m c ∧ t'.encoder = t.encoder := by
  have hscore {t' : Session} (ht : t'.encoder = t.encoder)
      (hverify : o.checkModels = true → ∃ solution, m.verify p.graph p.design = .ok solution) :
      Leads excused (Session.ofResult (fun e => .error (.unscorable e)) (objective.eval p.graph p.design m)) t' fun c t'' =>
        Scored p o objective m c ∧ t''.encoder = t.encoder := by
    cases heval : objective.eval p.graph p.design m with
    | ok c => exact Leads.ofResult rfl ⟨⟨heval, hverify⟩, ht⟩
    | error e =>
      rcases h with h | ⟨solution, h⟩
      · exact Leads.throw h
      · obtain ⟨c, hc⟩ : ∃ c, objective.eval p.graph p.design m = .ok c := exists_eval_of_verify h
        rw [heval] at hc
        cases hc
  unfold Session.score
  split
  · have hconfirm : Leads excused (discard (Session.confirm p m)) t fun _ t' =>
        (∃ solution, m.verify p.graph p.design = .ok solution) ∧ t'.encoder = t.encoder := by
      refine (confirm_leads h).bind fun solution t' h' => ?_
      exact ⟨⟨solution, h'.1⟩, h'.2⟩
    exact hconfirm.bind fun _ _ h' => hscore h'.2 fun _ => h'.1
  · next hnot => exact hscore rfl fun h => absurd h hnot

/-! ## What the solver holds -/

/-- In an incremental search the encoder holds the families, the pins and the count. -/
def Search.Loaded (p : Problem) (o : SearchOptions) (objective : Objective) (families : List Family) (s : Search)
    (t : Session) : Prop :=
  o.incremental = true → t.encoder.Counts (allKeys p.graph p.design)
    (fun δ => (∀ f ∈ families, f.Holds p.graph p.design δ) ∧ Pinning s.pins δ) s.count (objective.carried p.graph p.design)

theorem Search.Loaded.congr {s' : Search} {t' : Session} (h : s.Loaded p o objective families t)
    (ht : t'.encoder = t.encoder) (hpins : s'.pins = s.pins) (hcount : s'.count = s.count) :
    s'.Loaded p o objective families t' := by
  intro hincremental
  rw [ht, hpins, hcount]
  exact h hincremental

/-- A search that freezes pins the placement of its best model. -/
theorem freeze_loaded (hloaded : s.Loaded p o objective families t) (hpins : s.pins = none) :
    Leads excused (Session.freeze p o s) t fun s' t' =>
      s' = { s with pins := some (s.best.placementPins p.graph p.design) } ∧ s'.Loaded p o objective families t' := by
  have hrest {t₁ : Session}
      (h₁ : Search.Loaded p o objective families { s with pins := some (s.best.placementPins p.graph p.design) } t₁) :
      Leads excused (do
        Session.tell (.frozen s.lower s.upper)
        pure { s with pins := some (s.best.placementPins p.graph p.design) }) t₁ fun s' t' =>
          s' = { s with pins := some (s.best.placementPins p.graph p.design) } ∧ s'.Loaded p o objective families t' :=
    (Leads.tell _).bind fun _ t₂ h₂ => Leads.pure ⟨rfl, h₁.congr h₂ rfl rfl⟩
  unfold Session.freeze
  dsimp only
  split
  · next hincremental =>
    have hcounts := (hloaded hincremental).congr (Q := fun δ => ∀ f ∈ families, f.Holds p.graph p.design δ) fun δ => by
      simp [Pinning, hpins]
    obtain ⟨solver, hrun, hpinned⟩ := hcounts.pin placementPins_mem_allKeys
    refine (Leads.encode hrun).bind fun _ t₁ h₁ => hrest fun _ => ?_
    rw [h₁.2]
    exact hpinned
  · next hnot => exact hrest fun h => absurd h hnot

/-! ## Probes -/

/-- What becomes of a search after a probe up to a bound: a model that was found is scored. -/
inductive Search.Answered (p : Problem) (o : SearchOptions) (objective : Objective) (families : List Family) (s : Search)
    (bound : Nat) : Option Model → Search → Prop
  | found (count : Count) {m : Model} {c : Nat} : s.Admits p objective families bound (some m) → Scored p o objective m c →
      Answered p o objective families s bound (some m) ({ s with count := count }.improve m c).record
  | refuted (count : Count) : s.Admits p objective families bound none →
      Answered p o objective families s bound none ({ s with count := count }.refute bound).record

section
variable (hg : p.graph.WellWired) (hd : p.design.WellWired) (hengine : p.engine.Correct)
include hg hd hengine

theorem seek_leads (hpins : ∀ x ∈ s.pins.getD [], x.1 ∈ allKeys p.graph p.design)
    (hloaded : s.Loaded p o objective families t) :
    Leads excused (Session.seek p o objective families s bound) t fun r t' =>
      s.Admits p objective families bound r.2 ∧ Search.Loaded p o objective families { s with count := r.1 } t' := by
  have hwanted {found : Option Model} (h : Finds (allKeys p.graph p.design) (fun δ =>
      ((∀ f ∈ families, f.Holds p.graph p.design δ) ∧ Pinning s.pins δ) ∧ s.floor ≤ objective.carried p.graph p.design δ ∧
        objective.carried p.graph p.design δ < bound + 1) found) : s.Admits p objective families bound found :=
    h.congr fun δ => and_assoc
  unfold Session.seek
  split
  · next hincremental =>
    refine (inScope_probe_leads hengine (hloaded hincremental) s.floor (bound + 1)).bind fun found t₁ h₁ => ?_
    exact Leads.pure ⟨hwanted h₁.1, fun _ => h₁.2⟩
  · next hnot =>
    refine (rebuild_leads hg hd objective families hpins).bind fun count t₁ h₁ => ?_
    refine (probe_leads hengine h₁ s.floor (bound + 1)).bind fun found t₂ h₂ => ?_
    exact Leads.pure ⟨hwanted h₂.1, fun h => absurd h hnot⟩

variable (hverify : ∀ m : Model, (∀ {k : Key}, m.isSet k = true → k ∈ allKeys p.graph p.design) →
  (∀ f ∈ families, f.Holds p.graph p.design m.isSet) → excused ∨ ∃ solution, m.verify p.graph p.design = .ok solution)
include hverify

theorem advanceFound_leads (hpins : ∀ x ∈ s.pins.getD [], x.1 ∈ allKeys p.graph p.design)
    (hloaded : s.Loaded p o objective families t) :
    Leads excused (Session.advanceFound p o objective families s bound) t fun r t' =>
      s.Answered p o objective families bound r.2 r.1 ∧ r.1.Loaded p o objective families t' := by
  unfold Session.advanceFound
  refine (seek_leads hg hd hengine hpins hloaded).bind fun r t₁ h₁ => ?_
  obtain ⟨count, found⟩ := r
  obtain ⟨hadmits, hloaded₁⟩ := h₁
  have hnext : Leads excused (Session.settle p o objective { s with count := count } bound found) t₁ fun s' t' =>
      s.Answered p o objective families bound found s'.record ∧ s'.Loaded p o objective families t' := by
    cases found with
    | none => exact Leads.pure ⟨.refuted count hadmits, hloaded₁.congr rfl rfl rfl⟩
    | some m =>
      refine (score_leads (hverify m hadmits.1 hadmits.2.1)).bind fun c t₂ h₂ => ?_
      exact Leads.pure ⟨.found count hadmits h₂.1, hloaded₁.congr h₂.2 rfl rfl⟩
  refine hnext.bind fun s' t₂ h₂ => (Leads.tell _).bind fun _ t₃ h₃ => ?_
  exact Leads.pure ⟨h₂.1, h₂.2.congr h₃ rfl rfl⟩

/-- The first model, if there is one, is scored. -/
theorem firstSearch_loaded : Leads excused (Session.firstSearch p o objective families) t fun found t' =>
    match found with
    | none => ∀ δ, ¬ ∀ f ∈ families, f.Holds p.graph p.design δ
    | some s => Scored p o objective s.best s.upper ∧ s.Loaded p o objective families t' ∧
      Finds (allKeys p.graph p.design) (fun δ => ∀ f ∈ families, f.Holds p.graph p.design δ) (some s.best) ∧
      s = { best := s.best, upper := s.upper, count := s.count, history := [(0, s.upper)] } := by
  unfold Session.firstSearch
  refine (rebuild_leads hg hd objective families (by simp)).bind fun count t₁ h₁ => ?_
  refine (solveModel_leads hengine h₁.offers).bind fun found t₂ h₂ => ?_
  obtain ⟨hrechecked, hfound⟩ := h₂
  cases found with
  | none => exact Leads.pure fun δ hδ => hfound δ ⟨hδ, by simp⟩
  | some m =>
    obtain ⟨hdeclared, hfamilies, -⟩ := hfound
    refine (score_leads (hverify m hdeclared hfamilies)).bind fun c t₃ h₃ => ?_
    refine (Leads.tell _).bind fun _ t₄ h₄ => ?_
    refine Leads.pure ⟨h₃.1, fun _ => ?_, ⟨hdeclared, hfamilies⟩, rfl⟩
    rw [h₄, h₃.2]
    exact h₁.conserve (congrArg Store.vars hrechecked.store) (hrechecked.conserves h₁.offers.ready.wellFormed)

end

/-! ## The whole search -/

theorem expired_leads {start : Nat} : Leads excused (Session.expired o start) t fun _ t' => t' = t := by
  unfold Session.expired
  split
  · exact Leads.pure rfl
  · exact Leads.now.bind fun now t₁ h₁ => Leads.pure h₁

/-- What freezing and probing keep holds at the end. By induction on the steps left, whatever the clock says at each of them. -/
theorem searchFound_induction {I : Search → List Model → Session → Prop}
    (hfreeze : ∀ {s found t}, I s found t → s.pins = none → Leads excused (Session.freeze p o s) t fun s' t' => I s' found t')
    (hprobe : ∀ {s found t bound}, I s found t → bound < s.upper →
      Leads excused (Session.advanceFound p o objective families s bound) t fun r t' => I r.1 (found ++ r.2.toList) t')
    {found : List Model} (start fuel : Nat) (h : I s found t) :
    Leads excused (Session.searchFound p o objective families start fuel s found) t fun r _ => ∃ t', I r.1 r.2 t' := by
  induction fuel generalizing s found t with
  | zero => exact Leads.pure ⟨t, h⟩
  | succ fuel ih =>
    rw [Session.searchFound]
    refine expired_leads.bind fun expired t₁ h₁ => ?_
    subst h₁
    cases hnext : s.next o expired with
    | finish => exact Leads.pure ⟨t₁, h⟩
    | stop reason => exact (Leads.tell _).bind fun _ _ _ => Leads.pure ⟨t₁, h⟩
    | freeze => exact (hfreeze h (Search.pins_eq_none_of_next hnext)).bind fun s' t₂ h₂ => ih h₂
    | probe bound => exact (hprobe h (Search.lt_upper_of_next hnext)).bind fun r t₂ h₂ => ih h₂

end
end PlaceRoute
