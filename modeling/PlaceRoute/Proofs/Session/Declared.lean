import PlaceRoute.Proofs.Mapping.Generation
import PlaceRoute.Proofs.Session.Blind
import PlaceRoute.Proofs.Session.Probe

/-!
# What is declared in a session

* `Keeps m e post`: on the encoder `e` the steps `m` may fail, but leave what is declared and built; `post` holds of their result;
* `Steady keys m s post`: on the session `s` the steps `m` may fail, but end with `keys` declared; `post` holds of their result.

In a session either nothing is declared or all decisions are, and once they are they stay so, whichever steps fail. On declared
decisions any families are generated (`exists_generate_run`), so asserting families fails only where nothing is declared.
-/

namespace PlaceRoute

open PlaceRoute.Sat (Literal)

/-! ## Steps of an encoder -/

namespace Encoder

/-- Steps on `e` led to `e'`, where the same is declared. -/
structure Later (e e' : Encoder) : Prop where
  vars : e'.store.vars = e.store.vars
  solver : e.solver.Later e'.solver

variable {e e' e'' : Encoder} {keys : List Key} {k : Key}

theorem Later.refl (he : e.solver.WellFormed) : e.Later e := ⟨rfl, .refl he⟩

theorem Later.trans (h : e.Later e') (h' : e'.Later e'') : e.Later e'' := ⟨h'.vars.trans h.vars, h.solver.trans h'.solver⟩

theorem GrowsTo.later (h : e.GrowsTo e') : e.Later e' := ⟨h.vars, h.solver.later⟩

theorem Ready.later (h : e.Ready keys) (hlater : e.Later e') : e'.Ready keys :=
  h.of_vars hlater.vars hlater.solver.wellFormed hlater.solver.vars_le

theorem Ready.primed (h : e.Ready keys) : e.Primed keys [] := ⟨h, List.forall_mem_nil _⟩

theorem Ready.no_literal (h : e.Ready []) (k : Key) : e.literal? k = none := by
  cases hk : e.store.vars[k]? with
  | none => rw [literal?, hk]
  | some w => exact absurd (h.only (by rw [hk]; exact Option.some_ne_none w)) List.not_mem_nil

end Encoder

/-- The steps `m` on `e` may fail, but keep what is declared and built; `post` holds of their result. -/
def Keeps {α : Type} (m : EncodeM α) (e : Encoder) (post : α → Encoder → Prop) : Prop :=
  e.Later (m.run.run e).2 ∧ ∀ x, (m.run.run e).1 = .ok x → post x (m.run.run e).2

/-- All literals are variables of the solver. -/
def Encoder.Bounds (ls : List Literal) (e : Encoder) : Prop := ∀ l ∈ ls, l.var < e.solver.vars

namespace Keeps

variable {α β : Type} {m : EncodeM α} {f : α → EncodeM β} {e e' : Encoder} {post post' : α → Encoder → Prop}
  {after : β → Encoder → Prop} {keys : List Key} {k : Key}

theorem of_run {x : α} (hrun : m.run.run e = (.ok x, e')) (hlater : e.Later e') (h : post x e') : Keeps m e post := by
  unfold Keeps
  rw [hrun]
  refine ⟨hlater, fun y hy => ?_⟩
  obtain rfl := Except.ok.inj hy
  exact h

theorem of_encodes (h : Encodes m e post) : Keeps m e post := by
  obtain ⟨x, e', hrun, hgrow, hpost⟩ := h
  exact .of_run hrun hgrow.later hpost

theorem of_error {err : EncodeError} (he : e.solver.WellFormed) (hrun : m.run.run e = (.error err, e)) : Keeps m e post := by
  unfold Keeps
  rw [hrun]
  exact ⟨.refl he, nofun⟩

theorem pure {x : α} (he : e.solver.WellFormed) (h : post x e) : Keeps (pure x) e post := .of_run rfl (.refl he) h

theorem bind (h : Keeps m e post) (hf : ∀ x e', e.Later e' → post x e' → Keeps (f x) e' after) : Keeps (m >>= f) e after := by
  obtain ⟨hlater, hpost⟩ := h
  cases hrun : m.run.run e with
  | mk r e' =>
    rw [hrun] at hlater hpost
    cases r with
    | ok x =>
      obtain ⟨hlater', hafter⟩ := hf x e' hlater (hpost x rfl)
      unfold Keeps
      rw [Encodes.run_bind hrun]
      exact ⟨hlater.trans hlater', hafter⟩
    | error err =>
      have hfail : (m >>= f).run.run e = (.error err, e') := by
        show ExceptT.bindCont f (m.run.run e).1 (m.run.run e).2 = _
        rw [hrun]
        rfl
      unfold Keeps
      rw [hfail]
      exact ⟨hlater, nofun⟩

theorem mono (h : Keeps m e post) (hp : ∀ x e', post x e' → post' x e') : Keeps m e post' :=
  ⟨h.1, fun x hx => hp x _ (h.2 x hx)⟩

theorem assert {l : Literal} (he : e.solver.WellFormed) (hl : l.var < e.solver.vars) :
    Keeps (Encoder.assert l) e fun _ _ => True :=
  .of_run (Encoder.assert_run' l e) ⟨rfl, Solver.later_assert he hl⟩ trivial

/-- A decision that is declared is a variable. -/
theorem bit (h : e.Ready keys) (k : Key) : Keeps (Encoder.bit k) e fun l e' => l.var < e'.solver.vars := by
  cases hk : e.store.bit k with
  | ok l => exact .of_run ((Encoder.bit_eq k e).trans (by rw [hk])) (.refl h.wellFormed) (h.lt (Encoder.literal?_of_bit hk))
  | error err => exact .of_error h.wellFormed ((Encoder.bit_eq k e).trans (by rw [hk]))

theorem pin (h : e.Ready keys) (pins : List (Key × Bool)) : Keeps (Session.pin pins) e fun _ _ => True := by
  induction pins generalizing e with
  | nil => exact .pure h.wellFormed trivial
  | cons x pins ih =>
    have hone : Keeps (do
        let b ← Encoder.bit x.1
        Encoder.assert (if x.2 then b else -b)) e fun _ _ => True := by
      refine (bit h x.1).bind fun l e' hlater hl => assert hlater.solver.wellFormed ?_
      cases x.2 <;> simpa using hl
    exact hone.bind fun _ e' hlater _ => ih (h.later hlater)

/-! ### Where nothing is declared -/

section
variable (h : e.Ready [])
include h

theorem no_bit (k : Key) : Keeps (Encoder.bit k) e fun _ _ => False := by
  cases hk : e.store.bit k with
  | ok l => exact absurd (Encoder.literal?_of_bit hk) (by rw [h.no_literal k]; exact nofun)
  | error err => exact .of_error h.wellFormed ((Encoder.bit_eq k e).trans (by rw [hk]))

/-- The steps that follow a decision are not taken. -/
theorem no_bit_bind (k : Key) {f : Literal → EncodeM β} : Keeps (Encoder.bit k >>= f) e after :=
  (no_bit h k).bind fun _ _ _ => False.elim

theorem no_bits (items : List α) (key : α → Key) :
    Keeps (items.mapM fun x => Encoder.bit (key x)) e fun ls e' => ls = [] ∧ e'.Ready [] := by
  cases items with
  | nil => exact .pure h.wellFormed ⟨rfl, h⟩
  | cons x items =>
    rw [List.mapM_cons]
    exact no_bit_bind h (key x)

theorem termsFor {items : List α} {terms : α → EncodeM (List Literal)}
    (hterms : ∀ x ∈ items, ∀ {e'}, e'.Ready [] → Keeps (terms x) e' Encoder.Bounds) :
    Keeps (Family.termsFor items terms) e Encoder.Bounds := by
  have hall : Keeps (items.mapM terms) e fun lss e' => Encoder.Bounds lss.flatten e' := by
    induction items generalizing e with
    | nil => exact .pure h.wellFormed (List.forall_mem_nil _)
    | cons x items ih =>
      obtain ⟨hx, hitems⟩ := List.forall_mem_cons.mp hterms
      rw [List.mapM_cons]
      refine (hx h).bind fun ls e₁ h₁ hls => (ih (h.later h₁) hitems).bind fun lss e₂ h₂ hlss => ?_
      refine .pure h₂.solver.wellFormed (List.forall_mem_append.mpr ⟨fun l hl => ?_, hlss⟩)
      exact Nat.lt_of_lt_of_le (hls l hl) h₂.solver.vars_le
  exact hall.bind fun lss e₁ h₁ hlss => .pure h₁.solver.wellFormed hlss

theorem oneHotTerms_nil (strict : Bool) : Keeps (Family.oneHotTerms [] strict) e Encoder.Bounds := by
  refine .pure h.wellFormed (List.forall_mem_singleton.mpr ?_)
  cases strict <;> exact h.wellFormed.vars_pos

/-- Most terms begin with a decision; those that do not are about no unit, operation or value at all. -/
theorem terms (g : Graph) (d : Design) (family : Family) : Keeps (family.terms g d) e Encoder.Bounds := by
  have honeHot {α : Type} {e : Encoder} (h : e.Ready []) (items : List α) (key : α → Key) (strict : Bool) : Keeps (do
      let bits ← items.mapM fun x => Encoder.bit (key x)
      Family.oneHotTerms bits strict) e Encoder.Bounds := by
    refine (no_bits h items key).bind fun bits e₁ _ h₁ => ?_
    obtain ⟨rfl, h₁⟩ := h₁
    exact oneHotTerms_nil h₁ strict
  have hconnectivity (nodes : List NodeId) (neighbours : NodeId → List NodeId) :
      Keeps (Family.connectivityTerms d nodes neighbours) e Encoder.Bounds :=
    termsFor h fun n _ _ h => termsFor h fun _ _ _ h => no_bit_bind h _
  cases family with
  | opPlacement =>
    refine termsFor h fun op _ _ h => (no_bits h g.units fun u => .place u op.id).bind fun bits e₁ _ h₁ => ?_
    obtain ⟨rfl, h₁⟩ := h₁
    split
    · have hnone : Keeps (Encoder.build (Solver.orAll [])) e₁ fun l e₂ => l.var < e₂.solver.vars :=
        (of_encodes (Encodes.build (Solver.orAll_means h₁.wellFormed (List.forall_mem_nil _)))).mono fun _ _ hl => hl.lt
      exact hnone.bind fun l e₂ h₂ hl => .pure h₂.solver.wellFormed (List.forall_mem_singleton.mpr hl)
    · exact oneHotTerms_nil h₁ true
  | peExclusivity => exact termsFor h fun u _ _ h => honeHot h d.operations (fun op => .place u op.id) false
  | peLegality =>
    refine termsFor h fun u _ _ h => termsFor h fun op _ _ h => ?_
    split
    · exact .pure h.wellFormed (List.forall_mem_nil _)
    · exact no_bit_bind h _
  | routeExclusivity => exact termsFor h fun n _ _ h => honeHot h d.values (fun v => .route n v.id) false
  | initValue =>
    refine termsFor h fun u _ _ h => termsFor h fun op _ _ h => ?_
    split
    · exact .pure h.wellFormed (List.forall_mem_nil _)
    · split
      · exact no_bit_bind h _
      · exact no_bit_bind h _
  | portPlacement => exact termsFor h fun u _ _ h => termsFor h fun op _ _ h => no_bit_bind h _
  | inputConnectivity => exact hconnectivity ..
  | outputConnectivity => exact hconnectivity ..
  | routingResourceUsage => exact termsFor h fun n _ _ h => termsFor h fun v _ _ h => no_bit_bind h _

end

/-! ### Families -/

theorem generate_bare {p : Problem} (h : e.Ready []) (families : List Family) :
    Keeps (Session.generate p families) e fun _ _ => True := by
  induction families generalizing e with
  | nil => exact .pure h.wellFormed trivial
  | cons f families ih =>
    have hone : Keeps (do
        let formula ← f.generate p.graph p.design
        Encoder.assert formula) e fun _ _ => True := by
      refine bind ((terms h p.graph p.design f).bind fun ls e₁ h₁ hls => ?_) fun formula e₂ h₂ hl => assert h₂.solver.wellFormed hl
      exact (of_encodes (Encodes.build (Solver.andAll_means h₁.solver.wellFormed hls))).mono fun _ _ hl => hl.lt
    exact hone.bind fun _ e₁ h₁ _ => ih (h.later h₁)

end Keeps

/-- On declared decisions any families are generated, whatever else the encoder holds. -/
theorem exists_generate_run {p : Problem} (hg : p.graph.WellWired) (hd : p.design.WellWired) {e : Encoder}
    (h : e.Ready (allKeys p.graph p.design)) (families : List Family) :
    ∃ e', (Session.generate p families).run.run e = (.ok (), e') ∧ e.Later e' := by
  induction families generalizing e with
  | nil => exact ⟨e, rfl, .refl h.wellFormed⟩
  | cons f families ih =>
    obtain ⟨formula, e₁, hrun₁, hgrow, hl⟩ := h.primed.generate hd hg f
    have hlater : e.Later { e₁ with solver := ((Solver.assert formula).run e₁.solver).2 } :=
      hgrow.later.trans ⟨rfl, Solver.later_assert hgrow.solver.wellFormed hl⟩
    have hone : (do
        let formula ← f.generate p.graph p.design
        Encoder.assert formula : EncodeM Unit).run.run e = (.ok (), _) :=
      (Encodes.run_bind hrun₁).trans (Encoder.assert_run' formula e₁)
    obtain ⟨e₂, hrun₂, hlater₂⟩ := ih (h.later hlater)
    exact ⟨e₂, (Encodes.run_bind (f := fun _ => families.forM _) hone).trans hrun₂, hlater.trans hlater₂⟩

/-! ### Declaring -/

/-- Where nothing is declared, all decisions can be. -/
theorem exists_declareAll_run {g : Graph} {d : Design} (hg : g.WellWired) (hd : d.WellWired) {e : Encoder} (h : e.Ready []) :
    ∃ e', (declareAll g d).run.run e = (.ok (), e') ∧ e'.Ready (allKeys g d) := by
  have hnone (k : Key) : e.store.vars[k]? = none := by
    by_contra hne
    exact List.not_mem_nil (h.only hne)
  obtain ⟨e', hrun, hwf, hvars, -, hstore⟩ :=
    Encoder.declare_numbers h.wellFormed (allKeys_nodup hg hd) fun k _ => hnone k
  have hliteral (k : Key) : e'.literal? k =
      if k ∈ allKeys g d then some ⟨e.solver.vars + (allKeys g d).idxOf k, true⟩ else none := by
    unfold Encoder.literal?
    rw [hstore k, hnone k]
    by_cases hk : k ∈ allKeys g d
    · rw [if_pos hk, if_pos hk]
    · rw [if_neg hk, if_neg hk]
  refine ⟨e', hrun, hwf, fun {k l} hl => ?_, fun k hk => ⟨_, (hliteral k).trans (if_pos hk)⟩, fun {k} hk => ?_⟩
  · rw [hliteral] at hl
    split at hl
    · next hk =>
      rw [← Option.some.inj hl, hvars]
      exact Nat.add_lt_add_left (List.idxOf_lt_length_of_mem hk) _
    · cases hl
  · rw [hstore k, hnone k] at hk
    by_contra hnot
    exact hk (if_neg hnot)

/-- Decisions that are declared are not declared again. -/
theorem keeps_declareAll {g : Graph} {d : Design} {e : Encoder} (h : e.Ready (allKeys g d)) :
    Keeps (declareAll g d) e fun _ _ => True := by
  unfold declareAll
  cases hkeys : allKeys g d with
  | nil => exact .pure h.wellFormed trivial
  | cons k keys =>
    obtain ⟨l, hl⟩ := h.declared k (hkeys ▸ List.mem_cons_self)
    have hcontains : e.store.vars.contains k = true := Encoder.contains_iff.mpr fun hnone => by
      simp [Encoder.literal?, hnone] at hl
    have hfail : (discard (Encoder.declare k 1)).run.run e = (.error (.declaredTwice k), e) := by
      show (discard (if e.store.vars.contains k = true then _ else _ : EncodeM Word)).run.run e = _
      rw [hcontains]
      rfl
    have hfirst : Keeps (discard (Encoder.declare k 1)) e fun _ _ => False := .of_error h.wellFormed hfail
    exact hfirst.bind fun _ _ _ => False.elim

/-! ## Steps of a session -/

/-- The steps `m` on `s` may fail, but end with `keys` declared; `post` holds of their result. -/
def Steady {α : Type} (keys : List Key) (m : SessionM α) (s : Session) (post : α → Session → Prop) : Prop :=
  (m.run.run s).Always fun r => r.2.encoder.Ready keys ∧ ∀ x, r.1 = .ok x → post x r.2

namespace Steady

variable {α β ε : Type} {keys : List Key} {counts : List Count} {count : Count} {m : SessionM α} {f : α → SessionM β}
  {s : Session} {post post' : α → Session → Prop} {after : β → Session → Prop} {p : Problem} {o : SearchOptions}
  {objective : Objective} {families : List Family}

theorem pure {x : α} (h : s.encoder.Ready keys) (hx : post x s) : Steady keys (pure x) s post :=
  ⟨h, fun _ hy => Except.ok.inj hy ▸ hx⟩

theorem throw {e : Halt} (h : s.encoder.Ready keys) : Steady keys (throw e) s post := ⟨h, nofun⟩

theorem bind (h : Steady keys m s post) (hf : ∀ x s', s'.encoder.Ready keys → post x s' → Steady keys (f x) s' after) :
    Steady keys (m >>= f) s after := by
  refine Timed.Always.bind h fun r hr => ?_
  obtain ⟨e | x, s'⟩ := r
  · exact ⟨hr.1, nofun⟩
  · exact hf x s' hr.1 (hr.2 x rfl)

theorem mono (h : Steady keys m s post) (hp : ∀ x s', post x s' → post' x s') : Steady keys m s post' :=
  Timed.Always.mono h fun _ hr => ⟨hr.1, fun x hx => hp x _ (hr.2 x hx)⟩

theorem of_leads (h : Leads False m s post) (hready : ∀ x s', post x s' → s'.encoder.Ready keys) : Steady keys m s post := by
  refine Timed.Always.mono h fun r hr => ?_
  obtain ⟨e | x, s'⟩ := r
  · exact hr.elim
  · exact ⟨hready x s' hr, fun _ hy => Except.ok.inj hy ▸ hr⟩

/-- Steps that cannot fail come first, whatever was declared before. -/
theorem after_leads (h : Leads False m s post) (hf : ∀ x s', post x s' → Steady keys (f x) s' after) :
    Steady keys (m >>= f) s after := by
  refine Timed.Always.bind h fun r hr => ?_
  obtain ⟨e | x, s'⟩ := r
  · exact hr.elim
  · exact hf x s' hr

theorem get (h : s.encoder.Ready keys) : Steady keys (MonadState.get : SessionM Session) s fun x s' => x = s ∧ s' = s :=
  ⟨h, fun _ hx => ⟨(Except.ok.inj hx).symm, rfl⟩⟩

theorem modify {g : Session → Session} (h : (g s).encoder.Ready keys) :
    Steady keys (modify g : SessionM Unit) s fun _ s' => s' = g s := ⟨h, fun _ _ => rfl⟩

theorem now (h : s.encoder.Ready keys) : Steady keys Session.now s fun _ s' => s' = s := fun _ => ⟨h, fun _ _ => rfl⟩

theorem tell (h : s.encoder.Ready keys) (n : Notice) : Steady keys (Session.tell n) s fun _ s' => s'.encoder = s.encoder :=
  ⟨h, fun _ _ => rfl⟩

theorem ofResult {wrap : ε → Halt} {r : Except ε α} (h : s.encoder.Ready keys) (hx : ∀ x, r = .ok x → post x s) :
    Steady keys (Session.ofResult wrap r) s post := by
  cases r with
  | ok x => exact pure h (hx x rfl)
  | error e => exact throw h

section
variable {n : EncodeM α} {done : α → Encoder → Prop}

theorem attempt (h : s.encoder.Ready keys) (hn : Keeps n s.encoder done) :
    Steady keys (Session.attempt n) s fun r s' => s.encoder.Later s'.encoder ∧ ∀ x, r = .ok x → done x s'.encoder := by
  refine ⟨h.later hn.1, fun r hr => ⟨hn.1, ?_⟩⟩
  obtain rfl := Except.ok.inj hr
  exact hn.2

theorem encode (h : s.encoder.Ready keys) (hn : Keeps n s.encoder done) :
    Steady keys (Session.encode n) s fun x s' => s.encoder.Later s'.encoder ∧ done x s'.encoder :=
  (attempt h hn).bind fun _ _ h₁ hr => ofResult h₁ fun x hx => ⟨hr.1, hr.2 x hx⟩

theorem build (h : s.encoder.Ready keys) (hn : Keeps n s.encoder done) :
    Steady keys (Session.build n) s fun x s' => s.encoder.Later s'.encoder ∧ done x s'.encoder := by
  refine (now h).bind fun start s₁ _ h₁ => ?_
  subst h₁
  refine (attempt h hn).bind fun r s₂ h₂ hr => (now h₂).bind fun stop s₃ _ h₃ => ?_
  subst h₃
  refine (modify h₂).bind fun _ s₄ h₄ hs₄ => ?_
  subst hs₄
  exact ofResult h₄ fun x hx => ⟨hr.1, hr.2 x hx⟩

end

/-! ### Solver calls -/

theorem solve (h : s.encoder.Ready keys) : Steady keys (Session.solve p) s fun _ s' => s.encoder.Later s'.encoder := by
  have hcheck : Keeps (Encoder.build (Solver.check p.engine)) s.encoder fun _ _ => True :=
    .of_run rfl ⟨rfl, Solver.later_check p.engine h.wellFormed⟩ trivial
  refine (modify h).bind fun _ s₁ h₁ hs₁ => (now h₁).bind fun start s₂ _ hs₂ => ?_
  subst hs₁ hs₂
  refine (encode h₁ hcheck).bind fun sat s₃ h₃ hs₃ => (now h₃).bind fun stop s₄ _ hs₄ => ?_
  subst hs₄
  refine (modify h₃).bind fun _ s₅ h₅ hs₅ => pure h₅ ?_
  subst hs₅
  exact hs₃.1

theorem solveModel (h : s.encoder.Ready keys) : Steady keys (Session.solveModel p) s fun _ s' => s.encoder.Later s'.encoder := by
  refine (solve h).bind fun sat s₁ h₁ hs₁ => ?_
  split
  · have hextract : Steady keys Session.extract s₁ fun _ s' => s' = s₁ := by
      refine (get h₁).bind fun _ s₂ h₂ hs₂ => ?_
      obtain ⟨rfl, rfl⟩ := hs₂
      exact ofResult h₂ fun _ _ => rfl
    refine hextract.bind fun m s₂ h₂ hs₂ => pure h₂ ?_
    rw [hs₂]
    exact hs₁
  · exact pure h₁ hs₁

theorem probe (h : s.encoder.Primed keys counts) (hcount : count ∈ counts) (lower upper : Nat) :
    Steady keys (Session.probe p count lower upper) s fun _ s' => s.encoder.Later s'.encoder := by
  have hnarrow : Keeps (do Encoder.assert (← Encoder.checked (count.window lower upper))) s.encoder fun _ _ => True :=
    (Keeps.of_encodes (h.window hcount lower upper)).bind fun l e₁ h₁ hl => .assert h₁.solver.wellFormed hl
  refine (encode h.ready hnarrow).bind fun _ s₁ h₁ hs₁ => (solveModel h₁).mono fun _ s₂ hs₂ => hs₁.1.trans hs₂

/-- A scope that is closed leaves no key behind. -/
theorem inScope (h : s.encoder.Ready keys)
    (hm : ∀ s' : Session, s.encoder.Later s'.encoder → Steady keys m s' fun _ s'' => s'.encoder.Later s''.encoder) :
    Steady keys (Session.inScope m) s fun _ s' => s.encoder.Later s'.encoder := by
  have hpop {e : Encoder} (he : e.solver.WellFormed) : Keeps (Encoder.checked Solver.pop) e fun _ _ => True := by
    have hbuild : Keeps (Encoder.build Solver.pop.run) e fun _ _ => True := .of_run rfl ⟨rfl, Solver.later_pop he⟩ trivial
    refine hbuild.bind fun r e₁ h₁ _ => ?_
    cases r with
    | ok x => exact .pure h₁.solver.wellFormed trivial
    | error err => exact .of_error h₁.solver.wellFormed rfl
  have hpush : Keeps (Encoder.build Solver.push) s.encoder fun _ _ => True :=
    .of_run rfl ⟨rfl, Solver.later_push h.wellFormed⟩ trivial
  refine (encode h hpush).bind fun _ s₁ _ hs₁ => ?_
  have hlift : Steady keys (ExceptT.lift m.run : SessionM (Except Halt α)) s₁ fun r s' =>
      ∀ x, r = .ok x → s₁.encoder.Later s'.encoder :=
    Timed.Always.bind (hm s₁ hs₁.1) fun r hr => ⟨hr.1, fun r' hr' => Except.ok.inj hr' ▸ hr.2⟩
  refine hlift.bind fun r s₂ h₂ hs₂ => (encode h₂ (hpop h₂.wellFormed)).bind fun _ s₃ h₃ hs₃ => ?_
  exact ofResult h₃ fun x hx => hs₁.1.trans ((hs₂ x hx).trans hs₃.1)

theorem score (h : s.encoder.Ready keys) (m : Model) :
    Steady keys (Session.score p o objective m) s fun _ s' => s'.encoder = s.encoder := by
  have hconfirm : Steady keys (discard (Session.confirm p m)) s fun _ s' => s'.encoder = s.encoder := by
    have hcheck : Steady keys (Session.confirm p m) s fun _ s' => s'.encoder = s.encoder := by
      unfold Session.confirm
      split
      · exact pure h rfl
      · exact (tell h _).bind fun _ _ h₁ _ => throw h₁
    exact hcheck.bind fun _ _ h₁ hs₁ => pure h₁ hs₁
  unfold Session.score
  split
  · exact hconfirm.bind fun _ _ h₁ hs₁ => ofResult h₁ fun _ _ => hs₁
  · exact ofResult h fun _ _ => rfl

/-! ### Declaring and asserting -/

theorem assertFamilies (h : s.encoder.Ready keys) (hn : Keeps (Session.generate p families) s.encoder fun _ _ => True) :
    Steady keys (Session.assertFamilies p families) s fun _ _ => True := by
  refine (now h).bind fun start s₁ _ hs₁ => ?_
  subst hs₁
  refine (attempt h hn).bind fun r s₂ h₂ _ => (now h₂).bind fun stop s₃ h₃ _ => ?_
  exact (modify h₃).bind fun _ s₄ _ hs₄ => ofResult (hs₄ ▸ h₃) fun _ _ => trivial

theorem declare (hg : p.graph.WellWired) (hd : p.design.WellWired)
    (h : s.encoder.Ready [] ∨ s.encoder.Ready (allKeys p.graph p.design)) :
    Steady (allKeys p.graph p.design) (Session.declare p) s fun _ _ => True := by
  rcases h with h | h
  · obtain ⟨e, hrun, hready⟩ := exists_declareAll_run hg hd h
    exact (of_leads (Leads.build hrun) fun _ _ h' => h'.2 ▸ hready).mono fun _ _ _ => trivial
  · exact (build h (keeps_declareAll h)).mono fun _ _ _ => trivial

/-! ### Searches -/

section
variable (hg : p.graph.WellWired) (hd : p.design.WellWired) {t : Session} {x : Search} {bound : Nat}
include hg hd

/-- Whatever was declared before. -/
theorem rebuild (pins : List (Key × Bool)) : Steady (allKeys p.graph p.design) (Session.rebuild p objective families pins) t
    fun count t' => t'.encoder.Primed (allKeys p.graph p.design) [count] := by
  obtain ⟨e₁, hdeclare, hmodels⟩ := Encoder.declare_models [] (allKeys_nodup hg hd) Encoder.models_new
  refine after_leads (Leads.modify _) fun _ t₁ h₁ => ?_
  have hnew : t₁.encoder = .new := by rw [h₁]
  rw [← hnew] at hdeclare
  refine after_leads (Leads.build hdeclare) fun _ t₂ h₂ => ?_
  have hready : t₂.encoder.Ready (allKeys p.graph p.design) := h₂.2 ▸ hmodels.ready
  have hbuild {n : EncodeM Count} (hn : Keeps n t₂.encoder fun count e => ∀ l ∈ count.literals, l.var < e.solver.vars) :
      Steady (allKeys p.graph p.design) (Session.build n) t₂ fun count t' =>
        t'.encoder.Primed (allKeys p.graph p.design) [count] :=
    (build hready hn).mono fun count t₃ h₃ => ⟨hready.later h₃.1, List.forall_mem_singleton.mpr h₃.2⟩
  obtain ⟨_, hgenerate, hlater⟩ := exists_generate_run hg hd hready families
  have hfamilies : Keeps (Session.generate p families) t₂.encoder fun _ _ => True := .of_run hgenerate hlater trivial
  refine hbuild (hfamilies.bind fun _ e₂ hlater₂ _ => ?_)
  have hready₂ := hready.later hlater₂
  refine (Keeps.of_encodes (objective.encode_defines hready₂)).bind fun r e₃ hlater₃ hdefines => ?_
  have hready₃ := hready₂.later hlater₃
  refine (Keeps.assert hready₃.wellFormed (hdefines.pinned.lt _ List.mem_cons_self)).bind fun _ e₄ hlater₄ _ => ?_
  refine (Keeps.pin (hready₃.later hlater₄) pins).bind fun _ e₅ hlater₅ _ => ?_
  refine .pure hlater₅.solver.wellFormed fun l hl => Nat.lt_of_lt_of_le (hdefines.lt l hl) ?_
  exact hlater₄.solver.vars_le.trans hlater₅.solver.vars_le

omit hg hd in
theorem freeze (h : t.encoder.Primed keys [x.count]) :
    Steady keys (Session.freeze p o x) t fun x' t' => t'.encoder.Primed keys [x'.count] := by
  unfold Session.freeze
  dsimp only
  split
  · refine (encode h.ready (.pin h.ready _)).bind fun _ t₁ h₁ ht₁ => (tell h₁ _).bind fun _ t₂ h₂ ht₂ => pure h₂ ?_
    rw [ht₂]
    exact h.later ht₁.1.vars ht₁.1.solver
  · refine (tell h.ready _).bind fun _ t₁ h₁ ht₁ => pure h₁ ?_
    rw [ht₁]
    exact h

theorem advance (h : t.encoder.Primed (allKeys p.graph p.design) [x.count]) :
    Steady (allKeys p.graph p.design) (Session.advance p o objective families x bound) t fun x' t' =>
      t'.encoder.Primed (allKeys p.graph p.design) [x'.count] := by
  have hseek : Steady (allKeys p.graph p.design) (Session.seek p o objective families x bound) t fun r t' =>
      t'.encoder.Primed (allKeys p.graph p.design) [r.1] := by
    unfold Session.seek
    split
    · refine (inScope h.ready fun t₁ ht₁ => ?_).bind fun _ t₁ h₁ ht₁ => pure h₁ (h.later ht₁.vars ht₁.solver)
      exact probe (h.later ht₁.vars ht₁.solver) List.mem_cons_self _ _
    · refine (rebuild hg hd _).bind fun count t₁ _ ht₁ => ?_
      refine (probe ht₁ List.mem_cons_self _ _).bind fun _ t₂ h₂ ht₂ => pure h₂ (ht₁.later ht₂.vars ht₂.solver)
  unfold Session.advance
  refine hseek.bind fun r t₁ h₁ ht₁ => ?_
  have hsettle : Steady (allKeys p.graph p.design) (Session.settle p o objective { x with count := r.1 } bound r.2) t₁
      fun x' t' => x'.count = r.1 ∧ t'.encoder = t₁.encoder := by
    cases r.2 with
    | none => exact pure h₁ ⟨rfl, rfl⟩
    | some m => exact (score h₁ m).bind fun _ _ h₂ ht₂ => pure h₂ ⟨rfl, ht₂⟩
  refine hsettle.bind fun x' t₂ h₂ ht₂ => (tell h₂ _).bind fun _ t₃ h₃ ht₃ => pure h₃ ?_
  rw [ht₃, ht₂.2]
  exact ht₂.1 ▸ ht₁

/-- By induction on the steps left. -/
theorem search (start fuel : Nat) (h : t.encoder.Primed (allKeys p.graph p.design) [x.count]) :
    Steady (allKeys p.graph p.design) (Session.search p o objective families start fuel x) t fun _ _ => True := by
  induction fuel generalizing x t with
  | zero => exact pure h.ready trivial
  | succ fuel ih =>
    have hexpired : Steady (allKeys p.graph p.design) (Session.expired o start) t fun _ t' => t' = t := by
      unfold Session.expired
      split
      · exact pure h.ready rfl
      · exact (now h.ready).bind fun _ _ h₁ ht₁ => pure h₁ ht₁
    rw [Session.search]
    refine hexpired.bind fun expired t₁ h₁ ht₁ => ?_
    subst ht₁
    cases x.next o expired with
    | finish => exact pure h₁ trivial
    | stop reason => exact (tell h₁ _).bind fun _ _ h₂ _ => pure h₂ trivial
    | freeze => exact (freeze h).bind fun _ _ _ h₂ => ih h₂
    | probe bound => exact (advance hg hd h).bind fun _ _ _ h₂ => ih h₂

/-- An optimisation declares all decisions, even if it fails. -/
theorem optimize (s : Session) :
    Steady (allKeys p.graph p.design) (Session.optimize p o objective) s fun _ _ => True := by
  have hfirst (families : List Family) (t : Session) : Steady (allKeys p.graph p.design)
      (Session.firstSearch p o objective families) t fun found t' =>
        ∀ x, found = some x → t'.encoder.Primed (allKeys p.graph p.design) [x.count] := by
    refine (rebuild hg hd []).bind fun count t₁ _ ht₁ => (solveModel ht₁.ready).bind fun found t₂ h₂ ht₂ => ?_
    cases found with
    | none => exact pure h₂ nofun
    | some m =>
      refine (score h₂ m).bind fun c t₃ h₃ ht₃ => (tell h₃ _).bind fun _ t₄ h₄ ht₄ => pure h₄ fun x hx => ?_
      cases hx
      rw [ht₄, ht₃]
      exact ht₁.later ht₂.vars ht₂.solver
  have hrest (families : List Family) (start : Nat) (t : Session) {next : Option Search → SessionM Optimization}
      (hnone : next none = Pure.pure .unsatisfiable)
      (hsome : ∀ x, next (some x) = do return .best (← Session.search p o objective families start x.maxSteps x).optimum) :
      Steady (allKeys p.graph p.design) (Session.firstSearch p o objective families >>= next) t fun _ _ => True := by
    refine (hfirst families t).bind fun found t₁ h₁ ht₁ => ?_
    cases found with
    | none =>
      rw [hnone]
      exact pure h₁ trivial
    | some x =>
      rw [hsome]
      exact (search hg hd start x.maxSteps (ht₁ x rfl)).bind fun _ _ h₂ _ => pure h₂ trivial
  rw [Session.optimize_eq]
  unfold Session.optimizeOver
  refine after_leads Leads.get fun s₁ _ _ => ?_
  split
  · exact after_leads (Leads.tell _) fun _ _ _ => after_leads Leads.now fun start t _ => hrest _ start t rfl fun _ => rfl
  · exact after_leads Leads.now fun start t _ => hrest _ start t rfl fun _ => rfl

end
end Steady
end PlaceRoute
