import PlaceRoute.Mapping.Family
import PlaceRoute.Proofs.Solver.Operation

/-!
# Terms that capture conditions on decisions

* `Encodes m e post`: from the encoder `e` the steps `m` succeed, only add gates and helper words, and `post` holds of
  the result;
* `Encoder.read e δ a`: the decisions that an assignment takes, those of `δ` where nothing is declared;
* `Captures e e' terms P`: built from `e` to `e'`, the terms hold together only if the decisions satisfy `P`, and
  whenever the decisions do, the helper words and gates can be chosen so that the terms hold.

Terms are captured one by one (`Captures.single`), one list after the other (`Captures.append`) and item by item
(`Encodes.mapM_captures`, `Encodes.termsFor`).
-/

namespace PlaceRoute

open PlaceRoute.Sat (Literal Assignment AgreeBelow)
open Solver (Builds Succeeds Means)

/-! ## Steps of an encoder -/

namespace Encoder

/-- More gates and helper words, and the same keys. -/
structure GrowsTo (e e' : Encoder) : Prop where
  solver : e.solver.GrowsTo e'.solver
  vars : e'.store.vars = e.store.vars

variable {e e' e'' : Encoder}

theorem GrowsTo.refl (h : e.solver.WellFormed) : e.GrowsTo e := ⟨.refl h, rfl⟩

theorem GrowsTo.trans (h : e.GrowsTo e') (h' : e'.GrowsTo e'') : e.GrowsTo e'' :=
  ⟨h.solver.trans h'.solver, h'.vars.trans h.vars⟩

end Encoder

/-- The steps `m` succeed on `e` and let it grow, and `post` holds of their result. -/
def Encodes {α : Type} (m : EncodeM α) (e : Encoder) (post : α → Encoder → Prop) : Prop :=
  ∃ x e', m.run.run e = (.ok x, e') ∧ e.GrowsTo e' ∧ post x e'

namespace Encodes

variable {α β : Type} {m : EncodeM α} {f : α → EncodeM β} {e : Encoder} {post post' : α → Encoder → Prop}
  {after : β → Encoder → Prop}

theorem pure {x : α} (he : e.solver.WellFormed) (h : post x e) : Encodes (pure x) e post :=
  ⟨x, e, rfl, .refl he, h⟩

/-- A step that succeeds goes on with its result. -/
theorem run_bind {x : α} {e' : Encoder} (h : m.run.run e = (.ok x, e')) : (m >>= f).run.run e = (f x).run.run e' := by
  show ExceptT.bindCont f (m.run.run e).1 (m.run.run e).2 = _
  rw [h]
  rfl

theorem bind (h : Encodes m e post) (hf : ∀ x e', e.GrowsTo e' → post x e' → Encodes (f x) e' after) :
    Encodes (m >>= f) e after := by
  obtain ⟨x, e', hrun, hgrow, hpost⟩ := h
  obtain ⟨y, e'', hrun', hgrow', hafter⟩ := hf x e' hgrow hpost
  exact ⟨y, e'', (run_bind hrun).trans hrun', hgrow.trans hgrow', hafter⟩

theorem mono (h : Encodes m e post) (hp : ∀ x e', e.GrowsTo e' → post x e' → post' x e') : Encodes m e post' := by
  obtain ⟨x, e', hrun, hgrow, hpost⟩ := h
  exact ⟨x, e', hrun, hgrow, hp x e' hgrow hpost⟩

theorem build {m : SolverM α} {post : α → Solver → Prop} (h : Builds m e.solver post) :
    Encodes (Encoder.build m) e fun x e' => post x e'.solver :=
  ⟨(m.run e.solver).1, { e with solver := (m.run e.solver).2 }, rfl, ⟨h.1, rfl⟩, h.2⟩

theorem checked {m : CheckedM α} {post : α → Solver → Prop} (h : Succeeds m e.solver post) :
    Encodes (Encoder.checked m) e fun x e' => post x e'.solver := by
  refine (build h).bind fun r e' hgrow hpost => ?_
  obtain ⟨x, rfl, hx⟩ := hpost
  exact Encodes.pure hgrow.solver.wellFormed hx

theorem anonymous (he : e.solver.WellFormed) (n : Nat) :
    Encodes (Encoder.anonymous n) e fun w e' => e.solver.FreeWord e'.solver n w := by
  obtain ⟨hst, hfree⟩ := Solver.freshWord_free n he
  exact ⟨_, ⟨((Solver.freshWord n).run e.solver).2, { e.store with anonymous := e.store.anonymous + 1 }⟩, rfl,
    ⟨hst, rfl⟩, hfree⟩

end Encodes

/-! ## Decisions of an assignment -/

namespace Encoder

/-- The literal declared for a decision. -/
def literal? (e : Encoder) (k : Key) : Option Literal :=
  match e.store.vars[k]? with
  | some [l] => some l
  | _ => none

/-- The decisions that an assignment takes, and those of `δ` where none is declared. -/
def read (e : Encoder) (δ : Key → Bool) (a : Assignment) (k : Key) : Bool :=
  match e.literal? k with
  | some l => l.eval a
  | none => δ k

/-- The declared literals are variables of the solver, and the keys are declared and no other. -/
structure Ready (e : Encoder) (keys : List Key) : Prop where
  wellFormed : e.solver.WellFormed
  lt : ∀ {k : Key} {l : Literal}, e.literal? k = some l → l.var < e.solver.vars
  declared : ∀ k ∈ keys, ∃ l, e.literal? k = some l
  only : ∀ {k : Key}, e.store.vars[k]? ≠ none → k ∈ keys

variable {e e' : Encoder} {keys : List Key} {k : Key} {l : Literal} {δ : Key → Bool} {a b : Assignment}

theorem GrowsTo.literal? (h : e.GrowsTo e') : e'.literal? = e.literal? := by
  funext k
  unfold Encoder.literal?
  rw [h.vars]

theorem GrowsTo.read (h : e.GrowsTo e') : e'.read δ a = e.read δ a := by
  funext k
  unfold Encoder.read
  rw [h.literal?]

theorem Ready.grow (h : e.Ready keys) (hgrow : e.GrowsTo e') : e'.Ready keys where
  wellFormed := hgrow.solver.wellFormed
  lt hl := Nat.lt_of_lt_of_le (h.lt (hgrow.literal? ▸ hl)) hgrow.solver.vars_le
  declared k hk := hgrow.literal? ▸ h.declared k hk
  only hk := h.only (hgrow.vars ▸ hk)

/-- The decisions are decided by the solver's own variables. -/
theorem Ready.read_congr (h : e.Ready keys) (hab : AgreeBelow e.solver.vars a b) : e.read δ a = e.read δ b := by
  funext k
  unfold Encoder.read
  cases hl : e.literal? k with
  | none => rfl
  | some l => exact hab.eval (h.lt hl)

theorem read_of_literal? (hl : e.literal? k = some l) : e.read δ a k = l.eval a := by
  unfold Encoder.read
  rw [hl]

theorem bit_of_literal? (hl : e.literal? k = some l) : e.store.bit k = .ok l := by
  unfold literal? at hl
  unfold Store.bit Store.lookup
  split at hl
  · next w hw =>
    rw [hw, ← Option.some.inj hl]
    rfl
  · cases hl

theorem literal?_of_bit (h : e.store.bit k = .ok l) : e.literal? k = some l := by
  unfold Store.bit Store.lookup at h
  unfold literal?
  cases hw : e.store.vars[k]? with
  | none =>
    rw [hw] at h
    cases h
  | some w =>
    rw [hw] at h
    match w with
    | [l'] =>
      cases h
      rfl
    | [] => cases h
    | _ :: _ :: _ => cases h

theorem bit_eq (k : Key) (e : Encoder) : (bit k).run.run e = (e.store.bit k, e) := by
  have hget : (get : EncodeM Encoder).run.run e = (.ok e, e) := rfl
  unfold bit
  refine (Encodes.run_bind hget).trans ?_
  cases e.store.bit k <;> rfl

theorem bit_run (hl : e.literal? k = some l) : (bit k).run.run e = (.ok l, e) := by
  rw [bit_eq, bit_of_literal? hl]

/-- An assignment takes decisions if their literals have these values. -/
theorem Ready.read_eq_iff (h : e.Ready keys) :
    e.read δ a = δ ↔ ∀ k ∈ keys, ∃ l, e.store.bit k = .ok l ∧ l.eval a = δ k := by
  constructor
  · intro hread k hk
    obtain ⟨l, hl⟩ := h.declared k hk
    exact ⟨l, bit_of_literal? hl, by rw [← read_of_literal? hl (δ := δ), hread]⟩
  · intro hbits
    funext k
    cases hk : e.literal? k with
    | none => rw [read, hk]
    | some l =>
      have hmem : k ∈ keys := h.only fun hnone => by simp [literal?, hnone] at hk
      obtain ⟨l', hl', heval⟩ := hbits k hmem
      rw [bit_of_literal? hk] at hl'
      rw [read_of_literal? hk, Except.ok.inj hl', heval]

/-- Decisions that take none but declared ones need no default. -/
theorem Ready.read_eq_of_declared (h : e.Ready keys) (hdeclared : ∀ {k : Key}, δ k = true → k ∈ keys) (hread : e.read δ a = δ) :
    e.read (fun _ => false) a = δ := by
  rw [← hread]
  funext k
  cases hk : e.literal? k with
  | some l => rw [read_of_literal? hk, read_of_literal? hk]
  | none =>
    have hoff : δ k ≠ true := fun hset => by
      obtain ⟨l, hl⟩ := h.declared k (hdeclared hset)
      simp [hk] at hl
    simpa [read, hk] using hoff

/-- A declared decision as a term. -/
theorem Ready.bit (h : e.Ready keys) (hk : k ∈ keys) : Encodes (Encoder.bit k) e fun l e' =>
    e = e' ∧ l.var < e.solver.vars ∧ ∀ δ a, l.eval a = e.read δ a k := by
  obtain ⟨l, hl⟩ := h.declared k hk
  exact ⟨l, e, bit_run hl, .refl h.wellFormed, rfl, h.lt hl, fun δ a => (read_of_literal? hl).symm⟩

/-- Declared decisions as terms. -/
theorem Ready.bits {α : Type} (h : e.Ready keys) {items : List α} {key : α → Key} (hk : ∀ x ∈ items, key x ∈ keys) :
    Encodes (items.mapM fun x => Encoder.bit (key x)) e fun ls e' =>
      e = e' ∧ (∀ l ∈ ls, l.var < e.solver.vars) ∧
      ∀ δ a, Word.bits a ls = items.map fun x => e.read δ a (key x) := by
  induction items with
  | nil => exact Encodes.pure h.wellFormed ⟨rfl, by simp, fun _ _ => rfl⟩
  | cons x items ih =>
    obtain ⟨hx, hitems⟩ := List.forall_mem_cons.mp hk
    rw [List.mapM_cons]
    refine (h.bit hx).bind fun l e' _ hl => ?_
    obtain ⟨rfl, hlt, hl⟩ := hl
    refine (ih hitems).bind fun ls e'' _ hls => ?_
    obtain ⟨rfl, hlts, hls⟩ := hls
    refine Encodes.pure h.wellFormed ⟨rfl, List.forall_mem_cons.mpr ⟨hlt, hlts⟩, fun δ a => ?_⟩
    rw [Word.bits_cons, List.map_cons, hl δ a, hls δ a]

end Encoder

/-! ## Captured conditions -/

/-- The terms built from `e` to `e'` say of the decisions that `P` holds. -/
structure Captures (e e' : Encoder) (terms : List Literal) (P : (Key → Bool) → Prop) : Prop where
  lt : ∀ l ∈ terms, l.var < e'.solver.vars
  sound : ∀ {δ : Key → Bool} {a : Assignment}, e'.solver.Respects a → (∀ l ∈ terms, l.eval a = true) → P (e.read δ a)
  complete : ∀ {δ : Key → Bool} {a : Assignment}, e.solver.Respects a → P (e.read δ a) →
    ∃ b, AgreeBelow e.solver.vars a b ∧ e'.solver.Respects b ∧ ∀ l ∈ terms, l.eval b = true

namespace Captures

variable {e e' e'' : Encoder} {keys : List Key} {terms more : List Literal} {P Q : (Key → Bool) → Prop}

theorem nil (e : Encoder) : Captures e e [] fun _ => True :=
  ⟨by simp, fun _ _ => trivial, fun ha _ => ⟨_, .refl _ _, ha, by simp⟩⟩

theorem congr (h : Captures e e' terms P) (hpq : ∀ δ, P δ ↔ Q δ) : Captures e e' terms Q :=
  ⟨h.lt, fun ha hterms => (hpq _).mp (h.sound ha hterms), fun ha hq => h.complete ha ((hpq _).mpr hq)⟩

/-- A term whose value says whether `P` holds. -/
theorem single {l : Literal} {v : Assignment → Bool} (he : e.Ready keys) (hgrow : e.GrowsTo e')
    (hl : e'.solver.Means l v) (hv : ∀ {δ : Key → Bool} {a : Assignment}, e'.solver.Respects a →
      (v a = true ↔ P (e.read δ a))) : Captures e e' [l] P where
  lt := List.forall_mem_singleton.mpr hl.lt
  sound ha hterms := (hv ha).mp ((hl.eval ha).symm.trans (hterms l List.mem_cons_self))
  complete {δ a} ha hp := by
    obtain ⟨b, hab, hb⟩ := hgrow.solver.extend ha
    refine ⟨b, hab, hb, List.forall_mem_singleton.mpr ((hl.eval hb).trans ((hv hb).mpr (?_ : P (e.read δ b))))⟩
    rw [← he.read_congr hab]
    exact hp

theorem append (he : e.Ready keys) (hgrow : e.GrowsTo e') (hgrow' : e'.GrowsTo e'') (h : Captures e e' terms P)
    (h' : Captures e' e'' more Q) : Captures e e'' (terms ++ more) fun δ => P δ ∧ Q δ where
  lt l hl := (List.mem_append.mp hl).elim (fun hl => Nat.lt_of_lt_of_le (h.lt l hl) hgrow'.solver.vars_le) (h'.lt l)
  sound {δ a} ha hterms := by
    obtain ⟨hterms, hmore⟩ := List.forall_mem_append.mp hterms
    refine ⟨h.sound (hgrow'.solver.respects ha) hterms, ?_⟩
    rw [← hgrow.read]
    exact h'.sound ha hmore
  complete {δ a} ha hpq := by
    obtain ⟨b, hab, hb, hterms⟩ := h.complete ha hpq.1
    have hq : Q (e'.read δ b) := by
      rw [hgrow.read, ← he.read_congr hab]
      exact hpq.2
    obtain ⟨c, hbc, hc, hmore⟩ := h'.complete hb hq
    refine ⟨c, hab.trans (hbc.mono hgrow.solver.vars_le), hc, List.forall_mem_append.mpr ⟨fun l hl => ?_, hmore⟩⟩
    rw [← hbc.eval (h.lt l hl)]
    exact hterms l hl

/-- Steps before the first term. -/
theorem after (he : e.Ready keys) (hgrow : e.GrowsTo e') (h : Captures e' e'' terms P) : Captures e e'' terms P where
  lt := h.lt
  sound {δ a} ha hterms := hgrow.read ▸ h.sound ha hterms
  complete {δ a} ha hp := by
    obtain ⟨b, hab, hb⟩ := hgrow.solver.extend ha
    have hp' : P (e'.read δ b) := by
      rw [hgrow.read, ← he.read_congr hab]
      exact hp
    obtain ⟨c, hbc, hc, hterms⟩ := h.complete hb hp'
    exact ⟨c, hab.trans (hbc.mono hgrow.solver.vars_le), hc, hterms⟩

/-- Steps after the last term. -/
theorem before (hgrow' : e'.GrowsTo e'') (h : Captures e e' terms P) (hgrow : e.GrowsTo e') :
    Captures e e'' terms P where
  lt l hl := Nat.lt_of_lt_of_le (h.lt l hl) hgrow'.solver.vars_le
  sound ha hterms := h.sound (hgrow'.solver.respects ha) hterms
  complete ha hp := by
    obtain ⟨b, hab, hb, hterms⟩ := h.complete ha hp
    obtain ⟨c, hbc, hc⟩ := hgrow'.solver.extend hb
    refine ⟨c, hab.trans (hbc.mono hgrow.solver.vars_le), hc, fun l hl => ?_⟩
    rw [← hbc.eval (h.lt l hl)]
    exact hterms l hl

end Captures

namespace Encodes

variable {α : Type} {e : Encoder} {keys : List Key} {P : α → (Key → Bool) → Prop}

/-- One term for each item. -/
theorem mapM_captures {items : List α} {term : α → EncodeM Literal} (he : e.Ready keys)
    (h : ∀ x ∈ items, ∀ e', e.GrowsTo e' → e'.Ready keys →
      Encodes (term x) e' fun l e'' => Captures e' e'' [l] (P x)) :
    Encodes (items.mapM term) e fun terms e' => Captures e e' terms fun δ => ∀ x ∈ items, P x δ := by
  induction items generalizing e with
  | nil => exact Encodes.pure he.wellFormed ((Captures.nil e).congr fun δ => by simp)
  | cons x items ih =>
    obtain ⟨hx, hitems⟩ := List.forall_mem_cons.mp h
    rw [List.mapM_cons]
    refine (hx e (.refl he.wellFormed) he).bind fun l e' hgrow hl => ?_
    refine (ih (he.grow hgrow) fun x hx e' h => hitems x hx e' (hgrow.trans h)).bind fun ls e'' hgrow' hls => ?_
    refine Encodes.pure hgrow'.solver.wellFormed ((hl.append he hgrow hgrow' hls).congr fun δ => ?_)
    rw [List.forall_mem_cons]

/-- Terms for each item. -/
theorem termsFor {items : List α} {terms : α → EncodeM (List Literal)} (he : e.Ready keys)
    (h : ∀ x ∈ items, ∀ e', e.GrowsTo e' → e'.Ready keys →
      Encodes (terms x) e' fun ls e'' => Captures e' e'' ls (P x)) :
    Encodes (Family.termsFor items terms) e fun ls e' => Captures e e' ls fun δ => ∀ x ∈ items, P x δ := by
  have hmap : Encodes (items.mapM terms) e fun ls e' => Captures e e' ls.flatten fun δ => ∀ x ∈ items, P x δ := by
    induction items generalizing e with
    | nil => exact Encodes.pure he.wellFormed ((Captures.nil e).congr fun δ => by simp)
    | cons x items ih =>
      obtain ⟨hx, hitems⟩ := List.forall_mem_cons.mp h
      rw [List.mapM_cons]
      refine (hx e (.refl he.wellFormed) he).bind fun l e' hgrow hl => ?_
      refine (ih (he.grow hgrow) fun x hx e' h => hitems x hx e' (hgrow.trans h)).bind fun ls e'' hgrow' hls => ?_
      refine Encodes.pure hgrow'.solver.wellFormed ((hl.append he hgrow hgrow' hls).congr fun δ => ?_)
      rw [List.forall_mem_cons]
  exact hmap.bind fun ls e' hgrow hls => Encodes.pure hgrow.solver.wellFormed hls

end Encodes
end PlaceRoute
