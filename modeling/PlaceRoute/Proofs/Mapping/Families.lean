import PlaceRoute.Proofs.Design.Wiring
import PlaceRoute.Proofs.Graph.Wiring
import PlaceRoute.Proofs.Mapping.Legal
import PlaceRoute.Proofs.Mapping.OneHot
import PlaceRoute.Proofs.Sorted

/-!
# Each family captures what it asks for

`Family.terms_captures`: on an encoder in which all decisions are declared, the terms of a family capture the plain
condition `Family.Holds` on the decisions. There is one lemma for each generator; no generator fails on a well wired
graph and design.
-/

namespace PlaceRoute

open PlaceRoute.Sat (Literal Assignment AgreeBelow)
open Encoder (build bit)

section
variable {g : Graph} {d : Design} {u n : NodeId} {op : Operation} {v : Value} {t : Terminal}

/-! ## Declared decisions -/

theorem place_mem_allKeys (hu : u ∈ g.units) (hop : op ∈ d.operations) : Key.place u op.id ∈ allKeys g d :=
  List.mem_append_left _ (List.mem_flatMap.mpr ⟨u, hu, List.mem_map_of_mem hop⟩)

theorem route_mem_allKeys (hn : n ∈ g.ids) (hv : v ∈ d.values) : Key.route n v.id ∈ allKeys g d :=
  List.mem_append_right _ (List.mem_flatMap.mpr ⟨n, hn, List.mem_flatMap.mpr ⟨v, hv, List.mem_cons_self⟩⟩)

theorem routeTo_mem_allKeys (hn : n ∈ g.ids) (hv : v ∈ d.values) (ht : t ∈ v.dsts) :
    Key.routeTo n v.id t ∈ allKeys g d :=
  List.mem_append_right _ (List.mem_flatMap.mpr ⟨n, hn, List.mem_flatMap.mpr
    ⟨v, hv, List.mem_cons_of_mem _ (List.mem_map_of_mem ht)⟩⟩)

end

namespace Family

/-! ## Counting -/

theorem oneHot_true_iff {α : Type} (p : α → Bool) (items : List α) :
    OneHot true (items.map p) ↔ items.countP p = 1 := by
  have hcount : (items.map p).count true = items.countP p := by
    rw [List.count, List.countP_map]
    exact List.countP_congr fun x _ => by simp
  unfold OneHot
  rw [hcount]
  exact ⟨fun h => h.2 rfl, fun h => ⟨Nat.le_of_eq h, fun _ => h⟩⟩

theorem oneHot_false_iff {α : Type} (p : α → Bool) (items : List α) :
    OneHot false (items.map p) ↔ items.countP p ≤ 1 := by
  have hcount : (items.map p).count true = items.countP p := by
    rw [List.count, List.countP_map]
    exact List.countP_congr fun x _ => by simp
  unfold OneHot
  rw [hcount]
  exact ⟨fun h => h.1, fun h => ⟨h, nofun⟩⟩

/-! ## The generators -/

variable {g : Graph} {d : Design} {e : Encoder}

section
variable {keys : List Key} {k k' : Key} {l l' : Literal}

theorem captures_off (he : e.Ready keys) (hlt : l.var < e.solver.vars) (hl : ∀ δ a, l.eval a = e.read δ a k) :
    Captures e e [-l] fun δ => δ k = false := by
  refine .single he (.refl he.wellFormed) (Solver.means_self hlt).neg fun {δ a} _ => ?_
  rw [hl δ a, Bool.not_eq_true']

/-- Declared decisions that are all off. -/
theorem captures_all_off (ks : List Key) {ls : List Literal} (hlt : ∀ l ∈ ls, l.var < e.solver.vars)
    (hls : ∀ δ a, Word.bits a ls = ks.map (e.read δ a)) :
    Captures e e (ls.map fun l => -l) fun δ => ∀ k ∈ ks, δ k = false := by
  have hiff (δ : Key → Bool) (a : Assignment) :
      (∀ l ∈ ls.map fun l => -l, l.eval a = true) ↔ ∀ k ∈ ks, e.read δ a k = false := by
    have hbits : (∀ l ∈ ls.map fun l => -l, l.eval a = true) ↔ ∀ b ∈ Word.bits a ls, b = false := by
      simp [Word.bits]
    rw [hbits, hls δ a, List.forall_mem_map]
  refine ⟨fun l hl => ?_, fun {δ a} _ hterms => (hiff δ a).mp hterms, fun {δ a} ha hp => ?_⟩
  · obtain ⟨k, hk, rfl⟩ := List.mem_map.mp hl
    exact hlt k hk
  · exact ⟨a, .refl _ _, ha, (hiff δ a).mpr hp⟩

theorem captures_same (he : e.Ready keys) (hlt : l.var < e.solver.vars) (hl : ∀ δ a, l.eval a = e.read δ a k)
    (hlt' : l'.var < e.solver.vars) (hl' : ∀ δ a, l'.eval a = e.read δ a k') :
    Encodes (build (Solver.iff l l')) e fun same e' => Captures e e' [same] fun δ => δ k = δ k' := by
  refine (Encodes.build (Solver.iff_means he.wellFormed (Solver.means_self hlt) (Solver.means_self hlt'))).mono
    fun same e' hgrow hsame => .single he hgrow hsame fun {δ a} _ => ?_
  rw [hl δ a, hl' δ a, beq_iff_eq]

end

theorem opPlacement_captures (he : e.Ready (allKeys g d)) :
    Encodes (opPlacementTerms g d) e fun ls e' => Captures e e' ls (OpsPlaced g d) := by
  refine Encodes.termsFor he fun op hop e _ he => ?_
  refine (he.bits fun u hu => place_mem_allKeys hu hop).bind fun bits e' _ hbits => ?_
  obtain ⟨rfl, hlt, hbits⟩ := hbits
  cases hdup : op.duplicate with
  | true =>
    refine (Encodes.build (Solver.orAll_means he.wellFormed hlt)).bind fun placed e' hgrow hplaced => ?_
    refine Encodes.pure hgrow.solver.wellFormed (.single he hgrow hplaced fun {δ a} _ => ?_)
    have hany : bits.any (·.eval a) = (g.units.map fun u => e.read δ a (.place u op.id)).any id := by
      rw [← hbits δ a, Word.bits, List.any_map]
      rfl
    rw [hany, List.any_map, List.any_eq_true]
    simp
  | false =>
    refine (oneHotTerms_captures he hlt hbits true).mono fun ls e' _ hls => hls.congr fun δ => ?_
    rw [oneHot_true_iff]
    simp

theorem peExclusivity_captures (he : e.Ready (allKeys g d)) :
    Encodes (peExclusivityTerms g d) e fun ls e' => Captures e e' ls (UnitsExclusive g d) := by
  refine Encodes.termsFor he fun u hu e _ he => ?_
  refine (he.bits fun op hop => place_mem_allKeys hu hop).bind fun bits e' _ hbits => ?_
  obtain ⟨rfl, hlt, hbits⟩ := hbits
  exact (oneHotTerms_captures he hlt hbits false).mono fun ls e' _ hls => hls.congr fun δ => oneHot_false_iff _ _

theorem peLegality_captures (he : e.Ready (allKeys g d)) :
    Encodes (peLegalityTerms g d) e fun ls e' => Captures e e' ls (PlacementsSupported g d) := by
  refine Encodes.termsFor he fun u hu e _ he => ?_
  refine Encodes.termsFor he fun op hop e _ he => ?_
  cases hsup : supports g u op with
  | true => exact Encodes.pure he.wellFormed ((Captures.nil e).congr fun δ => by simp)
  | false =>
    refine (he.bit (place_mem_allKeys hu hop)).bind fun place e' _ hplace => ?_
    obtain ⟨rfl, hlt, hplace⟩ := hplace
    exact Encodes.pure he.wellFormed ((captures_off he hlt hplace).congr fun δ => by simp)

theorem routeExclusivity_captures (he : e.Ready (allKeys g d)) :
    Encodes (routeExclusivityTerms g d) e fun ls e' => Captures e e' ls (NodesExclusive g d) := by
  refine Encodes.termsFor he fun n hn e _ he => ?_
  refine (he.bits fun v hv => route_mem_allKeys hn hv).bind fun bits e' _ hbits => ?_
  obtain ⟨rfl, hlt, hbits⟩ := hbits
  exact (oneHotTerms_captures he hlt hbits false).mono fun ls e' _ hls => hls.congr fun δ => oneHot_false_iff _ _

theorem routingResourceUsage_captures (he : e.Ready (allKeys g d)) :
    Encodes (routingResourceUsageTerms g d) e fun ls e' => Captures e e' ls (NetsAreFlows g d) := by
  refine Encodes.termsFor he fun n hn e _ he => ?_
  refine Encodes.termsFor he fun v hv e _ he => ?_
  refine (he.bit (route_mem_allKeys hn hv)).bind fun route e' _ hroute => ?_
  obtain ⟨rfl, hltr, hroute⟩ := hroute
  refine (he.bits fun t ht => routeTo_mem_allKeys hn hv ht).bind fun flows e' _ hflows => ?_
  obtain ⟨rfl, hlt, hflows⟩ := hflows
  refine (Encodes.build (Solver.orAll_means he.wellFormed hlt)).bind fun any e₁ h₁ hany => ?_
  have hroute₁ := (Solver.means_self hltr).grow h₁.solver
  refine (Encodes.build (Solver.iff_means h₁.solver.wellFormed hroute₁ hany)).bind fun same e₂ h₂ hsame => ?_
  refine Encodes.pure h₂.solver.wellFormed (.single he (h₁.trans h₂) hsame fun {δ a} _ => ?_)
  have hor : flows.any (·.eval a) = v.dsts.any fun t => e.read δ a (.routeTo n v.id t) := by
    have hmap : flows.any (·.eval a) = (Word.bits a flows).any id := by rw [Word.bits, List.any_map]; rfl
    rw [hmap, hflows δ a, List.any_map]
    rfl
  rw [hor, hroute δ a, beq_iff_eq, Bool.eq_iff_iff, List.any_eq_true]

/-- What the source of a value on a unit asks for. -/
def SourceHolds (g : Graph) (u : NodeId) (src : Operation) (v : Value) (δ : Key → Bool) : Prop :=
  if supports g u src = true then
    if src.duplicate = true then δ (.route u v.id) = δ (.place u src.id)
    else ∀ t ∈ v.dsts, δ (.routeTo u v.id t) = δ (.place u src.id)
  else δ (.route u v.id) = false ∧ ∀ t ∈ v.dsts, δ (.routeTo u v.id t) = false

/-- Values and their sources find each other. -/
theorem sourceHolds_iff (hd : d.WellWired) {δ : Key → Bool} : (∀ u ∈ g.units, ∀ src ∈ d.operations, ∀ v,
    src.output.bind d.value? = some v → SourceHolds g u src v δ) ↔ NetsStartAtSources g d δ := by
  refine forall₂_congr fun u _ => ⟨fun h v hv src hsrc => ?_, fun h src hsrc v hout => ?_⟩
  · obtain ⟨src', hsrc', hout⟩ := hd.src hv
    obtain rfl := Option.some.inj (hsrc.symm.trans hsrc')
    refine h src (List.mem_of_getElem? hsrc) v ?_
    rw [hout]
    exact hd.value?_of_mem hv
  · obtain ⟨i, hi, hv⟩ := Option.bind_eq_some_iff.mp hout
    obtain ⟨v', hv', hsrc'⟩ := hd.output hsrc hi
    obtain rfl := Option.some.inj (hv.symm.trans hv')
    exact h v (List.mem_of_getElem? hv) src (hsrc' ▸ hd.op?_of_mem hsrc)

theorem initValue_captures (hd : d.WellWired) (hg : g.WellWired) (he : e.Ready (allKeys g d)) :
    Encodes (initValueTerms g d) e fun ls e' => Captures e e' ls (NetsStartAtSources g d) := by
  suffices h : Encodes (initValueTerms g d) e fun ls e' => Captures e e' ls fun δ => ∀ u ∈ g.units,
      ∀ src ∈ d.operations, ∀ v, src.output.bind d.value? = some v → SourceHolds g u src v δ from
    h.mono fun ls e' _ hls => hls.congr fun δ => sourceHolds_iff hd
  refine Encodes.termsFor he fun u hu e _ he => ?_
  refine Encodes.termsFor he fun src hsrc e _ he => ?_
  have hun : u ∈ g.ids := hg.mem_ids.mpr (hg.has_of_unit hu)
  cases hout : src.output.bind d.value? with
  | none => exact Encodes.pure he.wellFormed ((Captures.nil e).congr fun δ => by simp)
  | some v =>
    obtain ⟨i, -, hv⟩ := Option.bind_eq_some_iff.mp hout
    have hv : v ∈ d.values := List.mem_of_getElem? hv
    simp only [Option.some.injEq, forall_eq']
    unfold SourceHolds
    cases hsup : supports g u src with
    | false =>
      refine (he.bit (route_mem_allKeys hun hv)).bind fun route e' _ hroute => ?_
      obtain ⟨rfl, hltr, hroute⟩ := hroute
      refine (he.bits fun t ht => routeTo_mem_allKeys hun hv ht).bind fun flows e' _ hflows => ?_
      obtain ⟨rfl, hlt, hflows⟩ := hflows
      have hoff := captures_all_off (.route u v.id :: v.dsts.map fun t => .routeTo u v.id t)
        (List.forall_mem_cons.mpr ⟨hltr, hlt⟩) fun δ a => by
          rw [Word.bits_cons, hroute δ a, hflows δ a, List.map_cons, List.map_map]
          rfl
      exact Encodes.pure he.wellFormed (hoff.congr fun δ => by simp)
    | true =>
      refine (he.bit (place_mem_allKeys hu hsrc)).bind fun place e' _ hplace => ?_
      obtain ⟨rfl, hltp, hplace⟩ := hplace
      cases hdup : src.duplicate with
      | true =>
        refine (he.bit (route_mem_allKeys hun hv)).bind fun route e' _ hroute => ?_
        obtain ⟨rfl, hltr, hroute⟩ := hroute
        refine (captures_same he hltr hroute hltp hplace).bind fun same e' hgrow hsame => ?_
        exact Encodes.pure hgrow.solver.wellFormed (hsame.congr fun δ => by simp)
      | false =>
        have hflow (t : Terminal) (ht : t ∈ v.dsts) (e' : Encoder) (hgrow : e.GrowsTo e')
            (he' : e'.Ready (allKeys g d)) : Encodes (do
              let flow ← bit (.routeTo u v.id t)
              build (Solver.iff flow place)) e' fun same e'' =>
            Captures e' e'' [same] fun δ => δ (.routeTo u v.id t) = δ (.place u src.id) := by
          refine (he'.bit (routeTo_mem_allKeys hun hv ht)).bind fun flow e'' _ hflow => ?_
          obtain ⟨rfl, hltf, hflow⟩ := hflow
          exact captures_same he' hltf hflow (Nat.lt_of_lt_of_le hltp hgrow.solver.vars_le) fun δ a => by
            rw [hgrow.read, hplace δ a]
        exact (Encodes.mapM_captures he hflow).mono fun ls e' _ hls => hls.congr fun δ => by simp

/-- What an operand of an operation on a unit asks for. -/
def OperandHolds (g : Graph) (u : NodeId) (n : Node) (op : Operation) (i : Nat) (j : ValueId) (δ : Key → Bool) : Prop :=
  (∀ entry ∈ n.operands.toList.filter fun (other, _) => other ≠ i, δ (.routeTo entry.2 j ⟨op.id, i⟩) = false) ∧
  match n.operandPort? i with
  | some p => δ (.routeTo p j ⟨op.id, i⟩) = (supports g u op && δ (.place u op.id))
  | none => supports g u op = true → δ (.place u op.id) = false

theorem operandHolds_iff {u : NodeId} {n : Node} {op : Operation} {i : Nat} {j : ValueId} {δ : Key → Bool} :
    OperandHolds g u n op i j δ ↔
      (∀ k p, n.operandPort? k = some p → k ≠ i → δ (.routeTo p j ⟨op.id, i⟩) = false) ∧
      match n.operandPort? i with
      | some p => δ (.routeTo p j ⟨op.id, i⟩) = (supports g u op && δ (.place u op.id))
      | none => supports g u op = true → δ (.place u op.id) = false := by
  refine and_congr_left' ⟨fun h k p hk hne => ?_, fun h entry hentry => ?_⟩
  · exact h (k, p) (List.mem_filter.mpr ⟨SortedMap.get?_eq_some_iff.mp hk, decide_eq_true hne⟩)
  · obtain ⟨hmem, hne⟩ := List.mem_filter.mp hentry
    exact h entry.1 entry.2 (SortedMap.get?_eq_some_iff.mpr hmem) (of_decide_eq_true hne)

theorem operand_captures (hd : d.WellWired) (hg : g.WellWired) (he : e.Ready (allKeys g d)) {u : NodeId} {n : Node}
    {op : Operation} {i : Nat} {j : ValueId} {place : Literal} (hu : u ∈ g.units) (hn : g.node? u = some n)
    (hop : op ∈ d.operations) (hij : (i, j) ∈ op.inputs.toList) (hlt : place.var < e.solver.vars)
    (hplace : ∀ δ a, place.eval a = e.read δ a (.place u op.id)) :
    Encodes (operandTerms g d u op place i j) e fun ls e' => Captures e e' ls (OperandHolds g u n op i j) := by
  obtain ⟨v, hv, ht⟩ := hd.input hop hij
  obtain rfl := hd.value_id hv
  have hmem : v ∈ d.values := List.mem_of_getElem? hv
  have hlisted : (d.value? v.id).any (fun w => decide ((⟨op.id, i⟩ : Terminal) ∈ w.dsts)) = true := by
    rw [hv]
    exact decide_eq_true ht
  have hport {k : Nat} {p : NodeId} (hp : (k, p) ∈ n.operands.toList) : Key.routeTo p v.id ⟨op.id, i⟩ ∈ allKeys g d := by
    obtain ⟨m, hm, hunit⟩ := hg.units.mp hu
    have hbound := (hg.bound_iff (i := k) (p := p) hn (Option.some.inj (hm.symm.trans hn) ▸ hunit)).mp
      (SortedMap.get?_eq_some_iff.mpr hp)
    exact routeTo_mem_allKeys (hg.mem_ids.mpr (hg.has_fanin hbound.1)) hmem ht
  unfold operandTerms
  simp only [hlisted, Bool.not_true, Bool.false_eq_true, if_false, hn, Option.map_some, Option.getD_some]
  have hstray (entry : Nat × NodeId) (hentry : entry ∈ n.operands.toList.filter fun x => x.1 ≠ i)
      (e' : Encoder) (_ : e.GrowsTo e') (he' : e'.Ready (allKeys g d)) : Encodes (do
        let stray ← bit (.routeTo entry.2 v.id ⟨op.id, i⟩)
        pure (-stray)) e' fun l e'' => Captures e' e'' [l] fun δ => δ (.routeTo entry.2 v.id ⟨op.id, i⟩) = false := by
    refine (he'.bit (hport ((List.mem_filter.mp hentry).1))).bind fun stray e'' _ hstray => ?_
    obtain ⟨rfl, hlts, hstray⟩ := hstray
    exact Encodes.pure he'.wellFormed (captures_off he' hlts hstray)
  refine (Encodes.mapM_captures he hstray).bind fun strays e₁ h₁ hstrays => ?_
  have he₁ := he.grow h₁
  have hlt₁ : place.var < e₁.solver.vars := Nat.lt_of_lt_of_le hlt h₁.solver.vars_le
  have hplace₁ (δ : Key → Bool) (a : Assignment) : place.eval a = e₁.read δ a (.place u op.id) := by
    rw [h₁.read, hplace δ a]
  have hbound : n.operands.get? i = n.operandPort? i := rfl
  rw [hbound]
  unfold OperandHolds
  cases hget : n.operandPort? i with
  | none =>
    cases hsup : supports g u op with
    | true =>
      refine Encodes.pure he₁.wellFormed ?_
      refine (hstrays.append he h₁ (.refl he₁.wellFormed) (captures_off he₁ hlt₁ hplace₁)).congr fun δ => ?_
      simp
    | false => exact Encodes.pure he₁.wellFormed (hstrays.congr fun δ => by simp)
  | some p =>
    refine (he₁.bit (hport (SortedMap.get?_eq_some_iff.mp hget))).bind fun flow e' _ hflow => ?_
    obtain ⟨rfl, hltf, hflow⟩ := hflow
    cases hsup : supports g u op with
    | true =>
      refine (captures_same he₁ hltf hflow hlt₁ hplace₁).bind fun same e₂ h₂ hsame => ?_
      exact Encodes.pure h₂.solver.wellFormed ((hstrays.append he h₁ h₂ hsame).congr fun δ => by simp)
    | false =>
      refine Encodes.pure he₁.wellFormed ?_
      refine (hstrays.append he h₁ (.refl he₁.wellFormed) (captures_off he₁ hltf hflow)).congr fun δ => ?_
      simp

theorem portPlacement_captures (hd : d.WellWired) (hg : g.WellWired) (he : e.Ready (allKeys g d)) :
    Encodes (portPlacementTerms g d) e fun ls e' => Captures e e' ls (FlowsEndAtPorts g d) := by
  have hplain (δ : Key → Bool) : (∀ u ∈ g.units, ∀ op ∈ d.operations, ∀ input ∈ op.inputs.toList, ∀ n,
      g.node? u = some n → OperandHolds g u n op input.1 input.2 δ) ↔ FlowsEndAtPorts g d δ := by
    refine forall₂_congr fun u hu => ⟨fun h n hn v t hflow dst hdst => ?_, fun h op hop input hinput n hn => ?_⟩
    · obtain ⟨op, hop, hinput⟩ := hd.dst hflow.1 hflow.2
      obtain rfl := Option.some.inj (hdst.symm.trans hop)
      have hholds := operandHolds_iff.mp (h dst (List.mem_of_getElem? hdst) _ hinput n hn)
      rw [hd.op_id hdst] at hholds ⊢
      exact hholds
    · obtain ⟨v, hv, ht⟩ := hd.input hop hinput
      have hholds := h n hn v ⟨op.id, input.1⟩ ⟨List.mem_of_getElem? hv, ht⟩ op (hd.op?_of_mem hop)
      rw [hd.value_id hv] at hholds
      exact operandHolds_iff.mpr hholds
  suffices h : Encodes (portPlacementTerms g d) e fun ls e' => Captures e e' ls fun δ =>
      ∀ u ∈ g.units, ∀ op ∈ d.operations, ∀ input ∈ op.inputs.toList, ∀ n, g.node? u = some n →
        OperandHolds g u n op input.1 input.2 δ from
    h.mono fun ls e' _ hls => hls.congr hplain
  refine Encodes.termsFor he fun u hu e _ he => ?_
  refine Encodes.termsFor he fun op hop e _ he => ?_
  obtain ⟨n, hn, -⟩ := hg.units.mp hu
  refine (he.bit (place_mem_allKeys hu hop)).bind fun place e' _ hplace => ?_
  obtain ⟨rfl, hlt, hplace⟩ := hplace
  refine Encodes.termsFor he fun input hinput e' hgrow he' => ?_
  refine (operand_captures hd hg he' hu hn hop hinput (Nat.lt_of_lt_of_le hlt hgrow.solver.vars_le) fun δ a => ?_).mono
    fun ls e'' _ hls => hls.congr fun δ => ?_
  · rw [hgrow.read, hplace δ a]
  · simp [hn]

theorem connectivity_captures (he : e.Ready (allKeys g d)) {nodes : List NodeId} {neighbours : NodeId → List NodeId}
    (hnodes : ∀ n ∈ nodes, n ∈ g.ids) (hneighbours : ∀ n ∈ nodes, ∀ m ∈ neighbours n, m ∈ g.ids) :
    Encodes (connectivityTerms d nodes neighbours) e fun ls e' => Captures e e' ls (Connected d · nodes neighbours) := by
  have hplain (δ : Key → Bool) : (∀ n ∈ nodes, ∀ flow ∈ d.flows, δ (.routeTo n flow.1 flow.2) = true →
      (neighbours n).countP (fun m => δ (.routeTo m flow.1 flow.2)) = 1) ↔ Connected d δ nodes neighbours := by
    refine forall₂_congr fun n _ => ⟨fun h v t hflow => ?_, fun h flow hflow => ?_⟩
    · exact h (v.id, t) (List.mem_flatMap.mpr ⟨v, hflow.1, List.mem_map_of_mem hflow.2⟩)
    · obtain ⟨v, hv, hflow⟩ := List.mem_flatMap.mp hflow
      obtain ⟨t, ht, rfl⟩ := List.mem_map.mp hflow
      exact h v t ⟨hv, ht⟩
  suffices h : Encodes (connectivityTerms d nodes neighbours) e fun ls e' => Captures e e' ls fun δ =>
      ∀ n ∈ nodes, ∀ flow ∈ d.flows, δ (.routeTo n flow.1 flow.2) = true →
      (neighbours n).countP (fun m => δ (.routeTo m flow.1 flow.2)) = 1 from
    h.mono fun ls e' _ hls => hls.congr hplain
  refine Encodes.termsFor he fun n hn e _ he => ?_
  refine Encodes.termsFor he fun flow hflow e _ he => ?_
  obtain ⟨v, hv, hflow⟩ := List.mem_flatMap.mp hflow
  obtain ⟨t, ht, rfl⟩ := List.mem_map.mp hflow
  refine (he.bit (routeTo_mem_allKeys (hnodes n hn) hv ht)).bind fun l e' _ hl => ?_
  obtain ⟨rfl, hltl, hl⟩ := hl
  refine (he.bits fun m hm => routeTo_mem_allKeys (hneighbours n hn m hm) hv ht).bind fun bits e' _ hbits => ?_
  obtain ⟨rfl, hlt, hbits⟩ := hbits
  refine (oneHot_judges he.wellFormed hlt true).bind fun r e₁ h₁ hr => ?_
  have hl₁ := (Solver.means_self hltl).grow h₁.solver
  refine (Encodes.build (Solver.implies_means h₁.solver.wellFormed hl₁ (Solver.means_self hr.lt))).bind
    fun term e₂ h₂ hterm => ?_
  refine Encodes.pure h₂.solver.wellFormed ((hr.pinned.grow h₁ h₂).captures he hterm.lt fun {δ a} ha hp => ?_)
  rw [hterm.eval ha, Bool.or_eq_true, Bool.not_eq_true', hr.iff (h₂.solver.respects ha) hp, hbits δ a, oneHot_true_iff,
    hl δ a]
  cases e.read δ a (.routeTo n v.id t) <;> simp

theorem mem_throughNodes {n : NodeId} (hn : n ∈ throughNodes g) : n ∈ g.ids := by
  obtain ⟨node, hnode, rfl⟩ := List.mem_map.mp hn
  exact List.mem_map_of_mem (List.mem_filter.mp hnode).1

/-- The terms of a family capture what the family asks for. -/
theorem terms_captures (hd : d.WellWired) (hg : g.WellWired) (he : e.Ready (allKeys g d)) (f : Family) :
    Encodes (f.terms g d) e fun ls e' => Captures e e' ls fun δ => f.Holds g d δ := by
  cases f with
  | opPlacement => exact opPlacement_captures he
  | peExclusivity => exact peExclusivity_captures he
  | peLegality => exact peLegality_captures he
  | routeExclusivity => exact routeExclusivity_captures he
  | initValue => exact initValue_captures hd hg he
  | portPlacement => exact portPlacement_captures hd hg he
  | inputConnectivity =>
    exact connectivity_captures he (fun n hn => hg.mem_ids.mpr (hg.has_of_routing hn))
      fun n _ m hm => hg.mem_ids.mpr (hg.has_fanin hm)
  | outputConnectivity =>
    exact connectivity_captures he (fun n hn => mem_throughNodes hn)
      fun n _ m hm => hg.mem_ids.mpr (hg.has_fanout hm)
  | routingResourceUsage => exact routingResourceUsage_captures he

end Family
end PlaceRoute
