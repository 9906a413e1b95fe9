import Mathlib.Data.List.Count
import PlaceRoute.Mapping.Family
import PlaceRoute.Proofs.Sorted

/-!
# What the families ask of decisions

`Family.Holds g d δ f` says in plain terms what the family `f` asks of the decisions `δ` about mapping the design `d` onto
the graph `g`: without literals, helper words or gates. The predicates can be decided, so a mapping can be tried out.
-/

namespace PlaceRoute

variable (g : Graph) (d : Design) (δ : Key → Bool)

/-- A flow of a value to one of its terminals. -/
def Design.HasFlow (v : Value) (t : Terminal) : Prop := v ∈ d.values ∧ t ∈ v.dsts

namespace Family

/-- Every operation stands on exactly one unit, or on at least one if it may be duplicated. -/
def OpsPlaced : Prop :=
  ∀ op ∈ d.operations,
    if op.duplicate = true then ∃ u ∈ g.units, δ (.place u op.id) = true
    else g.units.countP (fun u => δ (.place u op.id)) = 1

/-- Every unit hosts at most one operation. -/
def UnitsExclusive : Prop := ∀ u ∈ g.units, d.operations.countP (fun op => δ (.place u op.id)) ≤ 1

/-- No operation stands on a unit that does not support it. -/
def PlacementsSupported : Prop :=
  ∀ u ∈ g.units, ∀ op ∈ d.operations, supports g u op = false → δ (.place u op.id) = false

/-- Every node carries at most one net. -/
def NodesExclusive : Prop := ∀ n ∈ g.ids, d.values.countP (fun v => δ (.route n v.id)) ≤ 1

/-- A node carries a net exactly if it carries one of its flows. -/
def NetsAreFlows : Prop :=
  ∀ n ∈ g.ids, ∀ v ∈ d.values, δ (.route n v.id) = true ↔ ∃ t ∈ v.dsts, δ (.routeTo n v.id t) = true

/-- On a unit that cannot run the source of a value neither the net nor a flow is carried. On any other unit the net
of a source that may be duplicated is carried exactly if the source is there, and every flow of another source. -/
def NetsStartAtSources : Prop :=
  ∀ u ∈ g.units, ∀ v ∈ d.values, ∀ src, d.op? v.src = some src →
    if supports g u src = true then
      if src.duplicate = true then δ (.route u v.id) = δ (.place u src.id)
      else ∀ t ∈ v.dsts, δ (.routeTo u v.id t) = δ (.place u src.id)
    else δ (.route u v.id) = false ∧ ∀ t ∈ v.dsts, δ (.routeTo u v.id t) = false

/-- A flow is off at the ports of a unit that are bound to other operands. At the unit's port of its operand it is on
exactly if the unit supports and hosts the operation; a unit without such a port that supports it does not host it. -/
def FlowsEndAtPorts : Prop :=
  ∀ u ∈ g.units, ∀ n, g.node? u = some n → ∀ v t, d.HasFlow v t → ∀ dst, d.op? t.op = some dst →
    (∀ i p, n.operandPort? i = some p → i ≠ t.operand → δ (.routeTo p v.id t) = false) ∧
    match n.operandPort? t.operand with
    | some p => δ (.routeTo p v.id t) = (supports g u dst && δ (.place u dst.id))
    | none => supports g u dst = true → δ (.place u dst.id) = false

/-- A node of the list that carries a flow has exactly one neighbour that carries it. -/
def Connected (nodes : List NodeId) (neighbours : NodeId → List NodeId) : Prop :=
  ∀ n ∈ nodes, ∀ v t, d.HasFlow v t → δ (.routeTo n v.id t) = true →
    (neighbours n).countP (fun m => δ (.routeTo m v.id t)) = 1

/-- What a family asks of the decisions. -/
def Holds : Family → Prop
  | opPlacement => OpsPlaced g d δ
  | peExclusivity => UnitsExclusive g d δ
  | peLegality => PlacementsSupported g d δ
  | routeExclusivity => NodesExclusive g d δ
  | initValue => NetsStartAtSources g d δ
  | portPlacement => FlowsEndAtPorts g d δ
  | inputConnectivity => Connected d δ g.routing g.fanin
  | outputConnectivity => Connected d δ (throughNodes g) g.fanout
  | routingResourceUsage => NetsAreFlows g d δ

/-- The decisions are a mapping: they satisfy every family. -/
def AllHold : Prop := ∀ f : Family, f.Holds g d δ

end Family

/-- A model takes none but declared decisions, and they are a mapping. -/
structure Model.IsMapping (m : Model) : Prop where
  declared : ∀ {k : Key}, m.isSet k = true → k ∈ allKeys g d
  holds : Family.AllHold g d m.isSet

/-- A node that carries a flow carries its net. -/
def Family.FlowsHaveNets : Prop :=
  ∀ n ∈ g.ids, ∀ v ∈ d.values, ∀ t ∈ v.dsts, δ (.routeTo n v.id t) = true → δ (.route n v.id) = true

/-! ## Trying out decisions -/

section
variable {g : Graph} {d : Design} {δ : Key → Bool} {m : Model}

instance decidableForallOfEqSome {α : Type} {o : Option α} {P : α → Prop} [DecidablePred P] :
    Decidable (∀ x, o = some x → P x) :=
  inferInstanceAs (Decidable (∀ x, x ∈ o → P x))

theorem Family.NetsAreFlows.flowsHaveNets (h : Family.NetsAreFlows g d δ) : Family.FlowsHaveNets g d δ :=
  fun n hn v hv t ht hset => (h n hn v hv).mpr ⟨t, ht, hset⟩

theorem Design.forall_hasFlow_iff {P : Value → Terminal → Prop} :
    (∀ v t, d.HasFlow v t → P v t) ↔ ∀ v ∈ d.values, ∀ t ∈ v.dsts, P v t :=
  ⟨fun h v hv t ht => h v t ⟨hv, ht⟩, fun h v t hflow => h v hflow.1 t hflow.2⟩

instance Design.decidableForallHasFlow {P : Value → Terminal → Prop} [∀ v t, Decidable (P v t)] :
    Decidable (∀ v t, d.HasFlow v t → P v t) := decidable_of_iff' _ Design.forall_hasFlow_iff

theorem Node.forall_operandPort?_iff {n : Node} {P : Nat → NodeId → Prop} :
    (∀ i p, n.operandPort? i = some p → P i p) ↔ ∀ x ∈ n.operands.toList, P x.1 x.2 :=
  ⟨fun h x hx => h x.1 x.2 (SortedMap.get?_eq_some_iff.mpr hx), fun h i p hp => h (i, p) (SortedMap.get?_eq_some_iff.mp hp)⟩

instance Node.decidableForallOperandPort {n : Node} {P : Nat → NodeId → Prop} [∀ i p, Decidable (P i p)] :
    Decidable (∀ i p, n.operandPort? i = some p → P i p) := decidable_of_iff' _ Node.forall_operandPort?_iff

namespace Family

instance : Decidable (OpsPlaced g d δ) := by unfold OpsPlaced; infer_instance

instance : Decidable (UnitsExclusive g d δ) := by unfold UnitsExclusive; infer_instance

instance : Decidable (PlacementsSupported g d δ) := by unfold PlacementsSupported; infer_instance

instance : Decidable (NodesExclusive g d δ) := by unfold NodesExclusive; infer_instance

instance : Decidable (NetsAreFlows g d δ) := by unfold NetsAreFlows; infer_instance

instance : Decidable (NetsStartAtSources g d δ) := by unfold NetsStartAtSources; infer_instance

instance {nodes : List NodeId} {neighbours : NodeId → List NodeId} : Decidable (Connected d δ nodes neighbours) := by
  unfold Connected; infer_instance

/-- The port of the operand and the lack of one, apart. -/
theorem flowsEndAtPorts_iff : FlowsEndAtPorts g d δ ↔ ∀ u ∈ g.units, ∀ n, g.node? u = some n → ∀ v t, d.HasFlow v t →
    ∀ dst, d.op? t.op = some dst →
      (∀ i p, n.operandPort? i = some p → i ≠ t.operand → δ (.routeTo p v.id t) = false) ∧
      (∀ p, n.operandPort? t.operand = some p → δ (.routeTo p v.id t) = (supports g u dst && δ (.place u dst.id))) ∧
      (n.operandPort? t.operand = none → supports g u dst = true → δ (.place u dst.id) = false) := by
  unfold FlowsEndAtPorts
  refine forall₄_congr fun u _ n _ => forall₃_congr fun v t _ => forall₂_congr fun dst _ => and_congr_right' ?_
  cases n.operandPort? t.operand <;> simp

instance : Decidable (FlowsEndAtPorts g d δ) := decidable_of_iff' _ flowsEndAtPorts_iff

instance (f : Family) : Decidable (f.Holds g d δ) := match f with
  | opPlacement => inferInstanceAs (Decidable (OpsPlaced g d δ))
  | peExclusivity => inferInstanceAs (Decidable (UnitsExclusive g d δ))
  | peLegality => inferInstanceAs (Decidable (PlacementsSupported g d δ))
  | routeExclusivity => inferInstanceAs (Decidable (NodesExclusive g d δ))
  | initValue => inferInstanceAs (Decidable (NetsStartAtSources g d δ))
  | portPlacement => inferInstanceAs (Decidable (FlowsEndAtPorts g d δ))
  | inputConnectivity => inferInstanceAs (Decidable (Connected d δ g.routing g.fanin))
  | outputConnectivity => inferInstanceAs (Decidable (Connected d δ (throughNodes g) g.fanout))
  | routingResourceUsage => inferInstanceAs (Decidable (NetsAreFlows g d δ))

theorem mem_all (f : Family) : f ∈ all := by cases f <;> decide

/-- Decisions that satisfy the families of a list are mappings, if the list holds all families. -/
theorem forall_mem_iff_allHold {families : List Family} (hall : ∀ f : Family, f ∈ families) :
    (∀ f ∈ families, f.Holds g d δ) ↔ AllHold g d δ :=
  ⟨fun h f => h f (hall f), fun h f _ => h f⟩

instance : Decidable (AllHold g d δ) := decidable_of_iff _ (forall_mem_iff_allHold mem_all)

end Family

theorem Model.forall_isSet_iff {P : Key → Prop} :
    (∀ {k : Key}, m.isSet k = true → P k) ↔ ∀ x ∈ m.values.toList, x.2 = 1 → P x.1 := by
  have hset {k : Key} : m.isSet k = true ↔ (k, 1) ∈ m.values.toList := by
    unfold isSet get?
    rw [beq_iff_eq, Std.TreeMap.mem_toList_iff_getElem?_eq_some]
  exact ⟨fun h x hx hone => h (hset.mpr (hone ▸ hx)), fun h k hk => h _ (hset.mp hk) rfl⟩

theorem Model.isMapping_iff : m.IsMapping g d ↔
    (∀ x ∈ m.values.toList, x.2 = 1 → x.1 ∈ allKeys g d) ∧ Family.AllHold g d m.isSet :=
  ⟨fun h => ⟨forall_isSet_iff.mp h.declared, h.holds⟩, fun h => ⟨forall_isSet_iff.mpr h.1, h.2⟩⟩

instance : Decidable (m.IsMapping g d) := decidable_of_iff' _ Model.isMapping_iff

end
end PlaceRoute
