import PlaceRoute.Mapping.Objective
import PlaceRoute.Proofs.Sorted
import PlaceRoute.Proofs.Success

/-!
# Walks along flows

`Walks next targets n nodes` says that the nodes from `n` on have one successor each until a target is met. The checker's
walk finds exactly these, within its fuel (`Model.walk_eq_ok_iff`). The paths of a model are such walks, from each host of a
source, and end at all targets (`Model.Traced`, `Model.traced`).
-/

namespace PlaceRoute

/-- From `n` every node has one successor, until a target is met. -/
inductive Walks (next : NodeId → List NodeId) (targets : List NodeId) : NodeId → List NodeId → Prop
  | stop {n : NodeId} : n ∈ targets → Walks next targets n [n]
  | step {n m : NodeId} {nodes : List NodeId} :
      n ∉ targets → next n = [m] → Walks next targets m nodes → Walks next targets n (n :: nodes)

namespace Walks

variable {next : NodeId → List NodeId} {targets nodes : List NodeId} {n x : NodeId}

theorem mem_start (h : Walks next targets n nodes) : n ∈ nodes := by cases h <;> exact List.mem_cons_self

/-- A walk that starts at a target stops there. -/
theorem iff_of_mem (hn : n ∈ targets) : Walks next targets n nodes ↔ nodes = [n] := by
  constructor
  · intro h
    cases h with
    | stop _ => rfl
    | step hnot _ _ => exact absurd hn hnot
  · rintro rfl
    exact .stop hn

/-- A walk that starts elsewhere goes on to the one next node. -/
theorem iff_of_not_mem (hn : n ∉ targets) :
    Walks next targets n nodes ↔ ∃ m rest, nodes = n :: rest ∧ next n = [m] ∧ Walks next targets m rest := by
  constructor
  · intro h
    cases h with
    | stop hmem => exact absurd hmem hn
    | step _ hm h => exact ⟨_, _, rfl, hm, h⟩
  · rintro ⟨m, rest, rfl, hm, h⟩
    exact .step hn hm h

theorem headD_eq (h : Walks next targets n nodes) : nodes.headD 0 = n := by cases h <;> rfl

theorem getLastD_mem (h : Walks next targets n nodes) : nodes.getLastD 0 ∈ nodes := by
  cases h <;> rw [List.getLastD_cons] <;> exact List.getLastD_mem_cons ..

/-- What successors keep holds of the whole walk. -/
theorem forall_mem {P : NodeId → Prop} (h : Walks next targets n nodes) (hn : P n)
    (hnext : ∀ x y, P x → y ∈ next x → P y) : ∀ x ∈ nodes, P x := by
  induction h with
  | stop _ => exact List.forall_mem_singleton.mpr hn
  | @step n m nodes _ hm _ ih =>
    exact List.forall_mem_cons.mpr ⟨hn, ih (hnext n m hn (hm ▸ List.mem_singleton_self m))⟩

/-- Every node but the first succeeds another one. -/
theorem exists_prev (h : Walks next targets n nodes) (hx : x ∈ nodes) :
    x = n ∨ ∃ y ∈ nodes, y ∉ targets ∧ x ∈ next y := by
  induction h with
  | stop _ => exact Or.inl (List.mem_singleton.mp hx)
  | @step n m nodes hn hm _ ih =>
    rcases List.mem_cons.mp hx with rfl | hx
    · exact Or.inl rfl
    rcases ih hx with rfl | ⟨y, hy, hnot, hxy⟩
    · exact Or.inr ⟨n, List.mem_cons_self, hn, hm ▸ List.mem_singleton_self _⟩
    · exact Or.inr ⟨y, List.mem_cons_of_mem _ hy, hnot, hxy⟩

/-- Every node is a target or has a successor on the walk. -/
theorem exists_next (h : Walks next targets n nodes) (hx : x ∈ nodes) : x ∈ targets ∨ ∃ y ∈ nodes, y ∈ next x := by
  induction h with
  | stop hn => exact Or.inl (List.mem_singleton.mp hx ▸ hn)
  | @step n m nodes _ hm h ih =>
    rcases List.mem_cons.mp hx with rfl | hx
    · exact Or.inr ⟨m, List.mem_cons_of_mem _ h.mem_start, hm ▸ List.mem_singleton_self m⟩
    rcases ih hx with hx | ⟨y, hy, hxy⟩
    · exact Or.inl hx
    · exact Or.inr ⟨y, List.mem_cons_of_mem _ hy, hxy⟩

/-- The nodes after the first are those that succeed another one. -/
theorem mem_tail_iff (h : Walks next targets n nodes) : x ∈ nodes.tail ↔ ∃ y ∈ nodes, y ∉ targets ∧ x ∈ next y := by
  induction h with
  | stop hn =>
    refine iff_of_false List.not_mem_nil ?_
    rintro ⟨y, hy, hnot, -⟩
    exact hnot (List.mem_singleton.mp hy ▸ hn)
  | @step n m nodes hn hm h ih =>
    rw [List.tail_cons]
    constructor
    · intro hx
      rcases h.exists_prev hx with rfl | ⟨y, hy, hnot, hxy⟩
      · exact ⟨n, List.mem_cons_self, hn, hm ▸ List.mem_singleton_self _⟩
      · exact ⟨y, List.mem_cons_of_mem _ hy, hnot, hxy⟩
    · rintro ⟨y, hy, hnot, hxy⟩
      rcases List.mem_cons.mp hy with rfl | hy
      · rw [hm, List.mem_singleton] at hxy
        exact hxy ▸ h.mem_start
      · exact List.mem_of_mem_tail (ih.mpr ⟨y, hy, hnot, hxy⟩)

/-- A target on a walk ends it. -/
theorem getLastD_of_mem_targets (h : Walks next targets n nodes) (hx : x ∈ nodes) (htarget : x ∈ targets) :
    nodes.getLastD 0 = x := by
  induction h with
  | stop _ => exact (List.mem_singleton.mp hx).symm
  | step hn _ h ih =>
    rcases List.mem_cons.mp hx with rfl | hx
    · exact absurd htarget hn
    · rw [← ih hx]
      cases h <;> rfl

/-- Two walks from one node are the same. -/
theorem unique {nodes' : List NodeId} (h : Walks next targets n nodes) (h' : Walks next targets n nodes') :
    nodes = nodes' := by
  induction h generalizing nodes' with
  | stop hn => exact ((iff_of_mem hn).mp h').symm
  | step hn hm _ ih =>
    obtain ⟨m', rest, rfl, hm', h'⟩ := (iff_of_not_mem hn).mp h'
    obtain rfl := List.singleton_inj.mp (hm.symm.trans hm')
    rw [ih h']

/-- From each of its nodes on, a walk is a walk. -/
theorem of_mem (h : Walks next targets n nodes) (hx : x ∈ nodes) :
    ∃ rest, Walks next targets x rest ∧ rest <:+ nodes ∧ rest.getLastD 0 = nodes.getLastD 0 := by
  induction h with
  | stop hn =>
    obtain rfl := List.mem_singleton.mp hx
    exact ⟨_, .stop hn, List.suffix_refl _, rfl⟩
  | step hn hm h ih =>
    rcases List.mem_cons.mp hx with rfl | hx
    · exact ⟨_, .step hn hm h, List.suffix_refl _, rfl⟩
    · obtain ⟨rest, hrest, hsuffix, hlast⟩ := ih hx
      refine ⟨rest, hrest, hsuffix.trans (List.suffix_cons ..), hlast.trans ?_⟩
      cases h <;> rfl

/-- Walks that meet end at the same node. -/
theorem getLastD_eq {n' : NodeId} {nodes' : List NodeId} (h : Walks next targets n nodes)
    (h' : Walks next targets n' nodes') (hx : x ∈ nodes) (hx' : x ∈ nodes') :
    nodes.getLastD 0 = nodes'.getLastD 0 := by
  obtain ⟨rest, hrest, -, hlast⟩ := h.of_mem hx
  obtain ⟨rest', hrest', -, hlast'⟩ := h'.of_mem hx'
  rw [← hlast, ← hlast', hrest.unique hrest']

/-- On a walk, one node only is followed by another one. -/
theorem prev_unique {y z : NodeId} (h : Walks next targets n nodes) (hx : x ∈ nodes) (hy : y ∈ nodes) (hxn : x ∉ targets)
    (hyn : y ∉ targets) (hxz : next x = [z]) (hyz : next y = [z]) : x = y := by
  obtain ⟨xs, hxs, hxsuffix, -⟩ := h.of_mem hx
  obtain ⟨ys, hys, hysuffix, -⟩ := h.of_mem hy
  obtain ⟨z₁, rest, rfl, hz₁, hrest⟩ := (iff_of_not_mem hxn).mp hxs
  obtain ⟨z₂, rest', rfl, hz₂, hrest'⟩ := (iff_of_not_mem hyn).mp hys
  obtain rfl := List.singleton_inj.mp (hxz.symm.trans hz₁)
  obtain rfl := List.singleton_inj.mp (hyz.symm.trans hz₂)
  obtain rfl := hrest.unique hrest'
  -- Both walks are the same number of nodes away from the end.
  have hlen : (x :: rest).length = (y :: rest).length := by rw [List.length_cons, List.length_cons]
  have hsame := (List.suffix_of_suffix_length_le hxsuffix hysuffix (Nat.le_of_eq hlen)).eq_of_length hlen
  exact (List.cons.inj hsame).1

/-- No walk leads back to its start. -/
theorem next_ne_start (h : Walks next targets n nodes) (hx : x ∈ nodes) (hxn : x ∉ targets) : next x ≠ [n] := by
  intro hnext
  obtain ⟨rest, hrest, hsuffix, -⟩ := h.of_mem hx
  obtain ⟨y, rest, rfl, hy, hwalk⟩ := (iff_of_not_mem hxn).mp hrest
  obtain rfl := List.singleton_inj.mp (hnext.symm.trans hy)
  obtain rfl := h.unique hwalk
  have hlen := hsuffix.length_le
  rw [List.length_cons] at hlen
  omega

/-- The walk from its last node of some kind on. -/
theorem exists_last {P : NodeId → Prop} (h : Walks next targets n nodes) (hx : x ∈ nodes) (hp : P x) :
    ∃ w rest, P w ∧ Walks next targets w rest ∧ rest <:+ nodes ∧ rest.getLastD 0 = nodes.getLastD 0 ∧
      ∀ y ∈ rest, y = w ∨ ¬ P y := by
  induction h generalizing x with
  | @stop n hn =>
    obtain rfl := List.mem_singleton.mp hx
    exact ⟨x, [x], hp, .stop hn, List.suffix_refl _, rfl, fun y hy => Or.inl (List.mem_singleton.mp hy)⟩
  | @step n m nodes hn hm h ih =>
    by_cases hlater : ∃ y ∈ nodes, P y
    · obtain ⟨y, hy, hpy⟩ := hlater
      obtain ⟨w, rest, hw, hrest, hsuffix, hlast, hothers⟩ := ih hy hpy
      refine ⟨w, rest, hw, hrest, hsuffix.trans (List.suffix_cons ..), hlast.trans ?_, hothers⟩
      cases h <;> rfl
    · have hnone : ∀ y ∈ nodes, ¬ P y := fun y hy hpy => hlater ⟨y, hy, hpy⟩
      rcases List.mem_cons.mp hx with rfl | hx
      · refine ⟨x, x :: nodes, hp, .step hn hm h, List.suffix_refl _, rfl, fun y hy => ?_⟩
        exact (List.mem_cons.mp hy).imp_right (hnone y)
      · exact absurd hp (hnone x hx)

/-- No node is met twice: from a node on, there is one way to the target only. -/
theorem nodup (h : Walks next targets n nodes) : nodes.Nodup := by
  induction h with
  | stop _ => exact List.pairwise_singleton _ _
  | @step n m nodes hn hm h ih =>
    refine List.nodup_cons.mpr ⟨fun hmem => ?_, ih⟩
    obtain ⟨rest, hrest, hsuffix, -⟩ := h.of_mem hmem
    -- The walk from the later visit on is the whole walk again, which is longer.
    obtain rfl := hrest.unique (.step hn hm h)
    have hlen := hsuffix.length_le
    rw [List.length_cons] at hlen
    omega

/-- Every node succeeds the one before it. -/
theorem isChain (h : Walks next targets n nodes) : nodes.IsChain fun x y => y ∈ next x := by
  induction h with
  | stop _ => exact .singleton _
  | @step n m nodes _ hm h ih =>
    have hnm : m ∈ next n := hm ▸ List.mem_singleton_self _
    cases h <;> exact .cons_cons hnm ih

theorem head?_eq (h : Walks next targets n nodes) : nodes.head? = some n := by cases h <;> rfl

/-- The last node is a target. -/
theorem exists_getLast?_eq (h : Walks next targets n nodes) : ∃ x ∈ targets, nodes.getLast? = some x := by
  induction h with
  | stop hn => exact ⟨_, hn, rfl⟩
  | step _ _ h ih =>
    obtain ⟨x, hx, hlast⟩ := ih
    refine ⟨x, hx, ?_⟩
    rw [List.getLast?_cons, hlast]
    rfl

/-- A chain of successors is a walk if only its last node is a target and all others have one successor. -/
theorem of_isChain (hchain : nodes.IsChain fun x y => y ∈ next x)
    (hone : ∀ x ∈ nodes.dropLast, x ∉ targets ∧ (next x).length = 1) (hhead : nodes.head? = some n)
    (hlast : nodes.getLast? = some x) (hx : x ∈ targets) : Walks next targets n nodes := by
  induction nodes generalizing n with
  | nil => cases hhead
  | cons y nodes ih =>
    obtain rfl : y = n := Option.some.inj hhead
    cases nodes with
    | nil =>
      obtain rfl : y = x := Option.some.inj hlast
      exact .stop hx
    | cons z nodes =>
      obtain ⟨hyz, hchain⟩ := List.isChain_cons_cons.mp hchain
      rw [List.dropLast_cons_cons] at hone
      obtain ⟨⟨hy, hlength⟩, hone⟩ := List.forall_mem_cons.mp hone
      obtain ⟨w, hw⟩ := List.length_eq_one_iff.mp hlength
      rw [hw, List.mem_singleton] at hyz
      exact .step hy (hyz ▸ hw) (ih hchain hone rfl (by rwa [List.getLast?_cons_cons] at hlast))

end Walks

namespace Model

variable {g : Graph} {d : Design} {m : Model} {v : ValueId} {t : Terminal} {targets nodes : List NodeId} {n x : NodeId}

/-! ### Models that decide alike -/

section
variable {m' : Model} (h : m'.isSet = m.isSet)
include h

theorem hosts_congr : m'.hosts g = m.hosts g := by
  funext op
  unfold hosts
  rw [h]

theorem targets_congr : m'.targets g t = m.targets g t := by
  unfold targets
  rw [hosts_congr h]

theorem nextNodes_congr : m'.nextNodes g v t = m.nextNodes g v t := by
  funext n
  unfold nextNodes
  rw [h]

theorem walk_congr {fuel : Nat} : m'.walk g d v t targets fuel n = m.walk g d v t targets fuel n := by
  induction fuel generalizing n with
  | zero => rw [walk, walk]
  | succ fuel ih =>
    unfold walk
    simp only [nextNodes_congr h, ih]

/-- What the paths are is a matter of the decisions. -/
theorem tracePaths_congr : m'.tracePaths g d = m.tracePaths g d := by
  unfold tracePaths traceFlow
  simp only [hosts_congr h, targets_congr h, walk_congr h, h]

end

/-! ### The checker's walk -/

/-- The checker's walk, within its fuel. -/
theorem walk_eq_ok_iff {fuel : Nat} : m.walk g d v t targets fuel n = .ok nodes ↔
    Walks (m.nextNodes g v t) targets n nodes ∧ nodes.length ≤ fuel + 1 := by
  induction fuel generalizing n nodes with
  | zero =>
    unfold walk
    split
    · next hn =>
      rw [Walks.iff_of_mem hn]
      constructor
      · rintro ⟨⟩
        exact ⟨rfl, Nat.le_refl _⟩
      · rintro ⟨rfl, -⟩
        rfl
    · next hn =>
      rw [Walks.iff_of_not_mem hn]
      refine iff_of_false (by rintro ⟨⟩) ?_
      rintro ⟨⟨next, rest, rfl, -, h⟩, hlen⟩
      have hpos := List.length_pos_of_mem h.mem_start
      rw [List.length_cons] at hlen
      omega
  | succ fuel ih =>
    unfold walk
    split
    · next hn =>
      rw [Walks.iff_of_mem hn]
      constructor
      · rintro ⟨⟩
        exact ⟨rfl, Nat.le_add_left _ _⟩
      · rintro ⟨rfl, -⟩
        rfl
    next hn =>
    rw [Walks.iff_of_not_mem hn]
    dsimp only
    split
    · next next hnext =>
      constructor
      · intro h
        obtain ⟨rest, hrest, h⟩ := bind_eq_ok h
        cases h
        obtain ⟨hrest, hlen⟩ := ih.mp hrest
        exact ⟨⟨next, rest, rfl, hnext, hrest⟩, by rw [List.length_cons]; omega⟩
      · rintro ⟨⟨next', rest, rfl, hnext', hrest⟩, hlen⟩
        rw [hnext] at hnext'
        cases hnext'
        rw [ih.mpr ⟨hrest, by rw [List.length_cons] at hlen; omega⟩]
        rfl
    · next hnext =>
      refine iff_of_false (by rintro ⟨⟩) ?_
      rintro ⟨⟨next, rest, -, hnext', -⟩, -⟩
      rw [hnext] at hnext'
      cases hnext'
    · next hnext _ =>
      refine iff_of_false (by rintro ⟨⟩) ?_
      rintro ⟨⟨next, rest, -, hnext', -⟩, -⟩
      exact hnext next hnext'

/-- The paths of a flow are the walks from the hosts of its source that carry it, and end at all its targets. -/
theorem traceFlow_eq_ok_iff {v : Value} {paths : List RoutedPath} : m.traceFlow g d v t = .ok paths ↔
    (((m.hosts g v.src).filter fun u => m.isSet (.routeTo u v.id t)).mapM fun source => do
      let nodes ← m.walk g d v.id t (m.targets g t).toList (g.routing.length + 1) source
      return (⟨v.id, t, nodes⟩ : RoutedPath)) = .ok paths ∧
    ∀ port ∈ m.targets g t, port ∈ paths.map (·.sink) := by
  unfold traceFlow
  dsimp only
  cases List.mapM (m := Except CheckError) _ _ with
  | error e =>
    refine iff_of_false (by rintro ⟨⟩) ?_
    rintro ⟨⟨⟩, -⟩
  | ok paths' =>
    rw [ok_bind]
    cases hfind : (m.targets g t).toList.find? fun port => port ∉ paths'.map (·.sink) with
    | some port =>
      refine iff_of_false (by rintro ⟨⟩) ?_
      rintro ⟨⟨⟩, hall⟩
      have hnot := List.find?_some hfind
      exact of_decide_eq_true hnot (hall port (List.mem_of_find?_eq_some hfind))
    | none =>
      have hall : ∀ port ∈ m.targets g t, port ∈ paths'.map (·.sink) := fun port hport => by
        have hnot := List.find?_eq_none.mp hfind port hport
        simpa only [decide_eq_true_eq, not_not] using hnot
      constructor
      · rintro ⟨⟩
        exact ⟨rfl, hall⟩
      · rintro ⟨⟨⟩, -⟩
        rfl

/-- Paths are walks along flows from hosts of their source; every host that carries a flow and every target of a flow is on
one of them. -/
structure Traced (g : Graph) (d : Design) (m : Model) (paths : List RoutedPath) : Prop where
  walks : ∀ p ∈ paths, ∃ v ∈ d.values, p.value = v.id ∧ p.terminal ∈ v.dsts ∧
    ∃ u ∈ m.hosts g v.src, m.isSet (.routeTo u v.id p.terminal) = true ∧
      Walks (m.nextNodes g v.id p.terminal) (m.targets g p.terminal).toList u p.nodes
  starts : ∀ v ∈ d.values, ∀ t ∈ v.dsts, ∀ u ∈ m.hosts g v.src, m.isSet (.routeTo u v.id t) = true →
    ∃ p ∈ paths, p.value = v.id ∧ p.terminal = t ∧ u ∈ p.nodes
  ends : ∀ v ∈ d.values, ∀ t ∈ v.dsts, ∀ port ∈ m.targets g t,
    ∃ p ∈ paths, p.value = v.id ∧ p.terminal = t ∧ port ∈ p.nodes

/-- A path of a flow is a walk. -/
theorem mem_traceFlow {v : Value} {paths : List RoutedPath} (h : m.traceFlow g d v t = .ok paths) {p : RoutedPath} :
    p ∈ paths ↔ p.value = v.id ∧ p.terminal = t ∧ ∃ u ∈ m.hosts g v.src, m.isSet (.routeTo u v.id t) = true ∧
      m.walk g d v.id t (m.targets g t).toList (g.routing.length + 1) u = .ok p.nodes := by
  rw [mem_mapM (traceFlow_eq_ok_iff.mp h).1]
  constructor
  · rintro ⟨u, hu, hp⟩
    obtain ⟨hhost, hset⟩ := List.mem_filter.mp hu
    obtain ⟨nodes, hnodes, hp⟩ := bind_eq_ok hp
    cases hp
    exact ⟨rfl, rfl, u, hhost, hset, hnodes⟩
  · rintro ⟨hv, ht, u, hhost, hset, hwalk⟩
    refine ⟨u, List.mem_filter.mpr ⟨hhost, hset⟩, ?_⟩
    rw [hwalk]
    cases p
    cases hv
    cases ht
    rfl

theorem traced {paths : List RoutedPath} (h : m.tracePaths g d = .ok paths) : m.Traced g d paths := by
  unfold tracePaths at h
  obtain ⟨byValue, hvalues, h⟩ := bind_eq_ok h
  cases h
  have hflow {v : Value} (hv : v ∈ d.values) {t : Terminal} (ht : t ∈ v.dsts) :
      ∃ paths, m.traceFlow g d v t = .ok paths ∧ ∀ p ∈ paths, p ∈ byValue.flatten := by
    obtain ⟨ofValue, hofValue⟩ := exists_of_mapM hvalues hv
    have hmem := (mem_mapM hvalues).mpr ⟨v, hv, hofValue⟩
    obtain ⟨byFlow, hflows, hflat⟩ := bind_eq_ok hofValue
    obtain ⟨paths, hpaths⟩ := exists_of_mapM hflows ht
    refine ⟨paths, hpaths, fun p hp => List.mem_flatten.mpr ⟨ofValue, hmem, ?_⟩⟩
    rw [← Except.ok.inj hflat]
    exact List.mem_flatten.mpr ⟨paths, (mem_mapM hflows).mpr ⟨t, ht, hpaths⟩, hp⟩
  refine ⟨fun p hp => ?_, fun v hv t ht u hu hset => ?_, fun v hv t ht port hport => ?_⟩
  · obtain ⟨ofValue, hofValue, hp⟩ := List.mem_flatten.mp hp
    obtain ⟨v, hv, h⟩ := (mem_mapM hvalues).mp hofValue
    obtain ⟨byFlow, hflows, hflat⟩ := bind_eq_ok h
    cases hflat
    obtain ⟨paths, hpaths, hp⟩ := List.mem_flatten.mp hp
    obtain ⟨t, ht, h⟩ := (mem_mapM hflows).mp hpaths
    obtain ⟨hpv, rfl, u, hu, hset, hwalk⟩ := (mem_traceFlow h).mp hp
    exact ⟨v, hv, hpv, ht, u, hu, hset, (walk_eq_ok_iff.mp hwalk).1⟩
  · obtain ⟨paths, hpaths, hsub⟩ := hflow hv ht
    obtain ⟨p, hp⟩ := exists_of_mapM (traceFlow_eq_ok_iff.mp hpaths).1 (List.mem_filter.mpr ⟨hu, hset⟩)
    obtain ⟨nodes, hnodes, hp'⟩ := bind_eq_ok hp
    cases hp'
    have hmem := (mem_traceFlow hpaths (p := ⟨v.id, t, nodes⟩)).mpr ⟨rfl, rfl, u, hu, hset, hnodes⟩
    exact ⟨_, hsub _ hmem, rfl, rfl, (walk_eq_ok_iff.mp hnodes).1.mem_start⟩
  · obtain ⟨paths, hpaths, hsub⟩ := hflow hv ht
    obtain ⟨p, hp, rfl⟩ := List.mem_map.mp ((traceFlow_eq_ok_iff.mp hpaths).2 port hport)
    obtain ⟨hpv, hpt, u, -, -, hwalk⟩ := (mem_traceFlow hpaths).mp hp
    exact ⟨p, hsub p hp, hpv, hpt, (walk_eq_ok_iff.mp hwalk).1.getLastD_mem⟩

end Model
end PlaceRoute
