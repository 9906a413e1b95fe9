import Mathlib.Data.List.Perm.Subperm
import PlaceRoute.Proofs.Graph.Progress

/-!
# Contracting ties

Breaking cycles changes nothing but that it puts ties in (`Draft.InsertsTies`): a tie has one driver and one consumer, and with
every tie replaced by an edge over it (`Draft.contracted`) the edges are those from before. Walks find an edge once only
(`nodup_backEdges`), so no edge is split twice and every policy succeeds on whatever fabrics give (`Draft.exists_inserted`).
-/

namespace PlaceRoute

/-- Whether the node was put in to break a cycle. -/
def Node.isTie (n : Node) : Bool := n.kind matches .tie

/-- The edges over a node: from each port that drives it to each port that it drives. -/
def Node.across (n : Node) : List Edge := n.incoming.flatMap fun e => n.outgoing.map fun x => ⟨e.src, e.srcPort, x.dst, x.dstPort⟩

theorem Node.isTie_iff {n : Node} : n.isTie = true ↔ n.kind = .tie := by
  unfold Node.isTie
  cases n.kind <;> simp

namespace Graph

/-! ## Walks find an edge once -/

section
variable {next : NodeId → List Edge} {path : List NodeId} {w : Walk} {n : NodeId} {fuel : Nat}

/-- The edges that a walk found start at nodes that it left or is in, and the nodes that it is in were not left. -/
structure Walk.Settled (path : List NodeId) (w : Walk) : Prop where
  nodup : w.back.Nodup
  source : ∀ x ∈ w.back, x.src ∈ w.done ∨ x.src ∈ path
  away : ∀ m ∈ path, m ∉ w.done

/-- Exploring a new node finds no edge twice, and none that starts at a node on the way. -/
theorem Walk.Settled.explore (hsrc : ∀ n, ∀ e ∈ next n, e.src = n) (hnext : ∀ n, (next n).Nodup) (hw : w.Settled path)
    (hn : n ∉ path) (hdone : n ∉ w.done) : (w.explore next fuel path n).Settled path ∧
      ∀ x ∈ (w.explore next fuel path n).back, x.src ∈ path → x ∈ w.back := by
  induction fuel generalizing path n w with
  | zero => exact ⟨hw, fun _ hx _ => hx⟩
  | succ fuel ih =>
    -- While the node's edges are gone through, those that are left were not found.
    have hloop {edges : List Edge} {v : Walk} (hedges : edges.Nodup) (hsub : ∀ e ∈ edges, e.src = n) (hv : v.Settled (n :: path))
        (hold : ∀ x ∈ v.back, x.src ∈ path → x ∈ w.back) (hleft : ∀ e ∈ edges, e ∉ v.back) :
        (edges.foldl (fun w e => if e.dst ∈ n :: path then { w with back := e :: w.back }
          else if e.dst ∈ w.done then w else w.explore next fuel (n :: path) e.dst) v).Settled (n :: path) ∧
        ∀ x ∈ (edges.foldl (fun w e => if e.dst ∈ n :: path then { w with back := e :: w.back }
          else if e.dst ∈ w.done then w else w.explore next fuel (n :: path) e.dst) v).back, x.src ∈ path → x ∈ w.back := by
      induction edges generalizing v with
      | nil => exact ⟨hv, hold⟩
      | cons e edges ihe =>
        obtain ⟨he, hedges⟩ := List.nodup_cons.mp hedges
        obtain ⟨hen, hsub⟩ := List.forall_mem_cons.mp hsub
        obtain ⟨heback, hleft⟩ := List.forall_mem_cons.mp hleft
        rw [List.foldl_cons]
        split
        · refine ihe hedges hsub ⟨List.nodup_cons.mpr ⟨heback, hv.nodup⟩, ?_, hv.away⟩ ?_ fun x hx hmem => ?_
          · exact List.forall_mem_cons.mpr ⟨Or.inr (hen ▸ List.mem_cons_self), hv.source⟩
          · exact List.forall_mem_cons.mpr ⟨fun h => absurd (hen ▸ h) hn, hold⟩
          · rcases List.mem_cons.mp hmem with rfl | hmem
            · exact he hx
            · exact hleft x hx hmem
        split
        · exact ihe hedges hsub hv hold hleft
        next hpath hfar =>
        obtain ⟨hv', hback⟩ := ih hv hpath hfar
        refine ihe hedges hsub hv' (fun x hx hxp => hold x (hback x hx (List.mem_cons_of_mem _ hxp)) hxp) fun x hx hmem => ?_
        exact hleft x hx (hback x hmem (hsub x hx ▸ List.mem_cons_self))
    have hstart : w.Settled (n :: path) :=
      ⟨hw.nodup, fun x hx => (hw.source x hx).imp_right (List.mem_cons_of_mem _), List.forall_mem_cons.mpr ⟨hdone, hw.away⟩⟩
    obtain ⟨hv, hback⟩ := hloop (hnext n) (hsrc n) hstart (fun _ hx _ => hx) fun e he hmem =>
      (hw.source e hmem).elim (fun h => hdone (hsrc n e he ▸ h)) (fun h => hn (hsrc n e he ▸ h))
    refine ⟨⟨hv.nodup, fun x hx => ?_, fun m hm => ?_⟩, hback⟩
    · rcases hv.source x hx with h | h
      · exact Or.inl (List.mem_cons_of_mem _ h)
      · rcases List.mem_cons.mp h with h | h
        · exact Or.inl (h ▸ List.mem_cons_self)
        · exact Or.inr h
    · rintro hmem
      rcases List.mem_cons.mp hmem with rfl | hmem
      · exact hn hm
      · exact hv.away m (List.mem_cons_of_mem _ hm) hmem

theorem nodup_backEdges {roots : List NodeId} (hsrc : ∀ n, ∀ e ∈ next n, e.src = n) (hnext : ∀ n, (next n).Nodup) :
    (backEdges next roots).Nodup := by
  unfold backEdges
  have hnodup {w : Walk} (hw : w.Settled []) : w.back.reverse.Nodup := List.nodup_reverse.mpr hw.nodup
  refine hnodup (List.foldlRecOn (motive := Walk.Settled []) roots _ ⟨List.nodup_nil, nofun, nofun⟩ fun w hw n _ => ?_)
  split
  · exact hw
  · next hdone => exact (hw.explore hsrc hnext List.not_mem_nil hdone).1

end

namespace Draft

variable {base d d' : Draft} {cut : List Edge} {e x : Edge} {i : Nat} {n : Node} {f : Fabric} {options : GraphOptions}

theorem nodup_muxEdges {id : NodeId} : (muxEdges d.node? id).Nodup := by
  unfold muxEdges
  refine List.Nodup.filter _ ?_
  cases d.node? id with
  | none => exact List.nodup_nil
  | some n => exact n.nodup_outgoing

theorem nodup_muxBackEdges (hd : d.Sound) : (muxBackEdges d.node? d.ids).Nodup :=
  nodup_backEdges (fun _ _ he => ((mem_muxEdges hd).mp he).2.1) fun _ => nodup_muxEdges

theorem nodup_allMuxEdges (hd : d.Sound) : d.allMuxEdges.Nodup := by
  refine List.nodup_flatMap.mpr ⟨fun n _ => nodup_muxEdges, ?_⟩
  refine ((List.pairwise_map.mp (nodup_ids hd)).sublist List.filter_sublist).imp fun {m n} hne x hxm hxn => ?_
  exact hne (((mem_muxEdges hd).mp hxm).2.1.symm.trans ((mem_muxEdges hd).mp hxn).2.1)

/-! ## Breaking cycles succeeds -/

/-- Each round splits some edge between muxes, so their number bounds the rounds, and the last of them finds no cycle. -/
theorem exists_breakBackEdges {fuel : Nat} (hd : d.Sound) (htidy : d.Tidy) (hfuel : d.allMuxEdges.length < fuel) :
    ∃ d', d.breakBackEdges fuel = .ok d' ∧ muxBackEdges d'.node? d'.ids = [] := by
  induction fuel generalizing d with
  | zero => exact absurd hfuel (Nat.not_lt_zero _)
  | succ fuel ih =>
    unfold breakBackEdges
    dsimp only
    by_cases hback : muxBackEdges d.node? d.ids = []
    · rw [hback, List.isEmpty_nil, if_pos rfl]
      exact ⟨d, rfl, hback⟩
    · have hjoins : ∀ e ∈ muxBackEdges d.node? d.ids, d.JoinsMuxes e := fun e => joinsMuxes_of_mem_muxBackEdges hd
      obtain ⟨d₁, h₁⟩ := exists_splitWithTies hd htidy (nodup_muxBackEdges hd) hjoins
      obtain ⟨hd₁, hs₁⟩ := (Splits.refl d).foldlM hd (fun e he => (hjoins e he).2) h₁
      obtain ⟨e, he⟩ := List.exists_mem_of_ne_nil _ hback
      have hfewer : (e :: d₁.allMuxEdges).length ≤ d.allMuxEdges.length := by
        refine (List.Nodup.subperm (List.nodup_cons.mpr ⟨fun hmem => ?_, nodup_allMuxEdges hd₁⟩) fun x hx => ?_).length_le
        · exact (hs₁.joinsMuxes_iff.mp ((mem_allMuxEdges hd₁).mp hmem)).2 he
        · rcases List.mem_cons.mp hx with rfl | hx
          · exact (mem_allMuxEdges hd).mpr (hjoins x he)
          · exact (mem_allMuxEdges hd).mpr (hs₁.joinsMuxes_iff.mp ((mem_allMuxEdges hd₁).mp hx)).1
      rw [List.length_cons] at hfewer
      obtain ⟨d', h', hnone⟩ := ih hd₁ (foldlM_induction Tidy htidy (fun _ _ _ _ htidy h => htidy.splitWithTie h) h₁) (by omega)
      refine ⟨d', ?_, hnone⟩
      rw [if_neg (by rwa [List.isEmpty_iff]), h₁, ok_bind]
      exact h'

theorem exists_breakCycles (hd : d.Sound) (htidy : d.Tidy) (policy : CycleBreak) : ∃ d', d.breakCycles policy = .ok d' := by
  cases policy with
  | backEdges =>
    obtain ⟨d', h, -⟩ := exists_breakBackEdges hd htidy (Nat.lt_succ_self _)
    exact ⟨d', h⟩
  | allMuxEdges => exact exists_splitWithTies hd htidy (nodup_allMuxEdges hd) fun e => (mem_allMuxEdges hd).mp
  | none => exact ⟨d, rfl⟩

theorem shell?_breakCycles {policy : CycleBreak} (hd : d.Sound) (h : d.breakCycles policy = .ok d') (hi : i < d.slots.size) :
    d'.shell? i = d.shell? i := by
  suffices hall : d'.Sound ∧ d.slots.size ≤ d'.slots.size ∧ d'.shell? i = d.shell? i from hall.2.2
  refine breakCycles_induction (P := fun d' => d'.Sound ∧ d.slots.size ≤ d'.slots.size ∧ d'.shell? i = d.shell? i)
    (fun {e d₁ d₂} ⟨hd₁, hsize, hshell⟩ h => ⟨hd₁.splitWithTie h, ?_, ?_⟩) ⟨hd, Nat.le_refl _, rfl⟩ h
  · exact Nat.le_trans hsize (size_splitWithTie h ▸ Nat.le_succ _)
  · exact (shell?_splitWithTie hd₁ h (Nat.lt_of_lt_of_le hi hsize)).trans hshell

/-! ## Drafts without their ties -/

/-- All edges, by source node. -/
def edges (d : Draft) : List Edge := d.nodes.flatMap (·.outgoing)

/-- The nodes that were put in to break cycles. -/
def ties (d : Draft) : List Node := d.nodes.filter (·.isTie)

/-- Whether an edge leads to or from a tie. -/
def touchesTie (d : Draft) (e : Edge) : Bool := (d.node? e.src).any (·.isTie) || (d.node? e.dst).any (·.isTie)

/-- The edges over ties. -/
def tieEdges (d : Draft) : List Edge := d.ties.flatMap (·.across)

/-- The edges when every tie is replaced by an edge over it. -/
def contracted (d : Draft) : List Edge := (d.edges.filter fun e => !d.touchesTie e) ++ d.tieEdges

/-- The draft `d` is `base` with ties put in between muxes, and otherwise the same. -/
structure InsertsTies (base d : Draft) : Prop where
  /-- Both ends of an edge keep it. -/
  mirrored : ∀ {e : Edge}, d.Sends e ↔ d.Has e
  /-- Earlier nodes keep their kinds. -/
  kind : ∀ {i : Nat}, i < base.slots.size → d.kind? i = base.kind? i
  /-- Earlier nodes keep their numbers, names, contexts and ports. -/
  shell : ∀ {i : Nat}, i < base.slots.size → d.shell? i = base.shell? i
  added : ∀ {i : Nat} {n : Node}, d.node? i = some n → base.slots.size ≤ i → n.isTie = true
  /-- A tie has one driver and one consumer. -/
  tie : ∀ n ∈ d.ties, ∃ e x, n.incoming = [e] ∧ n.outgoing = [x] ∧ d.kind? e.src = some .mux ∧ d.kind? x.dst = some .mux
  contracted : d.contracted.Perm base.edges

theorem mem_edges (hd : d.Sound) : e ∈ d.edges ↔ d.Has e := by
  unfold edges
  rw [List.mem_flatMap]
  constructor
  · rintro ⟨n, hn, he⟩
    exact ((hd.mem_outgoing ((mem_nodes hd).mp hn)).mp he).1
  · intro he
    obtain ⟨n, hn⟩ := (hd.ends he).1
    exact ⟨n, (mem_nodes hd).mpr (hd.id hn ▸ hn), (hd.mem_outgoing hn).mpr ⟨he, rfl⟩⟩

theorem nodup_edges (hd : d.Sound) : d.edges.Nodup := by
  refine List.nodup_flatMap.mpr ⟨fun n _ => n.nodup_outgoing, ?_⟩
  refine (List.pairwise_map.mp (nodup_ids hd)).imp_of_mem fun {m n} hm hn hne x hxm hxn => ?_
  exact hne (((hd.mem_outgoing ((mem_nodes hd).mp hm)).mp hxm).2.symm.trans ((hd.mem_outgoing ((mem_nodes hd).mp hn)).mp hxn).2)

theorem any_isTie_iff : (d.node? i).any (·.isTie) = true ↔ d.kind? i = some .tie := by
  unfold kind?
  rw [Option.any_eq_true, Option.map_eq_some_iff]
  exact exists_congr fun n => and_congr_right fun _ => Node.isTie_iff

theorem touchesTie_iff : d.touchesTie e = true ↔ d.kind? e.src = some .tie ∨ d.kind? e.dst = some .tie := by
  rw [touchesTie, Bool.or_eq_true, any_isTie_iff, any_isTie_iff]

theorem mem_ties (hd : d.Sound) : n ∈ d.ties ↔ d.node? n.id = some n ∧ n.kind = .tie := by
  rw [ties, List.mem_filter, mem_nodes hd, Node.isTie_iff]

theorem eq_singleton_of_mem_iff {l : List Edge} (hl : l.Nodup) (h : ∀ x, x ∈ l ↔ x = e) : l = [e] :=
  List.perm_singleton.mp ((List.perm_ext_iff_of_nodup hl (List.nodup_singleton e)).mpr fun x => by rw [h, List.mem_singleton])

namespace Splits

section
variable (hs : base.Splits d cut) (hb : base.Sound) (hd : d.Sound) {j : Nat}
include hs hb hd

/-- The tie at a place of the split edges has that edge's ends as its only neighbours. -/
theorem tie_wiring (hj : cut[j]? = some e) (hn : d.node? (base.slots.size + j) = some n) :
    n.incoming = [toTie e (base.slots.size + j)] ∧ n.outgoing = [fromTie e (base.slots.size + j)] := by
  have hold {x : Edge} (hx : base.Has x) : x.src < base.slots.size ∧ x.dst < base.slots.size := by
    obtain ⟨⟨m, hm⟩, m', hm'⟩ := hb.ends hx
    exact ⟨node?_lt hm, node?_lt hm'⟩
  have hcut {k : Nat} {y : Edge} (hk : cut[k]? = some y) : y.src < base.slots.size ∧ y.dst < base.slots.size :=
    hold (hs.joins y (List.mem_of_getElem? hk)).1
  have hfar {i : NodeId} (hi : i < base.slots.size) : i ≠ base.slots.size + j := Nat.ne_of_lt (Nat.lt_add_right j hi)
  have hsame {k : Nat} {y : Edge} (hk : cut[k]? = some y) (hkj : base.slots.size + k = base.slots.size + j) : k = j ∧ y = e := by
    obtain rfl := Nat.add_left_cancel hkj
    exact ⟨rfl, Option.some.inj (hk.symm.trans hj)⟩
  constructor
  · refine eq_singleton_of_mem_iff n.nodup_incoming fun x => ?_
    rw [hd.mem_incoming hn, hs.has]
    constructor
    · rintro ⟨⟨hx, -⟩ | ⟨k, y, hk, rfl | rfl⟩, hdst⟩
      · exact absurd hdst (hfar (hold hx).2)
      · obtain ⟨rfl, rfl⟩ := hsame hk hdst
        rfl
      · exact absurd hdst (hfar (hcut hk).2)
    · rintro rfl
      exact ⟨Or.inr ⟨j, e, hj, Or.inl rfl⟩, rfl⟩
  · refine eq_singleton_of_mem_iff n.nodup_outgoing fun x => ?_
    rw [hd.mem_outgoing hn, hs.has]
    constructor
    · rintro ⟨⟨hx, -⟩ | ⟨k, y, hk, rfl | rfl⟩, hsrc⟩
      · exact absurd hsrc (hfar (hold hx).1)
      · exact absurd hsrc (hfar (hcut hk).1)
      · obtain ⟨rfl, rfl⟩ := hsame hk hsrc
        rfl
    · rintro rfl
      exact ⟨Or.inr ⟨j, e, hj, Or.inr rfl⟩, rfl⟩

/-- So the edge over it is the split edge. -/
theorem across_tie (hj : cut[j]? = some e) (hn : d.node? (base.slots.size + j) = some n) : n.across = [e] := by
  obtain ⟨hin, hout⟩ := hs.tie_wiring hb hd hj hn
  rw [Node.across, hin, hout]
  rfl

variable (hu : ∀ i : Nat, base.kind? i ≠ some .tie)
include hu

omit hb hd in
/-- The ties are the nodes behind the old ones, one for each split edge. -/
theorem kind?_tie_iff : d.kind? i = some .tie ↔ ∃ j e, cut[j]? = some e ∧ i = base.slots.size + j := by
  constructor
  · intro hi
    have hlt := hs.size ▸ kind?_lt hi
    by_cases hold : i < base.slots.size
    · exact absurd (hs.old i hold ▸ hi) (hu i)
    · obtain ⟨j, rfl⟩ := Nat.exists_eq_add_of_le (Nat.le_of_not_lt hold)
      exact ⟨j, _, List.getElem?_eq_getElem (Nat.lt_of_add_lt_add_left hlt), rfl⟩
  · rintro ⟨j, e, hj, rfl⟩
    exact hs.tie j (List.getElem?_eq_some_iff.mp hj).1

omit hb in
theorem exists_of_mem_ties (hn : n ∈ d.ties) :
    ∃ j e, cut[j]? = some e ∧ n.id = base.slots.size + j ∧ d.node? (base.slots.size + j) = some n := by
  obtain ⟨hn, hk⟩ := (mem_ties hd).mp hn
  obtain ⟨j, e, hj, hid⟩ := (hs.kind?_tie_iff hu).mp (by rw [kind?_of_node? hn, hk])
  exact ⟨j, e, hj, hid, hid ▸ hn⟩

/-- The edges over ties are the split edges. -/
theorem tieEdges_perm : d.tieEdges.Perm cut := by
  have hacross {m : Node} (hm : m ∈ d.ties) : ∃ j e, cut[j]? = some e ∧ m.id = base.slots.size + j ∧ m.across = [e] := by
    obtain ⟨j, e, hj, hid, hnode⟩ := hs.exists_of_mem_ties hd hu hm
    exact ⟨j, e, hj, hid, hs.across_tie hb hd hj hnode⟩
  refine (List.perm_ext_iff_of_nodup (List.nodup_flatMap.mpr ⟨fun m hm => ?_, ?_⟩) hs.nodup).mpr fun x => ?_
  · obtain ⟨j, e, -, -, hm⟩ := hacross hm
    exact hm ▸ List.nodup_singleton e
  · refine ((List.pairwise_map.mp (nodup_ids hd)).sublist List.filter_sublist).imp_of_mem fun {m m'} hm hm' hne x hxm hxm' => ?_
    obtain ⟨j, e, hj, hid, hm⟩ := hacross hm
    obtain ⟨j', e', hj', hid', hm'⟩ := hacross hm'
    dsimp only at hxm hxm'
    rw [hm, List.mem_singleton] at hxm
    rw [hm', List.mem_singleton] at hxm'
    -- The split edges are all different, so two ties have different ones.
    have hjlt := (List.getElem?_eq_some_iff.mp hj).1
    have hplace : j = j' := (List.getElem?_inj hjlt hs.nodup).mp (by rw [hj, hj', ← hxm, ← hxm'])
    exact hne (by rw [hid, hid', hplace])
  · rw [List.mem_flatMap]
    constructor
    · rintro ⟨m, hm, hx⟩
      obtain ⟨j, e, hj, -, hm⟩ := hacross hm
      rw [hm, List.mem_singleton] at hx
      exact hx ▸ List.mem_of_getElem? hj
    · intro hx
      obtain ⟨j, hj⟩ := List.getElem?_of_mem hx
      obtain ⟨m, hm, hk⟩ := Option.map_eq_some_iff.mp (hs.tie j (List.getElem?_eq_some_iff.mp hj).1)
      refine ⟨m, (mem_ties hd).mpr ⟨hd.id hm ▸ hm, hk⟩, ?_⟩
      rw [hs.across_tie hb hd hj hm]
      exact List.mem_singleton_self x

omit hd in
/-- Away from ties the edges are those that were not split. -/
theorem has_and_not_touchesTie_iff : d.Has x ∧ d.touchesTie x = false ↔ base.Has x ∧ x ∉ cut := by
  have hat {y : Edge} {k : Nat} (hk : cut[k]? = some y) : d.kind? (base.slots.size + k) = some .tie :=
    (hs.kind?_tie_iff hu).mpr ⟨k, y, hk, rfl⟩
  rw [← Bool.not_eq_true, touchesTie_iff, not_or]
  constructor
  · rintro ⟨hx, hsrc, hdst⟩
    rcases hs.has.mp hx with hx | ⟨k, y, hk, rfl | rfl⟩
    · exact hx
    · exact absurd (hat hk) hdst
    · exact absurd (hat hk) hsrc
  · intro hx
    obtain ⟨⟨m, hm⟩, m', hm'⟩ := hb.ends hx.1
    refine ⟨hs.has.mpr (Or.inl hx), ?_, ?_⟩
    · rw [hs.old _ (node?_lt hm)]
      exact hu _
    · rw [hs.old _ (node?_lt hm')]
      exact hu _

/-- A draft with split edges is the old one with ties put in. -/
theorem insertsTies (hshell : ∀ {i : Nat}, i < base.slots.size → d.shell? i = base.shell? i) : base.InsertsTies d := by
  refine ⟨hd.sends_iff, fun {i} => hs.old i, hshell, fun {i n} hn hi => ?_, fun n hn => ?_, ?_⟩
  · obtain ⟨j, rfl⟩ := Nat.exists_eq_add_of_le hi
    have hj : j < cut.length := Nat.lt_of_add_lt_add_left (hs.size ▸ node?_lt hn)
    exact Node.isTie_iff.mpr (Option.some.inj ((kind?_of_node? hn).symm.trans (hs.tie j hj)))
  · obtain ⟨j, e, hj, -, hnode⟩ := hs.exists_of_mem_ties hd hu hn
    obtain ⟨hin, hout⟩ := hs.tie_wiring hb hd hj hnode
    obtain ⟨-, hsrc, hdst⟩ := hs.joins e (List.mem_of_getElem? hj)
    exact ⟨_, _, hin, hout, hs.kind?_mux.mpr hsrc, hs.kind?_mux.mpr hdst⟩
  · have hties := hs.tieEdges_perm hb hd hu
    have hrest {x : Edge} : (x ∈ d.edges.filter fun e => !d.touchesTie e) ↔ base.Has x ∧ x ∉ cut := by
      rw [List.mem_filter, mem_edges hd, Bool.not_eq_true', hs.has_and_not_touchesTie_iff hb hu]
    refine (List.perm_ext_iff_of_nodup (List.nodup_append.mpr ⟨(nodup_edges hd).filter _, hties.nodup_iff.mpr hs.nodup,
      fun x hx y hy hxy => ?_⟩) (nodup_edges hb)).mpr fun x => ?_
    · exact (hrest.mp hx).2 (hties.mem_iff.mp (hxy ▸ hy))
    · rw [List.mem_append, hrest, hties.mem_iff, mem_edges hb]
      constructor
      · rintro (⟨hx, -⟩ | hx)
        · exact hx
        · exact (hs.joins x hx).1
      · intro hx
        by_cases hcut : x ∈ cut
        · exact Or.inr hcut
        · exact Or.inl ⟨hx, hcut⟩

end

end Splits

/-- Breaking the cycles of a draft from a fabric succeeds and changes nothing but that it puts ties in. They go in until walks find no
cycle of muxes, or on every edge between muxes, on each its own. -/
theorem exists_inserted (h : unbroken f options = .ok base) (policy : CycleBreak) :
    ∃ d, base.breakCycles policy = .ok d ∧ base.InsertsTies d ∧
      (policy = .backEdges → muxBackEdges d.node? d.ids = []) ∧
      (policy = .allMuxEdges → d.allMuxEdges = [] ∧ d.tieEdges.Perm base.allMuxEdges) := by
  have hb := sound_unbroken h
  have htidy := tidy_unbroken h
  have hu := untied_unbroken h
  obtain ⟨d, hbreak⟩ := exists_breakCycles hb htidy policy
  have hd := hb.breakCycles hbreak
  obtain ⟨cut, hs⟩ := exists_splits_of_breakCycles hb hbreak
  refine ⟨d, hbreak, hs.insertsTies hb hd hu (shell?_breakCycles hb hbreak), ?_, ?_⟩
  · rintro rfl
    obtain ⟨d', hbreak', hnone⟩ := exists_breakBackEdges hb htidy (Nat.lt_succ_self _)
    obtain rfl : d = d' := Except.ok.inj (hbreak.symm.trans hbreak')
    exact hnone
  · rintro rfl
    have hs := splits_of_allMuxEdges hb hbreak
    refine ⟨List.eq_nil_iff_forall_not_mem.mpr fun e he => ?_, hs.tieEdges_perm hb hd hu⟩
    obtain ⟨hjoins, hcut⟩ := hs.joinsMuxes_iff.mp ((mem_allMuxEdges hd).mp he)
    exact hcut ((mem_allMuxEdges hb).mpr hjoins)

end Draft
end Graph

/-- Two muxes that drive each other twice, from and to ports of the same names. -/
def Fabric.tangle : Fabric where
  blocks := [{
    location := ⟨0, 0⟩
    instances := []
    muxes := [⟨"left", ["a", "b"], "x"⟩, ⟨"right", ["x", "y"], "a"⟩]
    operandPorts := [] }]
  ties := [⟨⟨⟨0, 0⟩, "left", "x"⟩, ⟨0, 0⟩, "right", "x"⟩, ⟨⟨⟨0, 0⟩, "left", "x"⟩, ⟨0, 0⟩, "right", "y"⟩,
    ⟨⟨⟨0, 0⟩, "right", "a"⟩, ⟨0, 0⟩, "left", "a"⟩, ⟨⟨⟨0, 0⟩, "right", "a"⟩, ⟨0, 0⟩, "left", "b"⟩]

/-- Its four edges get four ties. -/
theorem tangle_inserted : ∃ base d, Graph.Draft.unbroken .tangle {} = .ok base ∧ base.breakCycles .allMuxEdges = .ok d ∧
    base.InsertsTies d ∧ d.allMuxEdges = [] ∧ d.tieEdges.length = 4 := by
  obtain ⟨base, hbase, hfour⟩ := exists_ok_of_any (x := Graph.Draft.unbroken .tangle {})
    (p := fun base => base.allMuxEdges.length = 4) (by decide)
  obtain ⟨d, hbreak, hinserts, -, hall⟩ := Graph.Draft.exists_inserted hbase .allMuxEdges
  obtain ⟨hnone, hperm⟩ := hall rfl
  exact ⟨base, d, hbase, hbreak, hinserts, hnone, hperm.length_eq.trans (of_decide_eq_true hfour)⟩

end PlaceRoute
