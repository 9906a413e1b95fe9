import PlaceRoute.Proofs.Graph.Progress

/-!
# Taking registers out

Taking a register out joins the edge into it with the edges out of it (`Bypassed`, `Draft.has_elideRegister`) and changes no other
node (`Draft.bare?_elideRegister`). When registers are taken out one after the other, the edges that are left are the chains of
edges over these registers (`Spans`), as a chain can be cut at the register that goes first (`spans_bypassed_iff`). So the order in
which registers go is of no account (`Draft.elideRegisters_eq_ok`). The edges into units stay whatever ports registers have.
-/

namespace PlaceRoute

/-! ## Chains of edges -/

/-- An edge from where one edge starts to where another ends. -/
def Edge.followedBy (e x : Edge) : Edge := ⟨e.src, e.srcPort, x.dst, x.dstPort⟩

/-- A chain of edges that are joined at certain nodes, as the edge from its start to its end. The ports at which it enters and
leaves these nodes do not matter. -/
inductive Spans (has : Edge → Prop) (via : NodeId → Prop) : Edge → Prop where
  | edge {e : Edge} (he : has e) : Spans has via e
  | join {e x : Edge} (he : Spans has via e) (hvia : via e.dst) (hx : has x) (hsrc : x.src = e.dst) :
    Spans has via (e.followedBy x)

/-- The edges when a node is taken out: those that do not touch it, and those into it joined with those out of it. -/
def Bypassed (has : Edge → Prop) (r : NodeId) (x : Edge) : Prop :=
  has x ∧ x.src ≠ r ∧ x.dst ≠ r ∨ ∃ e y, has e ∧ e.dst = r ∧ has y ∧ y.src = r ∧ x = e.followedBy y

section
variable {has : Edge → Prop} {via : NodeId → Prop} {e x y : Edge} {r : NodeId}

namespace Spans

/-- Chains can be joined as edges can. -/
theorem trans (h : Spans has via e) (hvia : via e.dst) (hx : Spans has via x) (hsrc : x.src = e.dst) :
    Spans has via (e.followedBy x) := by
  induction hx with
  | edge hx => exact .join h hvia hx hsrc
  | @join c y _ hmid hy hnext ih => exact .join (e := e.followedBy c) (x := y) (ih hsrc) hmid hy hnext

/-- The last edge of a chain. -/
theorem last (h : Spans has via e) : ∃ x, has x ∧ x.dst = e.dst ∧ x.dstPort = e.dstPort := by
  cases h with
  | edge he => exact ⟨e, he, rfl, rfl⟩
  | join _ _ hx _ => exact ⟨_, hx, rfl, rfl⟩

/-- Over no nodes at all chains are edges. -/
theorem has_of_forall_not (hnone : ∀ i, ¬ via i) (h : Spans has via e) : has e := by
  cases h with
  | edge he => exact he
  | join _ hvia _ _ => exact absurd hvia (hnone _)

/-- Two chains with one end, over nodes with a single driver each. When one of them starts at such a node, to which nothing leads,
the other is a part of it, so it starts at such a node too. -/
theorem via_src (hunique : ∀ {e x}, has e → has x → x.dst = e.dst → x.dstPort = e.dstPort → x = e)
    (hsingle : ∀ {e x}, has e → has x → via e.dst → x.dst = e.dst → x.dstPort = e.dstPort) (h : Spans has via e)
    (hfirst : ∀ y, has y → y.dst ≠ e.src) (hvia : via e.src) (hx : Spans has via x) (hdst : x.dst = e.dst)
    (hport : x.dstPort = e.dstPort) : via x.src := by
  induction h generalizing x with
  | @edge e he =>
    cases hx with
    | edge hx => rwa [hunique he hx hdst hport]
    | @join c y hc _ hy hsrc =>
      -- The chain would come over an edge into the start.
      obtain rfl : y = e := hunique he hy hdst hport
      obtain ⟨z, hz, hend, -⟩ := hc.last
      exact absurd (hend.trans hsrc.symm) (hfirst z hz)
  | @join c y hc hmid hy hsrc ih =>
    cases hx with
    | edge hx =>
      rw [hunique hy hx hdst hport, hsrc]
      exact hmid
    | @join c' y' hc' _ hy' hsrc' =>
      obtain rfl : y' = y := hunique hy hy' hdst hport
      have hmeet : c'.dst = c.dst := hsrc'.symm.trans hsrc
      obtain ⟨z, hz, hzdst, hzport⟩ := hc.last
      obtain ⟨z', hz', hzdst', hzport'⟩ := hc'.last
      have hport : c'.dstPort = c.dstPort := by
        rw [← hzport, ← hzport']
        exact hsingle hz hz' (hzdst ▸ hmid) (hzdst'.trans (hmeet.trans hzdst.symm))
      exact ih (x := c') hfirst hvia hc' hmeet hport

end Spans

/-- Chains over a node and others are chains over the others when the node is taken out. -/
theorem spans_bypassed_iff (hloopless : ∀ {e}, has e → e.src ≠ e.dst) :
    Spans (Bypassed has r) via x ↔ x.src ≠ r ∧ x.dst ≠ r ∧ Spans has (fun i => i = r ∨ via i) x := by
  constructor
  · intro h
    have hedge {x : Edge} (hx : Bypassed has r x) : x.src ≠ r ∧ x.dst ≠ r ∧ Spans has (fun i => i = r ∨ via i) x := by
      rcases hx with ⟨hx, hsrc, hdst⟩ | ⟨e, y, he, hin, hy, hout, rfl⟩
      · exact ⟨hsrc, hdst, .edge hx⟩
      · exact ⟨hin ▸ hloopless he, hout ▸ (hloopless hy).symm, .join (.edge he) (Or.inl hin) hy (hout.trans hin.symm)⟩
    induction h with
    | edge hx => exact hedge hx
    | join _ hvia hx hjoin ih =>
      obtain ⟨hsrc, -, he⟩ := ih
      obtain ⟨-, hdst, hx⟩ := hedge hx
      exact ⟨hsrc, hdst, he.trans (Or.inr hvia) hx hjoin⟩
  · rintro ⟨hsrc, hdst, h⟩
    -- A chain that ends at the node is a chain without it once it goes on.
    have hboth : (x.dst ≠ r → Spans (Bypassed has r) via x) ∧
        (x.dst = r → ∀ y, has y → y.src = r → Spans (Bypassed has r) via (x.followedBy y)) := by
      clear hdst
      induction h with
      | edge hx => exact ⟨fun hdst => .edge (Or.inl ⟨hx, hsrc, hdst⟩),
          fun hdst y hy hout => .edge (Or.inr ⟨_, y, hx, hdst, hy, hout, rfl⟩)⟩
      | @join c x _ hvia hx hjoin ih =>
        obtain ⟨haway, hat⟩ := ih hsrc
        refine ⟨fun hdst => ?_, fun hdst y hy hout => ?_⟩
        · by_cases hc : c.dst = r
          · exact hat hc x hx (hjoin.trans hc)
          · exact .join (haway hc) (hvia.resolve_left hc) (Or.inl ⟨hx, fun h => hc (hjoin.symm.trans h), hdst⟩) hjoin
        · have hc : c.dst ≠ r := fun hc => hloopless hx ((hjoin.trans hc).trans hdst.symm)
          have hlast : Bypassed has r (x.followedBy y) := Or.inr ⟨x, y, hx, hdst, hy, hout, rfl⟩
          exact .join (e := c) (x := x.followedBy y) (haway hc) (hvia.resolve_left hc) hlast hjoin
    exact hboth.1 hdst

end

/-- What a node is, without its wiring. -/
def Node.bare (n : Node) : NodeKind × Node.Shell := (n.kind, n.shell)

namespace Graph
namespace Draft

variable {d d' : Draft} {e x : Edge} {i r : NodeId}

/-! ## Edits that change no node but its wiring -/

/-- The node with a number, without its wiring. -/
def bare? (d : Draft) (i : NodeId) : Option (NodeKind × Node.Shell) := (d.node? i).map Node.bare

theorem bare?_eq (d : Draft) (i : NodeId) : d.bare? i = (d.kind? i).bind fun k => (d.shell? i).map (k, ·) := by
  unfold bare? kind? shell?
  cases d.node? i <;> rfl

theorem kind?_eq_map (d : Draft) (i : NodeId) : d.kind? i = (d.bare? i).map (·.1) := by
  rw [bare?, Option.map_map]
  rfl

theorem shell?_eq_map (d : Draft) (i : NodeId) : d.shell? i = (d.bare? i).map (·.2) := by
  rw [bare?, Option.map_map]
  rfl

theorem kind?_eq_of_bare? (h : d'.bare? i = d.bare? i) : d'.kind? i = d.kind? i := by rw [kind?_eq_map, kind?_eq_map, h]

theorem shell?_eq_of_bare? (h : d'.bare? i = d.bare? i) : d'.shell? i = d.shell? i := by rw [shell?_eq_map, shell?_eq_map, h]

theorem Routes.congr (hi : d.Routes i) (h : d'.bare? i = d.bare? i) : d'.Routes i := by
  rwa [Routes, kind?_eq_of_bare? h]

/-- A node other than a unit does not change when an edge to it is added. -/
theorem bare?_wire (hd : d.Sound) (h : d.wire e = .ok d') (he : d.Routes e.dst) (i : NodeId) : d'.bare? i = d.bare? i := by
  have hkind : d'.kind? i = d.kind? i := by
    rcases kind?_wire hd h with ⟨ops, operands, operand, hunit, -⟩ | ⟨-, hkind⟩
    · obtain ⟨k, hk, hrouting⟩ := he
      rw [hunit] at hk
      cases hk
      cases hrouting
    · exact hkind i
  rw [bare?_eq, bare?_eq, hkind, shell?_wire hd h]

/-- Nor does it when an edge to it is removed. -/
theorem bare?_unwire (hd : d.Sound) (h : d.unwire e = .ok d') (he : d.Routes e.dst) (i : NodeId) : d'.bare? i = d.bare? i := by
  have hkind : d'.kind? i = d.kind? i := by
    rw [kind?_unwire hd h]
    split
    · next hi =>
      obtain ⟨k, hk, hrouting⟩ := he
      rw [hi, hk, Option.map_some]
      cases k with
      | functionalUnit ops operands => cases hrouting
      | _ => rfl
    · rfl
  rw [bare?_eq, bare?_eq, hkind, shell?_unwire hd h]

theorem bare?_removeNode {j : NodeId} : (d.removeNode i).bare? j = if j = i then none else d.bare? j := by
  unfold bare?
  rw [node?_removeNode]
  split <;> rfl

theorem has_removeNode : (d.removeNode i).Has x ↔ d.Has x ∧ x.dst ≠ i := by
  unfold Has
  rw [node?_removeNode]
  split
  · next hx => exact iff_of_false (by simp) fun h => h.2 hx
  · next hx => exact (and_iff_left hx).symm

/-- Removing edges to nodes other than units one after the other. -/
theorem bare?_unwires {edges : List Edge} (hd : d.Sound) (hedges : ∀ e ∈ edges, d.Routes e.dst)
    (h : edges.foldlM unwire d = .ok d') (i : NodeId) : d'.bare? i = d.bare? i :=
  (foldlM_induction (fun d' => d'.Sound ∧ ∀ i, d'.bare? i = d.bare? i) ⟨hd, fun _ => rfl⟩ (fun _ e _ he ⟨hs, hbare⟩ h =>
    ⟨hs.unwire h, fun i => (bare?_unwire hs h ((hedges e he).congr (hbare _)) i).trans (hbare i)⟩) h).2 i

/-- Adding edges, which are made from others, one after the other. -/
theorem Sound.wires {edges : List Edge} {new : Edge → Edge} (hd : d.Sound)
    (h : edges.foldlM (fun d e => d.wire (new e)) d = .ok d') : d'.Sound ∧ ∀ {x : Edge}, d'.Has x ↔ d.Has x ∨ ∃ e ∈ edges, x = new e := by
  induction edges generalizing d with
  | nil =>
    cases h
    exact ⟨hd, by simp⟩
  | cons e edges ih =>
    rw [List.foldlM_cons] at h
    obtain ⟨d₁, he, h⟩ := bind_eq_ok h
    obtain ⟨hd', hhas⟩ := ih (hd.wire he) h
    refine ⟨hd', fun {x} => ?_⟩
    rw [hhas, has_wire hd he, List.exists_mem_cons_iff, or_assoc, or_left_comm]

theorem bare?_wires {edges : List Edge} (new : Edge → Edge) (hd : d.Sound) (hedges : ∀ e ∈ edges, d.Routes (new e).dst)
    (h : edges.foldlM (fun d e => d.wire (new e)) d = .ok d') (i : NodeId) : d'.bare? i = d.bare? i :=
  (foldlM_induction (fun d' => d'.Sound ∧ ∀ i, d'.bare? i = d.bare? i) ⟨hd, fun _ => rfl⟩ (fun _ e _ he ⟨hs, hbare⟩ h =>
    ⟨hs.wire h, fun i => (bare?_wire hs h ((hedges e he).congr (hbare _)) i).trans (hbare i)⟩) h).2 i

/-! ## One register -/

/-- A node declares one input port at most. -/
def SingleInput (d : Draft) (i : NodeId) : Prop := ∀ p q, d.HasInput i p → d.HasInput i q → p = q

theorem SingleInput.congr (hi : d.SingleInput i) (h : d'.bare? i = d.bare? i) : d'.SingleInput i :=
  fun p q hp hq => hi p q (hp.congr (shell?_eq_of_bare? h).symm) (hq.congr (shell?_eq_of_bare? h).symm)

/-- A node with a single input port has one driver at most. -/
theorem SingleInput.eq_of_dst (hr : d.SingleInput r) (hd : d.Sound) (htidy : d.Tidy) (he : d.Has e) (hx : d.Has x) (hedst : e.dst = r)
    (hxdst : x.dst = r) : x = e := by
  refine htidy.eq_of_dst he hx (hxdst.trans hedst.symm) (hr _ _ ?_ ?_)
  · exact hxdst ▸ (htidy.ports hd hx).2
  · exact hedst ▸ (htidy.ports hd he).2

/-- Taking a register out changes no other node but its wiring. -/
theorem bare?_elideRegister (hd : d.Sound) (hr : d.kind? r = some .register) (h : d.elideRegister r = .ok d') (i : NodeId) :
    d'.bare? i = if i = r then none else d.bare? i := by
  unfold elideRegister at h
  obtain ⟨n, hn, h⟩ := bind_eq_ok h
  have hn := node_eq_ok hn
  have hroutes : ∀ e ∈ n.outgoing, d.Routes e.dst := fun e he => by
    obtain ⟨he, hsrc⟩ := (hd.mem_outgoing hn).mp he
    exact hd.routes_of_register he (hsrc ▸ hr)
  dsimp only at h
  obtain ⟨d₁, h₁, h⟩ := bind_eq_ok h
  have hbare₁ : ∀ i, d₁.bare? i = d.bare? i := by
    refine bare?_unwires hd (fun e he => ?_) h₁
    rcases List.mem_append.mp he with he | he
    · rw [((hd.mem_incoming hn).mp he).2]
      exact ⟨.register, hr, rfl⟩
    · exact hroutes e he
  split at h
  · cases h
    rw [bare?_removeNode, hbare₁]
  · next driver rest _ =>
    obtain ⟨d₂, h₂, h⟩ := bind_eq_ok h
    cases h
    rw [bare?_removeNode, bare?_wires driver.followedBy (hd.unwires h₁).1 (fun e he => (hroutes e he).congr (hbare₁ _)) h₂, hbare₁]

/-- Taking a register out leaves the edges that do not touch it, and joins the first edge into it with those out of it. -/
theorem exists_driver_of_elideRegister (hd : d.Sound) (h : d.elideRegister r = .ok d') : ∃ driver? : Option Edge,
    (∀ driver ∈ driver?, d.Has driver ∧ driver.dst = r) ∧ (driver? = none → ∀ e, d.Has e → e.dst ≠ r) ∧
    ∀ x, d'.Has x ↔ d.Has x ∧ x.src ≠ r ∧ x.dst ≠ r ∨ ∃ driver ∈ driver?, ∃ y, d.Has y ∧ y.src = r ∧ x = driver.followedBy y := by
  unfold elideRegister at h
  obtain ⟨n, hn, h⟩ := bind_eq_ok h
  have hn := node_eq_ok hn
  have hin {x : Edge} : x ∈ n.incoming ↔ d.Has x ∧ x.dst = r := hd.mem_incoming hn
  have hout {x : Edge} : x ∈ n.outgoing ↔ d.Has x ∧ x.src = r := hd.mem_outgoing hn
  dsimp only at h
  obtain ⟨d₁, h₁, h⟩ := bind_eq_ok h
  obtain ⟨hd₁, hunwired⟩ := hd.unwires h₁
  have hhas₁ {x : Edge} : d₁.Has x ↔ d.Has x ∧ x.src ≠ r ∧ x.dst ≠ r := by
    rw [hunwired, List.mem_append, hin, hout]
    tauto
  refine ⟨n.incoming.head?, fun driver hdriver => hin.mp (List.mem_of_mem_head? hdriver), fun hnone e he hdst => ?_, fun x => ?_⟩
  · exact absurd (hin.mpr ⟨he, hdst⟩) (List.head?_eq_none_iff.mp hnone ▸ List.not_mem_nil)
  split at h
  · next hnone =>
    cases h
    rw [has_removeNode, hhas₁, hnone]
    simp +contextual
  · next driver rest hsome =>
    obtain ⟨d₂, h₂, h⟩ := bind_eq_ok h
    cases h
    have hwired : ∀ {x : Edge}, d₂.Has x ↔ d₁.Has x ∨ ∃ y ∈ n.outgoing, x = driver.followedBy y := (hd₁.wires h₂).2
    rw [has_removeNode, hwired, hhas₁, hsome, List.head?_cons]
    simp only [Option.mem_some_iff, exists_eq_left', hout, and_assoc]
    constructor
    · rintro ⟨hx | hx, -⟩
      · exact Or.inl hx
      · exact Or.inr hx
    · rintro (hx | ⟨y, hy, hsrc, rfl⟩)
      · exact ⟨Or.inl hx, hx.2.2⟩
      · exact ⟨Or.inr ⟨y, hy, hsrc, rfl⟩, hsrc ▸ (hd.loopless hy).symm⟩

/-- Taking a register out joins its driver with its consumers. -/
theorem has_elideRegister (hd : d.Sound) (htidy : d.Tidy) (hsingle : d.SingleInput r) (h : d.elideRegister r = .ok d') :
    d'.Has x ↔ Bypassed d.Has r x := by
  obtain ⟨driver?, hdriver, hnone, hhas⟩ := exists_driver_of_elideRegister hd h
  rw [hhas]
  refine or_congr_right ⟨?_, ?_⟩
  · rintro ⟨driver, hmem, y, hy, hsrc, rfl⟩
    exact ⟨driver, y, (hdriver driver hmem).1, (hdriver driver hmem).2, hy, hsrc, rfl⟩
  · rintro ⟨e, y, he, hedst, hy, hsrc, rfl⟩
    cases driver? with
    | none => exact absurd hedst (hnone rfl e he)
    | some driver =>
      obtain ⟨hdriver, hdst⟩ := hdriver driver rfl
      obtain rfl : e = driver := hsingle.eq_of_dst hd htidy hdriver he hdst hedst
      exact ⟨e, rfl, y, hy, hsrc, rfl⟩

/-- Taking a register out leaves the edges that do not touch it. -/
theorem Has.elideRegister (hx : d.Has x) (hd : d.Sound) (hsrc : x.src ≠ r) (hdst : x.dst ≠ r) (h : d.elideRegister r = .ok d') :
    d'.Has x := by
  obtain ⟨driver?, -, -, hhas⟩ := exists_driver_of_elideRegister hd h
  exact (hhas x).mpr (Or.inl ⟨hx, hsrc, hdst⟩)

/-- Taking a register out leaves the edges into a unit, whose drivers are operand ports. -/
theorem has_elideRegister_of_unit {ops : SortedSet String} {operands : SortedMap Nat NodeId} (hd : d.Sound)
    (hr : d.kind? r = some .register) (h : d.elideRegister r = .ok d') (hunit : d.kind? x.dst = some (.functionalUnit ops operands)) :
    d'.Has x ↔ d.Has x := by
  have hfar {y : Edge} (hy : d.Has y) (hsrc : y.src = r) : y.dst ≠ x.dst := by
    obtain ⟨k, hk, hrouting⟩ := hd.routes_of_register hy (hsrc ▸ hr)
    rintro hdst
    rw [hdst, hunit] at hk
    cases hk
    cases hrouting
  have hother : x.dst ≠ r := by
    rintro hdst
    rw [hdst, hr] at hunit
    cases hunit
  obtain ⟨driver?, -, -, hhas⟩ := exists_driver_of_elideRegister hd h
  rw [hhas]
  constructor
  · rintro (⟨hx, -⟩ | ⟨driver, -, y, hy, hsrc, rfl⟩)
    · exact hx
    · exact (hfar hy hsrc (y := y) rfl).elim
  · exact fun hx => Or.inl ⟨hx, fun hsrc => hfar hx hsrc rfl, hother⟩

/-! ## All registers -/

/-- Taking registers out one after the other changes no other node but its wiring. -/
theorem bare?_foldlM_elideRegister {l : List NodeId} (hd : d.Sound) (hnodup : l.Nodup)
    (hl : ∀ r ∈ l, d.kind? r = some .register) (h : l.foldlM elideRegister d = .ok d') (i : NodeId) :
    d'.bare? i = if i ∈ l then none else d.bare? i := by
  induction l generalizing d with
  | nil =>
    cases h
    exact (if_neg List.not_mem_nil).symm
  | cons r l ih =>
    obtain ⟨hr, hl⟩ := List.forall_mem_cons.mp hl
    obtain ⟨hout, hnodup⟩ := List.nodup_cons.mp hnodup
    rw [List.foldlM_cons] at h
    obtain ⟨d₁, h₁, h⟩ := bind_eq_ok h
    have hbare₁ := bare?_elideRegister hd hr h₁
    have hregisters : ∀ r' ∈ l, d₁.kind? r' = some .register := fun r' hr' =>
      (kind?_elideRegister hd h₁ rfl).mpr ⟨hl r' hr', fun heq => hout (heq ▸ hr')⟩
    rw [ih (hd.elideRegister h₁) hnodup hregisters h, hbare₁]
    simp only [List.mem_cons]
    by_cases hi : i ∈ l <;> simp [hi]

/-- Taking registers out one after the other joins the chains of edges over these registers. -/
theorem has_foldlM_elideRegister {l : List NodeId} (hd : d.Sound) (htidy : d.Tidy) (hnodup : l.Nodup)
    (hl : ∀ r ∈ l, d.kind? r = some .register ∧ d.SingleInput r) (h : l.foldlM elideRegister d = .ok d') :
    d'.Has x ↔ x.src ∉ l ∧ x.dst ∉ l ∧ Spans d.Has (· ∈ l) x := by
  induction l generalizing d with
  | nil =>
    cases h
    refine ⟨fun hx => ?_, fun hx => ?_⟩
    · exact ⟨List.not_mem_nil, List.not_mem_nil, .edge hx⟩
    · exact hx.2.2.has_of_forall_not fun _ => List.not_mem_nil
  | cons r l ih =>
    obtain ⟨⟨hr, hsingle⟩, hl⟩ := List.forall_mem_cons.mp hl
    obtain ⟨hout, hnodup⟩ := List.nodup_cons.mp hnodup
    rw [List.foldlM_cons] at h
    obtain ⟨d₁, h₁, h⟩ := bind_eq_ok h
    have hsame (i : NodeId) (hi : i ∈ l) : d₁.bare? i = d.bare? i := by
      rw [bare?_elideRegister hd hr h₁, if_neg]
      rintro rfl
      exact hout hi
    have hhas := ih (hd.elideRegister h₁) (htidy.elideRegister h₁) hnodup
      (fun i hi => ⟨(kind?_eq_of_bare? (hsame i hi)).trans (hl i hi).1, (hl i hi).2.congr (hsame i hi)⟩) h
    have hbypassed : d₁.Has = Bypassed d.Has r := funext fun x => propext (has_elideRegister hd htidy hsingle h₁)
    rw [hhas, hbypassed, spans_bypassed_iff hd.loopless]
    simp only [List.mem_cons, not_or]
    tauto

/-- Taking all registers out changes no other node but its wiring. -/
theorem bare?_elideRegisters (hd : d.Sound) (h : d.elideRegisters = .ok d') (i : NodeId) :
    d'.bare? i = if d.kind? i = some .register then none else d.bare? i := by
  have hbare := bare?_foldlM_elideRegister hd ((nodup_ids hd).sublist (List.filter_sublist.map _))
    (fun r hr => (mem_registers hd).mp hr) h i
  simpa only [mem_registers hd] using hbare

/-- Taking all registers out leaves the other nodes, and the chains of edges over registers between them. -/
theorem elideRegisters_eq_ok (hd : d.Sound) (htidy : d.Tidy)
    (hsingle : ∀ r, d.kind? r = some .register → d.SingleInput r) (h : d.elideRegisters = .ok d') :
    (∀ i, d'.bare? i = if d.kind? i = some .register then none else d.bare? i) ∧
      ∀ x, d'.Has x ↔ d.kind? x.src ≠ some .register ∧ d.kind? x.dst ≠ some .register ∧
        Spans d.Has (fun i => d.kind? i = some .register) x := by
  refine ⟨bare?_elideRegisters hd h, fun x => ?_⟩
  have hhas := has_foldlM_elideRegister (x := x) hd htidy ((nodup_ids hd).sublist (List.filter_sublist.map _))
    (fun r hr => ⟨(mem_registers hd).mp hr, hsingle r ((mem_registers hd).mp hr)⟩) h
  simpa only [mem_registers hd] using hhas

/-- Taking all registers out leaves the edges into units. -/
theorem has_elideRegisters_of_unit {ops : SortedSet String} {operands : SortedMap Nat NodeId} (hd : d.Sound)
    (h : d.elideRegisters = .ok d') (hunit : d.kind? x.dst = some (.functionalUnit ops operands)) : d'.Has x ↔ d.Has x := by
  have hfold {l : List NodeId} {d : Draft} (hd : d.Sound) (hnodup : l.Nodup) (hl : ∀ r ∈ l, d.kind? r = some .register)
      (hunit : d.kind? x.dst = some (.functionalUnit ops operands)) (h : l.foldlM elideRegister d = .ok d') :
      d'.Has x ↔ d.Has x := by
    induction l generalizing d with
    | nil =>
      cases h
      rfl
    | cons r l ih =>
      obtain ⟨hr, hl⟩ := List.forall_mem_cons.mp hl
      obtain ⟨hout, hnodup⟩ := List.nodup_cons.mp hnodup
      rw [List.foldlM_cons] at h
      obtain ⟨d₁, h₁, h⟩ := bind_eq_ok h
      have hregisters : ∀ r' ∈ l, d₁.kind? r' = some .register := fun r' hr' =>
        (kind?_elideRegister hd h₁ rfl).mpr ⟨hl r' hr', fun heq => hout (heq ▸ hr')⟩
      have hother : x.dst ≠ r := by
        rintro hdst
        rw [hdst, hr] at hunit
        cases hunit
      have hunit₁ : d₁.kind? x.dst = some (.functionalUnit ops operands) := by
        rw [kind?_eq_of_bare? ((bare?_elideRegister hd hr h₁ x.dst).trans (if_neg hother)), hunit]
      rw [ih (hd.elideRegister h₁) hnodup hregisters hunit₁ h, has_elideRegister_of_unit hd hr h₁ hunit]
  exact hfold hd ((nodup_ids hd).sublist (List.filter_sublist.map _)) (fun r hr => (mem_registers hd).mp hr) hunit h

/-- Taking all registers out leaves the edges between other nodes. -/
theorem Has.elideRegisters (hx : d.Has x) (hd : d.Sound) (hsrc : d.kind? x.src ≠ some .register) (hdst : d.kind? x.dst ≠ some .register)
    (h : d.elideRegisters = .ok d') : d'.Has x :=
  (foldlM_induction (fun d => d.Sound ∧ d.Has x) ⟨hd, hx⟩ (fun _ r _ hr ⟨hd', hx⟩ h => by
    have hregister := (mem_registers hd).mp hr
    exact ⟨hd'.elideRegister h, hx.elideRegister hd' (fun heq => hsrc (heq ▸ hregister)) (fun heq => hdst (heq ▸ hregister)) h⟩) h).2

end Draft
end Graph
end PlaceRoute
