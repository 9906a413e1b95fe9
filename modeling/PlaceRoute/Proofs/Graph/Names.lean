import PlaceRoute.Proofs.Fabric.Exact
import PlaceRoute.Proofs.Graph.Contract
import PlaceRoute.Proofs.Graph.Places

/-!
# Names of nodes

The name of a copy says which element it is a copy of, and where: kinds of nodes have no underscore in their words and numbers none in
their digits, so the last three underscores and the first one are where the parts of the name meet, whatever the element is called
(`Draft.eq_of_nameOf`). So nodes other than ties have names of their own. A tie is named after the edge that it splits, which joins two
names and two ports that may have underscores: names are different exactly if no two of these edges are spelled alike
(`Graph.names_of_build`). They are when no mux has an underscore in its name, as each mux has a single output port, and not in general
(`ditto_names_clash`).
-/

namespace PlaceRoute

/-! ## Text around separators -/

section
variable {α : Type} {s : α} {a a' x x' : List α}

/-- What stands before the first separator. -/
theorem eq_of_append_separator (ha : s ∉ a) (ha' : s ∉ a') (h : a ++ s :: x = a' ++ s :: x') : a = a' ∧ x = x' := by
  induction a generalizing a' with
  | nil =>
    cases a' with
    | nil => exact ⟨rfl, (List.cons.inj h).2⟩
    | cons c a' => exact absurd ((List.cons.inj h).1 ▸ List.mem_cons_self) ha'
  | cons c a ih =>
    cases a' with
    | nil => exact absurd ((List.cons.inj h).1 ▸ List.mem_cons_self) ha
    | cons c' a' =>
      obtain ⟨rfl, hrest⟩ := List.cons.inj h
      obtain ⟨rfl, hx⟩ := ih (fun hs => ha (List.mem_cons_of_mem _ hs)) (fun hs => ha' (List.mem_cons_of_mem _ hs)) hrest
      exact ⟨rfl, hx⟩

/-- What stands behind the last separator. -/
theorem eq_of_separator_append (hx : s ∉ x) (hx' : s ∉ x') (h : a ++ s :: x = a' ++ s :: x') : a = a' ∧ x = x' := by
  have hreverse : x.reverse ++ s :: a.reverse = x'.reverse ++ s :: a'.reverse := by
    simpa only [List.reverse_append, List.reverse_cons, List.append_assoc, List.singleton_append] using congrArg List.reverse h
  obtain ⟨htail, hfront⟩ := eq_of_append_separator (by rwa [List.mem_reverse]) (by rwa [List.mem_reverse]) hreverse
  exact ⟨List.reverse_inj.mp hfront, List.reverse_inj.mp htail⟩

end

theorem underscore_notMem_repr (k : Nat) : '_' ∉ k.repr.toList := by
  rw [Nat.toList_repr]
  intro h
  exact absurd (Nat.isDigit_of_mem_toDigits (by decide) (by decide) h) (by decide)

theorem eq_of_toList_repr {k k' : Nat} (h : k.repr.toList = k'.repr.toList) : k = k' := by
  have hvalue (k : Nat) : Nat.ofDigitChars 10 k.repr.toList 0 = k := by
    rw [Nat.toList_repr]
    exact Nat.ofDigitChars_toDigits (by decide) (by decide)
  rw [← hvalue k, h, hvalue]

theorem NodeKind.underscore_notMem_label (k : NodeKind) : '_' ∉ k.label.toList := by
  cases k <;> simp [label]

variable {f : Fabric} {options : GraphOptions} {n n' : Node} {p q : Placed}

namespace Graph
namespace Draft

variable {e e' : Element} {c c' : Nat} {l l' : Location} {x x' : List Char}

/-! ## Names of copies -/

theorem toList_nameOf (e : Element) (c : Nat) (l : Location) : (nameOf e c l).toList = (kindOf e).label.toList ++ '_' ::
    (e.name.toList ++ '_' :: (c.repr.toList ++ '_' :: (l.row.repr.toList ++ '_' :: l.col.repr.toList))) := by
  simp only [nameOf, String.toList_append, List.append_assoc]
  rfl

theorem toList_tieName (src dst : Node) (x : Edge) : (tieName src dst x).toList = "Tie".toList ++ '_' ::
    (src.name.toList ++ '_' :: (x.srcPort.toList ++ '_' :: (dst.name.toList ++ '_' :: x.dstPort.toList))) := by
  simp only [tieName, String.toList_append, List.append_assoc]
  rfl

/-- A name of a copy says what it is a copy of. -/
theorem eq_of_nameOf (h : nameOf e c l = nameOf e' c' l') : e.name = e'.name ∧ c = c' ∧ l = l' := by
  have h := congrArg String.toList h
  rw [toList_nameOf, toList_nameOf] at h
  obtain ⟨-, h⟩ := eq_of_append_separator (NodeKind.underscore_notMem_label _) (NodeKind.underscore_notMem_label _) h
  -- The element's name may have underscores, so the numbers are read from behind.
  simp only [← List.cons_append, ← List.append_assoc] at h
  obtain ⟨h, hcol⟩ := eq_of_separator_append (underscore_notMem_repr _) (underscore_notMem_repr _) h
  obtain ⟨h, hrow⟩ := eq_of_separator_append (underscore_notMem_repr _) (underscore_notMem_repr _) h
  obtain ⟨h, hcontext⟩ := eq_of_separator_append (underscore_notMem_repr _) (underscore_notMem_repr _) h
  refine ⟨String.toList_inj.mp h, eq_of_toList_repr hcontext, ?_⟩
  cases l
  cases l'
  rw [Location.mk.injEq]
  exact ⟨eq_of_toList_repr hrow, eq_of_toList_repr hcol⟩

/-- No copy has a name that a tie can have. -/
theorem nameOf_ne_tieName {src dst : Node} {x : Edge} : nameOf e c l ≠ tieName src dst x := by
  intro h
  have h := congrArg String.toList h
  rw [toList_nameOf, toList_tieName] at h
  obtain ⟨hlabel, -⟩ := eq_of_append_separator (NodeKind.underscore_notMem_label _) (by decide) h
  have hkind := Element.Becomes.kindOf e
  generalize kindOf e = k at hkind hlabel
  cases hkind <;> simp [NodeKind.label] at hlabel

/-- What follows a name without underscores of its own can be told from the name. -/
theorem eq_of_nameOf_append (he : '_' ∉ e.name.toList) (he' : '_' ∉ e'.name.toList)
    (h : (nameOf e c l).toList ++ '_' :: x = (nameOf e' c' l').toList ++ '_' :: x') : nameOf e c l = nameOf e' c' l' ∧ x = x' := by
  rw [← String.toList_inj, toList_nameOf, toList_nameOf]
  rw [toList_nameOf, toList_nameOf] at h
  simp only [List.append_assoc, List.cons_append] at h
  obtain ⟨hlabel, h⟩ := eq_of_append_separator (NodeKind.underscore_notMem_label _) (NodeKind.underscore_notMem_label _) h
  obtain ⟨hname, h⟩ := eq_of_append_separator he he' h
  obtain ⟨hcontext, h⟩ := eq_of_append_separator (underscore_notMem_repr _) (underscore_notMem_repr _) h
  obtain ⟨hrow, h⟩ := eq_of_append_separator (underscore_notMem_repr _) (underscore_notMem_repr _) h
  obtain ⟨hcol, h⟩ := eq_of_append_separator (underscore_notMem_repr _) (underscore_notMem_repr _) h
  rw [hlabel, hname, hcontext, hrow, hcol]
  exact ⟨rfl, h⟩

end Draft
end Graph

/-- Only muxes become muxes. -/
theorem Element.Becomes.exists_mux {e : Element} (h : e.Becomes .mux) : ∃ m, e = .ofMux m := by
  cases h
  exact ⟨_, rfl⟩

theorem Element.Becomes.isTie_eq_false {e : Element} (h : e.Becomes n.kind) : n.isTie = false := by
  unfold Node.isTie
  generalize n.kind = k at h ⊢
  cases h <;> rfl

namespace Node.IsCopy

/-- Nodes of one name are copies of one thing. -/
theorem copy_eq (h : n.IsCopy p) (h' : n'.IsCopy q) (hname : n.name = n'.name) : p.copy = q.copy := by
  obtain ⟨helement, hcontext, hlocation⟩ := Graph.Draft.eq_of_nameOf (h.name.symm.trans (hname.trans h'.name))
  exact Graph.Copy.mk.injEq .. ▸ ⟨hcontext, hlocation, helement⟩

end Node.IsCopy

namespace Fabric

/-- A mux among the copies is one of the muxes of a block. -/
theorem mem_muxes_of_copies {contexts : Nat} {m : Mux} (hp : p ∈ f.copies contexts) (hm : p.element = .ofMux m) :
    ∃ b ∈ f.blocks, m ∈ b.muxes := by
  obtain ⟨b, hb, hpart⟩ := List.mem_flatMap.mp (mem_copies.mp hp).2
  obtain ⟨e, he, heq⟩ := List.mem_map.mp hpart
  rw [(Prod.mk.inj heq).2, hm] at he
  exact ⟨b, hb, by simpa [Block.elements] using he⟩

/-- No mux has an underscore in its name. -/
def PlainMuxes (f : Fabric) : Prop := ∀ b ∈ f.blocks, ∀ m ∈ b.muxes, '_' ∉ m.name.toList

instance (f : Fabric) : Decidable f.PlainMuxes := inferInstanceAs (Decidable (∀ b ∈ f.blocks, ∀ m ∈ b.muxes, '_' ∉ m.name.toList))

end Fabric

namespace Graph

/-! ## Wires of a node -/

section
variable {g : Graph} {j : NodeId} {x : Edge} (hg : g.WellWired)
include hg

theorem WellWired.mem_incoming (hj : g.node? j = some n) : x ∈ n.incoming ↔ g.Receives x ∧ x.dst = j := by
  rw [Node.mem_incoming_iff, hg.id hj]
  constructor
  · rintro ⟨rfl, hv⟩
    exact ⟨⟨n, hj, hv⟩, rfl⟩
  · rintro ⟨⟨m, hm, hv⟩, rfl⟩
    exact ⟨rfl, Option.some.inj (hm.symm.trans hj) ▸ hv⟩

theorem WellWired.mem_outgoing (hj : g.node? j = some n) : x ∈ n.outgoing ↔ g.Sends x ∧ x.src = j := by
  rw [Node.mem_outgoing_iff, hg.id hj]
  constructor
  · rintro ⟨rfl, hv⟩
    exact ⟨⟨n, hj, hv⟩, rfl⟩
  · rintro ⟨⟨m, hm, hv⟩, rfl⟩
    exact ⟨rfl, Option.some.inj (hm.symm.trans hj) ▸ hv⟩

end

namespace Draft

variable {full base d : Draft} {cut : List Edge} {e x : Edge} {i j k : Nat} {g : Graph}

/-! ## Ties of a graph -/

/-- An edge with the new numbers of its ends. -/
def numbered (d : Draft) (e : Edge) : Edge := ⟨(d.endsOf e).1, e.srcPort, (d.endsOf e).2, e.dstPort⟩

theorem numbers_iff (hd : d.Sound) (he : d.Has e) : Numbers d.ids e x ↔ x = d.numbered e := by
  have hends : d.ids[x.src]? = some e.src ∧ d.ids[x.dst]? = some e.dst ↔ x.src = (d.endsOf e).1 ∧ x.dst = (d.endsOf e).2 := by
    rw [← endsOf_eq_iff hd he, Prod.ext_iff, eq_comm, @eq_comm _ (d.endsOf e).2]
  rw [Numbers, Edge.ext_iff]
  unfold numbered
  dsimp only
  tauto

section
variable {y : Edge} (hd : d.Sound) (hg : d.finish options.contexts = .ok g) (hj : g.node? j = some n)
  (hid : d.ids[j]? = some n'.id) (hn' : d.node? n'.id = some n')
include hd hg hj hid hn'

/-- A node with one driver keeps it. -/
theorem incoming_finish (hin : n'.incoming = [y]) : n.incoming = [d.numbered y] := by
  have hg' := wellWired_finish hd hg
  obtain ⟨hy, hdst⟩ := (hd.mem_incoming hn').mp (hin ▸ List.mem_singleton_self y)
  refine eq_singleton_of_mem_iff n.nodup_incoming fun x => ?_
  rw [hg'.mem_incoming hj, receives_finish hd hg]
  constructor
  · rintro ⟨⟨e, he, hnumbers⟩, rfl⟩
    have hdst : e.dst = n'.id := Option.some.inj (hnumbers.2.2.1.symm.trans hid)
    have hmem := (hd.mem_incoming hn').mpr ⟨he, hdst⟩
    rw [hin, List.mem_singleton] at hmem
    exact (numbers_iff hd hy).mp (hmem ▸ hnumbers)
  · rintro rfl
    have hnumbers := (numbers_iff hd hy).mpr rfl
    exact ⟨⟨y, hy, hnumbers⟩, eq_of_getElem?_ids hd hnumbers.2.2.1 (hdst ▸ hid)⟩

/-- A node with one consumer keeps it. -/
theorem outgoing_finish (hout : n'.outgoing = [y]) : n.outgoing = [d.numbered y] := by
  have hg' := wellWired_finish hd hg
  obtain ⟨hy, hsrc⟩ := (hd.mem_outgoing hn').mp (hout ▸ List.mem_singleton_self y)
  refine eq_singleton_of_mem_iff n.nodup_outgoing fun x => ?_
  rw [hg'.mem_outgoing hj, sends_finish hd hg]
  constructor
  · rintro ⟨⟨e, he, hnumbers⟩, rfl⟩
    have hsrc : e.src = n'.id := Option.some.inj (hnumbers.1.symm.trans hid)
    have hmem := (hd.mem_outgoing hn').mpr ⟨he, hsrc⟩
    rw [hout, List.mem_singleton] at hmem
    exact (numbers_iff hd hy).mp (hmem ▸ hnumbers)
  · rintro rfl
    have hnumbers := (numbers_iff hd hy).mpr rfl
    exact ⟨⟨y, hy, hnumbers⟩, eq_of_getElem?_ids hd hnumbers.1 (hsrc ▸ hid)⟩

end

/-- The edge over a tie of the graph is the edge that it splits. -/
theorem Splits.across_finish (hs : base.Splits d cut) (hb : base.Sound) (hd : d.Sound) (hg : d.finish options.contexts = .ok g)
    (hk : cut[k]? = some e) (hid : d.ids[j]? = some (base.slots.size + k)) (hj : g.node? j = some n) :
    n.across = [d.numbered e] := by
  obtain ⟨m, hm⟩ := (mem_ids hd).mp (List.mem_of_getElem? hid)
  obtain ⟨hin, hout⟩ := hs.tie_wiring hb hd hk hm
  rw [← hd.id hm] at hid hm
  rw [Node.across, incoming_finish hd hg hj hid hm hin, outgoing_finish hd hg hj hid hm hout]
  rfl

theorem name_finish (hd : d.Sound) (hg : d.finish options.contexts = .ok g) (hi : ∃ n, d.node? i = some n) :
    (g.node? (d.ids.idxOf i)).map (·.name) = (d.node? i).map (·.name) := by
  obtain ⟨m, hm⟩ := hi
  have hid : d.ids[d.ids.idxOf i]? = some i := List.getElem?_idxOf ((mem_ids hd).mpr ⟨m, hm⟩)
  obtain rfl : m.id = i := hd.id hm
  obtain ⟨n, hn, hrenumber⟩ := exists_finish hd hg hid hm
  rw [hn, hm, Option.map_some, Option.map_some, (renumberNode_fixes hrenumber).1]

theorem spelling_eq_some_iff {node? : NodeId → Option Node} {name : String} : spelling node? e = some name ↔
    ∃ src dst, node? e.src = some src ∧ node? e.dst = some dst ∧ name = tieName src dst e := by
  unfold spelling
  simp only [Option.bind_eq_some_iff, Option.map_eq_some_iff, exists_and_left, eq_comm (a := name)]

namespace Stages

variable (h : Stages f options full base d cut)
include h

/-- Numbering changes no name, so the edges of ties are spelled as before. -/
theorem spelling_finish (hg : d.finish options.contexts = .ok g) (he : base.Has e) :
    spelling g.node? (d.numbered e) = spelling base.node? e := by
  have hname {i : NodeId} (hi : ∃ n, base.node? i = some n) :
      (g.node? (d.ids.idxOf i)).map (·.name) = (base.node? i).map (·.name) := by
    obtain ⟨m, hm⟩ := hi
    have hshell := h.named.shell i (node?_lt hm)
    have hd : ∃ n, d.node? i = some n := by
      rw [shell?_of_node? hm] at hshell
      obtain ⟨n, hn, -⟩ := Option.map_eq_some_iff.mp hshell
      exact ⟨n, hn⟩
    rw [name_finish h.sound hg hd, map_name_node?, map_name_node?, hshell]
  obtain ⟨hsrc, hdst⟩ := h.base_sound.ends he
  exact spelling_congr (hname hsrc) rfl (hname hdst) rfl

section
variable (hg : d.finish options.contexts = .ok g) (hj : g.node? j = some n)
include hg hj

/-- A tie of the graph stands for the edge over it, after which it is named. -/
theorem exists_across (htie : n.isTie = true) : ∃ k e, cut[k]? = some e ∧ d.ids[j]? = some (base.slots.size + k) ∧
    n.across = [d.numbered e] ∧ spelling base.node? e = some n.name ∧ spelling g.node? (d.numbered e) = some n.name := by
  rcases h.node_cases hg hj with ⟨-, p, -, -, -, hcopy⟩ | ⟨k, e, hk, hid, -, hspelled⟩
  · rw [hcopy.kind.isTie_eq_false] at htie
    cases htie
  · have he := h.named.splits.joins e (List.mem_of_getElem? hk)
    exact ⟨k, e, hk, hid, h.named.splits.across_finish h.base_sound h.sound hg hk hid hj, hspelled,
      (h.spelling_finish hg he.1).trans hspelled⟩

/-- A node other than a tie has a name of its own. -/
theorem eq_of_name (hi : g.node? i = some n') (hname : n.name = n'.name) (hn : n.isTie = false) : j = i := by
  rcases h.node_cases hg hj with ⟨a, p, ha, -, hp, hcopy⟩ | ⟨-, -, -, -, hkind, -⟩
  · rcases h.node_cases hg hi with ⟨b, q, hb, -, hq, hcopy'⟩ | ⟨-, e, -, -, -, hspelled⟩
    · obtain rfl := h.eq_of_copy hp hq (hcopy.copy_eq hcopy' hname)
      exact eq_of_getElem?_ids h.sound ha hb
    · obtain ⟨src, dst, -, -, htie⟩ := spelling_eq_some_iff.mp hspelled
      exact absurd (hcopy.name.symm.trans (hname.trans htie)) nameOf_ne_tieName
  · rw [Node.isTie_iff.mpr hkind] at hn
    cases hn

end

/-! ## Muxes without underscores in their names -/

/-- The copy of a mux, and what it is a copy of. -/
theorem exists_mux (hi : base.kind? i = some .mux) : ∃ n p m, base.node? i = some n ∧
    (f.copies options.contexts)[i]? = some p ∧ n.IsCopy p ∧ p.element = .ofMux m := by
  obtain ⟨n, hn, hk⟩ := Option.map_eq_some_iff.mp hi
  obtain ⟨p, hp, hcopy⟩ := h.exists_placed hn
  obtain ⟨m, hm⟩ := Element.Becomes.exists_mux (hk ▸ hcopy.kind : p.element.Becomes .mux)
  exact ⟨n, p, m, hn, hp, hcopy, hm⟩

/-- A mux has a single output port. -/
theorem srcPort_eq {m : Mux} (he : base.Has e) (hn : base.node? e.src = some n) (hcopy : n.IsCopy p) (hm : p.element = .ofMux m) :
    e.srcPort = m.outputPort := by
  obtain ⟨s, hs, hport⟩ := (h.base_tidy.ports h.base_sound he).1
  rw [shell?_of_node? hn] at hs
  cases hs
  have hkeys : e.srcPort ∈ n.outputs.keys := hport
  rw [hcopy.outputs, hm] at hkeys
  exact List.mem_singleton.mp (SortedSet.mem_ofList.mp hkeys)

/-- When no mux has an underscore in its name, different edges between muxes are spelled differently. -/
theorem eq_of_spelling {name : String} (hplain : f.PlainMuxes) (he : base.JoinsMuxes e) (hx : base.JoinsMuxes x)
    (hename : spelling base.node? e = some name) (hxname : spelling base.node? x = some name) : e = x := by
  obtain ⟨src, dst, hsrc, hdst, rfl⟩ := spelling_eq_some_iff.mp hename
  obtain ⟨src', dst', hsrc', hdst', hname⟩ := spelling_eq_some_iff.mp hxname
  have hend {i : NodeId} {n : Node} (hi : base.kind? i = some .mux) (hn : base.node? i = some n) :
      ∃ p m, (f.copies options.contexts)[i]? = some p ∧ n.IsCopy p ∧ p.element = .ofMux m ∧ '_' ∉ p.element.name.toList := by
    obtain ⟨n', p, m, hn', hp, hcopy, hm⟩ := h.exists_mux hi
    obtain rfl : n = n' := Option.some.inj (hn.symm.trans hn')
    obtain ⟨b, hb, hmem⟩ := Fabric.mem_muxes_of_copies (List.mem_of_getElem? hp) hm
    exact ⟨p, m, hp, hcopy, hm, hm ▸ hplain b hb m hmem⟩
  obtain ⟨p, m, hp, hcopy, hm, hunder⟩ := hend he.2.1 hsrc
  obtain ⟨q, m', hq, hcopy', hm', hunder'⟩ := hend hx.2.1 hsrc'
  obtain ⟨r, _, hr, hdcopy, -, hdunder⟩ := hend he.2.2 hdst
  obtain ⟨t, _, ht, hdcopy', -, hdunder'⟩ := hend hx.2.2 hdst'
  have htext := congrArg String.toList hname
  rw [toList_tieName, toList_tieName, hcopy.name, hcopy'.name, hdcopy.name, hdcopy'.name] at htext
  obtain ⟨-, htext⟩ := eq_of_append_separator (by decide) (by decide) htext
  obtain ⟨hsame, htext⟩ := eq_of_nameOf_append hunder hunder' htext
  -- The ties start at one mux, so at its only output port.
  have hplace : e.src = x.src := h.eq_of_copy hp hq (hcopy.copy_eq hcopy' (hcopy.name.trans (hsame.trans hcopy'.name.symm)))
  obtain rfl : p = q := Option.some.inj (hp.symm.trans (hplace ▸ hq))
  obtain rfl : m = m' := Element.ofMux.inj (hm.symm.trans hm')
  have hsrcPort : e.srcPort = x.srcPort := (h.srcPort_eq he.1 hsrc hcopy hm).trans (h.srcPort_eq hx.1 hsrc' hcopy' hm).symm
  simp only [hsrcPort, List.append_cancel_left_eq, List.cons.injEq, true_and] at htext
  obtain ⟨hdsame, hdstPort⟩ := eq_of_nameOf_append hdunder hdunder' htext
  have hdplace : e.dst = x.dst := h.eq_of_copy hr ht (hdcopy.copy_eq hdcopy' (hdcopy.name.trans (hdsame.trans hdcopy'.name.symm)))
  exact Edge.ext_iff.mpr ⟨hplace, hsrcPort, hdplace, String.toList_inj.mp hdstPort⟩

end Stages

end Draft

/-! ## Names of a graph -/

/-- The edges over ties. -/
def tiedEdges (g : Graph) : List Edge := (g.nodes.toList.filter (·.isTie)).flatMap (·.across)

section
variable {g : Graph}

/-- The nodes of a graph are found by their names exactly if no two nodes have one name. -/
theorem forall_nodeByName?_iff : (∀ n ∈ g.nodes.toList, g.nodeByName? n.name = some n) ↔
    ∀ m ∈ g.nodes.toList, ∀ n ∈ g.nodes.toList, m.name = n.name → m = n := by
  constructor
  · intro h m hm n hn hname
    exact Option.some.inj ((h m hm).symm.trans (hname ▸ h n hn))
  · intro h n hn
    obtain ⟨m, hm⟩ := Option.isSome_iff_exists.mp
      (List.find?_isSome (p := fun m => decide (m.name = n.name)) |>.mpr ⟨n, hn, decide_eq_true rfl⟩)
    have hname := List.find?_some hm
    rw [decide_eq_true_iff] at hname
    rw [nodeByName?, hm, h m (List.mem_of_find?_eq_some hm) n hn hname]

theorem WellWired.nodup_names_iff (hg : g.WellWired) : (g.nodes.toList.map (·.name)).Nodup ↔
    ∀ m ∈ g.nodes.toList, ∀ n ∈ g.nodes.toList, m.name = n.name → m = n := by
  refine ⟨fun h m hm n hn => List.inj_on_of_nodup_map h hm hn, fun h => ?_⟩
  exact List.Nodup.map_on (fun m hm n hn => h m hm n hn) hg.nodup_ids.of_map

/-- When every tie is named after the edge over it, the names of ties are the spellings of these edges. -/
theorem nodup_spellings_iff
    (hties : ∀ n ∈ g.nodes.toList, n.isTie = true → ∃ e, n.across = [e] ∧ spelling g.node? e = some n.name) :
    (g.tiedEdges.map (spelling g.node?)).Nodup ↔ ((g.nodes.toList.filter (·.isTie)).map (·.name)).Nodup := by
  have hnames : g.tiedEdges.map (spelling g.node?) = ((g.nodes.toList.filter (·.isTie)).map (·.name)).map some := by
    unfold tiedEdges
    rw [List.map_flatMap, List.map_map, List.map_eq_flatMap]
    refine List.flatMap_congr fun n hn => ?_
    obtain ⟨hn, htie⟩ := List.mem_filter.mp hn
    obtain ⟨e, he, hspelling⟩ := hties n hn htie
    rw [he, List.map_singleton, hspelling]
    rfl
  rw [hnames, List.nodup_map_iff (Option.some_injective String)]

end

/-- **What names say.** In a graph of a valid fabric two nodes of one name are ties, and a tie is named after the edge that it splits. So
all nodes are found by their names exactly if no two of these edges are spelled alike, which is so when no mux has an underscore in its
name. -/
theorem names_of_build {g : Graph} (hf : f.validate = .ok ()) (h : build f options = .ok g) :
    (∀ m ∈ g.nodes.toList, ∀ n ∈ g.nodes.toList, m.name = n.name → m = n ∨ m.isTie = true ∧ n.isTie = true) ∧
    (∀ n ∈ g.nodes.toList, n.isTie = true → ∃ e, n.across = [e] ∧ spelling g.node? e = some n.name) ∧
    ((∀ n ∈ g.nodes.toList, g.nodeByName? n.name = some n) ↔ (g.tiedEdges.map (spelling g.node?)).Nodup) ∧
    (f.PlainMuxes → (g.nodes.toList.map (·.name)).Nodup ∧ ∀ n ∈ g.nodes.toList, g.nodeByName? n.name = some n) := by
  obtain ⟨full, base, d, cut, hs, hfinish⟩ := Draft.exists_stages (Fabric.wellFormed_of_validate hf) h
  have hg := wellWired_build h
  have hown {m n : Node} (hm : m ∈ g.nodes.toList) (hn : n ∈ g.nodes.toList) (hname : m.name = n.name) (htie : m.isTie = false) :
      m = n := by
    have hid := hs.eq_of_name hfinish (hg.node?_of_mem hm) (hg.node?_of_mem hn) hname htie
    exact Option.some.inj ((hg.node?_of_mem hm).symm.trans (hid ▸ hg.node?_of_mem hn))
  have hpairs : ∀ m ∈ g.nodes.toList, ∀ n ∈ g.nodes.toList, m.name = n.name → m = n ∨ m.isTie = true ∧ n.isTie = true := by
    intro m hm n hn hname
    cases hmtie : m.isTie with
    | false => exact Or.inl (hown hm hn hname hmtie)
    | true =>
      cases hntie : n.isTie with
      | false => exact Or.inl (hown hn hm hname.symm hntie).symm
      | true => exact Or.inr ⟨rfl, rfl⟩
  have hties : ∀ n ∈ g.nodes.toList, n.isTie = true → ∃ e, n.across = [e] ∧ spelling g.node? e = some n.name := by
    intro n hn htie
    obtain ⟨k, e, -, -, hacross, -, hspelling⟩ := hs.exists_across hfinish (hg.node?_of_mem hn) htie
    exact ⟨_, hacross, hspelling⟩
  refine ⟨hpairs, hties, ?_, fun hplain => ?_⟩
  · rw [forall_nodeByName?_iff, nodup_spellings_iff hties]
    constructor
    · exact fun h => ((hg.nodup_names_iff.mpr h).sublist (List.filter_sublist.map _))
    · intro h m hm n hn hname
      rcases hpairs m hm n hn hname with heq | ⟨hmtie, hntie⟩
      · exact heq
      · exact List.inj_on_of_nodup_map h (List.mem_filter.mpr ⟨hm, hmtie⟩) (List.mem_filter.mpr ⟨hn, hntie⟩) hname
  · have hinj : ∀ m ∈ g.nodes.toList, ∀ n ∈ g.nodes.toList, m.name = n.name → m = n := by
      intro m hm n hn hname
      rcases hpairs m hm n hn hname with heq | ⟨hmtie, hntie⟩
      · exact heq
      obtain ⟨k, e, hk, hid, -, hspelled, -⟩ := hs.exists_across hfinish (hg.node?_of_mem hm) hmtie
      obtain ⟨k', x, hk', hid', -, hspelled', -⟩ := hs.exists_across hfinish (hg.node?_of_mem hn) hntie
      have hsplits := hs.named.splits
      obtain rfl : e = x := hs.eq_of_spelling hplain (hsplits.joins e (List.mem_of_getElem? hk))
        (hsplits.joins x (List.mem_of_getElem? hk')) hspelled (hname ▸ hspelled')
      obtain rfl : k = k' := (List.getElem?_inj (List.getElem?_eq_some_iff.mp hk).1 hsplits.nodup).mp (hk.trans hk'.symm)
      have hsame : m.id = n.id := Draft.eq_of_getElem?_ids hs.sound hid hid'
      exact Option.some.inj ((hg.node?_of_mem hm).symm.trans (hsame ▸ hg.node?_of_mem hn))
    exact ⟨hg.nodup_names_iff.mpr hinj, forall_nodeByName?_iff.mpr hinj⟩

/-- Two muxes that drive each other twice get two ties, which are found by their names. -/
theorem tangle_names : ∃ g : Graph, Fabric.tangle.validate = .ok () ∧ Fabric.tangle.PlainMuxes ∧ build .tangle {} = .ok g ∧
    g.tiedEdges.length = 2 ∧ (g.nodes.toList.map (·.name)).Nodup ∧ ∀ n ∈ g.nodes.toList, g.nodeByName? n.name = some n := by
  obtain ⟨g, hg, htwo⟩ := exists_ok_of_any (x := build .tangle {}) (p := fun g => g.tiedEdges.length = 2) (by decide)
  exact ⟨g, rfl, by decide, hg, of_decide_eq_true htwo, (names_of_build rfl hg).2.2.2 (by decide)⟩

end Graph

/-- A mux that drives two others, where the name and the input of one read like those of the other. -/
def Fabric.ditto : Fabric where
  blocks := [{
    location := ⟨0, 0⟩
    instances := []
    muxes := [⟨"m", ["in"], "out"⟩, ⟨"b", ["x_0_0_0_y"], "out"⟩, ⟨"b_0_0_0_x", ["y"], "out"⟩]
    operandPorts := [] }]
  ties := [⟨⟨⟨0, 0⟩, "m", "out"⟩, ⟨0, 0⟩, "b", "x_0_0_0_y"⟩, ⟨⟨⟨0, 0⟩, "m", "out"⟩, ⟨0, 0⟩, "b_0_0_0_x", "y"⟩]

/-- Its two ties have one name, by which only the first of them is found. -/
theorem ditto_names_clash : ∃ (g : Graph) (m n : Node), Fabric.ditto.validate = .ok () ∧
    Graph.build .ditto { cycleBreak := .allMuxEdges } = .ok g ∧ g.node? 3 = some m ∧ g.node? 4 = some n ∧
    m.name = n.name ∧ g.nodeByName? n.name = some m :=
  ⟨_, _, _, rfl, rfl, rfl, rfl, rfl, rfl⟩

end PlaceRoute
