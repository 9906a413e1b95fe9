import PlaceRoute.Proofs.Dot.Grammar

/-!
# What statements of a netlist do

The tokens of a node statement (`nodeTokens`) and of an edge statement (`edgeTokens`) with one attribute, and what
reading them does. `Dot.Reads tokens f` says that, among the statements of a graph, the tokens change the netlist by `f`,
wherever they stand and whatever follows; a derived statement with a semicolon after it is executed (`reads_statement`).
So a node statement declares its operation and an edge statement makes its tie, as long as they do not start with a keyword:
the name `subgraph` is refused, and after `graph`, `node` or `edge` the attributes are read over and arrows refused. A graph
is its statements behind an opening (`ofTokens_opening`), without which nothing is read (`exists_opening`).
-/

namespace PlaceRoute
namespace Dot

/-- The tokens of one attribute at the end of a statement. -/
def attributeTokens (key value : String) : List Token := [.lbracket, .id key, .equals, .id value, .rbracket, .semicolon]

/-- The tokens of a node statement. -/
def nodeTokens (name key value : String) : List Token := .id name :: attributeTokens key value

/-- The tokens of an edge statement. -/
def edgeTokens (src dst key value : String) : List Token := .id src :: .arrow :: .id dst :: attributeTokens key value

/-- The tokens of a graph without a name. -/
def graphTokens (tokens : List Token) : List Token := .id "digraph" :: .lbrace :: (tokens ++ [.rbrace])

/-- Among the statements of a graph, the tokens change the netlist by `f`. -/
def Reads (tokens : List Token) (f : Netlist → Except Error Netlist) : Prop :=
  ∀ located endLine n more, located.map Located.token = tokens →
    statements endLine n (located ++ more) = f n >>= fun n => statements endLine n more

/-- Among the statements of a graph, the tokens are an error. -/
def Refuses (tokens : List Token) : Prop :=
  ∀ located endLine n more, located.map Located.token = tokens → ∃ e, statements endLine n (located ++ more) = .error e

variable {endLine : Nat} {name key value src dst : String} {n : Netlist} {tokens tokens₁ tokens₂ : List Token}
  {f f₁ f₂ : Netlist → Except Error Netlist} {ts ts' rest : List Located}

/-! ## One statement -/

theorem statement_subgraph {l : Nat} (hname : Spells "subgraph" name) :
    statement endLine (⟨.id name, l⟩ :: ts) = .error (.badSyntax l .subgraph) := by
  unfold statement
  rw [if_pos (atSubgraph_cons.mpr hname)]
  rfl

theorem statement_arrow {l : Nat} :
    statement endLine (⟨.arrow, l⟩ :: ts) = .error (.badSyntax l (.expectedIdentifier (some .arrow))) := rfl

/-- The first of several statements. -/
theorem statements_cons {t : Located} (ht : t.token ≠ .rbrace) :
    statements endLine n (t :: ts) = statement endLine (t :: ts) >>= fun r =>
      n.execute r.1 >>= fun n => statements endLine n (skip .semicolon r.2.1) := by
  rw [statements]
  · intro line rest heq
    cases heq
    exact ht rfl
  · intro heq
    cases heq

theorem statements_ok {t : Located} {s : Statement} {hrest} (ht : t.token ≠ .rbrace)
    (hs : statement endLine (t :: ts) = .ok (s, ⟨rest, hrest⟩)) :
    statements endLine n (t :: ts) = n.execute s >>= fun n => statements endLine n (skip .semicolon rest) := by
  rw [statements_cons ht, hs]
  rfl

/-- The first of several statements is executed, and a semicolon after it is read over. -/
theorem DerivesStatement.executes {used : List Located} {s : Statement} (h : DerivesStatement (used.map Located.token) s)
    (hrest : Ends rest) : statements endLine n (used ++ rest) =
      n.execute s >>= fun n => statements endLine n (skip .semicolon rest) := by
  obtain ⟨_, hs⟩ := h.read endLine hrest rfl
  obtain ⟨name, hname⟩ := h.head?
  obtain ⟨⟨_, l⟩, used, rfl, rfl⟩ : ∃ t ts, used = t :: ts ∧ t.token = .id name := by
    cases used with
    | nil => cases hname
    | cons t ts => exact ⟨t, ts, rfl, Option.some.inj hname⟩
  exact statements_ok (by simp) hs

theorem statements_error {t : Located} {e : Error} (ht : t.token ≠ .rbrace)
    (hs : statement endLine (t :: ts) = .error e) : statements endLine n (t :: ts) = .error e := by
  rw [statements_cons ht, hs]
  rfl

/-! ## Lines of a graph -/

/-- A statement with a semicolon after it is executed. -/
theorem reads_statement {s : Statement} (h : DerivesStatement tokens s) :
    Reads (tokens ++ [.semicolon]) fun n => n.execute s := by
  intro located endLine n more htokens
  obtain ⟨used, _, rfl, rfl, hsemicolon⟩ := List.map_eq_append_iff.mp htokens
  obtain ⟨⟨_, l⟩, rfl, rfl⟩ := List.map_eq_singleton_iff.mp hsemicolon
  rw [List.append_assoc, h.executes (by simp [Ends, current])]
  rfl

theorem derivesLists_attribute (key value : String) :
    DerivesLists [.lbracket, .id key, .equals, .id value, .rbracket] [(key, value)] :=
  .cons (.cons List.mem_cons_self .nil) .nil

/-- A node statement declares its operation. -/
theorem reads_node (hname : ¬IsKeyword name) :
    Reads (nodeTokens name key value) fun n => n.execute (.chain name [] [(key, value)]) :=
  reads_statement (.chain hname .nil (derivesLists_attribute key value))

/-- After a word for defaults the attributes of a node statement are read over. -/
theorem reads_defaults (hname : IsDefaults name) : Reads (nodeTokens name key value) .ok :=
  reads_statement (.defaults hname (derivesLists_attribute key value))

/-- An edge statement makes its tie. -/
theorem reads_edge (hsrc : ¬IsKeyword src) :
    Reads (edgeTokens src dst key value) fun n => n.execute (.chain src [dst] [(key, value)]) :=
  reads_statement (.chain hsrc (.cons .nil) (derivesLists_attribute key value))

theorem refuses_node (hname : Spells "subgraph" name) : Refuses (nodeTokens name key value) := by
  intro located endLine n more htokens
  obtain ⟨⟨_, l⟩, ts, rfl, rfl, hts⟩ := List.map_eq_cons_iff.mp htokens
  exact ⟨_, statements_error (by simp) (statement_subgraph hname)⟩

/-- No arrow may follow a keyword. -/
theorem refuses_edge (hsrc : IsKeyword src) : Refuses (edgeTokens src dst key value) := by
  intro located endLine n more htokens
  obtain ⟨⟨_, l₁⟩, _, rfl, rfl, htail⟩ := List.map_eq_cons_iff.mp htokens
  obtain ⟨⟨_, l₂⟩, ts, rfl, rfl, -⟩ := List.map_eq_cons_iff.mp htail
  rcases hsrc with hsub | hdefaults
  · exact ⟨_, statements_error (by simp) (statement_subgraph hsub)⟩
  · have hattributes : attributeLists endLine (⟨.arrow, l₂⟩ :: (ts ++ more)) = .ok ([], ⟨_, Nat.le_refl _⟩) :=
      attributeLists_of_ne (by simp [current])
    obtain ⟨_, hs⟩ := statement_defaults (l := l₁) hdefaults hattributes
    exact ⟨_, (statements_ok (by simp) hs).trans (statements_error (by simp) statement_arrow)⟩

/-! ## Several lines -/

theorem Reads.nil : Reads [] .ok := by
  intro located endLine n more h
  rw [List.map_eq_nil_iff.mp h]
  rfl

theorem Reads.append (h₁ : Reads tokens₁ f₁) (h₂ : Reads tokens₂ f₂) :
    Reads (tokens₁ ++ tokens₂) fun n => f₁ n >>= f₂ := by
  intro located endLine n more h
  obtain ⟨located₁, located₂, rfl, hlocated₁, hlocated₂⟩ := List.map_eq_append_iff.mp h
  rw [List.append_assoc, h₁ _ _ _ _ hlocated₁, bind_assoc]
  exact bind_congr fun n => h₂ _ _ _ _ hlocated₂

/-- One line for each element of a list. -/
theorem Reads.flatMap {α : Type} {xs : List α} {write : α → List Token} {f : Netlist → α → Except Error Netlist}
    (h : ∀ x ∈ xs, Reads (write x) fun n => f n x) : Reads (xs.flatMap write) fun n => xs.foldlM f n := by
  induction xs with
  | nil => exact .nil
  | cons x xs ih =>
    simp only [List.foldlM_cons]
    exact (h x List.mem_cons_self).append (ih fun y hy => h y (List.mem_cons_of_mem x hy))

theorem Refuses.append_left (h : Refuses tokens₁) : Refuses (tokens₁ ++ tokens₂) := by
  intro located endLine n more hlocated
  obtain ⟨located₁, located₂, rfl, hlocated₁, -⟩ := List.map_eq_append_iff.mp hlocated
  rw [List.append_assoc]
  exact h _ _ _ _ hlocated₁

theorem Refuses.append_right (h₁ : Reads tokens₁ f) (h₂ : Refuses tokens₂) : Refuses (tokens₁ ++ tokens₂) := by
  intro located endLine n more hlocated
  obtain ⟨located₁, located₂, rfl, hlocated₁, hlocated₂⟩ := List.map_eq_append_iff.mp hlocated
  rw [List.append_assoc, h₁ _ _ _ _ hlocated₁]
  cases f n with
  | error e => exact ⟨e, rfl⟩
  | ok n => exact h₂ _ _ _ _ hlocated₂

/-- Lines of which one is refused, when all others are read. -/
theorem Refuses.flatten {lines : List (List Token)} {line : List Token} (hline : line ∈ lines) (hrefuses : Refuses line)
    (h : ∀ line ∈ lines, (∃ f, Reads line f) ∨ Refuses line) : Refuses lines.flatten := by
  induction lines with
  | nil => cases hline
  | cons first lines ih =>
    rcases h first List.mem_cons_self with ⟨f, hfirst⟩ | hfirst
    · rcases List.mem_cons.mp hline with rfl | hline
      · exact hrefuses.append_left
      · exact .append_right hfirst (ih hline fun line hl => h line (List.mem_cons_of_mem first hl))
    · exact hfirst.append_left

/-! ## A graph -/

/-- Behind its opening a graph is its statements and nothing else. -/
theorem ofTokens_opening {read : Tokens} {opening body : List Located} (h : DerivesOpening (opening.map Located.token))
    (hread : read.tokens = opening ++ body) : Netlist.ofTokens read =
      (statements read.endLine ⟨∅, []⟩ body >>= fun (n, rest) => do
        if !rest.isEmpty then refuse read.endLine rest .trailingInput
        pure n) := by
  generalize hopening : opening.map Located.token = tokens at h
  obtain @⟨strict, name, digraph, hstrict, hdigraph⟩ := h
  simp only [List.map_eq_append_iff, List.map_eq_cons_iff, List.map_eq_nil_iff] at hopening
  obtain ⟨strictly, _, rfl, hstrictly, ⟨_, l₁⟩, _, rfl, rfl, named, _, rfl, hnamed, ⟨_, l₂⟩, _, rfl, rfl, rfl⟩ := hopening
  have hskip : (if atKeyword "strict" read.tokens then read.tokens.tail else read.tokens) =
      ⟨.id digraph, l₁⟩ :: (named ++ ⟨.lbrace, l₂⟩ :: body) := by
    cases strict with
    | none =>
      cases List.map_eq_nil_iff.mp hstrictly
      have hnot : ¬Spells "strict" digraph := fun h => absurd (h.symm.trans hdigraph) (by decide)
      rw [hread]
      simp [atKeyword_cons, hnot]
    | some word =>
      obtain ⟨⟨_, l⟩, rfl, rfl⟩ := List.map_eq_singleton_iff.mp hstrictly
      rw [hread]
      simp [atKeyword_cons, hstrict word rfl]
  have hdigraph : atKeyword "digraph" (⟨.id digraph, l₁⟩ :: (named ++ ⟨.lbrace, l₂⟩ :: body)) = true :=
    atKeyword_cons.mpr hdigraph
  unfold Netlist.ofTokens
  rw [hskip]
  dsimp only
  rw [hdigraph, List.tail_cons]
  cases name with
  | none =>
    cases List.map_eq_nil_iff.mp hnamed
    rfl
  | some word =>
    obtain ⟨⟨_, l⟩, rfl, rfl⟩ := List.map_eq_singleton_iff.mp hnamed
    rfl

/-- Tokens that make a netlist begin with an opening. -/
theorem exists_opening {read : Tokens} {n : Netlist} (h : Netlist.ofTokens read = .ok n) :
    ∃ opening body, read.tokens = opening ++ body ∧ DerivesOpening (opening.map Located.token) := by
  have hword {word : String} {ts : List Located} (h : atKeyword word ts = true) :
      ∃ name l rest, ts = ⟨.id name, l⟩ :: rest ∧ Spells word name := by
    match ts with
    | ⟨.id name, l⟩ :: rest => exact ⟨name, l, rest, rfl, atKeyword_cons.mp h⟩
  unfold Netlist.ofTokens at h
  generalize hts : (if atKeyword "strict" read.tokens then read.tokens.tail else read.tokens) = ts at h
  obtain ⟨strict, strictly, hstrict, hstrictly, hread⟩ : ∃ (strict : Option String) (strictly : List Located),
      (∀ word ∈ strict, Spells "strict" word) ∧ strictly.map Located.token = strict.toList.map .id ∧
      read.tokens = strictly ++ ts := by
    rw [← hts]
    split
    · next hstrict =>
      obtain ⟨word, l, rest, hread, hspells⟩ := hword hstrict
      exact ⟨some word, [⟨.id word, l⟩], fun _ h => Option.some.inj h ▸ hspells, rfl, by rw [hread]; rfl⟩
    · exact ⟨none, [], nofun, rfl, rfl⟩
  dsimp only at h
  split at h
  · cases h
  next hat =>
  obtain ⟨digraph, l₁, afterWord, rfl, hdigraph⟩ := hword (by simpa using hat)
  obtain ⟨name, named, l₂, body, hnamed, rfl⟩ : ∃ (name : Option String) (named : List Located) (l : Nat) (body : List Located),
      named.map Located.token = name.toList.map .id ∧ afterWord = named ++ ⟨.lbrace, l⟩ :: body := by
    rw [List.tail_cons] at h
    split at h <;> split at h
    all_goals first | cases h | skip
    · next word l rest hbrace =>
      obtain ⟨l', body, rfl⟩ := exists_of_current (not_not.mp hbrace)
      exact ⟨some word, [⟨.id word, l⟩], l', body, rfl, rfl⟩
    · next hbrace =>
      obtain ⟨l', body, rfl⟩ := exists_of_current (not_not.mp hbrace)
      exact ⟨none, [], l', body, rfl, rfl⟩
  refine ⟨strictly ++ ⟨.id digraph, l₁⟩ :: (named ++ [⟨.lbrace, l₂⟩]), body, by simp [hread], ?_⟩
  rw [List.map_append, List.map_cons, List.map_append, hstrictly, hnamed]
  exact .opening hstrict hdigraph

/-- A graph without a name is its statements, up to the closing brace. -/
theorem exists_ofTokens {read : Tokens} (h : read.tokens.map Located.token = graphTokens tokens) :
    ∃ located line, located.map Located.token = tokens ∧ Netlist.ofTokens read =
      (statements read.endLine ⟨∅, []⟩ (located ++ [⟨.rbrace, line⟩]) >>= fun (n, rest) => do
        if !rest.isEmpty then refuse read.endLine rest .trailingInput
        pure n) := by
  simp only [graphTokens, List.map_eq_cons_iff, List.map_eq_append_iff, List.map_eq_nil_iff] at h
  obtain ⟨⟨_, l₁⟩, _, hread, rfl, ⟨_, l₂⟩, _, rfl, rfl, located, _, rfl, hlocated, ⟨_, line⟩, _, rfl, rfl, rfl⟩ := h
  have hopening : DerivesOpening ([⟨.id "digraph", l₁⟩, ⟨.lbrace, l₂⟩].map Located.token) :=
    @DerivesOpening.opening none none _ nofun rfl
  exact ⟨located, line, hlocated, ofTokens_opening hopening hread⟩

/-- A graph whose statements are read. -/
theorem ofTokens_of_reads {read : Tokens} (h : read.tokens.map Located.token = graphTokens tokens)
    (hreads : Reads tokens f) : Netlist.ofTokens read = f ⟨∅, []⟩ := by
  obtain ⟨located, line, hlocated, hgraph⟩ := exists_ofTokens h
  rw [hgraph, hreads _ _ _ _ hlocated, bind_assoc]
  cases f ⟨∅, []⟩ with
  | error e => rfl
  | ok n =>
    rw [ok_bind, statements]
    rfl

/-- A graph with a refused statement. -/
theorem ofTokens_of_refuses {read : Tokens} (h : read.tokens.map Located.token = graphTokens tokens)
    (hrefuses : Refuses tokens) : ∃ e, Netlist.ofTokens read = .error e := by
  obtain ⟨located, line, hlocated, hgraph⟩ := exists_ofTokens h
  obtain ⟨e, he⟩ := hrefuses located read.endLine ⟨∅, []⟩ [⟨.rbrace, line⟩] hlocated
  rw [hgraph, he]
  exact ⟨e, rfl⟩

end Dot
end PlaceRoute
