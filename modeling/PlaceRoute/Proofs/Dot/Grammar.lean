import PlaceRoute.Dot.Netlist
import PlaceRoute.Proofs.Success

/-!
# The grammar of netlists

What tokens derive, nonterminal by nonterminal: attributes with their separators (`DerivesPairs`), bracketed lists of them
(`DerivesLists`), chains of arrows (`DerivesArrows`), a statement (`DerivesStatement`), statements with optional
semicolons (`DerivesStatements`) and a graph with its opening (`DerivesOpening`, `DerivesGraph`). Words count in any
mixture of cases (`Spells`).

Each reading function is exact for its nonterminal. What it takes derives what it returns (`attributeLists_sound`,
`arrows_sound`, `statement_sound`), and what derives a result is read to it (`DerivesLists.read`, `DerivesArrows.read`,
`DerivesStatement.read`). The functions take as much as they can, so this needs that the derived tokens do not go on: after a
statement there is no equals sign, arrow or bracket (`Ends`).
-/

namespace PlaceRoute
namespace Dot

/-! ## Words -/

/-- The name is the word in some mixture of cases. -/
def Spells (word name : String) : Prop := name.toList.map Char.toLower = word.toList

/-- The name is a word after which attributes are defaults. -/
def IsDefaults (name : String) : Prop := Spells "graph" name ∨ Spells "node" name ∨ Spells "edge" name

/-- The name is a word that starts another statement than that of a node. -/
def IsKeyword (name : String) : Prop := Spells "subgraph" name ∨ IsDefaults name

instance (word name : String) : Decidable (Spells word name) := inferInstanceAs (Decidable (_ = _))

instance (name : String) : Decidable (IsDefaults name) := inferInstanceAs (Decidable (_ ∨ _))

instance (name : String) : Decidable (IsKeyword name) := inferInstanceAs (Decidable (_ ∨ _))

theorem IsDefaults.not_subgraph {name : String} (h : IsDefaults name) : ¬Spells "subgraph" name := by
  intro hsub
  unfold IsDefaults Spells at h
  rw [show name.toList.map Char.toLower = _ from hsub] at h
  revert h
  decide

/-! ## Derivations -/

/-- Attributes, each with an optional comma or semicolon after it. -/
inductive DerivesPairs : List Token → Attributes → Prop where
  | nil : DerivesPairs [] []
  | cons {key value : String} {separator tokens : List Token} {pairs : Attributes} :
      separator ∈ [[], [.comma], [.semicolon]] → DerivesPairs tokens pairs →
      DerivesPairs (.id key :: .equals :: .id value :: (separator ++ tokens)) ((key, value) :: pairs)

/-- Any number of lists of attributes in brackets. -/
inductive DerivesLists : List Token → Attributes → Prop where
  | nil : DerivesLists [] []
  | cons {tokens more : List Token} {pairs attributes : Attributes} : DerivesPairs tokens pairs →
      DerivesLists more attributes → DerivesLists (.lbracket :: (tokens ++ .rbracket :: more)) (pairs ++ attributes)

/-- Any number of arrows, each with the name that it points to. -/
inductive DerivesArrows : List Token → List String → Prop where
  | nil : DerivesArrows [] []
  | cons {name : String} {tokens : List Token} {names : List String} : DerivesArrows tokens names →
      DerivesArrows (.arrow :: .id name :: tokens) (name :: names)

/-- A word for defaults with attributes, an equation, or a chain of names with attributes. -/
inductive DerivesStatement : List Token → Statement → Prop where
  | defaults {name : String} {tokens : List Token} {attributes : Attributes} : IsDefaults name →
      DerivesLists tokens attributes → DerivesStatement (.id name :: tokens) .defaults
  | setting {name value : String} : ¬IsKeyword name →
      DerivesStatement [.id name, .equals, .id value] (.setting name value)
  | chain {name : String} {arrows tokens : List Token} {names : List String} {attributes : Attributes} : ¬IsKeyword name →
      DerivesArrows arrows names → DerivesLists tokens attributes →
      DerivesStatement (.id name :: (arrows ++ tokens)) (.chain name names attributes)

/-- Any number of statements, each with an optional semicolon after it. -/
inductive DerivesStatements : List Token → List Statement → Prop where
  | nil : DerivesStatements [] []
  | cons {tokens separator more : List Token} {s : Statement} {ss : List Statement} : DerivesStatement tokens s →
      separator ∈ [[], [.semicolon]] → DerivesStatements more ss → DerivesStatements (tokens ++ separator ++ more) (s :: ss)

/-- An optional `strict`, `digraph`, an optional name, and a brace. -/
inductive DerivesOpening : List Token → Prop where
  | opening {strict name : Option String} {digraph : String} : (∀ word ∈ strict, Spells "strict" word) →
      Spells "digraph" digraph → DerivesOpening (strict.toList.map .id ++ .id digraph :: (name.toList.map .id ++ [.lbrace]))

/-- An opening with its brace, statements, and the closing brace. -/
inductive DerivesGraph : List Token → List Statement → Prop where
  | graph {opening body : List Token} {ss : List Statement} : DerivesOpening opening → DerivesStatements body ss →
      DerivesGraph (opening ++ body ++ [.rbrace]) ss

variable {endLine l : Nat} {name : String} {pairs attributes : Attributes} {names : List String} {s : Statement}
  {ts used rest : List Located}

/-! ## Attributes -/

theorem identifier_sound {r} (h : identifier endLine ts = .ok r) : ∃ l, ts = ⟨.id r.1, l⟩ :: r.2.1 := by
  unfold identifier at h
  split at h
  · cases h
    exact ⟨_, rfl⟩
  · cases h

theorem exists_of_current {token : Token} (h : current ts = some token) : ∃ l rest, ts = ⟨token, l⟩ :: rest := by
  cases ts with
  | nil => cases h
  | cons t ts =>
    obtain ⟨token', l⟩ := t
    cases h
    exact ⟨l, ts, rfl⟩

/-- An optional token is taken if it is there. -/
theorem exists_skip (token : Token) (ts : List Located) :
    ∃ used, ts = used ++ skip token ts ∧ used.map Located.token ∈ [[], [token]] := by
  unfold skip
  split
  · next h =>
    obtain ⟨l, rest, rfl⟩ := exists_of_current h
    exact ⟨[⟨token, l⟩], rfl, by simp⟩
  · exact ⟨[], rfl, by simp⟩

theorem attributePair_sound {r} (h : attributePair endLine ts = .ok r) : ∃ used separator, ts = used ++ r.2.1 ∧
    separator ∈ [[], [.comma], [.semicolon]] ∧ used.map Located.token = .id r.1.1 :: .equals :: .id r.1.2 :: separator := by
  unfold attributePair at h
  obtain ⟨⟨key, afterKey, _⟩, hkey, h⟩ := bind_eq_ok h
  obtain ⟨l₁, rfl⟩ : ∃ l, ts = ⟨.id key, l⟩ :: afterKey := identifier_sound hkey
  dsimp only at h
  split at h
  · cases h
  next hequals =>
  obtain ⟨l₂, afterEquals, rfl⟩ := exists_of_current (not_not.mp hequals)
  obtain ⟨⟨value, afterValue, _⟩, hvalue, h⟩ := bind_eq_ok h
  obtain ⟨l₃, rfl⟩ : ∃ l, afterEquals = ⟨.id value, l⟩ :: afterValue := identifier_sound hvalue
  cases h
  obtain ⟨used, hused, hseparator⟩ : ∃ used, afterValue = used ++
      (if current afterValue = some .comma then afterValue.tail else skip .semicolon afterValue) ∧
      used.map Located.token ∈ [[], [.comma], [.semicolon]] := by
    split
    · next hcomma =>
      obtain ⟨l₄, rest, rfl⟩ := exists_of_current hcomma
      exact ⟨[⟨.comma, l₄⟩], rfl, by simp⟩
    · obtain ⟨used, hused, htokens⟩ := exists_skip .semicolon afterValue
      exact ⟨used, hused, by rcases List.mem_pair.mp htokens with h | h <;> simp [h]⟩
  refine ⟨⟨.id key, l₁⟩ :: ⟨.equals, l₂⟩ :: ⟨.id value, l₃⟩ :: used, _, ?_, hseparator, rfl⟩
  simp only [List.cons_append, ← hused]

theorem attributeList_of_ne (h : current ts ≠ some .rbracket) : attributeList endLine ts = (do
    let (pair, ⟨afterPair, hp⟩) ← attributePair endLine ts
    let (pairs, ⟨rest, hr⟩) ← attributeList endLine afterPair
    pure (pair :: pairs, ⟨rest, Nat.le_of_lt (Nat.lt_of_le_of_lt hr hp)⟩)) := by
  rw [attributeList]
  rintro l rest rfl
  exact h rfl

theorem attributeList_sound {ts : List Located} {r} (h : attributeList endLine ts = .ok r) :
    ∃ used l, ts = used ++ ⟨.rbracket, l⟩ :: r.2.1 ∧ DerivesPairs (used.map Located.token) r.1 := by
  by_cases hclose : current ts = some .rbracket
  · obtain ⟨l, rest, rfl⟩ := exists_of_current hclose
    rw [attributeList] at h
    cases h
    exact ⟨[], l, rfl, .nil⟩
  · rw [attributeList_of_ne hclose] at h
    obtain ⟨⟨pair, afterPair, hlt⟩, hpair, h⟩ := bind_eq_ok h
    obtain ⟨⟨pairs, rest, _⟩, hpairs, h⟩ := bind_eq_ok h
    cases h
    obtain ⟨used, separator, hused, hseparator, htokens⟩ := attributePair_sound hpair
    obtain ⟨more, l, hmore, hderives⟩ := attributeList_sound hpairs
    dsimp only at hused hmore htokens hderives ⊢
    refine ⟨used ++ more, l, by rw [hused, hmore, List.append_assoc], ?_⟩
    rw [List.map_append, htokens]
    exact .cons hseparator hderives
termination_by ts.length

theorem attributeLists_of_ne (h : current ts ≠ some .lbracket) :
    attributeLists endLine ts = .ok ([], ⟨ts, Nat.le_refl _⟩) := by
  rw [attributeLists]
  rintro l rest rfl
  exact h rfl

theorem attributeLists_sound {ts : List Located} {r} (h : attributeLists endLine ts = .ok r) :
    ∃ used, ts = used ++ r.2.1 ∧ DerivesLists (used.map Located.token) r.1 := by
  by_cases hopen : current ts = some .lbracket
  · obtain ⟨l, inside, rfl⟩ := exists_of_current hopen
    rw [attributeLists] at h
    obtain ⟨⟨pairs, outside, _⟩, hpairs, h⟩ := bind_eq_ok h
    obtain ⟨⟨attributes, rest, _⟩, hattributes, h⟩ := bind_eq_ok h
    cases h
    obtain ⟨used, l', rfl, hused⟩ : ∃ used l', inside = used ++ ⟨.rbracket, l'⟩ :: outside ∧ _ := attributeList_sound hpairs
    obtain ⟨more, rfl, hmore⟩ : ∃ more, outside = more ++ rest ∧ _ := attributeLists_sound hattributes
    refine ⟨⟨.lbracket, l⟩ :: (used ++ ⟨.rbracket, l'⟩ :: more), by simp, ?_⟩
    rw [List.map_cons, List.map_append, List.map_cons]
    exact .cons hused hmore
  · rw [attributeLists_of_ne hopen] at h
    cases h
    exact ⟨[], rfl, .nil⟩
termination_by ts.length

/-! ## Arrows -/

theorem arrows_of_ne (h : current ts ≠ some .arrow) (h' : current ts ≠ some .undirectedEdge) :
    arrows endLine ts = .ok ([], ⟨ts, Nat.le_refl _⟩) := by
  rw [arrows]
  · rintro l rest rfl
    exact h rfl
  · rintro l rest rfl
    exact h' rfl

theorem arrows_sound {ts : List Located} {r} (h : arrows endLine ts = .ok r) :
    ∃ used, ts = used ++ r.2.1 ∧ DerivesArrows (used.map Located.token) r.1 := by
  by_cases harrow : current ts = some .arrow
  · obtain ⟨l, afterArrow, rfl⟩ := exists_of_current harrow
    rw [arrows] at h
    obtain ⟨⟨name, afterName, _⟩, hname, h⟩ := bind_eq_ok h
    obtain ⟨⟨names, rest, _⟩, hnames, h⟩ := bind_eq_ok h
    cases h
    obtain ⟨l', rfl⟩ : ∃ l', afterArrow = ⟨.id name, l'⟩ :: afterName := identifier_sound hname
    obtain ⟨used, rfl, hused⟩ : ∃ used, afterName = used ++ rest ∧ _ := arrows_sound hnames
    exact ⟨⟨.arrow, l⟩ :: ⟨.id name, l'⟩ :: used, rfl, .cons hused⟩
  by_cases hundirected : current ts = some .undirectedEdge
  · obtain ⟨l, rest, rfl⟩ := exists_of_current hundirected
    rw [arrows] at h
    cases h
  · rw [arrows_of_ne harrow hundirected] at h
    cases h
    exact ⟨[], rfl, .nil⟩
termination_by ts.length

/-! ## Statements -/

theorem atKeyword_cons {word : String} : atKeyword word (⟨.id name, l⟩ :: ts) = true ↔ Spells word name :=
  beq_iff_eq

theorem atSubgraph_cons : (atKeyword "subgraph" (⟨.id name, l⟩ :: ts) = true ∨
    current (⟨.id name, l⟩ :: ts) = some .lbrace) ↔ Spells "subgraph" name := by
  rw [atKeyword_cons]
  exact or_iff_left (by simp [current])

theorem atDefaults_cons : (atKeyword "graph" (⟨.id name, l⟩ :: ts) = true ∨
    atKeyword "node" (⟨.id name, l⟩ :: ts) = true ∨ atKeyword "edge" (⟨.id name, l⟩ :: ts) = true) ↔ IsDefaults name := by
  rw [atKeyword_cons, atKeyword_cons, atKeyword_cons]
  rfl

theorem statement_sound {r} (h : statement endLine ts = .ok r) :
    ∃ used, ts = used ++ r.2.1 ∧ DerivesStatement (used.map Located.token) r.1 := by
  unfold statement at h
  by_cases hsubgraph : atKeyword "subgraph" ts = true ∨ current ts = some .lbrace
  · rw [if_pos hsubgraph] at h
    cases h
  rw [if_neg hsubgraph] at h
  obtain ⟨⟨first, afterFirst, _⟩, hfirst, h⟩ := bind_eq_ok h
  obtain ⟨l, rfl⟩ : ∃ l, ts = ⟨.id first, l⟩ :: afterFirst := identifier_sound hfirst
  rw [atSubgraph_cons] at hsubgraph
  dsimp only at h
  split at h
  · next hdefaults =>
    obtain ⟨⟨attributes, rest, _⟩, hattributes, h⟩ := bind_eq_ok h
    cases h
    obtain ⟨used, rfl, hused⟩ : ∃ used, afterFirst = used ++ rest ∧ _ := attributeLists_sound hattributes
    exact ⟨⟨.id first, l⟩ :: used, rfl, .defaults (atDefaults_cons.mp hdefaults) hused⟩
  next hdefaults =>
  have hname : ¬IsKeyword first := fun h => h.elim hsubgraph fun h => hdefaults (atDefaults_cons.mpr h)
  split at h
  · next hequals =>
    obtain ⟨l', afterEquals, rfl⟩ := exists_of_current hequals
    obtain ⟨⟨value, rest, _⟩, hvalue, h⟩ := bind_eq_ok h
    cases h
    obtain ⟨l₂, rfl⟩ : ∃ l₂, afterEquals = ⟨.id value, l₂⟩ :: rest := identifier_sound hvalue
    exact ⟨[⟨.id first, l⟩, ⟨.equals, l'⟩, ⟨.id value, l₂⟩], rfl, .setting hname⟩
  · obtain ⟨⟨names, afterNames, _⟩, hnames, h⟩ := bind_eq_ok h
    obtain ⟨⟨attributes, rest, _⟩, hattributes, h⟩ := bind_eq_ok h
    cases h
    obtain ⟨arrows, rfl, harrows⟩ : ∃ arrows, afterFirst = arrows ++ afterNames ∧ _ := arrows_sound hnames
    obtain ⟨used, rfl, hused⟩ : ∃ used, afterNames = used ++ rest ∧ _ := attributeLists_sound hattributes
    refine ⟨⟨.id first, l⟩ :: (arrows ++ used), by simp, ?_⟩
    rw [List.map_cons, List.map_append]
    exact .chain hname harrows hused

/-! ## Reading what is derived -/

/-- A word for defaults takes the attributes that follow with it. -/
theorem statement_defaults {hrest} (hname : IsDefaults name)
    (hattributes : attributeLists endLine ts = .ok (attributes, ⟨rest, hrest⟩)) :
    ∃ h, statement endLine (⟨.id name, l⟩ :: ts) = .ok (.defaults, ⟨rest, h⟩) := by
  refine ⟨by simp; omega, ?_⟩
  unfold statement
  rw [if_neg (mt atSubgraph_cons.mp hname.not_subgraph)]
  simp only [identifier, ok_bind]
  rw [if_pos (atDefaults_cons.mpr hname), hattributes]
  rfl

theorem statement_setting {value : String} {l₂ l₃ : Nat} (hname : ¬IsKeyword name) :
    ∃ h, statement endLine (⟨.id name, l⟩ :: ⟨.equals, l₂⟩ :: ⟨.id value, l₃⟩ :: rest) =
      .ok (.setting name value, ⟨rest, h⟩) := by
  refine ⟨by simp; omega, ?_⟩
  unfold statement
  rw [if_neg (mt atSubgraph_cons.mp fun h => hname (.inl h))]
  simp only [identifier, ok_bind]
  rw [if_neg (mt atDefaults_cons.mp fun h => hname (.inr h))]
  rfl

/-- A statement that starts with a name and has no equals sign after it. -/
theorem statement_chain {ts' : List Located} {hts hrest} (hname : ¬IsKeyword name) (hequals : current ts ≠ some .equals)
    (harrows : arrows endLine ts = .ok (names, ⟨ts', hts⟩))
    (hattributes : attributeLists endLine ts' = .ok (attributes, ⟨rest, hrest⟩)) :
    ∃ h, statement endLine (⟨.id name, l⟩ :: ts) = .ok (.chain name names attributes, ⟨rest, h⟩) := by
  refine ⟨by simp; omega, ?_⟩
  unfold statement
  rw [if_neg (mt atSubgraph_cons.mp fun h => hname (.inl h))]
  simp only [identifier, ok_bind]
  rw [if_neg (mt atDefaults_cons.mp fun h => hname (.inr h)), if_neg hequals, harrows]
  simp only [ok_bind]
  rw [hattributes]
  rfl

/-- The tokens do not go on with the statement before them. -/
def Ends (ts : List Located) : Prop := ∀ token ∈ [Token.lbracket, .equals, .arrow, .undirectedEdge], current ts ≠ some token

theorem current_append : current (used ++ rest) = ((used.map Located.token).head?).or (current rest) := by
  cases used <;> rfl

theorem DerivesPairs.head? {tokens : List Token} (h : DerivesPairs tokens pairs) :
    tokens = [] ∨ ∃ key, tokens.head? = some (.id key) := by
  cases h with
  | nil => exact .inl rfl
  | cons _ _ => exact .inr ⟨_, rfl⟩

theorem DerivesLists.head? {tokens : List Token} (h : DerivesLists tokens attributes) :
    tokens = [] ∨ tokens.head? = some .lbracket := by
  cases h with
  | nil => exact .inl rfl
  | cons _ _ => exact .inr rfl

theorem DerivesArrows.head? {tokens : List Token} (h : DerivesArrows tokens names) :
    tokens = [] ∨ tokens.head? = some .arrow := by
  cases h with
  | nil => exact .inl rfl
  | cons _ => exact .inr rfl

theorem DerivesStatement.head? {tokens : List Token} (h : DerivesStatement tokens s) :
    ∃ name, tokens.head? = some (.id name) := by
  cases h with
  | defaults _ _ => exact ⟨_, rfl⟩
  | setting _ => exact ⟨_, rfl⟩
  | chain _ _ _ => exact ⟨_, rfl⟩

theorem attributePair_read (endLine : Nat) (key value : String) {after : List Located} (l₁ l₂ l₃ : Nat)
    (hrest : (if current after = some .comma then after.tail else skip .semicolon after) = rest) :
    ∃ h, attributePair endLine (⟨.id key, l₁⟩ :: ⟨.equals, l₂⟩ :: ⟨.id value, l₃⟩ :: after) =
      .ok ((key, value), ⟨rest, h⟩) := by
  subst hrest
  exact ⟨_, rfl⟩

theorem DerivesPairs.read {tokens : List Token} (h : DerivesPairs tokens pairs) (endLine l : Nat) (rest : List Located)
    {used : List Located} (hused : used.map Located.token = tokens) :
    ∃ hr, attributeList endLine (used ++ ⟨.rbracket, l⟩ :: rest) = .ok (pairs, ⟨rest, hr⟩) := by
  induction h generalizing used with
  | nil =>
    cases List.map_eq_nil_iff.mp hused
    rw [List.nil_append]
    exact ⟨by simp, by rw [attributeList]⟩
  | @cons key value separator tokens pairs hseparator hmore ih =>
    simp only [List.map_eq_cons_iff, List.map_eq_append_iff] at hused
    obtain ⟨⟨_, l₁⟩, _, rfl, rfl, ⟨_, l₂⟩, _, rfl, rfl, ⟨_, l₃⟩, _, rfl, rfl, separator, more, rfl, rfl, rfl⟩ := hused
    obtain ⟨_, hpairs⟩ := ih rfl
    have hnext : current (more ++ ⟨.rbracket, l⟩ :: rest) ≠ some .semicolon ∧
        current (more ++ ⟨.rbracket, l⟩ :: rest) ≠ some .comma := by
      rw [current_append]
      rcases hmore.head? with hnil | ⟨key, hkey⟩
      · simp [hnil, current]
      · simp [hkey]
    have hafter : (if current (separator ++ (more ++ ⟨.rbracket, l⟩ :: rest)) = some .comma then
        (separator ++ (more ++ ⟨.rbracket, l⟩ :: rest)).tail else
        skip .semicolon (separator ++ (more ++ ⟨.rbracket, l⟩ :: rest))) = more ++ ⟨.rbracket, l⟩ :: rest := by
      simp only [List.mem_cons, List.not_mem_nil, or_false, List.map_eq_nil_iff, List.map_eq_singleton_iff] at hseparator
      rcases hseparator with rfl | ⟨⟨_, l₄⟩, rfl, rfl⟩ | ⟨⟨_, l₄⟩, rfl, rfl⟩
      · rw [List.nil_append, if_neg hnext.2, skip, if_neg hnext.1]
      · rfl
      · rfl
    obtain ⟨_, hpair⟩ := attributePair_read endLine key value l₁ l₂ l₃ hafter
    rw [List.cons_append, List.cons_append, List.cons_append, List.append_assoc]
    refine ⟨by simp; omega, ?_⟩
    rw [attributeList_of_ne (by simp [current]), hpair, ok_bind]
    dsimp only
    rw [hpairs]
    rfl

theorem DerivesLists.read {tokens : List Token} (h : DerivesLists tokens attributes) (endLine : Nat)
    (hrest : current rest ≠ some .lbracket) {used : List Located} (hused : used.map Located.token = tokens) :
    ∃ hr, attributeLists endLine (used ++ rest) = .ok (attributes, ⟨rest, hr⟩) := by
  induction h generalizing used with
  | nil =>
    cases List.map_eq_nil_iff.mp hused
    exact ⟨by simp, attributeLists_of_ne hrest⟩
  | cons hpairs _ ih =>
    simp only [List.map_eq_cons_iff, List.map_eq_append_iff] at hused
    obtain ⟨⟨_, l⟩, _, rfl, rfl, inside, _, rfl, hinside, ⟨_, l'⟩, more, rfl, rfl, hmore⟩ := hused
    obtain ⟨_, hpairs⟩ := hpairs.read endLine l' (more ++ rest) hinside
    obtain ⟨_, hlists⟩ := ih hmore
    rw [List.cons_append, List.append_assoc, List.cons_append]
    refine ⟨by simp; omega, ?_⟩
    rw [attributeLists, hpairs, ok_bind]
    dsimp only
    rw [hlists]
    rfl

theorem DerivesArrows.read {tokens : List Token} (h : DerivesArrows tokens names) (endLine : Nat)
    (harrow : current rest ≠ some .arrow) (hundirected : current rest ≠ some .undirectedEdge) {used : List Located}
    (hused : used.map Located.token = tokens) : ∃ hr, arrows endLine (used ++ rest) = .ok (names, ⟨rest, hr⟩) := by
  induction h generalizing used with
  | nil =>
    cases List.map_eq_nil_iff.mp hused
    exact ⟨by simp, arrows_of_ne harrow hundirected⟩
  | cons _ ih =>
    simp only [List.map_eq_cons_iff] at hused
    obtain ⟨⟨_, l⟩, _, rfl, rfl, ⟨_, l'⟩, more, rfl, rfl, hmore⟩ := hused
    obtain ⟨_, hnames⟩ := ih hmore
    simp only [List.cons_append]
    refine ⟨by simp; omega, ?_⟩
    rw [arrows]
    simp only [identifier, ok_bind]
    rw [hnames]
    rfl

theorem DerivesStatement.read {tokens : List Token} (h : DerivesStatement tokens s) (endLine : Nat) (hrest : Ends rest)
    {used : List Located} (hused : used.map Located.token = tokens) :
    ∃ hr, statement endLine (used ++ rest) = .ok (s, ⟨rest, hr⟩) := by
  have hlbracket : current rest ≠ some .lbracket := hrest _ (by simp)
  cases h with
  | defaults hname hlists =>
    obtain ⟨⟨_, l⟩, used, rfl, rfl, hlist⟩ := List.map_eq_cons_iff.mp hused
    obtain ⟨_, hattributes⟩ := hlists.read endLine hlbracket hlist
    rw [List.cons_append]
    exact statement_defaults hname hattributes
  | setting hname =>
    simp only [List.map_eq_cons_iff, List.map_eq_nil_iff] at hused
    obtain ⟨⟨_, l₁⟩, _, rfl, rfl, ⟨_, l₂⟩, _, rfl, rfl, ⟨_, l₃⟩, _, rfl, rfl, rfl⟩ := hused
    simp only [List.cons_append, List.nil_append]
    exact statement_setting hname
  | chain hname harrows hlists =>
    simp only [List.map_eq_cons_iff, List.map_eq_append_iff] at hused
    obtain ⟨⟨_, l⟩, _, rfl, rfl, arrows, lists, rfl, hused, hused'⟩ := hused
    obtain ⟨_, hattributes⟩ := hlists.read endLine hlbracket hused'
    have hnext (token : Token) (ht : token ∈ [Token.equals, .arrow, .undirectedEdge]) :
        current (lists ++ rest) ≠ some token := by
      rw [current_append, hused']
      rcases hlists.head? with hnil | hhead
      · rw [hnil]
        exact hrest token (List.mem_cons_of_mem _ ht)
      · rw [hhead]
        rintro heq
        cases heq
        simp at ht
    obtain ⟨_, hnames⟩ := harrows.read endLine (hnext .arrow (by simp)) (hnext .undirectedEdge (by simp)) hused
    have hequals : current (arrows ++ (lists ++ rest)) ≠ some .equals := by
      rw [current_append, hused]
      rcases harrows.head? with hnil | hhead
      · rw [hnil]
        exact hnext .equals (by simp)
      · simp [hhead]
    rw [List.cons_append, List.append_assoc]
    exact statement_chain hname hequals hnames hattributes

end Dot
end PlaceRoute
