import PlaceRoute.Dot.Printer
import PlaceRoute.Proofs.Success

/-!
# Pieces of text and their tokens

`Dot.Yields text tokens` says that a piece of text is split into the given tokens, wherever it starts and whatever comes
after it. Pieces can be joined (`Yields.append`), so the tokens of a text follow from those of its parts: blanks give
none, marks one each (`yields_mark`), a quoted text its characters (`yields_quoted`), and a word counts with the mark
that ends it (`yields_word`).
-/

namespace PlaceRoute
namespace Dot

/-- The tokens of a text after some tokens. -/
def Tokens.prepend (located : List Located) (rest : Tokens) : Tokens := ⟨located ++ rest.tokens, rest.endLine⟩

/-- The text is split into the tokens, wherever it starts and whatever comes after it. -/
def Yields (text : List Char) (tokens : List Token) : Prop :=
  ∀ line clear rest, ∃ located line' clear', located.map Located.token = tokens ∧
    lexFrom line clear (text ++ rest) = (lexFrom line' clear' rest).map (Tokens.prepend located)

variable {text text₁ text₂ : List Char} {tokens tokens₁ tokens₂ : List Token} {token : Token} {c : Char}

theorem Tokens.prepend_append {located₁ located₂ : List Located} (rest : Tokens) :
    (rest.prepend located₂).prepend located₁ = rest.prepend (located₁ ++ located₂) := by
  unfold Tokens.prepend
  rw [List.append_assoc]

/-! ## Joining pieces -/

theorem Yields.nil : Yields [] [] := by
  intro line clear rest
  refine ⟨[], line, clear, rfl, ?_⟩
  rw [List.nil_append]
  cases lexFrom line clear rest <;> rfl

theorem Yields.append (h₁ : Yields text₁ tokens₁) (h₂ : Yields text₂ tokens₂) :
    Yields (text₁ ++ text₂) (tokens₁ ++ tokens₂) := by
  intro line clear rest
  obtain ⟨located₁, line₁, clear₁, htokens₁, h₁⟩ := h₁ line clear (text₂ ++ rest)
  obtain ⟨located₂, line₂, clear₂, htokens₂, h₂⟩ := h₂ line₁ clear₁ rest
  refine ⟨located₁ ++ located₂, line₂, clear₂, by rw [List.map_append, htokens₁, htokens₂], ?_⟩
  rw [List.append_assoc, h₁, h₂]
  cases lexFrom line₂ clear₂ rest with
  | error e => rfl
  | ok r => exact congrArg Except.ok r.prepend_append

/-- One piece for each element of a list. -/
theorem Yields.flatMap {α : Type} {xs : List α} {write : α → List Char} {read : α → List Token}
    (h : ∀ x ∈ xs, Yields (write x) (read x)) : Yields (xs.flatMap write) (xs.flatMap read) := by
  induction xs with
  | nil => exact .nil
  | cons x xs ih => exact (h x List.mem_cons_self).append (ih fun y hy => h y (List.mem_cons_of_mem x hy))

/-- The tokens of a whole text. -/
theorem Yields.lex (h : Yields text tokens) :
    ∃ read : Tokens, read.tokens.map Located.token = tokens ∧ lex (String.ofList text) = .ok read := by
  obtain ⟨located, line, clear, htokens, h⟩ := h 1 true []
  refine ⟨⟨located, line⟩, htokens, ?_⟩
  rw [List.append_nil] at h
  unfold Dot.lex
  rw [String.toList_ofList, h, lexFrom]
  simp [Except.map, Tokens.prepend]

/-! ## Blanks and marks -/

theorem lexFrom_blank (hc : isBlank c = true) (hline : c ≠ '\n') {line : Nat} {clear : Bool} {rest : List Char} :
    lexFrom line clear (c :: rest) = lexFrom line clear rest := by
  rw [lexFrom, if_neg hline, if_pos hc]

theorem lexFrom_newLine {line : Nat} {clear : Bool} {rest : List Char} :
    lexFrom line clear ('\n' :: rest) = lexFrom (line + 1) true rest := by
  rw [lexFrom, if_pos rfl]

theorem yields_space : Yields [' '] [] := by
  intro line clear rest
  refine ⟨[], line, clear, rfl, ?_⟩
  rw [List.singleton_append, lexFrom_blank (by decide) (by decide)]
  cases lexFrom line clear rest <;> rfl

theorem yields_newLine : Yields ['\n'] [] := by
  intro line clear rest
  refine ⟨[], line + 1, true, rfl, ?_⟩
  rw [List.singleton_append, lexFrom_newLine]
  cases lexFrom (line + 1) true rest <;> rfl

/-- A mark is a token by itself. -/
theorem lexFrom_mark (h : punctuation? c = some token) {line : Nat} {clear : Bool} {rest : List Char} :
    lexFrom line clear (c :: rest) = (lexFrom line false rest).map (·.cons token line) := by
  unfold punctuation? at h
  split at h <;> cases h <;> (rw [lexFrom]; simp [isBlank, punctuation?]; rfl)

theorem yields_mark (h : punctuation? c = some token) : Yields [c] [token] := fun line _ _ =>
  ⟨[⟨token, line⟩], line, false, rfl, lexFrom_mark h⟩

theorem lexFrom_arrow {line : Nat} {clear : Bool} {rest : List Char} :
    lexFrom line clear ('-' :: '>' :: rest) = (lexFrom line false rest).map (·.cons .arrow line) := by
  rw [lexFrom]
  simp [isBlank, punctuation?]
  rfl

theorem yields_arrow : Yields ['-', '>'] [.arrow] := fun line _ _ => ⟨[⟨.arrow, line⟩], line, false, rfl, lexFrom_arrow⟩

/-! ## Quoted texts -/

/-- Whether a text can stand in quotes: a backslash at its end would take the closing quote with it. -/
def Quotable (text : String) : Prop := text.toList.getLast? ≠ some '\\'

instance (text : String) : Decidable (Quotable text) := inferInstanceAs (Decidable (_ ≠ _))

/-- An escaped text does not start with a quote. -/
theorem head?_escaped_ne {rest : List Char} (htext : text ≠ []) : (text.flatMap escape ++ rest).head? ≠ some '"' := by
  cases text with
  | nil => exact absurd rfl htext
  | cons c text =>
    rw [List.flatMap_cons, escape]
    split
    · intro h
      cases h
    · next hc => exact fun h => hc (Option.some.inj h)

/-- The closing quote of an escaped text ends it, and what stands before is the text. -/
theorem closeQuote_escaped {line : Nat} {rest : List Char} (h : text.getLast? ≠ some '\\') :
    closeQuote line (text.flatMap escape ++ '"' :: rest) = .ok (text, line + text.count '\n', rest) := by
  induction text generalizing line with
  | nil => rfl
  | cons c text ih =>
    have hlast : text.getLast? ≠ some '\\' := by
      cases text with
      | nil => nofun
      | cons d text => rwa [List.getLast?_cons_cons] at h
    rw [List.flatMap_cons, escape]
    split
    · next hc =>
      subst hc
      show closeQuote line ('\\' :: '"' :: (text.flatMap escape ++ '"' :: rest)) = _
      rw [closeQuote, ih hlast]
      rfl
    · next hc =>
      -- A backslash is not the last character, so a quote cannot follow it.
      have hback (after : List Char) (hslash : c = '\\') : text.flatMap escape ++ '"' :: rest ≠ '"' :: after := by
        intro heq
        have htext : text ≠ [] := by
          rintro rfl
          exact h (by rw [hslash]; rfl)
        exact head?_escaped_ne htext (by rw [heq]; rfl)
      show closeQuote line (c :: (text.flatMap escape ++ '"' :: rest)) = _
      rw [closeQuote.eq_4 _ _ _ hc hback, ih hlast]
      have hline : line + newLines c + text.count '\n' = line + (c :: text).count '\n' := by
        rw [List.count_cons, newLines]
        by_cases hc : c = '\n'
        · simp [hc]
          omega
        · simp [hc]
      rw [← hline]
      rfl

/-- A quoted text is one token that stands for the text. -/
theorem lexFrom_quoted {name : String} (h : Quotable name) {line : Nat} {clear : Bool} {rest : List Char} :
    lexFrom line clear (quoted name ++ rest) =
      (lexFrom (line + name.toList.count '\n') false rest).map (·.cons (.id name) line) := by
  have hclose : closeQuote line (name.toList.flatMap escape ++ ['"'] ++ rest) =
      .ok (name.toList, line + name.toList.count '\n', rest) := by
    rw [List.append_assoc, List.singleton_append]
    exact closeQuote_escaped h
  show lexFrom line clear ('"' :: (name.toList.flatMap escape ++ ['"'] ++ rest)) = _
  rw [lexFrom]
  simp only [↓Char.isValue, Char.reduceEq, ↓reduceIte, isBlank, Char.reduceBEq, Bool.or_self, Bool.false_eq_true,
    List.append_assoc, List.cons_append, List.nil_append, List.head?_append, List.head?_cons, Option.or_some,
    Option.some.injEq, false_and, or_self, punctuation?, imp_self, bind_pure_comp]
  split
  · next hfail =>
    rw [hclose] at hfail
    cases hfail
  · next hdone =>
    rw [hclose] at hdone
    cases hdone
    rw [String.ofList_toList]
    rfl

theorem yields_quoted {name : String} (h : Quotable name) : Yields (quoted name) [.id name] := fun line _ _ =>
  ⟨[⟨.id name, line⟩], line + name.toList.count '\n', false, rfl, lexFrom_quoted h⟩

/-! ## Words -/

/-- The first character of a word is no mark. -/
theorem punctuation?_eq_none (hc : isWordStart c = true) : punctuation? c = none := by
  unfold punctuation?
  split
  case h_8 => rfl
  all_goals exact absurd hc (by decide)

/-- A word is one token, when no character of a word comes after it and it is no arrow. -/
theorem lexFrom_word {word rest : List Char} (hc : isWordStart c = true)
    (hminus : c = '-' → (word ++ rest).head? ≠ some '>' ∧ (word ++ rest).head? ≠ some '-') (hword : word.all isWordChar = true)
    (hrest : ∀ d ∈ rest.head?, isWordChar d = false) {line : Nat} {clear : Bool} :
    lexFrom line clear (c :: (word ++ rest)) = (lexFrom line false rest).map (·.cons (.id (String.ofList (c :: word))) line) := by
  have hother {d : Char} (hd : isWordStart d = false) : c ≠ d := by
    rintro rfl
    rw [hc] at hd
    cases hd
  have hblank : isBlank c = false := by
    simp only [isBlank, Bool.or_eq_false_iff, beq_eq_false_iff_ne]
    exact ⟨⟨⟨⟨hother (by decide), hother (by decide)⟩, hother (by decide)⟩, hother (by decide)⟩, hother (by decide)⟩
  have hword := List.all_eq_true.mp hword
  have htake : (word ++ rest).takeWhile isWordChar = word := by
    rw [List.takeWhile_append_of_pos hword]
    cases rest with
    | nil => exact List.append_nil word
    | cons d rest =>
      rw [List.takeWhile_cons, hrest d rfl]
      exact List.append_nil word
  have hdrop : (word ++ rest).dropWhile isWordChar = rest := by
    rw [List.dropWhile_append_of_pos hword]
    cases rest with
    | nil => rfl
    | cons d rest =>
      rw [List.dropWhile_cons, hrest d rfl]
      rfl
  have hcomment : ¬((c = '/' ∧ (word ++ rest).head? = some '/') ∨ (c = '#' ∧ clear = true)) := by
    rintro (⟨hc', -⟩ | ⟨hc', -⟩)
    · exact hother (by decide) hc'
    · exact hother (by decide) hc'
  rw [lexFrom, if_neg (hother (by decide)), if_neg (by rw [hblank]; decide), if_neg hcomment,
    if_neg (fun h => hother (by decide) h.1), punctuation?_eq_none hc]
  dsimp only
  rw [if_neg (fun h => (hminus h.1).1 h.2), if_neg (fun h => (hminus h.1).2 h.2), if_neg (hother (by decide)), if_pos hc, htake,
    hdrop]
  rfl

/-- A word is one token, when a mark comes after it. -/
theorem yields_word {mark : Char} (c : Char) (word : List Char) (hc : isWordStart c = true) (hminus : c ≠ '-')
    (hword : word.all isWordChar = true) (hmark : isWordChar mark = false) (h : Yields (mark :: text) tokens) :
    Yields (c :: word ++ mark :: text) (.id (String.ofList (c :: word)) :: tokens) := by
  intro line clear rest
  obtain ⟨located, line₁, clear₁, htokens, h⟩ := h line false rest
  refine ⟨⟨.id (String.ofList (c :: word)), line⟩ :: located, line₁, clear₁, by rw [List.map_cons, htokens], ?_⟩
  have hend : ∀ d ∈ (mark :: text ++ rest).head?, isWordChar d = false := by
    rintro d ⟨⟩
    exact hmark
  rw [List.append_assoc, List.cons_append, lexFrom_word hc (absurd · hminus) hword hend, h]
  cases lexFrom line₁ clear₁ rest <;> rfl

end Dot
end PlaceRoute
