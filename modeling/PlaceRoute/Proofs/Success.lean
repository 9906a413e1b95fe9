import Mathlib.Data.List.Basic

/-!
# Steps that succeeded

What follows from the success of a chain of steps that may fail: each step did (`bind_eq_ok`), a fold kept what every step
keeps (`foldlM_induction`), and every item of a list was handled (`getElem?_mapM`, `forM_eq_ok_iff`). In the other direction, a
chain fails only in the ways in which its steps do (`FailsOnly`).
-/

namespace PlaceRoute

variable {α β σ ε : Type}

theorem bind_eq_ok {x : Except ε α} {f : α → Except ε β} {b : β} (h : x >>= f = .ok b) :
    ∃ a, x = .ok a ∧ f a = .ok b := by
  cases x with
  | error e => cases h
  | ok a => exact ⟨a, rfl, h⟩

theorem ok_bind (a : α) (f : α → Except ε β) : (.ok a >>= f) = f a := rfl

/-- A test that is passed by the result of steps, which so succeed. -/
theorem exists_ok_of_any {x : Except ε α} {p : α → Bool} (h : x.toOption.any p = true) : ∃ a, x = .ok a ∧ p a = true := by
  cases x with
  | error e => cases h
  | ok a => exact ⟨a, rfl, h⟩

theorem eq_ok_of_toOption {x : Except ε α} {a : α} (h : x.toOption = some a) : x = .ok a := by
  cases x with
  | error e => cases h
  | ok a' => cases h; rfl

theorem mapError_eq_ok {ε' : Type} {x : Except ε α} {f : ε → ε'} {a : α} (h : x.mapError f = .ok a) : x = .ok a := by
  cases x with
  | error e => cases h
  | ok a' => cases h; rfl

/-- A fold that succeeds keeps what every step that succeeds keeps. -/
theorem foldlM_induction {f : σ → α → Except ε σ} {l : List α} {s s' : σ} (P : σ → Prop) (hs : P s)
    (hstep : ∀ s x s', x ∈ l → P s → f s x = .ok s' → P s') (h : l.foldlM f s = .ok s') : P s' := by
  induction l generalizing s with
  | nil => cases h; exact hs
  | cons x l ih =>
    rw [List.foldlM_cons] at h
    obtain ⟨s₁, hx, hl⟩ := bind_eq_ok h
    exact ih (hstep s x s₁ List.mem_cons_self hs hx) (fun s y s' hy => hstep s y s' (List.mem_cons_of_mem _ hy)) hl

/-- Every step of a fold succeeded, from the state that it came to. -/
theorem exists_of_foldlM {f : σ → α → Except ε σ} {l : List α} {s s' : σ} (h : l.foldlM f s = .ok s') {x : α} (hx : x ∈ l) :
    ∃ s₁ s₂, f s₁ x = .ok s₂ := by
  induction l generalizing s with
  | nil => cases hx
  | cons y l ih =>
    rw [List.foldlM_cons] at h
    obtain ⟨s₁, hy, hl⟩ := bind_eq_ok h
    rcases List.mem_cons.mp hx with rfl | hx
    · exact ⟨s, s₁, hy⟩
    · exact ih hl hx

/-- A loop of loops is one loop. -/
theorem foldlM_flatMap {γ : Type} {f : σ → γ → Except ε σ} {l : List α} {k : α → List γ} {s : σ} :
    (l.flatMap k).foldlM f s = l.foldlM (fun s x => (k x).foldlM f s) s := by
  induction l generalizing s with
  | nil => rfl
  | cons x l ih =>
    rw [List.flatMap_cons, List.foldlM_append, List.foldlM_cons]
    exact bind_congr fun _ => ih

/-- The results of a list of steps, by place. -/
theorem getElem?_mapM {f : α → Except ε β} {l : List α} {l' : List β} (h : l.mapM f = .ok l') {j : Nat} {y : β} :
    l'[j]? = some y ↔ ∃ x, l[j]? = some x ∧ f x = .ok y := by
  induction l generalizing l' j with
  | nil =>
    cases h
    simp
  | cons x l ih =>
    rw [List.mapM_cons] at h
    obtain ⟨y', hy', h⟩ := bind_eq_ok h
    obtain ⟨ys, hys, h⟩ := bind_eq_ok h
    cases h
    cases j with
    | zero => simp [hy']
    | succ j => exact ih hys

theorem length_mapM {f : α → Except ε β} {l : List α} {l' : List β} (h : l.mapM f = .ok l') : l'.length = l.length := by
  induction l generalizing l' with
  | nil => cases h; rfl
  | cons x l ih =>
    rw [List.mapM_cons] at h
    obtain ⟨y, -, h⟩ := bind_eq_ok h
    obtain ⟨ys, hys, h⟩ := bind_eq_ok h
    cases h
    rw [List.length_cons, List.length_cons, ih hys]

theorem mem_mapM {f : α → Except ε β} {l : List α} {l' : List β} (h : l.mapM f = .ok l') {y : β} :
    y ∈ l' ↔ ∃ x ∈ l, f x = .ok y := by
  simp only [List.mem_iff_getElem?, getElem?_mapM h]
  constructor
  · rintro ⟨j, x, hx, hy⟩
    exact ⟨x, ⟨j, hx⟩, hy⟩
  · rintro ⟨x, ⟨j, hx⟩, hy⟩
    exact ⟨j, x, hx, hy⟩

/-- Every step of a list succeeded. -/
theorem exists_of_mapM {f : α → Except ε β} {l : List α} {l' : List β} (h : l.mapM f = .ok l') {x : α} (hx : x ∈ l) :
    ∃ y, f x = .ok y := by
  induction l generalizing l' with
  | nil => cases hx
  | cons x' l ih =>
    rw [List.mapM_cons] at h
    obtain ⟨y, hy, h⟩ := bind_eq_ok h
    obtain ⟨ys, hys, -⟩ := bind_eq_ok h
    rcases List.mem_cons.mp hx with rfl | hx
    · exact ⟨y, hy⟩
    · exact ih hys hx

theorem mapM_ok {f : α → Except ε β} {l : List α} (h : ∀ x ∈ l, ∃ y, f x = .ok y) : ∃ l', l.mapM f = .ok l' := by
  induction l with
  | nil => exact ⟨[], rfl⟩
  | cons x l ih =>
    obtain ⟨hx, hl⟩ := List.forall_mem_cons.mp h
    obtain ⟨y, hy⟩ := hx
    obtain ⟨l', hl'⟩ := ih hl
    exact ⟨y :: l', by rw [List.mapM_cons, hy, hl']; rfl⟩

/-- Steps that succeed wherever others do, with the same results. -/
theorem mapM_imp {f f' : α → Except ε β} {l : List α} {l' : List β} (hf : ∀ x ∈ l, ∀ y, f x = .ok y → f' x = .ok y)
    (h : l.mapM f = .ok l') : l.mapM f' = .ok l' := by
  induction l generalizing l' with
  | nil => exact h
  | cons x l ih =>
    obtain ⟨hx, hl⟩ := List.forall_mem_cons.mp hf
    rw [List.mapM_cons] at h ⊢
    obtain ⟨y, hy, h⟩ := bind_eq_ok h
    obtain ⟨ys, hys, h⟩ := bind_eq_ok h
    rw [hx y hy, ih hl hys]
    exact h

theorem foldlM_ok {f : σ → α → Except ε σ} {l : List α} (h : ∀ s, ∀ x ∈ l, ∃ s', f s x = .ok s') (s : σ) :
    ∃ s', l.foldlM f s = .ok s' := by
  induction l generalizing s with
  | nil => exact ⟨s, rfl⟩
  | cons x l ih =>
    obtain ⟨s₁, hs₁⟩ := h s x List.mem_cons_self
    obtain ⟨s', hs'⟩ := ih (fun s x hx => h s x (List.mem_cons_of_mem _ hx)) s₁
    exact ⟨s', by rw [List.foldlM_cons, hs₁]; exact hs'⟩

theorem forM_eq_ok_iff {f : α → Except ε Unit} {l : List α} : l.forM f = .ok () ↔ ∀ x ∈ l, f x = .ok () := by
  induction l with
  | nil => exact iff_of_true rfl (List.forall_mem_nil _)
  | cons x l ih =>
    rw [List.forall_mem_cons, ← ih]
    show f x >>= (fun _ => l.forM f) = .ok () ↔ _
    cases f x with
    | error e => exact iff_of_false nofun (fun h => nomatch h.1)
    | ok u => exact (and_iff_right rfl).symm

/-! ## Ways to fail -/

/-- Steps that fail in the ways `P` only, if they fail. -/
def FailsOnly (P : ε → Prop) (x : Except ε α) : Prop := ∀ e, x = .error e → P e

namespace FailsOnly

variable {P : ε → Prop} {x : Except ε α}

theorem of_ok (h : ∃ a, x = .ok a) : FailsOnly P x := by
  intro e he
  obtain ⟨a, rfl⟩ := h
  cases he

theorem of_error {e : ε} (h : P e) : FailsOnly P (.error e : Except ε α) := by
  intro e' he
  cases he
  exact h

/-- Steps that cannot fail succeed. -/
theorem exists_ok (h : FailsOnly (fun _ => False) x) : ∃ a, x = .ok a := by
  cases x with
  | error e => exact (h e rfl).elim
  | ok a => exact ⟨a, rfl⟩

theorem bind {f : α → Except ε β} (hx : FailsOnly P x) (hf : ∀ a, x = .ok a → FailsOnly P (f a)) : FailsOnly P (x >>= f) := by
  cases x with
  | error e => exact fun e' he => by cases he; exact hx e rfl
  | ok a => exact hf a rfl

/-- A fold fails as its steps do, where `I` holds of each state and of the items that are left. -/
theorem foldlM {f : σ → α → Except ε σ} {l : List α} {s : σ} (I : σ → List α → Prop) (hs : I s l)
    (hstep : ∀ s x rest, I s (x :: rest) → FailsOnly P (f s x) ∧ ∀ s', f s x = .ok s' → I s' rest) :
    FailsOnly P (l.foldlM f s) := by
  induction l generalizing s with
  | nil => exact of_ok ⟨s, rfl⟩
  | cons x l ih =>
    obtain ⟨hx, hl⟩ := hstep s x l hs
    rw [List.foldlM_cons]
    exact hx.bind fun s' hs' => ih (hl s' hs')

theorem forM {f : α → Except ε Unit} {l : List α} (h : ∀ x ∈ l, FailsOnly P (f x)) : FailsOnly P (l.forM f) := by
  induction l with
  | nil => exact of_ok ⟨(), rfl⟩
  | cons x l ih =>
    obtain ⟨hx, hl⟩ := List.forall_mem_cons.mp h
    exact hx.bind fun _ _ => ih hl

end FailsOnly

end PlaceRoute
