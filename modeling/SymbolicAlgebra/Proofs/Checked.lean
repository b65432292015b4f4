/-
  Results that are there
  ======================
  When a sequence of steps that can fail has a result, so has every step; when it
  fails, one step does.
-/
import Mathlib.Data.List.Forall2

namespace SymbolicAlgebra

variable {ε β γ : Type}

theorem bind_eq_ok {x : Except ε β} {f : β → Except ε γ} {c : γ} :
    (x >>= f) = .ok c ↔ ∃ b, x = .ok b ∧ f b = .ok c := by
  cases x with
  | error cause =>
    constructor
    · intro h
      cases h
    · rintro ⟨b, missing, -⟩
      cases missing
  | ok b =>
    constructor
    · intro h
      exact ⟨b, rfl, h⟩
    · rintro ⟨d, same, h⟩
      cases same
      exact h

theorem bind_eq_error {x : Except ε β} {f : β → Except ε γ} {cause : ε} :
    (x >>= f) = .error cause ↔ x = .error cause ∨ ∃ b, x = .ok b ∧ f b = .error cause := by
  cases x with
  | error other =>
    constructor
    · intro h
      cases h
      exact .inl rfl
    · rintro (h | ⟨b, missing, -⟩)
      · cases h
        rfl
      · cases missing
  | ok b =>
    constructor
    · intro h
      exact .inr ⟨b, rfl, h⟩
    · rintro (missing | ⟨d, same, h⟩)
      · cases missing
      · cases same
        exact h

/-- A list of steps has results exactly when every step has its result. -/
theorem mapM_eq_ok {f : β → Except ε γ} {bs : List β} {cs : List γ} :
    bs.mapM f = .ok cs ↔ List.Forall₂ (fun b c => f b = .ok c) bs cs := by
  induction bs generalizing cs with
  | nil =>
    rw [List.mapM_nil, List.forall₂_nil_left_iff]
    constructor
    · intro h
      cases h
      rfl
    · rintro rfl
      rfl
  | cons b bs ih =>
    rw [List.mapM_cons, bind_eq_ok, List.forall₂_cons_left_iff]
    constructor
    · rintro ⟨c, first, h⟩
      obtain ⟨rest, later, h⟩ := bind_eq_ok.1 h
      cases h
      exact ⟨c, rest, first, ih.1 later, rfl⟩
    · rintro ⟨c, rest, first, later, rfl⟩
      exact ⟨c, first, bind_eq_ok.2 ⟨rest, ih.2 later, rfl⟩⟩

/-- A list of steps has results when every step has one. -/
theorem mapM_exists {f : β → Except ε γ} {related : β → γ → Prop} {bs : List β}
    (each : ∀ b ∈ bs, ∃ c, f b = .ok c ∧ related b c) :
    ∃ cs, bs.mapM f = .ok cs ∧ List.Forall₂ related bs cs := by
  induction bs with
  | nil => exact ⟨[], rfl, .nil⟩
  | cons b bs ih =>
    obtain ⟨c, first, fits⟩ := each b List.mem_cons_self
    obtain ⟨cs, later, rest⟩ := ih fun d hd => each d (List.mem_cons_of_mem b hd)
    refine ⟨c :: cs, ?_, .cons fits rest⟩
    rw [List.mapM_cons, first, later]
    rfl

/-- Steps that agree on the members of a list lead to one result. -/
theorem foldlM_congr {f g : γ → β → Except ε γ} {bs : List β}
    (each : ∀ b ∈ bs, ∀ c, f c b = g c b) (c : γ) : bs.foldlM f c = bs.foldlM g c := by
  induction bs generalizing c with
  | nil => rfl
  | cons b bs ih =>
    have rest := ih fun d hd => each d (List.mem_cons_of_mem b hd)
    rw [List.foldlM_cons, List.foldlM_cons, each b List.mem_cons_self]
    exact congrArg (g c b >>= ·) (funext rest)

/-- Steps that succeed and keep an invariant lead to a result that has it. -/
theorem foldlM_exists {f : γ → β → Except ε γ} {invariant : γ → Prop} {bs : List β}
    (each : ∀ b ∈ bs, ∀ c, invariant c → ∃ d, f c b = .ok d ∧ invariant d) {c : γ}
    (start : invariant c) : ∃ d, bs.foldlM f c = .ok d ∧ invariant d := by
  induction bs generalizing c with
  | nil => exact ⟨c, rfl, start⟩
  | cons b bs ih =>
    obtain ⟨d, first, kept⟩ := each b List.mem_cons_self c start
    rw [List.foldlM_cons, first]
    exact ih (fun a ha => each a (List.mem_cons_of_mem b ha)) kept

/-! ### What a result is like if it is there -/

/-- The result has the property, or there is none. -/
def Yields (Q : β → Prop) (x : Except ε β) : Prop := ∀ b, x = .ok b → Q b

namespace Yields

variable {Q : β → Prop} {R : γ → Prop}

theorem ok {b : β} (h : Q b) : Yields Q (.ok b : Except ε β) := by
  rintro _ ⟨⟩
  exact h

theorem error (cause : ε) : Yields Q (.error cause) := by
  rintro _ ⟨⟩

theorem mono {R : β → Prop} {x : Except ε β} (h : Yields Q x) (next : ∀ b, Q b → R b) :
    Yields R x :=
  fun b result => next b (h b result)

theorem bind {x : Except ε β} {f : β → Except ε γ} (first : Yields Q x)
    (next : ∀ b, Q b → Yields R (f b)) : Yields R (x >>= f) := by
  intro c result
  obtain ⟨b, found, rest⟩ := bind_eq_ok.1 result
  exact next b (first b found) c rest

theorem mapM {f : β → Except ε γ} {bs : List β} (each : ∀ b ∈ bs, Yields R (f b)) :
    Yields (∀ c ∈ ·, R c) (bs.mapM f) := by
  intro cs result
  have related := mapM_eq_ok.1 result
  clear result
  induction related with
  | nil => exact List.forall_mem_nil _
  | cons first _ ih =>
    obtain ⟨head, tail⟩ := List.forall_mem_cons.1 each
    exact List.forall_mem_cons.2 ⟨head _ first, ih tail⟩

theorem foldlM {f : γ → β → Except ε γ} {bs : List β}
    (each : ∀ b ∈ bs, ∀ c, R c → Yields R (f c b)) {c : γ} (start : R c) :
    Yields R (bs.foldlM f c) := by
  induction bs generalizing c with
  | nil => exact ok start
  | cons b bs ih =>
    obtain ⟨head, tail⟩ := List.forall_mem_cons.1 each
    rw [List.foldlM_cons]
    exact (head c start).bind fun d kept => ih tail kept

end Yields

end SymbolicAlgebra
