/-
  Operands are read without failure
  =================================
  A symbol that passes for an operand has a node (`Symbol.toOperand_ok`): digits of
  any script make a number, and the subscript of a variable is a whole number that
  is not negative. The classes of operands overlook one line feed at the end, which
  no token of an expression has.
-/
import SymbolicAlgebra.Infix.Symbol

namespace SymbolicAlgebra

open SymbolicAlgebra.Text

/-! ### Decimal digits -/

theorem digitValue?_eq_none {c : Char}
    (outside : ∀ start ∈ decimalZeros, c.toNat < start ∨ start + 10 ≤ c.toNat) :
    digitValue? c = none := by
  rw [digitValue?, Option.map_eq_none_iff, List.find?_eq_none]
  intro start listed
  rcases outside start listed with below | above
  · simp
    omega
  · simp
    omega

/-- A decimal digit is no blank: no run of digits meets a range of blanks. -/
theorem not_isBlank_of_isDecimal {c : Char} (decimal : isDecimal c = true) : isBlank c = false := by
  have apart : ∀ range ∈ blanks, ∀ start ∈ decimalZeros,
      range.2 < start ∨ start + 10 ≤ range.1 := by decide
  rw [← Bool.not_eq_true]
  intro blank
  obtain ⟨range, listed, low, high⟩ := (Ranges.contains_iff _ _).1 blank
  have none : digitValue? c = none := by
    refine digitValue?_eq_none fun start hs => ?_
    rcases apart range listed start hs with h | h
    · omega
    · omega
  simp [isDecimal, none] at decimal

theorem isDecimal_ne {c d : Char} (decimal : isDecimal c = true) (other : isDecimal d = false) :
    c ≠ d := by
  rintro rfl
  simp [decimal] at other

theorem trimWhere_eq_self {test : Char → Bool} {cs : List Char}
    (kept : ∀ c ∈ cs, test c = false) : trimWhere test cs = cs := by
  have front : ∀ ds : List Char, (∀ c ∈ ds, test c = false) → ds.dropWhile test = ds := by
    intro ds each
    cases ds with
    | nil => rfl
    | cons d ds => rw [List.dropWhile_cons, each d (by simp)]; rfl
  rw [trimWhere, front cs kept, front cs.reverse (by simpa using kept), List.reverse_reverse]

namespace Decimal

theorem withoutUnderscores_decimals (after : Bool) {cs : List Char}
    (decimals : ∀ c ∈ cs, isDecimal c = true) : withoutUnderscores after cs = some cs := by
  induction cs generalizing after with
  | nil => rfl
  | cons c cs ih =>
    have notUnderscore : c ≠ '_' := isDecimal_ne (decimals c (by simp)) (by decide)
    unfold withoutUnderscores
    split
    · simp_all
    · simp_all
    · simp_all
    · rename_i d rest _ _ same
      obtain ⟨rfl, rfl⟩ := List.cons.inj same
      rw [ih _ fun d hd => decimals d (by simp [hd])]
      rfl

/-- Decimal digits of any script write a whole number. -/
theorem integer?_decimals {cs : List Char} (some_digit : cs ≠ [])
    (decimals : ∀ c ∈ cs, isDecimal c = true) :
    integer? (String.ofList cs) = some (Int.ofNat (ofDigits cs)) := by
  have margins : ∀ c ∈ cs, isMargin c = false := fun c hc => by
    simp [isMargin, not_isBlank_of_isDecimal (decimals c hc)]
  have unsigned : splitSign cs = (false, cs) := by
    unfold splitSign
    split
    · exact absurd rfl (isDecimal_ne (decimals '-' (by simp)) (by decide))
    · exact absurd rfl (isDecimal_ne (decimals '+' (by simp)) (by decide))
    · rfl
  rw [integer?, String.toList_ofList, trimWhere_eq_self margins, unsigned]
  simp only [withoutUnderscores_decimals false decimals, Option.bind_eq_bind, Option.bind_some]
  rw [if_pos ⟨some_digit, List.all_eq_true.2 decimals⟩]
  rfl

end Decimal

/-! ### Variables -/

theorem withoutLineEnd_eq_self {cs : List Char} (single : '\n' ∉ cs) : withoutLineEnd cs = cs := by
  rw [withoutLineEnd, if_neg]
  intro last
  exact single (List.mem_of_getLast? last)

namespace Variable

theorem ofParts?_letter {c : Char} (letter : isLetter c = true) (n : Nat) :
    ofParts? (String.singleton c) n = .ok ⟨c, n⟩ := by
  have nonnegative : ¬ (n : Int) < 0 := by omega
  simp [ofParts?, letter, nonnegative]

theorem splitName_letter {c : Char} (letter : isLetter c = true) : splitName [c] = ([c], []) := by
  have differ : c ≠ '_' := by
    rintro rfl
    exact absurd letter (by decide)
  simp [splitName, differ]

theorem splitName_subscript {c : Char} (letter : isLetter c = true) (digits : List Char) :
    splitName (c :: '_' :: digits) = ([c], digits) := by
  have differ : c ≠ '_' := by
    rintro rfl
    exact absurd letter (by decide)
  simp [splitName, differ]

/-- A name is read as its letter and the number of its subscript. -/
theorem ofName?_subscript {c : Char} {digits : List Char} (letter : isLetter c = true)
    (some_digit : digits ≠ []) (decimals : ∀ d ∈ digits, isDecimal d = true) :
    ofName? (String.ofList (c :: '_' :: digits)) = .ok ⟨c, Decimal.ofDigits digits⟩ := by
  rw [ofName?, String.toList_ofList, splitName_subscript letter]
  simp only [List.isEmpty_iff, if_neg some_digit, Decimal.integer?_decimals some_digit decimals]
  exact ofParts?_letter letter _

theorem ofName?_letter {c : Char} (letter : isLetter c = true) :
    ofName? (String.singleton c) = .ok ⟨c, 0⟩ := by
  rw [ofName?, String.toList_singleton, splitName_letter letter]
  exact ofParts?_letter letter 0

theorem ofName?_ok {text : String} (formed : isVariableName text = true)
    (single : '\n' ∉ text.toList) : ∃ v, ofName? text = .ok v := by
  rw [isVariableName, withoutLineEnd_eq_self single] at formed
  split at formed
  · rename_i c spelled
    obtain rfl : text = String.singleton c := by
      rw [← String.toList_inj, spelled, String.toList_singleton]
    exact ⟨_, ofName?_letter (isLetter_of_isAlpha formed)⟩
  · rename_i c digits spelled
    simp only [Bool.and_eq_true, Bool.not_eq_true', List.isEmpty_eq_false_iff,
      List.all_eq_true] at formed
    obtain ⟨⟨letter, some_digit⟩, decimals⟩ := formed
    obtain rfl : text = String.ofList (c :: '_' :: digits) := by
      rw [← String.toList_inj, spelled, String.toList_ofList]
    exact ⟨_, ofName?_subscript (isLetter_of_isAlpha letter) some_digit decimals⟩
  · simp at formed

end Variable

/-- An operand without a line feed has a node. -/
theorem Symbol.toOperand_ok {α : Type} [Scalar α] {s : Symbol} (known : s.isOperand = true)
    (single : '\n' ∉ s.text.toList) : ∃ n : Node α, s.toOperand = .ok n := by
  unfold toOperand
  split
  · exact ⟨_, rfl⟩
  · exact ⟨_, rfl⟩
  · rename_i notNumber notConstant
    have formed : s.isVariable = true := by
      simpa [isOperand, isNumber, isConstant, notNumber, notConstant] using known
    have name : isVariableName s.text = true := by
      simp only [isVariable, Bool.and_eq_true] at formed
      exact formed.1
    obtain ⟨v, read⟩ := Variable.ofName?_ok name single
    rw [if_pos formed, read]
    exact ⟨_, rfl⟩

end SymbolicAlgebra
