/-
  Pairs of minus signs
  ====================
  A compact text can be cut as it stands or with every pair of minus signs made into
  one plus sign. No numeral and no name holds either sign, and no bracket is one of
  them, so the pieces differ at the pairs only: **`Token.collapsed_cut`**.
-/
import SymbolicAlgebra.Proofs.Grammar.Alternation

namespace SymbolicAlgebra.Token

open SymbolicAlgebra.Text

/-- The pieces of a text whose pairs of minus signs are plus signs, and those of the text. -/
inductive Collapsed : List Piece → List Piece → Prop
  | nil : Collapsed [] []
  | keep (p : Piece) {ps qs : List Piece} (rest : Collapsed ps qs) : Collapsed (p :: ps) (p :: qs)
  | pair {ps qs : List Piece} (rest : Collapsed ps qs) :
      Collapsed (['+'] :: ps) (['-'] :: ['-'] :: qs)

theorem Collapsed.append (front : List Piece) {ps qs : List Piece} (rest : Collapsed ps qs) :
    Collapsed (front ++ ps) (front ++ qs) := by
  induction front with
  | nil => exact rest
  | cons p front ih => exact .keep p ih

/-! ### Characters -/

/-- A text with pairs made into plus signs starts like the text, or the text starts with a pair. -/
theorem collapseMinus_eq_cons {cs ds : List Char} {d : Char} (h : collapseMinus cs = d :: ds) :
    (∃ rest, cs = d :: rest ∧ ds = collapseMinus rest) ∨
      d = '+' ∧ ∃ rest, cs = '-' :: '-' :: rest ∧ ds = collapseMinus rest := by
  unfold collapseMinus at h
  split at h
  · rename_i rest
    obtain ⟨rfl, rfl⟩ := List.cons.inj h
    exact .inr ⟨rfl, rest, rfl, rfl⟩
  · rename_i rest _
    obtain ⟨rfl, rfl⟩ := List.cons.inj h
    exact .inl ⟨rest, rfl, rfl⟩
  · cases h

theorem collapseMinus_eq_nil {cs : List Char} (h : collapseMinus cs = []) : cs = [] := by
  unfold collapseMinus at h
  split at h
  · cases h
  · cases h
  · rfl

/-- A run of characters that are no signs ends where it ends in the text. -/
theorem takeWhile_collapseMinus (test : Char → Bool) (plus : test '+' = false)
    (minus : test '-' = false) (cs : List Char) :
    (collapseMinus cs).takeWhile test = cs.takeWhile test ∧
      (collapseMinus cs).dropWhile test = collapseMinus (cs.dropWhile test) := by
  fun_induction collapseMinus cs with
  | case1 rest ih =>
    rw [List.takeWhile_cons, List.takeWhile_cons, List.dropWhile_cons, List.dropWhile_cons, plus,
      minus]
    exact ⟨rfl, rfl⟩
  | case2 c rest single ih =>
    obtain ⟨taken, dropped⟩ := ih
    rw [List.takeWhile_cons, List.takeWhile_cons, List.dropWhile_cons, List.dropWhile_cons, taken,
      dropped]
    split
    · exact ⟨rfl, rfl⟩
    · refine ⟨rfl, ?_⟩
      rw [collapseMinus]
      exact single
  | case3 => exact ⟨rfl, rfl⟩

/-! ### Cutting -/

variable {table : BracketTable}

/-- No bracket is a reserved character. -/
theorem not_mem_openers (valid : table.Valid) {c : Char}
    (reserved : ParserSettings.isReserved c = true) : c ∉ table.openers := by
  intro opens
  rw [valid.free c (BracketTable.mem_of_mem_openers opens)] at reserved
  cases reserved

/-- A bracket that opens comes first in the text whether or not pairs are made into plus signs. -/
theorem opens_collapseMinus (valid : table.Valid) (c : Char) (cs : List Char) :
    (collapseMinus (c :: cs)).head?.map table.openers.contains =
      some (table.openers.contains c) := by
  have plus := not_mem_openers valid (c := '+') (by decide)
  have minus := not_mem_openers valid (c := '-') (by decide)
  rw [collapseMinus.eq_def]
  split
  · rename_i shape
    obtain ⟨rfl, -⟩ := List.cons.inj shape
    simp [plus, minus]
  · rename_i shape
    obtain ⟨rfl, -⟩ := List.cons.inj shape
    rfl
  · rename_i shape
    cases shape

theorem cut_minus (text : String) (position : Nat) (rest : List Char) :
    cut table text position ('-' :: rest) =
      (do return ['-'] :: (← cut table text (position + 1) rest)) := by
  have numeral : isNumeralChar '-' = false := by decide
  have letter : (isLetter '-' || '-' == '_') = false := by decide
  have sign : Symbol.operatorSigns.contains '-' = true := by decide
  rw [cut, numeral, letter, sign]
  rfl

/-- The pieces of a text and those of the text with plus signs for its pairs of minus signs. -/
theorem collapsed_cut (valid : table.Valid) {cs : List Char} {text text' : String}
    {position position' : Nat} {ps qs : List Piece}
    (h : cut table text position (collapseMinus cs) = .ok ps)
    (h' : cut table text' position' cs = .ok qs) : Collapsed ps qs := by
  generalize shape : collapseMinus cs = ds at h
  fun_induction cut table text position ds generalizing cs position' ps qs with
  | case1 position =>
    obtain rfl := collapseMinus_eq_nil shape
    rw [cut] at h'
    obtain rfl := Except.ok.inj h
    obtain rfl := Except.ok.inj h'
    exact .nil
  | case2 position d ds numeral run =>
    rename_i ih
    obtain ⟨others, later, kept⟩ := bind_eq_ok.1 h
    obtain rfl := Except.ok.inj kept
    rcases collapseMinus_eq_cons shape with ⟨rest, rfl, rfl⟩ | ⟨rfl, -⟩
    · obtain ⟨taken, dropped⟩ :=
        takeWhile_collapseMinus isNumeralChar (by decide) (by decide) rest
      rw [cut, if_pos numeral] at h'
      obtain ⟨others', later', kept'⟩ := bind_eq_ok.1 h'
      obtain rfl := Except.ok.inj kept'
      rw [show run = rest.takeWhile isNumeralChar from taken]
      exact .keep _ (ih later' dropped.symm later)
    · exact absurd numeral (by decide)
  | case3 position d ds numeral letter run =>
    rename_i after beforeBracket ih
    obtain ⟨front, cutFront, h⟩ := bind_eq_ok.1 h
    obtain ⟨others, later, kept⟩ := bind_eq_ok.1 h
    obtain rfl := Except.ok.inj kept
    rcases collapseMinus_eq_cons shape with ⟨rest, rfl, rfl⟩ | ⟨rfl, -⟩
    · obtain ⟨taken, dropped⟩ :=
        takeWhile_collapseMinus isIdentifierChar (by decide) (by decide) rest
      rw [cut, if_neg numeral, if_pos letter] at h'
      obtain ⟨front', cutFront', h'⟩ := bind_eq_ok.1 h'
      obtain ⟨others', later', kept'⟩ := bind_eq_ok.1 h'
      obtain rfl := Except.ok.inj kept'
      -- a bracket stands behind the run in both texts or in neither
      have agree : ∀ before, before = beforeBracket →
          cutIdentifier (d :: rest.takeWhile isIdentifierChar) before = .ok front' →
            front = front' := by
        rintro _ rfl cutAgain
        rw [← taken, cutFront] at cutAgain
        exact Except.ok.inj cutAgain
      have behind : after = collapseMinus (rest.dropWhile isIdentifierChar) := dropped
      obtain rfl : front = front' := by
        refine agree _ ?_ cutFront'
        cases tail : rest.dropWhile isIdentifierChar with
        | nil => simp [beforeBracket, behind, tail, collapseMinus]
        | cons e others =>
          have opens := opens_collapseMinus valid e others
          rw [← tail, ← behind] at opens
          cases shown : after with
          | nil => simp [shown] at opens
          | cons first others => simpa [beforeBracket, shown] using opens.symm
      exact .append _ (ih later' behind.symm later)
    · exact absurd letter (by decide)
  | case4 position d ds numeral letter sign ih =>
    obtain ⟨others, later, kept⟩ := bind_eq_ok.1 h
    obtain rfl := Except.ok.inj kept
    rcases collapseMinus_eq_cons shape with ⟨rest, rfl, rfl⟩ | ⟨rfl, rest, rfl, rfl⟩
    · rw [cut, if_neg numeral, if_neg letter, if_pos sign] at h'
      obtain ⟨others', later', kept'⟩ := bind_eq_ok.1 h'
      obtain rfl := Except.ok.inj kept'
      exact .keep _ (ih later' rfl later)
    · rw [cut_minus] at h'
      obtain ⟨second, next, kept'⟩ := bind_eq_ok.1 h'
      obtain rfl := Except.ok.inj kept'
      rw [cut_minus] at next
      obtain ⟨others', later', kept''⟩ := bind_eq_ok.1 next
      obtain rfl := Except.ok.inj kept''
      exact .pair (ih later' rfl later)
  | case5 position d ds numeral letter sign => cases h

end SymbolicAlgebra.Token
