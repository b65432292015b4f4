/-
  Marks for pairs of minus signs
  ==============================
  Where an operand has ended, a pair of minus signs is marked as a difference from an
  opposite, and the plus sign it could be read as is marked as itself. In front of an
  operand a pair is marked as two negations, and the plus sign is left out.

  **`Token.unfolds_marked`**: the marked pieces of a text with plus signs for its
  pairs, and those of the text itself, differ in nothing else.
-/
import SymbolicAlgebra.Proofs.Signs.Pairs

namespace SymbolicAlgebra

/-! ### Symbols and plus signs that are unfolded -/

/-- Behind the symbol a sum starts. -/
def Symbol.Opens (table : BracketTable) (s : Symbol) : Prop :=
  s.kind table = .opening ∨ s.kind table = .comma

/-- The second symbols are the first with minus signs and negations for some plus signs, and with
negations in pairs where a sum starts. -/
inductive Unfolds (table : BracketTable) : List Symbol → List Symbol → Prop
  | nil : Unfolds table [] []
  | keep {s : Symbol} {xs ys : List Symbol} (n : Nat) (fresh : n ≠ 0 → s.Opens table)
      (rest : Unfolds table xs ys) :
      Unfolds table (s :: xs) (s :: (List.replicate (2 * n) .negation ++ ys))
  | sign {xs ys : List Symbol} (rest : Unfolds table xs ys) :
      Unfolds table (Sign.plus.symbol :: xs) (Sign.minus.symbol :: .negation :: ys)

namespace Unfolds

variable {table : BracketTable} {s : Symbol} {xs ys out : List Symbol}

theorem same (s : Symbol) (rest : Unfolds table xs ys) : Unfolds table (s :: xs) (s :: ys) :=
  .keep 0 (fun impossible => absurd rfl impossible) rest

theorem append (front : List Symbol) (rest : Unfolds table xs ys) :
    Unfolds table (front ++ xs) (front ++ ys) := by
  induction front with
  | nil => exact rest
  | cons s front ih => exact .same s ih

theorem eq_nil_iff (h : Unfolds table xs out) : out = [] ↔ xs = [] := by
  cases h <;> simp

/-- What is no plus sign is followed by pairs of negations, and by none unless a sum starts. -/
theorem inversion (h : Unfolds table (s :: xs) out) (other : s ≠ Sign.plus.symbol) :
    ∃ n ys, out = s :: (List.replicate (2 * n) .negation ++ ys) ∧ (n ≠ 0 → s.Opens table) ∧
      Unfolds table xs ys := by
  cases h with
  | keep n fresh rest => exact ⟨n, _, rfl, fresh, rest⟩
  | sign rest => exact absurd rfl other

theorem kept (h : Unfolds table (s :: xs) out) (other : s ≠ Sign.plus.symbol)
    (closed : ¬ s.Opens table) : ∃ ys, out = s :: ys ∧ Unfolds table xs ys := by
  obtain ⟨n, ys, rfl, fresh, rest⟩ := h.inversion other
  obtain rfl : n = 0 := by
    by_contra some_pair
    exact closed (fresh some_pair)
  exact ⟨ys, rfl, rest⟩

/-- What is neither a sign nor starts a sum stays as it is. -/
theorem kept_of_kind {k : Kind} (h : Unfolds table (s :: xs) out) (kind : s.kind table = k)
    (plain : k ≠ .sign ∧ k ≠ .opening ∧ k ≠ .comma) :
    ∃ ys, out = s :: ys ∧ Unfolds table xs ys := by
  obtain ⟨signless, shut, whole⟩ := plain
  refine h.kept ?_ ?_
  · rintro rfl
    rw [Symbol.kind_sign] at kind
    exact signless kind.symm
  · rw [Symbol.Opens, kind]
    rintro (opens | separates)
    · exact shut opens
    · exact whole separates

/-- A plus sign stays or was a pair of minus signs. -/
theorem plus (h : Unfolds table (Sign.plus.symbol :: xs) out) :
    ∃ ys, Unfolds table xs ys ∧
      (out = Sign.plus.symbol :: ys ∨ out = Sign.minus.symbol :: .negation :: ys) := by
  cases h with
  | keep n fresh rest =>
    obtain rfl : n = 0 := by
      by_contra some_pair
      simpa [Symbol.Opens] using fresh some_pair
    exact ⟨_, rest, .inl rfl⟩
  | sign rest => exact ⟨_, rest, .inr rfl⟩

end Unfolds

namespace Token

variable {table : BracketTable}

/-! ### One piece -/

/-- What is written for a piece, and the piece that was written last then. -/
def written? (table : BracketTable) (previous : Option Piece) (piece : Piece) :
    Option (List Piece × Option Piece) :=
  if expectsOperand table previous then
    if piece = ['-'] then some ([[Symbol.negationMark]], some [Symbol.negationMark])
    else if piece = ['+'] ∧ dropsPlus table previous then some ([], previous)
    else if isBinarySign piece || piece == ['!'] then none
    else if isOneOf table.closers piece || isSeparator piece then none
    else some ([piece], some piece)
  else if (previous.map (endsOperand table)).getD false && startsOperand table piece then
    some ([[Symbol.multiplicationMark], piece], some piece)
  else some ([piece], some piece)

/-- Marking some pieces writes for the first of them, and then marks the others. -/
theorem marked_cons {previous : Option Piece} {piece : Piece} {rest out : List Piece}
    (h : marked table previous (piece :: rest) = .ok out) :
    ∃ front next later, written? table previous piece = some (front, next) ∧
      marked table next rest = .ok later ∧ out = front ++ later := by
  have wrote : ∀ (mark : List Piece) {next : Option Piece},
      written? table previous piece = some (mark, next) →
      (do return mark ++ (← marked table next rest)) = .ok out →
      ∃ front next later, written? table previous piece = some (front, next) ∧
        marked table next rest = .ok later ∧ out = front ++ later := by
    intro mark next shown made
    obtain ⟨later, taken, kept⟩ := bind_eq_ok.1 made
    exact ⟨mark, next, later, shown, taken, (Except.ok.inj kept).symm⟩
  rw [marked] at h
  split at h
  · rename_i expects
    split at h
    · rename_i minus
      refine wrote [[Symbol.negationMark]] ?_ h
      rw [written?, if_pos expects, if_pos minus]
    · rename_i notMinus
      split at h
      · rename_i drops
        refine ⟨[], previous, out, ?_, h, rfl⟩
        rw [written?, if_pos expects, if_neg notMinus, if_pos drops]
      · rename_i writes
        split at h
        · cases h
        · rename_i signless
          split at h
          · cases h
          · rename_i unclosed
            refine wrote [piece] ?_ h
            rw [written?, if_pos expects, if_neg notMinus, if_neg writes, if_neg signless,
              if_neg unclosed]
  · rename_i ends
    split at h
    · rename_i side
      refine wrote [[Symbol.multiplicationMark], piece] ?_ h
      rw [written?, if_neg ends, if_pos side]
    · rename_i apart
      refine wrote [piece] ?_ h
      rw [written?, if_neg ends, if_neg apart]

/-- Something is written for each piece, and last the piece or a negation mark; or nothing is
written for a plus sign where a sum starts. -/
theorem written?_cases {previous next : Option Piece} {piece : Piece} {front : List Piece}
    (h : written? table previous piece = some (front, next)) :
    (∃ init last, front = init ++ [last] ∧ next = some last) ∨ front = [] ∧ next = previous := by
  unfold written? at h
  split at h
  · split at h
    · obtain ⟨rfl, rfl⟩ := Prod.mk.inj (Option.some.inj h)
      exact .inl ⟨[], _, rfl, rfl⟩
    · split at h
      · obtain ⟨rfl, rfl⟩ := Prod.mk.inj (Option.some.inj h)
        exact .inr ⟨rfl, rfl⟩
      · split at h
        · cases h
        · split at h
          · cases h
          · obtain ⟨rfl, rfl⟩ := Prod.mk.inj (Option.some.inj h)
            exact .inl ⟨[], _, rfl, rfl⟩
  · split at h
    · obtain ⟨rfl, rfl⟩ := Prod.mk.inj (Option.some.inj h)
      exact .inl ⟨[[Symbol.multiplicationMark]], _, rfl, rfl⟩
    · obtain ⟨rfl, rfl⟩ := Prod.mk.inj (Option.some.inj h)
      exact .inl ⟨[], _, rfl, rfl⟩

/-! ### Signs -/

theorem opens_of_dropsPlus (valid : table.Valid) {p : Piece}
    (drops : dropsPlus table (some p) = true) : p.symbol.Opens table := by
  rw [dropsPlus, Bool.or_eq_true, isOneOf_openers valid] at drops
  rcases drops with ⟨b, same⟩ | separates
  · rw [same]
    exact .inl (Symbol.kind_opening valid b)
  · obtain rfl : p = [Symbol.separator] := eq_of_beq separates
    exact .inr Symbol.kind_comma

theorem dropsPlus_reserved (valid : table.Valid) {c : Char}
    (reserved : ParserSettings.isReserved c = true) (other : c ≠ Symbol.separator) :
    dropsPlus table (some [c]) = false := by
  have opens := not_mem_openers valid reserved
  simp [dropsPlus, isOneOf, isSeparator, opens, other]

theorem expectsOperand_mark : expectsOperand table (some [Symbol.negationMark]) = true := by
  simp [expectsOperand, isNegationMark]

theorem expectsOperand_sign {c : Char} (sign : c ∈ Symbol.binarySigns) :
    expectsOperand table (some [c]) = true := by
  simp [expectsOperand, isBinarySign, isOneOf, sign]

theorem written?_minus {previous : Option Piece} (due : expectsOperand table previous = true) :
    written? table previous ['-'] =
      some ([[Symbol.negationMark]], some [Symbol.negationMark]) := by
  rw [written?, if_pos due, if_pos rfl]

/-- Where an operand is due, a plus sign is left out or refused. -/
theorem written?_plus {previous next : Option Piece} {front : List Piece}
    (due : expectsOperand table previous = true)
    (h : written? table previous ['+'] = some (front, next)) :
    dropsPlus table previous = true ∧ front = [] ∧ next = previous := by
  have other : ¬ (['+'] : Piece) = ['-'] := by decide
  rw [written?, if_pos due, if_neg other] at h
  split at h
  · rename_i drops
    obtain ⟨rfl, rfl⟩ := Prod.mk.inj (Option.some.inj h)
    exact ⟨drops.2, rfl, rfl⟩
  · cases h

/-- Behind an operand a sign is written as it stands. -/
theorem written?_sign (valid : table.Valid) {previous : Option Piece} {c : Char}
    (ended : ¬ expectsOperand table previous = true)
    (reserved : ParserSettings.isReserved c = true)
    (wordless : (isNumeralChar c || Text.isLetter c) = false) :
    written? table previous [c] = some ([[c]], some [c]) := by
  have opens := not_mem_openers valid reserved
  have starts : startsOperand table [c] = false := by
    simp [startsOperand, isOneOf, opens, wordless]
  rw [written?, if_neg ended, starts, Bool.and_false, if_neg Bool.false_ne_true]

/-- What can stand behind a negation mark can stand wherever an operand is due. -/
theorem written?_mark (valid : table.Valid) {previous : Option Piece} {piece : Piece}
    (due : expectsOperand table previous = true) {wrote : List Piece × Option Piece}
    (h : written? table (some [Symbol.negationMark]) piece = some wrote) :
    written? table previous piece = some wrote := by
  have silent : dropsPlus table (some [Symbol.negationMark]) = false :=
    dropsPlus_reserved valid (by decide) (by decide)
  rw [written?, if_pos expectsOperand_mark, silent] at h
  rw [written?, if_pos due]
  split at h
  · rename_i minus
    rwa [if_pos minus]
  · rename_i notMinus
    rw [if_neg (by simp)] at h
    split at h
    · cases h
    · rename_i signless
      have notPlus : piece ≠ ['+'] := by
        rintro rfl
        exact signless (by decide)
      rw [if_neg notMinus, if_neg (by simp [notPlus]), if_neg signless]
      exact h

/-! ### All pieces -/

/-- Pieces behind what was written for one piece. -/
theorem unfolds_front (valid : table.Valid) {init later : List Piece} {last : Piece} {n : Nat}
    {ys : List Symbol} (rest : Unfolds table (later.map Piece.symbol) ys)
    (fresh : n ≠ 0 → dropsPlus table (some last) = true) :
    Unfolds table ((init ++ [last] ++ later).map Piece.symbol)
      ((init ++ [last]).map Piece.symbol ++ (List.replicate (2 * n) .negation ++ ys)) := by
  simp only [List.map_append, List.map_cons, List.map_nil, List.append_assoc]
  exact .append _ (.keep n (fun pairs => opens_of_dropsPlus valid (fresh pairs)) rest)

/-- The marked pieces of a text and those of the text with plus signs for its pairs of minus
signs. Behind such pairs a negation mark may have been written last where an operand is due. -/
theorem unfolds_marked (valid : table.Valid) {ps qs : List Piece} (pieces : Collapsed ps qs)
    {previous previous' : Option Piece} {out out' : List Piece}
    (behind : previous' = previous ∨
      expectsOperand table previous = true ∧ previous' = some [Symbol.negationMark])
    (made : marked table previous ps = .ok out) (made' : marked table previous' qs = .ok out') :
    ∃ n ys, out'.map Piece.symbol = List.replicate (2 * n) .negation ++ ys ∧
      Unfolds table (out.map Piece.symbol) ys ∧ (n ≠ 0 → dropsPlus table previous = true) := by
  induction pieces generalizing previous previous' out out' with
  | nil =>
    rw [eq_nil_of_marked made, eq_nil_of_marked made']
    exact ⟨0, [], rfl, .nil, fun impossible => absurd rfl impossible⟩
  | keep p rest ih =>
    obtain ⟨front, next, later, wrote, taken, rfl⟩ := marked_cons made
    obtain ⟨front', next', later', wrote', taken', rfl⟩ := marked_cons made'
    have alike : written? table previous p = written? table previous' p := by
      rcases behind with rfl | ⟨due, rfl⟩
      · rfl
      · rw [wrote', written?_mark valid due wrote']
    rw [wrote, wrote'] at alike
    obtain ⟨rfl, rfl⟩ := Prod.mk.inj (Option.some.inj alike)
    obtain ⟨n, ys, shape, unfolds, fresh⟩ := ih (.inl rfl) taken taken'
    rcases written?_cases wrote with ⟨init, last, rfl, rfl⟩ | ⟨rfl, rfl⟩
    · refine ⟨0, _, ?_, unfolds_front valid unfolds fresh, fun impossible => absurd rfl impossible⟩
      rw [List.map_append, shape]
      rfl
    · exact ⟨n, ys, shape, unfolds, fresh⟩
  | pair rest ih =>
    obtain ⟨front, next, later, wrote, taken, rfl⟩ := marked_cons made
    obtain ⟨front', next', others, wrote', second, rfl⟩ := marked_cons made'
    obtain ⟨front'', next'', later', wrote'', taken', rfl⟩ := marked_cons second
    by_cases due : expectsOperand table previous = true
    · obtain ⟨drops, rfl, rfl⟩ := written?_plus due wrote
      have due' : expectsOperand table previous' = true := by
        rcases behind with rfl | ⟨-, rfl⟩
        · exact due
        · exact expectsOperand_mark
      rw [written?_minus due'] at wrote'
      obtain ⟨rfl, rfl⟩ := Prod.mk.inj (Option.some.inj wrote')
      rw [written?_minus expectsOperand_mark] at wrote''
      obtain ⟨rfl, rfl⟩ := Prod.mk.inj (Option.some.inj wrote'')
      obtain ⟨n, ys, shape, unfolds, -⟩ := ih (.inr ⟨due, rfl⟩) taken taken'
      refine ⟨n + 1, ys, ?_, unfolds, fun _ => drops⟩
      rw [List.map_append, List.map_append, shape, Nat.mul_succ, List.replicate_succ,
        List.replicate_succ]
      rfl
    · obtain rfl : previous' = previous := by
        rcases behind with same | ⟨impossible, -⟩
        · exact same
        · exact absurd impossible due
      rw [written?_sign valid due (by decide) (by decide)] at wrote wrote'
      obtain ⟨rfl, rfl⟩ := Prod.mk.inj (Option.some.inj wrote)
      obtain ⟨rfl, rfl⟩ := Prod.mk.inj (Option.some.inj wrote')
      rw [written?_minus (expectsOperand_sign (by decide))] at wrote''
      obtain ⟨rfl, rfl⟩ := Prod.mk.inj (Option.some.inj wrote'')
      obtain ⟨n, ys, shape, unfolds, fresh⟩ :=
        ih (.inr ⟨expectsOperand_sign (by decide), rfl⟩) taken taken'
      obtain rfl : n = 0 := by
        by_contra pairs
        have silent := dropsPlus_reserved valid (c := '+') (by decide) (by decide)
        simp [silent] at fresh
        exact pairs fresh
      refine ⟨0, _, ?_, .sign unfolds, fun impossible => absurd rfl impossible⟩
      rw [List.map_append, List.map_append, shape]
      rfl

end Token

end SymbolicAlgebra
