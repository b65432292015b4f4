/-
  Pieces of a text
  ================
  What the pieces are that a text is cut into. Cutting loses nothing
  (`Token.flatten_cut`), no piece is a marker, and a function name comes out of the
  cut only in front of an opening bracket (`Token.wellCut_cut`).
-/
import SymbolicAlgebra.Infix.Token
import SymbolicAlgebra.Proofs.Checked
import SymbolicAlgebra.Proofs.Grammar.SymbolClass

namespace SymbolicAlgebra.Token

open SymbolicAlgebra.Text

variable {table : BracketTable}

/-- A piece as a symbol. -/
def Piece.symbol (p : Piece) : Symbol := ⟨String.ofList p⟩

@[simp] theorem Piece.toList_symbol (p : Piece) : p.symbol.text.toList = p := by
  simp [Piece.symbol]

/-! ### Nothing is lost -/

theorem takePiece?_append {cs rest : List Char} {piece : Piece}
    (taken : takePiece? cs = some (piece, rest)) : piece ++ rest = cs := by
  unfold takePiece? at taken
  split at taken
  · cases taken
    rfl
  · cases taken
    rfl
  · split at taken
    · split at taken
      · dsimp only at taken
        split at taken
        · cases taken
          rfl
        · cases taken
          simp
      · cases taken
        rfl
    · split at taken
      · cases taken
        simp
      · cases taken
  · cases taken

theorem flatten_pieces? {cs : List Char} {pieces : List Piece} (h : pieces? cs = some pieces) :
    pieces.flatten = cs := by
  fun_induction pieces? cs generalizing pieces with
  | case1 cs empty =>
    obtain rfl := Option.some.inj h
    rw [List.isEmpty_iff] at empty
    simp [empty]
  | case2 cs _ missed => cases h
  | case3 cs _ piece rest taken ih =>
    obtain ⟨others, found, rfl⟩ := Option.map_eq_some_iff.1 h
    rw [List.flatten_cons, ih found, takePiece?_append taken]

theorem functionSuffix?_isSuffix {run name : List Char} (h : functionSuffix? run = some name) :
    name <:+ run ∧ ∃ f ∈ Function.registered, f.name.toList = name := by
  have chosen : ∀ (step : Option Piece → Piece → Option Piece),
      (∀ best n m, step best n = some m → best = some m ∨ n = m) →
      ∀ (names : List Piece) (best : Option Piece),
        (∀ n, best = some n ∨ n ∈ names →
          n <:+ run ∧ ∃ f ∈ Function.registered, f.name.toList = n) →
        names.foldl step best = some name →
        name <:+ run ∧ ∃ f ∈ Function.registered, f.name.toList = name := by
    intro step picks names
    induction names with
    | nil => exact fun best each found => each name (.inl found)
    | cons n names ih =>
      intro best each found
      rw [List.foldl_cons] at found
      refine ih _ (fun m => ?_) found
      rintro (picked | later)
      · rcases picks best n m picked with kept | rfl
        · exact each m (.inl kept)
        · exact each n (.inr List.mem_cons_self)
      · exact each m (.inr (List.mem_cons_of_mem n later))
  refine chosen _ (fun best n m picked => ?_) _ none (fun n => ?_) h
  · split at picked
    · split at picked
      · exact .inr (Option.some.inj picked)
      · exact .inl picked
    · exact .inr (Option.some.inj picked)
  rintro (impossible | listed)
  · cases impossible
  · obtain ⟨named, suffix⟩ := List.mem_filter.1 listed
    obtain ⟨f, registered, rfl⟩ := List.mem_map.1 named
    exact ⟨by simpa using suffix, f, registered, rfl⟩

theorem flatten_cutIdentifier {run : List Char} {beforeBracket : Bool} {pieces : List Piece}
    (h : cutIdentifier run beforeBracket = .ok pieces) : pieces.flatten = run := by
  unfold cutIdentifier at h
  dsimp only at h
  split at h
  · obtain rfl := Except.ok.inj h
    simp
  · generalize named : (if beforeBracket then (functionSuffix? run).getD [] else []) = name at h
    have suffix : name <:+ run := by
      subst named
      split
      · cases found : functionSuffix? run with
        | none => exact List.nil_suffix
        | some n => exact (functionSuffix?_isSuffix found).1
      · exact List.nil_suffix
    have split : run.take (run.length - name.length) ++ name = run := by
      obtain ⟨front, rfl⟩ := suffix
      simp
    split at h
    · cases h
    · rename_i front cutFront
      have front := flatten_pieces? cutFront
      obtain rfl := Except.ok.inj h
      split
      · rename_i empty
        rw [List.isEmpty_iff] at empty
        rw [front, ← split, empty]
        simp
      · rw [List.flatten_append, front]
        simpa using split

/-- Cutting a text loses nothing. -/
theorem flatten_cut {text : String} {position : Nat} {cs : List Char} {pieces : List Piece}
    (h : cut table text position cs = .ok pieces) : pieces.flatten = cs := by
  fun_induction cut table text position cs generalizing pieces with
  | case1 position =>
    obtain rfl := Except.ok.inj h
    rfl
  | case2 position c rest numeral run =>
    rename_i ih
    obtain ⟨others, later, kept⟩ := bind_eq_ok.1 h
    obtain rfl := Except.ok.inj kept
    rw [List.flatten_cons, ih later]
    simp [run]
  | case3 position c rest numeral letter run after beforeBracket =>
    rename_i ih
    obtain ⟨pieces, front, h⟩ := bind_eq_ok.1 h
    obtain ⟨others, later, kept⟩ := bind_eq_ok.1 h
    obtain rfl := Except.ok.inj kept
    rw [List.flatten_append, flatten_cutIdentifier front, ih later]
    simp [run, after]
  | case4 position c rest numeral letter sign ih =>
    obtain ⟨others, later, kept⟩ := bind_eq_ok.1 h
    obtain rfl := Except.ok.inj kept
    simp [ih later]
  | case5 position c rest numeral letter sign => cases h

/-! ### Names of functions -/

/-- Whether a letter and a character that starts no subscript come first. -/
def looksNamed : Piece → Bool
  | c :: d :: _ => c.isAlpha && !isNumeralChar c && d != '_'
  | _ => false

/-- What the name of a function looks like: two letters or more, and not those of a constant. -/
theorem name_of_function? {p : Piece} {f : Function} (named : p.symbol.function? = some f) :
    ∃ c d rest, p = c :: d :: rest ∧ c.isAlpha = true ∧ isNumeralChar c = false ∧ d ≠ '_' ∧
      p ≠ ['p', 'i'] := by
  have shapes : ∀ g ∈ Function.registered,
      looksNamed g.name.toList = true ∧ g.name.toList ≠ ['p', 'i'] := by decide
  have found : Function.registered.find? (fun g => g.name == p.symbol.text) = some f := named
  have shape := shapes f (List.mem_of_find?_eq_some found)
  rw [Function.name_of_ofName? named, Piece.toList_symbol] at shape
  obtain ⟨shape, notConstant⟩ := shape
  unfold looksNamed at shape
  split at shape
  · rename_i c d rest
    simp only [Bool.and_eq_true, Bool.not_eq_true', bne_iff_ne] at shape
    exact ⟨c, d, rest, rfl, shape.1.1, shape.1.2, shape.2, notConstant⟩
  · simp at shape

theorem function?_eq_none {p : Piece}
    (other : ∀ c d rest, p = c :: d :: rest → c.isAlpha = true → isNumeralChar c = false →
      d ≠ '_' → p = ['p', 'i']) : p.symbol.function? = none := by
  cases named : p.symbol.function? with
  | none => rfl
  | some f =>
    obtain ⟨c, d, rest, shape, alpha, notNumeral, plain, notConstant⟩ := name_of_function? named
    exact absurd (other c d rest shape alpha notNumeral plain) notConstant

theorem function?_takePiece {cs rest : List Char} {piece : Piece}
    (taken : takePiece? cs = some (piece, rest)) : piece.symbol.function? = none := by
  refine function?_eq_none fun c d tail shape alpha notNumeral plain => ?_
  unfold takePiece? at taken
  split at taken
  · cases taken
    rfl
  · cases taken
    cases shape
  · split at taken
    · split at taken
      · dsimp only at taken
        split at taken
        · cases taken
          cases shape
        · cases taken
          cases shape
          exact absurd rfl plain
      · cases taken
        cases shape
    · split at taken
      · rename_i decimal
        obtain ⟨same, -⟩ := Prod.mk.inj (Option.some.inj taken)
        obtain rfl := (List.cons.inj (same.trans shape)).1
        simp [isNumeralChar, isDigit_of_isDecimal decimal] at notNumeral
      · cases taken
  · cases taken

theorem function?_pieces {cs : List Char} {pieces : List Piece} (h : pieces? cs = some pieces) :
    ∀ p ∈ pieces, p.symbol.function? = none := by
  fun_induction pieces? cs generalizing pieces with
  | case1 cs empty =>
    obtain rfl := Option.some.inj h
    simp
  | case2 cs _ missed => cases h
  | case3 cs _ piece rest taken ih =>
    obtain ⟨others, found, rfl⟩ := Option.map_eq_some_iff.1 h
    intro p hp
    rcases List.mem_cons.1 hp with rfl | hp
    · exact function?_takePiece taken
    · exact ih found p hp

/-- Among the pieces of a run at most the last one is a function name, and only in front of a
bracket. -/
theorem function?_cutIdentifier {run : List Char} {beforeBracket : Bool} {pieces : List Piece}
    (h : cutIdentifier run beforeBracket = .ok pieces) :
    (∀ p ∈ pieces, p.symbol.function? = none) ∨
      beforeBracket = true ∧ ∃ front name f, pieces = front ++ [name] ∧
        (∀ p ∈ front, p.symbol.function? = none) ∧ name.symbol.function? = some f := by
  unfold cutIdentifier at h
  dsimp only at h
  split at h
  · rename_i whole
    obtain rfl := Except.ok.inj h
    cases named : Symbol.function? (Piece.symbol run) with
    | none =>
      left
      intro p hp
      obtain rfl := List.mem_singleton.1 hp
      exact named
    | some f =>
      right
      have callable : (Function.ofName? (String.ofList run)).isSome = true := by
        exact Option.isSome_iff_exists.2 ⟨f, named⟩
      have notOperand := Symbol.isOperand_of_function? named
      simp only [Symbol.isOperand, Symbol.isConstant, Symbol.isVariable, Bool.or_eq_false_iff,
        Piece.symbol] at notOperand
      obtain ⟨⟨-, notConstant⟩, notVariable⟩ := notOperand
      simp only [notConstant, Bool.not_false, Bool.and_true] at notVariable
      simp only [callable, notConstant, notVariable, Bool.and_true, Bool.or_false] at whole
      exact ⟨whole, [], run, f, rfl, by simp, named⟩
  · split at h
    · cases h
    · rename_i front cutFront
      have plain := function?_pieces cutFront
      obtain rfl := Except.ok.inj h
      by_cases bracket : beforeBracket = true
      · cases found : functionSuffix? run with
        | none =>
          left
          simpa [bracket] using plain
        | some name =>
          obtain ⟨f, registered, spelled⟩ := (functionSuffix?_isSuffix found).2
          have named : name.symbol.function? = some f := by
            rw [← spelled, Symbol.function?, Piece.symbol, String.ofList_toList]
            exact Function.ofName?_name registered
          obtain ⟨c, d, rest, rfl, -⟩ := name_of_function? named
          right
          refine ⟨bracket, _, c :: d :: rest, f, ?_, plain, named⟩
          simp [bracket]
      · left
        simpa [bracket] using plain

/-! ### The order of the pieces -/

/-- A piece that is not a marker. -/
def Unmarked (p : Piece) : Prop :=
  p ≠ [Symbol.multiplicationMark] ∧ p ≠ [Symbol.negationMark]

theorem unmarked_of_mem {p : Piece}
    (free : ∀ c ∈ p, c ≠ Symbol.multiplicationMark ∧ c ≠ Symbol.negationMark) : Unmarked p := by
  constructor
  · rintro rfl
    exact (free _ (by simp)).1 rfl
  · rintro rfl
    exact (free _ (by simp)).2 rfl

/-- Pieces without markers in which every function name stands in front of an opening bracket. -/
inductive WellCut (table : BracketTable) : List Piece → Prop
  | nil : WellCut table []
  | plain {p : Piece} {rest : List Piece} (unmarked : Unmarked p)
      (unnamed : p.symbol.function? = none) (next : WellCut table rest) : WellCut table (p :: rest)
  | call {name : Piece} {f : Function} {c : Char} {rest : List Piece}
      (named : name.symbol.function? = some f) (opens : c ∈ table.openers)
      (next : WellCut table ([c] :: rest)) : WellCut table (name :: [c] :: rest)

theorem WellCut.append {front rest : List Piece} (unmarked : ∀ p ∈ front, Unmarked p)
    (unnamed : ∀ p ∈ front, p.symbol.function? = none) (next : WellCut table rest) :
    WellCut table (front ++ rest) := by
  induction front with
  | nil => exact next
  | cons p front ih =>
    exact .plain (unmarked p (by simp)) (unnamed p (by simp))
      (ih (fun q hq => unmarked q (by simp [hq])) fun q hq => unnamed q (by simp [hq]))

/-- A character of the table stands alone. -/
theorem cut_bracket (valid : table.Valid) {c : Char} (bracket : c ∈ table) (text : String)
    (position : Nat) (rest : List Char) :
    cut table text position (c :: rest) =
      (do return [c] :: (← cut table text (position + 1) rest)) := by
  have free := valid.free c bracket
  simp only [ParserSettings.isReserved, isAlphanumeric, Bool.or_eq_false_iff] at free
  obtain ⟨⟨reserved, ⟨letter, digit⟩, -⟩, -⟩ := free
  have notPoint : c ≠ '.' := by
    rintro rfl
    exact absurd reserved (by decide)
  have notUnderscore : c ≠ '_' := by
    rintro rfl
    exact absurd reserved (by decide)
  rw [cut]
  simp [isNumeralChar, letter, digit, notPoint, notUnderscore, bracket]

theorem wellCut_cut (valid : table.Valid) {text : String} {position : Nat} {cs : List Char}
    {pieces : List Piece} (h : cut table text position cs = .ok pieces) :
    WellCut table pieces := by
  have reserved : ∀ d, (Symbol.operatorSigns.contains d || table.contains d || d == Symbol.separator)
      = true → d ≠ Symbol.multiplicationMark ∧ d ≠ Symbol.negationMark := by
    intro d stands
    simp only [Bool.or_eq_true, List.contains_iff_mem, beq_iff_eq] at stands
    rcases stands with (sign | bracket) | rfl
    · simp only [Symbol.operatorSigns, List.mem_cons, List.not_mem_nil, or_false] at sign
      rcases sign with rfl | rfl | rfl | rfl | rfl | rfl | rfl <;> decide
    · have free := valid.free d bracket
      constructor
      · rintro rfl
        exact absurd free (by decide)
      · rintro rfl
        exact absurd free (by decide)
    · decide
  fun_induction cut table text position cs generalizing pieces with
  | case1 position =>
    obtain rfl := Except.ok.inj h
    exact .nil
  | case2 position c rest numeral run =>
    rename_i ih
    obtain ⟨others, later, kept⟩ := bind_eq_ok.1 h
    obtain rfl := Except.ok.inj kept
    refine .plain ⟨?_, ?_⟩ ?_ (ih later)
    · intro same
      obtain rfl := (List.cons.inj same).1
      exact absurd numeral (by decide)
    · intro same
      obtain rfl := (List.cons.inj same).1
      exact absurd numeral (by decide)
    · refine function?_eq_none fun a d tail shape alpha notNumeral plain => ?_
      obtain rfl := (List.cons.inj shape).1
      simp [numeral] at notNumeral
  | case3 position c rest numeral letter run after beforeBracket =>
    rename_i ih
    obtain ⟨pieces, front, h⟩ := bind_eq_ok.1 h
    obtain ⟨others, later, kept⟩ := bind_eq_ok.1 h
    obtain rfl := Except.ok.inj kept
    have unmarked : ∀ p ∈ pieces, Unmarked p := by
      intro p hp
      refine unmarked_of_mem fun d hd => ?_
      have inside : d ∈ c :: run := by
        rw [← flatten_cutIdentifier front]
        exact List.mem_flatten.2 ⟨p, hp, hd⟩
      have identifier : isLetter d = true ∨ d = '_' ∨ isIdentifierChar d = true := by
        rcases List.mem_cons.1 inside with rfl | inside
        · simp only [Bool.or_eq_true, beq_iff_eq] at letter
          exact letter.imp_right .inl
        · exact .inr (.inr (List.all_eq_true.1 List.all_takeWhile d inside))
      constructor
      · rintro rfl
        exact absurd identifier (by decide)
      · rintro rfl
        exact absurd identifier (by decide)
    rcases function?_cutIdentifier front with plain | ⟨bracket, begin, name, f, rfl, plain, named⟩
    · exact .append unmarked plain (ih later)
    · cases behind : after with
      | nil => simp [beforeBracket, behind] at bracket
      | cons d tail =>
        have opens : d ∈ table.openers := by simpa [beforeBracket, behind] using bracket
        have tailCut := ih later
        rw [behind, cut_bracket valid (BracketTable.mem_of_mem_openers opens)] at later
        obtain ⟨more, inner, kept⟩ := bind_eq_ok.1 later
        obtain rfl := Except.ok.inj kept
        rw [List.append_assoc]
        exact .append (fun p hp => unmarked p (by simp [hp])) plain
          (.call named opens tailCut)
  | case4 position c rest numeral letter sign ih =>
    obtain ⟨others, later, kept⟩ := bind_eq_ok.1 h
    obtain rfl := Except.ok.inj kept
    have unmarked : Unmarked [c] := by
      refine unmarked_of_mem fun d hd => ?_
      obtain rfl := List.mem_singleton.1 hd
      exact reserved d sign
    exact .plain unmarked (function?_eq_none fun a d tail shape => by cases shape) (ih later)
  | case5 position c rest numeral letter sign => cases h

end SymbolicAlgebra.Token
