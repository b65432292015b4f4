/-
  Numerals in a text
  ==================
  A maximal run of digits and points is a token of its own, unless it goes on the
  subscript of a variable. Behind an identifier there is one exception: the digits in
  front of the point still belong to the identifier, so a numeral that starts with a
  digit and has a point is cut there, and the two parts are multiplied.

  **`ParserSettings.symbols_numeral`** says so for every run of an accepted text, and
  that the tokens around it are those of the text around it.
-/
import Mathlib.Data.List.Chain
import SymbolicAlgebra.Proofs.Grammar.Frame
import SymbolicAlgebra.Proofs.Grammar.Lexeme
import SymbolicAlgebra.Proofs.Printing.Spelling

namespace SymbolicAlgebra

open SymbolicAlgebra.Text

namespace Token

variable {table : BracketTable} {before run after : List Char}

/-! ### Runs -/

/-- Behind these characters no numeral and no subscript goes on. -/
def Halts (before : List Char) : Prop :=
  ∀ c ∈ before.getLast?, isNumeralChar c = false ∧ c ≠ '_'

/-- A maximal run of digits and points that is no part of a subscript. -/
structure NumeralRun (before run after : List Char) : Prop where
  nonempty : run ≠ []
  inside : ∀ c ∈ run, isNumeralChar c = true
  halts : Halts before
  stops : StopsAt isNumeralChar after

/-- Whether a numeral is cut at its point: it starts with a digit behind an identifier. -/
def severs (before run : List Char) : Bool :=
  before.getLast?.any isIdentifierChar && run.head?.any isDigit && run.contains '.'

/-- A run that ends inside a list ends there whatever follows. -/
theorem span_append {test : Char → Bool} {c : Char} {xs rest : List Char}
    (stopped : xs.dropWhile test = c :: rest) (more : List Char) :
    (xs ++ more).takeWhile test = xs.takeWhile test ∧
      (xs ++ more).dropWhile test = xs.dropWhile test ++ more := by
  induction xs with
  | nil => cases stopped
  | cons x xs ih =>
    cases passes : test x with
    | false => simp [passes]
    | true =>
      rw [List.dropWhile_cons, if_pos passes] at stopped
      simp [passes, ih stopped]

theorem dropWhile_eq_nil {test : Char → Bool} {xs : List Char} (none : xs.dropWhile test = []) :
    ∀ c ∈ xs, test c = true := by
  have whole := List.takeWhile_append_dropWhile (p := test) (l := xs)
  rw [none, List.append_nil] at whole
  rw [← whole]
  exact List.all_eq_true.1 List.all_takeWhile

namespace Halts

theorem of_last {c : Char} (last : before.getLast? = some c)
    (other : isNumeralChar c = false ∧ c ≠ '_') : Halts before := by
  intro d last'
  obtain rfl := Option.some.inj (last.symm.trans last')
  exact other

theorem exists_last (halts : Halts before) (nonempty : before ≠ []) :
    ∃ init c, before = init ++ [c] ∧ isNumeralChar c = false ∧ c ≠ '_' := by
  have last := List.getLast?_eq_some_getLast nonempty
  obtain ⟨init, spelled⟩ := List.getLast?_eq_some_iff.1 last
  exact ⟨init, _, spelled, halts _ last⟩

theorem behind {front : List Char} (halts : Halts (front ++ before)) : Halts before := by
  intro c last
  refine halts c ?_
  rw [List.getLast?_append, last]
  rfl

/-- A run of digits and points that starts in the characters ends in them. -/
theorem dropWhile_ne_nil (halts : Halts before) (nonempty : before ≠ []) :
    before.dropWhile isNumeralChar ≠ [] := by
  intro none
  obtain ⟨init, c, rfl, other, -⟩ := halts.exists_last nonempty
  rw [dropWhile_eq_nil none c (by simp)] at other
  cases other

end Halts

/-! ### Numerals in an identifier -/

theorem isNumeralChar_of_isDigit {c : Char} (digit : isDigit c = true) :
    isNumeralChar c = true := by
  simp [isNumeralChar, digit]

/-- Inside a piece a digit follows a digit, a point or the sign of a subscript. -/
def Unbroken (p : Piece) : Prop :=
  p.IsChain fun a b => isDigit b = true → isNumeralChar a = true ∨ a = '_'

theorem unbroken_decimals {a : Char} {digits : List Char} (first : isNumeralChar a = true ∨ a = '_')
    (decimal : ∀ d ∈ digits, isDecimal d = true) : Unbroken (a :: digits) := by
  induction digits generalizing a with
  | nil => exact .singleton a
  | cons d digits ih =>
    obtain ⟨head, tail⟩ := List.forall_mem_cons.1 decimal
    have numeral := isNumeralChar_of_isDigit (isDigit_of_isDecimal head)
    exact .cons_cons (fun _ => first) (ih (.inl numeral) tail)

theorem unbroken_subscript {c : Char} {digits : List Char}
    (decimal : ∀ d ∈ digits, isDecimal d = true) : Unbroken (c :: '_' :: digits) :=
  .cons_cons (fun digit => absurd digit (by decide)) (unbroken_decimals (.inr rfl) decimal)

theorem unbroken_takePiece {cs rest : List Char} {piece : Piece}
    (taken : takePiece? cs = some (piece, rest)) : Unbroken piece := by
  have decimal : ∀ xs : List Char, ∀ d ∈ xs.takeWhile isDecimal, isDecimal d = true :=
    fun xs => List.all_eq_true.1 List.all_takeWhile
  unfold takePiece? at taken
  split at taken
  · cases taken
    exact .cons_cons (fun digit => absurd digit (by decide)) (.singleton _)
  · cases taken
    exact .singleton _
  · split at taken
    · split at taken
      · dsimp only at taken
        split at taken
        · cases taken
          exact .singleton _
        · cases taken
          exact unbroken_subscript (decimal _)
      · cases taken
        exact .singleton _
    · split at taken
      · rename_i first
        cases taken
        exact unbroken_decimals (.inl (isNumeralChar_of_isDigit (isDigit_of_isDecimal first)))
          (decimal _)
      · cases taken
  · cases taken

/-- No piece reaches into a numeral that starts behind it. -/
theorem Unbroken.not_across {d : Char} {rest : List Char} (unbroken : Unbroken (before ++ d :: rest))
    (halts : Halts before) (nonempty : before ≠ []) (digit : isDigit d = true) : False := by
  obtain ⟨init, c, rfl, other, notSubscript⟩ := halts.exists_last nonempty
  rw [Unbroken, List.append_assoc, List.singleton_append] at unbroken
  have pair := (List.isChain_split.1 unbroken).2
  rcases (List.isChain_cons_cons.1 pair).1 digit with numeral | same
  · rw [numeral] at other
    cases other
  · exact notSubscript same

/-- The first piece of an identifier ends in front of a numeral or where it starts. -/
theorem takePiece?_halts {digits more rest : List Char} {piece : Piece} (halts : Halts before)
    (nonempty : before ≠ []) (some_digit : digits ≠ []) (inside : ∀ d ∈ digits, isDigit d = true)
    (taken : takePiece? (before ++ (digits ++ more)) = some (piece, rest)) :
    ∃ front, before = piece ++ front ∧ rest = front ++ (digits ++ more) := by
  obtain ⟨d, ds, rfl⟩ := List.exists_cons_of_ne_nil some_digit
  have digit : isDigit d = true := inside d List.mem_cons_self
  rcases List.append_eq_append_iff.1 (takePiece?_append taken) with
    ⟨front, split, rfl⟩ | ⟨back, rfl, split⟩
  · exact ⟨front, split, rfl⟩
  · cases back with
    | nil => exact ⟨[], by simp, split.symm⟩
    | cons d' back =>
      obtain ⟨rfl, -⟩ := List.cons.inj split
      exact ((unbroken_takePiece taken).not_across halts nonempty digit).elim

theorem takePiece?_digit {d : Char} {rest : List Char} (digit : isDigit d = true) :
    takePiece? (d :: rest) =
      if isDecimal d then some (d :: rest.takeWhile isDecimal, rest.dropWhile isDecimal)
      else none := by
  have notAlpha : d.isAlpha = false := by
    rw [← Bool.not_eq_true]
    intro alpha
    have other := (Phrase.plain_of_isAlpha alpha).1
    rw [isNumeralChar_of_isDigit digit] at other
    cases other
  have notP : d ≠ 'p' := by
    rintro rfl
    exact absurd digit (by decide)
  have notPi : d ≠ 'π' := by
    rintro rfl
    exact absurd digit (by decide)
  rw [takePiece?.eq_def]
  split
  · rename_i same
    exact absurd (List.cons.inj same).1 notP
  · rename_i same
    exact absurd (List.cons.inj same).1 notPi
  · rename_i same
    obtain ⟨rfl, rfl⟩ := List.cons.inj same
    simp [notAlpha]
  · rename_i same
    cases same

theorem pieces?_cons {c : Char} {cs : List Char} {pieces : List Piece}
    (h : pieces? (c :: cs) = some pieces) :
    ∃ piece rest others, takePiece? (c :: cs) = some (piece, rest) ∧ pieces? rest = some others ∧
      pieces = piece :: others := by
  rw [pieces?] at h
  simp only [List.isEmpty_cons, Bool.false_eq_true, if_false] at h
  split at h
  · cases h
  · rename_i piece rest taken
    obtain ⟨others, found, rfl⟩ := Option.map_eq_some_iff.1 h
    exact ⟨piece, rest, others, taken, found, rfl⟩

/-- If a run that starts with a numeral can be cut, its first piece is the numeral. -/
theorem pieces?_digits {digits more : List Char} {pieces : List Piece} (some_digit : digits ≠ [])
    (inside : ∀ d ∈ digits, isDigit d = true) (stops : StopsAt isNumeralChar more)
    (h : pieces? (digits ++ more) = some pieces) :
    ∃ right, pieces = digits :: right ∧ right.flatten = more := by
  obtain ⟨d, ds, rfl⟩ := List.exists_cons_of_ne_nil some_digit
  rw [List.cons_append] at h
  obtain ⟨piece, rest, others, taken, found, rfl⟩ := pieces?_cons h
  obtain ⟨first, later⟩ := List.forall_mem_cons.1 inside
  rw [takePiece?_digit first] at taken
  split at taken
  case isFalse => cases taken
  cases taken
  have stops' : StopsAt isDecimal more := by
    intro c hc
    rw [← Bool.not_eq_true]
    intro decimal
    have other := stops c hc
    rw [isNumeralChar_of_isDigit (isDigit_of_isDecimal decimal)] at other
    cases other
  cases left : ds.dropWhile isDecimal with
  | nil =>
    have all := dropWhile_eq_nil left
    rw [StopsAt.dropWhile_append all stops'] at found
    rw [StopsAt.takeWhile_append all stops']
    exact ⟨others, rfl, flatten_pieces? found⟩
  | cons e es =>
    -- the rest starts with a digit that is no decimal, and no piece does
    have notDecimal : isDecimal e = false := by
      simpa [left] using List.head?_dropWhile_not isDecimal ds
    have digit : isDigit e = true := later e ((List.dropWhile_suffix isDecimal).subset (by simp [left]))
    rw [List.dropWhile_append, left] at found
    obtain ⟨piece, rest, _, taken, -⟩ := pieces?_cons (by simpa using found)
    rw [takePiece?_digit digit, notDecimal] at taken
    cases taken

/-- A numeral in an identifier is a piece of it. -/
theorem pieces?_numeral {before digits more : List Char} {pieces : List Piece}
    (halts : Halts before) (some_digit : digits ≠ []) (inside : ∀ d ∈ digits, isDigit d = true)
    (stops : StopsAt isNumeralChar more)
    (h : pieces? (before ++ (digits ++ more)) = some pieces) :
    ∃ left right, pieces = left ++ digits :: right ∧ left.flatten = before ∧
      right.flatten = more := by
  by_cases nonempty : before = []
  · subst nonempty
    obtain ⟨right, rfl, rest⟩ := pieces?_digits some_digit inside stops h
    exact ⟨[], right, rfl, rfl, rest⟩
  · obtain ⟨c, tail, rfl⟩ := List.exists_cons_of_ne_nil nonempty
    rw [List.cons_append] at h
    obtain ⟨piece, rest, others, taken, found, rfl⟩ := pieces?_cons h
    have shorter := takePiece?_shorter taken
    rw [← List.cons_append] at taken
    obtain ⟨front, split, rfl⟩ := takePiece?_halts halts nonempty some_digit inside taken
    rw [split] at halts
    have less : front.length < (c :: tail).length := by
      simp only [List.length_append, List.length_cons] at shorter ⊢
      omega
    obtain ⟨left, right, rfl, first, later⟩ :=
      pieces?_numeral halts.behind some_digit inside stops found
    exact ⟨piece :: left, right, rfl, by rw [split, List.flatten_cons, first], later⟩
termination_by before.length

/-! ### Numerals behind an identifier -/

theorem not_isDigit_of_registered {f : Function} (registered : f ∈ Function.registered) {c : Char}
    (inside : c ∈ f.name.toList) : isDigit c = false := by
  have names : ∀ g ∈ Function.registered, g.name.toList.all (!isDigit ·) = true := by
    decide
  simpa using List.all_eq_true.1 (names f registered) c inside

theorem unbroken_plain {p : Piece} (plain : ∀ c ∈ p, isDigit c = false) : Unbroken p := by
  induction p with
  | nil => exact .nil
  | cons a p ih =>
    obtain ⟨-, later⟩ := List.forall_mem_cons.1 plain
    cases p with
    | nil => exact .singleton a
    | cons b p =>
      refine .cons_cons (fun digit => ?_) (ih later)
      rw [later b List.mem_cons_self] at digit
      cases digit

theorem spelled_constant {run : List Char}
    (constant : (Constant.ofSymbol? (String.ofList run)).isSome = true) :
    run = ['p', 'i'] ∨ run = ['π'] ∨ run = ['e'] := by
  have text : ∀ {s : String}, String.ofList run = s → run = s.toList := by
    rintro _ rfl
    rw [String.toList_ofList]
  unfold Constant.ofSymbol? at constant
  split at constant
  · rename_i pi
    rcases pi with pi | pi
    · exact .inl (text pi)
    · exact .inr (.inl (text pi))
  · split at constant
    · rename_i e
      exact .inr (.inr (text e))
    · cases constant

/-- No name has a digit outside its subscript. -/
theorem unbroken_name {run : List Char} (single : '\n' ∉ run)
    (named : (Function.ofName? (String.ofList run)).isSome = true ∨
      (Constant.ofSymbol? (String.ofList run)).isSome = true ∨
        isVariableName (String.ofList run) = true) : Unbroken run := by
  rcases named with callable | constant | formed
  · obtain ⟨f, named⟩ := Option.isSome_iff_exists.1 callable
    have spelled := Function.name_of_ofName? named
    refine unbroken_plain fun c hc => ?_
    have registered : f ∈ Function.registered := List.mem_of_find?_eq_some named
    exact not_isDigit_of_registered registered (by rwa [spelled, String.toList_ofList])
  · have plain : run.all (!isDigit ·) = true := by
      rcases spelled_constant constant with rfl | rfl | rfl <;> decide
    exact unbroken_plain fun c hc => by simpa using List.all_eq_true.1 plain c hc
  · rw [isVariableName, String.toList_ofList, withoutLineEnd_eq_self single] at formed
    split at formed
    · exact .singleton _
    · simp only [Bool.and_eq_true, List.all_eq_true] at formed
      exact unbroken_subscript formed.2
    · cases formed

/-- A function name at the end of a run stands behind the numerals in the run. -/
theorem functionSuffix?_behind {digits more name : List Char} (some_digit : digits ≠ [])
    (inside : ∀ d ∈ digits, isDigit d = true)
    (found : functionSuffix? (before ++ (digits ++ more)) = some name) : name <:+ more := by
  obtain ⟨suffix, f, registered, rfl⟩ := functionSuffix?_isSuffix found
  have none : ∀ e ∈ f.name.toList, e ∉ digits := by
    intro e named listed
    simpa [inside e listed] using not_isDigit_of_registered registered named
  have last := List.getLast_mem some_digit
  rw [← List.dropLast_append_getLast some_digit, List.append_assoc, ← List.append_assoc] at suffix
  -- the last digit and what follows it end the run as well, so one is an end of the other
  rcases List.suffix_or_suffix_of_suffix suffix (List.suffix_append ..) with shorter | longer
  · rcases List.suffix_cons_iff.1 shorter with same | shorter
    · exact (none _ (same ▸ List.mem_cons_self) last).elim
    · exact shorter
  · exact (none _ (longer.subset List.mem_cons_self) last).elim

/-- A numeral in a run of identifier characters is a piece of it. -/
theorem cutIdentifier_numeral {digits more : List Char} {beforeBracket : Bool}
    {pieces : List Piece} (halts : Halts before) (nonempty : before ≠ []) (some_digit : digits ≠ [])
    (inside : ∀ d ∈ digits, isDigit d = true) (stops : StopsAt isNumeralChar more)
    (single : '\n' ∉ before ++ (digits ++ more))
    (h : cutIdentifier (before ++ (digits ++ more)) beforeBracket = .ok pieces) :
    ∃ left right, pieces = left ++ digits :: right ∧ left.flatten = before ∧
      right.flatten = more := by
  unfold cutIdentifier at h
  dsimp only at h
  split at h
  · rename_i whole
    obtain ⟨d, ds, rfl⟩ := List.exists_cons_of_ne_nil some_digit
    have unbroken := unbroken_name single (by
      simp only [Bool.or_eq_true, Bool.and_eq_true] at whole
      exact whole.elim (·.imp And.right .inl) fun formed => .inr (.inr formed))
    exact (unbroken.not_across halts nonempty (inside d List.mem_cons_self)).elim
  · generalize named : (if beforeBracket then
      (functionSuffix? (before ++ (digits ++ more))).getD [] else []) = name at h
    have suffix : name <:+ more := by
      subst named
      split
      · cases found : functionSuffix? (before ++ (digits ++ more)) with
        | none => exact List.nil_suffix
        | some n => exact functionSuffix?_behind some_digit inside found
      · exact List.nil_suffix
    obtain ⟨middle, rfl⟩ := suffix
    have front : (before ++ (digits ++ (middle ++ name))).take
        ((before ++ (digits ++ (middle ++ name))).length - name.length) =
          before ++ (digits ++ middle) := by
      simp [← List.append_assoc]
    rw [front] at h
    split at h
    · cases h
    · rename_i parts cutFront
      obtain rfl := Except.ok.inj h
      have stops' : StopsAt isNumeralChar middle := by
        intro c hc
        refine stops c ?_
        rw [List.head?_append, hc]
        rfl
      obtain ⟨left, right, rfl, first, later⟩ :=
        pieces?_numeral halts some_digit inside stops' cutFront
      by_cases empty : name = []
      · subst empty
        exact ⟨left, right, by simp, first, by simp [later]⟩
      · refine ⟨left, right ++ [name], ?_, first, by simp [later]⟩
        rw [if_neg (by simpa using empty)]
        simp

/-! ### Numerals in the text -/

/-- A text that starts with a numeral is cut behind it. -/
theorem cut_run {text : String} {position : Nat} {pieces : List Piece} (nonempty : run ≠ [])
    (inside : ∀ c ∈ run, isNumeralChar c = true) (stops : StopsAt isNumeralChar after)
    (h : cut table text position (run ++ after) = .ok pieces) :
    ∃ right, pieces = run :: right ∧ right.flatten = after := by
  obtain ⟨c, cs, rfl⟩ := List.exists_cons_of_ne_nil nonempty
  obtain ⟨first, later⟩ := List.forall_mem_cons.1 inside
  rw [List.cons_append, cut, if_pos first] at h
  obtain ⟨right, rest, kept⟩ := bind_eq_ok.1 h
  obtain rfl := Except.ok.inj kept
  rw [StopsAt.dropWhile_append later stops] at rest
  rw [StopsAt.takeWhile_append later stops]
  exact ⟨right, rfl, flatten_cut rest⟩

/-- The pieces of a numeral. -/
def numeralPieces (before run : List Char) : List Piece :=
  if severs before run then [run.takeWhile isDigit, run.dropWhile isDigit] else [run]

/-- Pieces of a text with those of a numeral among them. -/
def CutAround (before run after : List Char) (pieces : List Piece) : Prop :=
  ∃ left right, pieces = left ++ numeralPieces before run ++ right ∧ left.flatten = before ∧
    right.flatten = after

/-- Whether a numeral is severed depends on the last character before it. -/
theorem numeralPieces_append {front : List Char} (nonempty : before ≠ []) :
    numeralPieces (front ++ before) run = numeralPieces before run := by
  have last := List.getLast?_eq_some_getLast nonempty
  have last' : (front ++ before).getLast? = before.getLast? := by
    rw [List.getLast?_append, last]
    rfl
  simp [numeralPieces, severs, last']

theorem CutAround.behind {pieces : List Piece} (firsts : List Piece) (nonempty : before ≠ [])
    (around : CutAround before run after pieces) :
    CutAround (firsts.flatten ++ before) run after (firsts ++ pieces) := by
  obtain ⟨left, right, rfl, first, later⟩ := around
  refine ⟨firsts ++ left, right, ?_, by rw [List.flatten_append, first], later⟩
  rw [numeralPieces_append nonempty]
  simp

theorem NumeralRun.behind (front : List Char) (maximal : NumeralRun (front ++ before) run after) :
    NumeralRun before run after :=
  ⟨maximal.nonempty, maximal.inside, maximal.halts.behind, maximal.stops⟩

theorem Lexeme.ne_nil {p : Piece} (h : Lexeme table p) : p ≠ [] := by
  rcases h.single_or_word with ⟨c, rfl⟩ | ⟨nonempty, -⟩
  · exact List.cons_ne_nil c []
  · exact nonempty

theorem not_isIdentifierChar (valid : table.Valid) {c : Char}
    (sign : (Symbol.operatorSigns.contains c || table.contains c || c == Symbol.separator) = true) :
    isIdentifierChar c = false := by
  simp only [Bool.or_eq_true, List.contains_iff_mem, beq_iff_eq] at sign
  have others : (Symbol.separator :: Symbol.operatorSigns).all (!isIdentifierChar ·) = true := by
    decide
  have signs : ∀ c ∈ Symbol.separator :: Symbol.operatorSigns, isIdentifierChar c = false :=
    fun c hc => by simpa using List.all_eq_true.1 others c hc
  rcases sign with (sign | bracket) | rfl
  · exact signs c (List.mem_cons_of_mem _ sign)
  · rw [← Bool.not_eq_true]
    intro inside
    have free := valid.free c bracket
    rw [isReserved_of_isIdentifierChar inside] at free
    cases free
  · exact signs _ List.mem_cons_self

theorem isIdentifierChar_of_isDigit {c : Char} (digit : isDigit c = true) :
    isIdentifierChar c = true := by
  simp [isIdentifierChar, isAlphanumeric_of_isDigit digit]

section Identifier

variable {text : String} {position : Nat} {beforeBracket : Bool} {front others : List Piece}

theorem numeralPieces_digits (digits : ∀ c ∈ run, isDigit c = true) :
    numeralPieces before run = [run] := by
  have noPoint : '.' ∉ run := fun point => absurd (digits _ point) (by decide)
  simp [numeralPieces, severs, noPoint]

/-- A numeral that starts with a digit behind an identifier is severed at its first point. -/
theorem numeralPieces_point {digits rest : List Char} (nonempty : before ≠ [])
    (identifier : ∀ c ∈ before, isIdentifierChar c = true) (some_digit : digits ≠ [])
    (inside : ∀ d ∈ digits, isDigit d = true) :
    numeralPieces before (digits ++ '.' :: rest) = [digits, '.' :: rest] := by
  have stops : StopsAt isDigit ('.' :: rest) := .cons (by decide)
  have severed : severs before (digits ++ '.' :: rest) = true := by
    obtain ⟨d, ds, rfl⟩ := List.exists_cons_of_ne_nil some_digit
    have last := identifier _ (List.getLast_mem nonempty)
    simp [severs, List.getLast?_eq_some_getLast nonempty, last, inside]
  rw [numeralPieces, if_pos severed, StopsAt.takeWhile_append inside stops,
    StopsAt.dropWhile_append inside stops]

theorem stopsAt_takeWhile {stop test : Char → Bool} {cs : List Char} (stops : StopsAt stop cs) :
    StopsAt stop (cs.takeWhile test) := by
  intro c first
  cases cs with
  | nil => exact stops c first
  | cons d rest =>
    rw [List.takeWhile_cons] at first
    split at first
    · exact stops c first
    · cases first

theorem line_not_mem {xs : List Char} (identifier : ∀ c ∈ xs, isIdentifierChar c = true) :
    '\n' ∉ xs :=
  fun line => absurd (identifier _ line) (by decide)

/-- Where an identifier comes up to a numeral of digits, it takes the numeral. -/
theorem cutAround_digits (maximal : NumeralRun before run after) (nonempty : before ≠ [])
    (identifier : ∀ c ∈ before, isIdentifierChar c = true) (digits : ∀ c ∈ run, isDigit c = true)
    (cutFront : cutIdentifier (before ++ (run ++ after).takeWhile isIdentifierChar) beforeBracket =
      .ok front)
    (cutRest : cut table text position ((run ++ after).dropWhile isIdentifierChar) = .ok others) :
    CutAround before run after (front ++ others) := by
  have all : ∀ c ∈ run, isIdentifierChar c = true :=
    fun c hc => isIdentifierChar_of_isDigit (digits c hc)
  rw [List.takeWhile_append_of_pos all] at cutFront
  rw [List.dropWhile_append_of_pos all] at cutRest
  have single : '\n' ∉ before ++ (run ++ after.takeWhile isIdentifierChar) :=
    line_not_mem (List.forall_mem_append.2 ⟨identifier,
      List.forall_mem_append.2 ⟨all, List.all_eq_true.1 List.all_takeWhile⟩⟩)
  obtain ⟨left, right, rfl, first, later⟩ := cutIdentifier_numeral maximal.halts nonempty
    maximal.nonempty digits (stopsAt_takeWhile maximal.stops) single cutFront
  refine ⟨left, right ++ others, by simp [numeralPieces_digits digits], first, ?_⟩
  rw [List.flatten_append, later, flatten_cut cutRest, List.takeWhile_append_dropWhile]

/-- Where an identifier comes up to a numeral with a point, it takes the digits in front of it. -/
theorem cutAround_point {digits rest : List Char}
    (maximal : NumeralRun before (digits ++ '.' :: rest) after) (nonempty : before ≠ [])
    (identifier : ∀ c ∈ before, isIdentifierChar c = true) (inside : ∀ d ∈ digits, isDigit d = true)
    (cutFront : cutIdentifier (before ++ digits) beforeBracket = .ok front)
    (cutRest : cut table text position ('.' :: rest ++ after) = .ok others) :
    CutAround before (digits ++ '.' :: rest) after (front ++ others) := by
  have behind : ∀ c ∈ '.' :: rest, isNumeralChar c = true :=
    fun c hc => maximal.inside c (List.mem_append_right _ hc)
  obtain ⟨right, rfl, later⟩ := cut_run (List.cons_ne_nil _ _) behind maximal.stops cutRest
  by_cases some_digit : digits = []
  · subst some_digit
    have whole : numeralPieces before ('.' :: rest) = ['.' :: rest] := by
      simp [numeralPieces, severs, show isDigit '.' = false by decide]
    refine ⟨front, right, by simp [whole], ?_, later⟩
    simpa using flatten_cutIdentifier cutFront
  · have together : ∀ c ∈ before ++ digits, isIdentifierChar c = true :=
      List.forall_mem_append.2 ⟨identifier, fun c hc => isIdentifierChar_of_isDigit (inside c hc)⟩
    have lexemes : ∀ p ∈ front, Lexeme table p := lexeme_cutIdentifier together cutFront
    have single := line_not_mem together
    rw [← List.append_nil digits] at cutFront single
    obtain ⟨left, middle, rfl, first, empty⟩ :=
      cutIdentifier_numeral maximal.halts nonempty some_digit inside .nil single cutFront
    obtain rfl : middle = [] := by
      refine List.eq_nil_iff_forall_not_mem.2 fun p hp => ?_
      exact (lexemes p (by simp [hp])).ne_nil (List.flatten_eq_nil_iff.1 empty p hp)
    have parts : numeralPieces before (digits ++ '.' :: rest) = [digits, '.' :: rest] :=
      numeralPieces_point nonempty identifier some_digit inside
    exact ⟨left, right, by simp [parts], first, later⟩

/-- Where an identifier comes up to a numeral, it takes the digits in front of the point. -/
theorem cutAround_identifier (maximal : NumeralRun before run after) (nonempty : before ≠ [])
    (identifier : ∀ c ∈ before, isIdentifierChar c = true)
    (cutFront : cutIdentifier (before ++ (run ++ after).takeWhile isIdentifierChar) beforeBracket =
      .ok front)
    (cutRest : cut table text position ((run ++ after).dropWhile isIdentifierChar) = .ok others) :
    CutAround before run after (front ++ others) := by
  cases point : run.dropWhile isDigit with
  | nil =>
    exact cutAround_digits maximal nonempty identifier (dropWhile_eq_nil point) cutFront cutRest
  | cons d rest =>
    have other : isDigit d = false := by
      simpa [point] using List.head?_dropWhile_not isDigit run
    have split := List.takeWhile_append_dropWhile (p := isDigit) (l := run)
    have inside : ∀ c ∈ run.takeWhile isDigit, isDigit c = true :=
      List.all_eq_true.1 List.all_takeWhile
    rw [point] at split
    generalize run.takeWhile isDigit = digits at split inside
    subst split
    obtain rfl : d = '.' := by
      simpa [isNumeralChar, other] using maximal.inside d (by simp)
    have stops : StopsAt isIdentifierChar ('.' :: rest ++ after) := .cons (by decide)
    have all : ∀ c ∈ digits, isIdentifierChar c = true :=
      fun c hc => isIdentifierChar_of_isDigit (inside c hc)
    rw [List.append_assoc, StopsAt.takeWhile_append all stops] at cutFront
    rw [List.append_assoc, StopsAt.dropWhile_append all stops] at cutRest
    exact cutAround_point maximal nonempty identifier inside cutFront cutRest

end Identifier

/-- A maximal run of digits and points is a piece of the text, or two if it is severed. -/
theorem cut_numeral (valid : table.Valid) {before : List Char} {text : String} {position : Nat}
    {pieces : List Piece} (maximal : NumeralRun before run after)
    (h : cut table text position (before ++ (run ++ after)) = .ok pieces) :
    CutAround before run after pieces := by
  by_cases start : before = []
  · subst start
    obtain ⟨right, rfl, rest⟩ := cut_run maximal.nonempty maximal.inside maximal.stops h
    exact ⟨[], right, rfl, rfl, rest⟩
  obtain ⟨c, tail, rfl⟩ := List.exists_cons_of_ne_nil start
  have behind : NumeralRun tail run after := NumeralRun.behind [c] maximal
  -- what is cut first is a run inside the text before the numeral, or comes up to it
  have inside : ∀ {test : Char → Bool} {firsts others : List Piece} {position : Nat} {e : Char}
      {rest : List Char}, tail.dropWhile test = e :: rest →
      firsts.flatten = c :: (tail ++ (run ++ after)).takeWhile test →
      cut table text position ((tail ++ (run ++ after)).dropWhile test) = .ok others →
      CutAround (c :: tail) run after (firsts ++ others) := by
    intro test firsts others position e rest left first later
    obtain ⟨taken, dropped⟩ := span_append left (run ++ after)
    have split : c :: tail = firsts.flatten ++ tail.dropWhile test := by
      rw [first, taken, List.cons_append, List.takeWhile_append_dropWhile]
    have some_more : tail.dropWhile test ≠ [] := by
      rw [left]
      exact List.cons_ne_nil e rest
    have shorter : (tail.dropWhile test).length < (c :: tail).length :=
      Nat.lt_succ_of_le (length_dropWhile_le test tail)
    rw [split] at maximal ⊢
    rw [dropped] at later
    exact (cut_numeral valid (maximal.behind _) later).behind _ some_more
  rw [List.cons_append, cut] at h
  split at h
  · rename_i numeral
    have some_more : tail ≠ [] := by
      rintro rfl
      simp [(maximal.halts c rfl).1] at numeral
    obtain ⟨others, later, kept⟩ := bind_eq_ok.1 h
    obtain rfl := Except.ok.inj kept
    cases left : tail.dropWhile isNumeralChar with
    | nil => exact absurd left (behind.halts.dropWhile_ne_nil some_more)
    | cons e rest =>
      have first : [c :: (tail ++ (run ++ after)).takeWhile isNumeralChar].flatten =
          c :: (tail ++ (run ++ after)).takeWhile isNumeralChar := List.flatten_singleton
      exact inside left first later
  · rename_i notNumeral
    split at h
    · rename_i letter
      obtain ⟨front, cutFront, h⟩ := bind_eq_ok.1 h
      obtain ⟨others, later, kept⟩ := bind_eq_ok.1 h
      obtain rfl := Except.ok.inj kept
      cases left : tail.dropWhile isIdentifierChar with
      | nil =>
        have all := dropWhile_eq_nil left
        have first : isIdentifierChar c = true := by
          simp only [Bool.or_eq_true, beq_iff_eq] at letter
          rcases letter with letter | rfl
          · simp [isIdentifierChar, isAlphanumeric_of_isLetter letter]
          · rfl
        rw [List.takeWhile_append_of_pos all, ← List.cons_append] at cutFront
        rw [List.dropWhile_append_of_pos all] at later
        exact cutAround_identifier maximal start (List.forall_mem_cons.2 ⟨first, all⟩) cutFront
          later
      | cons e rest => exact inside left (flatten_cutIdentifier cutFront) later
    · rename_i notLetter
      split at h
      · rename_i sign
        obtain ⟨others, later, kept⟩ := bind_eq_ok.1 h
        obtain rfl := Except.ok.inj kept
        by_cases last : tail = []
        · subst last
          obtain ⟨right, rfl, rest⟩ :=
            cut_run maximal.nonempty maximal.inside maximal.stops later
          have whole : numeralPieces [c] run = [run] := by
            simp [numeralPieces, severs, not_isIdentifierChar valid sign]
          exact ⟨[[c]], right, by simp [whole], rfl, rest⟩
        · exact (cut_numeral valid behind later).behind [[c]] last
      · cases h
termination_by before.length

/-! ### Numerals among the tokens -/

theorem isRun_of_numeral {p : Piece} (nonempty : p ≠ [])
    (inside : ∀ c ∈ p, isNumeralChar c = true) : p.symbol.IsRun := by
  rw [Symbol.IsRun, Piece.toList_symbol]
  exact ⟨nonempty, inside⟩

/-- The two parts of a numeral that is severed. -/
theorem NumeralRun.parts (maximal : NumeralRun before run after)
    (severed : severs before run = true) :
    (Piece.symbol (run.takeWhile isDigit)).IsRun ∧ (Piece.symbol (run.dropWhile isDigit)).IsRun ∧
      (run.dropWhile isDigit).getLast? = run.getLast? := by
  obtain ⟨c, cs, rfl⟩ := List.exists_cons_of_ne_nil maximal.nonempty
  simp only [severs, Bool.and_eq_true, List.head?_cons, Option.any_some, List.contains_iff_mem]
    at severed
  have point : (c :: cs).dropWhile isDigit ≠ [] := by
    intro none
    exact absurd (dropWhile_eq_nil none _ severed.2) (by decide)
  refine ⟨isRun_of_numeral ?_ fun d hd => ?_, isRun_of_numeral point fun d hd => ?_, ?_⟩
  · simp [severed.1.2]
  · exact maximal.inside d ((List.takeWhile_prefix isDigit).subset hd)
  · exact maximal.inside d ((List.dropWhile_suffix isDigit).subset hd)
  · have last := List.getLast?_eq_some_getLast point
    conv_rhs => rw [← List.takeWhile_append_dropWhile (p := isDigit) (l := c :: cs)]
    rw [List.getLast?_append, last]
    rfl

/-- The marking keeps a numeral. -/
theorem marked_run {previous : Option Piece} {p : Piece} {rest out : List Piece}
    (run : p.symbol.IsRun) (h : marked table previous (p :: rest) = .ok out) :
    ∃ mark others, out = mark ++ p :: others ∧
      mark.flatMap (fun p => p.symbol.written) = [] ∧ marked table (some p) rest = .ok others := by
  have other : ∀ c, isNumeralChar c = false → p ≠ [c] := by
    rintro c other rfl
    exact Symbol.not_isRun (Piece.toList_symbol _) other run
  have minus : p ≠ ['-'] := other '-' (by decide)
  have plus : p ≠ ['+'] := other '+' (by decide)
  rw [marked] at h
  split at h
  · rw [if_neg fun silent => plus silent.1] at h
    split at h
    · cases h
    · split at h
      · cases h
      · obtain ⟨others, taken, done⟩ := bind_eq_ok.1 h
        exact ⟨[], others, (Except.ok.inj done).symm, rfl, taken⟩
  · split at h
    · obtain ⟨others, taken, done⟩ := bind_eq_ok.1 h
      exact ⟨[[Symbol.multiplicationMark]], others, (Except.ok.inj done).symm, rfl, taken⟩
    · obtain ⟨others, taken, done⟩ := bind_eq_ok.1 h
      exact ⟨[], others, (Except.ok.inj done).symm, rfl, taken⟩

/-- A numeral behind a numeral is multiplied with it. -/
theorem marked_runs (valid : table.Valid) {p q : Piece} {rest out : List Piece}
    (left : q.symbol.IsRun) (right : p.symbol.IsRun)
    (h : marked table (some q) (p :: rest) = .ok out) :
    ∃ others, out = [Symbol.multiplicationMark] :: p :: others ∧
      marked table (some p) rest = .ok others := by
  have ends := ((Lexeme.run left).endsOperand_iff valid).2 (.inl left)
  have starts := ((Lexeme.run right).startsOperand_iff valid).2 (.inl right)
  have ended : expectsOperand table (some q) = false := by
    rw [← Bool.not_eq_true]
    intro expects
    exact (Lexeme.run left).not_endsOperand valid expects (.inl left)
  rw [marked, ended] at h
  simp only [Bool.false_eq_true, if_false, Option.map_some, Option.getD_some, ends, starts,
    Bool.and_self, if_true] at h
  obtain ⟨others, taken, done⟩ := bind_eq_ok.1 h
  exact ⟨others, (Except.ok.inj done).symm, taken⟩

/-- The tokens of a numeral. -/
def numeralTokens (before run : List Char) : List Piece :=
  if severs before run then
    [run.takeWhile isDigit, [Symbol.multiplicationMark], run.dropWhile isDigit]
  else [run]

/-- The marking keeps the pieces of a numeral among those of the text around it. -/
theorem marked_around (valid : table.Valid) {left right out : List Piece}
    (maximal : NumeralRun left.flatten run right.flatten)
    (before : ∀ p ∈ left, Lexeme table p) (behind : ∀ p ∈ right, Lexeme table p)
    (h : marked table none (left ++ numeralPieces left.flatten run ++ right) = .ok out) :
    ∃ front others, out = front ++ numeralTokens left.flatten run ++ others ∧
      front.flatMap (fun p => p.symbol.written) = withoutPlus table none left.flatten ∧
      others.flatMap (fun p => p.symbol.written) =
        withoutPlus table run.getLast? right.flatten := by
  rw [List.append_assoc] at h
  have silent : isSilentBehind table none = dropsPlus table none := rfl
  obtain ⟨front, others, previous, last, rfl, taken, -, front_text⟩ :=
    marked_append valid before silent h
  have left_text := front_text []
  rw [List.append_nil, withoutPlus, List.append_nil] at left_text
  have right_text : ∀ {p : Piece} {others : List Piece}, p.symbol.IsRun →
      marked table (some p) right = .ok others →
      others.flatMap (fun p => p.symbol.written) = withoutPlus table p.getLast? right.flatten :=
    fun run taken => written_marked valid behind ((Lexeme.run run).isSilentBehind valid) taken
  cases severed : severs left.flatten run with
  | false =>
    have isRun := isRun_of_numeral maximal.nonempty maximal.inside
    rw [numeralPieces, severed] at taken
    obtain ⟨mark, others, rfl, silent, taken⟩ := marked_run isRun taken
    refine ⟨front ++ mark, others, by simp [numeralTokens, severed], ?_, right_text isRun taken⟩
    rw [List.flatMap_append, silent, List.append_nil, left_text]
  | true =>
    obtain ⟨digits, rest, last⟩ := maximal.parts severed
    rw [numeralPieces, severed] at taken
    obtain ⟨mark, _, rfl, silent, between⟩ := marked_run digits taken
    obtain ⟨others, rfl, behind⟩ := marked_runs valid digits rest between
    refine ⟨front ++ mark, others, by simp [numeralTokens, severed], ?_, ?_⟩
    · rw [List.flatMap_append, silent, List.append_nil, left_text]
    · rw [← last]
      exact right_text rest behind

end Token

/-- A run of digits and points that belongs to a class is a numeral. -/
theorem Symbol.isNumber_of_isRun {table : BracketTable} (valid : table.Valid) {s : Symbol}
    (run : s.IsRun) (known : s.isValid table = true) : s.isNumber = true := by
  have numeral := run.2
  have other : ∀ {c : Char}, Token.isNumeralChar c = false → c ∉ s.text.toList := by
    intro c other inside
    rw [numeral c inside] at other
    cases other
  cases class_of_isValid valid known with
  | operand operand =>
    simp only [isOperand, Bool.or_eq_true] at operand
    rcases operand with (number | constant) | name
    · exact number
    · rw [isConstant, ← String.ofList_toList (s := s.text)] at constant
      rcases Token.spelled_constant constant with spelled | spelled | spelled
      · exact (other (c := 'p') (by decide) (by simp [spelled])).elim
      · exact (other (c := 'π') (by decide) (by simp [spelled])).elim
      · exact (other (c := 'e') (by decide) (by simp [spelled])).elim
    · simp only [isVariable, Bool.and_eq_true, isVariableName,
        withoutLineEnd_eq_self (other (c := '\n') (by decide))] at name
      have letter := name.1
      split at letter
      · rename_i c spelled
        exact (other (Phrase.plain_of_isAlpha letter).1 (by simp [spelled])).elim
      · rename_i c digits spelled
        exact (other (c := '_') (by decide) (by simp [spelled])).elim
      · cases letter
  | @function _ f named =>
    have named' : (Token.Piece.symbol s.text.toList).function? = some f := by
      simpa [Token.Piece.symbol] using named
    obtain ⟨c, d, rest, spelled, -, notNumeral, -⟩ := Token.name_of_function? named'
    exact (other notNumeral (by simp [spelled])).elim
  | sign g =>
    rcases g with _ | _ | ⟨_ | _ | _ | _⟩ | _
    · exact (other (c := '+') (by decide) (by decide)).elim
    · exact (other (c := '-') (by decide) (by decide)).elim
    · exact (other (c := '*') (by decide) (by decide)).elim
    · exact (other (c := '#') (by decide) (by decide)).elim
    · exact (other (c := '%') (by decide) (by decide)).elim
    · exact (other (c := '/') (by decide) (by decide)).elim
    · exact (other (c := '^') (by decide) (by decide)).elim
  | negation => exact (other (c := '~') (by decide) (by decide)).elim
  | bang => exact (other (c := '!') (by decide) (by decide)).elim
  | comma => exact (other (c := ',') (by decide) (by decide)).elim
  | opening b => exact absurd run (unreserved_opening valid b).not_isRun
  | closing b => exact absurd run (unreserved_closing valid b).not_isRun

namespace ParserSettings

variable {settings : ParserSettings} {text : String} {symbols : List Symbol}
  {before run after : List Char}

/-- Every maximal run of digits and points in the compact text that is no part of a subscript is
one token, a numeral, with the tokens of the text before it and behind it around it. Behind an
identifier, a run that starts with a digit and has a point is severed: the digits in front of the
point and the rest are two numerals, and they are multiplied. -/
theorem symbols_numeral (checked : settings.check = .ok settings)
    (lexed : settings.symbols text = .ok symbols)
    (compacted : Token.collapseMinus (compact text.toList) = before ++ (run ++ after))
    (maximal : Token.NumeralRun before run after) :
    ∃ left right : List Symbol,
      left.flatMap Symbol.written = Token.withoutPlus settings.brackets none before ∧
      right.flatMap Symbol.written = Token.withoutPlus settings.brackets run.getLast? after ∧
      (Token.severs before run = false →
        ∃ numeral : Symbol, numeral.text.toList = run ∧ numeral.isNumber = true ∧
          symbols = left ++ numeral :: right) ∧
      (Token.severs before run = true →
        ∃ digits rest : Symbol, digits.text.toList = run.takeWhile isDigit ∧
          rest.text.toList = run.dropWhile isDigit ∧ digits.isNumber = true ∧
          rest.isNumber = true ∧ symbols = left ++ digits :: .juxtaposition :: rest :: right) := by
  have valid := BracketTable.valid_of_check checked
  obtain ⟨tokens, made, rfl, known⟩ := tokens_of_symbols lexed
  obtain ⟨out, ofText, kept⟩ := bind_eq_ok.1 made
  obtain rfl := Except.ok.inj kept
  obtain ⟨pieces, cutText, markText⟩ := bind_eq_ok.1 ofText
  have lexemes := Token.lexeme_cut valid cutText
  rw [compacted] at cutText
  obtain ⟨left, right, rfl, rfl, rfl⟩ := Token.cut_numeral valid maximal cutText
  obtain ⟨front, others, rfl, front_text, others_text⟩ := Token.marked_around valid maximal
    (fun p hp => lexemes p (by simp [hp])) (fun p hp => lexemes p (by simp [hp])) markText
  have symbols_map : ∀ pieces : List Token.Piece,
      (pieces.map String.ofList).map Symbol.mk = pieces.map Token.Piece.symbol := by
    intro pieces
    rw [List.map_map]
    rfl
  rw [symbols_map] at known ⊢
  have numeral : ∀ {p : Token.Piece}, p.symbol.IsRun → p ∈ Token.numeralTokens left.flatten run →
      p.symbol.isNumber = true := by
    intro p isRun token
    have listed : p ∈ front ++ Token.numeralTokens left.flatten run ++ others :=
      List.mem_append_left _ (List.mem_append_right _ token)
    exact Symbol.isNumber_of_isRun valid isRun (known _ (List.mem_map_of_mem listed))
  refine ⟨front.map Token.Piece.symbol, others.map Token.Piece.symbol, ?_, ?_, fun whole => ?_,
    fun severed => ?_⟩
  · rw [List.flatMap_map, front_text]
  · rw [List.flatMap_map, others_text]
  · have token : Token.numeralTokens left.flatten run = [run] := by
      simp [Token.numeralTokens, whole]
    rw [token] at numeral ⊢
    exact ⟨Token.Piece.symbol run, Token.Piece.toList_symbol run,
      numeral (Token.isRun_of_numeral maximal.nonempty maximal.inside) (by simp), by simp⟩
  · have tokens : Token.numeralTokens left.flatten run =
        [run.takeWhile isDigit, [Symbol.multiplicationMark], run.dropWhile isDigit] := by
      simp [Token.numeralTokens, severed]
    obtain ⟨digits, rest, -⟩ := maximal.parts severed
    rw [tokens] at numeral ⊢
    refine ⟨_, _, Token.Piece.toList_symbol _, Token.Piece.toList_symbol _,
      numeral digits (by simp), numeral rest (by simp), ?_⟩
    simp [Symbol.juxtaposition, Token.Piece.symbol, Symbol.multiplicationMark]

/-- A numeral behind a bracket and a plus sign that says nothing. -/
theorem symbols_numeral_bracket :
    let symbols : List Symbol := [⟨"x_1"⟩, ⟨"#"⟩, ⟨"("⟩, ⟨"2.5"⟩, ⟨")"⟩]
    ({} : ParserSettings).check = .ok {} ∧
      ({} : ParserSettings).symbols "x_1 (+2.5)" = .ok symbols ∧
      Token.collapseMinus (compact "x_1 (+2.5)".toList) =
        ['x', '_', '1', '(', '+'] ++ (['2', '.', '5'] ++ [')']) ∧
      Token.NumeralRun ['x', '_', '1', '(', '+'] ['2', '.', '5'] [')'] ∧
      ∃ (left right : List Symbol) (numeral : Symbol),
        left.flatMap Symbol.written = ['x', '_', '1', '('] ∧
        right.flatMap Symbol.written = [')'] ∧ numeral.text.toList = ['2', '.', '5'] ∧
        numeral.isNumber = true ∧ symbols = left ++ numeral :: right := by
  intro symbols
  have checked : ({} : ParserSettings).check = .ok {} := by decide
  have lexed : ({} : ParserSettings).symbols "x_1 (+2.5)" = .ok symbols := by decide +kernel
  have compacted : Token.collapseMinus (compact "x_1 (+2.5)".toList) =
      ['x', '_', '1', '(', '+'] ++ (['2', '.', '5'] ++ [')']) := by decide +kernel
  have maximal : Token.NumeralRun ['x', '_', '1', '(', '+'] ['2', '.', '5'] [')'] :=
    ⟨by decide, List.all_eq_true.1 (by decide), .of_last rfl (by decide), .cons (by decide)⟩
  obtain ⟨left, right, before, after, whole, -⟩ := symbols_numeral checked lexed compacted maximal
  obtain ⟨numeral, spelled, number, split⟩ := whole (by decide)
  exact ⟨checked, lexed, compacted, maximal, left, right, numeral, before, after, spelled, number, split⟩

/-- Behind a variable the numeral of `x1.5` is no token. -/
theorem not_symbols_numeral_behind :
    ({} : ParserSettings).check = .ok {} ∧
      Token.collapseMinus (compact "x1.5".toList) = ['x'] ++ (['1', '.', '5'] ++ []) ∧
      Token.NumeralRun ['x'] ['1', '.', '5'] [] ∧
      ∃ symbols, ({} : ParserSettings).symbols "x1.5" = .ok symbols ∧
        Postfix.ofInfix .round none symbols = .ok [⟨"x"⟩, ⟨"1"⟩, ⟨"#"⟩, ⟨".5"⟩, ⟨"#"⟩] ∧
        ∀ s ∈ symbols, s.text.toList ≠ ['1', '.', '5'] := by
  have maximal : Token.NumeralRun ['x'] ['1', '.', '5'] [] :=
    ⟨by decide, List.all_eq_true.1 (by decide), .of_last rfl (by decide), .nil⟩
  exact ⟨by decide, by decide +kernel, maximal, [⟨"x"⟩, ⟨"#"⟩, ⟨"1"⟩, ⟨"#"⟩, ⟨".5"⟩],
    by decide +kernel, by decide +kernel, by decide⟩

end ParserSettings

end SymbolicAlgebra
