/-
  Bracket kinds are a matching discipline
  =======================================
  What the kinds of brackets are good for. Take a text and forget the kinds of its
  brackets. A parser with a table reads the text exactly when the parser with round
  brackets reads the other one and every two brackets that match there are a pair of
  the table here; then both read the same expression
  (**`ParserSettings.parse_rounded`**).

  The brackets of a text that match are given by their positions
  (`BracketTable.matched`). No stage of the lexer adds or drops a bracket, so it does
  not matter whether they are matched in the text or in its symbols
  (`ParserSettings.agrees_symbols`).
-/
import SymbolicAlgebra.Proofs.BracketKinds.Conversion

namespace SymbolicAlgebra

open SymbolicAlgebra.Text

variable {table : BracketTable}

/-! ### Matching by position -/

namespace BracketTable

/-- The positions of the round brackets that match, opener first, when the rest of a text starts at
a position and the positions of the openers before it that wait are listed, the innermost first. -/
def matchesFrom (opened : List Nat) (position : Nat) : List Char → List (Nat × Nat)
  | [] => []
  | c :: rest =>
    if c = '(' then matchesFrom (position :: opened) (position + 1) rest
    else if c = ')' then
      match opened with
      | [] => matchesFrom [] (position + 1) rest
      | i :: opened => (i, position) :: matchesFrom opened (position + 1) rest
    else matchesFrom opened (position + 1) rest

/-- The positions of the round brackets of a text that match. -/
def matched (text : String) : List (Nat × Nat) := matchesFrom [] 0 text.toList

/-- The characters of the text at two positions are a pair of the table. -/
def PairedAt (table : BracketTable) (cs : List Char) (p : Nat × Nat) : Prop :=
  ∃ o x, cs[p.1]? = some o ∧ cs[p.2]? = some x ∧ (o, x) ∈ table.pairs

theorem matchesFrom_agrees (valid : table.Valid) {cs front : List Char} {opened : List Nat}
    {openers : List Char} (covered : Covers table cs)
    (waiting : List.Forall₂ (fun i o => (front ++ cs)[i]? = some o) opened openers) :
    (∀ p ∈ matchesFrom opened front.length (cs.map table.roundedChar),
      PairedAt table (front ++ cs) p) ↔ table.Agrees openers cs := by
  induction cs generalizing front opened openers with
  | nil => simp [matchesFrom, Agrees]
  | cons c cs ih =>
    have behind : Covers table cs := covered.of_subset fun d hd => List.mem_cons_of_mem c hd
    have here : (front ++ c :: cs)[front.length]? = some c := by simp
    have next : front ++ c :: cs = (front ++ [c]) ++ cs := by simp
    have length : (front ++ [c]).length = front.length + 1 := by simp
    rw [next] at waiting here ⊢
    rw [List.map_cons, matchesFrom.eq_def]
    rcases valid.cases c with ⟨b, rfl⟩ | ⟨b, rfl⟩ | other
    · simp only [roundedChar_opener valid, agrees_opener valid, if_true, ← length]
      exact ih behind (.cons here waiting)
    · simp only [roundedChar_closer valid, agrees_closer valid, if_true, ← length]
      cases waiting with
      | nil => exact ih behind .nil
      | @cons i o opened openers first waiting =>
        have paired : PairedAt table (front ++ [b.closer] ++ cs) (i, front.length) ↔
            (o, b.closer) ∈ table.pairs := by
          simp only [PairedAt, first, here, Option.some.injEq]
          simp
        have notOpener : ')' ≠ '(' := by decide
        simp only [if_neg notOpener, List.forall_mem_cons, paired, ih behind waiting]
    · have notRound : c ∉ round := fun inside => other (covered c List.mem_cons_self inside)
      simp only [round, List.mem_cons, List.not_mem_nil, or_false, not_or] at notRound
      simp only [roundedChar_of_not_mem valid other, notRound, if_false, agrees_other valid other,
        ← length]
      exact ih behind waiting

/-! ### Matching in a text and in its symbols -/

/-- The brackets of the table among the characters. -/
def bracketsOf (table : BracketTable) (cs : List Char) : List Char := cs.filter table.contains

theorem bracketsOf_append (cs ds : List Char) :
    table.bracketsOf (cs ++ ds) = table.bracketsOf cs ++ table.bracketsOf ds :=
  List.filter_append cs ds

theorem bracketsOf_cons {c : Char} (other : c ∉ table) (cs : List Char) :
    table.bracketsOf (c :: cs) = table.bracketsOf cs := by
  simp [bracketsOf, other]

/-- Only brackets count for the matching. -/
theorem agrees_bracketsOf (valid : table.Valid) (opened cs : List Char) :
    table.Agrees opened (table.bracketsOf cs) ↔ table.Agrees opened cs := by
  induction cs generalizing opened with
  | nil => rfl
  | cons c cs ih =>
    rcases valid.cases c with ⟨b, rfl⟩ | ⟨b, rfl⟩ | other
    · have kept : table.bracketsOf (b.opener :: cs) = b.opener :: table.bracketsOf cs := by
        simp [bracketsOf, (mem_of_mem_pairs b.listed).1]
      rw [kept, agrees_opener valid, agrees_opener valid, ih]
    · have kept : table.bracketsOf (b.closer :: cs) = b.closer :: table.bracketsOf cs := by
        simp [bracketsOf, (mem_of_mem_pairs b.listed).2]
      rw [kept, agrees_closer valid, agrees_closer valid]
      cases opened with
      | nil => exact ih []
      | cons o opened => simp only [ih]
    · rw [bracketsOf_cons other, ih, agrees_other valid other]

theorem bracketsOf_compact (valid : table.Valid) (cs : List Char) :
    table.bracketsOf (compact cs) = table.bracketsOf cs := by
  rw [bracketsOf, compact, List.filter_filter, bracketsOf]
  refine List.filter_congr fun c _ => ?_
  cases blank : isBlank c with
  | false => simp
  | true =>
    have reserved : ParserSettings.isReserved c = true := by
      simp [ParserSettings.isReserved, blank]
    simp [not_mem_of_isReserved valid reserved]

theorem bracketsOf_collapseMinus (valid : table.Valid) (cs : List Char) :
    table.bracketsOf (Token.collapseMinus cs) = table.bracketsOf cs := by
  have minus : '-' ∉ table := not_mem_of_isReserved valid (by decide)
  have plus : '+' ∉ table := not_mem_of_isReserved valid (by decide)
  fun_induction Token.collapseMinus cs with
  | case1 rest ih =>
    rw [bracketsOf_cons plus, bracketsOf_cons minus, bracketsOf_cons minus, ih]
  | case2 c rest _ ih =>
    rw [← List.singleton_append, bracketsOf_append, ih, ← bracketsOf_append]
    rfl
  | case3 => rfl

theorem bracketsOf_withoutPlus (valid : table.Valid) (before : Option Char) (cs : List Char) :
    table.bracketsOf (Token.withoutPlus table before cs) = table.bracketsOf cs := by
  induction cs generalizing before with
  | nil => rfl
  | cons c cs ih =>
    rw [Token.withoutPlus]
    split
    · rename_i silent
      have plus : c ∉ table := not_mem_of_isReserved valid (by rw [silent.1]; decide)
      rw [bracketsOf_cons plus, ih]
    · rw [← List.singleton_append, bracketsOf_append, ih, ← bracketsOf_append]
      rfl

theorem bracketsOf_written (valid : table.Valid) (s : Symbol) :
    table.bracketsOf s.written = table.bracketsOf s.text.toList := by
  have free : ∀ c, ParserSettings.isReserved c = true → table.bracketsOf [c] = [] := by
    intro c reserved
    rw [bracketsOf_cons (not_mem_of_isReserved valid reserved)]
    rfl
  rw [Symbol.written]
  split
  · rename_i mark
    rw [mark]
    exact (free '#' (by decide)).symm
  · split
    · rename_i mark
      rw [mark, free '-' (by decide)]
      exact (free '~' (by decide)).symm
    · rfl

theorem bracketsOf_spelling (valid : table.Valid) (symbols : List Symbol) :
    table.bracketsOf (symbols.flatMap Symbol.written) =
      table.bracketsOf (Postfix.spelling symbols) := by
  induction symbols with
  | nil => rfl
  | cons s symbols ih =>
    rw [List.flatMap_cons, bracketsOf_append, ih, bracketsOf_written valid, ← bracketsOf_append]
    rfl

end BracketTable

/-- The brackets of the symbols are those of their text. -/
theorem ParserSettings.agrees_symbols {settings : ParserSettings}
    (checked : settings.check = .ok settings) {text : String} {symbols : List Symbol}
    (lexed : settings.symbols text = .ok symbols) (opened : List Char) :
    settings.brackets.Agrees opened (Postfix.spelling symbols) ↔
      settings.brackets.Agrees opened text.toList := by
  have valid := BracketTable.valid_of_check checked
  obtain ⟨tokens, made, rfl, -⟩ := tokens_of_symbols lexed
  obtain ⟨out, compacted, kept⟩ := bind_eq_ok.1 made
  obtain rfl := Except.ok.inj kept
  obtain ⟨pieces, cutText, markText⟩ := bind_eq_ok.1 compacted
  have silent : Token.isSilentBehind settings.brackets none = Token.dropsPlus settings.brackets none :=
    rfl
  have written := Token.written_marked valid (Token.lexeme_cut valid cutText) silent markText
  rw [Token.flatten_cut cutText] at written
  have symbols : ((out.map String.ofList).map Symbol.mk).flatMap Symbol.written =
      out.flatMap fun p => p.symbol.written := by
    rw [List.flatMap_map, List.flatMap_map]
    rfl
  rw [← BracketTable.agrees_bracketsOf valid, ← BracketTable.bracketsOf_spelling valid, symbols,
    written, BracketTable.bracketsOf_withoutPlus valid, BracketTable.bracketsOf_collapseMinus valid,
    BracketTable.bracketsOf_compact valid, BracketTable.agrees_bracketsOf valid]

/-- Bracket kinds only decide which brackets may match. A parser with a table reads a text exactly
when the parser with round brackets reads it without its kinds of brackets and every two brackets
that match there are a pair of the table in the text. Both read the same expression. -/
theorem ParserSettings.parse_rounded {α : Type} [Scalar α] {settings : ParserSettings}
    (checked : settings.check = .ok settings) (unlimited : settings.maxDepth = none) {text : String}
    (covered : settings.brackets.Covers text.toList) (n : Node α) :
    settings.parse text = .ok n ↔
      ({} : ParserSettings).parse (settings.brackets.rounded text) = .ok n ∧
        ∀ p ∈ BracketTable.matched (settings.brackets.rounded text),
          settings.brackets.PairedAt text.toList p := by
  have valid := BracketTable.valid_of_check checked
  obtain ⟨follows, recast⟩ := symbols_rounded checked covered
  have matching : (∀ p ∈ BracketTable.matched (settings.brackets.rounded text),
      settings.brackets.PairedAt text.toList p) ↔ settings.brackets.Agrees [] text.toList := by
    rw [BracketTable.matched, BracketTable.rounded, String.toList_ofList]
    have start : List.Forall₂ (fun (i : Nat) o => ([] ++ text.toList)[i]? = some o) [] [] := .nil
    exact BracketTable.matchesFrom_agrees valid covered start
  rw [matching]
  simp only [parse, bind_eq_ok, unlimited]
  constructor
  · rintro ⟨symbols, lexed, out, written, done⟩
    have related : List.Forall₂ (Symbol.Recast settings.brackets) symbols
        (symbols.map (Symbol.rounded settings.brackets)) := by
      rw [List.forall₂_map_right_iff, List.forall₂_same]
      exact recast symbols lexed
    obtain ⟨written', agrees⟩ := (Postfix.ofInfix_recast valid related out).1 written
    exact ⟨⟨_, follows.ok_iff.2 ⟨symbols, lexed, rfl⟩, out, written', done⟩,
      (agrees_symbols checked lexed []).1 agrees⟩
  · rintro ⟨⟨symbols', lexed', out, written', done⟩, agrees⟩
    obtain ⟨symbols, lexed, rfl⟩ := follows.ok_iff.1 lexed'
    have related : List.Forall₂ (Symbol.Recast settings.brackets) symbols
        (symbols.map (Symbol.rounded settings.brackets)) := by
      rw [List.forall₂_map_right_iff, List.forall₂_same]
      exact recast symbols lexed
    exact ⟨symbols, lexed, out, (Postfix.ofInfix_recast valid related out).2
      ⟨written', (agrees_symbols checked lexed []).2 agrees⟩, done⟩

/-- A square bracket does not match a round one. -/
theorem ParserSettings.parse_rounded_crossed :
    let settings : ParserSettings := { brackets := ['[', ']', '(', ')'] }
    settings.check = .ok settings ∧ settings.maxDepth = none ∧
      settings.brackets.Covers "2[x)".toList ∧
      ∀ n : Node Float, settings.parse "2[x)" ≠ .ok n := by
  intro settings
  have checked : settings.check = .ok settings := by decide +kernel
  have covered : settings.brackets.Covers "2[x)".toList := fun _ _ round =>
    List.subset_append_right ['[', ']'] BracketTable.round round
  refine ⟨checked, rfl, covered, fun n read => ?_⟩
  have paired := ((parse_rounded checked rfl covered n).1 read).2 (1, 3) (by decide +kernel)
  obtain ⟨o, x, first, second, listed⟩ := paired
  obtain rfl : '[' = o := Option.some.inj first
  obtain rfl : ')' = x := Option.some.inj second
  exact absurd listed (by decide +kernel)

end SymbolicAlgebra
