/-
  What the parser accepts
  =======================
  The four stages together: the lexer's symbols alternate, so the conversion to
  postfix order accepts them exactly when the grammar derives them; then it writes
  the postorder of the one derivation, whose tree is the fold of the derivation.

  **`ParserSettings.ofInfix_symbols`** states all of it for every text that has
  symbols, under every table of brackets that the settings allow.
-/
import SymbolicAlgebra.Proofs.Grammar.Alternation
import SymbolicAlgebra.Proofs.Grammar.Derivation
import SymbolicAlgebra.Proofs.Grammar.Fold

namespace SymbolicAlgebra.ParserSettings

open SymbolicAlgebra.Postfix

/-- The parser accepts exactly its grammar and builds the tree of the derivation. -/
theorem ofInfix_symbols {settings : ParserSettings} (checked : settings.check = .ok settings)
    {text : String} {symbols : List Symbol} (lexed : settings.symbols text = .ok symbols)
    (nonempty : symbols ≠ []) :
    ((∃ postfixed, ofInfix settings.brackets none symbols = .ok postfixed) ↔
        ∃ p : Phrase settings.brackets .sum, p.symbols = symbols) ∧
      (∀ p q : Phrase settings.brackets .sum, p.symbols = symbols → q.symbols = symbols → p = q) ∧
      (∀ p : Phrase settings.brackets .sum, p.symbols = symbols →
        ofInfix settings.brackets none symbols = .ok p.postorder ∧
          ∀ (α : Type) [Scalar α],
            toNode p.postorder = p.node α ∧ FailsByOverflow (p.node α)) ∧
      ((¬ ∃ p : Phrase settings.brackets .sum, p.symbols = symbols) →
        MisfitReport (ofInfix settings.brackets none symbols)) := by
  have valid := BracketTable.valid_of_check checked
  obtain ⟨u, fits, ended⟩ := alternating_symbols checked lexed nonempty
  have spec := Reading.ofInfix_spec valid fits ended
  have derived : ∀ p : Phrase settings.brackets .sum, p.symbols = symbols →
      ofInfix settings.brackets none symbols = .ok p.postorder := by
    intro p spelled
    rw [(Reading.phraseOf_eq_some valid).2 spelled] at spec
    exact spec
  have underived : (¬ ∃ p : Phrase settings.brackets .sum, p.symbols = symbols) →
      MisfitReport (ofInfix settings.brackets none symbols) := by
    intro absent
    cases found : Reading.phraseOf settings.brackets symbols with
    | none =>
      rw [found] at spec
      exact spec
    | some p => exact absurd ⟨p, (Reading.phraseOf_eq_some valid).1 found⟩ absent
  refine ⟨⟨?_, ?_⟩, ?_, ?_, underived⟩
  · rintro ⟨postfixed, written⟩
    by_contra absent
    obtain ⟨cause, failed, -⟩ := underived absent
    rw [written] at failed
    cases failed
  · rintro ⟨p, spelled⟩
    exact ⟨p.postorder, derived p spelled⟩
  · intro p q left right
    exact Phrase.eq_of_symbols_eq valid (left.trans right.symm)
  · intro p spelled
    refine ⟨derived p spelled, fun α _ => ⟨p.toNode_postorder, p.fails_node fun s hs => ?_⟩⟩
    exact lineFeed_not_mem lexed s (spelled ▸ hs)

/-- A call, a factorial, a negation and a juxtaposition have one derivation between them. -/
theorem ofInfix_symbols_call :
    ∃ p : Phrase .round .sum,
      p.symbols = [⟨"2"⟩, ⟨"#"⟩, ⟨"max"⟩, ⟨"("⟩, ⟨"x"⟩, ⟨","⟩, ⟨"~"⟩, ⟨"y"⟩, ⟨"!"⟩, ⟨")"⟩] ∧
        p.postorder = [⟨"2"⟩, ⟨"x"⟩, ⟨"y"⟩, ⟨"!"⟩, ⟨"~"⟩, ⟨"max"⟩, ⟨"#"⟩] := by
  have lexed : symbols {} "2max(x, -y!)" =
      .ok [⟨"2"⟩, ⟨"#"⟩, ⟨"max"⟩, ⟨"("⟩, ⟨"x"⟩, ⟨","⟩, ⟨"~"⟩, ⟨"y"⟩, ⟨"!"⟩, ⟨")"⟩] := by
    decide +kernel
  have written : ofInfix .round none
      [⟨"2"⟩, ⟨"#"⟩, ⟨"max"⟩, ⟨"("⟩, ⟨"x"⟩, ⟨","⟩, ⟨"~"⟩, ⟨"y"⟩, ⟨"!"⟩, ⟨")"⟩] =
      .ok [⟨"2"⟩, ⟨"x"⟩, ⟨"y"⟩, ⟨"!"⟩, ⟨"~"⟩, ⟨"max"⟩, ⟨"#"⟩] := by
    decide +kernel
  have accepted := @ofInfix_symbols {} (by decide +kernel) _ _ lexed (by decide)
  obtain ⟨p, spelled⟩ := accepted.1.1 ⟨_, written⟩
  have same := (accepted.2.2.1 p spelled).1.symm.trans written
  exact ⟨p, spelled, Except.ok.inj same⟩

end SymbolicAlgebra.ParserSettings
