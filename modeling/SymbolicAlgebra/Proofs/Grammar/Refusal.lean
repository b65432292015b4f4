/-
  How parsing fails
  =================
  A text that is no expression is refused with one of the seven reports that tell its
  author what to mend. Each stage adds its own: the lexer what fits no token or stands
  at the wrong turn, the classes of symbols what is no token at all, the conversion what
  brackets and arguments do not fit, and brackets nested too deep. Reading the postfix
  list adds none, since the stack of a derivation is never too short or too long.

  **`ParserSettings.parse_refuses`** states it for every text and all settings that pass
  their check. One failure is left that is not about the text: an addition can meet a
  fraction too large to be scaled to whole parts.
-/
import SymbolicAlgebra.Proofs.Value.Rational
import SymbolicAlgebra.Binary64.Arithmetic
import SymbolicAlgebra.Proofs.Grammar.Acceptance

namespace SymbolicAlgebra

open SymbolicAlgebra.Postfix

namespace ParseError

/-- The classes of the reports on a text that is no expression. -/
def expressionKinds : List String :=
  ["UnknownTokenError", "MismatchedBracketError", "OperatorSequenceError",
    "OperandOverflowError", "OperandUnderflowError", "ArgumentCountError", "NestingDepthError"]

/-- Whether the report is on an expression, and not on the two sides of an equation. -/
def onExpression : ParseError → Bool
  | notOneEquals _ | emptySide _ => false
  | _ => true

theorem onExpression_iff (e : ParseError) : e.onExpression = true ↔ e.kind ∈ expressionKinds := by
  cases e <;> simp only [onExpression, kind] <;> decide

end ParseError

/-- The result is there, or the text is reported to be no expression. -/
def Refuses {β : Type} (x : Checked β) : Prop :=
  ∀ cause, x = .error cause → ∃ e : ParseError, cause = .parse e ∧ e.onExpression = true

namespace Refuses

variable {β γ : Type}

theorem ok (x : β) : Refuses (.ok x : Checked β) := by
  intro cause missing
  cases missing

theorem report {e : ParseError} (known : e.onExpression = true) :
    Refuses (.error (.parse e) : Checked β) := by
  intro cause missing
  exact ⟨e, (Except.error.inj missing).symm, known⟩

theorem bind {x : Checked β} {f : β → Checked γ} (first : Refuses x)
    (next : ∀ b, x = .ok b → Refuses (f b)) : Refuses (x >>= f) := by
  intro cause missing
  rcases bind_eq_error.1 missing with missing | ⟨b, found, missing⟩
  · exact first cause missing
  · exact next b found cause missing

theorem mapM {f : β → Checked γ} (each : ∀ b, Refuses (f b)) (bs : List β) :
    Refuses (bs.mapM f) := by
  induction bs with
  | nil => exact ok _
  | cons b bs ih =>
    rw [List.mapM_cons]
    exact (each b).bind fun c _ => ih.bind fun cs _ => ok _

theorem misfit {x : Checked β} (h : MisfitReport x) : Refuses x := by
  obtain ⟨e, rfl, kind | kind⟩ := h
  · exact report (e.onExpression_iff.2 (by rw [kind]; decide))
  · exact report (e.onExpression_iff.2 (by rw [kind]; decide))

end Refuses

open Refuses

/-! ### The lexer -/

namespace Token

/-- The result is there, or the lexer reports a piece of the text. -/
def Reports {β : Type} (x : Except ParseError β) : Prop :=
  ∀ e, x = .error e → e.onExpression = true

variable {table : BracketTable}

theorem Reports.bind {β γ : Type} {x : Except ParseError β} {f : β → Except ParseError γ}
    (first : Reports x) (next : ∀ b, Reports (f b)) : Reports (x >>= f) := by
  intro e missing
  rcases bind_eq_error.1 missing with missing | ⟨b, -, missing⟩
  · exact first e missing
  · exact next b e missing

theorem Reports.ok {β : Type} (x : β) : Reports (.ok x) := by
  intro e missing
  cases missing

theorem Reports.report {β : Type} {e : ParseError} (known : e.onExpression = true) :
    Reports (.error e : Except ParseError β) := by
  intro e' missing
  obtain rfl := Except.error.inj missing
  exact known

theorem reports_cutIdentifier (run : List Char) (beforeBracket : Bool) :
    Reports (cutIdentifier run beforeBracket) := by
  unfold cutIdentifier
  dsimp only
  split
  · exact .ok _
  · split
    · exact .report rfl
    · exact .ok _

theorem reports_cut (text : String) (position : Nat) (cs : List Char) :
    Reports (cut table text position cs) := by
  fun_induction cut table text position cs with
  | case1 position => exact .ok _
  | case2 position c rest numeral run ih => exact ih.bind fun _ => .ok _
  | case3 position c rest numeral letter run after beforeBracket ih =>
    exact (reports_cutIdentifier _ _).bind fun _ => ih.bind fun _ => .ok _
  | case4 position c rest numeral letter sign ih => exact ih.bind fun _ => .ok _
  | case5 position c rest numeral letter sign =>
    exact .report rfl

theorem reports_marked (previous : Option Piece) (pieces : List Piece) :
    Reports (marked table previous pieces) := by
  induction pieces generalizing previous with
  | nil =>
    unfold marked
    split
    · split
      · exact .report rfl
      · exact .ok _
    · exact .ok _
  | cons piece rest ih =>
    rw [marked]
    split
    · split
      · exact (ih _).bind fun _ => .ok _
      · split
        · exact ih _
        · split
          · exact .report rfl
          · split
            · exact .report rfl
            · exact (ih _).bind fun _ => .ok _
    · split
      · exact (ih _).bind fun _ => .ok _
      · exact (ih _).bind fun _ => .ok _

theorem reports_tokenize (text : String) : Reports (tokenize table text) :=
  ((reports_cut _ _ _).bind fun _ => reports_marked _ _).bind fun _ => .ok _

end Token

theorem Symbol.refuses_classify (table : BracketTable) (tokens : List String) :
    Refuses (classify table tokens) := by
  refine Refuses.mapM (fun text => ?_) tokens
  unfold validate
  split
  · exact .ok _
  · exact .report rfl

/-! ### The conversion -/

namespace Postfix

variable (table : BracketTable)

/-- A limit on the depth of brackets stops a step or leaves it as it is. -/
theorem step_limit (limit : Option Int) (state : State) (s : Symbol) :
    (∃ bound bracket, step table limit state s = .error (.parse (.nestedTooDeep bound bracket))) ∨
      step table limit state s = step table none state s := by
  unfold step openGroup
  split
  · exact .inr rfl
  · split
    · exact .inr rfl
    · split
      · exact .inr rfl
      · split
        · exact .inr rfl
        · split
          · exact .inr rfl
          · split
            · exact .inr rfl
            · split
              · split
                · exact .inl ⟨_, _, rfl⟩
                · exact .inr rfl
              · exact .inr rfl

theorem foldlM_step_limit (limit : Option Int) (symbols : List Symbol) (state : State) :
    (∃ bound bracket, symbols.foldlM (step table limit) state =
        .error (.parse (.nestedTooDeep bound bracket))) ∨
      symbols.foldlM (step table limit) state = symbols.foldlM (step table none) state := by
  induction symbols generalizing state with
  | nil => exact .inr rfl
  | cons s symbols ih =>
    simp only [List.foldlM_cons]
    rcases step_limit table limit state s with ⟨bound, bracket, stopped⟩ | same
    · rw [stopped]
      exact .inl ⟨bound, bracket, rfl⟩
    · rw [same]
      cases step table none state s with
      | error cause => exact .inr rfl
      | ok next => exact ih next

/-- A limit on the depth of brackets stops a conversion or leaves it as it is. -/
theorem ofInfix_limit (limit : Option Int) (symbols : List Symbol) :
    (∃ bound bracket,
        ofInfix table limit symbols = .error (.parse (.nestedTooDeep bound bracket))) ∨
      ofInfix table limit symbols = ofInfix table none symbols := by
  unfold ofInfix
  rcases foldlM_step_limit table limit symbols .start with
    ⟨bound, bracket, stopped⟩ | same
  · rw [stopped]
    exact .inl ⟨bound, bracket, rfl⟩
  · rw [same]
    exact .inr rfl

variable {table}

/-- Symbols that alternate are accepted, with a limit or without, only as those of a phrase. -/
theorem phrase_of_ofInfix (valid : table.Valid) {limit : Option Int} {symbols postfixed : List Symbol}
    {u : Turn} (fits : Alternating table .operand symbols u) (ended : u = .argument ∨ u = .operator)
    (accepted : ofInfix table limit symbols = .ok postfixed) :
    ∃ p : Phrase table .sum, p.symbols = symbols ∧ postfixed = p.postorder := by
  have spec := Reading.ofInfix_spec valid fits ended
  rcases ofInfix_limit table limit symbols with ⟨bound, bracket, stopped⟩ | same
  · rw [stopped] at accepted
    cases accepted
  · rw [same] at accepted
    cases found : Reading.phraseOf table symbols with
    | none =>
      rw [found] at spec
      obtain ⟨e, failed, -⟩ := spec
      rw [accepted] at failed
      cases failed
    | some p =>
      rw [found] at spec
      refine ⟨p, (Reading.phraseOf_eq_some valid).1 found, ?_⟩
      exact Except.ok.inj (accepted.symm.trans spec)

end Postfix

/-! ### The whole text -/

namespace ParserSettings

variable {settings : ParserSettings}

theorem refuses_symbols (settings : ParserSettings) (text : String) :
    Refuses (settings.symbols text) := by
  refine Refuses.bind ?_ fun tokens _ => Symbol.refuses_classify _ tokens
  intro cause missing
  cases lexed : Token.tokenize settings.brackets text with
  | ok tokens =>
    rw [lexed] at missing
    cases missing
  | error e =>
    rw [lexed] at missing
    exact ⟨e, (Except.error.inj missing).symm, Token.reports_tokenize text e lexed⟩

/-- The conversion of the symbols of a text, or what it reports, is that of the grammar. -/
theorem ofInfix_cases (checked : settings.check = .ok settings) {text : String}
    {symbols : List Symbol} (lexed : settings.symbols text = .ok symbols) (nonempty : symbols ≠ []) :
    Refuses (ofInfix settings.brackets settings.maxDepth symbols) ∧
      ∀ postfixed, ofInfix settings.brackets settings.maxDepth symbols = .ok postfixed →
        ∃ p : Phrase settings.brackets .sum, p.symbols = symbols ∧ postfixed = p.postorder := by
  have valid := BracketTable.valid_of_check checked
  obtain ⟨u, fits, ended⟩ := alternating_symbols checked lexed nonempty
  refine ⟨?_, fun postfixed accepted => phrase_of_ofInfix valid fits ended accepted⟩
  have spec := Reading.ofInfix_spec valid fits ended
  rcases ofInfix_limit settings.brackets settings.maxDepth symbols with
    ⟨bound, bracket, stopped⟩ | same
  · rw [stopped]
    exact .report rfl
  · rw [same]
    cases found : Reading.phraseOf settings.brackets symbols with
    | none =>
      rw [found] at spec
      exact .misfit spec
    | some p =>
      rw [found] at spec
      intro cause missing
      rw [spec] at missing
      cases missing

/-- Parsing any text has a node or one of the seven reports, unless the text is an expression
in whose arithmetic a fraction cannot be scaled to whole parts. -/
theorem parse_refuses {α : Type} [Scalar α] (checked : settings.check = .ok settings)
    (text : String) :
    (∃ n : Node α, settings.parse text = .ok n) ∨
      (∃ e : ParseError, (settings.parse text : Checked (Node α)) = .error (.parse e) ∧
        e.kind ∈ ParseError.expressionKinds) ∨
      ((settings.parse text : Checked (Node α)) = .error .overflow ∧ Scalar.Overflows α ∧
        ∃ p : Phrase settings.brackets .sum, settings.symbols text = .ok p.symbols) := by
  cases parsed : (settings.parse text : Checked (Node α)) with
  | ok n => exact .inl ⟨n, rfl⟩
  | error cause =>
    right
    rcases bind_eq_error.1 parsed with unlexed | ⟨symbols, lexed, rest⟩
    · obtain ⟨e, rfl, known⟩ := refuses_symbols settings text cause unlexed
      exact .inl ⟨e, rfl, e.onExpression_iff.1 known⟩
    by_cases nonempty : symbols = []
    · -- no symbols write zero
      subst nonempty
      cases rest
    obtain ⟨refused, derived⟩ := ofInfix_cases checked lexed nonempty
    rcases bind_eq_error.1 rest with unread | ⟨postfixed, written, rest⟩
    · obtain ⟨e, rfl, known⟩ := refused cause unread
      exact .inl ⟨e, rfl, e.onExpression_iff.1 known⟩
    · obtain ⟨p, spelled, rfl⟩ := derived postfixed written
      rw [p.toNode_postorder] at rest
      rcases bind_eq_error.1 rest with unscaled | ⟨n, -, done⟩
      · have scales := p.scales_node (α := α) fun s hs => lineFeed_not_mem lexed s (spelled ▸ hs)
        obtain ⟨rfl, overflows⟩ := scales cause unscaled
        exact .inr ⟨rfl, overflows, p, spelled ▸ lexed⟩
      · cases done

/-- Binary numbers have fractions that cannot be scaled: `10^308` over a half is one. -/
theorem overflows_binary : Scalar.Overflows Float := by
  have failed : (Scalar.reduceFraction (Float.ofScientific 1 false 308)
      (Float.ofScientific 5 true 1)).toOption.isNone = true := by
    decide +kernel
  cases scaled : Scalar.reduceFraction (Float.ofScientific 1 false 308)
      (Float.ofScientific 5 true 1) with
  | ok parts =>
    rw [scaled] at failed
    cases failed
  | error cause => exact ⟨_, _, Scalar.overflow_of_reduceFraction scaled ▸ scaled⟩

/-- A bracket that stays open is reported. -/
theorem parse_refuses_open :
    ({} : ParserSettings).check = .ok {} ∧
      ∃ e : ParseError, (({} : ParserSettings).parse "2(x" : Checked (Node ℚ)) = .error (.parse e) ∧
        e.kind ∈ ParseError.expressionKinds := by
  have checked : ({} : ParserSettings).check = .ok {} := by decide
  have lexed : ({} : ParserSettings).symbols "2(x" = .ok [⟨"2"⟩, ⟨"#"⟩, ⟨"("⟩, ⟨"x"⟩] := by
    decide +kernel
  have read : ofInfix .round none [⟨"2"⟩, ⟨"#"⟩, ⟨"("⟩, ⟨"x"⟩] =
      .error (.parse (.unmatchedOpen "(")) := by
    decide
  have parsed : (({} : ParserSettings).parse "2(x" : Checked (Node ℚ)) =
      .error (.parse (.unmatchedOpen "(")) :=
    bind_eq_error.2 (.inr ⟨_, lexed, bind_eq_error.2 (.inl read)⟩)
  refine ⟨checked, ?_⟩
  rcases parse_refuses (α := ℚ) checked "2(x" with ⟨n, accepted⟩ | refused | ⟨overflow, -⟩
  · rw [parsed] at accepted
    cases accepted
  · exact refused
  · rw [parsed] at overflow
    cases overflow

end ParserSettings

end SymbolicAlgebra
