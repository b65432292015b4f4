/-
  Bracket kinds and postfix order
  ===============================
  Two conversions side by side: one reads symbols with the brackets of a table, the
  other the same symbols with round brackets. Their stacks differ in the kinds of the
  open brackets only (`Postfix.Alike`), and each symbol keeps it so, until one of
  another kind closes the innermost bracket (`Postfix.step_recast`). Then the first
  conversion fails, while the second goes on.

  So the first conversion has a result exactly when the second has it and every
  bracket is closed by one of its own kind (**`Postfix.ofInfix_recast`**).
-/
import SymbolicAlgebra.Proofs.BracketKinds.Tokens
import SymbolicAlgebra.Proofs.Grammar.Reading

namespace SymbolicAlgebra

variable {table : BracketTable}

/-- Every closer is the other half of the opener that it closes, when the openers that wait for a
closer are listed, the innermost first. A closer that none waits for closes nothing. -/
def BracketTable.Agrees (table : BracketTable) : List Char → List Char → Prop
  | _, [] => True
  | opened, c :: rest =>
    if c ∈ table.openers then Agrees table (c :: opened) rest
    else if c ∈ table.closers then
      match opened with
      | [] => Agrees table [] rest
      | o :: opened => (o, c) ∈ table.pairs ∧ Agrees table opened rest
    else Agrees table opened rest

namespace BracketTable

theorem agrees_other (valid : table.Valid) {c : Char} (other : c ∉ table) (opened rest : List Char) :
    table.Agrees opened (c :: rest) ↔ table.Agrees opened rest := by
  obtain ⟨notOpens, notCloses⟩ := not_mem_sides valid other
  rw [Agrees.eq_def]
  simp only [notOpens, notCloses, if_false]

theorem agrees_free (valid : table.Valid) {opened cs : List Char} (free : ∀ c ∈ cs, c ∉ table)
    (rest : List Char) : table.Agrees opened (cs ++ rest) ↔ table.Agrees opened rest := by
  induction cs with
  | nil => rfl
  | cons c cs ih =>
    obtain ⟨first, later⟩ := List.forall_mem_cons.1 free
    rw [List.cons_append, agrees_other valid first, ih later]

theorem agrees_opener (valid : table.Valid) (b : BracketPair table) (opened rest : List Char) :
    table.Agrees opened (b.opener :: rest) ↔ table.Agrees (b.opener :: opened) rest := by
  rw [Agrees.eq_def]
  simp only [(BracketPair.mem_openers valid).2 ⟨b, rfl⟩, if_true]

theorem agrees_closer (valid : table.Valid) (b : BracketPair table) (opened rest : List Char) :
    table.Agrees opened (b.closer :: rest) ↔
      match opened with
      | [] => table.Agrees [] rest
      | o :: opened => (o, b.closer) ∈ table.pairs ∧ table.Agrees opened rest := by
  obtain ⟨closes, notOpens⟩ := mem_closers_pair valid b
  rw [Agrees.eq_def]
  simp only [closes, notOpens, if_true, if_false]

end BracketTable

namespace Postfix

open BracketTable

/-! ### Two stacks -/

/-- A symbol that holds no bracket, of the table or round. -/
def Unbracketed (table : BracketTable) (s : Symbol) : Prop :=
  ∀ c ∈ s.text.toList, c ∉ table ∧ c ∉ BracketTable.round

theorem Unbracketed.not_bracket (valid : table.Valid) {s : Symbol} (h : Unbracketed table s) :
    (s.isOpen table = false ∧ s.isClose table = false) ∧
      s.isOpen .round = false ∧ s.isClose .round = false :=
  ⟨Symbol.not_bracket_of_free valid fun c hc => (h c hc).1,
    Symbol.not_bracket_of_free Token.valid_round fun c hc => (h c hc).2⟩

/-- Stacks that differ in the kinds of the open brackets, with their groups and the open brackets
of the first. Below the bracket of a call waits its function. -/
inductive Waiting (table : BracketTable) :
    List Symbol → List Symbol → List Group → List Char → Prop
  | nil : Waiting table [] [] [] []
  | other {s : Symbol} {stack stack' : List Symbol} {groups : List Group} {opened : List Char}
      (free : Unbracketed table s) (below : Waiting table stack stack' groups opened) :
      Waiting table (s :: stack) (s :: stack') groups opened
  | bracket (b : BracketPair table) (n : Nat) {stack stack' : List Symbol} {groups : List Group}
      {opened : List Char} (below : Waiting table stack stack' groups opened) :
      Waiting table (b.opening :: stack) (Phrase.roundPair.opening :: stack')
        (⟨none, n⟩ :: groups) (b.opener :: opened)
  | call (b : BracketPair table) (n : Nat) {f : Symbol} {stack stack' : List Symbol}
      {groups : List Group} {opened : List Char} (free : Unbracketed table f)
      (below : Waiting table stack stack' groups opened) :
      Waiting table (b.opening :: f :: stack) (Phrase.roundPair.opening :: f :: stack')
        (⟨some f, n⟩ :: groups) (b.opener :: opened)

namespace Waiting

variable {stack stack' : List Symbol} {groups : List Group} {opened : List Char}

/-- Operators are taken from both stacks alike. -/
theorem yields (valid : table.Valid) (h : Waiting table stack stack' groups opened) (s : Symbol) :
    stack'.takeWhile (Postfix.yields s) = stack.takeWhile (Postfix.yields s) ∧
      Waiting table (stack.dropWhile (Postfix.yields s)) (stack'.dropWhile (Postfix.yields s))
        groups opened := by
  have bare : ∀ {table : BracketTable}, table.Valid → ∀ b : BracketPair table,
      Postfix.yields s b.opening = false := by
    intro table valid b
    have operator := (Symbol.unreserved_opening valid b).isOperator
    exact not_yields_of_precedence (by simpa [Symbol.isOperator] using operator)
  induction h with
  | nil => exact ⟨rfl, .nil⟩
  | @other t stack stack' groups opened free below ih =>
    cases test : Postfix.yields s t with
    | true => simpa [test] using ih
    | false => simpa [test] using Waiting.other free below
  | bracket b n below =>
    simpa [bare valid b, bare Token.valid_round Phrase.roundPair] using Waiting.bracket b n below
  | call b n free below =>
    simpa [bare valid b, bare Token.valid_round Phrase.roundPair] using Waiting.call b n free below

/-- What stands above the innermost open bracket is the same on both stacks, and what is left
starts with that bracket. -/
theorem innermost (valid : table.Valid) (h : Waiting table stack stack' groups opened) :
    (stack'.takeWhile fun t => !t.isOpen .round) = (stack.takeWhile fun t => !t.isOpen table) ∧
      Waiting table (stack.dropWhile fun t => !t.isOpen table)
        (stack'.dropWhile fun t => !t.isOpen .round) groups opened ∧
      ∀ s ∈ (stack.dropWhile fun t => !t.isOpen table).head?, ¬ Unbracketed table s := by
  have opens : ∀ {table : BracketTable}, table.Valid → ∀ b : BracketPair table,
      b.opening.isOpen table = true := Symbol.isOpen_opening
  have bracketed : ∀ b : BracketPair table, ¬ Unbracketed table b.opening := by
    intro b free
    exact (free b.opener (by simp)).1 (BracketTable.mem_of_mem_pairs b.listed).1
  induction h with
  | nil => exact ⟨rfl, .nil, by simp⟩
  | other free below ih =>
    obtain ⟨⟨notOpen, -⟩, notRound, -⟩ := free.not_bracket valid
    simpa [notOpen, notRound] using ih
  | bracket b n below =>
    simpa [opens valid b, opens Token.valid_round Phrase.roundPair, bracketed b] using
      Waiting.bracket b n below
  | call b n free below =>
    simpa [opens valid b, opens Token.valid_round Phrase.roundPair, bracketed b] using
      Waiting.call b n free below

/-- A bracket is left open on both stacks, or the stacks are the same. -/
theorem find? (valid : table.Valid) (h : Waiting table stack stack' groups opened) :
    ((stack.find? fun t => t.isOpen table) = none ∧ (stack'.find? fun t => t.isOpen .round) = none ∧
        stack' = stack) ∨
      ∃ s s', (stack.find? fun t => t.isOpen table) = some s ∧
        (stack'.find? fun t => t.isOpen .round) = some s' := by
  have opens : ∀ {table : BracketTable}, table.Valid → ∀ b : BracketPair table,
      b.opening.isOpen table = true := Symbol.isOpen_opening
  induction h with
  | nil => exact .inl ⟨rfl, rfl, rfl⟩
  | other free below ih =>
    obtain ⟨⟨notOpen, -⟩, notRound, -⟩ := free.not_bracket valid
    simpa [notOpen, notRound] using ih
  | bracket b n below =>
    exact .inr ⟨b.opening, _, by simp [opens valid b], by
      simp [opens Token.valid_round Phrase.roundPair]; rfl⟩
  | call b n free below =>
    exact .inr ⟨b.opening, _, by simp [opens valid b], by
      simp [opens Token.valid_round Phrase.roundPair]; rfl⟩

end Waiting

/-- States that differ in the kinds of the open brackets, with the open brackets of the first. A
function that waits for its bracket is on top of both stacks. -/
inductive Alike (table : BracketTable) : State → State → List Char → Prop
  | settled {output stack stack' : List Symbol} {groups : List Group} {opened : List Char}
      (waiting : Waiting table stack stack' groups opened) :
      Alike table ⟨output, stack, groups, none⟩ ⟨output, stack', groups, none⟩ opened
  | calling {f : Symbol} {output stack stack' : List Symbol} {groups : List Group}
      {opened : List Char} (free : Unbracketed table f)
      (waiting : Waiting table stack stack' groups opened) :
      Alike table ⟨output, f :: stack, groups, some f⟩ ⟨output, f :: stack', groups, some f⟩ opened

theorem alike_start : Alike table .start .start [] := .settled .nil

/-! ### One symbol -/

/-- Both steps have results and keep the states alike, or neither has one. -/
def Together (table : BracketTable) (x y : Checked State) (opened : List Char) : Prop :=
  (∃ t t', x = .ok t ∧ y = .ok t' ∧ Alike table t t' opened) ∨
    (∃ cause, x = .error cause) ∧ ∃ cause, y = .error cause

theorem Together.ite {x x' y y' : Checked State} {opened : List Char} (c : Prop) [Decidable c]
    (yes : c → Together table x y opened) (no : ¬ c → Together table x' y' opened) :
    Together table (if c then x else x') (if c then y else y') opened := by
  by_cases holds : c
  · rw [if_pos holds, if_pos holds]
    exact yes holds
  · rw [if_neg holds, if_neg holds]
    exact no holds

section Step

variable {output stack stack' : List Symbol} {groups : List Group} {opened : List Char}

/-- A separator ends an argument in both, or in neither. -/
theorem nextArgument_alike (valid : table.Valid)
    (waiting : Waiting table stack stack' groups opened) (s : Symbol) :
    Together table (nextArgument table ⟨output, stack, groups, none⟩ s)
      (nextArgument .round ⟨output, stack', groups, none⟩ s) opened := by
  obtain ⟨written, left, first⟩ := waiting.innermost valid
  simp only [nextArgument, written]
  generalize (stack.dropWhile fun t => !t.isOpen table) = below at left first
  generalize (stack'.dropWhile fun t => !t.isOpen .round) = below' at left
  cases left with
  | nil => exact .inr ⟨⟨_, rfl⟩, ⟨_, rfl⟩⟩
  | other free _ => exact absurd free (first _ rfl)
  | bracket b n below => exact .inr ⟨⟨_, rfl⟩, ⟨_, rfl⟩⟩
  | call b n free below =>
    exact .inl ⟨_, _, rfl, rfl, .settled (.call b (n + 1) free below)⟩

/-- A symbol that is no bracket keeps the states alike. -/
theorem step_unbracketed (valid : table.Valid) {state state' : State}
    (alike : Alike table state state' opened) {s : Symbol} (free : Unbracketed table s) :
    Together table (step table none state s) (step .round none state' s) opened := by
  obtain ⟨⟨notOpen, notClose⟩, notOpen', notClose'⟩ := free.not_bracket valid
  cases alike with
  | calling _ _ =>
    simp only [step, notOpen, notOpen']
    exact .inr ⟨⟨_, rfl⟩, ⟨_, rfl⟩⟩
  | settled waiting =>
    simp only [step, notOpen, notOpen', notClose, notClose']
    refine .ite _ (fun _ => .inl ⟨_, _, rfl, rfl, .settled waiting⟩) fun _ => ?_
    refine .ite _ (fun _ => .inl ⟨_, _, rfl, rfl, .calling free waiting⟩) fun _ => ?_
    refine .ite _ (fun _ => .inl ⟨_, _, rfl, rfl, .settled waiting⟩) fun _ => ?_
    refine .ite _ (fun _ => ?_) fun _ => ?_
    · obtain ⟨written, left⟩ := waiting.yields valid s
      refine .inl ⟨_, _, rfl, ?_, .settled (.other free left)⟩
      simp only [stackOperator, written]
    · refine .ite _ (fun _ => nextArgument_alike valid waiting s) fun _ => ?_
      exact .inl ⟨_, _, rfl, rfl, .settled waiting⟩

/-- An opening bracket is open on both sides. -/
theorem step_opening_alike (valid : table.Valid) {state state' : State}
    (alike : Alike table state state' opened) (b : BracketPair table) :
    ∃ t t', step table none state b.opening = .ok t ∧
      step .round none state' Phrase.roundPair.opening = .ok t' ∧
      Alike table t t' (b.opener :: opened) := by
  cases alike with
  | settled waiting =>
    exact ⟨_, _, step_opening valid b none, step_opening Token.valid_round _ none,
      .settled (.bracket b 1 waiting)⟩
  | calling free waiting =>
    exact ⟨_, _, step_opening valid b _, step_opening Token.valid_round _ _,
      .settled (.call b 1 free waiting)⟩

/-- Two brackets are a pair of the table exactly when the second is the other half of the first. -/
theorem mem_pairs_iff (valid : table.Valid) (b b' : BracketPair table) :
    (b'.opener, b.closer) ∈ table.pairs ↔ b.closing = b'.closing := by
  constructor
  · intro listed
    have same := BracketPair.eq_of_opener_eq valid (b := ⟨b'.opener, b.closer, listed⟩) (c := b') rfl
    have closings := congrArg BracketPair.closing same
    exact closings
  · intro same
    have closers : [b.closer] = [b'.closer] := by
      rw [← BracketPair.toList_closing, ← BracketPair.toList_closing, same]
    rw [List.singleton_inj.1 closers]
    exact b'.listed

/-- A closing bracket closes on both sides, or on neither, when it is of the kind of the innermost
open bracket. When it is of another kind, the first step fails. -/
theorem step_closing_alike (valid : table.Valid) {state state' : State}
    (alike : Alike table state state' opened) (b : BracketPair table) :
    match opened with
    | [] => Together table (step table none state b.closing)
        (step .round none state' Phrase.roundPair.closing) []
    | o :: opened =>
      if (o, b.closer) ∈ table.pairs then
        Together table (step table none state b.closing)
          (step .round none state' Phrase.roundPair.closing) opened
      else ∃ cause, step table none state b.closing = .error cause := by
  cases alike with
  | calling free waiting =>
    have fails : ∀ {table : BracketTable} (valid : table.Valid) (b : BracketPair table)
        (state : State), state.pendingCall.isSome = true →
        ∃ cause, step table none state b.closing = .error cause := by
      rintro table valid b ⟨output, stack, groups, call⟩ pending
      obtain ⟨f, rfl⟩ := Option.isSome_iff_exists.1 pending
      simp only [step, Symbol.isOpen_closing valid b]
      exact ⟨_, rfl⟩
    have first := fun state pending => fails valid b state pending
    have second := fun state pending => fails Token.valid_round Phrase.roundPair state pending
    split
    · exact .inr ⟨first _ rfl, second _ rfl⟩
    · split
      · exact .inr ⟨first _ rfl, second _ rfl⟩
      · exact first _ rfl
  | settled waiting =>
    rw [step_closing valid, step_closing Token.valid_round]
    obtain ⟨written, left, first⟩ := waiting.innermost valid
    simp only [closeGroup, written]
    generalize (List.dropWhile (fun t => !Symbol.isOpen table t) _) = below at left first
    generalize (List.dropWhile (fun t => !Symbol.isOpen .round t) _) = below' at left
    have round := Symbol.closes_opening Token.valid_round Phrase.roundPair Phrase.roundPair.closing
    rw [decide_eq_true rfl] at round
    cases left with
    | nil => exact .inr ⟨⟨_, rfl⟩, ⟨_, rfl⟩⟩
    | other free _ => exact absurd free (first _ rfl)
    | bracket b' n below =>
      simp only [Symbol.closes_opening valid b', round, ← mem_pairs_iff valid]
      split
      · rename_i listed
        simp only [listed, decide_true]
        exact .inl ⟨_, _, rfl, rfl, .settled below⟩
      · rename_i other
        simp only [other, decide_false]
        exact ⟨_, rfl⟩
    | call b' n free below =>
      simp only [Symbol.closes_opening valid b', round, ← mem_pairs_iff valid]
      split
      · rename_i listed
        simp only [listed, decide_true]
        change Together table (if _ then _ else _) (if _ then _ else _) _
        exact .ite _ (fun _ => .inl ⟨_, _, rfl, rfl, .settled below⟩) fun _ =>
          .inr ⟨⟨_, rfl⟩, ⟨_, rfl⟩⟩
      · rename_i other
        simp only [other, decide_false]
        exact ⟨_, rfl⟩

end Step

/-! ### All symbols -/

/-- The characters of some symbols, one after the other. -/
def spelling (symbols : List Symbol) : List Char := symbols.flatMap fun s => s.text.toList

/-- A symbol keeps the states alike, or both conversions fail, or it closes a bracket of another
kind and the first conversion fails. -/
theorem step_recast (valid : table.Valid) {state state' : State} {opened : List Char}
    (alike : Alike table state state' opened) {s s' : Symbol} (recast : Symbol.Recast table s s') :
    (∃ opened', Together table (step table none state s) (step .round none state' s') opened' ∧
      ∀ rest, table.Agrees opened (s.text.toList ++ rest) ↔ table.Agrees opened' rest) ∨
    (∃ cause, step table none state s = .error cause) ∧
      ∀ rest, ¬ table.Agrees opened (s.text.toList ++ rest) := by
  cases recast with
  | other free =>
    exact .inl ⟨opened, step_unbracketed valid alike free,
      agrees_free valid fun c hc => (free c hc).1⟩
  | opening b =>
    refine .inl ⟨b.opener :: opened, .inl (step_opening_alike valid alike b), fun rest => ?_⟩
    rw [BracketPair.toList_opening]
    exact agrees_opener valid b opened rest
  | closing b =>
    have closed := step_closing_alike valid alike b
    simp only [BracketPair.toList_closing, List.singleton_append, agrees_closer valid]
    cases opened with
    | nil => exact .inl ⟨[], closed, fun _ => .rfl⟩
    | cons o opened =>
      by_cases listed : (o, b.closer) ∈ table.pairs
      · simp only [if_pos listed] at closed
        exact .inl ⟨opened, closed, fun rest => by simp [listed]⟩
      · simp only [if_neg listed] at closed
        exact .inr ⟨closed, fun rest => by simp [listed]⟩

/-- The first conversion takes all symbols exactly when the second does and every closer is of the
kind of its opener, and then the states are alike. -/
theorem foldlM_recast (valid : table.Valid) {symbols symbols' : List Symbol}
    (recast : List.Forall₂ (Symbol.Recast table) symbols symbols') {state state' : State}
    {opened : List Char} (alike : Alike table state state' opened) :
    (∀ t, symbols.foldlM (step table none) state = .ok t →
      table.Agrees opened (spelling symbols) ∧
        ∃ t' opened', symbols'.foldlM (step .round none) state' = .ok t' ∧
          Alike table t t' opened') ∧
      ∀ t', symbols'.foldlM (step .round none) state' = .ok t' →
        table.Agrees opened (spelling symbols) →
        ∃ t, symbols.foldlM (step table none) state = .ok t := by
  induction recast generalizing state state' opened with
  | nil =>
    refine ⟨fun t done => ?_, fun _ _ _ => ⟨_, rfl⟩⟩
    obtain rfl := Except.ok.inj done
    exact ⟨trivial, _, _, rfl, alike⟩
  | @cons s s' symbols symbols' first later ih =>
    simp only [List.foldlM_cons, spelling, List.flatMap_cons]
    rcases step_recast valid alike first with ⟨opened', together, agrees⟩ | ⟨⟨cause, fails⟩, disagrees⟩
    · rw [agrees]
      rcases together with ⟨t, t', took, took', still⟩ | ⟨⟨cause, fails⟩, cause', fails'⟩
      · rw [took, took']
        exact ih still
      · rw [fails, fails']
        refine ⟨fun t done => ?_, fun t done => ?_⟩
        · cases done
        · cases done
    · rw [fails]
      refine ⟨fun t done => ?_, fun t _ holds => absurd holds (disagrees _)⟩
      cases done

/-- The conversions end with the same symbols, or none of them does. -/
theorem finish_alike (valid : table.Valid) {state state' : State} {opened : List Char}
    (alike : Alike table state state' opened) (out : List Symbol) :
    finish table state = .ok out ↔ finish .round state' = .ok out := by
  cases alike with
  | calling free waiting =>
    simp only [finish, reduceCtorEq]
  | settled waiting =>
    simp only [finish]
    rcases waiting.find? valid with ⟨none, none', same⟩ | ⟨b, b', found, found'⟩
    · rw [none, none', same]
    · simp only [found, found', reduceCtorEq]

/-- Symbols with the brackets of a table have a postfix order exactly when they have it with round
brackets and every closer is of the kind of its opener. It is the same then. -/
theorem ofInfix_recast (valid : table.Valid) {symbols symbols' : List Symbol}
    (recast : List.Forall₂ (Symbol.Recast table) symbols symbols') (out : List Symbol) :
    ofInfix table none symbols = .ok out ↔
      ofInfix .round none symbols' = .ok out ∧ table.Agrees [] (spelling symbols) := by
  obtain ⟨forward, backward⟩ := foldlM_recast valid recast alike_start
  simp only [ofInfix, bind_eq_ok]
  constructor
  · rintro ⟨t, done, ended⟩
    obtain ⟨agrees, t', opened, done', alike⟩ := forward t done
    exact ⟨⟨t', done', (finish_alike valid alike out).1 ended⟩, agrees⟩
  · rintro ⟨⟨t', done', ended⟩, agrees⟩
    obtain ⟨t, done⟩ := backward t' done' agrees
    obtain ⟨-, t'', opened, done'', alike⟩ := forward t done
    obtain rfl := Except.ok.inj (done'.symm.trans done'')
    exact ⟨t, done, (finish_alike valid alike out).2 ended⟩

end Postfix

end SymbolicAlgebra
