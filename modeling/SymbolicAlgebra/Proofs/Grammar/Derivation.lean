/-
  Symbols and derivations
  =======================
  Reading the symbols of a phrase gives back the phrase (`Reading.phraseOf_symbols`),
  and a phrase that has been read derives the symbols it was read from; so symbols
  have at most one derivation (`Phrase.eq_of_symbols_eq`), and reading decides whether
  they have one (`Reading.phraseOf_eq_some`).

  Beside that stands the conversion to postfix order: on symbols each of which can
  stand at its turn it writes the postorder of the derivation, or reports a bracket
  or a number of arguments when there is none (`Reading.ofInfix_spec`).
-/
import SymbolicAlgebra.Proofs.Grammar.Reading

namespace SymbolicAlgebra

variable {table : BracketTable}

namespace Reading

/-- Takes symbols, one after the other. -/
def run (r : Reading table) (symbols : List Symbol) : Option (Reading table) :=
  symbols.foldlM take r

/-- The phrase that some symbols write. -/
def phraseOf (table : BracketTable) (symbols : List Symbol) : Option (Phrase table .sum) :=
  (run start symbols).bind phrase?

theorem run_cons (r : Reading table) (s : Symbol) (rest : List Symbol) :
    r.run (s :: rest) = (r.take s).bind fun r => r.run rest := by
  rw [run, List.foldlM_cons]
  rfl

theorem run_append (r : Reading table) (front back : List Symbol) :
    r.run (front ++ back) = (r.run front).bind fun r => r.run back := by
  rw [run, List.foldlM_append]
  rfl

/-- Whatever has been taken is among the symbols of the reading. -/
theorem run_symbols {r r' : Reading table} {symbols : List Symbol}
    (taken : r.run symbols = some r') : r'.symbols = r.symbols ++ symbols := by
  induction symbols generalizing r with
  | nil =>
    obtain rfl := Option.some.inj taken
    simp
  | cons s rest ih =>
    rw [run_cons, Option.bind_eq_some_iff] at taken
    obtain ⟨middle, first, next⟩ := taken
    rw [ih next, take_symbols first]
    simp

/-! ### Every phrase is read -/

/-- What reading a phrase comes to. A phrase of a level is read behind frames in which nothing
tighter waits; it leaves an operand and a frame that close to it. -/
def Reads : (level : Level) → Phrase table level → Prop
  | .primary, p => ∀ es f, run ⟨es, f, .expecting⟩ p.symbols = some ⟨es, f, .holding p⟩
  | .unary, p => ∀ es s d m ps n, ∃ n' x,
      run ⟨es, ⟨s, d, m, ps, n⟩, .expecting⟩ p.symbols =
        some ⟨es, ⟨s, d, m, ps, n'⟩, .holding x⟩ ∧
      Frame.closeUnary ⟨s, d, m, ps, n'⟩ x = p.negatedTimes n
  | .power, p => ∀ es s d m ps, ∃ ps' n x,
      run ⟨es, ⟨s, d, m, ps, 0⟩, .expecting⟩ p.symbols =
        some ⟨es, ⟨s, d, m, ps', n⟩, .holding x⟩ ∧
      Frame.closePower ⟨s, d, m, ps', n⟩ x = p.raisedBy ps
  | .product, p => ∀ es s d, ∃ m ps n x,
      run ⟨es, ⟨s, d, none, [], 0⟩, .expecting⟩ p.symbols =
        some ⟨es, ⟨s, d, m, ps, n⟩, .holding x⟩ ∧
      Frame.closeProduct ⟨s, d, m, ps, n⟩ x = p
  | .difference, p => ∀ es s, ∃ d m ps n x,
      run ⟨es, ⟨s, none, none, [], 0⟩, .expecting⟩ p.symbols =
        some ⟨es, ⟨s, d, m, ps, n⟩, .holding x⟩ ∧
      Frame.closeDifference ⟨s, d, m, ps, n⟩ x = p
  | .sum, p => ∀ es, ∃ f x,
      run ⟨es, .empty, .expecting⟩ p.symbols = some ⟨es, f, .holding x⟩ ∧ f.closeSum x = p

/-- Behind a phrase that has been read, the rest is read. -/
theorem run_of_reads {r r' : Reading table} {front back : List Symbol}
    (taken : r.run front = some r') : r.run (front ++ back) = r'.run back := by
  rw [run_append, taken]
  rfl

theorem run_of_take {r r' : Reading table} {s : Symbol} {back : List Symbol}
    (taken : r.take s = some r') : r.run (s :: back) = r'.run back := by
  rw [run_cons, taken]
  rfl

theorem reads (valid : table.Valid) {level : Level} (p : Phrase table level) : Reads level p := by
  induction p with
  | operand s known =>
    intro es f
    rw [Phrase.symbols, run_of_take (take_operand es f known)]
    rfl
  | factorial x ih =>
    intro es f
    rw [Phrase.symbols, run_of_reads (ih es f), run_of_take (take_bang es f x)]
    rfl
  | bracketed b x ih =>
    intro es f
    obtain ⟨g, y, inside, rfl⟩ := ih (.bracket b f :: es)
    have closing : take ⟨.bracket b f :: es, g, .holding y⟩ b.closing =
        some ⟨es, f, .holding (.bracketed b (g.closeSum y))⟩ := take_closes es g y valid rfl
    rw [Phrase.symbols, List.cons_append, run_of_take (take_opening es f valid b),
      run_of_reads inside, run_of_take closing]
    rfl
  | unaryCall s h named b x ih =>
    intro es f
    obtain ⟨g, y, inside, rfl⟩ := ih (.call ⟨s, _, named⟩ b [] f :: es)
    have closing : take ⟨.call ⟨s, _, named⟩ b [] f :: es, g, .holding y⟩ b.closing =
        some ⟨es, f, .holding (.unaryCall s h named b (g.closeSum y))⟩ :=
      take_closes es g y valid rfl
    rw [Phrase.symbols, List.cons_append, List.cons_append,
      run_of_take (take_function es f ⟨s, _, named⟩),
      run_of_take (take_callOpening es f valid ⟨s, _, named⟩ b), run_of_reads inside,
      run_of_take closing]
    rfl
  | binaryCall s h named b x y ihx ihy =>
    intro es f
    obtain ⟨g, z, left, rfl⟩ := ihx (.call ⟨s, _, named⟩ b [] f :: es)
    obtain ⟨k, w, right, rfl⟩ := ihy (.call ⟨s, _, named⟩ b [g.closeSum z] f :: es)
    have comma : take ⟨.call ⟨s, _, named⟩ b [] f :: es, g, .holding z⟩ .comma =
        some ⟨.call ⟨s, _, named⟩ b [g.closeSum z] f :: es, .empty, .expecting⟩ :=
      take_comma es g z _
    have closing : take ⟨.call ⟨s, _, named⟩ b [g.closeSum z] f :: es, k, .holding w⟩ b.closing =
        some ⟨es, f, .holding (.binaryCall s h named b (g.closeSum z) (k.closeSum w))⟩ :=
      take_closes es k w valid rfl
    rw [Phrase.symbols, List.cons_append, List.cons_append, List.cons_append, List.cons_append,
      List.append_assoc, run_of_take (take_function es f ⟨s, _, named⟩),
      run_of_take (take_callOpening es f valid ⟨s, _, named⟩ b), run_of_reads left,
      List.cons_append, run_of_take comma, run_of_reads right, run_of_take closing]
    rfl
  | ofPrimary x ih =>
    intro es s d m ps n
    exact ⟨n, x, ih es _, rfl⟩
  | negated x ih =>
    intro es s d m ps n
    obtain ⟨n', y, taken, closed⟩ := ih es s d m ps (n + 1)
    refine ⟨n', y, ?_, ?_⟩
    · rw [Phrase.symbols, run_of_take (take_negation es _)]
      exact taken
    · rw [closed]
      exact Phrase.negatedTimes_succ x n
  | ofUnary x ih =>
    intro es s d m ps
    obtain ⟨n, y, taken, closed⟩ := ih es s d m ps 0
    refine ⟨ps, n, y, taken, ?_⟩
    rw [Frame.closePower, closed]
    rfl
  | raised x y ihx ihy =>
    intro es s d m ps
    obtain ⟨n, z, base, closed⟩ := ihx es s d m ps 0
    obtain ⟨ps', n', w, exponent, raised⟩ := ihy es s d m (x :: ps)
    have attached : Frame.attach ⟨s, d, m, ps, n⟩ .power z = ⟨s, d, m, x :: ps, 0⟩ := by
      rw [Frame.attach, closed]
      rfl
    refine ⟨ps', n', w, ?_, raised⟩
    rw [Phrase.symbols, run_of_reads base, run_of_take (take_sign es _ z .power), attached]
    exact exponent
  | ofPower x ih =>
    intro es s d
    obtain ⟨ps, n, y, taken, closed⟩ := ih es s d none []
    refine ⟨none, ps, n, y, taken, ?_⟩
    rw [Frame.closeProduct, closed]
    rfl
  | scaled x g y ihx ihy =>
    intro es s d
    obtain ⟨m, ps, n, z, left, closed⟩ := ihx es s d
    obtain ⟨ps', n', w, right, raised⟩ := ihy es s d (some (x, g)) []
    have attached : Frame.attach ⟨s, d, m, ps, n⟩ (.product g) z =
        ⟨s, d, some (x, g), [], 0⟩ := by
      rw [Frame.attach, closed]
    refine ⟨some (x, g), ps', n', w, ?_, ?_⟩
    · rw [Phrase.symbols, run_of_reads left, run_of_take (take_sign es _ z (.product g)), attached]
      exact right
    · rw [Frame.closeProduct, raised]
      rfl
  | ofProduct x ih =>
    intro es s
    obtain ⟨m, ps, n, y, taken, closed⟩ := ih es s none
    refine ⟨none, m, ps, n, y, taken, ?_⟩
    rw [Frame.closeDifference, closed]
  | minus x y ihx ihy =>
    intro es s
    obtain ⟨d, m, ps, n, z, left, closed⟩ := ihx es s
    obtain ⟨m', ps', n', w, right, multiplied⟩ := ihy es s (some x)
    have attached : Frame.attach ⟨s, d, m, ps, n⟩ .minus z = ⟨s, some x, none, [], 0⟩ := by
      rw [Frame.attach, closed]
    refine ⟨some x, m', ps', n', w, ?_, ?_⟩
    · rw [Phrase.symbols, run_of_reads left, run_of_take (take_sign es _ z .minus), attached]
      exact right
    · rw [Frame.closeDifference, multiplied]
  | ofDifference x ih =>
    intro es
    obtain ⟨d, m, ps, n, y, taken, closed⟩ := ih es none
    refine ⟨_, y, taken, ?_⟩
    rw [Frame.closeSum, closed]
  | plus x y ihx ihy =>
    intro es
    obtain ⟨f, z, left, closed⟩ := ihx es
    obtain ⟨d, m, ps, n, w, right, subtracted⟩ := ihy es (some x)
    have attached : f.attach .plus z = ⟨some x, none, none, [], 0⟩ := by
      rw [Frame.attach, closed]
    refine ⟨⟨some x, d, m, ps, n⟩, w, ?_, ?_⟩
    · rw [Phrase.symbols, run_of_reads left, run_of_take (take_sign es f z .plus), attached]
      exact right
    · rw [Frame.closeSum, subtracted]

/-- The symbols of a phrase are read as that phrase. -/
theorem phraseOf_symbols (valid : table.Valid) (p : Phrase table .sum) :
    phraseOf table p.symbols = some p := by
  obtain ⟨f, x, taken, closed⟩ := reads valid p []
  rw [phraseOf, start, taken]
  exact congrArg some closed

/-- Symbols are read as a phrase exactly when it derives them. -/
theorem phraseOf_eq_some (valid : table.Valid) {symbols : List Symbol} {p : Phrase table .sum} :
    phraseOf table symbols = some p ↔ p.symbols = symbols := by
  constructor
  · intro found
    obtain ⟨⟨es, f, focus⟩, taken, ended⟩ := Option.bind_eq_some_iff.1 found
    have kept := run_symbols taken
    unfold phrase? at ended
    split at ended
    · rename_i x outside held
      obtain rfl := Option.some.inj ended
      obtain rfl : es = [] := outside
      obtain rfl : focus = .holding x := held
      rw [Frame.symbols_closeSum]
      exact kept
    · cases ended
  · rintro rfl
    exact phraseOf_symbols valid p

end Reading

/-- Symbols have at most one derivation. -/
theorem Phrase.eq_of_symbols_eq (valid : table.Valid) {p q : Phrase table .sum}
    (same : p.symbols = q.symbols) : p = q := by
  have read := Reading.phraseOf_symbols valid p
  rw [same, Reading.phraseOf_symbols valid q] at read
  exact (Option.some.inj read).symm

namespace Reading

open Postfix

/-! ### The conversion -/

/-- Where symbols alternate, a reading and the conversion both take them, or neither does. -/
theorem run_fits (valid : table.Valid) {r : Reading table} {t u : Turn} {symbols : List Symbol}
    (stands : r.At t) (fits : Alternating table t symbols u) :
    (∃ r', r.run symbols = some r' ∧ r'.At u ∧
        symbols.foldlM (step table none) r.state = .ok r'.state) ∨
      (r.run symbols = none ∧ MisfitReport (symbols.foldlM (step table none) r.state)) := by
  induction fits generalizing r with
  | nil t => exact .inl ⟨r, rfl, stands, rfl⟩
  | @cons t u v s rest first next ih =>
    rcases take_fits valid stands first with ⟨middle, taken, stands, stepped⟩ | ⟨missed, report⟩
    · rw [run_cons, taken, List.foldlM_cons, stepped]
      exact ih stands
    · refine .inr ⟨by rw [run_cons, missed]; rfl, ?_⟩
      obtain ⟨cause, stepped, kind⟩ := report
      refine ⟨cause, ?_, kind⟩
      rw [List.foldlM_cons, stepped]
      rfl

/-- The end of a conversion that has been read: it writes the phrase, or some bracket is open. -/
theorem finish_spec (valid : table.Valid) {r : Reading table} {u : Turn} (stands : r.At u)
    (ended : u = .argument ∨ u = .operator) :
    match r.phrase? with
    | some p => finish table r.state = .ok p.postorder
    | none => MisfitReport (finish table r.state) := by
  have unopened : ∀ f : Frame table, f.stack.find? (fun t => t.isOpen table) = none := by
    intro f
    refine List.find?_eq_none.2 fun t waits => ?_
    simp [Frame.isOpen_of_mem_stack valid waits]
  have opened : ∀ (e : Enclosure table) (es : List (Enclosure table)),
      ((e :: es).flatMap Enclosure.stack).find? (fun t => t.isOpen table) =
        some e.pair.opening := by
    intro e es
    simp [Enclosure.stack, Symbol.isOpen_opening valid e.pair]
  obtain ⟨es, f, focus⟩ := r
  rcases ended with rfl | rfl
  · obtain ⟨rfl, inside⟩ := stands
    cases es with
    | nil => exact absurd rfl inside
    | cons e es =>
      refine ⟨.unmatchedOpen e.pair.opening.text, ?_, .inl rfl⟩
      simp only [finish, state, Focus.pendingCall, Focus.stack, List.nil_append,
        List.find?_append, unopened, opened, Option.none_or]
  · obtain ⟨x, rfl⟩ := stands
    cases es with
    | nil =>
      simp only [phrase?, finish, state, Focus.pendingCall, Focus.stack, List.nil_append,
        List.flatMap_nil, List.append_nil, unopened]
      rw [Frame.postorder_closeSum]
      rfl
    | cons e es =>
      refine ⟨.unmatchedOpen e.pair.opening.text, ?_, .inl rfl⟩
      simp only [finish, state, Focus.pendingCall, Focus.stack, List.nil_append,
        List.find?_append, unopened, opened, Option.none_or]

/-- On alternating symbols the conversion writes the postorder of their derivation; it reports
a misfit when they have none. -/
theorem ofInfix_spec (valid : table.Valid) {symbols : List Symbol} {u : Turn}
    (fits : Alternating table .operand symbols u) (ended : u = .argument ∨ u = .operator) :
    match phraseOf table symbols with
    | some p => ofInfix table none symbols = .ok p.postorder
    | none => MisfitReport (ofInfix table none symbols) := by
  have beginning : (start : Reading table).state = .start := rfl
  have stands : (start : Reading table).At .operand := rfl
  rw [phraseOf]
  rcases run_fits valid stands fits with ⟨r, taken, stands, stepped⟩ | ⟨missed, report⟩
  · have spec := finish_spec valid stands ended
    rw [taken, ofInfix, ← beginning, stepped]
    exact spec
  · rw [missed]
    obtain ⟨cause, stepped, kind⟩ := report
    refine ⟨cause, ?_, kind⟩
    rw [ofInfix, ← beginning, stepped]
    rfl

end Reading

end SymbolicAlgebra
