/-
  The depth of brackets
  =====================
  A conversion with a limit runs like one without until that comes to an opening bracket
  while as many brackets are open as the limit allows. There it stops; in all other
  cases both have the same outcome, be it a list or a report (**`ofInfix_depth`**).

  The limit is compared with the number of groups, and there is one group for every
  bracket of the symbols read that has opened and not closed (`Stands.groups_length`).
-/
import SymbolicAlgebra.Proofs.Checked
import SymbolicAlgebra.Proofs.Grammar.Grouping

namespace SymbolicAlgebra.Postfix

variable {table : BracketTable} {read symbols : List Symbol} {state : State}

/-- Without a limit, the conversion comes to an opening bracket while `d` brackets are open. -/
def OpensAt (table : BracketTable) (d : Nat) (symbols : List Symbol) : Prop :=
  ∃ (before : List Symbol) (b : BracketPair table) (rest : List Symbol) (state : State),
    symbols = before ++ b.opening :: rest ∧ before.foldlM (step table none) .start = .ok state ∧
      before.countP (·.isOpen table) = before.countP (·.isClose table) + d

/-! ### Groups and open brackets -/

/-- There is one group for every open bracket. -/
theorem Stands.groups_length (valid : table.Valid) (stands : Stands table read state) :
    read.countP (·.isOpen table) = read.countP (·.isClose table) + state.groups.length := by
  obtain ⟨before, below, layers, rfl, -⟩ := stands.layers
  have announced := countP_caller valid stands.announced
  simp [List.countP_append, announced, layers.countP_isOpen valid]

/-- The number of groups grows at opening brackets only, by one. -/
theorem Stands.groups_length_step (valid : table.Valid) (stands : Stands table read state)
    {s : Symbol} {next : State} (follows : Stands table (read ++ [s]) next) :
    next.groups.length ≤ state.groups.length + if s.isOpen table then 1 else 0 := by
  have before := stands.groups_length valid
  have after := follows.groups_length valid
  simp only [List.countP_append, List.countP_singleton] at after
  omega

/-! ### One step with a limit -/

/-- An opening bracket that would be one too many stops the conversion. -/
theorem step_opening_limit (valid : table.Valid) (b : BracketPair table) {d : Nat}
    (full : d ≤ state.groups.length) :
    step table (some d) state b.opening = .error (.parse (.nestedTooDeep d b.opening.text)) := by
  have free := Symbol.unreserved_opening valid b
  simp [step, Symbol.isOpen_opening valid, free.isOperand, free.isFunction, free.isPostfix,
    free.isOperator, free.isSeparator, openGroup, full]

/-- All other steps are those without a limit. -/
theorem step_within_limit {s : Symbol} {d : Nat}
    (within : s.isOpen table = true → state.groups.length < d) :
    step table (some d) state s = step table none state s := by
  have opened : s.isOpen table = true →
      openGroup (some d) state s = openGroup none state s := by
    intro opens
    have room : ¬ d ≤ state.groups.length := Nat.not_le.2 (within opens)
    simp [openGroup, room]
  unfold step
  by_cases opens : s.isOpen table = true
  · simp only [opened opens]
  · simp [opens]

/-! ### The whole run -/

/-- A run without a limit stands in a state when it comes to some opening bracket. -/
def ComesToBracket (table : BracketTable) (state : State) (symbols : List Symbol)
    (reached : State) : Prop :=
  ∃ (before : List Symbol) (b : BracketPair table) (rest : List Symbol),
    symbols = before ++ b.opening :: rest ∧ before.foldlM (step table none) state = .ok reached

theorem comesToBracket_cons (valid : table.Valid) {s : Symbol} {reached : State} :
    ComesToBracket table state (s :: symbols) reached ↔
      (s.isOpen table = true ∧ reached = state) ∨
        ∃ next, step table none state s = .ok next ∧ ComesToBracket table next symbols reached := by
  constructor
  · rintro ⟨before, b, rest, split, run⟩
    cases before with
    | nil =>
      obtain ⟨rfl, -⟩ := List.cons.inj split
      exact .inl ⟨Symbol.isOpen_opening valid b, (Except.ok.inj run).symm⟩
    | cons t before =>
      obtain ⟨rfl, later⟩ := List.cons.inj split
      rw [List.foldlM_cons] at run
      obtain ⟨next, first, run⟩ := bind_eq_ok.1 run
      exact .inr ⟨next, first, before, b, rest, later, run⟩
  · rintro (⟨opens, rfl⟩ | ⟨next, first, before, b, rest, rfl, run⟩)
    · obtain ⟨b, rfl⟩ := (Symbol.isOpen_iff valid s).1 opens
      exact ⟨[], b, symbols, rfl, rfl⟩
    · refine ⟨s :: before, b, rest, rfl, ?_⟩
      rw [List.foldlM_cons, first]
      exact run

/-- From where no more brackets are open than the limit allows, a run stops at the first bracket
that is one too many. If the run without a limit comes to none, the limit changes nothing. -/
theorem Stands.run_limit (valid : table.Valid) (stands : Stands table read state)
    (known : ∀ s ∈ symbols, Symbol.Class table s) {d : Nat} (within : state.groups.length ≤ d) :
    (∃ reached bracket, ComesToBracket table state symbols reached ∧ reached.groups.length = d ∧
      symbols.foldlM (Postfix.step table (some d)) state =
        .error (.parse (.nestedTooDeep d bracket))) ∨
    ((∀ reached, ComesToBracket table state symbols reached → reached.groups.length < d) ∧
      symbols.foldlM (Postfix.step table (some d)) state =
        symbols.foldlM (Postfix.step table none) state) := by
  induction symbols generalizing read state with
  | nil =>
    refine .inr ⟨fun reached ⟨before, b, rest, split, _⟩ => ?_, rfl⟩
    simp at split
  | cons s symbols ih =>
    obtain ⟨first, later⟩ := List.forall_mem_cons.1 known
    simp only [comesToBracket_cons valid]
    by_cases full : s.isOpen table = true ∧ state.groups.length = d
    · obtain ⟨b, rfl⟩ := (Symbol.isOpen_iff valid s).1 full.1
      refine .inl ⟨state, b.opening.text, .inl ⟨full.1, rfl⟩, full.2, ?_⟩
      rw [List.foldlM_cons, step_opening_limit valid b full.2.ge]
      rfl
    have room : s.isOpen table = true → state.groups.length < d := by
      intro opens
      have differ : state.groups.length ≠ d := fun same => full ⟨opens, same⟩
      omega
    rw [List.foldlM_cons, List.foldlM_cons, step_within_limit room]
    rcases stands.step valid first with ⟨next, stepped, follows⟩ | ⟨e, failed, -⟩
    · have deep : next.groups.length ≤ d := by
        have grown := stands.groups_length_step valid follows
        split at grown
        · have left := room ‹_›
          omega
        · omega
      rw [stepped]
      rcases ih follows later deep with ⟨reached, bracket, comes, count, stops⟩ | ⟨shallow, same⟩
      · exact .inl ⟨reached, bracket, .inr ⟨next, rfl, comes⟩, count, stops⟩
      · refine .inr ⟨?_, same⟩
        rintro reached (⟨opens, rfl⟩ | ⟨_, found, comes⟩)
        · exact room opens
        · cases found
          exact shallow reached comes
    · rw [failed]
      refine .inr ⟨?_, rfl⟩
      rintro reached (⟨opens, rfl⟩ | ⟨_, found, -⟩)
      · exact room opens
      · cases found

/-- The number of open brackets tells where a limit stops the conversion. -/
theorem opensAt_iff (valid : table.Valid) (known : ∀ s ∈ symbols, Symbol.Class table s) {d : Nat} :
    OpensAt table d symbols ↔
      ∃ reached, ComesToBracket table .start symbols reached ∧ reached.groups.length = d := by
  have count : ∀ {before rest : List Symbol} {b : BracketPair table} {state : State},
      symbols = before ++ b.opening :: rest → before.foldlM (step table none) .start = .ok state →
      before.countP (·.isOpen table) = before.countP (·.isClose table) + state.groups.length := by
    rintro before rest b state rfl run
    rcases Stands.start.run valid fun s hs => known s (List.mem_append_left _ hs) with
      ⟨next, found, stands⟩ | ⟨e, failed, -⟩
    · obtain rfl := Except.ok.inj (run.symm.trans found)
      exact stands.groups_length valid
    · cases run.symm.trans failed
  constructor
  · rintro ⟨before, b, rest, state, split, run, opened⟩
    refine ⟨state, ⟨before, b, rest, split, run⟩, ?_⟩
    have counted := count split run
    omega
  · rintro ⟨state, ⟨before, b, rest, split, run⟩, rfl⟩
    exact ⟨before, b, rest, state, split, run, count split run⟩

/-- A limit stops the conversion at a bracket that it comes to, or it changes nothing. -/
theorem ofInfix_limit_cases (valid : table.Valid) (known : ∀ s ∈ symbols, Symbol.Class table s)
    (d : Nat) :
    (∃ reached bracket, ComesToBracket table .start symbols reached ∧ reached.groups.length = d ∧
      ofInfix table (some d) symbols = .error (.parse (.nestedTooDeep d bracket))) ∨
    ((∀ reached, ComesToBracket table .start symbols reached → reached.groups.length < d) ∧
      ofInfix table (some d) symbols = ofInfix table none symbols) := by
  unfold ofInfix
  rcases Stands.start.run_limit valid known (Nat.zero_le d) with
    ⟨reached, bracket, comes, count, stops⟩ | ⟨shallow, same⟩
  · rw [stops]
    exact .inl ⟨reached, bracket, comes, count, rfl⟩
  · rw [same]
    exact .inr ⟨shallow, rfl⟩

/-- A limit on the nesting of brackets stops the conversion exactly when that comes to an opening
bracket while as many brackets are open as the limit allows. In all other cases the outcome is
the one without a limit. So what a limit accepts, a larger one accepts as well. -/
theorem ofInfix_depth {settings : ParserSettings} (checked : settings.check = .ok settings)
    (known : ∀ s ∈ symbols, s.isValid settings.brackets = true) (d : Nat) :
    ((∃ e : ParseError, ofInfix settings.brackets (some d) symbols = .error (.parse e) ∧
        e.kind = "NestingDepthError") ↔ OpensAt settings.brackets d symbols) ∧
      (¬ OpensAt settings.brackets d symbols →
        ofInfix settings.brackets (some d) symbols = ofInfix settings.brackets none symbols) ∧
      ∀ e : Nat, d ≤ e → ∀ written, ofInfix settings.brackets (some d) symbols = .ok written →
        ofInfix settings.brackets (some e) symbols = .ok written := by
  have valid := BracketTable.valid_of_check checked
  have classes : ∀ s ∈ symbols, Symbol.Class settings.brackets s :=
    fun s hs => Symbol.class_of_isValid valid (known s hs)
  rw [opensAt_iff valid classes]
  rcases ofInfix_limit_cases valid classes d with
    ⟨reached, bracket, comes, count, stops⟩ | ⟨shallow, same⟩
  · refine ⟨⟨fun _ => ⟨reached, comes, count⟩, fun _ => ⟨_, stops, rfl⟩⟩, ?_, ?_⟩
    · intro never
      exact absurd ⟨reached, comes, count⟩ never
    · intro e _ written accepted
      cases stops.symm.trans accepted
  · have never : ¬ ∃ reached, ComesToBracket settings.brackets .start symbols reached ∧
        reached.groups.length = d := by
      rintro ⟨reached, comes, count⟩
      exact (shallow reached comes).ne count
    refine ⟨⟨?_, fun found => absurd found never⟩, fun _ => same, ?_⟩
    · rintro ⟨e, failed, kind⟩
      rw [same] at failed
      rcases ofInfix_grouped valid classes with ⟨written, done, -⟩ | ⟨e', reported, known⟩
      · cases done.symm.trans failed
      · cases reported.symm.trans failed
        rw [kind] at known
        exact absurd known (by decide)
    · intro e larger written accepted
      rcases ofInfix_limit_cases valid classes e with ⟨reached, bracket, comes, count, -⟩ | ⟨-, same'⟩
      · have few := shallow reached comes
        omega
      · rw [same', ← same, accepted]

/-- Two brackets within each other are one too many for the limit one, but not for two. -/
theorem ofInfix_depth_two :
    ({} : ParserSettings).check = .ok {} ∧
      (∀ s ∈ [⟨"("⟩, ⟨"("⟩, ⟨"x"⟩], Symbol.isValid .round s = true) ∧
      (∃ e : ParseError, ofInfix .round (some 1) [⟨"("⟩, ⟨"("⟩, ⟨"x"⟩] = .error (.parse e) ∧
        e.kind = "NestingDepthError") ∧
      ofInfix .round (some 2) [⟨"("⟩, ⟨"("⟩, ⟨"x"⟩] =
        ofInfix .round none [⟨"("⟩, ⟨"("⟩, ⟨"x"⟩] := by
  have checked : ({} : ParserSettings).check = .ok {} := by decide
  have known : ∀ s ∈ [⟨"("⟩, ⟨"("⟩, ⟨"x"⟩], Symbol.isValid .round s = true := by decide
  have opens : OpensAt .round 1 [⟨"("⟩, ⟨"("⟩, ⟨"x"⟩] :=
    ⟨[⟨"("⟩], ⟨'(', ')', by decide⟩, [⟨"x"⟩], ⟨[], [⟨"("⟩], [⟨none, 1⟩], none⟩, by decide, by decide,
      by decide⟩
  refine ⟨checked, known, (ofInfix_depth checked known 1).1.2 opens, ?_⟩
  refine (ofInfix_depth checked known 2).2.1 fun opens => ?_
  obtain ⟨e, stopped, kind⟩ := (ofInfix_depth checked known 2).1.2 opens
  have failed : ofInfix .round (some 2) [⟨"("⟩, ⟨"("⟩, ⟨"x"⟩] =
      .error (.parse (.unmatchedOpen "(")) := by decide
  cases failed.symm.trans stopped
  exact absurd kind (by decide)

end SymbolicAlgebra.Postfix
