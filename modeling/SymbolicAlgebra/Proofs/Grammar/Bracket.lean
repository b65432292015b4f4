/-
  Brackets of a checked table
  ===========================
  What `ParserSettings.check` is good for. A table that passes it is a list of pairs
  of characters that are all different and that no other token can start with, so
  the position arithmetic of `BracketTable` comes down to the pairs:

    * a symbol opens exactly when it is the first character of a pair
      (`isOpen_iff`), and closes exactly when it is the second (`isClose_iff`);
    * a symbol closes an opener exactly when the two are one pair
      (`closes_opening`);
    * a bracket is no operand, no function, no operator and no separator
      (`Symbol.not_bracket_of_reserved`).
-/
import SymbolicAlgebra.Infix.Parser

namespace SymbolicAlgebra

open SymbolicAlgebra.Text

/-! ### Checked tables -/

namespace BracketTable

/-- What the check of the settings asks of a table. -/
structure Valid (table : BracketTable) : Prop where
  even : table.length % 2 = 0
  distinct : ParserSettings.allDistinct table = true
  free : ∀ c ∈ table, ParserSettings.isReserved c = false

/-- The characters of a table by pairs. -/
def pairs : BracketTable → List (Char × Char)
  | o :: c :: rest => (o, c) :: pairs rest
  | _ => []

theorem valid_of_check {settings : ParserSettings} (h : settings.check = .ok settings) :
    Valid settings.brackets := by
  unfold ParserSettings.check at h
  simp only [] at h
  split at h
  · simp at h
  · rename_i paired
    split at h
    · simp at h
    · rename_i distinct
      split at h
      · simp at h
      · rename_i free
        simp only [Bool.or_eq_true, beq_iff_eq, not_or, Bool.not_eq_true] at paired
        refine ⟨by omega, by simpa using distinct, fun c hc => ?_⟩
        simpa using List.find?_eq_none.1 free c hc

theorem position?_cons (x c : Char) (table : BracketTable) :
    position? (x :: table) [c] = if c = x then some 0 else (position? table [c]).map (· + 1) := by
  unfold position?
  rw [List.length_cons, List.range_succ_eq_map, List.find?_cons]
  by_cases same : c = x
  · simp [same]
  · simp only [List.drop_zero, List.isPrefixOf_cons_cons, List.isPrefixOf_nil_left, Bool.and_true,
      beq_eq_false_iff_ne.2 same, if_neg same, List.find?_map]
    rfl

theorem position?_nil (c : Char) : position? [] [c] = none := by
  simp [position?]

theorem standsAt_cons_cons (o x c : Char) (rest : BracketTable) (parity : Nat) :
    standsAt (o :: x :: rest) parity [c] =
      if c = o then 0 == parity else if c = x then 1 == parity else standsAt rest parity [c] := by
  unfold standsAt
  rw [position?_cons, position?_cons]
  by_cases first : c = o
  · simp [first]
  · by_cases second : c = x
    · simp [← second, first]
    · cases position? rest [c] with
      | none => simp [first, second]
      | some i =>
        have parities : (i + 1 + 1) % 2 = i % 2 := by omega
        simp [first, second, parities]

/-- What stands in a table is a single character. -/
theorem eq_singleton_of_standsAt {table : BracketTable} {parity : Nat} {text : List Char}
    (stands : table.standsAt parity text = true) : ∃ c, text = [c] := by
  unfold standsAt at stands
  split at stands
  · exact ⟨_, rfl⟩
  · simp at stands

/-- The one position of a character in a table is not both odd and even. -/
theorem standsAt_zero_of_one {table : BracketTable} {text : List Char}
    (stands : table.standsAt 1 text = true) : table.standsAt 0 text = false := by
  obtain ⟨c, rfl⟩ := eq_singleton_of_standsAt stands
  unfold standsAt at *
  cases position : table.position? [c] with
  | none => rfl
  | some i =>
    rw [position] at stands
    have odd : i % 2 = 1 := by simpa using stands
    simp [odd]

/-- A table is a list of pairs followed by pairs. -/
theorem Valid.tail {o x : Char} {rest : BracketTable} (h : Valid (o :: x :: rest)) :
    Valid rest ∧ o ≠ x ∧ o ∉ rest ∧ x ∉ rest := by
  have distinct := h.distinct
  have even := h.even
  simp only [ParserSettings.allDistinct, Bool.and_eq_true, Bool.not_eq_true', List.length_cons,
    List.contains_eq_mem, List.mem_cons, decide_eq_false_iff_not, not_or] at distinct even
  exact ⟨⟨by omega, distinct.2.2, fun c hc => h.free c (by simp [hc])⟩, distinct.1.1,
    distinct.1.2, distinct.2.1⟩

/-- A checked table without a first pair is empty. -/
theorem Valid.eq_nil {table : BracketTable} (valid : Valid table)
    (short : ∀ o x rest, table = o :: x :: rest → False) : table = [] := by
  have even := valid.even
  match table, short with
  | [], _ => rfl
  | [_], _ => simp at even
  | o :: x :: rest, short => exact absurd rfl (short o x rest)

theorem mem_of_mem_pairs {o x : Char} {table : BracketTable} (h : (o, x) ∈ table.pairs) :
    o ∈ table ∧ x ∈ table := by
  induction table using pairs.induct with
  | case1 a b rest ih =>
    rw [pairs] at h
    rcases List.mem_cons.1 h with same | h
    · obtain ⟨rfl, rfl⟩ := Prod.mk.inj same
      simp
    · obtain ⟨left, right⟩ := ih h
      simp [left, right]
  | case2 table short => simp [pairs] at h

theorem standsAt_zero {table : BracketTable} (valid : Valid table) (c : Char) :
    standsAt table 0 [c] = true ↔ ∃ x, (c, x) ∈ table.pairs := by
  induction table using pairs.induct with
  | case1 o x rest ih =>
    obtain ⟨validRest, differ, oFresh, xFresh⟩ := valid.tail
    rw [standsAt_cons_cons, pairs]
    by_cases first : c = o
    · simp [first]
    · by_cases second : c = x
      · subst second
        simp only [if_true, List.mem_cons, Prod.mk.injEq, first, false_and, false_or]
        refine ⟨fun h => by simp at h, fun ⟨y, hy⟩ => absurd (mem_of_mem_pairs hy).1 xFresh⟩
      · simp [first, second, ih validRest]
  | case2 table short =>
    rw [valid.eq_nil short]
    simp [standsAt, position?_nil, pairs]

theorem standsAt_one {table : BracketTable} (valid : Valid table) (c : Char) :
    standsAt table 1 [c] = true ↔ ∃ o, (o, c) ∈ table.pairs := by
  induction table using pairs.induct with
  | case1 o x rest ih =>
    obtain ⟨validRest, differ, oFresh, xFresh⟩ := valid.tail
    rw [standsAt_cons_cons, pairs]
    by_cases first : c = o
    · subst first
      simp only [if_true, List.mem_cons, Prod.mk.injEq, differ, and_false, false_or]
      refine ⟨fun h => by simp at h, fun ⟨y, hy⟩ => absurd (mem_of_mem_pairs hy).2 oFresh⟩
    · by_cases second : c = x
      · simp [second, Ne.symm differ]
      · simp [first, second, ih validRest]
  | case2 table short =>
    rw [valid.eq_nil short]
    simp [standsAt, position?_nil, pairs]

theorem follower?_of_mem_pairs {table : BracketTable} (valid : Valid table) {o x : Char}
    (h : (o, x) ∈ table.pairs) : table.follower? [o] = some x := by
  have found : ∃ i, position? table [o] = some i ∧ table[i + 1]? = some x := by
    induction table using pairs.induct with
    | case1 a b rest ih =>
      obtain ⟨validRest, differ, aFresh, bFresh⟩ := valid.tail
      rw [pairs] at h
      rw [position?_cons, position?_cons]
      rcases List.mem_cons.1 h with same | h
      · obtain ⟨rfl, rfl⟩ := Prod.mk.inj same
        exact ⟨0, by simp, by simp⟩
      · have inside := (mem_of_mem_pairs h).1
        have notFirst : o ≠ a := fun e => aFresh (e ▸ inside)
        have notSecond : o ≠ b := fun e => bFresh (e ▸ inside)
        obtain ⟨i, position, follower⟩ := ih validRest h
        exact ⟨i + 1 + 1, by simp [notFirst, notSecond, position], by simpa using follower⟩
    | case2 table short => simp [pairs] at h
  obtain ⟨i, position, follower⟩ := found
  simp [follower?, position, follower]

theorem openers_eq {table : BracketTable} (valid : Valid table) : table.openers = table.pairs.map Prod.fst := by
  induction table using pairs.induct with
  | case1 o x rest ih => rw [openers, pairs, ih valid.tail.1, List.map_cons]
  | case2 table short =>
    rw [valid.eq_nil short]
    rfl

theorem closers_eq {table : BracketTable} (valid : Valid table) : table.closers = table.pairs.map Prod.snd := by
  induction table using pairs.induct with
  | case1 o x rest ih =>
    have shifted : closers (o :: x :: rest) = x :: closers rest := by
      cases rest with
      | nil => rfl
      | cons p rest => rfl
    rw [shifted, pairs, ih valid.tail.1, List.map_cons]
  | case2 table short =>
    rw [valid.eq_nil short]
    rfl

theorem mem_of_mem_openers {table : BracketTable} {c : Char} (opens : c ∈ table.openers) : c ∈ table := by
  induction table using openers.induct with
  | case1 => exact opens
  | case2 d => exact opens
  | case3 d x rest ih =>
    rcases List.mem_cons.1 opens with rfl | later
    · simp
    · simp [ih later]

end BracketTable

/-! ### Brackets as symbols -/

theorem Symbol.eq_of_toList {s t : Symbol} (same : s.text.toList = t.text.toList) : s = t := by
  obtain ⟨text⟩ := s
  obtain ⟨text'⟩ := t
  rw [Symbol.mk.injEq, ← String.toList_inj]
  exact same

/-- A pair of the table. -/
structure BracketPair (table : BracketTable) where
  opener : Char
  closer : Char
  listed : (opener, closer) ∈ table.pairs

namespace BracketPair

variable {table : BracketTable}

/-- The opening bracket of the pair. -/
def opening (b : BracketPair table) : Symbol := ⟨String.singleton b.opener⟩

/-- The closing bracket of the pair. -/
def closing (b : BracketPair table) : Symbol := ⟨String.singleton b.closer⟩

@[simp] theorem toList_opening (b : BracketPair table) : b.opening.text.toList = [b.opener] := by
  simp [opening]

@[simp] theorem toList_closing (b : BracketPair table) : b.closing.text.toList = [b.closer] := by
  simp [closing]

theorem eq_of_opener_eq (valid : table.Valid) {b c : BracketPair table}
    (same : b.opener = c.opener) : b = c := by
  obtain ⟨o, x, hx⟩ := b
  obtain ⟨p, y, hy⟩ := c
  obtain rfl : o = p := same
  have follower := table.follower?_of_mem_pairs valid hx
  rw [table.follower?_of_mem_pairs valid hy] at follower
  obtain rfl := Option.some.inj follower
  rfl

theorem mem_openers (valid : table.Valid) {c : Char} :
    c ∈ table.openers ↔ ∃ b : BracketPair table, b.opener = c := by
  rw [BracketTable.openers_eq valid, List.mem_map]
  constructor
  · rintro ⟨p, listed, rfl⟩
    exact ⟨⟨p.1, p.2, listed⟩, rfl⟩
  · rintro ⟨b, rfl⟩
    exact ⟨_, b.listed, rfl⟩

theorem mem_closers (valid : table.Valid) {c : Char} :
    c ∈ table.closers ↔ ∃ b : BracketPair table, b.closer = c := by
  rw [BracketTable.closers_eq valid, List.mem_map]
  constructor
  · rintro ⟨p, listed, rfl⟩
    exact ⟨⟨p.1, p.2, listed⟩, rfl⟩
  · rintro ⟨b, rfl⟩
    exact ⟨_, b.listed, rfl⟩

/-- The first pair of the table that the symbol opens. -/
def ofOpening? (table : BracketTable) (s : Symbol) : Option (BracketPair table) :=
  (table.pairs.attach.find? fun p => s.text.toList == [p.1.1]).map fun p => ⟨p.1.1, p.1.2, p.2⟩

theorem ofOpening?_eq_some {s : Symbol} {b : BracketPair table}
    (found : ofOpening? table s = some b) : s = b.opening := by
  obtain ⟨p, hp, rfl⟩ := Option.map_eq_some_iff.1 found
  have first := List.find?_some hp
  rw [beq_iff_eq] at first
  exact Symbol.eq_of_toList (by rw [first, toList_opening])

theorem ofOpening?_opening (valid : table.Valid) (b : BracketPair table) :
    ofOpening? table b.opening = some b := by
  cases found : ofOpening? table b.opening with
  | some c =>
    have same : [b.opener] = [c.opener] := by
      rw [← toList_opening, ← toList_opening, ofOpening?_eq_some found]
    rw [eq_of_opener_eq valid (List.singleton_inj.1 same)]
  | none =>
    have missed := List.find?_eq_none.1 (Option.map_eq_none_iff.1 found)
      ⟨(b.opener, b.closer), b.listed⟩ (List.mem_attach _ _)
    simp at missed

end BracketPair

namespace Symbol

variable {table : BracketTable}

/-- A symbol opens exactly when it is the first character of a pair. -/
theorem isOpen_iff (valid : table.Valid) (s : Symbol) :
    s.isOpen table = true ↔ ∃ b : BracketPair table, s = b.opening := by
  constructor
  · intro opens
    obtain ⟨c, single⟩ := BracketTable.eq_singleton_of_standsAt opens
    rw [isOpen, single] at opens
    obtain ⟨x, hx⟩ := (BracketTable.standsAt_zero valid c).1 opens
    refine ⟨⟨c, x, hx⟩, ?_⟩
    exact eq_of_toList (by rw [single, BracketPair.toList_opening])
  · rintro ⟨b, rfl⟩
    rw [isOpen, BracketPair.toList_opening]
    exact (BracketTable.standsAt_zero valid b.opener).2 ⟨b.closer, b.listed⟩

/-- A symbol closes exactly when it is the second character of a pair. -/
theorem isClose_iff (valid : table.Valid) (s : Symbol) :
    s.isClose table = true ↔ ∃ b : BracketPair table, s = b.closing := by
  constructor
  · intro closes
    obtain ⟨c, single⟩ := BracketTable.eq_singleton_of_standsAt closes
    rw [isClose, single] at closes
    obtain ⟨o, ho⟩ := (BracketTable.standsAt_one valid c).1 closes
    refine ⟨⟨o, c, ho⟩, ?_⟩
    exact eq_of_toList (by rw [single, BracketPair.toList_closing])
  · rintro ⟨b, rfl⟩
    rw [isClose, BracketPair.toList_closing]
    exact (BracketTable.standsAt_one valid b.closer).2 ⟨b.opener, b.listed⟩

/-- A symbol closes an opener exactly when it is the other character of the pair. -/
theorem closes_opening (valid : table.Valid) (b : BracketPair table) (s : Symbol) :
    s.closes table b.opening = .ok (decide (s = b.closing)) := by
  have follower := table.follower?_of_mem_pairs valid b.listed
  have compared : (s.text.toList == [b.closer]) = decide (s = b.closing) := by
    rw [Bool.eq_iff_iff, beq_iff_eq, decide_eq_true_iff]
    exact ⟨fun same => eq_of_toList (same.trans b.toList_closing.symm), fun same => by simp [same]⟩
  rw [closes, BracketPair.toList_opening, follower]
  exact congrArg Except.ok compared

end Symbol

end SymbolicAlgebra
