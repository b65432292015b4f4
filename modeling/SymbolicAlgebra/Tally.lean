/-
  Tallies
  =======
  How often each thing occurs in a list, where the question whether two things are
  the same is a given test. A tally lists its things in the order of their first
  occurrence and shows the occurrence that came first.
-/
namespace SymbolicAlgebra

/-- Things with the number of times each occurs. -/
abbrev Tally (β : Type) := List (β × Nat)

namespace Tally

variable {β : Type}

/-- How often a thing occurs. -/
def count (same : β → β → Bool) (x : β) (t : Tally β) : Nat :=
  ((t.find? fun entry => same entry.1 x).map (·.2)).getD 0

/-- One more occurrence of a thing. -/
def insert (same : β → β → Bool) (x : β) : Tally β → Tally β
  | [] => [(x, 1)]
  | entry :: t => if same entry.1 x then (entry.1, entry.2 + 1) :: t else entry :: insert same x t

/-- The tally of a list. -/
def ofList (same : β → β → Bool) (xs : List β) : Tally β :=
  xs.foldl (fun t x => insert same x t) []

/-- Every thing as often as in the tally that has more of it; the things of the first tally
come first. -/
def union (same : β → β → Bool) (s t : Tally β) : Tally β :=
  (s.map fun entry => (entry.1, max entry.2 (count same entry.1 t)))
    ++ t.filter fun entry => count same entry.1 s == 0

/-- The occurrences of the first tally beyond those of the second. -/
def excess (same : β → β → Bool) (s t : Tally β) : List β :=
  s.flatMap fun entry => List.replicate (entry.2 - count same entry.1 t) entry.1

/-- The list without the first thing that passes the test; none if nothing passes. -/
def takeOut? (test : β → Bool) : List β → Option (List β)
  | [] => none
  | x :: xs => if test x then some xs else (takeOut? test xs).map (x :: ·)

theorem perm_of_takeOut? {test : β → Bool} {xs rest : List β} (h : takeOut? test xs = some rest) :
    ∃ x, test x = true ∧ xs.Perm (x :: rest) := by
  induction xs generalizing rest with
  | nil => simp [takeOut?] at h
  | cons x xs ih =>
    rw [takeOut?] at h
    split at h
    · rename_i pass
      simp only [Option.some.injEq] at h
      exact ⟨x, pass, h ▸ List.Perm.refl _⟩
    · obtain ⟨shorter, found, rfl⟩ := Option.map_eq_some_iff.1 h
      obtain ⟨y, pass, same⟩ := ih found
      exact ⟨y, pass, (same.cons x).trans (List.Perm.swap y x shorter)⟩

end Tally

end SymbolicAlgebra
