/-
  Stable sorting
  ==============
  Insertion sort by a Boolean comparison. Each element is put behind the last one
  that it does not have to precede, so elements that do not compare keep their
  order. **`sorted_perm`**: nothing is lost or added; **`sorted_pairwise`**: when the
  comparison is a strict weak order on the elements, none stands behind one that it
  precedes; **`sorted_filter`**: elements that do not compare keep their order;
  **`sorted_eq_self`**: a list that is in order stays as it is.
-/
namespace SymbolicAlgebra.StableSort

variable {β : Type}

/-- Puts an element into a list that is sorted from its end. -/
def insert (before : β → β → Bool) (x : β) : List β → List β
  | [] => [x]
  | y :: ys => if before x y then y :: insert before x ys else x :: y :: ys

/-- The list in ascending order, equals in the order they came. -/
def sorted (before : β → β → Bool) (xs : List β) : List β :=
  (xs.foldl (fun ys x => insert before x ys) []).reverse

theorem insert_perm (before : β → β → Bool) (x : β) (ys : List β) :
    (insert before x ys).Perm (x :: ys) := by
  induction ys with
  | nil => exact List.Perm.refl _
  | cons y ys ih =>
    rw [insert]
    split
    · exact (ih.cons y).trans (List.Perm.swap x y ys)
    · exact List.Perm.refl _

theorem sorted_perm (before : β → β → Bool) (xs : List β) : (sorted before xs).Perm xs := by
  have folded : ∀ xs ys : List β,
      (xs.foldl (fun ys x => insert before x ys) ys).Perm (xs ++ ys) := by
    intro xs
    induction xs with
    | nil => exact fun ys => List.Perm.refl _
    | cons x xs ih =>
      intro ys
      refine (ih (insert before x ys)).trans ?_
      exact ((insert_perm before x ys).append_left xs).trans List.perm_middle
  exact (List.reverse_perm _).trans (by simpa using folded xs [])

section Order

variable {before : β → β → Bool} {P : β → Prop}
  (asymmetric : ∀ x y, P x → P y → before x y = true → before y x = false)
  (negative : ∀ x y z, P x → P y → P z → before x y = false → before y z = false →
    before x z = false)

include asymmetric negative

theorem insert_pairwise {x : β} {ys : List β} (hx : P x) (hys : ∀ y ∈ ys, P y)
    (h : ys.Pairwise fun y z => before y z = false) :
    (insert before x ys).Pairwise fun y z => before y z = false := by
  induction ys with
  | nil => simp [insert]
  | cons y ys ih =>
    obtain ⟨first, rest⟩ := List.pairwise_cons.1 h
    have hy := hys y List.mem_cons_self
    have others : ∀ z ∈ ys, P z := fun z hz => hys z (List.mem_cons_of_mem y hz)
    rw [insert]
    split
    · rename_i precedes
      refine List.pairwise_cons.2 ⟨fun z hz => ?_, ih others rest⟩
      rcases List.mem_cons.1 ((insert_perm before x ys).mem_iff.1 hz) with rfl | hz
      · exact asymmetric _ _ hx hy precedes
      · exact first z hz
    · rename_i stays
      simp only [Bool.not_eq_true] at stays
      refine List.pairwise_cons.2 ⟨fun z hz => ?_, h⟩
      rcases List.mem_cons.1 hz with rfl | hz
      · exact stays
      · exact negative _ _ _ hx hy (others z hz) stays (first z hz)

theorem sorted_pairwise {xs : List β} (hxs : ∀ x ∈ xs, P x) :
    (sorted before xs).Pairwise fun y z => before z y = false := by
  have folded : ∀ xs ys : List β, (∀ x ∈ xs, P x) → (∀ y ∈ ys, P y) →
      ys.Pairwise (fun y z => before y z = false) →
      (xs.foldl (fun ys x => insert before x ys) ys).Pairwise fun y z => before y z = false := by
    intro xs
    induction xs with
    | nil => exact fun ys _ _ h => h
    | cons x xs ih =>
      intro ys hxs hys h
      obtain ⟨hx, others⟩ := List.forall_mem_cons.1 hxs
      refine ih _ others (fun y hy => ?_) (insert_pairwise asymmetric negative hx hys h)
      rcases List.mem_cons.1 ((insert_perm before x ys).mem_iff.1 hy) with rfl | hy
      · exact hx
      · exact hys y hy
  exact List.pairwise_reverse.2 (folded xs [] hxs (List.forall_mem_nil _) List.Pairwise.nil)

end Order

section Stability

variable {before : β → β → Bool} {p : β → Bool}

theorem insert_filter {x : β} {ys : List β}
    (level : p x = true → ∀ y ∈ ys, p y = true → before x y = false) :
    (insert before x ys).filter p = (x :: ys).filter p := by
  induction ys with
  | nil => rfl
  | cons y ys ih =>
    have rest := ih fun hx z hz => level hx z (List.mem_cons_of_mem y hz)
    rw [insert]
    split
    · rename_i precedes
      cases hx : p x with
      | false =>
        have dropped : ∀ zs : List β, (x :: zs).filter p = zs.filter p :=
          fun zs => List.filter_cons_of_neg (by simp [hx])
        rw [dropped, List.filter_cons, List.filter_cons, rest, dropped]
      | true =>
        have other : ¬ p y = true := by
          intro hy
          rw [level hx y List.mem_cons_self hy] at precedes
          cases precedes
        rw [List.filter_cons_of_neg other, rest, List.filter_cons_of_pos hx,
          List.filter_cons_of_pos hx, List.filter_cons_of_neg other]
    · rfl

/-- Elements none of which has to precede another keep their order. -/
theorem sorted_filter {xs : List β}
    (level : ∀ x ∈ xs, ∀ y ∈ xs, p x = true → p y = true → before x y = false) :
    (sorted before xs).filter p = xs.filter p := by
  have folded : ∀ zs ys : List β, (∀ z ∈ zs, z ∈ xs) → (∀ y ∈ ys, y ∈ xs) →
      (zs.foldl (fun ys x => insert before x ys) ys).filter p = (zs.reverse ++ ys).filter p := by
    intro zs
    induction zs with
    | nil => exact fun ys _ _ => rfl
    | cons z zs ih =>
      intro ys hzs hys
      obtain ⟨hz, others⟩ := List.forall_mem_cons.1 hzs
      have inserted : ∀ y ∈ insert before z ys, y ∈ xs := by
        intro y hy
        rcases List.mem_cons.1 ((insert_perm before z ys).mem_iff.1 hy) with rfl | hy
        · exact hz
        · exact hys y hy
      rw [List.foldl_cons, ih _ others inserted, List.filter_append,
        insert_filter fun hp y hy hq => level z hz y (hys y hy) hp hq, ← List.filter_append,
        List.reverse_cons, List.append_assoc, List.singleton_append]
  rw [sorted, List.filter_reverse, folded xs [] (fun _ h => h) (List.forall_mem_nil _),
    List.append_nil, List.filter_reverse, List.reverse_reverse]

end Stability

theorem sorted_eq_self {before : β → β → Bool} {xs : List β}
    (h : xs.Pairwise fun y z => before z y = false) : sorted before xs = xs := by
  have folded : ∀ xs ys : List β, (ys.reverse ++ xs).Pairwise (fun y z => before z y = false) →
      xs.foldl (fun ys x => insert before x ys) ys = xs.reverse ++ ys := by
    intro xs
    induction xs with
    | nil => exact fun ys _ => rfl
    | cons x xs ih =>
      intro ys ordered
      have last : insert before x ys = x :: ys := by
        cases ys with
        | nil => rfl
        | cons y ys =>
          have behind := (List.pairwise_append.1 ordered).2.2 y (by simp) x List.mem_cons_self
          rw [insert, behind, if_neg (by simp)]
      rw [List.foldl_cons, last, ih (x :: ys) (by simpa using ordered)]
      simp
  rw [sorted, folded xs [] (by simpa using h)]
  simp

end SymbolicAlgebra.StableSort
