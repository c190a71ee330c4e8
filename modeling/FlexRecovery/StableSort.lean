/-! Stable sorting by insertion. -/

namespace FlexRecovery

/-- In front of the first element that it may stand before. -/
def insertSorted (le : α → α → Bool) (a : α) : List α → List α
  | [] => [a]
  | b :: bs => if le a b then a :: b :: bs else b :: insertSorted le a bs

/-- Elements of equal rank keep their order. -/
def stableSort (le : α → α → Bool) : List α → List α
  | [] => []
  | a :: as => insertSorted le a (stableSort le as)

def sortByKey (key : α → Int) : List α → List α := stableSort fun a b => decide (key a ≤ key b)

theorem perm_insertSorted (le : α → α → Bool) (a : α) (as : List α) : (insertSorted le a as).Perm (a :: as) := by
  induction as with
  | nil => exact .refl _
  | cons b bs ih =>
    unfold insertSorted
    split
    · exact .refl _
    · exact (ih.cons b).trans (.swap a b bs)

theorem perm_stableSort (le : α → α → Bool) (as : List α) : (stableSort le as).Perm as := by
  induction as with
  | nil => exact .refl _
  | cons a as ih => exact (perm_insertSorted le a _).trans (ih.cons a)

theorem perm_sortByKey (key : α → Int) (as : List α) : (sortByKey key as).Perm as := perm_stableSort _ _

/-- What comes first ranks first, for a total and transitive order. -/
theorem pairwise_stableSort {le : α → α → Bool} (total : ∀ a b, le a b = true ∨ le b a = true)
    (trans : ∀ a b c, le a b = true → le b c = true → le a c = true) (as : List α) :
    (stableSort le as).Pairwise fun a b => le a b = true := by
  have step : ∀ (a : α) (bs : List α), bs.Pairwise (fun a b => le a b = true) →
      (insertSorted le a bs).Pairwise fun a b => le a b = true := by
    intro a bs
    induction bs with
    | nil => intro _; simp [insertSorted]
    | cons b bs ih =>
      intro h
      rw [List.pairwise_cons] at h
      unfold insertSorted
      split
      · next hab =>
        refine List.pairwise_cons.2 ⟨fun c hc => ?_, List.pairwise_cons.2 h⟩
        rcases List.mem_cons.1 hc with rfl | hc
        · exact hab
        · exact trans a b c hab (h.1 c hc)
      · next hab =>
        refine List.pairwise_cons.2 ⟨fun c hc => ?_, ih h.2⟩
        rcases List.mem_cons.1 ((perm_insertSorted le a bs).mem_iff.1 hc) with rfl | hc
        · exact (total b c).resolve_right hab
        · exact h.1 c hc
  induction as with
  | nil => exact .nil
  | cons a as ih => exact step a _ ih

theorem pairwise_sortByKey (key : α → Int) (as : List α) :
    (sortByKey key as).Pairwise fun a b => key a ≤ key b := by
  have h : (sortByKey key as).Pairwise fun a b => decide (key a ≤ key b) = true := by
    refine pairwise_stableSort (fun a b => ?_) (fun a b c hab hbc => ?_) as
    · rw [decide_eq_true_iff, decide_eq_true_iff]; omega
    · rw [decide_eq_true_iff] at *; omega
  exact h.imp fun hab => of_decide_eq_true hab

theorem insertSorted_of_forall {le : α → α → Bool} {a : α} {as : List α} (h : ∀ b ∈ as, le a b = true) :
    insertSorted le a as = a :: as := by
  cases as with
  | nil => rfl
  | cons b bs => simp [insertSorted, h b (List.mem_cons_self ..)]

theorem filter_insertSorted {le : α → α → Bool} (trans : ∀ a b c, le a b = true → le b c = true → le a c = true)
    (p : α → Bool) (a : α) {bs : List α} (h : bs.Pairwise fun a b => le a b = true) :
    (insertSorted le a bs).filter p = if p a then insertSorted le a (bs.filter p) else bs.filter p := by
  induction bs with
  | nil => cases ha : p a <;> simp [insertSorted, ha]
  | cons b bs ih =>
    obtain ⟨hb, hbs⟩ := List.pairwise_cons.1 h
    cases hab : le a b with
    | true =>
      -- `a` may stand before all the others, so also before those that are kept
      have all : ∀ c ∈ b :: bs, le a c = true := fun c hc => by
        rcases List.mem_cons.1 hc with rfl | hc
        · exact hab
        · exact trans a b c hab (hb c hc)
      rw [insertSorted_of_forall all, insertSorted_of_forall fun c hc => all c (List.mem_filter.1 hc).1,
        List.filter_cons]
    | false =>
      have step : insertSorted le a (b :: bs) = b :: insertSorted le a bs := by simp [insertSorted, hab]
      rw [step, List.filter_cons, ih hbs]
      cases ha : p a <;> cases hpb : p b <;> simp [insertSorted, hab, hpb]

/-- Sorting what is kept is keeping what is sorted. -/
theorem filter_stableSort {le : α → α → Bool} (total : ∀ a b, le a b = true ∨ le b a = true)
    (trans : ∀ a b c, le a b = true → le b c = true → le a c = true) (p : α → Bool) (as : List α) :
    (stableSort le as).filter p = stableSort le (as.filter p) := by
  induction as with
  | nil => rfl
  | cons a as ih =>
    rw [stableSort, filter_insertSorted trans p a (pairwise_stableSort total trans as), ih]
    cases ha : p a with
    | false => rw [List.filter_cons_of_neg (by simp [ha]), if_neg Bool.false_ne_true]
    | true =>
      rw [List.filter_cons_of_pos ha, if_pos rfl]
      rfl

theorem filter_sortByKey (key : α → Int) (p : α → Bool) (as : List α) :
    (sortByKey key as).filter p = sortByKey key (as.filter p) := by
  refine filter_stableSort (fun a b => ?_) (fun a b c hab hbc => ?_) p as
  · rw [decide_eq_true_iff, decide_eq_true_iff]; omega
  · rw [decide_eq_true_iff] at *; omega

theorem insertSorted_concat {le : α → α → Bool} {a b : α} (h : le a b = true) (as : List α) :
    insertSorted le a (as ++ [b]) = insertSorted le a as ++ [b] := by
  induction as with
  | nil => simp [insertSorted, h]
  | cons c as ih =>
    simp only [List.cons_append, insertSorted, ih]
    split <;> rfl

/-- The last one stays last if all others may stand before it. -/
theorem stableSort_concat {le : α → α → Bool} {as : List α} {b : α} (h : ∀ a ∈ as, le a b = true) :
    stableSort le (as ++ [b]) = stableSort le as ++ [b] := by
  induction as with
  | nil => rfl
  | cons a as ih =>
    rw [List.cons_append, stableSort, ih fun c hc => h c (List.mem_cons_of_mem _ hc),
      insertSorted_concat (h a (List.mem_cons_self ..))]
    rfl

theorem insertSorted_map {le : α → α → Bool} {le' : β → β → Bool} {g : α → β} {a : α} {as : List α}
    (h : ∀ b ∈ as, le' (g a) (g b) = le a b) : insertSorted le' (g a) (as.map g) = (insertSorted le a as).map g := by
  induction as with
  | nil => rfl
  | cons b bs ih =>
    rw [List.map_cons, insertSorted, insertSorted, h b (List.mem_cons_self ..),
      ih fun c hc => h c (List.mem_cons_of_mem _ hc)]
    split <;> rfl

/-- What does not change how elements rank does not change how they are sorted. -/
theorem stableSort_map {le : α → α → Bool} {le' : β → β → Bool} {g : α → β} {as : List α}
    (h : ∀ a ∈ as, ∀ b ∈ as, le' (g a) (g b) = le a b) : stableSort le' (as.map g) = (stableSort le as).map g := by
  induction as with
  | nil => rfl
  | cons a as ih =>
    rw [List.map_cons, stableSort, ih fun b hb c hc => h b (List.mem_cons_of_mem _ hb) c (List.mem_cons_of_mem _ hc)]
    refine insertSorted_map fun b hb => h a (List.mem_cons_self ..) b (List.mem_cons_of_mem _ ?_)
    exact (perm_stableSort le as).mem_iff.1 hb

theorem sortByKey_map {key : α → Int} {key' : β → Int} {g : α → β} {as : List α} (c : Int)
    (h : ∀ a ∈ as, key' (g a) = key a + c) : sortByKey key' (as.map g) = (sortByKey key as).map g := by
  refine stableSort_map fun a ha b hb => ?_
  rw [h a ha, h b hb, decide_eq_decide]
  omega

theorem sortByKey_concat {key : α → Int} {as : List α} {b : α} (h : ∀ a ∈ as, key a ≤ key b) :
    sortByKey key (as ++ [b]) = sortByKey key as ++ [b] :=
  stableSort_concat fun a ha => decide_eq_true (h a ha)

theorem stableSort_of_pairwise {le : α → α → Bool} {as : List α} (h : as.Pairwise fun a b => le a b = true) :
    stableSort le as = as := by
  induction as with
  | nil => rfl
  | cons a as ih =>
    obtain ⟨first, rest⟩ := List.pairwise_cons.1 h
    rw [stableSort, ih rest, insertSorted_of_forall first]

/-- Of two elements that do not tie, it does not matter which is inserted first. -/
theorem insertSorted_comm {le : α → α → Bool} (trans : ∀ a b c, le a b = true → le b c = true → le a c = true)
    {a b : α} (hab : le a b = true) (hba : le b a = false) (cs : List α) :
    insertSorted le a (insertSorted le b cs) = insertSorted le b (insertSorted le a cs) := by
  induction cs with
  | nil => simp [insertSorted, hab, hba]
  | cons c cs ih =>
    cases hbc : le b c with
    | true =>
      have hac := trans a b c hab hbc
      simp [insertSorted, hab, hba, hbc, hac]
    | false => cases hac : le a c <;> simp [insertSorted, hba, hbc, hac, ih]

/-- What ties for one order ties for another: inserting by that one before sorting is inserting after it. -/
theorem stableSort_insertSorted {le le' : α → α → Bool} (total : ∀ a b, le a b = true ∨ le b a = true)
    (trans : ∀ a b c, le a b = true → le b c = true → le a c = true)
    (tie : ∀ a b, le a b = true → le b a = true → le' a b = true) (a : α) (bs : List α) :
    stableSort le (insertSorted le' a bs) = insertSorted le a (stableSort le bs) := by
  induction bs with
  | nil => rfl
  | cons b bs ih =>
    cases hle : le' a b with
    | true => rw [insertSorted, if_pos hle, stableSort]
    | false =>
      rw [insertSorted, if_neg (by simp [hle]), stableSort, ih, stableSort]
      -- `a` passes `b` in the other order, so the two do not tie in this one
      cases hab : le a b with
      | true =>
        have hba : le b a = false := Bool.eq_false_iff.2 fun hba => by simp [tie a b hab hba] at hle
        exact (insertSorted_comm trans hab hba _).symm
      | false =>
        have hba : le b a = true := (total a b).resolve_left (by simp [hab])
        exact insertSorted_comm trans hba hab _

/-- Sorting by the other order first changes nothing. -/
theorem stableSort_stableSort {le le' : α → α → Bool} (total : ∀ a b, le a b = true ∨ le b a = true)
    (trans : ∀ a b c, le a b = true → le b c = true → le a c = true)
    (tie : ∀ a b, le a b = true → le b a = true → le' a b = true) (as : List α) :
    stableSort le (stableSort le' as) = stableSort le as := by
  induction as with
  | nil => rfl
  | cons a as ih => rw [stableSort, stableSort_insertSorted total trans tie, ih, stableSort]

end FlexRecovery
