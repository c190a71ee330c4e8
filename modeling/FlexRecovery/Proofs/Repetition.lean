import FlexRecovery.Proofs.Runs

/-!
The search for the run of a line is exact. It finds one if there is any, and of all runs of the line the longest, of
these one with the shortest period, and of these the first. All items and gaps that it looks up on the way are there.
-/

namespace FlexRecovery.Regroup.Run

open Tuning

variable {axis : Axis} {items : List Sibling} {r s : Run} {start period next i : Nat}

/-- Item `i` of a line and the next one are `g` pixels apart. -/
def Gap (axis : Axis) (items : List Sibling) (i : Nat) (g : Int) : Prop :=
  ∃ a b, items[i]? = some a ∧ items[i + 1]? = some b ∧ g = b.box.start axis - a.box.stop axis

/-- Item `j` of group `k` matches item `j` of the first group. -/
def Matches (axis : Axis) (items : List Sibling) (r : Run) (k j : Nat) : Prop :=
  ∃ a b, items[r.start + j]? = some a ∧ items[r.start + k * r.period + j]? = some b ∧ matching axis r.period a b = true

/-- Gap `i` is no overlap, and it is close to the one a period earlier if that lies in the run, too. -/
def Recurs (axis : Axis) (items : List Sibling) (r : Run) (i : Nat) : Prop :=
  ∃ g, Gap axis items i g ∧ -tolerance ≤ g ∧
    (r.start + r.period ≤ i → ∃ h, Gap axis items (i - r.period) h ∧ close g h = true)

/-- All groups match the first one, and all gaps recur from the one after the first group on. -/
structure Valid (axis : Axis) (items : List Sibling) (r : Run) : Prop where
  inside : r.start + r.period * r.groups ≤ items.length
  shapes : ∀ k j, 1 ≤ k → k < r.groups → j < r.period → Matches axis items r k j
  gaps : ∀ i, r.start + r.period ≤ i + 1 → i + 1 < r.start + r.period * r.groups → Recurs axis items r i

/-- A run that the search is for. -/
structure Repeats (axis : Axis) (items : List Sibling) (r : Run) : Prop where
  valid : r.Valid axis items
  period : 1 ≤ r.period ∧ r.period ≤ longestPeriod
  groups : 2 ≤ r.groups

/-- Has the shorter period, or the same one and starts earlier. -/
def Precedes (r s : Run) : Prop := r.period < s.period ∨ r.period = s.period ∧ r.start < s.start

/-- As long as any other, and it precedes those that are as long. -/
structure Best (axis : Axis) (items : List Sibling) (r : Run) : Prop where
  repeats : r.Repeats axis items
  first : ∀ s, Repeats axis items s → s.length < r.length ∨ s.length = r.length ∧ (s = r ∨ r.Precedes s)

/-! ### One group more -/

theorem getElem?_gaps_iff {g : Int} : (Box.gaps axis (items.map Sibling.box))[i]? = some g ↔ Gap axis items i g := by
  induction items generalizing i with
  | nil => simp [Box.gaps, Gap]
  | cons a items ih =>
    match items, i with
    | [], i => simp [Box.gaps, Gap]
    | b :: items, 0 => simp [Box.gaps, Gap, Sibling.box, eq_comm]
    | b :: items, i + 1 => exact ih

theorem gapFits_iff_recurs : gapFits (Box.gaps axis (items.map Sibling.box)) r.start r.period i = true ↔
    Recurs axis items r i := by
  simp only [gapFits_iff, getElem?_gaps_iff, Recurs, close_iff, tolerance]

theorem repeatsShapes_iff : repeatsShapes axis items r.start r.period next = true ↔
    ∀ j < r.period, Matches axis items r next j := by
  simp only [repeatsShapes, List.all_eq_true, List.mem_range]
  refine forall₂_congr fun j _ => ?_
  unfold Matches
  cases items[r.start + j]? <;> cases items[r.start + next * r.period + j]? <;> simp

/-- A group continues a run if it lies in the line, matches the first group, and the gaps before and within it recur. -/
theorem continues_iff : continues axis items (Box.gaps axis (items.map Sibling.box)) r.start r.period next = true ↔
    r.start + (next + 1) * r.period ≤ items.length ∧ (∀ j < r.period, Matches axis items r next j) ∧
      ∀ j < r.period, Recurs axis items r (r.start + next * r.period - 1 + j) := by
  simp only [continues, repeatsGaps, Bool.and_eq_true, decide_eq_true_eq, repeatsShapes_iff, List.all_eq_true,
    List.mem_range, gapFits_iff_recurs, and_assoc]

theorem valid_iff (hp : 1 ≤ r.period) (hg : 2 ≤ r.groups) : r.Valid axis items ↔ ∀ k, 1 ≤ k → k < r.groups →
    continues axis items (Box.gaps axis (items.map Sibling.box)) r.start r.period k = true := by
  simp only [continues_iff]
  constructor
  · intro h k h1 hk
    have hlast := group_le r.period hk
    have hfirst := Nat.mul_le_mul_right r.period h1
    have hin := h.inside
    refine ⟨by rw [Nat.succ_mul]; omega, fun j hj => h.shapes k j h1 hk hj, fun j hj => h.gaps _ ?_ ?_⟩ <;> omega
  · intro h
    refine ⟨?_, fun k j h1 hk => (h k h1 hk).2.1 j, fun i hfirst hlast => ?_⟩
    · have hin := (h (r.groups - 1) (by omega) (by omega)).1
      rwa [Nat.sub_add_cancel (by omega), Nat.mul_comm] at hin
    · obtain ⟨k, j, h1, hk, hj, hat⟩ := exists_group hp hfirst hlast
      have hrecurs := (h k h1 hk).2.2 j hj
      rwa [hat] at hrecurs

/-- The groups that continue a run are counted to the end. -/
theorem le_groups_longest (axis : Axis) {n : Nat} {gaps : List Int} (hn : n ≤ items.length)
    (h : ∀ k, 1 ≤ k → k ≤ n → continues axis items gaps start period k = true) :
    1 + n ≤ (longest axis items gaps period start).groups := by
  obtain ⟨m, hm⟩ := Nat.exists_eq_add_of_le hn
  have hall : ∀ k ∈ List.range' 1 n, continues axis items gaps start period k = true := by
    intro k hk
    have := List.mem_range'_1.1 hk
    exact h k this.1 (by omega)
  rw [longest, hm, ← List.range'_append_1, List.takeWhile_append_of_pos hall, List.length_append, List.length_range']
  exact Nat.add_le_add_left (Nat.le_add_right _ _) 1

/-- The run with the same start and period that goes on for as long as it can. -/
def extended (axis : Axis) (items : List Sibling) (r : Run) : Run :=
  longest axis items (Box.gaps axis (items.map Sibling.box)) r.period r.start

theorem Repeats.groups_le (h : r.Repeats axis items) : r.groups ≤ (r.extended axis items).groups := by
  have hcontinues := (valid_iff h.period.1 h.groups).1 h.valid
  have hgroups := h.groups
  have hle := Nat.mul_le_mul_right r.groups h.period.1
  have hin := h.valid.inside
  have := le_groups_longest axis (n := r.groups - 1) (by omega) fun k h1 hk => hcontinues k h1 (by omega)
  unfold extended
  omega

theorem Longest.repeats (h : r.Longest axis items) (hp : r.period ≤ longestPeriod) : r.Repeats axis items :=
  ⟨(valid_iff h.period h.groups).2 fun _ h1 hk => h.continues h1 hk, ⟨h.period, hp⟩, h.groups⟩

/-! ### The search -/

theorem mem_candidates : r ∈ candidates axis items ↔
    (1 ≤ r.period ∧ r.period ≤ longestPeriod) ∧ r.start < items.length ∧ r.extended axis items = r := by
  simp only [candidates, List.mem_flatMap, List.mem_map, List.mem_range, List.mem_range'_1, longestPeriod, extended]
  constructor
  · rintro ⟨period, hp, start, hs, rfl⟩
    exact ⟨⟨hp.1, by simp only [longest]; omega⟩, hs, rfl⟩
  · rintro ⟨hp, hs, he⟩
    exact ⟨r.period, by omega, r.start, hs, he⟩

theorem pairwise_candidates (axis : Axis) (items : List Sibling) : (candidates axis items).Pairwise Precedes := by
  unfold candidates
  rw [List.pairwise_flatMap]
  constructor
  · intro period _
    rw [List.pairwise_map]
    exact List.pairwise_lt_range.imp fun hlt => .inr ⟨rfl, hlt⟩
  · refine (List.pairwise_lt_range' 1).imp fun hlt x hx y hy => .inl ?_
    obtain ⟨_, -, rfl⟩ := List.mem_map.1 hx
    obtain ⟨_, -, rfl⟩ := List.mem_map.1 hy
    exact hlt

/-- Of candidates in order, the first of the longest ones that repeat something. -/
def Chosen (R : Run → Run → Prop) (cs : List Run) : Option Run → Prop
  | none => ∀ c ∈ cs, c.groups < 2
  | some r => r ∈ cs ∧ 2 ≤ r.groups ∧
      ∀ c ∈ cs, 2 ≤ c.groups → c.length < r.length ∨ c.length = r.length ∧ (c = r ∨ R r c)

variable {R : Run → Run → Prop} {cs : List Run} {best : Option Run} {c : Run}

theorem Chosen.better (h : Chosen R cs best) (hc : ∀ a ∈ cs, R a c) : Chosen R (cs ++ [c]) (better best c) := by
  unfold Run.better
  split
  · next hg =>
    match best, h with
    | none, h => exact List.forall_mem_append.2 ⟨h, List.forall_mem_singleton.2 hg⟩
    | some b, ⟨hmem, hgroups, hall⟩ =>
      refine ⟨List.mem_append_left _ hmem, hgroups, List.forall_mem_append.2 ⟨hall, List.forall_mem_singleton.2 ?_⟩⟩
      exact fun h => absurd hg (Nat.not_lt.2 h)
  · next hg =>
    have hg := Nat.not_lt.1 hg
    have hself : c ∈ cs ++ [c] := List.mem_append_right _ (List.mem_singleton_self c)
    match best, h with
    | none, h =>
      refine ⟨hself, hg, List.forall_mem_append.2 ⟨fun a ha h2 => absurd (h a ha) (Nat.not_lt.2 h2), ?_⟩⟩
      exact List.forall_mem_singleton.2 fun _ => .inr ⟨rfl, .inl rfl⟩
    | some b, ⟨hmem, hgroups, hall⟩ =>
      dsimp only
      split
      · next hlt =>
        refine ⟨hself, hg, List.forall_mem_append.2 ⟨fun a ha h2 => .inl ?_, ?_⟩⟩
        · rcases hall a ha h2 with h | h <;> omega
        · exact List.forall_mem_singleton.2 fun _ => .inr ⟨rfl, .inl rfl⟩
      · next hle =>
        refine ⟨List.mem_append_left _ hmem, hgroups, List.forall_mem_append.2 ⟨hall, ?_⟩⟩
        refine List.forall_mem_singleton.2 fun _ => ?_
        rcases Nat.lt_or_eq_of_le (Nat.not_lt.1 hle) with hlt | heq
        · exact .inl hlt
        · exact .inr ⟨heq, .inr (hc b hmem)⟩

theorem chosen_foldl (hcs : cs.Pairwise R) : Chosen R cs (cs.foldl Run.better none) := by
  induction cs using List.reverseRecOn with
  | nil => exact fun _ h => nomatch h
  | append_singleton cs c ih =>
    obtain ⟨hcs, -, hlast⟩ := List.pairwise_append.1 hcs
    rw [List.foldl_append]
    exact (ih hcs).better fun a ha => hlast a ha c (List.mem_singleton_self c)

theorem chosen_find (axis : Axis) (items : List Sibling) : Chosen Precedes (candidates axis items) (find axis items) :=
  chosen_foldl (pairwise_candidates axis items)

theorem Repeats.extended (h : r.Repeats axis items) : r.extended axis items ∈ candidates axis items := by
  have hgroups := h.groups
  have hle := Nat.mul_le_mul_right r.groups h.period.1
  have hin := h.valid.inside
  exact mem_candidates.2 ⟨h.period, by simp only [Run.extended, longest]; omega, rfl⟩

theorem best_of_find (h : find axis items = some r) : r.Best axis items := by
  have hchosen := chosen_find axis items
  rw [h] at hchosen
  obtain ⟨hmem, -, hall⟩ := hchosen
  refine ⟨(longest_of_find h).repeats (mem_candidates.1 hmem).1.2, fun s hs => ?_⟩
  have hle := hs.groups_le
  have hlen : s.length ≤ (s.extended axis items).length := Nat.mul_le_mul_left s.period hle
  rcases hall _ hs.extended (hs.groups.trans hle) with hlt | ⟨heq, hfirst⟩
  · exact .inl (by omega)
  · rcases Nat.lt_or_eq_of_le hlen with hlt | hsame
    · exact .inl (by omega)
    · -- as many groups, so the run goes on for as long as it can
      have hg : s.groups = (s.extended axis items).groups := Nat.eq_of_mul_eq_mul_left hs.period.1 hsame
      have he : s.extended axis items = s := by
        rw [← show (⟨s.start, s.period, (s.extended axis items).groups⟩ : Run) = s.extended axis items from rfl, ← hg]
      rw [he] at heq hfirst
      exact .inr ⟨heq, hfirst⟩

theorem find_eq_none_iff : find axis items = none ↔ ∀ r, ¬Repeats axis items r := by
  constructor
  · intro h r hr
    have hchosen := chosen_find axis items
    rw [h] at hchosen
    exact absurd (hr.groups.trans hr.groups_le) (Nat.not_le.2 (hchosen _ hr.extended))
  · intro h
    cases hf : find axis items with
    | none => rfl
    | some r => exact absurd (best_of_find hf).repeats (h r)

theorem Precedes.asymm (h : r.Precedes s) (h' : s.Precedes r) : False := by
  unfold Precedes at h h'
  omega

theorem Best.unique (h : r.Best axis items) (h' : s.Best axis items) : r = s := by
  rcases h.first s h'.repeats with hlt | ⟨-, rfl | hr⟩
  · rcases h'.first r h.repeats with h | h <;> omega
  · rfl
  · rcases h'.first r h.repeats with hlt | ⟨-, rfl | hs⟩
    · rcases h.first s h'.repeats with h | h <;> omega
    · rfl
    · exact (hr.asymm hs).elim

theorem find_eq_some_iff : find axis items = some r ↔ r.Best axis items := by
  refine ⟨best_of_find, fun h => ?_⟩
  cases hf : find axis items with
  | none => exact absurd h.repeats (find_eq_none_iff.1 hf r)
  | some s => rw [(best_of_find hf).unique h]

theorem Valid.length_le (h : r.Valid axis items) : r.length ≤ items.length :=
  Nat.le_trans (Nat.le_add_left _ _) h.inside

/-- A line that is one run of single items as a whole has no better one. -/
theorem Valid.best_whole (h : Valid axis items ⟨0, 1, items.length⟩) (hlen : 2 ≤ items.length) :
    Best axis items ⟨0, 1, items.length⟩ := by
  refine ⟨⟨h, ⟨le_rfl, (by decide : 1 ≤ longestPeriod)⟩, hlen⟩, fun s hs => ?_⟩
  obtain ⟨start, period, groups⟩ := s
  have hlong := hs.valid.length_le
  have hin := hs.valid.inside
  simp only [length, Precedes, Nat.one_mul] at hlong ⊢
  rcases Nat.lt_or_eq_of_le hlong with hlt | heq
  · exact .inl hlt
  · refine .inr ⟨heq, ?_⟩
    rcases Nat.lt_or_eq_of_le hs.period.1 with hlonger | rfl
    · exact .inr (.inl hlonger)
    · -- as long as the line with the same period, so it starts where the line does
      left
      dsimp only at hin
      rw [Nat.one_mul] at heq hin
      rw [mk.injEq]
      omega

/-! ### What is looked up -/

/-- The difference, if it is one. -/
def minus? (a b : Nat) : Option Nat := if b ≤ a then some (a - b) else none

/-- Whether a gap fits, without an answer if a gap that is looked up is not there. -/
def gapFits? (gaps : List Int) (start period i : Nat) : Option Bool := do
  let g ← gaps[i]?
  if decide (-tolerance ≤ g) && !decide (i < start + period) then
    let h ← gaps[← minus? i period]?
    return close g h
  else return decide (-tolerance ≤ g)

/-- Whether a group repeats the gaps, without an answer if one that is looked up is not there. -/
def repeatsGaps? (gaps : List Int) (start period next : Nat) : Option Bool :=
  (List.range period).allM fun j => do gapFits? gaps start period ((← minus? (start + next * period) 1) + j)

/-- Whether a group repeats the shapes, without an answer if an item that is looked up is not there. -/
def repeatsShapes? (axis : Axis) (items : List Sibling) (start period next : Nat) : Option Bool :=
  (List.range period).allM fun j => do
    return matching axis period (← items[start + j]?) (← items[start + next * period + j]?)

/-- Whether a group continues a run, without an answer if an item or a gap that is looked up is not there. -/
def continues? (axis : Axis) (items : List Sibling) (gaps : List Int) (start period next : Nat) : Option Bool :=
  if start + (next + 1) * period ≤ items.length then do
    return (← repeatsShapes? axis items start period next) && (← repeatsGaps? gaps start period next)
  else some false

theorem allM_eq_some {α : Type} {f : α → Option Bool} {p : α → Bool} {as : List α} (h : ∀ a ∈ as, f a = some (p a)) :
    as.allM f = some (as.all p) := by
  induction as with
  | nil => rfl
  | cons a as ih =>
    obtain ⟨ha, has⟩ := List.forall_mem_cons.1 h
    rw [List.allM, ha, List.all_cons]
    cases p a with
    | false => rfl
    | true => exact ih has

theorem exists_gap (axis : Axis) (h : i + 1 < items.length) : ∃ g, (Box.gaps axis (items.map Sibling.box))[i]? = some g :=
  ⟨_, getElem?_gaps_iff.2 ⟨items[i], items[i + 1], List.getElem?_eq_getElem _, List.getElem?_eq_getElem h, rfl⟩⟩

theorem gapFits?_eq (h : i + 1 < items.length) (hp : 1 ≤ period) :
    gapFits? (Box.gaps axis (items.map Sibling.box)) start period i =
      some (gapFits (Box.gaps axis (items.map Sibling.box)) start period i) := by
  obtain ⟨g, hg⟩ := exists_gap axis h
  unfold gapFits? gapFits
  rw [hg]
  by_cases hfirst : i < start + period
  · simp [hfirst]
  · obtain ⟨g', hg'⟩ := exists_gap axis (by omega : i - period + 1 < items.length)
    have hminus : minus? i period = some (i - period) := if_pos (by omega)
    by_cases hover : -tolerance ≤ g <;> simp [hfirst, hover, hminus, hg']

theorem continues?_eq (hp : 1 ≤ period) (hn : 1 ≤ next) :
    continues? axis items (Box.gaps axis (items.map Sibling.box)) start period next =
      some (continues axis items (Box.gaps axis (items.map Sibling.box)) start period next) := by
  unfold continues? continues
  split
  · next hin =>
    have hfirst := Nat.mul_le_mul_right period hn
    have hlast := hin
    rw [Nat.succ_mul] at hlast
    have shapes : repeatsShapes? axis items start period next = some (repeatsShapes axis items start period next) := by
      refine allM_eq_some fun j hj => ?_
      have hj := List.mem_range.1 hj
      rw [List.getElem?_eq_getElem (by omega : start + j < items.length),
        List.getElem?_eq_getElem (by omega : start + next * period + j < items.length)]
      rfl
    have even : repeatsGaps? (Box.gaps axis (items.map Sibling.box)) start period next =
        some (repeatsGaps (Box.gaps axis (items.map Sibling.box)) start period next) := by
      refine allM_eq_some fun j hj => ?_
      have hj := List.mem_range.1 hj
      rw [minus?, if_pos (by omega)]
      exact gapFits?_eq (by omega) hp
    rw [shapes, even, decide_eq_true hin]
    rfl
  · next hin => rw [decide_eq_false hin]; rfl

/-- The search finds a run exactly when one repeats a group, and then the best one. Whichever group it tries, the items
and the gaps that it looks up are there. -/
theorem find_exact (axis : Axis) (items : List Sibling) :
    (find axis items = none ↔ ∀ r, ¬Repeats axis items r) ∧
    (∀ r, find axis items = some r ↔ r.Best axis items) ∧
    ∀ start period next, 1 ≤ period → 1 ≤ next →
      continues? axis items (Box.gaps axis (items.map Sibling.box)) start period next =
        some (continues axis items (Box.gaps axis (items.map Sibling.box)) start period next) :=
  ⟨find_eq_none_iff, fun _ => find_eq_some_iff, fun _ _ _ => continues?_eq⟩

/-- A small box and a large one, three times over, and a last one that is too far away. -/
def alternating : List Sibling :=
  Sibling.list (Tree.sheet [⟨0, 0, 10, 10⟩, ⟨15, 0, 40, 20⟩, ⟨60, 0, 10, 10⟩, ⟨75, 0, 40, 20⟩, ⟨120, 0, 10, 10⟩,
    ⟨135, 0, 40, 20⟩, ⟨190, 0, 10, 10⟩]).flow

theorem find_exact_alternating : find .row alternating = some ⟨0, 2, 3⟩ ∧ Best .row alternating ⟨0, 2, 3⟩ ∧
    continues? .row alternating (Box.gaps .row (alternating.map Sibling.box)) 0 2 2 = some true := by
  have hfind : find .row alternating = some ⟨0, 2, 3⟩ := by decide +kernel
  have hlast : continues .row alternating (Box.gaps .row (alternating.map Sibling.box)) 0 2 2 = true := by
    decide +kernel
  obtain ⟨-, hbest, hread⟩ := find_exact .row alternating
  refine ⟨hfind, (hbest _).1 hfind, ?_⟩
  rw [hread 0 2 2 (by decide) (by decide), hlast]

end FlexRecovery.Regroup.Run
