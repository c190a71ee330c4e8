import FlexRecovery.Proofs.Containers
import FlexRecovery.Proofs.Siblings

/-!
Nesting by geometry. A host is larger than its guests, so the guests of guests form a forest over the siblings,
and settling it takes in every sibling exactly once.
-/

namespace FlexRecovery

namespace Box

theorem area_lt_of_strictlyContains {outer inner : Box} (h : outer.strictlyContains inner = true) :
    inner.area < outer.area := by
  simp only [strictlyContains, Bool.and_eq_true, decide_eq_true_eq] at h
  exact h.2

end Box

namespace Regroup

/-- Filters by conditions that exclude each other, next to each other. -/
theorem perm_filter_or {α : Type} (p q : α → Bool) (l : List α) (h : ∀ a ∈ l, p a = true → q a = false) :
    (l.filter p ++ l.filter q).Perm (l.filter fun a => p a || q a) := by
  have hnone : (l : Multiset α).filter (fun a => p a = true ∧ q a = true) = 0 := by
    apply Multiset.filter_eq_nil.2
    rintro a ha ⟨hp, hq⟩
    rw [h a ha hp] at hq
    cases hq
  have hsum := Multiset.filter_add_filter (fun a => p a = true) (fun a => q a = true) (l : Multiset α)
  rw [hnone, add_zero] at hsum
  simpa [Multiset.filter_coe, Bool.decide_or] using hsum

/-- What no two owners claim is claimed by some owner, or by none. -/
theorem perm_flatMap_filter {α β : Type} (owns : β → α → Bool) (bs : List β) (as : List α)
    (h : bs.Pairwise fun b c => ∀ a, owns b a = true → owns c a = false) :
    (bs.flatMap fun b => as.filter (owns b)).Perm (as.filter fun a => bs.any (owns · a)) := by
  induction bs with
  | nil => simp
  | cons b bs ih =>
    obtain ⟨hb, hbs⟩ := List.pairwise_cons.1 h
    rw [List.flatMap_cons]
    refine ((ih hbs).append_left _).trans (perm_filter_or _ _ as fun a _ ha => ?_)
    simpa using fun c hc => hb c hc a ha

variable {all : List Guest} {g h : Guest}

/-- What is true of the guests of some siblings. -/
structure Hosted (all : List Guest) : Prop where
  apart : (all.map Guest.position).Nodup
  inside : ∀ g ∈ all, ∀ p, g.host = some p → ∃ h ∈ all, h.position = p ∧ h.tree.box.strictlyContains g.tree.box = true

theorem hosted_guests (ts : List Tree) : Hosted (guests ts) := by
  constructor
  · have h : (guests ts).map Guest.position = List.range' 0 ts.length := by
      simp [guests, Function.comp_def, List.zipIdx_map_snd]
    rw [h]
    exact List.nodup_range'
  · intro g hg p hp
    obtain ⟨⟨t, i⟩, hti, rfl⟩ := List.mem_map.1 hg
    obtain ⟨c, hc, hs⟩ := Box.strictlyContains_bestContainer hp
    rw [List.getElem?_map, Option.map_eq_some_iff] at hc
    obtain ⟨u, hu, rfl⟩ := hc
    exact ⟨_, List.mem_map.2 ⟨(u, p), List.mem_zipIdx_iff_getElem?.2 (by simpa using hu), rfl⟩, rfl, hs⟩

theorem map_tree_guests (ts : List Tree) : (guests ts).map Guest.tree = ts := by
  simp [guests, Function.comp_def, List.zipIdx_map_fst]

/-- The guests that a sibling takes in. -/
def taken (all : List Guest) (g : Guest) : List Guest :=
  all.filter fun m => !takesNobody g.tree.node && m.host == some g.position

/-- A guest, its own guests, and theirs. -/
def household (all : List Guest) : Nat → Guest → List Guest
  | 0, g => [g]
  | budget + 1, g => g :: (taken all g).flatMap (household all budget)

theorem inside_of_mem_taken (hall : Hosted all) (hg : g ∈ all) (hm : h ∈ taken all g) :
    h ∈ all ∧ g.tree.box.strictlyContains h.tree.box = true := by
  simp only [taken, List.mem_filter, Bool.and_eq_true, beq_iff_eq] at hm
  obtain ⟨hm, -, hh⟩ := hm
  obtain ⟨g', hg', hp, hs⟩ := hall.inside h hm _ hh
  rw [List.inj_on_of_nodup_map hall.apart hg' hg hp] at hs
  exact ⟨hm, hs⟩

theorem area_lt_of_mem_taken (hall : Hosted all) (hg : g ∈ all) (hm : h ∈ taken all g) :
    h ∈ all ∧ h.tree.box.area < g.tree.box.area :=
  (inside_of_mem_taken hall hg hm).imp_right Box.area_lt_of_strictlyContains

/-- How many are smaller. -/
def rank (all : List Guest) (g : Guest) : Nat := all.countP fun m => decide (m.tree.box.area < g.tree.box.area)

theorem rank_lt_length (hg : g ∈ all) : rank all g < all.length :=
  List.countP_lt_length_iff.2 ⟨g, hg, by simp⟩

theorem rank_lt (hh : h ∈ all) (ha : h.tree.box.area < g.tree.box.area) : rank all h < rank all g := by
  let below := all.filter fun m => decide (m.tree.box.area < g.tree.box.area)
  have hb : rank below h < below.length := rank_lt_length (List.mem_filter.2 ⟨hh, by simpa using ha⟩)
  have hr : rank all h = rank below h := by
    unfold rank below
    rw [List.countP_filter]
    apply List.countP_congr
    intro m _
    simp only [Bool.and_eq_true, decide_eq_true_eq]
    omega
  have hl : rank all g = below.length := List.countP_eq_length_filter
  rw [hr, hl]
  exact hb

/-- The smallest ones take nobody in. -/
theorem taken_eq_nil (hall : Hosted all) (hg : g ∈ all) (hb : rank all g ≤ 0) : taken all g = [] := by
  apply List.eq_nil_iff_forall_not_mem.2
  intro m hm
  obtain ⟨hm, ha⟩ := area_lt_of_mem_taken hall hg hm
  have := rank_lt hm ha
  omega

section budget

variable {β : Type} {f : Nat → Guest → β} (combine : Guest → List β → β) (hall : Hosted all)
  (hzero : ∀ g, f 0 g = combine g []) (hsucc : ∀ b g, f (b + 1) g = combine g ((taken all g).map (f b)))
include hall hzero hsucc

/-- What is made of a guest and of those that it takes in: a budget that covers the smaller siblings is enough. -/
theorem stable_of_budget (b : Nat) (hg : g ∈ all) (hb : rank all g ≤ b) : f (b + 1) g = f b g := by
  induction b generalizing g with
  | zero => rw [hsucc, taken_eq_nil hall hg hb, List.map_nil, hzero]
  | succ b ih =>
    rw [hsucc, hsucc b]
    congr 1
    refine List.map_congr_left fun m hm => ?_
    obtain ⟨hm, ha⟩ := area_lt_of_mem_taken hall hg hm
    have := rank_lt hm ha
    exact ih hm (by omega)

theorem eq_of_budget (hg : g ∈ all) : f all.length g = combine g ((taken all g).map (f all.length)) := by
  rw [← hsucc, stable_of_budget combine hall hzero hsucc _ hg (rank_lt_length hg).le]

end budget

theorem household_eq (hall : Hosted all) (hg : g ∈ all) :
    household all all.length g = g :: (taken all g).flatMap (household all all.length) :=
  eq_of_budget (fun g l => g :: l.flatten) hall (fun _ => rfl) (fun _ _ => rfl) hg

/-- Some sibling takes it in. -/
def isTaken (all : List Guest) (m : Guest) : Bool :=
  all.any fun g => !takesNobody g.tree.node && m.host == some g.position

theorem perm_taken (hall : Hosted all) : (all.flatMap (taken all)).Perm (all.filter (isTaken all)) := by
  refine perm_flatMap_filter (fun g m => !takesNobody g.tree.node && m.host == some g.position) all all ?_
  refine (List.pairwise_map.1 hall.apart).imp fun hne m hm => ?_
  simp only [Bool.and_eq_true, beq_iff_eq] at hm
  have hne' : ¬m.host = some _ := fun h => hne (Option.some.inj (hm.2.symm.trans h))
  simp [hne']

/-- The households of those that nobody takes in make up all siblings. -/
theorem perm_households (hall : Hosted all) :
    ((all.filter fun g => !isTaken all g).flatMap (household all all.length)).Perm all := by
  have hsum : (all.flatMap (household all all.length)).Perm
      (all ++ (all.flatMap (taken all)).flatMap (household all all.length)) := by
    have key (gs : List Guest) (hgs : ∀ g ∈ gs, g ∈ all) : (gs.flatMap (household all all.length)).Perm
        (gs ++ (gs.flatMap (taken all)).flatMap (household all all.length)) := by
      induction gs with
      | nil => exact .refl _
      | cons g gs ih =>
        rw [List.flatMap_cons, household_eq hall (hgs g (by simp)), List.flatMap_cons, List.flatMap_append,
          List.cons_append, List.cons_append]
        apply List.Perm.cons g
        refine ((ih fun m hm => hgs m (List.mem_cons_of_mem _ hm)).append_left _).trans ?_
        exact List.perm_append_comm_assoc _ _ _
    exact key all fun g hg => hg
  have hsplit : (all.filter (isTaken all) ++ all.filter fun g => !isTaken all g).Perm all :=
    List.filter_append_perm _ _
  have h1 : (all.flatMap (household all all.length)).Perm
      ((all.filter (isTaken all)).flatMap (household all all.length) ++
        (all.filter fun g => !isTaken all g).flatMap (household all all.length)) := by
    rw [← List.flatMap_append]
    exact (hsplit.symm).flatMap_right _
  have h2 := hsum.trans (((perm_taken hall).flatMap_right (household all all.length)).append_left all)
  have h3 := (h1.symm.trans h2).trans List.perm_append_comm
  exact (List.perm_append_left_iff _).1 h3

section shifts

variable {n : Node} {a : List Tree} {k : Nat}

/-- Trees at the front are made one after another, each out of its own part. -/
theorem shifts_flatMap {α : Type} {part : α → List Tree} (made : α → Tree) (xs : List α)
    (h : ∀ x ∈ xs, ∀ f, Shifts (⟨n, part x ++ f, a⟩, k) (⟨n, made x :: f, a⟩, k)) (f : List Tree) :
    Shifts (⟨n, xs.flatMap part ++ f, a⟩, k) (⟨n, xs.map made ++ f, a⟩, k) := by
  induction xs generalizing f with
  | nil => exact .refl
  | cons x xs ih =>
    have hx := h x (by simp) (xs.flatMap part ++ f)
    have hxs := ih (fun y hy => h y (List.mem_cons_of_mem _ hy)) (made x :: f)
    rw [List.flatMap_cons, List.append_assoc]
    exact hx.trans (Shifts.between List.perm_middle.symm hxs List.perm_middle)

/-- A guest keeps its box, whoever it takes in. -/
theorem box_settled (all : List Guest) (b : Nat) (g : Guest) : (settled all b g).box = g.tree.box := by
  cases b with
  | zero => rfl
  | succ b =>
    unfold settled
    dsimp only
    split
    · rfl
    · exact box_hosting g.tree

theorem shifts_settled (hall : Hosted all) (b : Nat) (hg : g ∈ all) (f : List Tree) :
    Shifts (⟨n, (household all b g).map Guest.tree ++ f, a⟩, k) (⟨n, settled all b g :: f, a⟩, k) := by
  induction b generalizing g f with
  | zero => exact .refl
  | succ b ih =>
    have hown := shifts_flatMap (settled all b) (taken all g)
      (fun m hm => ih (inside_of_mem_taken hall hg hm).1) (g.tree :: f)
    rw [household, List.map_cons, List.map_flatMap]
    have hfront : Shifts (⟨n, g.tree :: (taken all g).flatMap (fun m => (household all b m).map Guest.tree) ++ f, a⟩, k)
        (⟨n, g.tree :: ((taken all g).map (settled all b) ++ f), a⟩, k) :=
      .between List.perm_middle.symm hown List.perm_middle
    apply hfront.trans
    unfold settled
    dsimp only
    cases ht : takesNobody g.tree.node with
    | true =>
      have hnil : taken all g = [] := by simp [taken, ht]
      rw [hnil, Bool.or_true, if_pos rfl]
      exact .refl
    | false =>
      have howns : taken all g = all.filter fun m => m.host == some g.position := by simp [taken, ht]
      have hinside : ∀ y ∈ (taken all g).map (settled all b), g.tree.box.contains y.box = true := by
        refine List.forall_mem_map.2 fun m hm => ?_
        rw [box_settled]
        exact Box.contains_of_strictlyContains (inside_of_mem_taken hall hg hm).2
      rw [← howns, Bool.or_false]
      split
      · next he =>
        rw [List.isEmpty_iff.1 he]
        exact .refl
      · exact .single (.host (Bool.or_eq_false_iff.1 ht).1 hinside _ _ _ _)

theorem shifts_detach (ys f : List Tree) : Shifts (⟨n, ys ++ f, a⟩, k) (⟨n, f, a ++ ys⟩, k) := by
  induction ys generalizing a with
  | nil =>
    rw [List.append_nil]
    exact .refl
  | cons y ys ih =>
    have h := ih (a := a ++ [y])
    rw [List.append_assoc] at h
    exact .head (.detach y n (ys ++ f) a k) h

end shifts

theorem hostOf_eq (hall : Hosted all) {p : Nat} (hg : g ∈ all) (hp : g.host = some p) :
    ∃ h ∈ all, h.position = p ∧ hostOf all g = some h := by
  obtain ⟨h, hh, rfl, -⟩ := hall.inside g hg p hp
  refine ⟨h, hh, rfl, ?_⟩
  rw [hostOf, hp]
  change all.find? (fun m => m.position == h.position) = some h
  cases hf : all.find? (fun m => m.position == h.position) with
  | none => simpa using List.find?_eq_none.1 hf h hh
  | some m =>
    have hm : m.position = h.position := by simpa using List.find?_some hf
    rw [List.inj_on_of_nodup_map hall.apart (List.mem_of_find?_eq_some hf) hh hm]

/-- Nobody takes in those without a host and those that their host turns away. -/
theorem isTaken_eq (hall : Hosted all) (hg : g ∈ all) : (!isTaken all g) = (g.host.isNone || isTurnedAway all g) := by
  cases hp : g.host with
  | none => simp [isTaken, hp]
  | some p =>
    obtain ⟨h, hh, rfl, ho⟩ := hostOf_eq hall hg hp
    have ht : isTaken all g = !takesNobody h.tree.node := by
      rw [Bool.eq_iff_iff, isTaken, List.any_eq_true]
      constructor
      · rintro ⟨m, hm, hc⟩
        simp only [hp, Bool.and_eq_true, beq_iff_eq, Option.some.injEq] at hc
        rw [← List.inj_on_of_nodup_map hall.apart hm hh hc.2.symm]
        exact hc.1
      · exact fun hc => ⟨h, hh, by simp [hp, hc]⟩
    rw [ht, isTurnedAway, ho]
    simp

theorem perm_untaken (hall : Hosted all) : (all.filter (·.host.isNone) ++ all.filter (isTurnedAway all)).Perm
    (all.filter fun g => !isTaken all g) := by
  refine (perm_filter_or _ _ all fun g _ hn => ?_).trans (List.Perm.of_eq ?_)
  · have hn : g.host = none := Option.isNone_iff_eq_none.1 hn
    simp [isTurnedAway, hostOf, hn]
  · exact List.filter_congr fun g hg => (isTaken_eq hall hg).symm

/-- The households of those that are turned away and of those that stay make up the siblings. -/
theorem perm_guests (ts : List Tree) : let all := guests ts
    ts.Perm ((all.filter (isTurnedAway all) ++ all.filter (·.host.isNone)).flatMap
      fun g => (household all all.length g).map Guest.tree) := by
  intro all
  have hall : Hosted all := hosted_guests ts
  rw [← List.map_flatMap]
  have h := ((List.perm_append_comm.trans (perm_untaken hall)).flatMap_right
    (household all all.length)).trans (perm_households hall)
  conv_lhs => rw [← map_tree_guests ts]
  exact (h.map Guest.tree).symm

theorem shifting_nestContained : Shifting nestContained := by
  intro t j
  obtain ⟨n, flow, attached⟩ := t
  let all := guests flow
  have hall : Hosted all := hosted_guests flow
  let settle := settled all all.length
  have hflow := perm_guests flow
  have hsettled := shifts_flatMap (n := n) (a := attached) (k := j.created) settle
    (all.filter (isTurnedAway all) ++ all.filter (·.host.isNone))
    (fun g hg => shifts_settled hall all.length
      ((List.mem_append.1 hg).elim List.mem_of_mem_filter List.mem_of_mem_filter)) []
  rw [List.append_nil, List.append_nil, List.map_append] at hsettled
  have hcreated : (nestContained ⟨n, flow, attached⟩ j).2.created = j.created :=
    Journaled.created_forM _ (fun g j => rfl) (all.filter (isTurnedAway all)) j
  rw [hcreated]
  exact .reorder hflow (hsettled.trans (shifts_detach _ _))

end Regroup

end FlexRecovery
