import FlexRecovery.Proofs.Cleaning
import FlexRecovery.Proofs.Resolution

/-!
The trees that a document passes through on its way to a layout, whether or not a recovery stops before the
last of them.
-/

namespace FlexRecovery

open Node Tree Ledger

namespace Recovery

def drafted (o : Options) (d : Document) : Tree × Journal := Draft.ofPage o d {}

def regrouped (o : Options) (d : Document) : Tree × Journal :=
  Regroup.tree (cleaned o (drafted o d).1) (drafted o d).2

def resolved (o : Options) (d : Document) : Tree × Journal := Resolve.tree o (regrouped o d).1 (regrouped o d).2

/-- How many nodes the draft takes; later nodes are made on the way. -/
def draftSize (o : Options) (d : Document) : Nat := (drafted o d).2.created

/-- The tree of the stage that was asked for. -/
def staged (o : Options) (d : Document) : Tree :=
  match o.stage with
  | .draft => cleaned o (drafted o d).1
  | .regrouped => (regrouped o d).1
  | .resolved => (resolved o d).1

theorem passes_of_ok {f : Option Failure} {r : Recovery} {x : Except Failure Recovery}
    (h : (failing f >>= fun _ => x) = .ok r) : f = none ∧ x = .ok r := by
  cases f with
  | some f => cases h
  | none => exact ⟨rfl, h⟩

theorem tree_of_ok {o : Options} {d : Document} {r : Recovery} (h : ofDocument o d = .ok r) :
    r.tree = staged o d := by
  obtain ⟨-, h⟩ := passes_of_ok h
  unfold complete at h
  unfold staged
  cases hs : o.stage with
  | draft =>
    simp only [Options.reaches, hs, Stage.rank] at h
    cases h
    rfl
  | regrouped =>
    simp only [Options.reaches, hs, Stage.rank] at h
    obtain ⟨-, h⟩ := passes_of_ok h
    cases h
    rfl
  | resolved =>
    simp only [Options.reaches, hs, Stage.rank] at h
    obtain ⟨-, h⟩ := passes_of_ok h
    obtain ⟨-, h⟩ := passes_of_ok h
    obtain ⟨-, h⟩ := passes_of_ok h
    cases h
    rfl

variable (o : Options) (d : Document)

theorem sketch_drafted : Draft.Sketch d.page.inside 0 [(drafted o d).1] (draftSize o d) := Draft.sketch_ofPage o d {}

/-- The nodes of the draft, before any is dropped. -/
def opening : Ledger := ⟨(drafted o d).1.census, 0, draftSize o d⟩

theorem balanced_opening : (opening o d).Balanced := by
  have h := (sketch_drafted o d).numbered
  unfold Numbered at h
  rw [Multiset.range_zero, add_zero, censusAll_cons, censusAll_nil, add_zero] at h
  unfold Ledger.Balanced opening
  rw [tally_mk, h, Multiset.zero_bind, add_zero]

theorem raw_drafted : (drafted o d).1.Every (Draft.Raw (draftSize o d)) := (sketch_drafted o d).raw _ (by simp)

theorem sound_cleaned : (cleaned o (drafted o d).1).Every (Regroup.Sound (draftSize o d)) :=
  every_sound (raw_cleaned o (raw_drafted o d))

theorem within_regrouped : Regroup.Within (draftSize o d) (cleaned o (drafted o d).1) (draftSize o d)
    (regrouped o d).1 (regrouped o d).2.created :=
  Regroup.within_tree le_rfl (sound_cleaned o d)

theorem arranged_regrouped : Regroup.Arranged (draftSize o d) (regrouped o d).1 := (within_regrouped o d).arranged

theorem pending_regrouped : (regrouped o d).1.Every fun s => s.node.Pending := (within_regrouped o d).pending

/-- The page has its sizes from the draft. -/
theorem isSized_regrouped : (regrouped o d).1.node.IsSized :=
  (within_regrouped o d).sized ((alike_cleaned o (drafted o d).1).sized ⟨rfl, rfl⟩)

theorem resolved_resolved : Resolve.Resolved (draftSize o d) (regrouped o d).1 (regrouped o d).1.node
    (regrouped o d).2.created (resolved o d).1 (resolved o d).2.created :=
  Resolve.resolved_tree o (within_regrouped o d).turns.created_le

theorem turns_regrouped : Turns Kept (drafted o d).1.census (draftSize o d) (regrouped o d).1.census
    (regrouped o d).2.created :=
  (turns_cleaned o (drafted o d).1).trans (within_regrouped o d).turns

theorem steps_cleaned : ∃ g, Steps Kept (opening o d) ⟨(cleaned o (drafted o d).1).census, g, draftSize o d⟩ :=
  turns_cleaned o (drafted o d).1

theorem steps_resolved (g : Multiset Node) : Steps Later ⟨(regrouped o d).1.census, g, (regrouped o d).2.created⟩
    ⟨(resolved o d).1.census, g, (resolved o d).2.created⟩ := by
  have h := Steps.frame (resolved_resolved o d).grows 0 g
  simp only [add_zero, zero_add] at h
  rw [census_mk, ← census_eq] at h
  exact h

theorem steps_staged : ∃ g c, Steps Later (opening o d) ⟨(staged o d).census, g, c⟩ := by
  obtain ⟨g, hg⟩ := steps_cleaned o d
  obtain ⟨g', hg'⟩ := turns_regrouped o d
  unfold staged
  cases o.stage with
  | draft => exact ⟨g, _, Steps.later hg⟩
  | regrouped => exact ⟨g', _, Steps.later hg'⟩
  | resolved => exact ⟨g', _, (Steps.later hg').trans (steps_resolved o d g')⟩

end Recovery

end FlexRecovery
