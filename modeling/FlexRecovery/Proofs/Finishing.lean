import FlexRecovery.Proofs.Styled
import Mathlib.Data.List.Forall2

/-!
A node is finished once its flow children are resolved: tokens are added to the owner and to each child, and
at most one spacer comes between them.
-/

namespace FlexRecovery

open Ledger

/-- What some nodes have become, when none was dropped. -/
def Grows (l : Multiset Node) (c : Nat) (l' : Multiset Node) (c' : Nat) : Prop :=
  Steps Node.Later ⟨l, 0, c⟩ ⟨l', 0, c'⟩

namespace Grows

variable {l l' m m' x : Multiset Node} {c c' c'' : Nat}

theorem refl (l : Multiset Node) (c : Nat) : Grows l c l c := Relation.ReflTransGen.refl

theorem trans (h : Grows l c m c') (h' : Grows m c' x c'') : Grows l c x c'' := Relation.ReflTransGen.trans h h'

theorem frame (h : Grows l c l' c') (x : Multiset Node) : Grows (l + x) c (l' + x) c' := by
  have hf := Steps.frame h x 0
  simp only [add_zero] at hf
  exact hf

theorem add (h : Grows l c l' c') (h' : Grows m c' m' c'') : Grows (l + m) c (l' + m') c'' := by
  have hf := h'.frame l'
  rw [add_comm m, add_comm m'] at hf
  exact (h.frame m).trans hf

/-- A node that stays over others that grow. -/
theorem below (h : Grows l c l' c') (n : Node) : Grows (n ::ₘ l) c (n ::ₘ l') c' := by
  have hf := h.frame {n}
  rw [add_comm, Multiset.singleton_add, add_comm, Multiset.singleton_add] at hf
  exact hf

theorem change {n n' : Node} (h : n.Later n') (l : Multiset Node) (c : Nat) : Grows (n ::ₘ l) c (n' ::ₘ l) c :=
  .single (.change h l 0 c)

theorem make {n : Node} (h : n.Made c) (l : Multiset Node) : Grows l c (n ::ₘ l) (c + 1) :=
  .single (.make h l 0)

theorem created_le (h : Grows l c l' c') : c ≤ c' := Steps.created_le h

/-- The root of a tree changes. -/
theorem node {t : Tree} {n : Node} (h : t.node.Later n) (c : Nat) :
    Grows t.census c (Tree.census ⟨n, t.flow, t.attached⟩) c := by
  rw [Tree.census_eq, Tree.census_mk]
  exact .change h _ _

end Grows

namespace Resolve

open Node Tree Regroup

variable {k : Nat}

/-- The same tree with a restyled root. -/
def Restyled (t u : Tree) : Prop := ∃ n, t.node.Styled none n ∧ u = ⟨n, t.flow, t.attached⟩

theorem restyled_mapNode {f : Node → Node} (hf : ∀ n, Styled none n (f n)) (t : Tree) : Restyled t (t.mapNode f) :=
  ⟨_, hf t.node, rfl⟩

theorem Restyled.refl (t : Tree) : Restyled t t := ⟨t.node, .refl _, by cases t; rfl⟩

theorem Restyled.trans {t u v : Tree} (h : Restyled t u) (h' : Restyled u v) : Restyled t v := by
  obtain ⟨n, hn, rfl⟩ := h
  obtain ⟨n', hn', rfl⟩ := h'
  exact ⟨n', hn.trans hn', rfl⟩

/-- A new leaf that takes up the space between two children. -/
structure Spacer (s : Node) (created : Nat) : Prop where
  made : s.Made created
  direction : s.direction = none
  role : s.hasRole .spacer = true
  sized : s.IsSized

theorem spacer_spacerNode (owner : Box) (axis : Axis) (index : Nat) (before after : Box) :
    Spacer (spacerNode owner axis index before after) index := by
  cases axis <;> exact ⟨⟨rfl, rfl, rfl, rfl⟩, rfl, rfl, rfl, rfl⟩

theorem Spacer.styled {s s' : Node} {c : Nat} (h : Spacer s c) (hs : Styled none s s') : Spacer s' c :=
  ⟨⟨hs.index.trans h.made.index, hs.id_eq.trans h.made.id, hs.tag.trans h.made.tag,
    hs.later.text.trans h.made.text⟩, hs.direction.trans h.direction, (hs.hasRole (by simp)).trans h.role,
    hs.isSized h.sized⟩

/-- Children with a restyled root each, and perhaps a spacer between them. -/
inductive Dressed : List Tree → Nat → List Tree → Nat → Prop where
  | plain {ts us} (h : List.Forall₂ Restyled ts us) (c) : Dressed ts c us c
  | spaced {ts us vs} (h : List.Forall₂ Restyled ts (us ++ vs)) (hu : us ≠ []) (hv : vs ≠ []) {s : Node} {c}
      (hs : Spacer s c) : Dressed ts c (us ++ ⟨s, [], []⟩ :: vs) (c + 1)

theorem restyled_map {f : Node → Node} (hf : ∀ n, Styled none n (f n)) (ts : List Tree) :
    List.Forall₂ Restyled ts (ts.map (mapNode f)) :=
  List.forall₂_map_right_iff.2 (List.forall₂_same.2 fun t _ => restyled_mapNode hf t)

theorem restyled_trans {ts us vs : List Tree} (h : List.Forall₂ Restyled ts us) (h' : List.Forall₂ Restyled us vs) :
    List.Forall₂ Restyled ts vs :=
  forall₂_trans h h' fun _ _ _ => Restyled.trans

theorem Dressed.of_restyled {ts us vs : List Tree} {c c' : Nat} (h : List.Forall₂ Restyled ts us)
    (h' : Dressed us c vs c') : Dressed ts c vs c' := by
  cases h' with
  | plain h' => exact .plain (restyled_trans h h') _
  | spaced h' hu hv hs => exact .spaced (restyled_trans h h') hu hv hs

theorem Dressed.map {f : Node → Node} (hf : ∀ n, Styled none n (f n)) {ts us : List Tree} {c c' : Nat}
    (h : Dressed ts c us c') : Dressed ts c (us.map (mapNode f)) c' := by
  cases h with
  | plain h => exact .plain (restyled_trans h (restyled_map hf _)) _
  | @spaced us vs h hu hv s c hs =>
    rw [List.map_append, List.map_cons]
    have hr := restyled_trans h (restyled_map hf (us ++ vs))
    rw [List.map_append] at hr
    exact .spaced hr (by simpa using hu) (by simpa using hv) (hs.styled (hf s))

/-- Each child gets tokens of its own. -/
theorem restyled_zip {α : Type} (tokens : α → List String) {as : List α} {ts : List Tree}
    (hl : as.length = ts.length) :
    List.Forall₂ Restyled ts ((as.zip ts).map fun (a, t) => t.mapNode (·.pushAll (tokens a))) := by
  induction ts generalizing as with
  | nil => simp
  | cons t ts ih =>
    cases as with
    | nil => cases hl
    | cons a as => exact .cons (restyled_mapNode (fun n => styled_pushAll n _) t) (ih (Nat.succ.inj hl))

theorem restyled_refl (ts : List Tree) : List.Forall₂ Restyled ts ts :=
  List.forall₂_same.2 fun t _ => .refl t

theorem restyled_alignChildren (n : Node) (flow : List Tree) :
    Styled none n (alignChildren n flow).1 ∧ List.Forall₂ Restyled flow (alignChildren n flow).2 := by
  unfold alignChildren
  split
  · exact ⟨.refl n, restyled_refl flow⟩
  · next direction _ =>
    split
    · exact ⟨.refl n, restyled_refl flow⟩
    · refine ⟨(styled_align n _).trans (styled_pushAll _ _), ?_⟩
      refine restyled_zip (fun ts : List CrossToken => ts.map (CrossToken.text direction.cross)) ?_
      simp [crossPlan]

theorem dressed_insertSpacer (owner : Box) (axis : Axis) (p : Nat) {ts us : List Tree}
    (h : List.Forall₂ Restyled ts us) (j : Journal) :
    Dressed ts j.created (insertSpacer owner axis p us j).1 (insertSpacer owner axis p us j).2.created := by
  unfold insertSpacer
  cases us[p]? with
  | none => exact .plain h _
  | some before =>
    cases ha : us[p + 1]? with
    | none => exact .plain h _
    | some after =>
      obtain ⟨hp, -⟩ := List.getElem?_eq_some_iff.1 ha
      have htake : us.take (p + 1) ≠ [] := by
        rw [ne_eq, ← List.length_eq_zero_iff, List.length_take]
        omega
      have hdrop : us.drop (p + 1) ≠ [] := by
        rw [ne_eq, ← List.length_eq_zero_iff, List.length_drop]
        omega
      rw [← List.take_append_drop (p + 1) us] at h
      exact .spaced h htake hdrop (spacer_spacerNode _ _ _ _ _)

theorem dressed_justifyChildren (n : Node) (flow : List Tree) (j : Journal) :
    Styled none n (justifyChildren n flow j).1.1 ∧
      Dressed flow j.created (justifyChildren n flow j).1.2 (justifyChildren n flow j).2.created := by
  unfold justifyChildren
  cases n.direction with
  | none => exact ⟨.refl n, .plain (restyled_refl flow) _⟩
  | some axis =>
    by_cases he : flow.isEmpty = true
    · simp only [he, if_true]
      exact ⟨.refl n, .plain (restyled_refl flow) _⟩
    · simp only [he]
      have hr := restyled_zip (fun ts : List MainToken => ts.map (MainToken.text axis))
        (show (mainPlan n axis (flow.map (·.node))).children.length = flow.length by simp [mainPlan])
      cases (mainPlan n axis (flow.map (·.node))).plan with
      | spacer p => exact ⟨styled_pushAll n _, dressed_insertSpacer n.box axis p hr j⟩
      | _ => exact ⟨styled_pushAll n _, .plain hr _⟩

/-- Size tokens and the button role come last. -/
theorem dressed_withSizes {n m : Node} (hn : Styled none n m) {flow us : List Tree} {c c' : Nat}
    (hf : Dressed flow c us c') :
    Styled none n (if isButton m (withSizes m us) then m.addRole .button else m) ∧
      Dressed flow c (withSizes m us) c' := by
  constructor
  · split
    · exact hn.trans (styled_button _)
    · exact hn
  · unfold withSizes
    split
    · exact hf
    · exact hf.map fun m => styled_pushAll m _

/-- The owner and its children, finished. A wrapping list keeps its own gaps. -/
theorem dressed_finish (n : Node) (flow : List Tree) (j : Journal) :
    Styled none n (finish n flow j).1.1 ∧ Dressed flow j.created (finish n flow j).1.2 (finish n flow j).2.created := by
  have hn : Styled none n (settleAuto n flow) := styled_settleAuto n flow
  unfold finish
  cases (settleAuto n flow).direction with
  | none => exact ⟨hn, .plain (restyled_refl flow) _⟩
  | some direction =>
    have hn := hn.trans (styled_pushAll _ ["flex", directionToken direction])
    by_cases h : ((settleAuto n flow).pushAll ["flex", directionToken direction]).hasRole .listWrap = true
    · simp only [h, if_true]
      exact dressed_withSizes hn (.plain (restyled_refl flow) _)
    · simp only [h]
      obtain ⟨ha, hf⟩ := restyled_alignChildren ((settleAuto n flow).pushAll ["flex", directionToken direction]) flow
      obtain ⟨hj, hf'⟩ := dressed_justifyChildren
        (alignChildren ((settleAuto n flow).pushAll ["flex", directionToken direction]) flow).1
        (alignChildren ((settleAuto n flow).pushAll ["flex", directionToken direction]) flow).2 j
      exact dressed_withSizes ((hn.trans ha).trans hj) (hf'.of_restyled hf)

end Resolve

end FlexRecovery
