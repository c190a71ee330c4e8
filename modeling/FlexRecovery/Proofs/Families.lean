import FlexRecovery.Proofs.Folding
import FlexRecovery.Proofs.Words

/-!
Tokens of one family set the same property of a node. Where a node folds into the one below it, its paint replaces
that of the lower one, so the upper background wins. Of the other families nothing is replaced: the tokens of both
layers stand side by side, and of several layers those of all of them.
-/

namespace FlexRecovery

def endsWith (stop text : String) : Bool := stop.toList.isSuffixOf text.toList

/-- A solid background, a uniform radius, the width of a border, a stacking level. -/
inductive Family where
  | background
  | radius
  | borderWidth
  | stacking
  deriving DecidableEq, Repr

namespace Family

def owns : Family → String → Bool
  | background, t => beginsWith "bg-[" t || t == "bg-transparent"
  | radius, t => beginsWith "rounded-[" t || t == "rounded-full"
  | borderWidth, t => beginsWith "border-[" t && endsWith "px]" t
  | stacking, t => beginsWith "z-[" t

/-- How all tokens of a family begin. -/
def stem : Family → String
  | background => "bg-"
  | radius => "rounded-"
  | borderWidth => "border-["
  | stacking => "z-["

variable {f : Family} {t : String}

theorem beginsWith_stem (h : f.owns t = true) : beginsWith f.stem t = true := by
  have shorter {s s' : String} (hs : s.toList <+: s'.toList) (h : beginsWith s' t = true) : beginsWith s t = true :=
    beginsWith_iff.2 (hs.trans (beginsWith_iff.1 h))
  cases f with
  | background =>
    rcases Bool.or_eq_true_iff.1 h with h | h
    · exact shorter (by decide) h
    · rw [beq_iff_eq.1 h]
      decide
  | radius =>
    rcases Bool.or_eq_true_iff.1 h with h | h
    · exact shorter (by decide) h
    · rw [beq_iff_eq.1 h]
      decide
  | borderWidth => exact (Bool.and_eq_true_iff.1 h).1
  | stacking => exact h

theorem apart_stem (hf : f ≠ background) :
    ∀ p ∈ paintPrefixes, beginsWith p f.stem = false ∧ beginsWith f.stem p = false := by
  cases f with
  | background => exact absurd rfl hf
  | radius => decide
  | borderWidth => decide
  | stacking => decide

/-- Of the four families, only the background is paint. -/
theorem isPaint_eq (h : f.owns t = true) : (paintPrefixes.any (beginsWith · t)) = decide (f = background) := by
  by_cases hf : f = background
  · subst hf
    exact List.any_eq_true.2 ⟨"bg-", by simp [paintPrefixes], beginsWith_stem h⟩
  · rw [decide_eq_false hf, List.any_eq_false]
    intro p hp hb
    obtain ⟨h1, h2⟩ := apart_stem hf p hp
    rcases beginsWith_or hb (beginsWith_stem h) with h | h
    · exact absurd (h1.symm.trans h) Bool.false_ne_true
    · exact absurd (h2.symm.trans h) Bool.false_ne_true

theorem ne_empty (h : f.owns t = true) : t ≠ "" := by
  rintro rfl
  cases f <;> exact absurd h (by decide)

end Family

/-- New tokens come after those that are there already. -/
theorem Classes.toList_pushAll (cs : Classes) {tokens : List String} (h : tokens.Nodup) :
    (cs.pushAll tokens).toList = cs.toList ++ tokens.filter fun t => decide (t ≠ "" ∧ t ∉ cs.toList) := by
  -- Since no token occurs twice, one that is pushed does not keep a later one from being new.
  induction tokens generalizing cs with
  | nil => exact (List.append_nil _).symm
  | cons a as ih =>
    obtain ⟨ha, has⟩ := List.nodup_cons.1 h
    rw [pushAll, List.foldl_cons, ← pushAll, ih _ has]
    by_cases hnew : a ≠ "" ∧ a ∉ cs.toList
    · have hpush : (cs.push a).toList = cs.toList ++ [a] := by
        rw [push, if_neg hnew.1, Distinct.toList_insert, if_neg hnew.2]
      rw [hpush, List.filter_cons_of_pos (by simpa using hnew), List.append_assoc, List.singleton_append]
      congr 2
      refine List.filter_congr fun t ht => ?_
      have hne : t ≠ a := fun he => ha (he ▸ ht)
      simp [hne]
    · have hpush : (cs.push a).toList = cs.toList := by
        unfold push
        split
        · rfl
        · next hne => rw [Distinct.toList_insert, if_pos (not_not.1 fun hmem => hnew ⟨hne, hmem⟩)]
      rw [hpush, List.filter_cons_of_neg (by simpa using hnew)]

namespace Node

/-- The tokens of one family. -/
def family (f : Family) (n : Node) : List String := n.classes.toList.filter f.owns

/-- At most one token of each family. -/
def Settles (n : Node) : Prop := ∀ f, (n.family f).length ≤ 1

/-- What is made of two layers has one token of each family again, that of the upper layer where it has one. -/
structure Overrides (lower upper : Node) : Prop where
  settles : (lower.absorb upper).Settles
  upper : ∀ f, upper.family f ≠ [] → (lower.absorb upper).family f = upper.family f

variable {lower upper n : Node} {f : Family} {t : String}

theorem nodup_family (f : Family) (n : Node) : (n.family f).Nodup := n.classes.nodup.filter _

theorem toList_bare (n : Node) :
    n.bare.classes.toList = n.classes.toList.filter fun t => !paintPrefixes.any (beginsWith · t) := by
  simp only [bare, paintPrefixes, List.foldl_cons, List.foldl_nil, Classes.erasePrefix, Distinct.filter,
    List.filter_filter, List.any_cons, List.any_nil, Bool.or_false, Bool.not_or]
  refine List.filter_congr fun t _ => ?_
  ac_rfl

/-- Without its background a node keeps the tokens of the other families. -/
theorem family_bare (f : Family) (n : Node) : n.bare.family f = if f = .background then [] else n.family f := by
  rw [family, toList_bare, List.filter_filter]
  split
  · next hf =>
    refine List.filter_eq_nil_iff.2 fun t _ => ?_
    rw [Bool.and_eq_true, Bool.not_eq_true']
    rintro ⟨ho, hp⟩
    rw [Family.isPaint_eq ho, hf] at hp
    cases hp
  · next hf =>
    refine List.filter_congr fun t _ => ?_
    cases ho : f.owns t with
    | false => rfl
    | true =>
      rw [Family.isPaint_eq ho, decide_eq_false hf]
      rfl

theorem family_background_of_not_paints (h : n.paints = false) : n.family .background = [] := by
  refine List.filter_eq_nil_iff.2 fun t ht ho => ?_
  have hp := List.any_eq_false.1 h t ht
  rw [Family.isPaint_eq ho] at hp
  exact hp rfl

/-- The tokens of the upper layer come after those that are left of the lower one. -/
theorem family_absorb (f : Family) (lower upper : Node) :
    let base := if upper.paints then lower.bare else lower
    (lower.absorb upper).family f =
      base.family f ++ (upper.family f).filter fun t => decide (t ∉ base.family f) := by
  intro base
  have hclasses : (lower.absorb upper).classes = base.classes.pushAll upper.classes.toList := rfl
  rw [family, hclasses, Classes.toList_pushAll _ upper.classes.nodup, List.filter_append, family, family,
    List.filter_filter, List.filter_filter]
  congr 1
  refine List.filter_congr fun t _ => ?_
  cases ho : f.owns t with
  | false => rw [Bool.false_and, Bool.and_false]
  | true => simp [Family.ne_empty ho, ho]

theorem family_absorb_background (lower upper : Node) :
    (lower.absorb upper).family .background = (if upper.paints then upper else lower).family .background := by
  rw [family_absorb]
  split
  · simp [family_bare]
  · next hp => rw [family_background_of_not_paints (Bool.eq_false_iff.2 hp), List.filter_nil, List.append_nil]

theorem family_absorb_other (hf : f ≠ .background) (lower upper : Node) : (lower.absorb upper).family f =
    lower.family f ++ (upper.family f).filter fun t => decide (t ∉ lower.family f) := by
  rw [family_absorb]
  split
  · rw [family_bare, if_neg hf]
  · rfl

theorem eq_nil_or_singleton {α : Type} {l : List α} (h : l.length ≤ 1) : l = [] ∨ ∃ a, l = [a] := by
  rcases Nat.le_one_iff_eq_zero_or_eq_one.1 h with h | h
  · exact .inl (List.length_eq_zero_iff.1 h)
  · exact .inr (List.length_eq_one_iff.1 h)

theorem eq_of_length_le_one {α : Type} {l : List α} (h : l.length ≤ 1) {a b : α} (ha : a ∈ l) (hb : b ∈ l) : a = b := by
  rcases eq_nil_or_singleton h with rfl | ⟨c, rfl⟩
  · cases ha
  · rw [List.mem_singleton.1 ha, List.mem_singleton.1 hb]

/-- Where two layers have no two different tokens of a family, one of them has all that are left. -/
theorem family_absorb_of_agree (hf : f ≠ .background) (hl : (lower.family f).length ≤ 1)
    (hu : (upper.family f).length ≤ 1) (h : ∀ s ∈ lower.family f, ∀ t ∈ upper.family f, s = t) :
    (lower.absorb upper).family f = if upper.family f = [] then lower.family f else upper.family f := by
  rw [family_absorb_other hf]
  split
  · next hnil => rw [hnil, List.filter_nil, List.append_nil]
  · next hne =>
    obtain ⟨t, ht⟩ := (eq_nil_or_singleton hu).resolve_left hne
    rcases eq_nil_or_singleton hl with hnil | ⟨s, hs⟩
    · simp [hnil]
    · obtain rfl := h s (by simp [hs]) t (by simp [ht])
      simp [hs, ht]

/-- The background is always that of the upper layer if that one paints. Of any other family the tokens of both layers
stay. So of two layers with at most one token of each family, the upper one overrides the lower one exactly if they
have no two different tokens of another family than the background. -/
theorem overrides_absorb (lower upper : Node) :
    (lower.absorb upper).family .background = (if upper.paints then upper else lower).family .background ∧
    (∀ f, f ≠ .background → (lower.absorb upper).family f =
      lower.family f ++ (upper.family f).filter fun t => decide (t ∉ lower.family f)) ∧
    (lower.Settles → upper.Settles → (Overrides lower upper ↔
      ∀ f, f ≠ .background → ∀ s ∈ lower.family f, ∀ t ∈ upper.family f, s = t)) := by
  refine ⟨family_absorb_background lower upper, fun f hf => family_absorb_other hf lower upper, fun hl hu => ?_⟩
  constructor
  · intro h f hf s hs t ht
    have hmem : s ∈ (lower.absorb upper).family f := by
      rw [family_absorb_other hf]
      exact List.mem_append_left _ hs
    rw [h.upper f (List.ne_nil_of_mem ht)] at hmem
    exact eq_of_length_le_one (hu f) hmem ht
  · intro h
    refine ⟨fun f => ?_, fun f hne => ?_⟩
    · by_cases hf : f = .background
      · rw [hf, family_absorb_background]
        split
        · exact hu _
        · exact hl _
      · rw [family_absorb_of_agree hf (hl f) (hu f) (h f hf)]
        split
        · exact hl f
        · exact hu f
    · by_cases hf : f = .background
      · rw [hf] at hne ⊢
        have hp : upper.paints = true := by
          by_contra hp
          exact hne (family_background_of_not_paints (Bool.eq_false_iff.2 hp))
        rw [family_absorb_background, if_pos hp]
      · rw [family_absorb_of_agree hf (hl f) (hu f) (h f hf), if_neg hne]

/-- Two layers with one radius each. -/
theorem two_radii : let lower : Node := { box := .zero, classes := Classes.pushAll {} ["rounded-[4px]"] }
    let upper : Node := { box := .zero, classes := Classes.pushAll {} ["rounded-[8px]"] }
    lower.Settles ∧ upper.Settles ∧ ¬Overrides lower upper := by
  intro lower upper
  refine ⟨fun f => ?_, fun f => ?_, fun h => ?_⟩
  · cases f <;> decide
  · cases f <;> decide
  · exact absurd (h.settles .radius) (by decide)

/-- Of layers that fold one after another into one node all tokens stay, but those of their backgrounds. -/
theorem mem_family_foldl (hf : f ≠ .background) (cs : List Tree) :
    t ∈ (cs.foldl (fun n c => n.absorb c.node) n).family f ↔ t ∈ n.family f ∨ ∃ c ∈ cs, t ∈ c.node.family f := by
  induction cs generalizing n with
  | nil => simp
  | cons c cs ih =>
    rw [List.foldl_cons, ih, family_absorb_other hf]
    by_cases hin : t ∈ n.family f <;> simp [hin]

end Node

/-- Where redundant children fold into their owner, it ends with at most one token of such a family exactly if the
layers had no two different ones. -/
theorem Regroup.piled_mergeRedundant (t : Tree) (j : Journal) {f : Family} (hf : f ≠ .background) :
    let layers := t.node :: (t.flow.flatMap (folds t.box)).map Tree.node
    ((mergeRedundant t j).1.1.node.family f).length ≤ 1 ↔
      ∀ n ∈ layers, ∀ m ∈ layers, ∀ s ∈ n.family f, ∀ u ∈ m.family f, s = u := by
  intro layers
  have hmem (s : String) : s ∈ (mergeRedundant t j).1.1.node.family f ↔ ∃ n ∈ layers, s ∈ n.family f := by
    rw [mergeRedundant_eq]
    simp [flattened, Node.mem_family_foldl hf, layers]
  constructor
  · intro h n hn m hm s hs u hu
    exact Node.eq_of_length_le_one h ((hmem s).2 ⟨n, hn, hs⟩) ((hmem u).2 ⟨m, hm, hu⟩)
  · intro h
    have hnodup := Node.nodup_family f (mergeRedundant t j).1.1.node
    generalize (mergeRedundant t j).1.1.node.family f = l at hmem hnodup
    rcases l with _ | ⟨a, _ | ⟨b, l⟩⟩
    · exact Nat.zero_le 1
    · exact le_rfl
    · obtain ⟨n, hn, ha⟩ := (hmem a).1 (by simp)
      obtain ⟨m, hm, hb⟩ := (hmem b).1 (by simp)
      have hab := h n hn m hm a ha b hb
      simp [hab] at hnodup

end FlexRecovery
