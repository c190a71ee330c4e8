import FlexRecovery.Proofs.Census
import FlexRecovery.Regroup

/-!
What may become of a node. The operations on a single node are compared here once: which of its parts they
keep, and which roles they add.
-/

namespace FlexRecovery

/-- A role that does not decide how a node is laid out. -/
def Role.isMark : Role → Bool
  | divider | border | listItem | button => true
  | _ => false

namespace Node

/-- What may become of a node that stays in the tree. Only a node without a layer may get another box, and
only an image may turn into a view. -/
structure Later (n n' : Node) : Prop where
  id : n'.id = n.id
  index : n'.index = n.index
  text : n'.text = n.text
  multiLine : n'.multiLine = n.multiLine
  lineHeight : n'.lineHeight = n.lineHeight
  classes : n.classes.toList <+: n'.classes.toList
  tag : n'.tag = n.tag ∨ n.tag = .image ∧ n'.tag = .view
  style : n.tag ≠ .image → n'.style = n.style
  box : n.id.isSome → n'.box = n.box

theorem Later.refl (n : Node) : Later n n :=
  ⟨rfl, rfl, rfl, rfl, rfl, List.prefix_refl _, .inl rfl, fun _ => rfl, fun _ => rfl⟩

theorem Later.trans {a b c : Node} (h : Later a b) (h' : Later b c) : Later a c where
  id := h'.id.trans h.id
  index := h'.index.trans h.index
  text := h'.text.trans h.text
  multiLine := h'.multiLine.trans h.multiLine
  lineHeight := h'.lineHeight.trans h.lineHeight
  classes := h.classes.trans h'.classes
  tag := by
    rcases h.tag with ht | ⟨ht, ht'⟩
    · rw [← ht]
      exact h'.tag
    · refine .inr ⟨ht, ?_⟩
      rcases h'.tag with h2 | ⟨h2, -⟩
      · exact h2.trans ht'
      · rw [ht'] at h2
        cases h2
  style := by
    intro hn
    rcases h.tag with ht | ⟨ht, -⟩
    · exact (h'.style (ht ▸ hn)).trans (h.style hn)
    · exact absurd ht hn
  box := fun hn => (h'.box (h.id ▸ hn)).trans (h.box hn)

instance : IsTrans Node Later := ⟨fun _ _ _ => Later.trans⟩

/-- A later node in the same box. -/
def Kept (n n' : Node) : Prop := Later n n' ∧ n'.box = n.box

theorem Kept.refl (n : Node) : Kept n n := ⟨.refl n, rfl⟩

theorem Kept.trans {a b c : Node} (h : Kept a b) (h' : Kept b c) : Kept a c :=
  ⟨h.1.trans h'.1, h'.2.trans h.2⟩

/-- Sizes, direction, alignment and roles are free. -/
theorem Kept.of_layout {n n' : Node} (h : n' = { n with
    width := n'.width, height := n'.height, direction := n'.direction, align := n'.align, roles := n'.roles }) :
    Kept n n' := by
  rw [h]
  exact ⟨⟨rfl, rfl, rfl, rfl, rfl, List.prefix_refl _, .inl rfl, fun _ => rfl, fun _ => rfl⟩, rfl⟩

theorem Later.isText {n n' : Node} (h : Later n n') : n'.isText = n.isText := by
  unfold Node.isText
  rcases h.tag with ht | ⟨ht, ht'⟩
  · rw [ht]
  · rw [ht, ht']
    rfl

theorem Later.indices {n n' : Node} (h : Later n n') : n'.indices = n.indices := indices_congr h.index h.text

/-- A new container, or a spacer: it stands for no layer and carries no content. -/
structure Made (n : Node) (created : Nat) : Prop where
  index : n.index = created
  id : n.id = none
  tag : n.tag = .view
  text : n.text = none

/-- A container without a part to play, which stands for no layer or paints nothing. -/
structure IsIdle (n : Node) : Prop where
  content : n.isContent = false
  roles : n.roles.isEmpty = true
  unseen : n.id = none ∨ n.isPainted = false

@[simp] theorem index_absorb (lower upper : Node) : (lower.absorb upper).index = lower.index := by
  unfold absorb
  split <;> rfl

theorem text_absorb (lower upper : Node) : (lower.absorb upper).text = lower.text := by
  unfold absorb
  split <;> rfl

@[simp] theorem tag_absorb (lower upper : Node) : (lower.absorb upper).tag = lower.tag := by
  unfold absorb
  split <;> rfl

theorem id_absorb (lower upper : Node) : (lower.absorb upper).id = (lower.id <|> upper.id) := by
  unfold absorb
  split <;> rfl

theorem id_absorb_of_none {lower : Node} (h : lower.id = none) (upper : Node) :
    (lower.absorb upper).id = upper.id := by
  rw [id_absorb, h]
  rfl

theorem id_absorb_of_some {lower : Node} {d : DesignId} (h : lower.id = some d) (upper : Node) :
    (lower.absorb upper).id = some d := by
  rw [id_absorb, h]
  rfl

theorem isSome_id_absorb (lower upper : Node) :
    (lower.absorb upper).id.isSome = (lower.id.isSome || upper.id.isSome) := by
  cases h : lower.id with
  | none => rw [id_absorb_of_none h, Option.isSome_none, Bool.false_or]
  | some d => rw [id_absorb_of_some h, Option.isSome_some, Bool.true_or]

theorem isSome_direction_absorb (lower upper : Node) :
    (lower.absorb upper).direction.isSome = (lower.direction.isSome || upper.direction.isSome) := by
  have h : (lower.absorb upper).direction = (lower.direction <|> upper.direction) := by
    unfold absorb
    split <;> rfl
  rw [h]
  cases lower.direction <;> rfl

theorem roles_absorb (lower upper : Node) :
    (lower.absorb upper).roles = lower.roles.insertAll (upper.roles.toList.filter (· != .divider)) := by
  unfold absorb
  split <;> rfl

@[simp] theorem isContent_absorb (lower upper : Node) : (lower.absorb upper).isContent = lower.isContent := by
  unfold isContent
  rw [tag_absorb]

@[simp] theorem isText_absorb (lower upper : Node) : (lower.absorb upper).isText = lower.isText := by
  unfold Node.isText
  rw [tag_absorb]

theorem isText_of_not_content {n : Node} (h : n.isContent = false) : n.isText = false := by
  unfold isContent at h
  unfold Node.isText
  cases ht : n.tag <;> simp_all

theorem isList_iff {n : Node} : n.roles.isList = true ↔ ∃ r ∈ n.roles.toList, r.isList = true := List.any_eq_true

theorem hasRole_iff {n : Node} {r : Role} : n.hasRole r = true ↔ r ∈ n.roles.toList := decide_eq_true_iff

theorem isList_absorb (lower upper : Node) :
    (lower.absorb upper).roles.isList = (lower.roles.isList || upper.roles.isList) := by
  rw [Bool.eq_iff_iff, Bool.or_eq_true, isList_iff, isList_iff, isList_iff, roles_absorb]
  constructor
  · rintro ⟨r, hr, hl⟩
    rcases Distinct.mem_insertAll.1 hr with hr | hr
    · exact .inl ⟨r, hr, hl⟩
    · exact .inr ⟨r, (List.mem_filter.1 hr).1, hl⟩
  · rintro (⟨r, hr, hl⟩ | ⟨r, hr, hl⟩)
    · exact ⟨r, Distinct.mem_insertAll.2 (.inl hr), hl⟩
    · refine ⟨r, Distinct.mem_insertAll.2 (.inr (List.mem_filter.2 ⟨hr, ?_⟩)), hl⟩
      cases r <;> first | rfl | cases hl

theorem hasRole_absorb (lower upper : Node) {r : Role} (hr : r ≠ .divider) :
    (lower.absorb upper).hasRole r = (lower.hasRole r || upper.hasRole r) := by
  rw [Bool.eq_iff_iff, Bool.or_eq_true, hasRole_iff, hasRole_iff, hasRole_iff, roles_absorb,
    Distinct.mem_insertAll, List.mem_filter]
  simp [hr]

theorem isList_addRole (n : Node) (r : Role) : (n.addRole r).roles.isList = (n.roles.isList || r.isList) := by
  rw [Bool.eq_iff_iff, Bool.or_eq_true, isList_iff, isList_iff]
  simp only [addRole, Distinct.mem_insert, or_and_right, exists_or, exists_eq_left]

theorem hasRole_addRole (n : Node) (r s : Role) : (n.addRole r).hasRole s = (n.hasRole s || s == r) := by
  rw [Bool.eq_iff_iff, Bool.or_eq_true, hasRole_iff, hasRole_iff, beq_iff_eq]
  exact Distinct.mem_insert

theorem hasRole_addMark (n : Node) {r s : Role} (hr : r.isMark = true) (hs : s.isMark = false) :
    (n.addRole r).hasRole s = n.hasRole s := by
  have hne : s ≠ r := by
    rintro rfl
    rw [hr] at hs
    cases hs
  rw [hasRole_addRole, beq_false_of_ne hne, Bool.or_false]

theorem isList_addMark (n : Node) {r : Role} (h : r.isMark = true) : (n.addRole r).roles.isList = n.roles.isList := by
  have hl : r.isList = false := by cases r <;> first | rfl | cases h
  rw [isList_addRole, hl, Bool.or_false]

theorem isChrome_eq (n : Node) : n.roles.isChrome = (n.hasRole .header || n.hasRole .safeArea) := rfl

theorem isChrome_absorb (lower upper : Node) :
    (lower.absorb upper).roles.isChrome = (lower.roles.isChrome || upper.roles.isChrome) := by
  rw [isChrome_eq, hasRole_absorb _ _ (by simp), hasRole_absorb _ _ (by simp), isChrome_eq, isChrome_eq]
  ac_rfl

theorem isChrome_addRole (n : Node) (r : Role) : (n.addRole r).roles.isChrome = (n.roles.isChrome || r.isChrome) := by
  have hr : r.isChrome = (Role.header == r || Role.safeArea == r) := by cases r <;> rfl
  rw [isChrome_eq, hasRole_addRole, hasRole_addRole, isChrome_eq, hr]
  ac_rfl

/-- Settled on both axes. -/
def IsSized (n : Node) : Prop := n.width.isSome = true ∧ n.height.isSome = true

instance (n : Node) : Decidable n.IsSized := inferInstanceAs (Decidable (_ ∧ _))

/-- A node that is still to be resolved. Chrome is placed and sized in the draft. -/
structure Pending (n : Node) : Prop where
  spacer : n.hasRole .spacer = false
  overflow : n.hasRole .overflow = false
  chrome : n.roles.isChrome = true → n.IsSized

theorem Pending.of_roles {n n' : Node} (h : n.Pending) (hr : n'.roles = n.roles) (hs : n.IsSized → n'.IsSized) :
    n'.Pending where
  spacer := by rw [hasRole, hr]; exact h.spacer
  overflow := by rw [hasRole, hr]; exact h.overflow
  chrome := by rw [hr]; exact fun hc => hs (h.chrome hc)

theorem isSized_absorb {lower upper : Node} (h : lower.IsSized ∨ upper.IsSized) : (lower.absorb upper).IsSized := by
  have hw : (lower.absorb upper).width = (lower.width <|> upper.width) := by
    unfold absorb
    split <;> rfl
  have hh : (lower.absorb upper).height = (lower.height <|> upper.height) := by
    unfold absorb
    split <;> rfl
  simp only [IsSized, hw, hh, Option.orElse_eq_orElse, Option.orElse_eq_or, Option.isSome_or, Bool.or_eq_true] at h ⊢
  exact ⟨h.imp And.left And.left, h.imp And.right And.right⟩

theorem Pending.absorb {lower upper : Node} (h : lower.Pending) (h' : upper.Pending) :
    (lower.absorb upper).Pending where
  spacer := by rw [hasRole_absorb _ _ (by simp), h.spacer, h'.spacer, Bool.or_false]
  overflow := by rw [hasRole_absorb _ _ (by simp), h.overflow, h'.overflow, Bool.or_false]
  chrome := fun hc => by
    rw [isChrome_absorb, Bool.or_eq_true] at hc
    exact isSized_absorb (hc.imp h.chrome h'.chrome)

/-- A kept node that is not regrouped otherwise than before. -/
structure Alike (n n' : Node) : Prop where
  kept : Kept n n'
  tag : n'.tag = n.tag
  direction : n'.direction = n.direction
  list : n'.roles.isList = n.roles.isList
  row : n'.hasRole .tableRow = n.hasRole .tableRow
  sized : n.IsSized → n'.IsSized
  pending : n.Pending → n'.Pending

theorem Alike.refl (n : Node) : Alike n n := ⟨.refl n, rfl, rfl, rfl, rfl, fun h => h, fun h => h⟩

theorem Alike.trans {a b c : Node} (h : Alike a b) (h' : Alike b c) : Alike a c :=
  ⟨h.kept.trans h'.kept, h'.tag.trans h.tag, h'.direction.trans h.direction, h'.list.trans h.list,
    h'.row.trans h.row, h'.sized ∘ h.sized, h'.pending ∘ h.pending⟩

/-- Nothing but sizes, alignment and class tokens differs. -/
theorem Alike.of_roles {n n' : Node} (h : Kept n n') (ht : n'.tag = n.tag) (hd : n'.direction = n.direction)
    (hr : n'.roles = n.roles) (hs : n.IsSized → n'.IsSized) : Alike n n' :=
  ⟨h, ht, hd, by rw [hr], by rw [hasRole, hr, ← hasRole], hs, fun hp => hp.of_roles hr hs⟩

theorem alike_addRole (n : Node) {r : Role} (h : r.isMark = true) : Alike n (n.addRole r) where
  kept := .of_layout rfl
  tag := rfl
  direction := rfl
  list := isList_addMark n h
  row := hasRole_addMark n h rfl
  sized := fun hs => hs
  pending := fun hp => by
    refine ⟨(hasRole_addMark n h rfl).trans hp.spacer, (hasRole_addMark n h rfl).trans hp.overflow, fun hc => ?_⟩
    rw [isChrome_eq, hasRole_addMark n h rfl, hasRole_addMark n h rfl] at hc
    exact hp.chrome hc

/-- A node alike that gets marks at most: its tokens stay, and it is chrome or the page or not as before. -/
structure Marked (n n' : Node) : Prop extends Alike n n' where
  classes : n'.classes = n.classes
  chrome : n'.roles.isChrome = n.roles.isChrome
  page : n'.hasRole .page = n.hasRole .page

theorem Marked.refl (n : Node) : Marked n n := ⟨.refl n, rfl, rfl, rfl⟩

theorem Marked.trans {a b c : Node} (h : Marked a b) (h' : Marked b c) : Marked a c :=
  ⟨h.toAlike.trans h'.toAlike, h'.classes.trans h.classes, h'.chrome.trans h.chrome, h'.page.trans h.page⟩

theorem marked_addRole (n : Node) {r : Role} (h : r.isMark = true) : Marked n (n.addRole r) where
  toAlike := alike_addRole n h
  classes := rfl
  chrome := by rw [isChrome_eq, hasRole_addMark n h rfl, hasRole_addMark n h rfl, ← isChrome_eq]
  page := hasRole_addMark n h rfl

@[simp] theorem index_promoted (n : Node) : n.promoted.index = n.index := by
  unfold promoted
  split <;> rfl

@[simp] theorem id_promoted (n : Node) : n.promoted.id = n.id := by
  unfold promoted
  split <;> rfl

@[simp] theorem tag_promoted (n : Node) : n.promoted.tag = .view := by
  unfold promoted
  split <;> rfl

@[simp] theorem roles_promoted (n : Node) : n.promoted.roles = n.roles := by
  unfold promoted
  split <;> rfl

@[simp] theorem direction_promoted (n : Node) : n.promoted.direction = n.direction := by
  unfold promoted
  split <;> rfl

theorem pending_promoted {n : Node} (h : n.Pending) : n.promoted.Pending := by
  refine h.of_roles (roles_promoted n) fun hs => ?_
  unfold promoted
  split <;> exact hs

theorem kept_promoted {n : Node} (h : n.isImage = true) : Kept n n.promoted := by
  have ht : n.tag = .image := by simpa [isImage] using h
  unfold promoted
  split
  · exact ⟨⟨rfl, rfl, rfl, rfl, rfl, List.prefix_refl _, .inr ⟨ht, rfl⟩, fun _ => rfl, fun _ => rfl⟩, rfl⟩
  · exact ⟨⟨rfl, rfl, rfl, rfl, rfl, Classes.prefix_pushAll _ _, .inr ⟨ht, rfl⟩, fun hn => absurd ht hn,
      fun _ => rfl⟩, rfl⟩

end Node

namespace Regroup

theorem isPreset_iff {n : Node} : isPreset n = false ↔ n.roles.isList = false ∧ n.hasRole .tableRow = false :=
  Bool.or_eq_false_iff

theorem isPreset_addRole (n : Node) {r : Role} (hl : r.isList = false) (hr : r ≠ .tableRow) :
    isPreset (n.addRole r) = isPreset n := by
  rw [isPreset, Node.isList_addRole, Node.hasRole_addRole, hl, beq_false_of_ne hr.symm, Bool.or_false, Bool.or_false,
    ← isPreset]

theorem isPreset_of_alike {n n' : Node} (h : n.Alike n') : isPreset n' = isPreset n := by
  unfold isPreset
  rw [h.list, h.row]

end Regroup

end FlexRecovery
