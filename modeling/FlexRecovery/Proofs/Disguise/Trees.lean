import FlexRecovery.Proofs.Census
import FlexRecovery.Proofs.Translation.Trees
import FlexRecovery.Proofs.Words
import FlexRecovery.Regroup.Redundant

/-!
Trees in disguise: they lie elsewhere on the page, and some tokens of their nodes are left out. Whatever reads a tree
to decide what becomes of it does not see through that.
-/

namespace FlexRecovery

/-- How the tokens of paint begin. -/
def paintStems : List String := ["bg-", "border", "from-", "via-", "to-"]

/-- Where a tree is put, and which of its tokens are left out: none of those that tell of paint or layout. -/
structure Disguise where
  offset : Offset
  drops : String → Bool
  shows : ∀ t, Opens (paintStems ++ Resolve.stems ++ Resolve.pinStems) t → drops t = false

namespace Disguise

instance : Coe Disguise Offset := ⟨offset⟩

instance : CoeFun Disguise fun _ => Axis → Int := ⟨offset⟩

variable (d : Disguise) {t : String}

theorem paints (h : Opens paintStems t) : d.drops t = false :=
  d.shows t (h.mono fun _ hs => List.mem_append_left _ (List.mem_append_left _ hs))

theorem words (h : Resolve.IsWord t) : d.drops t = false :=
  d.shows t (h.mono fun _ hs => List.mem_append_left _ (List.mem_append_right _ hs))

theorem pins (h : Opens Resolve.pinStems t) : d.drops t = false := d.shows t (h.mono (List.subset_append_right _ _))

end Disguise

theorem paintPrefixes_subset : paintPrefixes ⊆ paintStems := by decide

namespace Distinct

variable {α : Type}

theorem toList_filter (s : Distinct α) (p : α → Bool) : (s.filter p).toList = s.toList.filter p := rfl

theorem filter_comm (s : Distinct α) (p q : α → Bool) : (s.filter p).filter q = (s.filter q).filter p := by
  apply ext
  simp only [toList_filter, List.filter_filter, Bool.and_comm]

end Distinct

namespace Classes

variable (cs : Classes) (p : String → Bool)

theorem filter_push (token : String) :
    (cs.push token).filter p = if p token then push (cs.filter p) token else cs.filter p := by
  unfold push
  split
  · split <;> rfl
  · apply Distinct.ext
    rw [Distinct.toList_filter, Distinct.toList_insert]
    split
    · next hmem =>
      split
      · next hp => rw [Distinct.toList_insert, Distinct.toList_filter, if_pos (List.mem_filter.2 ⟨hmem, hp⟩)]
      · rfl
    · next hmem =>
      rw [List.filter_append]
      split
      · next hp =>
        rw [Distinct.toList_insert, Distinct.toList_filter, if_neg fun h => hmem (List.mem_filter.1 h).1,
          List.filter_cons_of_pos hp, List.filter_nil]
      · next hp => rw [List.filter_cons_of_neg hp, List.filter_nil, List.append_nil]; rfl

theorem filter_pushAll (tokens : List String) :
    (cs.pushAll tokens).filter p = pushAll (cs.filter p) (tokens.filter p) := by
  induction tokens generalizing cs with
  | nil => rfl
  | cons t ts ih =>
    rw [show cs.pushAll (t :: ts) = (cs.push t).pushAll ts from rfl, ih, filter_push, List.filter_cons]
    split <;> rfl

end Classes

abbrev Box.recast (d : Disguise) (b : Box) : Box := b.translate d.offset

namespace Node

def recast (d : Disguise) (n : Node) : Node :=
  { n.translate d.offset with classes := n.classes.filter (!d.drops ·) }

variable (d : Disguise) (n : Node)

theorem recast_eq : n.recast d = { n with
    box := n.box.translate d.offset, text := translateText d.offset n.text,
    classes := n.classes.filter (!d.drops ·) } := by
  rw [recast, translate_eq]

/-- What asks for shown tokens only does not miss the others. -/
theorem any_filter_drops (cs : Classes) {p : String → Bool} (h : ∀ t, p t = true → Opens paintStems t) :
    (cs.filter (!d.drops ·)).toList.any p = cs.toList.any p := by
  rw [Distinct.filter, List.any_filter]
  refine congrArg₂ List.any rfl (funext fun t => ?_)
  cases hp : p t with
  | true => rw [d.paints (h t hp)]; rfl
  | false => exact Bool.and_false _

section fields

@[simp] theorem id_recast : (n.recast d).id = n.id := by rw [recast_eq]

@[simp] theorem index_recast : (n.recast d).index = n.index := by rw [recast_eq]

@[simp] theorem tag_recast : (n.recast d).tag = n.tag := by rw [recast_eq]

@[simp] theorem box_recast : (n.recast d).box = n.box.recast d := by rw [recast_eq]

@[simp] theorem width_recast : (n.recast d).width = n.width := by rw [recast_eq]

@[simp] theorem height_recast : (n.recast d).height = n.height := by rw [recast_eq]

@[simp] theorem direction_recast : (n.recast d).direction = n.direction := by rw [recast_eq]

@[simp] theorem align_recast : (n.recast d).align = n.align := by rw [recast_eq]

@[simp] theorem classes_recast : (n.recast d).classes = n.classes.filter (!d.drops ·) := rfl

@[simp] theorem roles_recast : (n.recast d).roles = n.roles := by rw [recast_eq]

@[simp] theorem multiLine_recast : (n.recast d).multiLine = n.multiLine := by rw [recast_eq]

@[simp] theorem lineHeight_recast : (n.recast d).lineHeight = n.lineHeight := by rw [recast_eq]

end fields

section readings

@[simp] theorem isGenerated_recast : (n.recast d).isGenerated = n.isGenerated := by rw [recast_eq]; rfl

@[simp] theorem isText_recast : (n.recast d).isText = n.isText := by rw [recast_eq]; rfl

@[simp] theorem isImage_recast : (n.recast d).isImage = n.isImage := by rw [recast_eq]; rfl

@[simp] theorem isContent_recast : (n.recast d).isContent = n.isContent := by rw [recast_eq]; rfl

@[simp] theorem isPainted_recast : (n.recast d).isPainted = n.isPainted := by
  have hany := any_filter_drops d n.classes
    (p := fun t => beginsWith "bg-" t || beginsWith "border" t || beginsWith "from-" t) fun t ht => by
      simp only [Bool.or_eq_true] at ht
      rcases ht with (h | h) | h
      · exact ⟨"bg-", by simp [paintStems], h⟩
      · exact ⟨"border", by simp [paintStems], h⟩
      · exact ⟨"from-", by simp [paintStems], h⟩
  rw [isPainted, classes_recast, hany, recast_eq]
  rfl

@[simp] theorem isBareText_recast : (n.recast d).isBareText = n.isBareText := by
  rw [isBareText, isText_recast, isPainted_recast, isBareText]

@[simp] theorem wraps_recast : (n.recast d).wraps = n.wraps := by rw [recast_eq]; rfl

@[simp] theorem sizing_recast (axis : Axis) : (n.recast d).sizing axis = n.sizing axis := by
  rw [recast_eq]
  cases axis <;> rfl

@[simp] theorem hasRole_recast (r : Role) : (n.recast d).hasRole r = n.hasRole r := by rw [recast_eq]; rfl

@[simp] theorem label_recast : (n.recast d).label = n.label := by rw [recast_eq]; rfl

theorem paints_recast : (n.recast d).paints = n.paints := by
  refine any_filter_drops d n.classes (p := fun t => paintPrefixes.any (beginsWith · t)) fun t ht => ?_
  obtain ⟨s, hs, hb⟩ := List.any_eq_true.1 ht
  exact ⟨s, paintPrefixes_subset hs, hb⟩

end readings

section changes

theorem recast_push (token : String) :
    (n.push token).recast d = if d.drops token then n.recast d else (n.recast d).push token := by
  simp only [recast_eq, push, Classes.filter_push]
  cases d.drops token <;> rfl

/-- A token that shows is given in disguise as without. -/
theorem push_recast {token : String} (h : d.drops token = false) :
    (n.recast d).push token = (n.push token).recast d := by
  rw [recast_push, h, if_neg Bool.false_ne_true]

theorem pushAll_recast {tokens : List String} (h : ∀ t ∈ tokens, d.drops t = false) :
    (n.recast d).pushAll tokens = (n.pushAll tokens).recast d := by
  have kept : tokens.filter (!d.drops ·) = tokens := List.filter_eq_self.2 fun t ht => by rw [h t ht]; rfl
  simp only [recast_eq, pushAll, Classes.filter_pushAll, kept]

theorem pushWords_recast {tokens : List String} (h : ∀ t ∈ tokens, Resolve.IsWord t) :
    (n.recast d).pushAll tokens = (n.pushAll tokens).recast d :=
  pushAll_recast d n fun t ht => d.words (h t ht)

@[simp] theorem addRole_recast (r : Role) : (n.recast d).addRole r = (n.addRole r).recast d := by
  simp only [recast_eq]
  rfl

@[simp] theorem setSizing_recast (axis : Axis) (s : Sizing) :
    (n.recast d).setSizing axis s = (n.setSizing axis s).recast d := by
  simp only [recast_eq]
  cases axis <;> rfl

theorem with_direction_recast (direction : Option Axis) :
    { n.recast d with direction } = { n with direction }.recast d := by
  simp only [recast_eq]

theorem with_align_recast (align : Option Align) : { n.recast d with align } = { n with align }.recast d := by
  simp only [recast_eq]

theorem with_width_recast (width : Option Sizing) : { n.recast d with width } = { n with width }.recast d := by
  simp only [recast_eq]

theorem with_sizes_recast (width height : Option Sizing) :
    { n.recast d with width, height } = { n with width, height }.recast d := by
  simp only [recast_eq]

theorem promoted_recast : (n.recast d).promoted = n.promoted.recast d := by
  have hbg : ["bg-cover", "bg-no-repeat"].filter (!d.drops ·) = ["bg-cover", "bg-no-repeat"] := by
    refine List.filter_eq_self.2 fun t ht => ?_
    rw [d.paints ⟨"bg-", by simp [paintStems], by revert t; decide⟩]
    rfl
  simp only [recast_eq, promoted]
  cases n.source with
  | none => rfl
  | some source => simp only [Classes.filter_pushAll, hbg]

theorem bare_recast : (n.recast d).bare = n.bare.recast d := by
  have hfold (ps : List String) (cs : Classes) :
      ps.foldl Classes.erasePrefix (cs.filter (!d.drops ·)) = (ps.foldl Classes.erasePrefix cs).filter (!d.drops ·) := by
    induction ps generalizing cs with
    | nil => rfl
    | cons p ps ih =>
      rw [List.foldl_cons, List.foldl_cons, ← ih]
      exact congrArg (ps.foldl Classes.erasePrefix) (Distinct.filter_comm cs _ _)
  simp only [recast_eq, bare, hfold]

theorem absorb_recast (lower upper : Node) :
    (lower.recast d).absorb (upper.recast d) = (lower.absorb upper).recast d := by
  unfold absorb
  rw [paints_recast, bare_recast]
  cases upper.paints <;> (simp only [recast_eq, Classes.filter_pushAll]; rfl)

end changes


end Node

namespace Tree

mutual

def recast (d : Disguise) : Tree → Tree
  | ⟨n, flow, attached⟩ => ⟨n.recast d, recastAll d flow, recastAll d attached⟩

def recastAll (d : Disguise) : List Tree → List Tree
  | [] => []
  | t :: ts => recast d t :: recastAll d ts

end

variable (d : Disguise) (t : Tree)

theorem recastAll_eq (ts : List Tree) : recastAll d ts = ts.map (recast d) := by
  induction ts with
  | nil => rfl
  | cons t ts ih => rw [recastAll, ih, List.map_cons]

theorem recast_mk (n : Node) (flow attached : List Tree) :
    recast d ⟨n, flow, attached⟩ = ⟨n.recast d, flow.map (recast d), attached.map (recast d)⟩ := by
  rw [recast, recastAll_eq, recastAll_eq]

theorem recast_eq : t.recast d = ⟨t.node.recast d, t.flow.map (recast d), t.attached.map (recast d)⟩ := by
  cases t
  exact recast_mk d _ _ _

@[simp] theorem node_recast : (t.recast d).node = t.node.recast d := by rw [recast_eq]

@[simp] theorem flow_recast : (t.recast d).flow = t.flow.map (recast d) := by rw [recast_eq]

@[simp] theorem attached_recast : (t.recast d).attached = t.attached.map (recast d) := by rw [recast_eq]

@[simp] theorem box_recast : (t.recast d).box = t.box.recast d := by
  unfold box
  rw [node_recast, Node.box_recast]

theorem mapNode_recast {f : Node → Node} (hf : ∀ n : Node, f (n.recast d) = (f n).recast d) :
    (t.recast d).mapNode f = (t.mapNode f).recast d := by
  rw [recast_eq, recast_eq]
  simp only [mapNode, hf]

theorem addFlow_recast (ts : List Tree) :
    (t.recast d).addFlow (ts.map (recast d)) = (t.addFlow ts).recast d := by
  rw [recast_eq, recast_eq]
  simp only [addFlow, List.map_append]

theorem addAttached_recast (ts : List Tree) :
    (t.recast d).addAttached (ts.map (recast d)) = (t.addAttached ts).recast d := by
  rw [recast_eq, recast_eq]
  simp only [addAttached, List.map_append]

theorem map_box_recast (ts : List Tree) : (ts.map (recast d)).map box = (ts.map box).map (Box.recast d) := by
  rw [List.map_map, List.map_map]
  exact List.map_congr_left fun t _ => box_recast d t

theorem map_node_recast (ts : List Tree) : (ts.map (recast d)).map node = (ts.map node).map (Node.recast d) := by
  rw [List.map_map, List.map_map]
  exact List.map_congr_left fun t _ => node_recast d t

theorem hull_recast {ts : List Tree} (h : ts ≠ []) : hull (ts.map (recast d)) = (hull ts).recast d := by
  unfold hull
  rw [map_box_recast]
  exact Box.hull_translate d fun he => h (List.map_eq_nil_iff.1 he)

theorem size_recast : (t.recast d).size = t.size := by
  induction t using induction_members with
  | _ t ih =>
    have sizeAll_recast (ts : List Tree) (h : ∀ m ∈ ts, (m.recast d).size = m.size) :
        sizeAll (ts.map (recast d)) = sizeAll ts := by
      induction ts with
      | nil => rfl
      | cons m ts ihs =>
        rw [List.map_cons, sizeAll, sizeAll, h m (List.mem_cons_self ..), ihs fun m hm => h m (List.mem_cons_of_mem _ hm)]
    rw [size_eq, size_eq t, flow_recast, attached_recast,
      sizeAll_recast _ fun m hm => ih m (List.mem_append_left _ hm),
      sizeAll_recast _ fun m hm => ih m (List.mem_append_right _ hm)]

end Tree

section offsets

/-- Put elsewhere, with all tokens. -/
def Disguise.moved (d : Offset) : Disguise := ⟨d, fun _ => false, fun _ _ => rfl⟩

theorem Node.recast_moved (d : Offset) (n : Node) : n.recast (.moved d) = n.translate d := by
  have hall : n.classes.filter (fun _ => !false) = n.classes := Distinct.ext (List.filter_true _)
  change { n.translate d with classes := n.classes.filter fun _ => !false } = n.translate d
  rw [hall, translate_eq]

theorem Tree.recast_moved (d : Offset) (t : Tree) : t.recast (.moved d) = t.translate d := by
  induction t using induction_members with
  | _ t ih =>
    rw [recast_eq, translate_eq, Node.recast_moved,
      List.map_congr_left fun m hm => ih m (List.mem_append_left _ hm),
      List.map_congr_left fun m hm => ih m (List.mem_append_right _ hm)]

theorem Box.translate_zero (b : Box) : b.translate (fun _ => 0) = b := by
  simp only [translate, Int.add_zero]

namespace Node

mutual

theorem translate_zero : ∀ n : Node, n.translate (fun _ => 0) = n
  | ⟨_, _, _, b, _, _, _, _, _, _, _, text, _, _, _⟩ => by rw [translate, Box.translate_zero, translateText_zero text]

theorem translateText_zero : ∀ text : Option (Content Node), translateText (fun _ => 0) text = text
  | none => rfl
  | some (.literal _) => rfl
  | some (.spans ns) => by rw [translateText, translateAll_zero ns]

theorem translateAll_zero : ∀ ns : List Node, translateAll (fun _ => 0) ns = ns
  | [] => rfl
  | n :: ns => by rw [translateAll, translate_zero n, translateAll_zero ns]

end

end Node

theorem Tree.translate_zero (t : Tree) : t.translate (fun _ => 0) = t := by
  induction t using induction_members with
  | _ t ih =>
    rw [translate_eq, Node.translate_zero, List.map_congr_left fun m hm => ih m (List.mem_append_left _ hm),
      List.map_congr_left fun m hm => ih m (List.mem_append_right _ hm), List.map_id', List.map_id']
    cases t
    rfl

theorem Tree.recast_still : Tree.recast (.moved fun _ => 0) = id :=
  funext fun t => (t.recast_moved _).trans t.translate_zero

end offsets

end FlexRecovery
