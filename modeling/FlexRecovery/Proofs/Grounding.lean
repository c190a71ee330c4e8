import FlexRecovery.Proofs.Drafted
import FlexRecovery.Proofs.Standing
import FlexRecovery.Proofs.Touches

/-!
Position tokens before a tree is resolved. Chrome is fixed, nothing is absolute yet, and a node is relative only
if it has a stacking number: neither drafting nor regrouping adds a position anywhere else.
-/

namespace FlexRecovery

open Node Tree

/-- A text that neither begins with another one nor is the beginning of it does not begin with it when it goes on. -/
theorem beginsWith_append {s t : String} (h : beginsWith s t = false) (h' : beginsWith t s = false) (u : String) :
    beginsWith s (t ++ u) = false := by
  rw [← Bool.not_eq_true, beginsWith_iff] at h h' ⊢
  rw [String.toList_append]
  intro hp
  exact (List.prefix_or_prefix_of_prefix hp (List.prefix_append _ _)).elim h h'

/-- The tokens that say how a node is positioned. -/
def positionings : List String := ["relative", "absolute", "fixed"]

/-- No position token begins with that text, so none is that text, whatever follows it. -/
def Neutral (t : String) : Prop := ∀ p ∈ positionings, beginsWith t p = false

instance (t : String) : Decidable (Neutral t) := inferInstanceAs (Decidable (∀ p ∈ positionings, _))

theorem Neutral.append {t : String} (h : Neutral t) (u : String) : Neutral (t ++ u) := by
  intro p hp
  have ht := h p hp
  rw [← Bool.not_eq_true, beginsWith_iff] at ht ⊢
  rw [String.toList_append]
  exact fun hu => ht ((List.prefix_append _ _).trans hu)

theorem Opens.neutral {starts : List String} {t : String} (h : Opens starts t) (hs : ∀ s ∈ starts, Neutral s) :
    Neutral t := by
  obtain ⟨s, hmem, hb⟩ := h
  intro p hp
  have hsp := hs s hmem p hp
  rw [← Bool.not_eq_true, beginsWith_iff] at hsp ⊢
  rw [beginsWith_iff] at hb
  exact fun ht => hsp (hb.trans ht)

theorem Neutral.ne {t p : String} (h : Neutral t) (hp : p ∈ positionings) : t ≠ p := by
  rintro rfl
  have ht := h t hp
  rw [← Bool.not_eq_true, beginsWith_iff] at ht
  exact ht (List.prefix_refl _)

namespace Node

/-- The tokens of the node say nothing about its position. -/
def Unplaced (n : Node) : Prop := ∀ t ∈ n.classes.toList, Neutral t

theorem Unplaced.not_mem {n : Node} (h : n.Unplaced) {p : String} (hp : p ∈ positionings) :
    p ∉ n.classes.toList := fun hm => (h p hm).ne hp rfl

theorem unplaced_of_empty {n : Node} (h : n.classes = {}) : n.Unplaced := by simp [Unplaced, h]

/-- Before it is placed. A node that stacking has numbered is relative. -/
structure Grounded (o : Options) (n : Node) : Prop where
  absolute : "absolute" ∉ n.classes.toList
  fixed : "fixed" ∈ n.classes.toList ↔ n.roles.isChrome = true
  relative : "relative" ∈ n.classes.toList → o.stacking = true ∧ ∃ l, Stacking.level l ∈ n.classes.toList

/-- What is asked of members before they are placed: flow children are not chrome. -/
structure Posed (o : Options) (l : Link) (n : Node) : Prop where
  grounded : n.Grounded o
  chrome : l = .flow → n.roles.isChrome = false

theorem Grounded.of_eq {o : Options} {n n' : Node} (h : Grounded o n) (hc : n'.classes = n.classes)
    (hr : n'.roles.isChrome = n.roles.isChrome) : Grounded o n' where
  absolute := by rw [hc]; exact h.absolute
  fixed := by rw [hc, hr]; exact h.fixed
  relative := by rw [hc]; exact h.relative

theorem Grounded.push {o : Options} {n : Node} (h : n.Grounded o) {t : String} (ht : Neutral t) :
    (n.push t).Grounded o := by
  have hmem {p : String} (hp : p ∈ positionings) : p ∈ (n.push t).classes.toList ↔ p ∈ n.classes.toList :=
    Classes.mem_push.trans (or_iff_left fun e => ht.ne hp e.1.symm)
  refine ⟨(hmem (by decide)).not.2 h.absolute, (hmem (by decide)).trans h.fixed, fun hr => ?_⟩
  obtain ⟨hs, l, hl⟩ := h.relative ((hmem (by decide)).1 hr)
  exact ⟨hs, l, Classes.mem_push.2 (.inl hl)⟩

/-- Tokens that say nothing about a position. -/
theorem Grounded.pushAll {o : Options} {n : Node} (h : n.Grounded o) {ts : List String} (ht : ∀ t ∈ ts, Neutral t) :
    (n.pushAll ts).Grounded o := by
  induction ts generalizing n with
  | nil => exact h.of_eq rfl rfl
  | cons t ts ih =>
    obtain ⟨ht, hts⟩ := List.forall_mem_cons.1 ht
    exact (ih (h.push ht) hts).of_eq rfl rfl

theorem Grounded.promoted {o : Options} {n : Node} (h : n.Grounded o) : n.promoted.Grounded o := by
  have htokens : ∀ t ∈ ["bg-cover", "bg-no-repeat"], Neutral t := by decide
  unfold Node.promoted
  split
  · exact h.of_eq rfl rfl
  · exact (h.pushAll htokens).of_eq rfl rfl

theorem Unplaced.grounded {o : Options} {n : Node} (h : n.Unplaced) (hc : n.roles.isChrome = false) :
    n.Grounded o where
  absolute := h.not_mem (by simp [positionings])
  fixed := by simp [h.not_mem (p := "fixed") (by simp [positionings]), hc]
  relative := fun hm => absurd hm (h.not_mem (by simp [positionings]))

end Node

section styling

open Journaled

/-- How the tokens begin that a layer is drawn with. -/
def drawnStems : List String :=
  ["bg-", "from-", "via-", "to-", "rounded-", "border-", "text-", "leading-", "font-[", "tracking-", "underline",
    "line-through", "whitespace-nowrap"]

abbrev IsDrawn (t : String) : Prop := Opens drawnStems t

/-- Every token that is given draws the layer. -/
abbrev GivesDrawn (x : Journaled (List String)) : Prop := Gives (∀ t ∈ ·, IsDrawn t) x

theorem drawn_picked (opacity : Float32) (stops : List ColorStop) :
    ∀ t ∈ LinearGradient.picked opacity stops, IsDrawn t := by
  have stop {place : String} (hp : IsDrawn (place ++ "-")) (usual : Float32) (s : ColorStop) :
      ∀ t ∈ LinearGradient.stopTokens place usual opacity s, IsDrawn t := by
    unfold LinearGradient.stopTokens
    have hcolor := hp.append (s.color.token opacity)
    split
    · have hposition := (hp.append (Single.text (s.position * 100))).append "%"
      exact List.forall_mem_append.2 ⟨List.forall_mem_singleton.2 hcolor, List.forall_mem_singleton.2 hposition⟩
    · exact List.forall_mem_append.2 ⟨List.forall_mem_singleton.2 hcolor, by simp⟩
  have hfrom : IsDrawn ("from" ++ "-") := by decide
  have hvia : IsDrawn ("via" ++ "-") := by decide
  have hto : IsDrawn ("to" ++ "-") := by decide
  unfold LinearGradient.picked
  split
  · refine List.forall_mem_append.2 ⟨stop hfrom _ _, ?_⟩
    split
    · exact stop hto _ _
    · exact List.forall_mem_append.2 ⟨stop hvia _ _, stop hto _ _⟩
  · simp

theorem drawn_gradient (g : LinearGradient) (opacity : Float32) (node : Option DesignId) :
    GivesDrawn (g.classes opacity node) := by
  have hbg : IsDrawn "bg-" := by decide
  unfold LinearGradient.classes
  split
  · exact gives_pure (by simp)
  · exact gives_pure (List.forall_mem_singleton.2 (hbg.append _))
  · refine .warned _ _ _ fun _ => .warned _ _ _ fun _ => gives_pure (List.forall_mem_cons.2 ⟨?_, ?_⟩)
    · exact Opens.append (by decide) _
    · exact drawn_picked opacity _

theorem drawn_fillClasses (fill : List Paint) (opacity : Float32) (node : Option DesignId) :
    GivesDrawn (fillClasses fill opacity node) := by
  have hbg : IsDrawn "bg-" := by decide
  unfold fillClasses
  split
  · exact gives_pure (by simp)
  · refine .warned _ _ _ fun _ => ?_
    split
    · exact gives_pure (List.forall_mem_singleton.2 (hbg.append _))
    · exact drawn_gradient _ _ _

theorem drawn_corners (c : Corners) : ∀ t ∈ c.classes, IsDrawn t := by
  have hr : IsDrawn "rounded-" := by decide
  unfold Corners.classes
  dsimp only
  split
  · split
    · exact List.forall_mem_singleton.2 (hr.append _)
    · simp
  · intro t ht
    obtain ⟨p, -, hp⟩ := List.mem_filterMap.1 ht
    split at hp
    · obtain rfl := Option.some.inj hp
      exact ((hr.append _).append "-").append _
    · cases hp

theorem drawn_stroke (s : Stroke) (opacity : Float32) (node : Option DesignId) :
    GivesDrawn (s.classes opacity node) := by
  have hb : IsDrawn "border-" := by decide
  have border : GivesDrawn (Border.classes s.borders opacity node) := by
    unfold Border.classes
    split
    · exact gives_pure (by simp)
    · refine .warned _ _ _ fun _ => ?_
      split
      · refine .bind (P := fun _ => True) (fun _ => trivial) fun c _ => ?_
        split
        · exact gives_pure (by simpa using ⟨hb.append _, hb.append _⟩)
        · exact gives_pure (by simp)
      · exact gives_pure (by simp)
  refine border.bind fun ts ht => gives_pure (List.forall_mem_append.2 ⟨ht, ?_⟩)
  cases s.radius with
  | none => simp
  | some c => exact drawn_corners c

theorem drawn_fontClasses (f : Font) : ∀ t ∈ TextRun.fontClasses f, IsDrawn t := by
  have htext : IsDrawn "text-" := by decide
  have hleading : IsDrawn "leading-" := by decide
  have hfont : IsDrawn "font-[" := by decide
  have htracking : IsDrawn "tracking-" := by decide
  unfold TextRun.fontClasses
  refine List.forall_mem_append.2 ⟨List.forall_mem_append.2 ⟨List.forall_mem_append.2
    ⟨List.forall_mem_singleton.2 (htext.append _), ?_⟩, ?_⟩, ?_⟩
  · cases f.lineHeight with
    | none => simp
    | some h => exact List.forall_mem_singleton.2 (hleading.append _)
  · cases f.weight with
    | none => simp
    | some w =>
      rw [Option.elim_some]
      split
      · simp
      · exact List.forall_mem_singleton.2 ((hfont.append _).append _)
  · cases f.letterSpacing with
    | none => simp
    | some s =>
      rw [Option.elim_some]
      split
      · exact List.forall_mem_singleton.2 (htracking.append _)
      · simp

theorem drawn_run (r : TextRun) (opacity : Float32) (node : Option DesignId) :
    GivesDrawn (r.classes opacity node) := by
  have htext : IsDrawn "text-" := by decide
  refine .bind (P := fun _ => True) (fun _ => trivial) fun color _ => gives_pure ?_
  refine List.forall_mem_append.2 ⟨List.forall_mem_append.2 ⟨drawn_fontClasses r.font, ?_⟩, ?_⟩
  · cases color with
    | none => simp
    | some c => exact List.forall_mem_singleton.2 (htext.append _)
  · cases r.decoration with
    | none => simp
    | some d => cases d <;> exact List.forall_mem_singleton.2 (by decide)

end styling

namespace Draft

open Journaled

/-- Drafted from a layer that is not chrome. -/
structure Plain (n : Node) : Prop where
  drawn : ∀ t ∈ n.classes.toList, IsDrawn t
  chrome : n.roles.isChrome = false

theorem Plain.unplaced {n : Node} (h : Plain n) : n.Unplaced := fun t ht => (h.drawn t ht).neutral (by decide)

theorem Plain.of_eq {n n' : Node} (h : Plain n) (hc : n'.classes = n.classes) (hr : n'.roles = n.roles) : Plain n' :=
  ⟨by rw [hc]; exact h.drawn, by rw [hr]; exact h.chrome⟩

theorem Plain.pushAll {n : Node} (h : Plain n) {ts : List String} (ht : ∀ t ∈ ts, IsDrawn t) : Plain (n.pushAll ts) :=
  ⟨fun t hm => (Classes.mem_pushAll.1 hm).elim (h.drawn t) fun hm => ht t hm.1, h.chrome⟩

theorem Plain.push {n : Node} (h : Plain n) {t : String} (ht : IsDrawn t) : Plain (n.push t) :=
  h.pushAll (List.forall_mem_singleton.2 ht)

theorem plain_styled (t : LayerTraits) (tag : Tag) (box : Box) (opacity : Float32) :
    Gives Plain (styled t tag box opacity) := by
  refine .bind (P := fun _ => True) (fun _ => trivial) fun index _ =>
    (drawn_fillClasses t.fill opacity (some t.id)).bind fun fill hfill =>
      (drawn_stroke t.stroke opacity (some t.id)).bind fun stroke hstroke => gives_pure ⟨?_, rfl⟩
  have hcs : ∀ u ∈ ((Classes.pushAll {} fill).pushAll stroke).toList, IsDrawn u := by
    intro u hu
    rcases Classes.mem_pushAll.1 hu with hu | hu
    · exact hfill u ((Classes.mem_pushAll.1 hu).resolve_left (by simp)).1
    · exact hstroke u hu.1
  dsimp only
  split
  · intro u hu
    rcases Classes.mem_push.1 hu with hu | hu
    · exact hcs u (List.mem_filter.1 hu).1
    · rw [hu.1]
      decide
  · exact hcs

theorem plain_image (t : LayerTraits) (box : Box) (opacity : Float32) : Gives Plain (image t box opacity) :=
  (plain_styled t .image box opacity).bind fun _ hn => gives_pure (hn.of_eq rfl rfl)

theorem plain_slice (t : LayerTraits) (box : Box) (opacity : Float32) : Gives Plain (slice t box opacity) := by
  refine (plain_styled t .view box opacity).bind fun n hn => ?_
  cases t.bitmap with
  | none => exact fun _ => hn.of_eq rfl rfl
  | some url =>
    refine gives_pure (Plain.of_eq (n := n.pushAll ["bg-cover", "bg-no-repeat"]) (hn.pushAll ?_) rfl rfl)
    decide

theorem plain_text (t : LayerTraits) (rs : List TextRun) (box : Box) (opacity : Float32) :
    Gives Plain (text t rs box opacity) := by
  rw [text_eq]
  refine (plain_styled t .text box opacity).bind fun n hn => .bind (P := Plain) ?_ fun n hn => gives_pure ?_
  · have haligned {n : Node} (hn : Plain n) : Plain (aligned rs n) := by
      unfold aligned
      cases rs.findSome? (·.align) with
      | none => exact hn
      | some a => exact hn.push (by cases a <;> decide)
    have hlined : Plain { n with
        lineHeight := some (lineHeight box rs), multiLine := isMultiLine (lineHeight box rs) box } := hn.of_eq rfl rfl
    have hn := haligned hlined
    unfold worded
    split
    · exact gives_pure (hn.of_eq rfl rfl)
    · next r => exact (drawn_run r opacity _).bind fun ts ht => gives_pure ((hn.pushAll ht).of_eq rfl rfl)
    · exact .bind (P := fun _ => True) (fun _ => trivial) fun _ _ => gives_pure (hn.of_eq rfl rfl)
  · unfold lined
    split
    · exact hn.of_eq rfl rfl
    · exact (hn.push (t := "whitespace-nowrap") (by decide)).of_eq rfl rfl

/-- A header or a safe area is fixed, whatever else it says. -/
theorem Plain.fixed {n : Node} (h : Plain n) {r : Role} (hr : r.isChrome = true) {ts : List String}
    (ht : ∀ t ∈ ts, Neutral t) (o : Options) : Grounded o ((n.addRole r).pushAll ("fixed" :: ts)) := by
  have hmem {p : String} (hp : p ∈ positionings) :
      p ∈ ((n.addRole r).pushAll ("fixed" :: ts)).classes.toList ↔ p = "fixed" := by
    rw [show ((n.addRole r).pushAll ("fixed" :: ts)).classes = n.classes.pushAll ("fixed" :: ts) from rfl,
      Classes.mem_pushAll, List.mem_cons]
    constructor
    · rintro (hm | ⟨rfl | hm, -⟩)
      · exact absurd hm (h.unplaced.not_mem hp)
      · rfl
      · exact absurd rfl ((ht p hm).ne hp)
    · rintro rfl
      exact .inr ⟨.inl rfl, by decide⟩
  have hc : ((n.addRole r).pushAll ("fixed" :: ts)).roles.isChrome = true := by
    rw [show ((n.addRole r).pushAll ("fixed" :: ts)).roles = (n.addRole r).roles from rfl, isChrome_addRole, hr,
      Bool.or_true]
  refine ⟨fun h => ?_, iff_of_true ((hmem (by decide)).2 rfl) hc, fun h => ?_⟩
  · exact absurd ((hmem (by decide)).1 h) (by decide)
  · exact absurd ((hmem (by decide)).1 h) (by decide)

theorem grounded_chrome (o : Options) (cv : Canvas) (t : LayerTraits) (box : Box) (opacity : Float32) :
    Gives (Grounded o) (chrome cv t box opacity) := by
  refine (plain_styled t .view box opacity).bind fun n hn => gives_pure ?_
  have key (isHeader : Bool) : Grounded o ((n.addRole (if isHeader then .header else .safeArea)).pushAll
      ["fixed", if isHeader then "top-0" else "bottom-0", "left-0", "w-full", "h-" ++ px box.height, "z-50"]) := by
    refine hn.fixed (by cases isHeader <;> rfl) (fun t ht => ?_) o
    simp only [List.mem_cons, List.not_mem_nil, or_false] at ht
    rcases ht with rfl | rfl | rfl | rfl | rfl
    · cases isHeader <;> decide
    · decide
    · decide
    · exact Neutral.append (by decide) _
    · decide
  generalize (close box.left cv.page.left && close box.top cv.page.top) = isHeader
  exact (key isHeader).of_eq rfl rfl

theorem drawing_posed (o : Options) : Drawing (Posed o) where
  node := by
    intro cv onPage t box opacity
    have hplain {x : Journaled Node} (h : Gives Plain x) :
        Gives (fun n => Posed o .attached n ∧ (isChrome onPage t = false → Posed o .flow n)) x :=
      fun j => ⟨⟨(h j).unplaced.grounded (h j).chrome, by simp⟩,
        fun _ => ⟨(h j).unplaced.grounded (h j).chrome, fun _ => (h j).chrome⟩⟩
    unfold Draft.node
    split
    · next hc => exact fun j => ⟨⟨grounded_chrome o cv t box opacity j, by simp⟩, fun hn => by simp [hc] at hn⟩
    · split
      · exact hplain (plain_text t _ box opacity)
      · exact hplain (plain_image t box opacity)
      · exact hplain (plain_slice t box opacity)
      · exact hplain (plain_styled t .view box opacity)
  marked := fun _ _ _ hm h => ⟨h.grounded.of_eq hm.classes hm.chrome, fun hl => hm.chrome.trans (h.chrome hl)⟩

theorem posed_pageNode (o : Options) (t : LayerTraits) (box : Box) (opacity : Float32) (l : Link) :
    Gives (Posed o l) (pageNode t box opacity) := by
  refine .bind (P := fun _ => True) (fun _ => trivial) fun index _ =>
    (drawn_fillClasses t.fill opacity (some t.id)).bind fun fill hfill => gives_pure ⟨?_, fun _ => rfl⟩
  refine Unplaced.grounded (fun u hu => ?_) rfl
  rcases Classes.mem_pushAll.1 hu with hu | hu
  · have hbase : ∀ v ∈ ["flex", "w-full", "min-h-screen"], Neutral v := by decide
    exact hbase u ((Classes.mem_pushAll.1 hu).resolve_left (by simp)).1
  · exact (hfill u hu.1).neutral (by decide)

theorem posed_ofPage (o : Options) (d : Document) (l : Link) : Gives (fun t => Posed o l t.node) (ofPage o d) := by
  obtain ⟨width, height, t, children⟩ := d
  exact (posed_pageNode o t _ _ l).bind fun n hn => .bind (P := fun _ => True) (fun _ => trivial) fun _ _ => gives_pure hn

end Draft

namespace Stacking

theorem numbered_or (n : Node) (l : Nat) : numbered n l = n ∨ numbered n l = (n.push (level l)).push "relative" := by
  unfold numbered
  split
  · exact .inl rfl
  · exact .inr rfl

theorem owning_or (n : Node) (flow : List Tree) : owning n flow = n ∨ owning n flow = n.push (level (stacked flow)) := by
  unfold owning
  split
  · exact .inl rfl
  · exact .inr rfl

theorem neutral_level (l : Nat) : Neutral (level l) := by
  have h : Neutral "z-[" := by decide
  exact (h.append _).append _

theorem level_ne_empty (l : Nat) : level l ≠ "" := by
  intro h
  have hl := congrArg String.length h
  simp [level] at hl

theorem grounded_numbered {o : Options} (h : o.stacking = true) {n : Node} (hn : n.Grounded o) (l : Nat) :
    ((n.push (level l)).push "relative").Grounded o := by
  have hp := hn.push (neutral_level l)
  have hmem {p : String} : p ∈ ((n.push (level l)).push "relative").classes.toList ↔
      p ∈ (n.push (level l)).classes.toList ∨ p = "relative" :=
    Classes.mem_push.trans (or_congr_right (and_iff_left (by decide)))
  refine ⟨?_, ?_, fun _ => ⟨h, l, hmem.2 (.inl (Classes.mem_push.2 (.inr ⟨rfl, level_ne_empty l⟩)))⟩⟩
  · rw [hmem, not_or]
    exact ⟨hp.absolute, by decide⟩
  · rw [hmem, or_iff_left (by decide)]
    exact hp.fixed

theorem grounded_owning {o : Options} {n : Node} (hn : n.Grounded o) (flow : List Tree) :
    (owning n flow).Grounded o := by
  rcases owning_or n flow with e | e <;> rw [e]
  · exact hn
  · exact hn.push (neutral_level _)

theorem chrome_owning (n : Node) (flow : List Tree) : (owning n flow).roles.isChrome = n.roles.isChrome := by
  rcases owning_or n flow with e | e <;> rw [e]
  rfl

theorem stackable_posed {o : Options} (h : o.stacking = true) : Stackable (Posed o) where
  numbered := by
    intro n l hn
    rcases numbered_or n l with e | e <;> rw [e]
    · exact hn
    · exact ⟨grounded_numbered h hn.grounded l, hn.chrome⟩
  owning := fun _ n flow hn =>
    ⟨grounded_owning hn.grounded flow, fun hl => (chrome_owning n flow).trans (hn.chrome hl)⟩

end Stacking

namespace Regroup

/-- Folding takes the background of the lower node away, and no other token. -/
theorem mem_classes_absorb {lower upper : Node} {t : String} (ht : ∀ p ∈ paintPrefixes, beginsWith p t = false)
    (he : t ≠ "") : t ∈ (lower.absorb upper).classes.toList ↔ t ∈ lower.classes.toList ∨ t ∈ upper.classes.toList := by
  have hbare : t ∈ lower.bare.classes.toList ↔ t ∈ lower.classes.toList := by
    have key (ps : List String) (cs : Classes) (hp : ∀ p ∈ ps, beginsWith p t = false) :
        t ∈ (ps.foldl Classes.erasePrefix cs).toList ↔ t ∈ cs.toList := by
      induction ps generalizing cs with
      | nil => rfl
      | cons p ps ih =>
        obtain ⟨hp, hps⟩ := List.forall_mem_cons.1 hp
        rw [List.foldl_cons, ih _ hps]
        exact List.mem_filter.trans (and_iff_left (by rw [hp]; rfl))
    exact key paintPrefixes lower.classes ht
  unfold absorb
  dsimp only
  rw [Classes.mem_pushAll, and_iff_left he]
  split
  · rw [hbare]
  · rfl

theorem paint_level (l : Nat) : ∀ p ∈ paintPrefixes, beginsWith p (Stacking.level l) = false := by
  intro p hp
  have hz : ∀ p ∈ paintPrefixes, beginsWith p "z-[" = false ∧ beginsWith "z-[" p = false := by decide
  obtain ⟨h, h'⟩ := hz p hp
  rw [Stacking.level, String.append_assoc]
  exact beginsWith_append h h' _

/-- A node that is not chrome brings no position of its own, apart from that of its stacking number. -/
theorem grounded_absorb {o : Options} {lower upper : Node} (h : lower.Grounded o) (h' : upper.Grounded o)
    (hc : upper.roles.isChrome = false) : (lower.absorb upper).Grounded o := by
  have hmem {p : String} (hp : p ∈ positionings) : p ∈ (lower.absorb upper).classes.toList ↔
      p ∈ lower.classes.toList ∨ p ∈ upper.classes.toList := by
    have hpaint : ∀ p ∈ positionings, (∀ s ∈ paintPrefixes, beginsWith s p = false) ∧ p ≠ "" := by decide
    exact mem_classes_absorb (hpaint p hp).1 (hpaint p hp).2
  have hlevel {l : Nat} (hl : Stacking.level l ∈ lower.classes.toList ∨ Stacking.level l ∈ upper.classes.toList) :
      Stacking.level l ∈ (lower.absorb upper).classes.toList :=
    (mem_classes_absorb (paint_level l) (Stacking.level_ne_empty l)).2 hl
  refine ⟨?_, ?_, fun hr => ?_⟩
  · rw [hmem (by simp [positionings]), not_or]
    exact ⟨h.absolute, h'.absolute⟩
  · rw [hmem (by simp [positionings]), h.fixed, h'.fixed, isChrome_absorb, hc, Bool.or_false]
    simp
  · rcases (hmem (by simp [positionings])).1 hr with hr | hr
    · obtain ⟨hs, l, hl⟩ := h.relative hr
      exact ⟨hs, l, hlevel (.inl hl)⟩
    · obtain ⟨hs, l, hl⟩ := h'.relative hr
      exact ⟨hs, l, hlevel (.inr hl)⟩

/-- The tokens of a new container are those of an owner. -/
theorem opens_container {roles : List Role} {n : Node} {k : Nat} (h : Container roles n k) :
    ∀ t ∈ n.classes.toList, Opens Resolve.ownerStems t := by
  rcases h.tokens with e | ⟨-, across, along, e⟩
  · simp [e]
  · have htokens : ∀ t ∈ ["flex-wrap", "gap-x-" ++ px across, "gap-y-" ++ px along], Opens Resolve.ownerStems t := by
      have hx : Opens Resolve.ownerStems "gap-x-" := by decide
      have hy : Opens Resolve.ownerStems "gap-y-" := by decide
      simpa using ⟨by decide, hx.append _, hy.append _⟩
    rw [e]
    intro t ht
    exact htokens t ((Classes.mem_pushAll.1 ht).resolve_left (by simp)).1

theorem unplaced_container {roles : List Role} {n : Node} {k : Nat} (h : Container roles n k) : n.Unplaced :=
  fun t ht => (opens_container h t ht).neutral (by decide)

theorem robust_posed (o : Options) : Robust (Posed o) where
  reads := fun _ _ _ _ hc hr _ h => ⟨h.grounded.of_eq hc hr, fun hl => hr.trans (h.chrome hl)⟩
  absorb := by
    intro l lower upper h h'
    have hc := h'.chrome rfl
    refine ⟨grounded_absorb h.grounded h'.grounded hc, fun hl => ?_⟩
    rw [isChrome_absorb, h.chrome hl, hc, Bool.or_false]
  promoted := by
    intro l n h
    refine ⟨?_, fun hl => ?_⟩
    · exact h.grounded.promoted
    · rw [roles_promoted]
      exact h.chrome hl
  leaves := fun n h => ⟨h.grounded, by simp⟩
  container := by
    intro roles n k h ts _ _
    exact ⟨(unplaced_container h).grounded h.chrome, fun _ => h.chrome⟩

end Regroup

namespace Recovery

/-- Nothing is placed before a tree is resolved. -/
theorem posed_regrouped (o : Options) (d : Document) :
    (regrouped o d).1.Standing (Posed o) ∧ Posed o .flow (regrouped o d).1.node := by
  have hdraft := (Draft.drawing_posed o).ofPage o d {}
  have hroot := node_cleaned o (fun h => Stacking.stackable_posed h) (Draft.posed_ofPage o d .flow {})
  obtain ⟨hs, hn⟩ := standing_regrouped (Regroup.robust_posed o)
    (standing_cleaned o (fun h => Stacking.stackable_posed h) hdraft)
  exact ⟨hs, hn _ hroot⟩

end Recovery

end FlexRecovery
