import FlexRecovery.Proofs.Flexbox.Stated

/-!
The band of a flexbox across its direction, and what the tokens of an owner and of its children state of it. Each item
stands by itself between the paddings of the container, where the alignment of the container or its own puts it.
-/

namespace FlexRecovery

namespace Flexbox

/-- The span of a container across its line. -/
@[ext] structure Band where
  start : Int
  stop : Int
  align : Align
  padStart : Int
  padStop : Int
  deriving DecidableEq, Repr

/-- An item across the line of its container. -/
@[ext] structure Piece where
  /-- Its own alignment. -/
  self : Option Align
  marginStart : Int
  extent : Int
  marginStop : Int
  /-- It has a size of its own and cannot be stretched. -/
  isSized : Bool
  deriving DecidableEq, Repr

/-- Where an item begins and ends. A centered one is centered with its margins. -/
def Band.edges (b : Band) (i : Piece) : ℚ × ℚ :=
  let start : ℚ := b.start + b.padStart + i.marginStart
  let stop : ℚ := b.stop - b.padStop - i.marginStop
  match i.self.getD b.align with
  | .start => (start, start + i.extent)
  | .stop => (stop - i.extent, stop)
  | .center => ((start + stop - i.extent) / 2, (start + stop + i.extent) / 2)
  | .stretch => (start, if i.isSized then start + i.extent else stop)

/-- The item is where the box of its node is, exactly if it is stretched and up to the tolerance otherwise. -/
def Band.Reproduces (b : Band) (i : Piece) (cross : Axis) (n : Node) : Prop :=
  if n.sizing cross = some .constrained then b.edges i = ((n.box.start cross : ℚ), (n.box.stop cross : ℚ))
  else |(b.edges i).1 - n.box.start cross| ≤ Tuning.tolerance ∧ |(b.edges i).2 - n.box.stop cross| ≤ Tuning.tolerance

def selfKeyword : Align → String
  | .start => "self-start"
  | .center => "self-center"
  | .stop => "self-end"
  | .stretch => "self-stretch"

theorem bare_selfKeyword (a : Align) : Bare (selfKeyword a) := by cases a <;> decide

theorem selfKeyword_injective : selfKeyword.Injective := by
  intro a b
  cases a <;> cases b <;> decide

theorem token_injective : Align.token.Injective := by
  intro a b
  cases a <;> cases b <;> decide

theorem bare_token (a : Align) : Bare a.token := by cases a <;> decide

/-- The band that tokens of an owner state. -/
structure Band.Written (b : Band) (cross : Axis) (owner : Box) (own : List String) : Prop where
  start : b.start = owner.start cross
  stop : b.stop = owner.stop cross
  align : Chooses Align.token own (some b.align)
  padStart : States (padStartName cross) own b.padStart
  padStop : States (padStopName cross) own b.padStop

/-- What tokens of a child state for its box. -/
structure Piece.Written (i : Piece) (cross : Axis) (box : Box) (tokens : List String) : Prop where
  self : Chooses selfKeyword tokens i.self
  marginStart : States (marginStartName cross) tokens i.marginStart
  extent : i.extent = box.extent cross
  marginStop : States (marginStopName cross) tokens i.marginStop
  isSized : i.isSized = true ↔ ∃ v, declaration (Resolve.sizeLetter cross) v ∈ tokens

/-- The tokens state one band. -/
theorem Band.Written.unique {b b' : Band} {cross : Axis} {owner : Box} {own : List String}
    (h : b.Written cross owner own) (h' : b'.Written cross owner own) : b = b' :=
  Band.ext (h.start.trans h'.start.symm) (h.stop.trans h'.stop.symm) (Option.some.inj (h.align.unique h'.align))
    (h.padStart.unique h'.padStart) (h.padStop.unique h'.padStop)

/-- The tokens state one item. -/
theorem Piece.Written.unique {i i' : Piece} {cross : Axis} {box : Box} {tokens : List String}
    (h : i.Written cross box tokens) (h' : i'.Written cross box tokens) : i = i' :=
  Piece.ext (h.self.unique h'.self) (h.marginStart.unique h'.marginStart) (h.extent.trans h'.extent.symm)
    (h.marginStop.unique h'.marginStop) (Bool.eq_iff_iff.2 (h.isSized.trans h'.isSized.symm))

end Flexbox

namespace Resolve

open Flexbox

/-! ### The band of a plan -/

/-- The band that a plan for an owner states. -/
def CrossPlan.band (p : CrossPlan) (owner : Box) (cross : Axis) : Band where
  start := owner.start cross
  stop := owner.stop cross
  align := p.align
  padStart := max p.padStart 0
  padStop := max p.padStop 0

theorem written_band (p : CrossPlan) (owner : Box) (cross : Axis) :
    (p.band owner cross).Written cross owner (p.ownTokens cross) := by
  obtain ⟨hstart, hstop⟩ := states_paddings cross p.padStart p.padStop
  have hkey (name : String) : States name [p.align.token] 0 := .keyword (bare_token _) name
  have hs := (hkey (padStartName cross)).append hstart (.inl rfl)
  have he := (hkey (padStopName cross)).append hstop (.inl rfl)
  rw [zero_add] at hs he
  exact ⟨rfl, rfl, .cons token_injective bare_token _
    (List.forall_mem_append.2 ⟨not_bare_padToken _, not_bare_padToken _⟩), hs, he⟩

/-! ### What a child states -/

/-- The alignment that a token states. -/
def CrossToken.self? : CrossToken → Option Align
  | selfStart => some .start
  | selfStop => some .stop
  | selfCenter => some .center
  | marginStart _ | marginStop _ => none

/-- The alignment and the margins among tokens of a child. -/
structure Says (ts : List CrossToken) (chosen : Option Align) (s e : Int) : Prop where
  self : ∀ a, (∃ t ∈ ts, t.self? = some a) ↔ chosen = some a
  marginStart : ∀ w, .marginStart w ∈ ts ↔ s ≠ 0 ∧ w = s
  marginStop : ∀ w, .marginStop w ∈ ts ↔ e ≠ 0 ∧ w = e

theorem says_nil : Says [] none 0 0 := ⟨by simp, by simp, by simp⟩

theorem says_self {t : CrossToken} {a : Align} (h : t.self? = some a) : Says [t] (some a) 0 0 := by
  refine ⟨fun b => by simp [h], fun w => ?_, fun w => ?_⟩ <;> cases t <;> simp_all [CrossToken.self?]

variable {ts : List CrossToken} {chosen : Option Align} {s e : Int}

/-- Margins say nothing about the alignment. -/
theorem Says.withStart (h : Says ts chosen 0 e) (hs : s ≠ 0) : Says (ts ++ [.marginStart s]) chosen s e := by
  obtain ⟨h1, h2, h3⟩ := h
  refine ⟨fun a => ?_, fun w => ?_, fun w => ?_⟩
  · rw [← h1 a]
    simp [or_and_right, exists_or, CrossToken.self?]
  · simp [h2 w, hs]
  · simp [h3 w]

theorem Says.withStop (h : Says ts chosen s 0) (he : e ≠ 0) : Says (ts ++ [.marginStop e]) chosen s e := by
  obtain ⟨h1, h2, h3⟩ := h
  refine ⟨fun a => ?_, fun w => ?_, fun w => ?_⟩
  · rw [← h1 a]
    simp [or_and_right, exists_or, CrossToken.self?]
  · simp [h2 w]
  · simp [h3 w, he]

theorem extentToken_eq (n : Node) (axis : Axis) :
    extentToken n axis = declaration (sizeLetter axis) (n.box.extent axis) := rfl

theorem bare_sizeLetter (axis : Axis) : Bare (sizeLetter axis) := by cases axis <;> decide

/-- A fixed size is stated, along the axis that it belongs to. -/
theorem declaration_mem_sizeTokens {name : String} (hb : Bare name) (direction : Axis) (isStretching : Bool) (n : Node)
    (axis : Axis) (v : Int) : declaration name v ∈ sizeTokens direction isStretching n axis ↔
      n.sizing axis = some .fixed ∧ name = sizeLetter axis ∧ v = n.box.extent axis := by
  have hkey {t : String} (ht : Bare t) : declaration name v ≠ t := declaration_ne ht name v
  unfold sizeTokens
  cases n.sizing axis with
  | none => simp
  | some s =>
    cases s with
    | auto => simp
    | fixed =>
      simp only [extentToken_eq, List.mem_cons, declaration_inj hb (bare_sizeLetter axis), true_and]
      refine or_iff_left ?_
      split
      · exact List.mem_singleton.not.2 (hkey (by decide))
      · exact List.not_mem_nil
    | constrained =>
      simp only [Option.some.injEq, reduceCtorEq, false_and, iff_false]
      split
      · exact List.mem_singleton.not.2 (hkey (by decide))
      · split
        · exact List.not_mem_nil
        · exact List.mem_singleton.not.2 (hkey (by decide))

/-- A size says to stretch if it is constrained across the direction and nothing else says so. -/
theorem selfKeyword_mem_sizeTokens (a : Align) (direction : Axis) (isStretching : Bool) (n : Node) (axis : Axis) :
    selfKeyword a ∈ sizeTokens direction isStretching n axis ↔
      n.sizing axis = some .constrained ∧ axis ≠ direction ∧ isStretching = false ∧ a = .stretch := by
  have hextent : selfKeyword a ≠ extentToken n axis := (declaration_ne (bare_selfKeyword a) _ _).symm
  unfold sizeTokens
  cases n.sizing axis with
  | none => simp
  | some s =>
    cases s with
    | auto => simp
    | fixed =>
      simp only [List.mem_cons, hextent, false_or, Option.some.injEq, reduceCtorEq, false_and, iff_false]
      split
      · cases a <;> decide
      · exact List.not_mem_nil
    | constrained =>
      simp only [true_and]
      split
      · next h =>
        simp only [h, ne_eq, not_true_eq_false, false_and, iff_false]
        cases a <;> decide
      · next h =>
        cases isStretching
        · simp only [h, ne_eq, not_false_eq_true, true_and, Bool.false_eq_true, if_false, List.mem_singleton]
          cases a <;> decide
        · simp

/-- The tokens of a child, of its place and of its size. -/
def crossTokens (direction : Axis) (isStretching : Bool) (n : Node) (ts : List CrossToken) : List String :=
  ts.map (CrossToken.text direction.cross) ++
    (sizeTokens direction isStretching n .row ++ sizeTokens direction isStretching n .column)

theorem declaration_mem_text {cross : Axis} {name : String} (hb : Bare name) (w : Int) :
    declaration name w ∈ ts.map (CrossToken.text cross) ↔ (name = marginStartName cross ∧ .marginStart w ∈ ts) ∨
      (name = marginStopName cross ∧ .marginStop w ∈ ts) := by
  obtain ⟨hs, he, -, -, -⟩ := bare_names cross
  rw [List.mem_map]
  constructor
  · rintro ⟨v | v | _ | _ | _, ht, h⟩
    · obtain ⟨rfl, rfl⟩ := (declaration_inj hs hb).1 h
      exact .inl ⟨rfl, ht⟩
    · obtain ⟨rfl, rfl⟩ := (declaration_inj he hb).1 h
      exact .inr ⟨rfl, ht⟩
    · exact absurd h.symm (declaration_ne (bare_selfKeyword .start) name w)
    · exact absurd h.symm (declaration_ne (bare_selfKeyword .stop) name w)
    · exact absurd h.symm (declaration_ne (bare_selfKeyword .center) name w)
  · rintro (⟨rfl, h⟩ | ⟨rfl, h⟩)
    · exact ⟨_, h, rfl⟩
    · exact ⟨_, h, rfl⟩

theorem selfKeyword_mem_text {cross : Axis} (a : Align) :
    selfKeyword a ∈ ts.map (CrossToken.text cross) ↔ ∃ t ∈ ts, t.self? = some a := by
  have hkey (b : Align) : selfKeyword b = selfKeyword a ↔ some b = some a :=
    selfKeyword_injective.eq_iff.trans Option.some_inj.symm
  rw [List.mem_map]
  refine exists_congr fun t => and_congr_right fun _ => ?_
  cases t with
  | marginStart v => exact iff_of_false (declaration_ne (bare_selfKeyword a) _ v) (by simp [CrossToken.self?])
  | marginStop v => exact iff_of_false (declaration_ne (bare_selfKeyword a) _ v) (by simp [CrossToken.self?])
  | selfStart => exact hkey .start
  | selfStop => exact hkey .stop
  | selfCenter => exact hkey .center

/-- The piece that a child states. -/
def pieceOf (direction : Axis) (isStretching : Bool) (n : Node) (chosen : Option Align) (s e : Int) : Piece where
  self := if n.sizing direction.cross = some .constrained ∧ isStretching = false then some .stretch else chosen
  marginStart := s
  extent := n.box.extent direction.cross
  marginStop := e
  isSized := n.sizing direction.cross == some .fixed

theorem declaration_mem_crossTokens {name : String} (hb : Bare name) (direction : Axis) (isStretching : Bool) (n : Node)
    (w : Int) : declaration name w ∈ crossTokens direction isStretching n ts ↔
      (name = marginStartName direction.cross ∧ .marginStart w ∈ ts) ∨
      (name = marginStopName direction.cross ∧ .marginStop w ∈ ts) ∨
      ∃ axis, n.sizing axis = some .fixed ∧ name = sizeLetter axis ∧ w = n.box.extent axis := by
  have haxes (P : Axis → Prop) : (∃ axis, P axis) ↔ P .row ∨ P .column :=
    ⟨fun ⟨axis, h⟩ => by cases axis <;> simp [h], fun h => h.elim (⟨_, ·⟩) (⟨_, ·⟩)⟩
  rw [crossTokens, List.mem_append, List.mem_append, declaration_mem_text hb, declaration_mem_sizeTokens hb,
    declaration_mem_sizeTokens hb, haxes, or_assoc]

theorem selfKeyword_mem_crossTokens (a : Align) (direction : Axis) (isStretching : Bool) (n : Node) :
    selfKeyword a ∈ crossTokens direction isStretching n ts ↔ (∃ t ∈ ts, t.self? = some a) ∨
      n.sizing direction.cross = some .constrained ∧ isStretching = false ∧ a = .stretch := by
  rw [crossTokens, List.mem_append, List.mem_append, selfKeyword_mem_text, selfKeyword_mem_sizeTokens,
    selfKeyword_mem_sizeTokens]
  cases direction <;> simp [Axis.cross]

theorem written_pieceOf {direction : Axis} {isStretching : Bool} {n : Node} (h : Says ts chosen s e)
    (hc : n.sizing direction.cross = some .constrained → chosen = none) :
    (pieceOf direction isStretching n chosen s e).Written direction.cross n.box
      (crossTokens direction isStretching n ts) := by
  obtain ⟨hs, he, -, -, -⟩ := bare_names direction.cross
  have hne : marginStartName direction.cross ≠ marginStopName direction.cross := by cases direction <;> decide
  have hsize (axis : Axis) : marginStartName direction.cross ≠ sizeLetter axis ∧
      marginStopName direction.cross ≠ sizeLetter axis := by cases direction <;> cases axis <;> decide
  have hletter (axis : Axis) : sizeLetter direction.cross = sizeLetter axis ↔ direction.cross = axis := by
    cases direction <;> cases axis <;> decide
  refine ⟨fun a => ?_, fun w => ?_, rfl, fun w => ?_, ?_⟩
  · rw [selfKeyword_mem_crossTokens, h.self, pieceOf]
    by_cases hcs : n.sizing direction.cross = some .constrained ∧ isStretching = false
    · rw [if_pos hcs, hc hcs.1, Option.some_inj]
      simp [hcs, eq_comm]
    · rw [if_neg hcs, or_iff_left]
      exact fun hx => hcs ⟨hx.1, hx.2.1⟩
  · rw [declaration_mem_crossTokens hs]
    simp only [hne, hsize, true_and, false_and, and_false, exists_false, or_false]
    exact h.marginStart w
  · rw [declaration_mem_crossTokens he]
    simp only [hne.symm, hsize, true_and, false_and, and_false, exists_false, false_or, or_false]
    exact h.marginStop w
  · simp only [declaration_mem_crossTokens (bare_sizeLetter _), hletter, (hsize _).1.symm, (hsize _).2.symm, false_and,
      false_or, pieceOf, beq_iff_eq]
    constructor
    · exact fun hf => ⟨_, _, hf, rfl, rfl⟩
    · rintro ⟨v, axis, hf, rfl, -⟩
      exact hf

end Resolve

end FlexRecovery
