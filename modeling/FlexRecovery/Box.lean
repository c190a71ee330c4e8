import FlexRecovery.Axis

/-! Boxes on the pixel grid. Trailing edges are derived, so they never disagree with the size. -/

namespace FlexRecovery

/-- A box with its origin at the top left. -/
structure Box where
  left : Int
  top : Int
  width : Nat
  height : Nat
  deriving DecidableEq, Repr, Inhabited

namespace Box

def right (b : Box) : Int := b.left + b.width

def bottom (b : Box) : Int := b.top + b.height

/-- A negative size counts as zero. -/
def ofSize (left top width height : Int) : Box := ⟨left, top, width.toNat, height.toNat⟩

def ofEdges (left top right bottom : Int) : Box := ofSize left top (right - left) (bottom - top)

/-- The empty box at the origin. -/
def zero : Box := ⟨0, 0, 0, 0⟩

def area (b : Box) : Nat := b.width * b.height

def isEmpty (b : Box) : Bool := b.width == 0 || b.height == 0

/-- The leading edge along an axis. -/
def start (b : Box) : Axis → Int
  | .row => b.left
  | .column => b.top

/-- The trailing edge along an axis. -/
def stop (b : Box) : Axis → Int
  | .row => b.right
  | .column => b.bottom

def extent (b : Box) : Axis → Nat
  | .row => b.width
  | .column => b.height

/-- Another span along one axis, the same one along the other. -/
def withSpan (b : Box) (axis : Axis) (start stop : Int) : Box :=
  match axis with
  | .row => ofEdges start b.top stop b.bottom
  | .column => ofEdges b.left start b.right stop

/-- The shared area of two boxes, if there is one. -/
def meet (a b : Box) : Option Box :=
  let left := max a.left b.left
  let top := max a.top b.top
  let right := min a.right b.right
  let bottom := min a.bottom b.bottom
  if left < right ∧ top < bottom then some (ofEdges left top right bottom) else none

/-- The smallest box that covers both. -/
def join (a b : Box) : Box :=
  ofEdges (min a.left b.left) (min a.top b.top) (max a.right b.right) (max a.bottom b.bottom)

/-- The smallest box that covers them all. -/
def hull? : List Box → Option Box
  | [] => none
  | b :: bs => some (bs.foldl join b)

/-- Covers them all; the zero box covers none. -/
def hull (boxes : List Box) : Box := (hull? boxes).getD zero

/-- The spaces between neighbours along an axis, negative where they overlap. -/
def gaps (axis : Axis) : List Box → List Int
  | a :: b :: rest => (b.start axis - a.stop axis) :: gaps axis (b :: rest)
  | _ => []

theorem edges_meet {a b c : Box} (h : a.meet b = some c) :
    c.left = max a.left b.left ∧ c.top = max a.top b.top ∧ c.right = min a.right b.right ∧
      c.bottom = min a.bottom b.bottom ∧ 0 < c.width ∧ 0 < c.height := by
  unfold meet at h
  dsimp only at h
  split at h
  · next hc =>
    obtain rfl := Option.some.inj h
    unfold right bottom at *
    refine ⟨rfl, rfl, ?_, ?_, ?_, ?_⟩ <;> (simp only [ofEdges, ofSize]; omega)
  · cases h

theorem edges_join (a b : Box) :
    (a.join b).left = min a.left b.left ∧ (a.join b).top = min a.top b.top ∧
      (a.join b).right = max a.right b.right ∧ (a.join b).bottom = max a.bottom b.bottom := by
  unfold right bottom
  refine ⟨rfl, rfl, ?_, ?_⟩ <;> (simp only [join, ofEdges, ofSize, right, bottom]; omega)

theorem stop_eq (b : Box) (axis : Axis) : b.stop axis = b.start axis + b.extent axis := by
  cases axis <;> rfl

theorem start_le_stop (b : Box) (axis : Axis) : b.start axis ≤ b.stop axis := by
  rw [stop_eq]; omega

theorem start_withSpan (b : Box) (axis : Axis) (s e : Int) : (b.withSpan axis s e).start axis = s := by
  cases axis <;> rfl

theorem stop_withSpan (b : Box) (axis : Axis) {s e : Int} (h : s ≤ e) :
    (b.withSpan axis s e).stop axis = e := by
  cases axis <;> simp [withSpan, ofEdges, ofSize, stop, right, bottom] <;> omega

theorem start_withSpan_cross (b : Box) (axis : Axis) (s e : Int) :
    (b.withSpan axis.cross s e).start axis = b.start axis := by
  cases axis <;> rfl

theorem stop_withSpan_cross (b : Box) (axis : Axis) (s e : Int) :
    (b.withSpan axis.cross s e).stop axis = b.stop axis := by
  cases axis <;> simp only [Axis.cross, withSpan, ofEdges, ofSize, stop, right, bottom] <;> omega

end Box

end FlexRecovery
