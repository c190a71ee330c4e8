/-! The pixel thresholds and counts that the layout rules are calibrated with. -/

namespace FlexRecovery.Tuning

/-- Two pixel values no farther apart than this count as equal. -/
def tolerance : Int := 1

/-- Painted leaves no thicker than this, and elongated, are dividers. -/
def dividerThickness : Nat := 2

/-- Overlapping strips no thicker than this that lie along an edge are borders. -/
def borderThickness : Nat := 2

/-- The longest period that repetition is searched for. -/
def longestPeriod : Nat := 3

/-- Repeating groups that a single line needs to become a list. -/
def fewestGroups : Nat := 3

/-- Children that have to share a margin before it becomes padding of their owner. -/
def fewestSharing : Nat := 3

/-- The stacking number of a text. -/
def textLevel : Nat := 99

/-- The longest canvas edge that is accepted, in pixels. -/
def longestEdge : Float32 := 16384

/-- Line height of a run that states none, as a multiple of its font size. -/
def lineHeightRatio : Float32 := 1.4

end FlexRecovery.Tuning
