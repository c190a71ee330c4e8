/-! Identifiers of the layers of a design. -/

namespace FlexRecovery

/-- Names a layer. Only nodes that stand for a layer carry one; generated containers do not. -/
structure DesignId where
  name : String
  deriving DecidableEq, Repr, Inhabited

namespace DesignId

/-- As it is written in findings and labels. -/
def tagged (id : DesignId) : String := "#" ++ id.name

/-- By code points, which is also the order of the UTF-8 bytes. -/
def order (a b : DesignId) : Ordering := compareOfLessAndEq a.name b.name

end DesignId

end FlexRecovery
