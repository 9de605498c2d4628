/-! What the engine can be told: how much storage to set aside at first, whether
getters are checked when a plan is compiled, and the name of the root table. -/

namespace BitStore

structure Settings where
  initialCapacity : Nat := 0
  analyzeGetters : Bool := true
  rootTable : String := "root"
  deriving DecidableEq

end BitStore
