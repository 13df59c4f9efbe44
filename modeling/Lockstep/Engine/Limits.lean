set_option autoImplicit false

namespace Lockstep

structure Limits where
  /-- How many derivations may wait for one token. -/
  maxThreads : Nat := 4096
  /-- How many steps may be made for one token. -/
  maxExpansions : Nat := 1000000
  deriving DecidableEq, Repr

structure Metrics where
  tokensConsumed : Nat := 0
  /-- The most derivations met at one token. -/
  peakThreads : Nat := 0
  branches : Nat := 0
  sequencesAllocated : Nat := 0
  deriving DecidableEq, Repr

end Lockstep
