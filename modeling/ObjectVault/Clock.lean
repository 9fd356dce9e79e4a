/-
What a process reads its time from: the wall clock, which may stall or jump,
and a steady count of milliseconds, which only moves forward.
-/
import ObjectVault.Instant

namespace ObjectVault

structure Clock where
  wall : Instant
  /-- Milliseconds since some fixed moment. -/
  steady : Nat
deriving DecidableEq, Inhabited

end ObjectVault
