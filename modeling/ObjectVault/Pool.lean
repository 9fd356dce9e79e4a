/-
A bounded pool of connections.  They are opened when needed, up to a limit,
and one that is borrowed belongs to its borrower alone.

Borrowing happens in sections, each atomic: a slot is reserved, the connection
is opened outside the pool, and a failure gives the slot back.
-/
import ObjectVault.Store.Error

namespace ObjectVault

structure PoolSettings where
  /-- Connections opened when the pool is created. -/
  minSize : Nat := 1
  /-- The most connections that are open at once. -/
  maxSize : Nat := 10
  /-- How long a borrower waits for a free connection. -/
  waitMs : Nat := 30000
deriving DecidableEq, Inhabited

/-- A way to open connections, with what it remembers between attempts. -/
abbrev Connector (φ κ : Type) := φ → Except StoreError κ × φ

structure Pool (κ : Type) where
  maxSize : Nat
  /-- Connections nobody holds; the one returned last is first. -/
  idle : List κ
  /-- Connections idle, borrowed or being opened. -/
  opened : Nat

namespace Pool

/-- The first section of borrowing. -/
inductive Reservation (κ : Type) where
  | reused (connection : κ) (pool : Pool κ)
  /-- A connection may be opened. -/
  | slot (pool : Pool κ)
  | exhausted

def reserve (pool : Pool κ) : Reservation κ :=
  match pool.idle with
  | connection :: idle => .reused connection { pool with idle }
  | [] =>
      if pool.opened < pool.maxSize then .slot { pool with opened := pool.opened + 1 }
      else .exhausted

/-- Give back the slot of a connection that could not be opened. -/
def abandon (pool : Pool κ) : Pool κ := { pool with opened := pool.opened - 1 }

/-- Return a borrowed connection. -/
def release (pool : Pool κ) (connection : κ) : Pool κ :=
  { pool with idle := connection :: pool.idle }

/-- Close a borrowed connection. -/
def discard (pool : Pool κ) : Pool κ := { pool with opened := pool.opened - 1 }

/-- Borrow a connection while nobody else returns one. -/
def get (pool : Pool κ) (connect : Connector φ κ) (factory : φ) :
    Except StoreError κ × Pool κ × φ :=
  match pool.reserve with
  | .reused connection pool => (.ok connection, pool, factory)
  | .exhausted => (.error (.unavailable (.poolExhausted pool.opened)), pool, factory)
  | .slot reserved =>
      match connect factory with
      | (.ok connection, factory) => (.ok connection, reserved, factory)
      | (.error error, factory) => (.error error, reserved.abandon, factory)

/-- Open connections one after another until one fails. -/
def connectAll (connect : Connector φ κ) : Nat → List κ → φ → Except StoreError (List κ) × φ
  | 0, idle, factory => (.ok idle, factory)
  | count + 1, idle, factory =>
      match connect factory with
      | (.ok connection, factory) => connectAll connect count (connection :: idle) factory
      | (.error error, factory) => (.error error, factory)

/-- A pool with its first connections opened.  It needs room for one. -/
def create (settings : PoolSettings) (connect : Connector φ κ) (factory : φ) :
    Except StoreError (Pool κ) × φ :=
  if settings.maxSize = 0 then (.error (.backend .emptyPool), factory)
  else
    let (opened, factory) :=
      connectAll connect (min settings.minSize settings.maxSize) [] factory
    (opened.map fun idle => ⟨settings.maxSize, idle, idle.length⟩, factory)

end Pool

end ObjectVault
