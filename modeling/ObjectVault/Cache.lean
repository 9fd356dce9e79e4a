/-
A cache of decoded objects, bounded by the bytes of state it stands for.  The
least recently used entries leave first.

A reader that fills the cache takes a ticket before it goes to the store.
Every invalidation makes the tickets issued before it stale, so a version that
was superseded while it was being read is not filled in.
-/
import ObjectVault.Oid
import ObjectVault.Tid
import ObjectVault.Text.Describe

namespace ObjectVault

/-- Whatever has to hear which objects a commit or a pack has touched. -/
class Invalidator (κ : Type) where
  invalidate : κ → List Oid → κ

/-- A cached version. -/
structure CacheEntry (ν : Type) where
  tid : Tid
  value : ν
  size : Nat
  /-- When the entry was used last. -/
  tick : Nat

/-- What a cache has counted since it was created. -/
structure CacheCounts where
  hits : Nat := 0
  misses : Nat := 0
  inserts : Nat := 0
  evictions : Nat := 0
  invalidations : Nat := 0
  /-- Fills dropped because their ticket was stale. -/
  staleFills : Nat := 0
deriving DecidableEq, Inhabited

/-- A cache at one point in time, in numbers. -/
structure CacheStats extends CacheCounts where
  budget : Nat
  resident : Nat
  entries : Nat
deriving DecidableEq

/-- The share of look-ups that were hits; zero before the first. -/
def CacheCounts.hitRate (counts : CacheCounts) : Float :=
  let lookups := counts.hits + counts.misses
  if lookups = 0 then 0
  else (UInt64.ofNat counts.hits).toFloat / (UInt64.ofNat lookups).toFloat

/-- Proof that a reader asked for a fill before it went to the store. -/
structure FillTicket where
  generation : Nat
deriving DecidableEq

structure Cache (ν : Type) where
  /-- The most bytes that stay resident; zero disables the cache. -/
  budget : Nat
  entries : OidMap (CacheEntry ν) := ∅
  /-- The entry used at each tick; the smallest tick is the least recent. -/
  order : Std.ExtTreeMap Nat Oid := ∅
  resident : Nat := 0
  clock : Nat := 0
  /-- How many invalidations there have been. -/
  generation : Nat := 0
  counts : CacheCounts := {}

namespace Cache

/-- The largest budget there can be. -/
def maxBudget : Nat := UInt64.size - 1

def ofMegabytes (megabytes : Nat) : Cache ν :=
  { budget := min (megabytes * 0x100000) maxBudget }

def isEnabled (cache : Cache ν) : Bool := 0 < cache.budget

def size (cache : Cache ν) : Nat := cache.entries.size

def isEmpty (cache : Cache ν) : Bool := cache.entries.isEmpty

def contains (cache : Cache ν) (oid : Oid) : Bool := cache.entries.contains oid

/-- Make an entry the most recently used one. -/
def touch (cache : Cache ν) (oid : Oid) (entry : CacheEntry ν) : Cache ν :=
  let tick := cache.clock + 1
  { cache with
    clock := tick
    entries := cache.entries.insert oid { entry with tick }
    order := (cache.order.erase entry.tick).insert tick oid }

/-- Look an object up, which makes it the most recently used one. -/
def get (cache : Cache ν) (oid : Oid) : Option (Tid × ν) × Cache ν :=
  match cache.entries[oid]? with
  | some entry =>
      (some (entry.tid, entry.value),
        { cache.touch oid entry with
          counts := { cache.counts with hits := cache.counts.hits + 1 } })
  | none =>
      (none, { cache with counts := { cache.counts with misses := cache.counts.misses + 1 } })

/-- Drop an entry, if there is one. -/
def remove (cache : Cache ν) (oid : Oid) : Cache ν :=
  match cache.entries[oid]? with
  | some entry =>
      { cache with
        entries := cache.entries.erase oid
        order := cache.order.erase entry.tick
        resident := cache.resident - entry.size }
  | none => cache

/-- Drop the least recently used entry, if there is one. -/
def evictOldest? (cache : Cache ν) : Option (Cache ν) :=
  cache.order.minEntry?.map fun (tick, oid) =>
    { cache with
      entries := cache.entries.erase oid
      order := cache.order.erase tick
      resident := match cache.entries[oid]? with
        | some entry => cache.resident - entry.size
        | none => cache.resident
      counts := { cache.counts with evictions := cache.counts.evictions + 1 } }

/-- Drop least recently used entries until the rest fits the budget, but at
most `bound` of them. -/
def evictUpTo : Nat → Cache ν → Cache ν
  | 0, cache => cache
  | bound + 1, cache =>
      if cache.resident ≤ cache.budget then cache
      else match cache.evictOldest? with
        | some smaller => evictUpTo bound smaller
        | none => cache

/-- Drop least recently used entries until the rest fits the budget. -/
def evict (cache : Cache ν) : Cache ν := cache.evictUpTo cache.order.size

/-- Whether a version may be inserted: it fits the budget, and no newer
version of the object is cached. -/
def accepts (cache : Cache ν) (oid : Oid) (tid : Tid) (size : Nat) : Bool :=
  size ≤ cache.budget && cache.entries[oid]?.all (·.tid ≤ tid)

/-- Insert an accepted version as the most recently used entry, and evict
until the budget holds. -/
def insert (cache : Cache ν) (oid : Oid) (tid : Tid) (value : ν) (size : Nat) : Cache ν :=
  let cache := cache.remove oid
  let tick := cache.clock + 1
  { cache with
    clock := tick
    entries := cache.entries.insert oid ⟨tid, value, size, tick⟩
    order := cache.order.insert tick oid
    resident := cache.resident + size
    counts := { cache.counts with inserts := cache.counts.inserts + 1 }
  }.evict

/-- Offer a version to the cache. -/
def put (cache : Cache ν) (oid : Oid) (tid : Tid) (value : ν) (size : Nat) : Bool × Cache ν :=
  if cache.accepts oid tid size then (true, cache.insert oid tid value size)
  else (false, cache)

/-- The ticket for a fill that starts now. -/
def ticket (cache : Cache ν) : FillTicket := ⟨cache.generation⟩

/-- Offer a version that was read under a ticket; a stale ticket is refused. -/
def putIfFresh (cache : Cache ν) (oid : Oid) (tid : Tid) (value : ν) (size : Nat)
    (ticket : FillTicket) : Bool × Cache ν :=
  if ticket = cache.ticket then cache.put oid tid value size
  else (false,
    { cache with counts := { cache.counts with staleFills := cache.counts.staleFills + 1 } })

/-- Drop the entries of the given objects and make all tickets stale. -/
def invalidate (cache : Cache ν) (oids : List Oid) : Cache ν :=
  let left := oids.foldl remove cache
  { left with
    generation := cache.generation + 1
    counts := { cache.counts with
      invalidations := cache.counts.invalidations + (cache.size - left.size) } }

instance : Invalidator (Cache ν) := ⟨invalidate⟩

/-- Drop every entry and make all tickets stale. -/
def clear (cache : Cache ν) : Cache ν :=
  { cache with
    entries := ∅
    order := ∅
    resident := 0
    generation := cache.generation + 1
    counts := { cache.counts with
      invalidations := cache.counts.invalidations + cache.size } }

def stats (cache : Cache ν) : CacheStats :=
  { cache.counts with
    budget := cache.budget, resident := cache.resident, entries := cache.size }

def describe (cache : Cache ν) : String := Describe.record "LocalCache"
  [("budget", toString cache.budget), ("resident", toString cache.resident),
    ("entries", toString cache.size)]

end Cache

end ObjectVault
