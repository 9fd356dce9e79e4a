/-
What a cache holds.  Each operation is described by the versions found in the
cache it leaves and by what it does to outstanding tickets.  Only a fill puts a
version in, and no operation but an invalidation or a clearing makes a ticket
stale.
-/
import ObjectVault.Cache

namespace ObjectVault.Cache

variable {ν : Type}

/-- The cached version of an object. -/
def find? (cache : Cache ν) (oid : Oid) : Option (Tid × ν) :=
  cache.entries[oid]?.map fun entry => (entry.tid, entry.value)

theorem get_fst (cache : Cache ν) (oid : Oid) : (cache.get oid).1 = cache.find? oid := by
  rw [get, find?]
  split
  · rename_i hentry
    rw [hentry]
    rfl
  · rename_i hnone
    rw [hnone]
    rfl

theorem find?_get (cache : Cache ν) (oid other : Oid) :
    (cache.get oid).2.find? other = cache.find? other := by
  rw [get]
  split
  · rename_i entry hentry
    simp only [find?, touch, Std.ExtTreeMap.getElem?_insert]
    split
    · rename_i hsame
      rw [← Std.LawfulEqCmp.eq_of_compare hsame, hentry]
      rfl
    · rfl
  · rfl

theorem ticket_get (cache : Cache ν) (oid : Oid) : (cache.get oid).2.ticket = cache.ticket := by
  rw [get]
  split <;> rfl

theorem find?_remove (cache : Cache ν) (oid other : Oid) :
    (cache.remove oid).find? other = if other = oid then none else cache.find? other := by
  rw [remove]
  split
  · simp only [find?, Std.ExtTreeMap.getElem?_erase, Std.LawfulEqCmp.compare_eq_iff_eq,
      eq_comm (a := oid)]
    split <;> rfl
  · rename_i hnone
    split
    · rename_i hsame
      rw [hsame, find?, hnone]
      rfl
    · rfl

theorem ticket_remove (cache : Cache ν) (oid : Oid) : (cache.remove oid).ticket = cache.ticket := by
  rw [remove]
  split <;> rfl

theorem evictOldest?_eq_some {cache smaller : Cache ν} (h : cache.evictOldest? = some smaller) :
    smaller.ticket = cache.ticket ∧
      ∀ oid found, smaller.find? oid = some found → cache.find? oid = some found := by
  obtain ⟨⟨tick, oldest⟩, _, rfl⟩ := Option.map_eq_some_iff.mp h
  constructor
  · rfl
  · intro oid found hfound
    simp only [find?, Std.ExtTreeMap.getElem?_erase] at hfound
    split at hfound
    · cases hfound
    · exact hfound

theorem evictUpTo_subset (bound : Nat) (cache : Cache ν) :
    (cache.evictUpTo bound).ticket = cache.ticket ∧
      ∀ oid found, (cache.evictUpTo bound).find? oid = some found →
        cache.find? oid = some found := by
  induction bound generalizing cache with
  | zero => exact ⟨rfl, fun _ _ hfound => hfound⟩
  | succ bound ih =>
      rw [evictUpTo]
      split
      · exact ⟨rfl, fun _ _ hfound => hfound⟩
      · split
        · rename_i smaller hsmaller
          obtain ⟨hticket, hsubset⟩ := evictOldest?_eq_some hsmaller
          obtain ⟨hrestTicket, hrestSubset⟩ := ih smaller
          exact ⟨hrestTicket.trans hticket, fun oid found hfound =>
            hsubset oid found (hrestSubset oid found hfound)⟩
        · exact ⟨rfl, fun _ _ hfound => hfound⟩

/-- What is left after an eviction was there before it. -/
theorem find?_of_evict {cache : Cache ν} {oid : Oid} {found : Tid × ν}
    (h : cache.evict.find? oid = some found) : cache.find? oid = some found :=
  (evictUpTo_subset _ cache).2 oid found h

theorem ticket_evict (cache : Cache ν) : cache.evict.ticket = cache.ticket :=
  (evictUpTo_subset _ cache).1

/-- An insertion puts in the version it is given and no other. -/
theorem find?_of_insert {cache : Cache ν} {oid other : Oid} {tid : Tid} {value : ν} {size : Nat}
    {found : Tid × ν} (h : (cache.insert oid tid value size).find? other = some found) :
    (other = oid ∧ found = (tid, value)) ∨ cache.find? other = some found := by
  rw [insert] at h
  have hbefore := find?_of_evict h
  simp only [find?, Std.ExtTreeMap.getElem?_insert, Std.LawfulEqCmp.compare_eq_iff_eq] at hbefore
  split at hbefore
  · rename_i hsame
    exact Or.inl ⟨hsame.symm, (Option.some.inj hbefore).symm⟩
  · rename_i hother
    have hremoved : (cache.remove oid).find? other = some found := hbefore
    rw [find?_remove, if_neg fun hsame => hother hsame.symm] at hremoved
    exact Or.inr hremoved

theorem ticket_insert (cache : Cache ν) (oid : Oid) (tid : Tid) (value : ν) (size : Nat) :
    (cache.insert oid tid value size).ticket = cache.ticket :=
  (ticket_evict _).trans (ticket_remove cache oid)

/-- A fill puts in the version it is given, under a fresh ticket only. -/
theorem find?_of_putIfFresh {cache : Cache ν} {oid other : Oid} {tid : Tid} {value : ν}
    {size : Nat} {ticket : FillTicket} {found : Tid × ν}
    (h : (cache.putIfFresh oid tid value size ticket).2.find? other = some found) :
    (ticket = cache.ticket ∧ other = oid ∧ found = (tid, value)) ∨
      cache.find? other = some found := by
  rw [putIfFresh] at h
  split at h
  · rename_i hfresh
    rw [put] at h
    split at h
    · rcases find?_of_insert h with ⟨hoid, hfound⟩ | hbefore
      · exact Or.inl ⟨hfresh, hoid, hfound⟩
      · exact Or.inr hbefore
    · exact Or.inr h
  · exact Or.inr h

theorem ticket_putIfFresh (cache : Cache ν) (oid : Oid) (tid : Tid) (value : ν) (size : Nat)
    (ticket : FillTicket) :
    (cache.putIfFresh oid tid value size ticket).2.ticket = cache.ticket := by
  rw [putIfFresh]
  split
  · rw [put]
    split
    · exact ticket_insert cache oid tid value size
    · rfl
  · rfl

theorem find?_foldl_remove (cache : Cache ν) (oids : List Oid) (other : Oid) :
    (oids.foldl remove cache).find? other =
      if other ∈ oids then none else cache.find? other := by
  induction oids generalizing cache with
  | nil => rfl
  | cons head rest ih =>
      rw [List.foldl_cons, ih, find?_remove]
      by_cases hhead : other = head <;> by_cases hrest : other ∈ rest <;> simp [hhead, hrest]

/-- An invalidation drops exactly the objects it is given. -/
theorem find?_invalidate (cache : Cache ν) (oids : List Oid) (other : Oid) :
    (cache.invalidate oids).find? other = if other ∈ oids then none else cache.find? other :=
  find?_foldl_remove cache oids other

/-- An invalidation makes every ticket stale. -/
theorem ticket_invalidate (cache : Cache ν) (oids : List Oid) :
    (cache.invalidate oids).ticket = ⟨cache.ticket.generation + 1⟩ := rfl

theorem find?_clear (cache : Cache ν) (oid : Oid) : cache.clear.find? oid = none := by
  simp [find?, clear]

theorem ticket_clear (cache : Cache ν) : cache.clear.ticket = ⟨cache.ticket.generation + 1⟩ := rfl

end ObjectVault.Cache
