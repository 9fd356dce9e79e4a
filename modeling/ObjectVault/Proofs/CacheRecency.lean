/-
The recency of a cache.  Whatever is asked of it, a cache answers as a list of
versions does that is kept in the order of their last use: a hit moves a version
to the front, an accepted version goes there in the place of whatever was held
of its object, and versions leave from the back while the list exceeds the
budget.  The books of the cache stay in step with the list.
-/
import ObjectVault.Proofs.CacheRows

namespace ObjectVault

/-- A version as it is offered to a cache. -/
structure CacheItem (ν : Type) where
  oid : Oid
  tid : Tid
  value : ν
  size : Nat

/-- A call on a cache.  A fill names its ticket by the place among those
taken. -/
inductive CacheCall (ν : Type) where
  | get (oid : Oid)
  | put (item : CacheItem ν)
  | ticket
  | putIfFresh (item : CacheItem ν) (place : Nat)
  | invalidate (oids : List Oid)
  | clear
  | evict
  | contains (oid : Oid)

inductive CacheAnswer (ν : Type) where
  | found (version : Option (Tid × ν))
  | stored (accepted : Bool)
  | evicted (count : Nat)
  | held (cached : Bool)
  | noTicket
  | done

variable {ν : Type}

/-- A cache and the tickets taken from it, the first one first. -/
structure CacheDesk (ν : Type) where
  cache : Cache ν
  tickets : List FillTicket := []

namespace CacheDesk

def call (desk : CacheDesk ν) : CacheCall ν → CacheAnswer ν × CacheDesk ν
  | .get oid =>
      let (version, cache) := desk.cache.get oid
      (.found version, { desk with cache })
  | .put item =>
      let (accepted, cache) := desk.cache.put item.oid item.tid item.value item.size
      (.stored accepted, { desk with cache })
  | .ticket => (.done, { desk with tickets := desk.tickets ++ [desk.cache.ticket] })
  | .putIfFresh item place =>
      match desk.tickets[place]? with
      | some ticket =>
          let (accepted, cache) :=
            desk.cache.putIfFresh item.oid item.tid item.value item.size ticket
          (.stored accepted, { desk with cache })
      | none => (.noTicket, desk)
  | .invalidate oids => (.done, { desk with cache := desk.cache.invalidate oids })
  | .clear => (.done, { desk with cache := desk.cache.clear })
  | .evict =>
      let cache := desk.cache.evict
      (.evicted (cache.counts.evictions - desk.cache.counts.evictions), { desk with cache })
  | .contains oid => (.held (desk.cache.contains oid), desk)

/-- The cache after a run of calls on an empty one. -/
def ofRun (budget : Nat) (calls : List (CacheCall ν)) : CacheDesk ν :=
  calls.foldl (fun desk call => (desk.call call).2) { cache := { budget } }

end CacheDesk

/-- Versions in the order of their last use, the latest first. -/
structure RecencyList (ν : Type) where
  budget : Nat
  items : List (CacheItem ν) := []
  /-- For each ticket taken, whether nothing was invalidated since. -/
  fresh : List Bool := []

namespace RecencyList

/-- The versions of all objects but one. -/
def others (list : RecencyList ν) (oid : Oid) : List (CacheItem ν) :=
  list.items.filter (·.oid ≠ oid)

/-- A version is refused if it exceeds the budget or a later one of its object
is held. -/
def Refuses (list : RecencyList ν) (item : CacheItem ν) : Prop :=
  list.budget < item.size ∨ ∃ held ∈ list.items, held.oid = item.oid ∧ item.tid < held.tid

instance (list : RecencyList ν) (item : CacheItem ν) : Decidable (list.Refuses item) :=
  inferInstanceAs (Decidable (_ ∨ _))

def offer (list : RecencyList ν) (item : CacheItem ν) : CacheAnswer ν × RecencyList ν :=
  if list.Refuses item then (.stored false, list)
  else (.stored true, { list with
    items := settle CacheItem.size list.budget (item :: list.others item.oid) })

/-- Keep some versions only; no ticket stays fresh. -/
def drop (list : RecencyList ν) (kept : List (CacheItem ν)) : RecencyList ν :=
  { list with items := kept, fresh := list.fresh.map fun _ => false }

def call (list : RecencyList ν) : CacheCall ν → CacheAnswer ν × RecencyList ν
  | .get oid =>
      match list.items.find? (·.oid = oid) with
      | some item =>
          (.found (some (item.tid, item.value)), { list with items := item :: list.others oid })
      | none => (.found none, list)
  | .put item => list.offer item
  | .ticket => (.done, { list with fresh := list.fresh ++ [true] })
  | .putIfFresh item place =>
      match list.fresh[place]? with
      | some true => list.offer item
      | some false => (.stored false, list)
      | none => (.noTicket, list)
  | .invalidate oids => (.done, list.drop (list.items.filter (·.oid ∉ oids)))
  | .clear => (.done, list.drop [])
  | .evict =>
      let kept := settle CacheItem.size list.budget list.items
      (.evicted (list.items.length - kept.length), { list with items := kept })
  | .contains oid => (.held (list.items.any (·.oid = oid)), list)

/-- The list after a run of calls on an empty one. -/
def ofRun (budget : Nat) (calls : List (CacheCall ν)) : RecencyList ν :=
  calls.foldl (fun list call => (list.call call).2) { budget }

end RecencyList

/-- The version in a row. -/
def CacheItem.ofRow (row : Oid × CacheEntry ν) : CacheItem ν :=
  ⟨row.1, row.2.tid, row.2.value, row.2.size⟩

namespace Cache

/-- The entries by the order of their use, the latest first. -/
def recency (cache : Cache ν) : List (CacheItem ν) :=
  cache.order.toList.reverse.filterMap fun (_, oid) =>
    cache.entries[oid]?.map fun entry => .ofRow (oid, entry)

/-- The cache keeps its books by the list. -/
def Keeps (cache : Cache ν) (budget : Nat) (items : List (CacheItem ν)) : Prop :=
  ∃ rows, cache.Lists budget rows ∧ rows.map CacheItem.ofRow = items

namespace Keeps

variable {cache : Cache ν} {budget : Nat} {items : List (CacheItem ν)}
  (h : cache.Keeps budget items)

include h

theorem relabel (generation : Nat) (counts : CacheCounts) :
    { cache with generation, counts }.Keeps budget items := by
  obtain ⟨rows, hrows, hitems⟩ := h
  exact ⟨rows, hrows.relabel generation counts, hitems⟩

theorem budget_eq : cache.budget = budget := by
  obtain ⟨rows, hrows, -⟩ := h
  exact hrows.budget_eq

theorem resident_eq : cache.resident = total CacheItem.size items := by
  obtain ⟨rows, hrows, rfl⟩ := h
  rw [hrows.resident_eq, total_map]
  rfl

theorem recency_eq : cache.recency = items := by
  obtain ⟨rows, hrows, rfl⟩ := h
  rw [recency, hrows.toList_order, List.reverse_reverse, List.filterMap_map,
    ← List.filterMap_eq_map]
  refine List.filterMap_congr fun row hmem => ?_
  have hentry : cache.entries[row.1]? = some row.2 := hrows.entries_iff.mpr hmem
  simp only [Function.comp_apply, hentry, Option.map_some]

theorem mem_iff {item : CacheItem ν} : item ∈ items ↔
    ∃ oid entry, cache.entries[oid]? = some entry ∧ .ofRow (oid, entry) = item := by
  obtain ⟨rows, hrows, rfl⟩ := h
  simp only [hrows.entries_iff, List.mem_map, Prod.exists]

/-- Whatever is cached of an object is the one version of it in the list. -/
theorem find?_eq (oid : Oid) : items.find? (·.oid = oid) =
    cache.entries[oid]?.map fun entry => .ofRow (oid, entry) := by
  cases hfind : items.find? (·.oid = oid) with
  | none =>
      cases hentry : cache.entries[oid]? with
      | none => rfl
      | some entry =>
          have hmem : CacheItem.ofRow (oid, entry) ∈ items :=
            h.mem_iff.mpr ⟨oid, entry, hentry, rfl⟩
          simpa [CacheItem.ofRow] using List.find?_eq_none.mp hfind _ hmem
  | some item =>
      have hoid : item.oid = oid := by simpa using List.find?_some hfind
      obtain ⟨_, entry, hentry, rfl⟩ := h.mem_iff.mp (List.mem_of_find?_eq_some hfind)
      cases hoid
      simp only [CacheItem.ofRow, hentry, Option.map_some]

theorem size_eq : cache.size = items.length := by
  obtain ⟨rows, hrows, rfl⟩ := h
  rw [hrows.size_eq, List.length_map]

theorem paired {tick : Nat} {oid : Oid} : cache.order[tick]? = some oid ↔
    ∃ entry, cache.entries[oid]? = some entry ∧ entry.tick = tick := by
  obtain ⟨rows, hrows, -⟩ := h
  simp only [hrows.order_iff, hrows.entries_iff]

theorem foldl_remove (oids : List Oid) :
    (oids.foldl remove cache).Keeps budget (items.filter (·.oid ∉ oids)) := by
  obtain ⟨rows, hrows, rfl⟩ := h
  refine ⟨_, hrows.foldl_remove oids, ?_⟩
  rw [List.filter_map]
  rfl

theorem evictUpTo (bound : Nat) : ∃ kept, (cache.evictUpTo bound).Keeps budget kept := by
  obtain ⟨rows, hrows, rfl⟩ := h
  obtain ⟨kept, hkept, -⟩ := hrows.evictUpTo bound
  exact ⟨_, kept, hkept, rfl⟩

theorem evict : cache.evict.Keeps budget (settle CacheItem.size budget items) := by
  obtain ⟨rows, hrows, rfl⟩ := h
  refine ⟨_, hrows.evict, ?_⟩
  rw [settle_map]
  rfl

theorem replace (item : CacheItem ν) :
    ((cache.remove item.oid).place item.oid item.tid item.value item.size).Keeps budget
      (item :: items.filter (·.oid ≠ item.oid)) := by
  obtain ⟨rows, hrows, rfl⟩ := h
  refine ⟨_, hrows.replace item.oid item.tid item.value item.size, ?_⟩
  rw [List.map_cons, List.filter_map]
  rfl

theorem fill (item : CacheItem ν) :
    (cache.fill item.oid item.tid item.value item.size).Keeps budget
      (item :: items.filter (·.oid ≠ item.oid)) :=
  (h.replace item).relabel (cache.remove item.oid).generation _

theorem insert (item : CacheItem ν) :
    (cache.insert item.oid item.tid item.value item.size).Keeps budget
      (settle CacheItem.size budget (item :: items.filter (·.oid ≠ item.oid))) := by
  rw [insert_eq]
  exact (h.fill item).evict

theorem touch {oid : Oid} {entry : CacheEntry ν} (hentry : cache.entries[oid]? = some entry) :
    (cache.touch oid entry).Keeps budget
      (.ofRow (oid, entry) :: items.filter (·.oid ≠ oid)) := by
  have htouch : cache.touch oid entry =
      (cache.remove oid).place oid entry.tid entry.value entry.size := by
    obtain ⟨rows, hrows, -⟩ := h
    exact hrows.touch_eq hentry
  rw [htouch]
  exact h.replace (.ofRow (oid, entry))

end Keeps

end Cache

/-- The cache keeps its books by the list, within the budget, and the list
knows the fresh tickets. -/
structure CacheDesk.Agrees (desk : CacheDesk ν) (list : RecencyList ν) : Prop where
  keeps : desk.cache.Keeps list.budget list.items
  within : total CacheItem.size list.items ≤ list.budget
  fresh_eq : list.fresh = desk.tickets.map fun ticket => decide (ticket = desk.cache.ticket)
  issued {ticket : FillTicket} :
    ticket ∈ desk.tickets → ticket.generation ≤ desk.cache.generation

namespace CacheDesk.Agrees

variable {desk : CacheDesk ν} {list : RecencyList ν} (h : desk.Agrees list)

theorem start (budget : Nat) :
    ({ cache := { budget } } : CacheDesk ν).Agrees { budget } where
  keeps := ⟨[], Cache.lists_empty budget, rfl⟩
  within := Nat.zero_le _
  fresh_eq := rfl
  issued := by simp

include h

theorem resident_le : desk.cache.resident ≤ list.budget :=
  h.keeps.resident_eq.trans_le h.within

theorem accepts_iff (item : CacheItem ν) :
    desk.cache.accepts item.oid item.tid item.size = true ↔ ¬ list.Refuses item := by
  rw [Cache.accepts, h.keeps.budget_eq, Bool.and_eq_true, decide_eq_true_eq, Option.all_eq_true,
    RecencyList.Refuses, not_or, Nat.not_lt]
  refine and_congr_right fun _ => ?_
  constructor
  · rintro hnewest ⟨held, hmem, hoid, hlater⟩
    obtain ⟨oid, entry, hentry, rfl⟩ := h.keeps.mem_iff.mp hmem
    cases hoid
    have hle : entry.tid.micros ≤ item.tid.micros := of_decide_eq_true (hnewest entry hentry)
    exact Nat.not_lt.mpr hle hlater
  · intro hnone entry hentry
    have hheld := h.keeps.mem_iff.mpr ⟨item.oid, entry, hentry, rfl⟩
    have hle : entry.tid.micros ≤ item.tid.micros :=
      Nat.not_lt.mp fun hlater => hnone ⟨_, hheld, rfl, hlater⟩
    exact decide_eq_true hle

theorem size_le_of_accepts {item : CacheItem ν}
    (haccepts : desk.cache.accepts item.oid item.tid item.size = true) :
    item.size ≤ list.budget := by
  have hfits := (h.accepts_iff item).mp haccepts
  rw [RecencyList.Refuses, not_or, Nat.not_lt] at hfits
  exact hfits.1

/-- A call that leaves the tickets alone. -/
theorem recache {cache : Cache ν} {items : List (CacheItem ν)}
    (hkeeps : cache.Keeps list.budget items) (hticket : cache.ticket = desk.cache.ticket)
    (hresident : cache.resident ≤ list.budget) :
    { desk with cache }.Agrees { list with items } := by
  constructor
  · exact hkeeps
  · exact hkeeps.resident_eq.symm.trans_le hresident
  · dsimp only
    rw [h.fresh_eq, hticket]
  · intro ticket hmem
    exact (h.issued hmem).trans_eq (congrArg FillTicket.generation hticket).symm

/-- A call that makes the tickets stale. -/
theorem restart {cache : Cache ν} {items : List (CacheItem ν)}
    (hkeeps : cache.Keeps list.budget items)
    (hticket : cache.ticket = ⟨desk.cache.generation + 1⟩)
    (hwithin : total CacheItem.size items ≤ list.budget) :
    { desk with cache }.Agrees (list.drop items) := by
  constructor
  · exact hkeeps
  · exact hwithin
  · rw [RecencyList.drop, h.fresh_eq, List.map_map]
    refine List.map_congr_left fun ticket hmem => ?_
    -- every ticket taken so far is of an earlier generation
    have hold : ticket ≠ cache.ticket := by
      rintro rfl
      have hissued := h.issued hmem
      rw [hticket] at hissued
      exact Nat.not_succ_le_self _ hissued
    exact (decide_eq_false hold).symm
  · intro ticket hmem
    have hgeneration : cache.generation = desk.cache.generation + 1 :=
      congrArg FillTicket.generation hticket
    dsimp only
    rw [hgeneration]
    exact Nat.le_succ_of_le (h.issued hmem)

theorem offer (item : CacheItem ν) {accepted : Bool} {cache : Cache ν}
    (hput : desk.cache.put item.oid item.tid item.value item.size = (accepted, cache)) :
    .stored accepted = (list.offer item).1 ∧ { desk with cache }.Agrees (list.offer item).2 := by
  have haccepts := h.accepts_iff item
  rw [Cache.put] at hput
  rw [RecencyList.offer]
  by_cases hrefused : list.Refuses item
  · have hrejects : ¬ desk.cache.accepts item.oid item.tid item.size = true := fun hyes =>
      haccepts.mp hyes hrefused
    rw [if_neg hrejects] at hput
    cases hput
    rw [if_pos hrefused]
    exact ⟨rfl, h⟩
  · rw [if_pos (haccepts.mpr hrefused)] at hput
    cases hput
    rw [if_neg hrefused]
    have hinserted := h.keeps.insert item
    exact ⟨rfl, h.recache hinserted (Cache.ticket_insert ..)
      (hinserted.resident_eq.trans_le total_settle_le)⟩

/-- A call is answered alike, and the cache keeps the list. -/
theorem call (call : CacheCall ν) :
    (desk.call call).1 = (list.call call).1 ∧ (desk.call call).2.Agrees (list.call call).2 := by
  cases call with
  | get oid =>
      have hfind := h.keeps.find?_eq oid
      simp only [CacheDesk.call, RecencyList.call, Cache.get, hfind]
      cases hentry : desk.cache.entries[oid]? with
      | none => exact ⟨rfl, h.recache (h.keeps.relabel _ _) rfl h.resident_le⟩
      | some entry =>
          exact ⟨rfl, h.recache ((h.keeps.touch hentry).relabel _ _) rfl h.resident_le⟩
  | put item => exact h.offer item rfl
  | ticket =>
      refine ⟨rfl, h.keeps, h.within, ?_, ?_⟩
      · rw [RecencyList.call, CacheDesk.call, List.map_append, h.fresh_eq]
        simp
      · intro ticket hmem
        rcases List.mem_append.mp hmem with hearlier | hlast
        · exact h.issued hearlier
        · cases List.mem_singleton.mp hlast
          exact le_refl _
  | putIfFresh item place =>
      simp only [CacheDesk.call, RecencyList.call, h.fresh_eq, List.getElem?_map]
      cases hticket : desk.tickets[place]? with
      | none => exact ⟨rfl, h⟩
      | some ticket =>
          simp only [Option.map_some, Cache.putIfFresh]
          by_cases hfresh : ticket = desk.cache.ticket
          · simp only [hfresh, decide_true, if_true]
            exact h.offer item rfl
          · simp only [hfresh, decide_false, if_false]
            exact ⟨trivial, h.recache (h.keeps.relabel _ _) rfl h.resident_le⟩
  | invalidate oids =>
      refine ⟨rfl, h.restart ((h.keeps.foldl_remove oids).relabel _ _) rfl ?_⟩
      exact le_trans (total_filter_le _) h.within
  | clear =>
      have hcleared : desk.cache.clear.Lists list.budget [] := by
        constructor <;> simp [Cache.clear, h.keeps.budget_eq, total]
      exact ⟨rfl, h.restart ⟨[], hcleared, rfl⟩ rfl (Nat.zero_le _)⟩
  | evict =>
      have hsame : desk.cache.evict = desk.cache := Cache.evict_of_le
        (h.resident_le.trans_eq h.keeps.budget_eq.symm)
      simp only [CacheDesk.call, RecencyList.call, hsame, settle_of_le h.within, Nat.sub_self]
      exact ⟨trivial, h⟩
  | contains oid =>
      refine ⟨congrArg CacheAnswer.held ?_, h⟩
      rw [← List.isSome_find?, h.keeps.find?_eq, Option.isSome_map,
        Std.ExtTreeMap.isSome_getElem?_eq_contains]
      rfl

end CacheDesk.Agrees

/-- After a run the cache keeps the list. -/
theorem CacheDesk.agrees_ofRun (budget : Nat) (calls : List (CacheCall ν)) :
    (ofRun budget calls).Agrees (RecencyList.ofRun budget calls) := by
  induction calls using List.reverseRecOn with
  | nil => exact Agrees.start budget
  | append_singleton earlier last ih =>
      rw [ofRun, RecencyList.ofRun, List.foldl_concat, List.foldl_concat]
      exact (ih.call last).2

theorem RecencyList.budget_ofRun (budget : Nat) (calls : List (CacheCall ν)) :
    (ofRun budget calls).budget = budget := by
  induction calls using List.reverseRecOn with
  | nil => rfl
  | append_singleton earlier last ih =>
      rw [ofRun, List.foldl_concat]
      refine Eq.trans ?_ ih
      cases last with
      | get oid => rw [call]; split <;> rfl
      | put item => rw [call, offer]; split <;> rfl
      | putIfFresh item place =>
          rw [call]
          split
          · rw [offer]
            split <;> rfl
          · rfl
          · rfl
      | ticket | invalidate | clear | evict | contains => rfl

namespace Cache

theorem put_refused {cache : Cache ν} {oid : Oid} {tid : Tid} {value : ν} {size : Nat}
    (h : (cache.put oid tid value size).1 = false) : (cache.put oid tid value size).2 = cache := by
  rw [put] at h ⊢
  by_cases haccepts : cache.accepts oid tid size = true
  · rw [if_pos haccepts] at h
    cases h
  · rw [if_neg haccepts]

theorem put_accepted {cache : Cache ν} {oid : Oid} {tid : Tid} {value : ν} {size : Nat}
    (h : (cache.put oid tid value size).1 = true) :
    cache.accepts oid tid size = true ∧
      (cache.put oid tid value size).2 = cache.insert oid tid value size := by
  rw [put] at h ⊢
  by_cases haccepts : cache.accepts oid tid size = true
  · rw [if_pos haccepts]
    exact ⟨haccepts, rfl⟩
  · rw [if_neg haccepts] at h
    cases h

theorem putIfFresh_refused {cache : Cache ν} {oid : Oid} {tid : Tid} {value : ν} {size : Nat}
    {ticket : FillTicket} (h : (cache.putIfFresh oid tid value size ticket).1 = false) :
    ∃ staleFills, (cache.putIfFresh oid tid value size ticket).2 =
      { cache with counts := { cache.counts with staleFills } } := by
  rw [putIfFresh] at h ⊢
  by_cases hfresh : ticket = cache.ticket
  · rw [if_pos hfresh] at h ⊢
    exact ⟨cache.counts.staleFills, put_refused h⟩
  · rw [if_neg hfresh]
    exact ⟨_, rfl⟩

theorem putIfFresh_accepted {cache : Cache ν} {oid : Oid} {tid : Tid} {value : ν} {size : Nat}
    {ticket : FillTicket} (h : (cache.putIfFresh oid tid value size ticket).1 = true) :
    cache.putIfFresh oid tid value size ticket = cache.put oid tid value size := by
  rw [putIfFresh] at h ⊢
  by_cases hfresh : ticket = cache.ticket
  · rw [if_pos hfresh]
  · rw [if_neg hfresh] at h
    cases h

/-- The resident bytes cover each entry, so that it can be taken off them. -/
def Covers (cache : Cache ν) : Prop :=
  ∀ (oid : Oid) (entry : CacheEntry ν),
    cache.entries[oid]? = some entry → entry.size ≤ cache.resident

theorem Keeps.covers {cache : Cache ν} {budget : Nat} {items : List (CacheItem ν)}
    (h : cache.Keeps budget items) : cache.Covers := by
  obtain ⟨rows, hrows, -⟩ := h
  intro oid entry hentry
  exact hrows.size_le_resident hentry

/-- No count of bytes leaves its word.  At every stage of a removal, an eviction
and a fill each entry is covered, and what a fill adds up fits a word. -/
structure CountsInWords (cache : Cache ν) : Prop where
  removal (oids : List Oid) : (oids.foldl remove cache).Covers
  eviction (bound : Nat) : (cache.evictUpTo bound).Covers
  filled (item : CacheItem ν) : cache.accepts item.oid item.tid item.size = true →
    (cache.fill item.oid item.tid item.value item.size).resident < UInt64.size
  settling (item : CacheItem ν) (bound : Nat) :
    ((cache.fill item.oid item.tid item.value item.size).evictUpTo bound).Covers

/-- A strict cache by recency: its books agree with the list, it stays within
its budget, a refused version changes nothing, and an accepted one stays. -/
structure Strict (cache : Cache ν) (budget : Nat) (items : List (CacheItem ν)) : Prop where
  recency_eq : cache.recency = items
  size_eq : cache.size = items.length
  resident_eq : cache.resident = total CacheItem.size items
  resident_le : cache.resident ≤ budget
  paired {tick : Nat} {oid : Oid} : cache.order[tick]? = some oid ↔
    ∃ entry, cache.entries[oid]? = some entry ∧ entry.tick = tick
  countsInWords : cache.CountsInWords
  refused (item : CacheItem ν) :
    (cache.put item.oid item.tid item.value item.size).1 = false →
      (cache.put item.oid item.tid item.value item.size).2 = cache
  /-- A stale fill is counted. -/
  refusedFill (item : CacheItem ν) (ticket : FillTicket) :
    (cache.putIfFresh item.oid item.tid item.value item.size ticket).1 = false →
      ∃ staleFills, (cache.putIfFresh item.oid item.tid item.value item.size ticket).2 =
        { cache with counts := { cache.counts with staleFills } }
  accepted (item : CacheItem ν) :
    (cache.put item.oid item.tid item.value item.size).1 = true →
      (cache.put item.oid item.tid item.value item.size).2.recency.head? = some item
  acceptedFill (item : CacheItem ν) (ticket : FillTicket) :
    (cache.putIfFresh item.oid item.tid item.value item.size ticket).1 = true →
      (cache.putIfFresh item.oid item.tid item.value item.size ticket).2.recency.head? = some item

end Cache

namespace CacheDesk.Agrees

variable {desk : CacheDesk ν} {list : RecencyList ν} (h : desk.Agrees list)

include h

theorem countsInWords (hbudget : list.budget < 0x8000000000000000) : desk.cache.CountsInWords where
  removal oids := (h.keeps.foldl_remove oids).covers
  eviction bound := by
    obtain ⟨kept, hkept⟩ := h.keeps.evictUpTo bound
    exact hkept.covers
  filled item haccepts := by
    have hsize := h.size_le_of_accepts haccepts
    have hothers : total CacheItem.size (list.items.filter (·.oid ≠ item.oid)) ≤ list.budget :=
      le_trans (total_filter_le _) h.within
    rw [(h.keeps.fill item).resident_eq, total, UInt64.size]
    omega
  settling item bound := by
    obtain ⟨kept, hkept⟩ := (h.keeps.fill item).evictUpTo bound
    exact hkept.covers

/-- The eviction after a fill spares the version filled in. -/
theorem head?_recency_put {item : CacheItem ν}
    (haccepted : (desk.cache.put item.oid item.tid item.value item.size).1 = true) :
    (desk.cache.put item.oid item.tid item.value item.size).2.recency.head? = some item := by
  obtain ⟨haccepts, hinserted⟩ := Cache.put_accepted haccepted
  rw [hinserted, (h.keeps.insert item).recency_eq]
  exact head?_settle (h.size_le_of_accepts haccepts)

theorem strict (hbudget : list.budget < 0x8000000000000000) :
    desk.cache.Strict list.budget list.items where
  recency_eq := h.keeps.recency_eq
  size_eq := h.keeps.size_eq
  resident_eq := h.keeps.resident_eq
  resident_le := h.resident_le
  paired := h.keeps.paired
  countsInWords := h.countsInWords hbudget
  refused item := Cache.put_refused
  refusedFill item ticket := Cache.putIfFresh_refused
  accepted item := h.head?_recency_put
  acceptedFill item ticket haccepted := by
    have hput := Cache.putIfFresh_accepted haccepted
    rw [hput] at haccepted ⊢
    exact h.head?_recency_put haccepted

end CacheDesk.Agrees

/-- A cache is kept strictly by recency.  After any run of calls it answers the
next one as the list does, and its books agree with the list.  A budget below
2^63 leaves room in a word for one more version. -/
theorem cache_kept_by_recency {budget : Nat} (hbudget : budget < 0x8000000000000000)
    (calls : List (CacheCall ν)) :
    (∀ call, ((CacheDesk.ofRun budget calls).call call).1 =
      ((RecencyList.ofRun budget calls).call call).1) ∧
    (CacheDesk.ofRun budget calls).cache.Strict budget (RecencyList.ofRun budget calls).items := by
  have hagrees := CacheDesk.agrees_ofRun budget calls
  have hlist := RecencyList.budget_ofRun budget calls
  constructor
  · intro call
    exact (hagrees.call call).1
  · have hstrict := hagrees.strict (hlist.trans_lt hbudget)
    rwa [hlist] at hstrict

namespace RecencyWitness

def item (word : UInt64) (size : Nat) : CacheItem Unit := ⟨⟨word⟩, .zero, (), size⟩

def calls : List (CacheCall Unit) :=
  [.put (item 1 4), .put (item 2 4), .get ⟨1⟩, .put (item 3 0), .put (item 4 3)]

/-- The object looked up stays, the one before it leaves. -/
theorem least_recent_evicted :
    (CacheDesk.ofRun 10 calls).cache.recency = [item 4 3, item 3 0, item 1 4] ∧
      ((CacheDesk.ofRun 10 calls).call (.contains ⟨2⟩)).1 = .held false := by
  obtain ⟨hanswers, hstrict⟩ := cache_kept_by_recency (by decide : 10 < 0x8000000000000000) calls
  have hlist : (RecencyList.ofRun 10 calls).items = [item 4 3, item 3 0, item 1 4] := rfl
  constructor
  · rw [hstrict.recency_eq, hlist]
  · rw [hanswers]
    rfl

end RecencyWitness

end ObjectVault
