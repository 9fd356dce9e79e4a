/-
Offers to a cache.  A version that is offered once its predecessors are out of
date pushes out whatever is cached of its object, unless it is larger than the
whole budget: then it is passed over, and an older version goes on being served.
-/
import ObjectVault.Proofs.CacheRecency
import ObjectVault.Proofs.StoreRun

namespace ObjectVault

variable {ν : Type}

/-- The version that a call offers. -/
def CacheCall.item? : CacheCall ν → Option (CacheItem ν)
  | .put item | .putIfFresh item _ => some item
  | .get _ | .ticket | .invalidate _ | .clear | .evict | .contains _ => none

/-- The versions that are offered in a run, the first one first. -/
def CacheCall.offered (calls : List (CacheCall ν)) : List (CacheItem ν) :=
  calls.filterMap CacheCall.item?

/-- No object is offered at a lower tid than before, as a store hands tids
out. -/
def TidsRise (calls : List (CacheCall ν)) : Prop :=
  (CacheCall.offered calls).Pairwise fun earlier later =>
    earlier.oid = later.oid → earlier.tid ≤ later.tid

namespace Cache

variable {cache : Cache ν} {oid other : Oid} {tid : Tid} {value : ν} {size : Nat}
  {found : Tid × ν}

/-- An offer puts in the version it is given, and only if it fits the budget. -/
theorem find?_of_put (h : (cache.put oid tid value size).2.find? other = some found) :
    (size ≤ cache.budget ∧ other = oid ∧ found = (tid, value)) ∨
      cache.find? other = some found := by
  rw [put] at h
  split at h
  · rename_i haccepts
    rw [accepts, Bool.and_eq_true, decide_eq_true_eq] at haccepts
    exact (find?_of_insert h).imp_left fun hnew => ⟨haccepts.1, hnew⟩
  · exact Or.inr h

theorem find?_of_offer {ticket : FillTicket}
    (h : (cache.putIfFresh oid tid value size ticket).2.find? other = some found) :
    (size ≤ cache.budget ∧ other = oid ∧ found = (tid, value)) ∨
      cache.find? other = some found := by
  rw [putIfFresh] at h
  split at h
  · exact find?_of_put h
  · exact Or.inr h

/-- An insertion leaves nothing else of its object. -/
theorem eq_of_find?_insert (h : (cache.insert oid tid value size).find? oid = some found) :
    found = (tid, value) := by
  rw [insert] at h
  have hbefore := find?_of_evict h
  rw [find?, Std.ExtTreeMap.getElem?_insert_self] at hbefore
  exact (Option.some.inj hbefore).symm

/-- A version that fits the budget leaves none that is older. -/
theorem le_of_find?_put (hfits : size ≤ cache.budget)
    (h : (cache.put oid tid value size).2.find? oid = some found) : tid ≤ found.1 := by
  rw [put] at h
  split at h
  · rw [eq_of_find?_insert h]
  · rename_i hrefused
    obtain ⟨entry, hentry, rfl⟩ := Option.map_eq_some_iff.mp h
    -- it was refused for a later version
    rw [accepts, hentry, decide_eq_true hfits, Bool.true_and, Option.all_some,
      decide_eq_true_eq] at hrefused
    exact le_of_lt (not_le.mp hrefused)

/-- A version larger than the budget changes nothing. -/
theorem put_of_oversize (hsize : cache.budget < size) :
    cache.put oid tid value size = (false, cache) := by
  have hrejects : cache.accepts oid tid size = false := by
    rw [accepts, decide_eq_false (Nat.not_le_of_lt hsize), Bool.false_and]
  rw [put, hrejects]
  rfl

end Cache

namespace CacheDesk

variable {desk : CacheDesk ν}

/-- Only an offer puts a version in, one that fits the budget. -/
theorem find?_of_call {call : CacheCall ν} {oid : Oid} {found : Tid × ν}
    (h : (desk.call call).2.cache.find? oid = some found) :
    (∃ item, call.item? = some item ∧ item.size ≤ desk.cache.budget ∧ item.oid = oid ∧
        found = (item.tid, item.value)) ∨
      desk.cache.find? oid = some found := by
  cases call with
  | get other => exact Or.inr ((desk.cache.find?_get other oid).symm.trans h)
  | put item =>
      rcases Cache.find?_of_put h with ⟨hfits, rfl, hfound⟩ | hbefore
      · exact Or.inl ⟨item, rfl, hfits, rfl, hfound⟩
      · exact Or.inr hbefore
  | ticket => exact Or.inr h
  | putIfFresh item place =>
      simp only [CacheDesk.call] at h
      split at h
      · rcases Cache.find?_of_offer h with ⟨hfits, rfl, hfound⟩ | hbefore
        · exact Or.inl ⟨item, rfl, hfits, rfl, hfound⟩
        · exact Or.inr hbefore
      · exact Or.inr h
  | invalidate oids =>
      have hleft := (desk.cache.find?_invalidate oids oid).symm.trans h
      exact Or.inr (Option.ite_none_left_eq_some.mp hleft).2
  | clear => cases (desk.cache.find?_clear oid).symm.trans h
  | evict => exact Or.inr (Cache.find?_of_evict h)
  | contains => exact Or.inr h

/-- A look-up answers what is cached. -/
theorem get_eq_found_iff {oid : Oid} {found : Option (Tid × ν)} :
    (desk.call (.get oid)).1 = .found found ↔ desk.cache.find? oid = found := by
  have hanswer : (desk.call (.get oid)).1 = .found (desk.cache.find? oid) :=
    congrArg CacheAnswer.found (desk.cache.get_fst oid)
  rw [hanswer, CacheAnswer.found.injEq]

/-- The call offers the version, and it is not refused for a stale ticket. -/
def Offers (desk : CacheDesk ν) (item : CacheItem ν) : CacheCall ν → Prop
  | .put offered => offered = item
  | .putIfFresh offered place => offered = item ∧ desk.tickets[place]? = some desk.cache.ticket
  | .get _ | .ticket | .invalidate _ | .clear | .evict | .contains _ => False

/-- The budget is fixed. -/
theorem budget_ofRun (budget : Nat) (calls : List (CacheCall ν)) :
    (ofRun budget calls).cache.budget = budget :=
  (agrees_ofRun budget calls).keeps.budget_eq.trans (RecencyList.budget_ofRun budget calls)

theorem ofRun_concat (budget : Nat) (calls : List (CacheCall ν)) (call : CacheCall ν) :
    ofRun budget (calls ++ [call]) = ((ofRun budget calls).call call).2 :=
  List.foldl_concat ..

/-- Whatever is cached was offered, and fits the budget. -/
theorem offered_of_find? {budget : Nat} {calls : List (CacheCall ν)} {oid : Oid} {found : Tid × ν}
    (h : (ofRun budget calls).cache.find? oid = some found) :
    ∃ item ∈ CacheCall.offered calls, item.size ≤ budget ∧ item.oid = oid ∧
      found = (item.tid, item.value) := by
  induction calls using List.reverseRecOn with
  | nil => simp [ofRun, Cache.find?] at h
  | append_singleton earlier last ih =>
      simp only [CacheCall.offered, List.filterMap_append, List.mem_append]
      rw [ofRun_concat] at h
      rcases find?_of_call h with ⟨item, hitem, hfits, hfound⟩ | hbefore
      · refine ⟨item, Or.inr ?_, hfits.trans_eq (budget_ofRun budget earlier), hfound⟩
        exact List.mem_filterMap.mpr ⟨last, List.mem_singleton_self last, hitem⟩
      · obtain ⟨item, hmem, hfits⟩ := ih hbefore
        exact ⟨item, Or.inl hmem, hfits⟩

/-- No cached version of the object is older than that. -/
def NoneBelow (desk : CacheDesk ν) (oid : Oid) (tid : Tid) : Prop :=
  ∀ found, (desk.call (.get oid)).1 = .found (some found) → tid ≤ found.1

theorem noneBelow_iff {oid : Oid} {tid : Tid} : desk.NoneBelow oid tid ↔
    ∀ found, desk.cache.find? oid = some found → tid ≤ found.1 := by
  simp only [NoneBelow, get_eq_found_iff]

/-- Calls that offer nothing older let nothing older in. -/
theorem NoneBelow.call {oid : Oid} {tid : Tid} (h : desk.NoneBelow oid tid) {call : CacheCall ν}
    (hoffers : ∀ item, call.item? = some item → item.oid = oid → tid ≤ item.tid) :
    (desk.call call).2.NoneBelow oid tid := by
  rw [noneBelow_iff] at h ⊢
  intro found hfound
  rcases find?_of_call hfound with ⟨item, hitem, _, hoid, rfl⟩ | hbefore
  · exact hoffers item hitem hoid
  · exact h found hbefore

theorem NoneBelow.run {budget : Nat} {calls later : List (CacheCall ν)} {oid : Oid} {tid : Tid}
    (h : (ofRun budget calls).NoneBelow oid tid)
    (hoffers : ∀ item ∈ CacheCall.offered later, item.oid = oid → tid ≤ item.tid) :
    (ofRun budget (calls ++ later)).NoneBelow oid tid := by
  induction later using List.reverseRecOn with
  | nil => rwa [List.append_nil]
  | append_singleton earlier last ih =>
      rw [CacheCall.offered, List.filterMap_append, List.forall_mem_append] at hoffers
      rw [← List.append_assoc, ofRun_concat]
      refine (ih hoffers.1).call fun item hitem => hoffers.2 item ?_
      exact List.mem_filterMap.mpr ⟨last, List.mem_singleton_self last, hitem⟩

/-- An offer of a version that fits the budget leaves nothing older. -/
theorem noneBelow_of_fits {offer : CacheCall ν} {item : CacheItem ν}
    (hoffer : desk.Offers item offer) (hfits : item.size ≤ desk.cache.budget) :
    (desk.call offer).2.NoneBelow item.oid item.tid := by
  rw [noneBelow_iff]
  intro found hfound
  cases offer with
  | put offered =>
      obtain rfl : offered = item := hoffer
      exact Cache.le_of_find?_put hfits hfound
  | putIfFresh offered place =>
      obtain ⟨rfl, hticket⟩ := hoffer
      simp only [CacheDesk.call, hticket, Cache.putIfFresh, if_true] at hfound
      exact Cache.le_of_find?_put hfits hfound
  | get | ticket | invalidate | clear | evict | contains => cases hoffer

/-- An offer of a version larger than the budget changes nothing. -/
theorem call_of_oversize {offer : CacheCall ν} {item : CacheItem ν}
    (hoffer : desk.Offers item offer) (hsize : desk.cache.budget < item.size) :
    (desk.call offer).2 = desk := by
  cases offer with
  | put offered =>
      obtain rfl : offered = item := hoffer
      simp only [CacheDesk.call, Cache.put_of_oversize hsize]
  | putIfFresh offered place =>
      obtain ⟨rfl, hticket⟩ := hoffer
      simp only [CacheDesk.call, hticket, Cache.putIfFresh, if_true, Cache.put_of_oversize hsize]
  | get | ticket | invalidate | clear | evict | contains => cases hoffer

theorem Offers.item?_eq {offer : CacheCall ν} {item : CacheItem ν}
    (hoffer : desk.Offers item offer) : offer.item? = some item := by
  cases offer with
  | put offered => exact congrArg some hoffer
  | putIfFresh offered place => exact congrArg some hoffer.1
  | get | ticket | invalidate | clear | evict | contains => cases hoffer

end CacheDesk

/-- What follows an offer is no older, as tids rise. -/
theorem TidsRise.le_of_later {earlier later : List (CacheCall ν)} {offer : CacheCall ν}
    {item : CacheItem ν} (hrise : TidsRise (earlier ++ offer :: later))
    (hitem : offer.item? = some item) :
    ∀ other ∈ CacheCall.offered later, other.oid = item.oid → item.tid ≤ other.tid := by
  rw [TidsRise, CacheCall.offered, List.filterMap_append, List.filterMap_cons_some hitem,
    List.pairwise_append] at hrise
  intro other hother hoid
  exact (List.pairwise_cons.mp hrise.2.1).1 other hother hoid.symm

/-- A cache never serves an older version than one it was offered, if that one
fits the budget or nothing older was cached when it was offered; and only then,
as the offer of a larger one changes nothing. -/
theorem no_older_version_after_offer (budget : Nat) (earlier : List (CacheCall ν))
    {offer : CacheCall ν} {item : CacheItem ν} (hrise : TidsRise (earlier ++ [offer]))
    (hoffer : (CacheDesk.ofRun budget earlier).Offers item offer) :
    ((∀ later, TidsRise (earlier ++ offer :: later) →
        (CacheDesk.ofRun budget (earlier ++ offer :: later)).NoneBelow item.oid item.tid) ↔
      item.size ≤ budget ∨ (CacheDesk.ofRun budget earlier).NoneBelow item.oid item.tid) ∧
    (budget < item.size →
      CacheDesk.ofRun budget (earlier ++ [offer]) = CacheDesk.ofRun budget earlier) := by
  have hbudget := CacheDesk.budget_ofRun budget earlier
  have hoversize : budget < item.size →
      CacheDesk.ofRun budget (earlier ++ [offer]) = CacheDesk.ofRun budget earlier := by
    intro hsize
    rw [CacheDesk.ofRun_concat, CacheDesk.call_of_oversize hoffer (hbudget.trans_lt hsize)]
  refine ⟨⟨?_, ?_⟩, hoversize⟩
  · intro hnever
    rcases le_or_gt item.size budget with hfits | hsize
    · exact Or.inl hfits
    · have hnow := hnever [] hrise
      rw [hoversize hsize] at hnow
      exact Or.inr hnow
  · intro hcase later hlater
    have hnow : (CacheDesk.ofRun budget (earlier ++ [offer])).NoneBelow item.oid item.tid := by
      rw [CacheDesk.ofRun_concat]
      rcases hcase with hfits | hnone
      · exact CacheDesk.noneBelow_of_fits hoffer (hfits.trans_eq hbudget.symm)
      · refine hnone.call fun other hother hoid => ?_
        cases hoffer.item?_eq.symm.trans hother
        exact le_refl _
    rw [List.append_cons]
    exact hnow.run (hlater.le_of_later hoffer.item?_eq)

namespace OfferWitness

def item (tid size : Nat) : CacheItem Unit := ⟨⟨1⟩, ⟨tid⟩, (), size⟩

/-- A fill under a fresh ticket takes the place of the older version, and no
older one is served after it was evicted. -/
theorem fill_replaces :
    let earlier := [.put (item 1 4), .ticket]
    let later := [.put ⟨⟨2⟩, ⟨3⟩, (), 10⟩]
    TidsRise (earlier ++ .putIfFresh (item 2 6) 0 :: later) ∧
      (CacheDesk.ofRun 10 (earlier ++ .putIfFresh (item 2 6) 0 :: later)).NoneBelow ⟨1⟩ ⟨2⟩ := by
  intro earlier later
  have hrise : TidsRise (earlier ++ .putIfFresh (item 2 6) 0 :: later) := by
    unfold TidsRise
    decide
  have hoffered : TidsRise (earlier ++ [.putIfFresh (item 2 6) 0]) := by
    unfold TidsRise
    decide
  have hoffer : (CacheDesk.ofRun 10 earlier).Offers (item 2 6) (.putIfFresh (item 2 6) 0) :=
    ⟨rfl, rfl⟩
  have hfits : (item 2 6).size ≤ 10 := by decide
  exact ⟨hrise, (no_older_version_after_offer 10 earlier hoffered hoffer).1.mpr (.inl hfits) later
    hrise⟩

/-- A version larger than the budget leaves the older one to be served. -/
theorem older_version_served :
    TidsRise [.put (item 1 1), .put (item 2 11)] ∧
      (CacheDesk.ofRun 10 [.put (item 1 1)]).Offers (item 2 11) (.put (item 2 11)) ∧
      ((CacheDesk.ofRun 10 [.put (item 1 1), .put (item 2 11)]).call (.get ⟨1⟩)).1 =
        .found (some (⟨1⟩, ())) ∧
      ¬ (CacheDesk.ofRun 10 [.put (item 1 1), .put (item 2 11)]).NoneBelow ⟨1⟩ ⟨2⟩ := by
  have hrise : TidsRise [.put (item 1 1), .put (item 2 11)] := by
    unfold TidsRise
    decide
  have hserved : ((CacheDesk.ofRun 10 [.put (item 1 1), .put (item 2 11)]).call (.get ⟨1⟩)).1 =
      .found (some (⟨1⟩, ())) := rfl
  refine ⟨hrise, rfl, hserved, ?_⟩
  intro hnone
  exact absurd (hnone _ hserved) (by decide)

end OfferWitness

end ObjectVault
