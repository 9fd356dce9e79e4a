/-
The rows of a cache: its entries in the order of their last use, the latest
first.  Entries, order, clock and resident bytes all follow from the rows, and
each operation on a cache is a small change of its rows: a removal drops one, an
eviction drops the last ones, and a use puts a row in front.
-/
import ObjectVault.Proofs.CacheEntries
import Mathlib.Data.List.Induction
import Mathlib.Data.List.Sort

namespace ObjectVault

/-- The least entry of a tree is the first one it lists. -/
theorem minEntry?_inner_eq_head? {α β : Type} (tree : Std.DTreeMap.Internal.Impl α fun _ => β) :
    Std.DTreeMap.Internal.Impl.Const.minEntry? tree =
      (Std.DTreeMap.Internal.Impl.Const.toList tree).head? := by
  rw [Std.DTreeMap.Internal.Impl.Const.toList_eq_toListModel_map]
  induction tree using Std.DTreeMap.Internal.Impl.Const.minEntry?.induct <;>
    simp_all [Std.DTreeMap.Internal.Impl.Const.minEntry?,
      Std.DTreeMap.Internal.Impl.toListModel]

theorem minEntry?_eq_head? {α β : Type} {order : α → α → Ordering} [Std.TransCmp order]
    (table : Std.ExtTreeMap α β order) : table.minEntry? = table.toList.head? := by
  obtain ⟨inner⟩ := table
  cases inner with
  | mk tree => exact minEntry?_inner_eq_head? tree.inner

section Settle

variable {α : Type} {size : α → Nat} {budget : Nat} {items : List α}

/-- The sizes of all items together. -/
def total (size : α → Nat) : List α → Nat
  | [] => 0
  | item :: rest => size item + total size rest

/-- Drop items from the front while the total exceeds the budget. -/
def settleOldest (size : α → Nat) (budget : Nat) : List α → List α
  | [] => []
  | oldest :: rest =>
      if total size (oldest :: rest) ≤ budget then oldest :: rest
      else settleOldest size budget rest

/-- Drop items from the back while the total exceeds the budget. -/
def settle (size : α → Nat) (budget : Nat) (items : List α) : List α :=
  (settleOldest size budget items.reverse).reverse

theorem total_append (items more : List α) :
    total size (items ++ more) = total size items + total size more := by
  induction items with
  | nil => rw [List.nil_append, total, Nat.zero_add]
  | cons item rest ih => rw [List.cons_append, total, total, ih, Nat.add_assoc]

theorem total_reverse : total size items.reverse = total size items := by
  induction items with
  | nil => rfl
  | cons item rest ih =>
      simp only [List.reverse_cons, total_append, ih, total]
      omega

theorem total_map {β : Type} (change : β → α) (items : List β) :
    total size (items.map change) = total (fun item => size (change item)) items := by
  induction items with
  | nil => rfl
  | cons item rest ih => rw [List.map_cons, total, total, ih]

theorem total_filter_le (keep : α → Bool) : total size (items.filter keep) ≤ total size items := by
  induction items with
  | nil => exact le_refl _
  | cons item rest ih =>
      rw [List.filter_cons, total]
      split
      · exact Nat.add_le_add_left ih _
      · exact Nat.le_add_left_of_le ih

theorem settle_of_le (h : total size items ≤ budget) : settle size budget items = items := by
  rw [← total_reverse] at h
  rw [settle]
  cases hitems : items.reverse with
  | nil => rw [List.reverse_eq_nil_iff.mp hitems, settleOldest, List.reverse_nil]
  | cons oldest rest =>
      rw [hitems] at h
      rw [settleOldest, if_pos h, ← hitems, List.reverse_reverse]

/-- An item at the back goes while the total exceeds the budget. -/
theorem settle_concat {last : α} (h : budget < total size (items ++ [last])) :
    settle size budget (items ++ [last]) = settle size budget items := by
  rw [← total_reverse, List.reverse_concat] at h
  rw [settle, List.reverse_concat, settleOldest, if_neg (Nat.not_le_of_lt h), settle]

theorem total_settle_le : total size (settle size budget items) ≤ budget := by
  rw [settle, total_reverse]
  induction items.reverse with
  | nil => exact Nat.zero_le _
  | cons oldest rest ih =>
      rw [settleOldest]
      split
      · assumption
      · exact ih

/-- An item that fits the budget alone stays in front. -/
theorem head?_settle {item : α} (hfits : size item ≤ budget) :
    (settle size budget (item :: items)).head? = some item := by
  induction items using List.reverseRecOn with
  | nil =>
      rw [settle_of_le (by simpa [total] using hfits), List.head?_cons]
  | append_singleton rest last ih =>
      by_cases hwithin : total size (item :: (rest ++ [last])) ≤ budget
      · rw [settle_of_le hwithin, List.head?_cons]
      · rw [← List.cons_append, settle_concat (Nat.lt_of_not_le hwithin), ih]

theorem settle_map {β : Type} (change : β → α) (items : List β) :
    settle size budget (items.map change) =
      (settle (fun item => size (change item)) budget items).map change := by
  rw [settle, settle, List.map_reverse, ← List.map_reverse]
  congr 1
  induction items.reverse with
  | nil => rfl
  | cons oldest rest ih =>
      rw [List.map_cons, settleOldest, settleOldest, ih, ← List.map_cons, total_map]
      split <;> rfl

end Settle

namespace Cache

variable {ν : Type}

/-- The rows are the entries of the cache, the latest used first, and the
cache keeps its books by them. -/
structure Lists (cache : Cache ν) (budget : Nat) (rows : List (Oid × CacheEntry ν)) : Prop where
  budget_eq : cache.budget = budget
  descending : rows.Pairwise fun newer older => older.2.tick < newer.2.tick
  entries_iff {oid : Oid} {entry : CacheEntry ν} :
    cache.entries[oid]? = some entry ↔ (oid, entry) ∈ rows
  order_iff {tick : Nat} {oid : Oid} :
    cache.order[tick]? = some oid ↔ ∃ entry, (oid, entry) ∈ rows ∧ entry.tick = tick
  past {row : Oid × CacheEntry ν} : row ∈ rows → row.2.tick ≤ cache.clock
  resident_eq : cache.resident = total (·.2.size) rows

theorem lists_empty (budget : Nat) : ({ budget } : Cache ν).Lists budget [] := by
  constructor <;> simp [total]

/-- Nothing is evicted within the budget. -/
theorem evict_of_le {cache : Cache ν} (h : cache.resident ≤ cache.budget) :
    cache.evict = cache := by
  rw [evict]
  cases cache.order.size with
  | zero => rfl
  | succ bound => rw [evictUpTo, if_pos h]

namespace Lists

variable {cache : Cache ν} {budget : Nat} {rows : List (Oid × CacheEntry ν)}
  (h : cache.Lists budget rows)

include h

/-- Counts and generation are no part of the books. -/
theorem relabel (generation : Nat) (counts : CacheCounts) :
    { cache with generation, counts }.Lists budget rows :=
  ⟨h.budget_eq, h.descending, h.entries_iff, h.order_iff, h.past, h.resident_eq⟩

theorem entry_unique {row other : Oid × CacheEntry ν} (hrow : row ∈ rows) (hother : other ∈ rows)
    (hoid : row.1 = other.1) : row = other := by
  have hentry : cache.entries[row.1]? = some row.2 := h.entries_iff.mpr hrow
  have hsame : cache.entries[other.1]? = some other.2 := h.entries_iff.mpr hother
  rw [hoid, hsame] at hentry
  exact Prod.ext hoid (Option.some.inj hentry).symm

theorem tick_unique {row other : Oid × CacheEntry ν} (hrow : row ∈ rows) (hother : other ∈ rows)
    (htick : row.2.tick = other.2.tick) : row = other := by
  have hoid : cache.order[row.2.tick]? = some row.1 := h.order_iff.mpr ⟨row.2, hrow, rfl⟩
  have hsame : cache.order[row.2.tick]? = some other.1 :=
    h.order_iff.mpr ⟨other.2, hother, htick.symm⟩
  exact h.entry_unique hrow hother (Option.some.inj (hoid.symm.trans hsame))

theorem distinct : rows.Pairwise (·.1 ≠ ·.1) := by
  refine h.descending.imp_of_mem fun hnewer holder htick hoid => ?_
  rw [h.entry_unique hnewer holder hoid] at htick
  exact lt_irrefl _ htick

/-- Whoever drops the rows of an object drops one row. -/
theorem filter_split {newer older : List (Oid × CacheEntry ν)} {row : Oid × CacheEntry ν}
    (hrows : rows = newer ++ row :: older) : rows.filter (·.1 ≠ row.1) = newer ++ older := by
  have hdistinct := h.distinct
  rw [hrows, List.pairwise_append, List.pairwise_cons] at hdistinct
  obtain ⟨_, ⟨holder, _⟩, hnewer⟩ := hdistinct
  have hkeepNewer : newer.filter (·.1 ≠ row.1) = newer :=
    List.filter_eq_self.mpr fun other hmem => by simpa using hnewer other hmem _ List.mem_cons_self
  have hkeepOlder : older.filter (·.1 ≠ row.1) = older :=
    List.filter_eq_self.mpr fun other hmem => by simpa using (holder other hmem).symm
  rw [hrows, List.filter_append, List.filter_cons_of_neg (by simp), hkeepNewer, hkeepOlder]

/-- An entry has its place among the rows. -/
theorem split {oid : Oid} {entry : CacheEntry ν} (hentry : cache.entries[oid]? = some entry) :
    ∃ newer older, rows = newer ++ (oid, entry) :: older ∧
      rows.filter (·.1 ≠ oid) = newer ++ older := by
  obtain ⟨newer, older, hrows⟩ := List.append_of_mem (h.entries_iff.mp hentry)
  exact ⟨newer, older, hrows, h.filter_split hrows⟩

theorem size_le_resident {oid : Oid} {entry : CacheEntry ν}
    (hentry : cache.entries[oid]? = some entry) : entry.size ≤ cache.resident := by
  obtain ⟨newer, older, hrows, -⟩ := h.split hentry
  rw [h.resident_eq, hrows]
  simp only [total_append, total]
  omega

/-- The order lists the rows, the oldest first. -/
theorem toList_order : cache.order.toList = (rows.map fun row => (row.2.tick, row.1)).reverse := by
  have hsorted : cache.order.toList.Pairwise fun older newer => older.1 < newer.1 :=
    Std.ExtTreeMap.ordered_keys_toList.imp Nat.compare_eq_lt.mp
  have hrows : (rows.map fun row => (row.2.tick, row.1)).reverse.Pairwise
      fun older newer => older.1 < newer.1 :=
    List.pairwise_reverse.mpr (List.pairwise_map.mpr h.descending)
  refine hsorted.eq_of_mem_iff hrows fun used => ?_
  obtain ⟨tick, oid⟩ := used
  rw [Std.ExtTreeMap.mem_toList_iff_getElem?_eq_some, h.order_iff]
  simp [and_comm]

theorem size_order : cache.order.size = rows.length := by
  rw [← Std.ExtTreeMap.length_toList, h.toList_order]
  simp

theorem size_eq : cache.size = rows.length := by
  have hlisted : cache.entries.toList.Nodup :=
    Std.ExtTreeMap.distinct_keys_toList.imp fun hkeys hsame =>
      hkeys (Std.LawfulEqCmp.compare_eq_iff_eq.mpr (congrArg Prod.fst hsame))
  have hnodup : rows.Nodup := h.distinct.imp fun hoid hsame => hoid (congrArg Prod.fst hsame)
  have hperm : cache.entries.toList.Perm rows := by
    refine (List.perm_ext_iff_of_nodup hlisted hnodup).mpr fun row => ?_
    obtain ⟨oid, entry⟩ := row
    rw [Std.ExtTreeMap.mem_toList_iff_getElem?_eq_some, h.entries_iff]
  rw [size, ← Std.ExtTreeMap.length_toList, hperm.length_eq]

theorem remove (oid : Oid) : (cache.remove oid).Lists budget (rows.filter (·.1 ≠ oid)) := by
  cases hentry : cache.entries[oid]? with
  | none =>
      have hsame : cache.remove oid = cache := by rw [Cache.remove, hentry]
      have hkeep : rows.filter (·.1 ≠ oid) = rows := by
        refine List.filter_eq_self.mpr fun row hmem => ?_
        have hheld := h.entries_iff.mpr hmem
        grind
      rw [hsame, hkeep]
      exact h
  | some entry =>
      have hremoved : cache.remove oid =
          { cache with
            entries := cache.entries.erase oid
            order := cache.order.erase entry.tick
            resident := cache.resident - entry.size } := by rw [Cache.remove, hentry]
      have hrow : (oid, entry) ∈ rows := h.entries_iff.mp hentry
      rw [hremoved]
      constructor
      · exact h.budget_eq
      · exact h.descending.filter _
      · intro other found
        simp only [Std.ExtTreeMap.getElem?_erase, Std.LawfulEqCmp.compare_eq_iff_eq,
          Option.ite_none_left_eq_some, h.entries_iff, List.mem_filter, decide_eq_true_eq,
          eq_comm (a := oid), and_comm, ne_eq]
      · intro tick other
        simp only [Std.ExtTreeMap.getElem?_erase, Std.LawfulEqCmp.compare_eq_iff_eq,
          Option.ite_none_left_eq_some, h.order_iff, List.mem_filter, decide_eq_true_eq, ne_eq]
        constructor
        · rintro ⟨htick, found, hmem, rfl⟩
          refine ⟨found, ⟨hmem, ?_⟩, rfl⟩
          rintro rfl
          exact htick (congrArg (·.2.tick) (h.entry_unique hrow hmem rfl))
        · rintro ⟨found, ⟨hmem, hother⟩, rfl⟩
          refine ⟨fun htick => hother ?_, found, hmem, rfl⟩
          exact (congrArg Prod.fst (h.tick_unique hrow hmem htick)).symm
      · intro row hmem
        exact h.past (List.mem_of_mem_filter hmem)
      · obtain ⟨newer, older, hrows, hfilter⟩ := h.split hentry
        rw [hfilter, h.resident_eq, hrows]
        simp only [total_append, total]
        omega

theorem foldl_remove (oids : List Oid) :
    (oids.foldl Cache.remove cache).Lists budget (rows.filter (·.1 ∉ oids)) := by
  induction oids generalizing cache rows with
  | nil => simpa using h
  | cons head rest ih =>
      have hrest := ih (h.remove head)
      rw [List.filter_filter] at hrest
      simpa [not_or, Bool.and_comm] using hrest

/-- The last row is evicted. -/
theorem evictOldest? {newer : List (Oid × CacheEntry ν)} {row : Oid × CacheEntry ν}
    (hrows : rows = newer ++ [row]) :
    ∃ smaller, cache.evictOldest? = some smaller ∧ smaller.Lists budget newer := by
  have hentry : cache.entries[row.1]? = some row.2 := h.entries_iff.mpr (by simp [hrows])
  have hleast : cache.order.minEntry? = some (row.2.tick, row.1) := by
    rw [minEntry?_eq_head?, h.toList_order, hrows]
    simp
  have hnewer : (cache.remove row.1).Lists budget newer := by
    have hremove := h.remove row.1
    rwa [h.filter_split hrows, List.append_nil] at hremove
  refine ⟨_, by rw [Cache.evictOldest?, hleast, Option.map_some], ?_⟩
  dsimp only
  rw [hentry]
  rw [Cache.remove, hentry] at hnewer
  exact hnewer.relabel cache.generation _

/-- An eviction with room for every row drops the last rows that exceed the
budget; one that is cut short drops some of them. -/
theorem evictUpTo (bound : Nat) :
    ∃ kept, (cache.evictUpTo bound).Lists budget kept ∧
      (rows.length ≤ bound → kept = settle (·.2.size) budget rows) := by
  induction bound generalizing cache rows with
  | zero =>
      refine ⟨rows, h, fun hlength => ?_⟩
      cases List.length_eq_zero_iff.mp (Nat.le_zero.mp hlength)
      rfl
  | succ bound ih =>
      rw [Cache.evictUpTo]
      split
      · rename_i hwithin
        rw [h.resident_eq, h.budget_eq] at hwithin
        exact ⟨rows, h, fun _ => (settle_of_le hwithin).symm⟩
      · rename_i hexceeds
        rw [h.resident_eq, h.budget_eq, Nat.not_le] at hexceeds
        -- without rows there are no bytes to exceed the budget
        obtain rfl | ⟨newer, row, hrows⟩ := rows.eq_nil_or_concat
        · exact absurd hexceeds (Nat.not_lt_zero _)
        rw [List.concat_eq_append] at hrows
        obtain ⟨smaller, hsmaller, hlists⟩ := h.evictOldest? hrows
        obtain ⟨kept, hkept, hsettled⟩ := ih hlists
        rw [hsmaller]
        refine ⟨kept, hkept, fun hlength => ?_⟩
        subst hrows
        rw [settle_concat hexceeds]
        exact hsettled (by simpa using hlength)

theorem evict : cache.evict.Lists budget (settle (·.2.size) budget rows) := by
  obtain ⟨kept, hkept, hsettled⟩ := h.evictUpTo cache.order.size
  rw [hsettled h.size_order.ge] at hkept
  exact hkept

end Lists

/-- Put a version in as the latest used entry. -/
def place (cache : Cache ν) (oid : Oid) (tid : Tid) (value : ν) (size : Nat) : Cache ν :=
  { cache with
    clock := cache.clock + 1
    entries := cache.entries.insert oid ⟨tid, value, size, cache.clock + 1⟩
    order := cache.order.insert (cache.clock + 1) oid
    resident := cache.resident + size }

/-- Put a version in for whatever is cached of its object. -/
def fill (cache : Cache ν) (oid : Oid) (tid : Tid) (value : ν) (size : Nat) : Cache ν :=
  let removed := cache.remove oid
  { removed.place oid tid value size with
    counts := { removed.counts with inserts := removed.counts.inserts + 1 } }

theorem insert_eq (cache : Cache ν) (oid : Oid) (tid : Tid) (value : ν) (size : Nat) :
    cache.insert oid tid value size = (cache.fill oid tid value size).evict := rfl

namespace Lists

variable {cache : Cache ν} {budget : Nat} {rows : List (Oid × CacheEntry ν)}
  (h : cache.Lists budget rows)

include h

theorem place {oid : Oid} (habsent : ∀ row ∈ rows, row.1 ≠ oid) (tid : Tid) (value : ν)
    (size : Nat) :
    (cache.place oid tid value size).Lists budget
      ((oid, ⟨tid, value, size, cache.clock + 1⟩) :: rows) := by
  have hpast : ∀ row ∈ rows, row.2.tick < cache.clock + 1 := fun row hmem =>
    Nat.lt_succ_of_le (h.past hmem)
  have hentry : cache.entries[oid]? = none :=
    Option.eq_none_iff_forall_ne_some.mpr fun entry hentry =>
      habsent _ (h.entries_iff.mp hentry) rfl
  have htick : cache.order[cache.clock + 1]? = none := by
    refine Option.eq_none_iff_forall_ne_some.mpr fun other hother => ?_
    obtain ⟨entry, hmem, hnow⟩ := h.order_iff.mp hother
    exact (hpast _ hmem).ne hnow
  constructor
  · exact h.budget_eq
  · exact List.pairwise_cons.mpr ⟨hpast, h.descending⟩
  · intro other found
    simp only [Cache.place, Std.ExtTreeMap.getElem?_insert, Std.LawfulEqCmp.compare_eq_iff_eq,
      List.mem_cons, Prod.mk.injEq, ← h.entries_iff]
    by_cases hsame : oid = other
    · subst hsame
      simp [hentry, eq_comm]
    · simp [hsame, eq_comm (a := other)]
  · intro tick other
    simp only [Cache.place, Std.ExtTreeMap.getElem?_insert, Std.LawfulEqCmp.compare_eq_iff_eq,
      List.mem_cons, Prod.mk.injEq, or_and_right, exists_or, ← h.order_iff]
    by_cases hsame : cache.clock + 1 = tick
    · subst hsame
      simp [htick, eq_comm]
    · simp [hsame]
  · intro row hmem
    rcases List.mem_cons.mp hmem with rfl | hold
    · exact le_refl _
    · exact Nat.le_of_lt (hpast row hold)
  · rw [total, Nat.add_comm]
    exact congrArg (· + size) h.resident_eq

/-- A version placed for another is in front, and no other row is of its
object. -/
theorem replace (oid : Oid) (tid : Tid) (value : ν) (size : Nat) :
    ((cache.remove oid).place oid tid value size).Lists budget
      ((oid, ⟨tid, value, size, (cache.remove oid).clock + 1⟩) :: rows.filter (·.1 ≠ oid)) :=
  (h.remove oid).place (fun _ hmem => by simpa using List.of_mem_filter hmem) tid value size

/-- A use takes the entry out and puts it in again. -/
theorem touch_eq {oid : Oid} {entry : CacheEntry ν} (hentry : cache.entries[oid]? = some entry) :
    cache.touch oid entry = (cache.remove oid).place oid entry.tid entry.value entry.size := by
  have hentries : cache.entries.insert oid { entry with tick := cache.clock + 1 } =
      (cache.entries.erase oid).insert oid { entry with tick := cache.clock + 1 } := by
    refine Std.ExtTreeMap.ext_getElem? fun other => ?_
    simp only [Std.ExtTreeMap.getElem?_insert, Std.ExtTreeMap.getElem?_erase]
    split <;> rfl
  have hresident : cache.resident = cache.resident - entry.size + entry.size :=
    (Nat.sub_add_cancel (h.size_le_resident hentry)).symm
  rw [Cache.remove, hentry, Cache.place, touch, ← hentries, ← hresident]

end Lists

end Cache

end ObjectVault
