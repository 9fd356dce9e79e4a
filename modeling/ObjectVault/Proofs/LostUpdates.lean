/-
No update is lost.  A commit supersedes exactly the versions that its batch
expects.  A version that was superseded, or deleted, never becomes current
again, since every tid is assigned once; so no later batch that expects it can
be committed, however objects are deleted and created again in between.
-/
import ObjectVault.Proofs.ObjectGraph
import ObjectVault.Proofs.TransactionRun

namespace ObjectVault

open MemoryStore (Change Evolves)

/-- The tid was assigned, and it is not the object's current one. -/
def MemoryStore.IsPast (store : MemoryStore) (oid : Oid) (tid : Tid) : Prop :=
  store.HasPassed tid ∧ store.currentTid? oid ≠ some tid

/-- What is past stays past. -/
theorem MemoryStore.Evolves.isPast {store later : MemoryStore} {oid : Oid} {tid : Tid}
    (hevolves : Evolves store later) (hpast : store.IsPast oid tid) : later.IsPast oid tid := by
  obtain ⟨hpassed, hnot⟩ := hpast
  refine ⟨hevolves.passed hpassed, fun hcurrent => ?_⟩
  obtain ⟨version, hversion, rfl⟩ := Option.map_eq_some_iff.mp hcurrent
  rcases hevolves.current hversion with hold | hnew
  · exact hnot (Option.map_eq_some_iff.mpr ⟨version, hold, rfl⟩)
  · exact lt_irrefl _ (hnew _ hpassed)

/-- What a commit supersedes is past after it. -/
theorem MemoryStore.isPast_applyAll {store : MemoryStore} (hsound : store.Sound) {now : Instant}
    {note : CommitNote} {writes : List Write} (hvalid : store.refusal? ∅ writes = none)
    {write : Write} (hwrite : write ∈ writes) {tid : Tid} (hexpects : write.expected = some tid) :
    (store.applyAll (Tid.nextAfter store.lastTid now) now note writes).IsPast write.oid tid := by
  obtain ⟨hnodup, _, hexpected⟩ := refusal?_eq_none_iff.mp hvalid
  obtain ⟨version, hversion, rfl⟩ :=
    Option.map_eq_some_iff.mp ((hexpected write hwrite).trans hexpects)
  have hpassed : store.HasPassed version.tid := hsound.current_passed hversion
  have hlt : version.tid < Tid.nextAfter store.lastTid now := lt_nextAfter_of_hasPassed hpassed
  refine ⟨(Change.committed now note writes hvalid).evolves.passed hpassed, ?_⟩
  have hcurrent := (foldl_apply_of_mem (Tid.nextAfter store.lastTid now) store hnodup hwrite).1
  simp only [currentTid?, applyAll, hcurrent, Option.map_some, ne_eq, Option.some.injEq]
  exact ne_of_gt hlt

namespace Attempt

/-- A successful attempt finds what it expects, and a failed one changes
nothing. -/
structure Fair (attempt : Attempt MemoryStore) : Prop where
  distinct : attempt.Succeeds → (attempt.writes.map Write.oid).Nodup
  expected : attempt.Succeeds → ∀ write ∈ attempt.writes,
    attempt.before.currentTid? write.oid = write.expected
  unchanged {error : TxnError} : attempt.result = .error error → attempt.after = attempt.before

/-- What was carried out is fair, and what it superseded is past. -/
theorem Carried.fair {attempt : Attempt MemoryStore} (hcarried : attempt.Carried)
    (hsound : attempt.before.Sound) :
    Change attempt.before attempt.after ∧ attempt.Fair ∧
      (attempt.Succeeds → ∀ oid tid, attempt.Expects oid tid → attempt.after.IsPast oid tid) := by
  rcases hcarried with ⟨hsame, hempty⟩ | ⟨now, note, tid, hresult, hcommit⟩
  · refine ⟨hsame ▸ .none, ⟨?_, ?_, fun _ => hsame⟩, ?_⟩
    · intro hsucceeds
      rw [hempty hsucceeds]
      exact List.nodup_nil
    · intro hsucceeds write hwrite
      rw [hempty hsucceeds] at hwrite
      cases hwrite
    · rintro hsucceeds oid tid ⟨write, hwrite, _⟩
      rw [hempty hsucceeds] at hwrite
      cases hwrite
  · obtain ⟨hvalid, rfl, hafter⟩ := MemoryStore.commit_eq_ok hcommit
    obtain ⟨hnodup, _, hexpected⟩ := MemoryStore.refusal?_eq_none_iff.mp hvalid
    refine ⟨MemoryStore.change_commit hcommit, ⟨fun _ => hnodup, fun _ => hexpected, ?_⟩, ?_⟩
    · intro error herror
      rw [hresult] at herror
      cases herror
    · rintro _ oid old ⟨write, hwrite, rfl, hexpects⟩
      rw [hafter]
      exact MemoryStore.isPast_applyAll hsound hvalid hwrite hexpects

end Attempt

namespace TxnScene

variable {κ : Type} {settings : PackSettings} {scene : TxnScene MemoryStore κ}

/-- What holds all along a run: every attempt was fair, what a successful one
superseded is past, and no two of those superseded the same version. -/
structure Fair (scene : TxnScene MemoryStore κ) : Prop where
  sound : scene.store.Sound
  fair : ∀ attempt ∈ scene.attempts, attempt.Fair
  past : ∀ attempt ∈ scene.attempts, attempt.Succeeds →
    ∀ oid tid, attempt.Expects oid tid → scene.store.IsPast oid tid
  once : scene.attempts.Pairwise fun earlier later => ∀ oid tid, earlier.Expects oid tid →
    later.Expects oid tid → ¬ (earlier.Succeeds ∧ later.Succeeds)

/-- Changes of the store without an attempt keep everything. -/
theorem Fair.change (hfair : scene.Fair) {after : TxnScene MemoryStore κ}
    (hchange : Change scene.store after.store) (hattempts : after.attempts = scene.attempts) :
    after.Fair := by
  refine ⟨hfair.sound.change hchange, ?_, ?_, ?_⟩
  · rw [hattempts]
    exact hfair.fair
  · rw [hattempts]
    intro attempt hmem hsucceeds oid tid hexpects
    exact hchange.evolves.isPast (hfair.past attempt hmem hsucceeds oid tid hexpects)
  · rw [hattempts]
    exact hfair.once

/-- One more attempt keeps everything: what it expects, if it succeeds, is
current, and so it was not superseded before. -/
theorem Fair.attempt (hfair : scene.Fair) {after : TxnScene MemoryStore κ}
    {attempt : Attempt MemoryStore} (hcarried : attempt.Carried)
    (hbefore : attempt.before = scene.store) (hafter : attempt.after = after.store)
    (hattempts : after.attempts = scene.attempts ++ [attempt]) : after.Fair := by
  obtain ⟨hchange, hitself, hpast⟩ := hcarried.fair (hbefore ▸ hfair.sound)
  rw [hbefore, hafter] at hchange
  rw [hafter] at hpast
  refine ⟨hfair.sound.change hchange, ?_, ?_, ?_⟩
  · rw [hattempts]
    intro other hmem
    rcases List.mem_append.mp hmem with hearlier | hlast
    · exact hfair.fair other hearlier
    · rw [List.mem_singleton.mp hlast]
      exact hitself
  · rw [hattempts]
    intro other hmem hsucceeds oid tid hexpects
    rcases List.mem_append.mp hmem with hearlier | hlast
    · exact hchange.evolves.isPast (hfair.past other hearlier hsucceeds oid tid hexpects)
    · obtain rfl := List.mem_singleton.mp hlast
      exact hpast hsucceeds oid tid hexpects
  · rw [hattempts]
    refine List.pairwise_append.mpr ⟨hfair.once, List.pairwise_singleton _ _, ?_⟩
    rintro earlier hearlier _ hlast oid tid hexpects ⟨write, hwrite, rfl, hexpected⟩
      ⟨hsucceeds, hagain⟩
    obtain rfl := List.mem_singleton.mp hlast
    apply (hfair.past earlier hearlier hsucceeds write.oid tid hexpects).2
    rw [← hbefore, hitself.expected hagain write hwrite, hexpected]

theorem fair_start {keepsHistory : Bool} {cache : κ} :
    (start (MemoryStore.empty keepsHistory) cache).Fair :=
  ⟨MemoryStore.sound_empty, by simp [start], by simp [start], by simp [start]⟩

variable [Invalidator κ]

theorem perform_commit {store : MemoryStore} {now : Instant} {note : CommitNote}
    {writes : List Write} :
    perform store (.commit now note writes) = (Attempt.direct store now note writes).after := by
  simp only [perform, Attempt.direct]
  cases ObjectStore.commit store now note writes <;> rfl

theorem Fair.beside (hfair : scene.Fair) (move : PackMove) :
    (scene.move settings (.beside move)).Fair := by
  have hchange : Change scene.store (scene.toPackScene.move settings move).store :=
    scene.toPackScene.change_move move
  cases move with
  | call action =>
      cases action with
      | commit now note writes =>
          refine hfair.attempt (Attempt.carried_direct scene.store now note writes) ?_ ?_ rfl
          · unfold Attempt.direct
            split <;> rfl
          · exact perform_commit.symm
      | newOid | deleteObjects | pruneHistory | dropHistory =>
          exact hfair.change hchange (List.append_nil _)
  | mark | sweep | proceed => exact hfair.change hchange (List.append_nil _)

/-- Every move keeps a run fair. -/
theorem Fair.move (hfair : scene.Fair) (move : TxnMove) : (scene.move settings move).Fair := by
  cases move with
  | beside move => exact hfair.beside move
  | finish place clock =>
      simp only [TxnScene.move]
      split
      · rename_i txn _
        have hcarried := Attempt.carried_finishing txn clock scene.store scene.cache
        exact hfair.attempt hcarried rfl rfl rfl
      · exact hfair
  | restore place tid oid =>
      simp only [TxnScene.move]
      split
      · exact hfair.change .none rfl
      · exact hfair
  | start | stage | setTimeout | cancel | vote | abort => exact hfair.change .none rfl

end TxnScene

/-- No update is lost.  Of all attempts that are to supersede one version of an
object at most one succeeds.  A successful one finds current, or absent, what
each of its writes expects, and a failed one changes nothing. -/
theorem version_superseded_once [Invalidator κ] (settings : PackSettings) (keepsHistory : Bool)
    (cache : κ) (moves : List TxnMove) :
    let attempts :=
      ((TxnScene.start (MemoryStore.empty keepsHistory) cache).run settings moves).attempts
    (attempts.Pairwise fun earlier later => ∀ oid tid, earlier.Expects oid tid →
      later.Expects oid tid → ¬ (earlier.Succeeds ∧ later.Succeeds)) ∧
    ∀ attempt ∈ attempts,
      (attempt.Succeeds → (attempt.writes.map Write.oid).Nodup ∧
        ∀ write ∈ attempt.writes, attempt.before.currentTid? write.oid = write.expected) ∧
      ∀ error, attempt.result = .error error → attempt.after = attempt.before := by
  have hfair : ((TxnScene.start (MemoryStore.empty keepsHistory) cache).run settings moves).Fair :=
    TxnScene.run_induct TxnScene.Fair (fun _ move hfair => hfair.move move)
      TxnScene.fair_start moves
  refine ⟨hfair.once, fun attempt hmem => ?_⟩
  obtain ⟨hdistinct, hexpected, hunchanged⟩ := hfair.fair attempt hmem
  exact ⟨fun hsucceeds => ⟨hdistinct hsucceeds, hexpected hsucceeds⟩, fun _ => hunchanged⟩

end ObjectVault
