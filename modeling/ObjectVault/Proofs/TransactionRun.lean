/-
Transactions beside each other and beside packs.  Each of them stages, votes
and finishes in its own time.  Between any two of these steps other
transactions may go on, and other clients and collectors may call the same
store.  An undo is a transaction that stages what it reads.
-/
import ObjectVault.History
import ObjectVault.Proofs.PackRun

namespace ObjectVault

namespace Transaction

/-- What a vote can do.  A transaction that is voted on keeps its writes. -/
inductive Votes (txn : Transaction) (clock : Clock) :
    Except TxnError Unit × Transaction → Prop where
  | misplaced (error : TxnError) (hstate : txn.state ≠ .opened) :
      Votes txn clock (.error error, txn)
  | failed (error : TxnError) (reason : AbortReason) (hstate : txn.state = .opened) :
      Votes txn clock (.error error, txn.abortWith reason)
  | passed (hstate : txn.state = .opened) (hlapse : txn.lapse? clock = none) :
      Votes txn clock (.ok (), { txn with state := .voting })

theorem votes_vote [ObjectStore σ] (txn : Transaction) (clock : Clock) (store : σ) :
    Votes txn clock (txn.vote clock store) := by
  unfold vote
  split
  · rename_i hstate
    exact .misplaced _ hstate
  · rename_i hstate
    have hopened : txn.state = .opened := Decidable.not_not.mp hstate
    split
    · exact .failed _ _ hopened
    · rename_i hlapse
      split
      · exact .failed _ _ hopened
      · split
        · exact .failed _ _ hopened
        · exact .passed hopened hlapse

/-- What the second phase can do.  Only with a batch that is not empty it
touches the store, by one commit of the whole batch. -/
inductive Finishes [ObjectStore σ] [Invalidator κ] (txn : Transaction) (clock : Clock) (store : σ)
    (cache : κ) : Finished σ κ → Prop where
  | misplaced (error : TxnError) (hstate : txn.state ≠ .voting) :
      Finishes txn clock store cache ⟨.error error, txn, store, cache⟩
  | failed (error : TxnError) (reason : AbortReason) (hstate : txn.state = .voting) :
      Finishes txn clock store cache ⟨.error error, txn.abortWith reason, store, cache⟩
  | nothing (tid : Tid) (hstate : txn.state = .voting) (hlapse : txn.lapse? clock = none)
      (hnil : txn.writes = []) :
      Finishes txn clock store cache ⟨.ok tid, { txn with state := .committed tid }, store, cache⟩
  | applied (tid : Tid) (after : σ) (hstate : txn.state = .voting)
      (hlapse : txn.lapse? clock = none) (hne : txn.writes ≠ [])
      (hcommit : ObjectStore.commit store clock.wall txn.note txn.writes = .ok (tid, after)) :
      Finishes txn clock store cache ⟨.ok tid, { txn with state := .committed tid }, after,
        Invalidator.invalidate cache txn.touched⟩

theorem finishes_finish [ObjectStore σ] [Invalidator κ] (txn : Transaction) (clock : Clock)
    (store : σ) (cache : κ) :
    Finishes txn clock store cache (txn.finish clock store cache) := by
  unfold finish
  split
  · rename_i hstate
    exact .misplaced _ hstate
  · rename_i hstate
    have hvoting : txn.state = .voting := Decidable.not_not.mp hstate
    split
    · exact .failed _ _ hvoting
    · rename_i hlapse
      split
      · rename_i hempty
        split
        · exact .failed _ _ hvoting
        · exact .nothing _ hvoting hlapse (List.isEmpty_iff.mp hempty)
      · rename_i hsome
        split
        · exact .failed _ _ hvoting
        · rename_i hcommit
          exact .applied _ _ hvoting hlapse (fun hnil => hsome (List.isEmpty_iff.mpr hnil)) hcommit

/-- The second phase either leaves the store and the cache alone, and then it
can succeed with an empty batch only, or it makes one commit of the whole
batch. -/
theorem finish_cases [ObjectStore σ] [Invalidator κ] (txn : Transaction) (clock : Clock)
    (store : σ) (cache : κ) :
    ((txn.finish clock store cache).store = store ∧
        (txn.finish clock store cache).cache = cache ∧
        ∀ tid, (txn.finish clock store cache).result = .ok tid → txn.writes = []) ∨
      txn.writes ≠ [] ∧ ∃ tid, (txn.finish clock store cache).result = .ok tid ∧
        ObjectStore.commit store clock.wall txn.note txn.writes =
          .ok (tid, (txn.finish clock store cache).store) ∧
        (txn.finish clock store cache).cache = Invalidator.invalidate cache txn.touched := by
  have hfinish := txn.finishes_finish clock store cache
  generalize txn.finish clock store cache = finished at hfinish ⊢
  cases hfinish with
  | misplaced => exact Or.inl ⟨rfl, rfl, nofun⟩
  | failed => exact Or.inl ⟨rfl, rfl, nofun⟩
  | nothing tid _ _ hnil => exact Or.inl ⟨rfl, rfl, fun _ _ => hnil⟩
  | applied tid after _ _ hne hcommit => exact Or.inr ⟨hne, tid, rfl, hcommit, rfl⟩

/-- Both phases together make one commit of the whole batch, or leave the store
and the cache alone. -/
theorem commit_cases [ObjectStore σ] [Invalidator κ] (txn : Transaction) (clock : Clock) (store : σ)
    (cache : κ) :
    ((txn.commit clock store cache).store = store ∧
        (txn.commit clock store cache).cache = cache ∧
        ∀ tid, (txn.commit clock store cache).result = .ok tid → txn.writes = []) ∨
      txn.writes ≠ [] ∧ ∃ tid, (txn.commit clock store cache).result = .ok tid ∧
        ObjectStore.commit store clock.wall txn.note txn.writes =
          .ok (tid, (txn.commit clock store cache).store) ∧
        (txn.commit clock store cache).cache = Invalidator.invalidate cache txn.touched := by
  have hvote := txn.votes_vote clock store
  unfold commit
  generalize txn.vote clock store = voted at hvote
  cases hvote with
  | misplaced => exact Or.inl ⟨rfl, rfl, nofun⟩
  | failed => exact Or.inl ⟨rfl, rfl, nofun⟩
  | passed => exact finish_cases { txn with state := .voting } clock store cache

end Transaction

/-- An attempt to commit a batch, with the store before and after it. -/
structure Attempt (σ : Type) where
  writes : List Write
  before : σ
  result : Except TxnError Tid
  after : σ

namespace Attempt

/-- The batch is to supersede that version of the object. -/
def Expects (attempt : Attempt σ) (oid : Oid) (tid : Tid) : Prop :=
  ∃ write ∈ attempt.writes, write.oid = oid ∧ write.expected = some tid

def Succeeds (attempt : Attempt σ) : Prop := ∃ tid, attempt.result = .ok tid

variable [ObjectStore σ]

/-- Either nothing was done, and then an empty batch at most was committed, or
the whole batch was committed at once. -/
def Carried (attempt : Attempt σ) : Prop :=
  (attempt.after = attempt.before ∧ (attempt.Succeeds → attempt.writes = [])) ∨
    ∃ now note tid, attempt.result = .ok tid ∧
      ObjectStore.commit attempt.before now note attempt.writes = .ok (tid, attempt.after)

/-- A commit without a transaction. -/
def direct (store : σ) (now : Instant) (note : CommitNote) (writes : List Write) : Attempt σ :=
  match ObjectStore.commit store now note writes with
  | .ok (tid, after) => ⟨writes, store, .ok tid, after⟩
  | .error error => ⟨writes, store, .error (.ofFailure error), store⟩

/-- The second phase of a transaction. -/
def finishing [Invalidator κ] (txn : Transaction) (clock : Clock) (store : σ) (cache : κ) :
    Attempt σ :=
  let finished := txn.finish clock store cache
  ⟨txn.writes, store, finished.result, finished.store⟩

theorem carried_direct (store : σ) (now : Instant) (note : CommitNote) (writes : List Write) :
    (direct store now note writes).Carried := by
  unfold direct
  split
  · rename_i tid after hcommit
    exact Or.inr ⟨now, note, tid, rfl, hcommit⟩
  · exact Or.inl ⟨rfl, by simp [Succeeds]⟩

theorem carried_finishing [Invalidator κ] (txn : Transaction) (clock : Clock) (store : σ)
    (cache : κ) : (finishing txn clock store cache).Carried := by
  rcases txn.finish_cases clock store cache with
    ⟨hstore, _, hempty⟩ | ⟨_, tid, hresult, hcommit, _⟩
  · exact Or.inl ⟨hstore, fun ⟨tid, hresult⟩ => hempty tid hresult⟩
  · exact Or.inr ⟨clock.wall, txn.note, tid, hresult, hcommit⟩

end Attempt

/-- Transactions beside the store that they share with a collector. -/
structure TxnScene (σ κ : Type) extends PackScene σ κ where
  txns : List Transaction := []
  /-- Every attempt to commit, the first one first. -/
  attempts : List (Attempt σ) := []

/-- What happens next.  Transactions are told apart by their places. -/
inductive TxnMove where
  /-- Another client calls the store, or the collector goes on. -/
  | beside (move : PackMove)
  | start (clock : Clock) (timeoutMs : Option Nat) (note : CommitNote)
  | stage (place : Nat) (write : Write)
  /-- An undo of `tid` reads what preceded it for an object, and stages that. -/
  | restore (place : Nat) (tid : Tid) (oid : Oid)
  | setTimeout (place : Nat) (clock : Clock) (timeoutMs : Nat)
  | cancel (place : Nat)
  | vote (place : Nat) (clock : Clock)
  | finish (place : Nat) (clock : Clock)
  | abort (place : Nat)

namespace TxnScene

variable [ObjectStore σ]

/-- A store that nobody has begun to work on. -/
def start (store : σ) (cache : κ) : TxnScene σ κ := { store, cache }

/-- The attempts to commit that a move of others makes. -/
def others (store : σ) : PackMove → List (Attempt σ)
  | .call (.commit now note writes) => [.direct store now note writes]
  | _ => []

/-- Let a transaction go on by itself. -/
def revise (scene : TxnScene σ κ) (place : Nat) (change : Transaction → Transaction) :
    TxnScene σ κ :=
  { scene with txns := scene.txns.modify place change }

/-- Stage a write, if the transaction still takes one. -/
def staged (write : Write) (txn : Transaction) : Transaction :=
  match txn.stage write with
  | .ok txn => txn
  | .error _ => txn

variable [Invalidator κ]

def move (settings : PackSettings) (scene : TxnScene σ κ) : TxnMove → TxnScene σ κ
  | .beside move =>
      { scene with
        toPackScene := scene.toPackScene.move settings move
        attempts := scene.attempts ++ others scene.store move }
  | .start clock timeoutMs note =>
      { scene with txns := scene.txns ++ [.start clock timeoutMs note] }
  | .stage place write => scene.revise place (staged write)
  | .restore place tid oid =>
      match History.restoring scene.store tid oid with
      | .ok write => scene.revise place (staged write)
      | .error _ => scene
  | .setTimeout place clock timeoutMs =>
      scene.revise place fun txn => txn.setTimeout clock timeoutMs
  | .cancel place => scene.revise place fun txn => { txn with cancelled := true }
  | .vote place clock => scene.revise place fun txn => (txn.vote clock scene.store).2
  | .finish place clock =>
      match scene.txns[place]? with
      | some txn =>
          let finished := txn.finish clock scene.store scene.cache
          { scene with
            store := finished.store
            cache := finished.cache
            txns := scene.txns.set place finished.txn
            attempts := scene.attempts ++ [.finishing txn clock scene.store scene.cache] }
      | none => scene
  | .abort place => scene.revise place fun txn =>
      match txn.abort with
      | .ok txn => txn
      | .error _ => txn

def run (settings : PackSettings) (scene : TxnScene σ κ) (moves : List TxnMove) :
    TxnScene σ κ :=
  moves.foldl (move settings) scene

/-- What holds at first and is kept by every move holds after every run. -/
theorem run_induct {settings : PackSettings} (holds : TxnScene σ κ → Prop)
    (hmove : ∀ scene move, holds scene → holds (scene.move settings move))
    {scene : TxnScene σ κ} (hscene : holds scene) (moves : List TxnMove) :
    holds (scene.run settings moves) := by
  induction moves generalizing scene with
  | nil => exact hscene
  | cons move rest ih => exact ih (hmove scene move hscene)

end TxnScene

end ObjectVault
