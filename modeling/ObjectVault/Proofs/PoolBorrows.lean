/-
Borrowing from a pool.  Any number of borrowers take their turns in any order,
and between the sections of one borrow the others may do anything.  Every
connection opened is idle, held by one borrow or discarded, and the pool counts
those that are open and those being opened, never more than its limit.  A slot
for a new connection is reserved while none is idle, but the connection is opened
later, when others may have returned theirs.
-/
import ObjectVault.Pool
import Mathlib.Algebra.Order.Ring.Int
import Mathlib.Data.List.Induction

namespace ObjectVault

variable {φ κ : Type}

/-- How far a borrow has come. -/
inductive Borrow (κ : Type) where
  /-- It has found neither a connection nor room for one yet. -/
  | waiting
  /-- It has a slot and opens a connection outside the pool. -/
  | connecting
  /-- Its connection could not be opened; the slot is still taken. -/
  | refused (error : StoreError)
  | holding (connection : κ)
  | returned
  | discarded (connection : κ)
  | failed (error : StoreError)
  /-- It has waited in vain. -/
  | exhausted (opened : Nat)

/-- The sections of a borrow; no other borrow acts during one. -/
inductive Turn where
  /-- Look for a connection, on arrival or on waking up. -/
  | seek (timedOut : Bool)
  | connect
  /-- Give back the slot of a connection that could not be opened. -/
  | giveBack
  | release
  | discard

/-- Look for a connection or for room to open one.  Who finds neither waits on,
unless the time is up. -/
def Pool.seek (pool : Pool κ) (timedOut : Bool) : Borrow κ × Pool κ :=
  match pool.reserve with
  | .reused connection pool => (.holding connection, pool)
  | .slot pool => (.connecting, pool)
  | .exhausted => (if timedOut then .exhausted pool.opened else .waiting, pool)

namespace Borrow

/-- One section of a borrow.  A section that is not due changes nothing. -/
def turn (connect : Connector φ κ) (pool : Pool κ) (factory : φ) :
    Borrow κ → Turn → Borrow κ × Pool κ × φ
  | .waiting, .seek timedOut =>
      let (borrow, pool) := pool.seek timedOut
      (borrow, pool, factory)
  | .connecting, .connect =>
      match connect factory with
      | (.ok connection, factory) => (.holding connection, pool, factory)
      | (.error error, factory) => (.refused error, pool, factory)
  | .refused error, .giveBack => (.failed error, pool.abandon, factory)
  | .holding connection, .release => (.returned, pool.release connection, factory)
  | .holding connection, .discard => (.discarded connection, pool.discard, factory)
  | borrow, _ => (borrow, pool, factory)

def held? : Borrow κ → Option κ
  | holding connection => some connection
  | _ => none

def discarded? : Borrow κ → Option κ
  | discarded connection => some connection
  | _ => none

/-- Whether a slot is taken for a connection that is not there yet. -/
def isConnecting : Borrow κ → Bool
  | connecting | refused _ => true
  | _ => false

/-- Whether no connection was ever held. -/
def isUnserved : Borrow κ → Bool
  | waiting | connecting | refused _ | failed _ | exhausted _ => true
  | holding _ | returned | discarded _ => false

/-- What the borrower was answered. -/
def answer? : Borrow κ → Option (Except StoreError κ)
  | holding connection => some (.ok connection)
  | failed error => some (.error error)
  | exhausted opened => some (.error (.unavailable (.poolExhausted opened)))
  | _ => none

end Borrow

/-- A pool with those who borrow from it. -/
structure PoolScene (φ κ : Type) where
  pool : Pool κ
  factory : φ
  /-- All borrows, in the order of arrival. -/
  borrows : List (Borrow κ) := []

/-- A borrower arrives, or a borrow takes its turn. -/
inductive PoolMove where
  | arrive
  | turn (place : Nat) (turn : Turn)

/-- Who takes a turn. -/
def PoolMove.place? : PoolMove → Option Nat
  | .arrive => none
  | .turn place _ => some place

namespace PoolScene

def step (connect : Connector φ κ) (scene : PoolScene φ κ) : PoolMove → PoolScene φ κ
  | .arrive => { scene with borrows := scene.borrows ++ [.waiting] }
  | .turn place turn =>
      match scene.borrows[place]? with
      | none => scene
      | some borrow =>
          let turned := borrow.turn connect scene.pool scene.factory turn
          ⟨turned.2.1, turned.2.2, scene.borrows.set place turned.1⟩

def run (connect : Connector φ κ) (scene : PoolScene φ κ) (moves : List PoolMove) :
    PoolScene φ κ :=
  moves.foldl (step connect) scene

/-- The borrow at a place; one that is still to arrive waits. -/
def borrow (scene : PoolScene φ κ) (place : Nat) : Borrow κ :=
  scene.borrows[place]?.getD .waiting

def held (scene : PoolScene φ κ) : List κ := scene.borrows.filterMap Borrow.held?

def discarded (scene : PoolScene φ κ) : List κ := scene.borrows.filterMap Borrow.discarded?

/-- How many connections are being opened. -/
def connecting (scene : PoolScene φ κ) : Nat := scene.borrows.countP Borrow.isConnecting

end PoolScene

/-- The turns of a borrow, by what they do. -/
inductive Turned (connect : Connector φ κ) (pool : Pool κ) (factory : φ) :
    Borrow κ → Borrow κ × Pool κ × φ → Prop where
  | stay (borrow : Borrow κ) : Turned connect pool factory borrow (borrow, pool, factory)
  | reuse {connection : κ} {idle : List κ} (hidle : pool.idle = connection :: idle) :
      Turned connect pool factory .waiting (.holding connection, { pool with idle }, factory)
  | reserve (hidle : pool.idle = []) (hroom : pool.opened < pool.maxSize) :
      Turned connect pool factory .waiting
        (.connecting, { pool with opened := pool.opened + 1 }, factory)
  | giveUp (hidle : pool.idle = []) (hfull : pool.maxSize ≤ pool.opened) :
      Turned connect pool factory .waiting (.exhausted pool.opened, pool, factory)
  | accept {connection : κ} {next : φ} (hopened : connect factory = (.ok connection, next)) :
      Turned connect pool factory .connecting (.holding connection, pool, next)
  | refuse {error : StoreError} {next : φ} (hopened : connect factory = (.error error, next)) :
      Turned connect pool factory .connecting (.refused error, pool, next)
  | fail (error : StoreError) :
      Turned connect pool factory (.refused error) (.failed error, pool.abandon, factory)
  | release (connection : κ) :
      Turned connect pool factory (.holding connection)
        (.returned, pool.release connection, factory)
  | discard (connection : κ) :
      Turned connect pool factory (.holding connection)
        (.discarded connection, pool.discard, factory)

namespace Pool

variable {pool : Pool κ}

theorem reserve_of_cons {connection : κ} {idle : List κ} (hidle : pool.idle = connection :: idle) :
    pool.reserve = .reused connection { pool with idle } := by
  simp only [reserve, hidle]

theorem reserve_of_room (hidle : pool.idle = []) (hroom : pool.opened < pool.maxSize) :
    pool.reserve = .slot { pool with opened := pool.opened + 1 } := by
  simp only [reserve, hidle, hroom, ↓reduceIte]

theorem reserve_of_full (hidle : pool.idle = []) (hfull : ¬ pool.opened < pool.maxSize) :
    pool.reserve = .exhausted := by
  simp only [reserve, hidle, hfull, ↓reduceIte]

theorem seek_turned (connect : Connector φ κ) (pool : Pool κ) (factory : φ) (timedOut : Bool) :
    Turned connect pool factory .waiting
      ((pool.seek timedOut).1, (pool.seek timedOut).2, factory) := by
  cases hidle : pool.idle with
  | cons connection idle =>
      simp only [seek, reserve_of_cons hidle]
      exact .reuse hidle
  | nil =>
      by_cases hroom : pool.opened < pool.maxSize
      · simp only [seek, reserve_of_room hidle hroom]
        exact .reserve hidle hroom
      · simp only [seek, reserve_of_full hidle hroom]
        cases timedOut with
        | false => exact .stay .waiting
        | true => exact .giveUp hidle (not_lt.1 hroom)

end Pool

theorem Borrow.turn_turned (connect : Connector φ κ) (pool : Pool κ) (factory : φ)
    (borrow : Borrow κ) (turn : Turn) :
    Turned connect pool factory borrow (borrow.turn connect pool factory turn) := by
  fun_cases Borrow.turn connect pool factory borrow turn with
  | case1 timedOut seeker sought hseek =>
      have hturned := pool.seek_turned connect factory timedOut
      rwa [hseek] at hturned
  | case2 _ _ hopened => exact .accept hopened
  | case3 _ _ hopened => exact .refuse hopened
  | case4 error => exact .fail error
  | case5 connection => exact .release connection
  | case6 connection => exact .discard connection
  | case7 borrow => exact .stay borrow

/-- A step is an arrival, a turn that nobody is there to take, or the turn of
one borrow among the others. -/
theorem PoolScene.step_cases (connect : Connector φ κ) (scene : PoolScene φ κ)
    (move : PoolMove) :
    (move = .arrive ∧
      scene.step connect move = { scene with borrows := scene.borrows ++ [.waiting] }) ∨
    (∃ place turn, move = .turn place turn ∧ scene.borrows[place]? = none ∧
      scene.step connect move = scene) ∨
    ∃ turn before borrow after next pool factory, move = .turn before.length turn ∧
      scene.borrows = before ++ borrow :: after ∧
      Turned connect scene.pool scene.factory borrow (next, pool, factory) ∧
      scene.step connect move = ⟨pool, factory, before ++ next :: after⟩ := by
  cases move with
  | arrive => exact .inl ⟨rfl, rfl⟩
  | turn place turn =>
      cases hborrow : scene.borrows[place]? with
      | none => exact .inr (.inl ⟨place, turn, rfl, hborrow, by simp [step, hborrow]⟩)
      | some borrow =>
          obtain ⟨hplace, hget⟩ := List.getElem?_eq_some_iff.1 hborrow
          have hsplit : scene.borrows =
              scene.borrows.take place ++ borrow :: scene.borrows.drop (place + 1) := by
            rw [← hget, List.getElem_cons_drop, List.take_append_drop]
          have hlength : (scene.borrows.take place).length = place := by
            rw [List.length_take]
            omega
          have hset (next : Borrow κ) : scene.borrows.set place next =
              scene.borrows.take place ++ next :: scene.borrows.drop (place + 1) := by
            rw [List.set_eq_take_append_cons_drop, if_pos hplace]
          have hturned := borrow.turn_turned connect scene.pool scene.factory turn
          rcases hturn : borrow.turn connect scene.pool scene.factory turn with
            ⟨next, pool, factory⟩
          rw [hturn] at hturned
          refine .inr (.inr ⟨turn, scene.borrows.take place, borrow,
            scene.borrows.drop (place + 1), next, pool, factory, by rw [hlength], hsplit,
            hturned, ?_⟩)
          simp only [step, hborrow, hturn, hset]

namespace PoolScene

variable {connect : Connector φ κ} {scene : PoolScene φ κ} {move : PoolMove}

theorem borrow_split {pool : Pool κ} {factory : φ} {before after : List (Borrow κ)}
    {next : Borrow κ} :
    borrow ⟨pool, factory, before ++ next :: after⟩ before.length = next := by
  simp [borrow]

/-- The turn of a borrow, seen from its place. -/
theorem turned_step (connect : Connector φ κ) (scene : PoolScene φ κ) (place : Nat)
    (turn : Turn) :
    let next := scene.step connect (.turn place turn)
    Turned connect scene.pool scene.factory (scene.borrow place)
      (next.borrow place, next.pool, next.factory) := by
  rcases scene.step_cases connect (.turn place turn) with
    ⟨hmove, -⟩ | ⟨-, -, -, -, hstep⟩ |
      ⟨_, before, borrow, after, next, pool, factory, hmove, hborrows, hturned, hstep⟩
  · cases hmove
  · simp only [hstep]
    exact .stay _
  · cases hmove
    obtain ⟨present, begun, borrows⟩ := scene
    subst hborrows
    simp only [hstep, borrow_split]
    exact hturned

/-- The other borrows stay as they are. -/
theorem borrow_step_of_ne {place : Nat} (hmove : move.place? ≠ some place) :
    (scene.step connect move).borrow place = scene.borrow place := by
  cases move with
  | arrive =>
      rcases Nat.lt_or_ge place scene.borrows.length with hpresent | habsent
      · simp only [step, borrow, List.getElem?_append_left hpresent]
      · simp only [step, borrow, List.getElem?_append_right habsent,
          List.getElem?_eq_none habsent]
        cases place - scene.borrows.length <;> rfl
  | turn other turn =>
      have hne : other ≠ place := fun hsame => hmove (congrArg some hsame)
      cases hother : scene.borrows[other]? with
      | none => simp only [step, hother]
      | some => simp only [step, hother, borrow, List.getElem?_set_ne hne]

end PoolScene

/-- The sections of a borrow that nobody comes between and whose time is up at
once. -/
def PoolMove.alone (place : Nat) : List PoolMove :=
  [.arrive, .turn place (.seek true), .turn place .connect, .turn place .giveBack]

namespace PoolScene

theorem step_turn_last (connect : Connector φ κ) (pool : Pool κ) (factory : φ)
    (borrows : List (Borrow κ)) (borrow : Borrow κ) (turn : Turn) :
    step connect ⟨pool, factory, borrows ++ [borrow]⟩ (.turn borrows.length turn) =
      let turned := borrow.turn connect pool factory turn
      ⟨turned.2.1, turned.2.2, borrows ++ [turned.1]⟩ := by
  simp [step]

/-- With nothing between its sections, a borrow is one call of the pool. -/
theorem run_alone (connect : Connector φ κ) (scene : PoolScene φ κ) :
    let (answer, pool, factory) := scene.pool.get connect scene.factory
    ∃ borrow : Borrow κ, borrow.answer? = some answer ∧
      scene.run connect (PoolMove.alone scene.borrows.length) =
        ⟨pool, factory, scene.borrows ++ [borrow]⟩ := by
  obtain ⟨pool, factory, borrows⟩ := scene
  have harrive : step connect ⟨pool, factory, borrows⟩ .arrive =
    ⟨pool, factory, borrows ++ [.waiting]⟩ := rfl
  simp only [run, PoolMove.alone, List.foldl, harrive, step_turn_last]
  cases hidle : pool.idle with
  | cons connection idle =>
      simp only [Pool.get, Pool.reserve_of_cons hidle, Pool.seek, Borrow.turn]
      exact ⟨_, rfl, rfl⟩
  | nil =>
      by_cases hroom : pool.opened < pool.maxSize
      · rcases hconnected : connect factory with ⟨_ | connection, later⟩ <;>
          simp only [Pool.get, Pool.reserve_of_room hidle hroom, Pool.seek, Borrow.turn,
            hconnected]
        · exact ⟨_, rfl, rfl⟩
        · exact ⟨_, rfl, rfl⟩
      · simp only [Pool.get, Pool.reserve_of_full hidle hroom, Pool.seek, Borrow.turn]
        exact ⟨_, rfl, rfl⟩

end PoolScene

/-- A connector that also keeps the connections it has opened, the latest one
first. -/
def Connector.recorded (connect : Connector φ κ) : Connector (φ × List κ) κ :=
  fun begun =>
    let (opened, factory) := connect begun.1
    (opened, factory, opened.toOption.toList ++ begun.2)

theorem Connector.recorded_snd {connect : Connector φ κ} {begun later : φ × List κ}
    {answer : Except StoreError κ} (hconnected : connect.recorded begun = (answer, later)) :
    later.2 = answer.toOption.toList ++ begun.2 := by
  cases hconnected
  rfl

/-- The pool does not notice that its connections are kept. -/
theorem Borrow.turn_recorded (connect : Connector φ κ) (pool : Pool κ) (factory : φ)
    (opened : List κ) (borrow : Borrow κ) (turn : Turn) :
    let recorded := borrow.turn connect.recorded pool (factory, opened) turn
    (recorded.1, recorded.2.1, recorded.2.2.1) = borrow.turn connect pool factory turn := by
  cases borrow with
  | connecting =>
      cases turn with
      | connect =>
          rcases hconnected : connect factory with ⟨_ | connection, later⟩ <;>
            simp [Borrow.turn, Connector.recorded, hconnected]
      | seek | giveBack | release | discard => rfl
  | waiting | refused | holding | returned | discarded | failed | exhausted => cases turn <;> rfl

/-- The scene without the record of what was opened. -/
def PoolScene.forget (scene : PoolScene (φ × List κ) κ) : PoolScene φ κ :=
  { pool := scene.pool, factory := scene.factory.1, borrows := scene.borrows }

theorem PoolScene.forget_run (connect : Connector φ κ) (scene : PoolScene (φ × List κ) κ)
    (moves : List PoolMove) :
    (scene.run connect.recorded moves).forget = scene.forget.run connect moves := by
  induction moves generalizing scene with
  | nil => rfl
  | cons move moves ih =>
      have hstep : (scene.step connect.recorded move).forget = scene.forget.step connect move := by
        cases move with
        | arrive => rfl
        | turn place turn =>
            cases hborrow : scene.borrows[place]? with
            | none => simp only [step, hborrow, forget]
            | some borrow =>
                have hturn := borrow.turn_recorded connect scene.pool scene.factory.1
                  scene.factory.2 turn
                simp only [step, hborrow, forget, ← hturn]
      have hrun : scene.run connect.recorded (move :: moves) =
        (scene.step connect.recorded move).run connect.recorded moves := rfl
      rw [hrun, ih, hstep]
      rfl

/-- The books of a pool: its slots are counted one by one, within the limit, and
every connection that was opened is in one place. -/
structure Pool.Books (pool : Pool κ) (maxSize : Nat) (opened held discarded : List κ)
    (connecting : Nat) : Prop where
  maxSize_eq : pool.maxSize = maxSize
  opened_eq : pool.opened = pool.idle.length + held.length + connecting
  opened_le : pool.opened ≤ maxSize
  placed : (pool.idle ++ held ++ discarded).Perm opened

namespace Pool.Books

variable {connect : Connector φ κ} {pool next : Pool κ} {factory later : φ × List κ}
variable {borrow after : Borrow κ} {maxSize connecting : Nat} {opened held discarded : List κ}

theorem perm {held' discarded' : List κ}
    (hbooks : pool.Books maxSize opened held discarded connecting)
    (hheld : held.Perm held') (hdiscarded : discarded.Perm discarded') :
    pool.Books maxSize opened held' discarded' connecting where
  maxSize_eq := hbooks.maxSize_eq
  opened_eq := hheld.length_eq ▸ hbooks.opened_eq
  opened_le := hbooks.opened_le
  placed := ((hheld.symm.append_left _).append hdiscarded.symm).trans hbooks.placed

/-- The turn of one borrow keeps the books, whatever the others hold. -/
theorem turned
    (hbooks : pool.Books maxSize factory.2 (borrow.held?.toList ++ held)
      (borrow.discarded?.toList ++ discarded) (borrow.isConnecting.toNat + connecting))
    (hturned : Turned connect.recorded pool factory borrow (after, next, later)) :
    next.Books maxSize later.2 (after.held?.toList ++ held)
      (after.discarded?.toList ++ discarded) (after.isConnecting.toNat + connecting) := by
  obtain ⟨hmax, hopened, hle, hplaced⟩ := hbooks
  cases hturned with
  | stay => exact ⟨hmax, hopened, hle, hplaced⟩
  | reuse hidle =>
      rw [hidle] at hopened hplaced
      refine ⟨hmax, ?_, hle, (List.perm_middle.append_right _).trans hplaced⟩
      simp [Borrow.held?, Borrow.isConnecting] at hopened ⊢
      omega
  | reserve hidle hroom =>
      refine ⟨hmax, ?_, hmax ▸ hroom, hplaced⟩
      simp [Borrow.held?, Borrow.isConnecting] at hopened ⊢
      omega
  | giveUp => exact ⟨hmax, hopened, hle, hplaced⟩
  | accept hconnected =>
      rw [Connector.recorded_snd hconnected]
      refine ⟨hmax, ?_, hle, (List.perm_middle.append_right _).trans (hplaced.cons _)⟩
      simp [Borrow.held?, Borrow.isConnecting] at hopened ⊢
      omega
  | refuse hconnected =>
      rw [Connector.recorded_snd hconnected]
      exact ⟨hmax, hopened, hle, hplaced⟩
  | fail error =>
      refine ⟨hmax, ?_, (Nat.sub_le _ _).trans hle, hplaced⟩
      simp [Borrow.held?, Borrow.isConnecting, abandon] at hopened ⊢
      omega
  | release connection =>
      refine ⟨hmax, ?_, hle, (List.perm_middle.symm.append_right _).trans hplaced⟩
      simp [Borrow.held?, Borrow.isConnecting, Pool.release] at hopened ⊢
      omega
  | discard connection =>
      refine ⟨hmax, ?_, (Nat.sub_le _ _).trans hle,
        (List.perm_middle.trans ((List.perm_middle.append_right _).symm)).trans hplaced⟩
      simp [Borrow.held?, Borrow.isConnecting, Pool.discard] at hopened ⊢
      omega

end Pool.Books

namespace PoolScene

variable {connect : Connector φ κ} {scene : PoolScene (φ × List κ) κ} {maxSize : Nat}

/-- The books of a pool that everyone borrows from. -/
def Accounted (scene : PoolScene (φ × List κ) κ) (maxSize : Nat) : Prop :=
  scene.pool.Books maxSize scene.factory.2 scene.held scene.discarded scene.connecting

/-- The books with one borrow taken out of the others. -/
theorem accounted_split {pool : Pool κ} {factory : φ × List κ} {before after : List (Borrow κ)}
    {borrow : Borrow κ} :
    Accounted ⟨pool, factory, before ++ borrow :: after⟩ maxSize ↔
      pool.Books maxSize factory.2
        (borrow.held?.toList ++ (before ++ after).filterMap Borrow.held?)
        (borrow.discarded?.toList ++ (before ++ after).filterMap Borrow.discarded?)
        (borrow.isConnecting.toNat + (before ++ after).countP Borrow.isConnecting) := by
  have hfilter (place? : Borrow κ → Option κ) :
      ((before ++ borrow :: after).filterMap place?).Perm
        ((place? borrow).toList ++ (before ++ after).filterMap place?) := by
    have hperm : (before ++ borrow :: after).Perm (borrow :: (before ++ after)) :=
      List.perm_middle
    refine (hperm.filterMap place?).trans (.of_eq ?_)
    cases hplace : place? borrow <;> simp [hplace]
  have hcount : (before ++ borrow :: after).countP Borrow.isConnecting =
      borrow.isConnecting.toNat + (before ++ after).countP Borrow.isConnecting := by
    have hone : (if borrow.isConnecting then 1 else 0) = borrow.isConnecting.toNat := by
      cases borrow.isConnecting <;> rfl
    rw [List.countP_append, List.countP_cons, List.countP_append, hone]
    omega
  unfold Accounted connecting
  rw [hcount]
  exact ⟨fun h => h.perm (hfilter _) (hfilter _), fun h => h.perm (hfilter _).symm (hfilter _).symm⟩

/-- Slots are taken back only where one is counted. -/
theorem Accounted.opened_pos (haccounted : scene.Accounted maxSize) (place : Nat)
    (hconnecting : (scene.borrow place).isConnecting) : 0 < scene.pool.opened := by
  have hmem : scene.borrow place ∈ scene.borrows := by
    cases hborrow : scene.borrows[place]? with
    | none => simp [borrow, hborrow, Borrow.isConnecting] at hconnecting
    | some borrow =>
        rw [PoolScene.borrow, hborrow]
        exact List.mem_of_getElem? hborrow
  have hcount : 0 < scene.connecting := List.countP_pos_iff.2 ⟨_, hmem, hconnecting⟩
  rw [haccounted.opened_eq]
  omega

theorem Accounted.step (haccounted : scene.Accounted maxSize) (move : PoolMove) :
    (scene.step connect.recorded move).Accounted maxSize := by
  rcases scene.step_cases connect.recorded move with
    ⟨-, hstep⟩ | ⟨-, -, -, -, hstep⟩ |
      ⟨turn, before, borrow, after, next, pool, factory, -, hborrows, hturned, hstep⟩
  · rw [hstep, accounted_split, List.append_nil]
    simpa [Accounted, held, discarded, connecting, Borrow.held?, Borrow.discarded?,
      Borrow.isConnecting] using haccounted
  · rwa [hstep]
  · obtain ⟨present, begun, borrows⟩ := scene
    subst hborrows
    rw [hstep, accounted_split]
    exact (accounted_split.1 haccounted).turned hturned

theorem Accounted.run (haccounted : scene.Accounted maxSize) (moves : List PoolMove) :
    (scene.run connect.recorded moves).Accounted maxSize := by
  induction moves generalizing scene with
  | nil => exact haccounted
  | cons move moves ih => exact ih (haccounted.step move)

end PoolScene

namespace Pool

variable {connect : Connector φ κ}

theorem connectAll_recorded {count : Nat} {idle opened : List κ}
    {begun later : φ × List κ}
    (hconnected : connectAll connect.recorded count idle begun = (.ok opened, later))
    (hidle : idle.Perm begun.2) : opened.length = idle.length + count ∧ opened.Perm later.2 := by
  induction count generalizing idle begun with
  | zero =>
      cases hconnected
      exact ⟨rfl, hidle⟩
  | succ count ih =>
      rw [connectAll] at hconnected
      split at hconnected
      next connection factory hopened =>
        have hlater := Connector.recorded_snd hopened
        obtain ⟨hlength, hperm⟩ := ih hconnected (hlater ▸ hidle.cons connection)
        refine ⟨?_, hperm⟩
        rw [hlength, List.length_cons]
        omega
      next => cases hconnected

/-- A new pool has its books in order. -/
theorem accounted_create {settings : PoolSettings} {factory : φ} {pool : Pool κ}
    {begun : φ × List κ}
    (hcreated : create settings connect.recorded (factory, []) = (.ok pool, begun)) :
    PoolScene.Accounted ⟨pool, begun, []⟩ settings.maxSize := by
  unfold create at hcreated
  split at hcreated
  next => cases hcreated
  next hsize =>
    rcases hconnected : connectAll connect.recorded (min settings.minSize settings.maxSize) []
      (factory, []) with ⟨opened, later⟩
    rw [hconnected] at hcreated
    cases opened with
    | error error => cases hcreated
    | ok idle =>
        cases hcreated
        obtain ⟨hlength, hperm⟩ := connectAll_recorded hconnected .rfl
        refine ⟨rfl, ?_, ?_, ?_⟩
        · simp [PoolScene.held, PoolScene.connecting]
        · simp [hlength]
        · simpa [PoolScene.held, PoolScene.discarded] using hperm

end Pool

namespace Turned

variable {connect : Connector φ κ} {pool next : Pool κ} {factory later : φ} {borrow : Borrow κ}

theorem of_connecting (hturned : Turned connect pool factory borrow (.connecting, next, later)) :
    borrow = .connecting ∨ pool.idle = [] ∧ pool.opened < pool.maxSize := by
  cases hturned with
  | stay => exact .inl rfl
  | reserve hidle hroom => exact .inr ⟨hidle, hroom⟩

theorem of_exhausted {count : Nat}
    (hturned : Turned connect pool factory borrow (.exhausted count, next, later)) :
    borrow = .exhausted count ∨
      pool.idle = [] ∧ pool.maxSize ≤ pool.opened ∧ count = pool.opened := by
  cases hturned with
  | stay => exact .inl rfl
  | giveUp hidle hfull => exact .inr ⟨hidle, hfull, rfl⟩

end Turned

/-- Only a borrow that has a slot asks the connector. -/
theorem Borrow.turn_congr {connect other : Connector φ κ} {borrow : Borrow κ} {turn : Turn}
    (hasks : turn = .connect → borrow ≠ .connecting) (pool : Pool κ) (factory : φ) :
    borrow.turn connect pool factory turn = borrow.turn other pool factory turn := by
  cases borrow with
  | connecting =>
      cases turn with
      | connect => exact absurd rfl (hasks rfl)
      | seek | giveBack | release | discard => rfl
  | waiting | refused | holding | returned | discarded | failed | exhausted => cases turn <;> rfl

/-- A slot is reserved by looking for a connection, while there is none. -/
theorem Borrow.seeks_of_connecting {connect : Connector φ κ} {pool : Pool κ} {factory : φ}
    {borrow : Borrow κ} {turn : Turn}
    (hnow : (borrow.turn connect pool factory turn).1 = .connecting) :
    borrow = .connecting ∨
      (∃ timedOut, turn = .seek timedOut) ∧ pool.idle = [] ∧ pool.opened < pool.maxSize := by
  have hturned := borrow.turn_turned connect pool factory turn
  rcases hturn : borrow.turn connect pool factory turn with ⟨next, left, later⟩
  rw [hturn] at hturned hnow
  obtain rfl : next = .connecting := hnow
  rcases hturned.of_connecting with hbefore | ⟨hidle, hroom⟩
  · exact .inl hbefore
  · cases turn with
    | seek timedOut => exact .inr ⟨⟨timedOut, rfl⟩, hidle, hroom⟩
    | connect | giveBack | release | discard =>
        cases borrow with
        | connecting => exact .inl rfl
        | waiting | refused | holding | returned | discarded | failed | exhausted => cases hturn

namespace PoolScene

/-- The move is an attempt to open a connection. -/
def Connects (scene : PoolScene φ κ) (move : PoolMove) : Prop :=
  ∃ place, move = .turn place .connect ∧ scene.borrow place = .connecting

/-- In these moves the borrow has reserved a slot, and at that moment there was
room for a connection and none was idle. -/
def Reserved (connect : Connector φ κ) (scene : PoolScene φ κ) (moves : List PoolMove)
    (place : Nat) : Prop :=
  ∃ earlier timedOut later, moves = earlier ++ .turn place (.seek timedOut) :: later ∧
    (scene.run connect earlier).pool.idle = [] ∧
    (scene.run connect earlier).pool.opened < (scene.run connect earlier).pool.maxSize

theorem run_concat (connect : Connector φ κ) (scene : PoolScene φ κ) (moves : List PoolMove)
    (move : PoolMove) :
    scene.run connect (moves ++ [move]) = (scene.run connect moves).step connect move := by
  rw [run, List.foldl_append]
  rfl

/-- A step that brings a borrow to open a connection has reserved its slot. -/
theorem seeks_of_step {connect : Connector φ κ} {scene : PoolScene φ κ} {move : PoolMove}
    {place : Nat} (hbefore : scene.borrow place ≠ .connecting)
    (hnow : (scene.step connect move).borrow place = .connecting) :
    (∃ timedOut, move = .turn place (.seek timedOut)) ∧
      scene.pool.idle = [] ∧ scene.pool.opened < scene.pool.maxSize := by
  have hmine : move.place? = some place := by
    by_contra hother
    exact hbefore ((borrow_step_of_ne hother).symm.trans hnow)
  cases move with
  | arrive => cases hmine
  | turn other turn =>
      cases hmine
      cases hborrow : scene.borrows[place]? with
      | none =>
          rw [step, hborrow] at hnow
          exact absurd hnow hbefore
      | some borrow =>
          have hlt := (List.getElem?_eq_some_iff.1 hborrow).1
          have hnext : (scene.step connect (.turn place turn)).borrow place =
              (borrow.turn connect scene.pool scene.factory turn).1 := by
            simp only [step, hborrow, PoolScene.borrow, List.getElem?_set_self hlt,
              Option.getD_some]
          rcases Borrow.seeks_of_connecting (hnext.symm.trans hnow) with rfl | hseeks
          · exact absurd (by rw [PoolScene.borrow, hborrow, Option.getD_some]) hbefore
          · obtain ⟨⟨timedOut, rfl⟩, hfree⟩ := hseeks
            exact ⟨⟨timedOut, rfl⟩, hfree⟩

/-- Who opens a connection has reserved a slot for it. -/
theorem reserved_of_connecting {connect : Connector φ κ} {scene : PoolScene φ κ} {place : Nat}
    (hbefore : scene.borrow place ≠ .connecting) {moves : List PoolMove}
    (hnow : (scene.run connect moves).borrow place = .connecting) :
    scene.Reserved connect moves place := by
  induction moves using List.reverseRecOn with
  | nil => exact absurd hnow hbefore
  | append_singleton moves move ih =>
      by_cases hconnecting : (scene.run connect moves).borrow place = .connecting
      · obtain ⟨earlier, timedOut, later, rfl, hfree⟩ := ih hconnecting
        exact ⟨earlier, timedOut, later ++ [move], by simp, hfree⟩
      · rw [run_concat] at hnow
        obtain ⟨⟨timedOut, rfl⟩, hfree⟩ := seeks_of_step hconnecting hnow
        exact ⟨moves, timedOut, [], rfl, hfree⟩

/-- The next step opens no connection that is not needed and refuses nobody who
can be served. -/
structure Sparing (connect : Connector φ κ) (scene : PoolScene φ κ) : Prop where
  /-- The connector matters to an attempt to open a connection, and to nothing
  else. -/
  asks : ∀ (other : Connector φ κ) (move : PoolMove), ¬ scene.Connects move →
    scene.step connect move = scene.step other move
  /-- A slot is reserved only while nothing is idle. -/
  reserves : ∀ (move : PoolMove) (place : Nat),
    (scene.step connect move).borrow place = .connecting →
      scene.borrow place = .connecting ∨
        scene.pool.idle = [] ∧ scene.pool.opened < scene.pool.maxSize
  gives_up : ∀ (move : PoolMove) (place count : Nat),
    (scene.step connect move).borrow place = .exhausted count →
      scene.borrow place = .exhausted count ∨
        scene.pool.idle = [] ∧ scene.pool.opened = scene.pool.maxSize ∧ count = scene.pool.opened

/-- A step that brings a borrow somewhere else is its own turn. -/
theorem turned_of_step (connect : Connector φ κ) (scene : PoolScene φ κ) (move : PoolMove)
    (place : Nat) :
    (scene.step connect move).borrow place = scene.borrow place ∨
      Turned connect scene.pool scene.factory (scene.borrow place)
        ((scene.step connect move).borrow place, (scene.step connect move).pool,
          (scene.step connect move).factory) := by
  by_cases hmove : move.place? = some place
  · cases move with
    | arrive => cases hmove
    | turn other turn =>
        cases hmove
        exact .inr (scene.turned_step connect place turn)
  · exact .inl (borrow_step_of_ne hmove)

theorem sparing (connect : Connector φ κ) {scene : PoolScene φ κ}
    (hlimit : scene.pool.opened ≤ scene.pool.maxSize) : scene.Sparing connect where
  asks other move hasks := by
    cases move with
    | arrive => rfl
    | turn place turn =>
        cases hborrow : scene.borrows[place]? with
        | none => simp only [step, hborrow]
        | some borrow =>
            have hnot : turn = .connect → borrow ≠ .connecting := by
              rintro rfl rfl
              exact hasks ⟨place, rfl, by rw [PoolScene.borrow, hborrow, Option.getD_some]⟩
            have hturn : borrow.turn connect scene.pool scene.factory turn =
              borrow.turn other scene.pool scene.factory turn := Borrow.turn_congr hnot _ _
            simp only [step, hborrow, hturn]
  reserves move place hnext := by
    by_cases hbefore : scene.borrow place = .connecting
    · exact .inl hbefore
    · exact .inr (seeks_of_step hbefore hnext).2
  gives_up move place count hnext := by
    rcases scene.turned_of_step connect move place with hsame | hturned
    · exact .inl (hsame ▸ hnext)
    · rw [hnext] at hturned
      rcases hturned.of_exhausted with hbefore | ⟨hidle, hfull, hcount⟩
      · exact .inl hbefore
      · exact .inr ⟨hidle, le_antisymm hlimit hfull, hcount⟩

end PoolScene

/-- The slots that a borrow takes up for a connection that is not there yet. -/
def Borrow.slots (borrow : Borrow κ) : Int := borrow.isConnecting.toNat

/-- A borrow that ends a turn without having held a connection has changed the
pool by its own slot. -/
theorem Turned.unserved {connect : Connector φ κ} {pool next : Pool κ} {factory later : φ}
    {borrow after : Borrow κ} (hturned : Turned connect pool factory borrow (after, next, later))
    (hslot : borrow.isConnecting → 0 < pool.opened) (hunserved : after.isUnserved) :
    borrow.isUnserved ∧ next.idle = pool.idle ∧
      (next.opened : Int) - pool.opened = after.slots - borrow.slots := by
  cases hturned with
  | stay => exact ⟨hunserved, rfl, by omega⟩
  | reuse | accept | release | discard => cases hunserved
  | reserve => exact ⟨rfl, rfl, by simp [Borrow.slots, Borrow.isConnecting]⟩
  | giveUp => exact ⟨rfl, rfl, by simp [Borrow.slots, Borrow.isConnecting]⟩
  | refuse => exact ⟨rfl, rfl, by simp [Borrow.slots, Borrow.isConnecting]⟩
  | fail error =>
      have hpos := hslot rfl
      refine ⟨rfl, rfl, ?_⟩
      simp [Borrow.slots, Borrow.isConnecting, Pool.abandon]
      omega

namespace PoolScene

/-- What the turns of one borrow add to a measure of the pool, together. -/
def added (connect : Connector φ κ) (measure : Pool κ → Nat) (place : Nat) :
    PoolScene φ κ → List PoolMove → Int
  | _, [] => 0
  | scene, move :: moves =>
      let next := scene.step connect move
      (if move.place? = some place then (measure next.pool : Int) - measure scene.pool else 0) +
        added connect measure place next moves

variable {connect : Connector φ κ} {scene : PoolScene (φ × List κ) κ} {maxSize : Nat}

/-- Until it holds a connection, a borrow leaves the idle ones alone and counts
its own slot only. -/
theorem Accounted.added_of_unserved (haccounted : scene.Accounted maxSize) (place : Nat)
    (moves : List PoolMove)
    (hunserved : ((scene.run connect.recorded moves).borrow place).isUnserved) :
    (scene.borrow place).isUnserved ∧
      (∀ measure : List κ → Nat, scene.added connect.recorded (measure ·.idle) place moves = 0) ∧
      scene.added connect.recorded Pool.opened place moves =
        ((scene.run connect.recorded moves).borrow place).slots - (scene.borrow place).slots := by
  induction moves generalizing scene with
  | nil => exact ⟨hunserved, fun _ => rfl, (sub_self _).symm⟩
  | cons move moves ih =>
      obtain ⟨hnext, hidle, hopened⟩ := ih (haccounted.step move) hunserved
      have hrun : scene.run connect.recorded (move :: moves) =
        (scene.step connect.recorded move).run connect.recorded moves := rfl
      rw [added, hopened, hrun]
      by_cases hmine : move.place? = some place
      · obtain ⟨turn, rfl⟩ : ∃ turn, move = .turn place turn := by
          cases move with
          | arrive => cases hmine
          | turn other turn => cases hmine; exact ⟨turn, rfl⟩
        have hturned := scene.turned_step connect.recorded place turn
        obtain ⟨hborrow, hsame, hslots⟩ := hturned.unserved (haccounted.opened_pos place) hnext
        refine ⟨hborrow, fun measure => ?_, ?_⟩
        · rw [added, hidle measure, if_pos hmine, hsame]
          omega
        · rw [if_pos hmine, hslots]
          omega
      · rw [borrow_step_of_ne hmine] at hnext ⊢
        refine ⟨hnext, fun measure => ?_, ?_⟩
        · rw [added, hidle measure, if_neg hmine, add_zero]
        · rw [if_neg hmine, zero_add]

end PoolScene

/-- A pool neither shares nor loses a connection.  Each attempt to open one has a
slot that was reserved within the limit and while none was idle, and nobody is
turned away while there is one or room for one.  A borrow that could not connect
leaves no trace.  Every prefix of the moves is a run as well, so this holds at
each moment. -/
theorem borrowed_connections_accounted {settings : PoolSettings} {connect : Connector φ κ}
    {factory : φ} {pool : Pool κ} {begun : φ × List κ}
    (hcreated : Pool.create settings connect.recorded (factory, []) = (.ok pool, begun))
    (moves : List PoolMove) :
    let scene : PoolScene (φ × List κ) κ := { pool, factory := begun }
    let later := scene.run connect.recorded moves
    later.Accounted settings.maxSize ∧ later.Sparing connect.recorded ∧
      (∀ place, later.borrow place = .connecting →
        scene.Reserved connect.recorded moves place) ∧
      ∀ (place : Nat) (error : StoreError), later.borrow place = .failed error →
        scene.added connect.recorded Pool.opened place moves = 0 ∧
          ∀ measure : List κ → Nat,
            scene.added connect.recorded (measure ·.idle) place moves = 0 := by
  intro scene later
  have hbegun := Pool.accounted_create hcreated
  have haccounted : later.Accounted settings.maxSize := hbegun.run moves
  have hnone : ∀ place, scene.borrow place = .waiting := fun _ => rfl
  refine ⟨haccounted, PoolScene.sparing _ (haccounted.maxSize_eq ▸ haccounted.opened_le),
    fun place => PoolScene.reserved_of_connecting (by simp [hnone]), ?_⟩
  intro place error hfailed
  have hunserved : (later.borrow place).isUnserved := by
    rw [hfailed]
    rfl
  obtain ⟨-, hidle, hopened⟩ := hbegun.added_of_unserved place moves hunserved
  refine ⟨?_, hidle⟩
  have hslots : (scene.borrow place).slots = 0 := rfl
  have hslots' : (later.borrow place).slots = 0 := by
    rw [hfailed]
    rfl
  rw [hopened, hslots, hslots', sub_zero]

namespace PoolWitness

/-- Every other connection fails. -/
def connect : Connector Nat Nat := fun count =>
  (if count % 2 = 0 then .error (.unavailable .offline) else .ok count, count + 1)

def pool : Pool Nat := { maxSize := 1, idle := [], opened := 0 }

/-- The second borrower finds the only slot taken by a connection that fails,
and the third one gets it. -/
def moves : List PoolMove :=
  [.arrive, .turn 0 (.seek false), .arrive, .turn 1 (.seek true), .turn 0 .connect,
    .turn 0 .giveBack, .arrive, .turn 2 (.seek false), .turn 2 .connect]

theorem failed_borrow_leaves_no_trace :
    let scene : PoolScene (Nat × List Nat) Nat := { pool, factory := (0, []) }
    let later := scene.run connect.recorded moves
    later.borrows = [.failed (.unavailable .offline), .exhausted 1, .holding 1] ∧
      later.Accounted 1 ∧ scene.added connect.recorded Pool.opened 0 moves = 0 := by
  intro scene later
  have hlater : PoolScene.borrows (PoolScene.run connect.recorded ⟨pool, (0, []), []⟩ moves) =
    [.failed (.unavailable .offline), .exhausted 1, .holding 1] := rfl
  obtain ⟨haccounted, -, -, htrace⟩ := borrowed_connections_accounted
    (rfl : Pool.create ⟨0, 1, 10⟩ connect.recorded (0, []) = (.ok pool, 0, [])) moves
  exact ⟨hlater, haccounted, (htrace 0 _ rfl).1⟩

/-- Every connection can be opened. -/
def serve : Connector Nat Nat := fun count => (.ok count, count + 1)

/-- The first borrower returns its connection after the second one has reserved
a slot and before it opens another. -/
def returning : List PoolMove :=
  [.arrive, .turn 0 (.seek false), .turn 0 .connect, .arrive, .turn 1 (.seek false),
    .turn 0 .release]

/-- A connection may be opened beside an idle one, and a new pool opens its first
connections one beside the other. -/
theorem opened_beside_idle :
    (¬ ∀ (settings : PoolSettings) (connect : Connector Nat Nat) (factory : Nat) (pool : Pool Nat)
        (begun : Nat × List Nat),
      Pool.create settings connect.recorded (factory, []) = (.ok pool, begun) →
      ∀ (moves : List PoolMove) (move : PoolMove),
        let later := PoolScene.run connect.recorded { pool, factory := begun } moves
        later.Connects move → later.pool.idle = []) ∧
    Pool.create { minSize := 2, maxSize := 4 } serve 1 = (.ok ⟨4, [2, 1], 2⟩, 3) := by
  refine ⟨fun h => ?_, rfl⟩
  let start : PoolScene (Nat × List Nat) Nat := { pool := ⟨2, [], 0⟩, factory := (1, []) }
  have hidle : (start.run serve.recorded returning).pool.idle = [1] := rfl
  have hconnects : (start.run serve.recorded returning).Connects (.turn 1 .connect) :=
    ⟨1, rfl, rfl⟩
  have hnone := h ⟨0, 2, 0⟩ serve 1 ⟨2, [], 0⟩ (1, []) rfl returning (.turn 1 .connect) hconnects
  cases hidle.symm.trans hnone

end PoolWitness

end ObjectVault
