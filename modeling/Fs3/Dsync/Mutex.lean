import Mathlib.Data.Finset.Card
import Fs3.Dsync.LocalLocker
import Fs3.Foundation.Histories

/-! # Distributed locks

A mutex asks all the lockers at once and holds the lock when a quorum has granted it. Messages are
delivered in any order, after any time or never. -/

namespace Fs3

def lockQuorum (lockers : Nat) (isReadLock : Bool) : Nat × Nat :=
  let tolerance := lockers / 2
  let quorum := lockers - tolerance
  -- As many for as against would let two writers in.
  let quorum := if !isReadLock && quorum == tolerance then quorum + 1 else quorum
  (lockers - quorum, quorum)

def checkFailedUnlocks (lockers : Nat) (locks : Finset Nat) (tolerance : Nat) : Bool :=
  if lockers - tolerance = tolerance then decide (tolerance ≤ locks.card)
  else decide (tolerance < locks.card)

/-- A call for a lock: the id it uses and what it asks for. -/
structure Call where
  uid : String
  isReadLock : Bool
  deriving DecidableEq

/-- What a mutex is doing. -/
inductive Phase where
  | idle
  /-- Collecting answers, with their number and how many of them failed. -/
  | locking (call : Call) (received : Nat) (locks : Finset Nat) (locksFailed : Nat)
  /-- Releasing what a failed attempt was granted; some releases are pending. -/
  | undoing (call : Call) (pending : Finset Nat)
  | held (call : Call) (locks : Finset Nat)
  /-- In a round of releases, with those that are pending in it. -/
  | unlocking (call : Call) (locks pending : Finset Nat)
  deriving DecidableEq

/-- A mutex, with the number of its latest round of messages. -/
structure MutexState where
  ticket : Nat
  phase : Phase

/-- A message on its way, with the mutex and the round it belongs to. -/
inductive Message (κ : Type) where
  | request (mutex : κ) (ticket locker : Nat) (isReadLock : Bool) (args : LockArgs)
  | granted (mutex : κ) (ticket locker : Nat) (isReadLock : Bool) (args : LockArgs)
      (locked : Bool)
  | release (mutex : κ) (ticket locker : Nat) (isReadLock : Bool) (args : LockArgs)
  | released (mutex : κ) (ticket locker : Nat) (ok : Bool)
  deriving DecidableEq

/-- The mutexes, the tables of the lockers and the messages on their way. -/
structure Network (κ : Type) where
  mutexes : κ → MutexState
  tables : Nat → LockMap
  inFlight : List (Message κ)

/-- The number of lockers, and the names and the owner of every mutex. -/
structure Dsync (κ : Type) where
  lockers : Nat
  names : κ → List String
  owner : κ → String

variable {κ : Type} [DecidableEq κ]

def Network.setMutex (s : Network κ) (c : κ) (ticket : Nat) (phase : Phase) : Network κ :=
  { s with mutexes := Function.update s.mutexes c { ticket := ticket, phase := phase } }

def Network.setPhase (s : Network κ) (c : κ) (phase : Phase) : Network κ :=
  s.setMutex c (s.mutexes c).ticket phase

def Network.answer (s : Network κ) (m : Message κ) (answers : List (Message κ)) : Network κ :=
  { s with inFlight := s.inFlight.erase m ++ answers }

/-- A message is taken by a locker and answered, and leaves a new table there. -/
def Network.serve (s : Network κ) (m : Message κ) (locker : Nat) (lockMap : LockMap)
    (answers : List (Message κ)) : Network κ :=
  { s.answer m answers with tables := Function.update s.tables locker lockMap }

namespace Dsync

variable (d : Dsync κ)

def args (c : κ) (uid : String) : LockArgs where
  uid := uid
  owner := d.owner c
  resources := d.names c

def initial : Network κ where
  mutexes := fun _ => { ticket := 0, phase := .idle }
  tables := fun _ _ => none
  inFlight := []

/-- `lock`: broadcast a request to all lockers. -/
def lock (s : Network κ) (c : κ) (call : Call) : Network κ :=
  let ticket := (s.mutexes c).ticket + 1
  { s.setMutex c ticket (.locking call 0 ∅ 0) with
    inFlight := s.inFlight ++ (List.range d.lockers).map fun locker =>
      .request c ticket locker call.isReadLock (d.args c call.uid) }

/-- `releaseAll`: send a release to every locker that is marked as locked. -/
def releaseAll (s : Network κ) (c : κ) (call : Call) (locks : Finset Nat) (phase : Phase) :
    Network κ :=
  let ticket := (s.mutexes c).ticket + 1
  { s.setMutex c ticket phase with
    inFlight := s.inFlight ++ ((List.range d.lockers).filter (· ∈ locks)).map fun locker =>
      .release c ticket locker call.isReadLock (d.args c call.uid) }

def collected (call : Call) (received locksFailed : Nat) : Prop :=
  received = d.lockers ∨ (lockQuorum d.lockers call.isReadLock).1 < locksFailed

instance (call : Call) (received locksFailed : Nat) :
    Decidable (d.collected call received locksFailed) :=
  inferInstanceAs (Decidable (_ ∨ _))

def Awaits (s : Network κ) (c : κ) (ticket : Nat) : Prop :=
  (s.mutexes c).ticket = ticket ∧ ∃ call received locks locksFailed,
    (s.mutexes c).phase = .locking call received locks locksFailed ∧
      ¬ d.collected call received locksFailed

def quorumLocked (call : Call) (locks : Finset Nat) (locksFailed : Nat) : Prop :=
  (lockQuorum d.lockers call.isReadLock).2 ≤ locks.card ∧
    locksFailed ≤ (lockQuorum d.lockers call.isReadLock).1

instance (call : Call) (locks : Finset Nat) (locksFailed : Nat) :
    Decidable (d.quorumLocked call locks locksFailed) :=
  inferInstanceAs (Decidable (_ ∧ _))

/-- What can happen next. -/
inductive Step (admits : Network κ → κ → Call → Prop) : Network κ → Network κ → Prop where
  /-- A call for a lock begins. -/
  | lockBlocking {s : Network κ} {c : κ} {call : Call} :
      (s.mutexes c).phase = .idle → admits s c call → Step admits s (d.lock s c call)
  /-- A locker grants a request or rejects it. -/
  | serveLock {s : Network κ} {c : κ} {ticket locker : Nat} {isReadLock : Bool} {args : LockArgs} :
      .request c ticket locker isReadLock args ∈ s.inFlight →
      Step admits s (s.serve (.request c ticket locker isReadLock args) locker
        ((s.tables locker).grant isReadLock args).2
        [.granted c ticket locker isReadLock args ((s.tables locker).grant isReadLock args).1])
  /-- A request fails before it gets to its locker. -/
  | requestFails {s : Network κ} {c : κ} {ticket locker : Nat} {isReadLock : Bool}
      {args : LockArgs} :
      .request c ticket locker isReadLock args ∈ s.inFlight →
      Step admits s (s.answer (.request c ticket locker isReadLock args)
        [.granted c ticket locker isReadLock args false])
  /-- An answer is lost, and the request fails where it was sent. -/
  | answerLost {s : Network κ} {c : κ} {ticket locker : Nat} {isReadLock locked : Bool}
      {args : LockArgs} :
      .granted c ticket locker isReadLock args locked ∈ s.inFlight →
      Step admits s (s.answer (.granted c ticket locker isReadLock args locked)
        [.granted c ticket locker isReadLock args false])
  /-- An answer is collected. -/
  | collect {s : Network κ} {c : κ} {call : Call} {received ticket locker : Nat}
      {locks : Finset Nat} {locksFailed : Nat} {isReadLock locked : Bool} {args : LockArgs} :
      (s.mutexes c).phase = .locking call received locks locksFailed →
      ¬ d.collected call received locksFailed → (s.mutexes c).ticket = ticket →
      .granted c ticket locker isReadLock args locked ∈ s.inFlight →
      Step admits s ((s.answer (.granted c ticket locker isReadLock args locked) []).setPhase c
        (if locked then .locking call (received + 1) (insert locker locks) locksFailed
        else .locking call (received + 1) locks (locksFailed + 1)))
  /-- The attempt has run out of time: an answer counts as failed. -/
  | timeout {s : Network κ} {c : κ} {call : Call} {received : Nat} {locks : Finset Nat}
      {locksFailed : Nat} :
      (s.mutexes c).phase = .locking call received locks locksFailed →
      ¬ d.collected call received locksFailed →
      Step admits s (s.setPhase c (.locking call (received + 1) locks (locksFailed + 1)))
  | lockSucceeds {s : Network κ} {c : κ} {call : Call} {received : Nat} {locks : Finset Nat}
      {locksFailed : Nat} :
      (s.mutexes c).phase = .locking call received locks locksFailed →
      d.collected call received locksFailed → d.quorumLocked call locks locksFailed →
      Step admits s (s.setPhase c (.held call locks))
  | lockFails {s : Network κ} {c : κ} {call : Call} {received : Nat} {locks : Finset Nat}
      {locksFailed : Nat} :
      (s.mutexes c).phase = .locking call received locks locksFailed →
      d.collected call received locksFailed → ¬ d.quorumLocked call locks locksFailed →
      Step admits s (d.releaseAll s c call locks (.undoing call locks))
  /-- An answer comes too late: what it grants is released. -/
  | releaseAbandoned {s : Network κ} {c : κ} {ticket locker : Nat} {isReadLock locked : Bool}
      {args : LockArgs} :
      .granted c ticket locker isReadLock args locked ∈ s.inFlight → ¬ d.Awaits s c ticket →
      Step admits s (s.answer (.granted c ticket locker isReadLock args locked)
        (if locked then [.release c ticket locker isReadLock args] else []))
  /-- A locker serves a release. -/
  | serveRelease {s : Network κ} {c : κ} {ticket locker : Nat} {isReadLock : Bool}
      {args : LockArgs} :
      .release c ticket locker isReadLock args ∈ s.inFlight →
      Step admits s (s.serve (.release c ticket locker isReadLock args) locker
        ((s.tables locker).release isReadLock args).2
        [.released c ticket locker ((s.tables locker).release isReadLock args).1.isOk])
  /-- A release of a failed attempt is over: it is answered, or given up. -/
  | undo {s : Network κ} {c : κ} {call : Call} {pending : Finset Nat} {locker : Nat} :
      (s.mutexes c).phase = .undoing call pending → locker ∈ pending →
      Step admits s (s.setPhase c (.undoing call (pending.erase locker)))
  /-- The call tries again. -/
  | retry {s : Network κ} {c : κ} {call : Call} :
      (s.mutexes c).phase = .undoing call ∅ → Step admits s (d.lock s c call)
  /-- The call has run out of time. -/
  | lockTimesOut {s : Network κ} {c : κ} {call : Call} :
      (s.mutexes c).phase = .undoing call ∅ → Step admits s (s.setPhase c .idle)
  /-- The first round of releases. -/
  | unlock {s : Network κ} {c : κ} {call : Call} {locks : Finset Nat} :
      (s.mutexes c).phase = .held call locks →
      Step admits s (d.releaseAll s c call locks (.unlocking call locks locks))
  /-- A release is acknowledged or refused. -/
  | unlockAnswered {s : Network κ} {c : κ} {call : Call} {locks pending : Finset Nat}
      {ticket locker : Nat} {ok : Bool} :
      (s.mutexes c).phase = .unlocking call locks pending → locker ∈ pending →
      (s.mutexes c).ticket = ticket → .released c ticket locker ok ∈ s.inFlight →
      Step admits s ((s.answer (.released c ticket locker ok) []).setPhase c
        (.unlocking call (if ok then locks.erase locker else locks) (pending.erase locker)))
  /-- A release is given up after its timeout. -/
  | unlockGivenUp {s : Network κ} {c : κ} {call : Call} {locks pending : Finset Nat}
      {locker : Nat} :
      (s.mutexes c).phase = .unlocking call locks pending → locker ∈ pending →
      Step admits s (s.setPhase c (.unlocking call locks (pending.erase locker)))
  /-- The round has failed, and those that are left are released again. -/
  | unlockAgain {s : Network κ} {c : κ} {call : Call} {locks : Finset Nat} :
      (s.mutexes c).phase = .unlocking call locks ∅ →
      checkFailedUnlocks d.lockers locks (d.lockers / 2) = true →
      Step admits s (d.releaseAll s c call locks (.unlocking call locks locks))
  | unlocked {s : Network κ} {c : κ} {call : Call} {locks : Finset Nat} :
      (s.mutexes c).phase = .unlocking call locks ∅ →
      checkFailedUnlocks d.lockers locks (d.lockers / 2) = false →
      Step admits s (s.setPhase c .idle)

end Dsync

def Network.Holds (s : Network κ) (c : κ) (isReadLock : Bool) : Prop :=
  ∃ call locks, (s.mutexes c).phase = .held call locks ∧ call.isReadLock = isReadLock

def Dsync.Excludes (d : Dsync κ) (s : Network κ) : Prop :=
  ∀ c c' isReadLock resource, c ≠ c' → s.Holds c false → s.Holds c' isReadLock →
    resource ∈ d.names c → resource ∉ d.names c'

end Fs3

/-! ## Releasing until it is acknowledged

`Unlock` and `RUnlock` of a mutex repeat the releases of a lock until enough
lockers have acknowledged them. A locker acknowledges the release of a read lock
that it does not have, unless there is a write lock, but the release of a write
lock only where there is one on every resource.
-/

namespace Fs3.ReleaseLoop

open LockMap (release)

/-- Whether a locker acknowledges a release, be the lock there or not: a release for reading
where the resource has no write lock, a release for writing where all resources have one. -/
def releasable (lockMap : LockMap) (isReadLock : Bool) (args : LockArgs) : Bool :=
  if isReadLock then
    match args.resources with
    | [] => false
    | resource :: _ => !isWriteLock ((lockMap resource).getD [])
  else args.resources.all fun resource => isWriteLock ((lockMap resource).getD [])

/-- `sendRelease` to a locker that answers. -/
def sendRelease (lockMap : LockMap) (isReadLock : Bool) (args : LockArgs) : Bool × LockMap :=
  match lockMap.release isReadLock args with
  | (.error _, lockMap) => (false, lockMap)
  | (.ok _, lockMap) => (true, lockMap)

/-- The lockers whose release has not been acknowledged, and the tables of all lockers. -/
structure Releasing where
  locks : Finset Nat
  tables : Nat → LockMap

/-- `releaseAll`, which leaves the locks that have not been released. -/
def releaseAll (isReadLock : Bool) (args : LockArgs) (s : Releasing) : Releasing where
  locks := s.locks.filter fun i => (sendRelease (s.tables i) isReadLock args).1 = false
  tables := fun i =>
    if i ∈ s.locks then (sendRelease (s.tables i) isReadLock args).2 else s.tables i

def afterRounds (between : Nat → (Nat → LockMap) → Nat → LockMap) (isReadLock : Bool)
    (args : LockArgs) (s : Releasing) : Nat → Releasing
  | 0 => s
  | k + 1 =>
    let s := afterRounds between isReadLock args s k
    releaseAll isReadLock args { s with tables := between k s.tables }

def found (between : Nat → (Nat → LockMap) → Nat → LockMap) (isReadLock : Bool)
    (args : LockArgs) (s : Releasing) (k : Nat) : Nat → LockMap :=
  between k (afterRounds between isReadLock args s k).tables

/-- The loop of `Unlock` or `RUnlock` for a number of lockers comes to an end. -/
def LoopEnds (lockers : Nat) (between : Nat → (Nat → LockMap) → Nat → LockMap)
    (isReadLock : Bool) (args : LockArgs) (s : Releasing) : Prop :=
  ∃ k, checkFailedUnlocks lockers (afterRounds between isReadLock args s (k + 1)).locks
    (lockers / 2) = false

section Releasing

variable {lockMap : LockMap} {isReadLock : Bool} {args : LockArgs} {s : Releasing}
  {between : Nat → (Nat → LockMap) → Nat → LockMap}

/-- A release is acknowledged, or rejected and changes nothing. -/
theorem release_answer (lockMap : LockMap) (isReadLock : Bool) (args : LockArgs) :
    (releasable lockMap isReadLock args = true ∧
      ∃ reply, (lockMap.release isReadLock args).1 = .ok reply) ∨
    (releasable lockMap isReadLock args = false ∧
      ∃ text, lockMap.release isReadLock args = (.error text, lockMap)) := by
  unfold LockMap.release releasable
  cases isReadLock with
  | true =>
    rw [if_pos rfl, if_pos rfl, LockMap.rUnlock]
    cases args.resources with
    | nil => exact Or.inr ⟨rfl, _, rfl⟩
    | cons resource rest =>
      dsimp only
      cases lockMap resource with
      | none => exact Or.inl ⟨rfl, true, rfl⟩
      | some lri =>
        rw [Option.getD_some]
        cases hwrite : isWriteLock lri with
        | true =>
          dsimp only
          rw [hwrite]
          exact Or.inr ⟨rfl, _, rfl⟩
        | false =>
          dsimp only
          rw [hwrite]
          exact Or.inl ⟨rfl, true, rfl⟩
  | false =>
    rw [if_neg Bool.false_ne_true, if_neg Bool.false_ne_true, LockMap.unlock]
    have htake : args.resources.all (fun resource => isWriteLock ((lockMap resource).getD [])) =
        lockMap.canTakeUnlock args.resources := by
      rw [LockMap.canTakeUnlock, Bool.eq_iff_iff, beq_iff_eq, List.countP_eq_length,
        List.all_eq_true]
    rw [htake]
    cases lockMap.canTakeUnlock args.resources with
    | true => exact Or.inl ⟨rfl, true, rfl⟩
    | false => exact Or.inr ⟨rfl, _, rfl⟩

theorem release_isOk_iff :
    (∃ reply, (lockMap.release isReadLock args).1 = .ok reply) ↔
      releasable lockMap isReadLock args = true := by
  rcases release_answer lockMap isReadLock args with ⟨hyes, hok⟩ | ⟨hno, text, herror⟩
  · exact iff_of_true hok hyes
  · refine iff_of_false ?_ (by rw [hno]; exact Bool.false_ne_true)
    rintro ⟨reply, hreply⟩
    rw [herror] at hreply
    cases hreply

theorem sendRelease_fst :
    (sendRelease lockMap isReadLock args).1 = releasable lockMap isReadLock args := by
  rw [sendRelease]
  rcases release_answer lockMap isReadLock args with ⟨hyes, reply, hok⟩ | ⟨hno, text, herror⟩
  · rw [hyes]
    cases hanswer : lockMap.release isReadLock args with
    | mk answer after =>
      rw [hanswer] at hok
      rw [show answer = .ok reply from hok]
  · rw [herror, hno]

theorem sendRelease_of_not_releasable (hnot : releasable lockMap isReadLock args = false) :
    (sendRelease lockMap isReadLock args).2 = lockMap := by
  rcases release_answer lockMap isReadLock args with ⟨hyes, -⟩ | ⟨-, text, herror⟩
  · rw [hnot] at hyes
    cases hyes
  · rw [sendRelease, herror]

theorem mem_afterRounds_locks {k i : Nat} :
    i ∈ (afterRounds between isReadLock args s k).locks ↔
      i ∈ s.locks ∧
        ∀ j < k, releasable (found between isReadLock args s j i) isReadLock args = false := by
  induction k with
  | zero => simp [afterRounds]
  | succ k ih =>
    rw [afterRounds]
    dsimp only [releaseAll]
    rw [Finset.mem_filter, ih, sendRelease_fst, Nat.forall_lt_succ_right, and_assoc]
    rfl

theorem afterRounds_table {i : Nat}
    (hnot : releasable (s.tables i) isReadLock args = false) (k : Nat) :
    (afterRounds (fun _ tables => tables) isReadLock args s k).tables i = s.tables i := by
  induction k with
  | zero => rfl
  | succ k ih =>
    rw [afterRounds]
    dsimp only [releaseAll]
    rw [ih]
    split
    next => exact sendRelease_of_not_releasable hnot
    next => rfl

theorem afterRounds_succ_locks (k : Nat) :
    (afterRounds (fun _ tables => tables) isReadLock args s (k + 1)).locks =
      s.locks.filter fun i => releasable (s.tables i) isReadLock args = false := by
  ext i
  rw [mem_afterRounds_locks, Finset.mem_filter]
  constructor
  · rintro ⟨hmem, hall⟩
    exact ⟨hmem, hall 0 (Nat.succ_pos k)⟩
  · rintro ⟨hmem, hnot⟩
    refine ⟨hmem, fun j _ => ?_⟩
    rw [found, afterRounds_table hnot]
    exact hnot

end Releasing

/-- A locker reports a release as done exactly where its table is releasable, and the
loops end exactly where the lockers that are not, in all rounds up to some, are few enough. -/
theorem release_reported_iff (lockMap : LockMap) (isReadLock : Bool) (args : LockArgs)
    (lockers : Nat) (between : Nat → (Nat → LockMap) → Nat → LockMap) (s : Releasing) :
    ((∃ reply, (LockMap.release lockMap isReadLock args).1 = .ok reply) ↔
      releasable lockMap isReadLock args = true) ∧
    (LoopEnds lockers (fun _ tables => tables) isReadLock args s ↔
      checkFailedUnlocks lockers
        (s.locks.filter fun i => releasable (s.tables i) isReadLock args = false)
        (lockers / 2) = false) ∧
    (LoopEnds lockers between isReadLock args s ↔
      ∃ k, checkFailedUnlocks lockers
        (s.locks.filter fun i => ∀ j < k + 1,
          releasable (found between isReadLock args s j i) isReadLock args = false)
        (lockers / 2) = false) := by
  refine ⟨release_isOk_iff, ?_, ?_⟩
  · simp only [LoopEnds, afterRounds_succ_locks, exists_const]
  · refine exists_congr fun k => ?_
    have hlocks : (afterRounds between isReadLock args s (k + 1)).locks =
        s.locks.filter fun i => ∀ j < k + 1,
          releasable (found between isReadLock args s j i) isReadLock args = false := by
      ext i
      rw [mem_afterRounds_locks, Finset.mem_filter]
    rw [hlocks]

def exampleArgs : LockArgs where
  uid := "id"
  owner := "owner"
  resources := ["bucket/object"]

/-- A write lock that has been released is not released again: the answer is an error, where
a read lock that is gone counts as released, and a loop over such lockers never ends. -/
theorem released_unlock_fails :
    (LockMap.lock (fun _ => none) exampleArgs).1 = true ∧
    (LockMap.unlock (LockMap.lock (fun _ => none) exampleArgs).2 exampleArgs).1 = .ok true ∧
    (LockMap.unlock (LockMap.unlock (LockMap.lock (fun _ => none) exampleArgs).2 exampleArgs).2
      exampleArgs).1 = .error "Unlock attempted on a read locked entity: [bucket/object]" ∧
    (LockMap.rUnlock (LockMap.unlock (LockMap.lock (fun _ => none) exampleArgs).2 exampleArgs).2
      exampleArgs).1 = .ok true ∧
    ¬ LoopEnds 3 (fun _ tables => tables) false exampleArgs
      ⟨{0, 1, 2}, fun _ =>
        (LockMap.unlock (LockMap.lock (fun _ => none) exampleArgs).2 exampleArgs).2⟩ := by
  refine ⟨by decide, by decide, by decide, by decide, ?_⟩
  rintro ⟨k, hends⟩
  rw [afterRounds_succ_locks] at hends
  revert hends
  decide

end Fs3.ReleaseLoop
