import Fs3.Foundation.LockService

/-! # The locks of the namespace

Every path that somebody holds or waits for has an entry with a lock of its own and with a
reference count. -/

namespace Fs3

/-- A readers-writer lock, with the id and the source of the last attempt. -/
structure LRWMutex where
  id : String := ""
  source : String := ""
  isWriteLock : Bool := false
  ref : Int := 0
  deriving DecidableEq

namespace LRWMutex

def lock (lm : LRWMutex) (id source : String) (isWriteLock : Bool) : LRWMutex × Bool :=
  let lm := { lm with id := id, source := source }
  if isWriteLock then
    if lm.ref = 0 ∧ !lm.isWriteLock then
      ({ lm with ref := 1, isWriteLock := true }, true)
    else (lm, false)
  else
    if !lm.isWriteLock then ({ lm with ref := lm.ref + 1 }, true) else (lm, false)

def unlock (lm : LRWMutex) (isWriteLock : Bool) : LRWMutex × Bool :=
  if isWriteLock then
    if lm.isWriteLock ∧ lm.ref = 1 then
      ({ lm with ref := 0, isWriteLock := false }, true)
    else (lm, false)
  else
    if !lm.isWriteLock then
      if lm.ref > 0 then ({ lm with ref := lm.ref - 1 }, true) else (lm, false)
    else (lm, false)

end LRWMutex

/-- An entry of the lock map. -/
structure NsLock where
  ref : Int := 0
  mutex : LRWMutex := {}
  deriving DecidableEq

/-- The ways in which an operation on the lock map ends the server. -/
inductive LockPanic where
  | nilDereference
  /-- "resource reference count was lower than 0" -/
  | negativeReference
  /-- "Trying to Unlock() while no Lock() is active", or the same for reading. -/
  | notLocked
  deriving DecidableEq

/-- The lock map: the address of the entry of each path, what is at each
address, and the next address that is free. -/
structure NsLockMap where
  lockMap : String → Option Nat := fun _ => none
  heap : Nat → NsLock := fun _ => {}
  next : Nat := 0

/-- A call for a lock on the path that a volume and a path are joined to. -/
structure LockCall where
  resource : String
  lockSource : String
  opsID : String
  readLock : Bool
  deriving DecidableEq

namespace NsLockMap

def entry (n : NsLockMap) (resource : String) : Option NsLock := (n.lockMap resource).map n.heap

def store (n : NsLockMap) (nsLk : Nat) (lock : NsLock) : NsLockMap :=
  { n with heap := Function.update n.heap nsLk lock }

/-- `lock`, up to where it waits: find or make the entry, and count. -/
def enter (n : NsLockMap) (resource : String) : NsLockMap × Nat :=
  let (n, nsLk) := match n.lockMap resource with
    | some nsLk => (n, nsLk)
    | none => ({ n.store n.next {} with next := n.next + 1 }, n.next)
  let lock := n.heap nsLk
  ({ n.store nsLk { lock with ref := lock.ref + 1 } with
      lockMap := Function.update n.lockMap resource (some nsLk) }, nsLk)

/-- One round of `lockLoop`, on the lock that `lock` has found. -/
def tryLock (n : NsLockMap) (nsLk : Nat) (call : LockCall) : NsLockMap × Bool :=
  let lock := n.heap nsLk
  let (mutex, locked) := lock.mutex.lock call.opsID call.lockSource (!call.readLock)
  (n.store nsLk { lock with mutex := mutex }, locked)

/-- The reference of a caller is taken off the entry of a path, and the entry
removed with the last one. -/
def dropRef (n : NsLockMap) (resource : String) : Except LockPanic NsLockMap :=
  match n.lockMap resource with
  | none => .error .nilDereference
  | some nsLk =>
    let lock := n.heap nsLk
    let n := n.store nsLk { lock with ref := lock.ref - 1 }
    if lock.ref - 1 < 0 then .error .negativeReference
    else if lock.ref - 1 = 0 then
      .ok { n with lockMap := Function.update n.lockMap resource none }
    else .ok n

def unlock (n : NsLockMap) (resource : String) (readLock : Bool) : Except LockPanic NsLockMap :=
  match n.lockMap resource with
  | none => .ok n
  | some nsLk =>
    let lock := n.heap nsLk
    let (mutex, unlocked) := lock.mutex.unlock (!readLock)
    if unlocked then (n.store nsLk { lock with mutex := mutex }).dropRef resource
    else .error .notLocked

end NsLockMap

open Foundation

/-- A call that is being made, with the address of the lock it waits for. -/
structure LockAttempt where
  call : LockCall
  nsLk : Nat
  deriving DecidableEq

/-- The lock map and its callers. -/
structure Namespace (τ : Type) where
  locks : NsLockMap
  callers : τ → Turn LockAttempt

namespace Namespace

variable {τ : Type} [DecidableEq τ]

def initial : Namespace τ where
  locks := {}
  callers := fun _ => .idle

def set (s : Namespace τ) (locks : NsLockMap) (t : τ) (turn : Turn LockAttempt) : Namespace τ where
  locks := locks
  callers := Function.update s.callers t turn

@[simp]
theorem set_locks (s : Namespace τ) (locks : NsLockMap) (t : τ) (turn : Turn LockAttempt) :
    (s.set locks t turn).locks = locks := rfl

@[simp]
theorem set_callers (s : Namespace τ) (locks : NsLockMap) (t : τ) (turn : Turn LockAttempt) :
    (s.set locks t turn).callers = Function.update s.callers t turn := rfl

/-- The atomic steps of a caller, between which the others take theirs. -/
inductive Step (t : τ) (s : Namespace τ) : Namespace τ → Prop where
  | enter (call : LockCall) (hidle : s.callers t = .idle) :
      Step t s (s.set (s.locks.enter call.resource).1 t
        (.waiting ⟨call, (s.locks.enter call.resource).2⟩))
  | acquires (attempt : LockAttempt) (hwaiting : s.callers t = .waiting attempt)
      (hlocked : (s.locks.tryLock attempt.nsLk attempt.call).2 = true) :
      Step t s (s.set (s.locks.tryLock attempt.nsLk attempt.call).1 t (.holding attempt))
  | retries (attempt : LockAttempt) (hwaiting : s.callers t = .waiting attempt)
      (hlocked : (s.locks.tryLock attempt.nsLk attempt.call).2 = false) :
      Step t s { s with locks := (s.locks.tryLock attempt.nsLk attempt.call).1 }
  /-- The context of the call is done before the lock is there. -/
  | timesOut (attempt : LockAttempt) (hwaiting : s.callers t = .waiting attempt) :
      Step t s (s.set s.locks t (.leaving attempt))
  | leaves (attempt : LockAttempt) (hleaving : s.callers t = .leaving attempt)
      (locks : NsLockMap) (hdrop : s.locks.dropRef attempt.call.resource = .ok locks) :
      Step t s (s.set locks t .idle)
  | unlock (attempt : LockAttempt) (hholding : s.callers t = .holding attempt)
      (locks : NsLockMap)
      (hunlock : s.locks.unlock attempt.call.resource attempt.call.readLock = .ok locks) :
      Step t s (s.set locks t .idle)

def Reachable (s : Namespace τ) : Prop := Runs (fun s s' => ∃ t, Step t s s') initial s

end Namespace

end Fs3

/-! ## Counting the callers of a path

What each operation of the lock map does to the entry of its path, where the
reference count is the number of callers of the path and the lock knows how
many of them hold it.
-/

namespace Fs3

open Foundation

/-- A lock that is held by so many readers and writers. -/
structure LRWMutex.Serves (lm : LRWMutex) (readers writers : Nat) : Prop where
  ref : lm.ref = readers + writers
  writing : lm.isWriteLock = decide (0 < writers)
  alone : 0 < writers → readers + writers = 1

namespace LRWMutex

theorem serves_new : LRWMutex.Serves {} 0 0 where
  ref := rfl
  writing := rfl
  alone := fun h => absurd h (Nat.lt_irrefl 0)

namespace Serves

variable {lm : LRWMutex} {readers writers : Nat}

theorem lock_iff (hserves : lm.Serves readers writers) (id source : String) (readLock : Bool) :
    (lm.lock id source (!readLock)).2 = true ↔
      writers = 0 ∧ (readLock = false → readers = 0) := by
  obtain ⟨href, hwriting, halone⟩ := hserves
  cases readLock with
  | true =>
    simp only [LRWMutex.lock, hwriting, Bool.not_true, Bool.false_eq_true, if_false]
    split
    next h => simpa using h
    next h => simpa using h
  | false =>
    simp only [LRWMutex.lock, href, hwriting, Bool.not_false, if_true]
    split
    next h => simp at h ⊢; omega
    next h => simp at h ⊢; omega

theorem lock (hserves : lm.Serves readers writers) {id source : String} {readLock : Bool}
    (hlocked : (lm.lock id source (!readLock)).2 = true) :
    (lm.lock id source (!readLock)).1.Serves (readers + if readLock then 1 else 0)
      (writers + if readLock = false then 1 else 0) := by
  obtain ⟨hwriters, hreaders⟩ := (hserves.lock_iff id source readLock).mp hlocked
  obtain ⟨href, hwriting, halone⟩ := hserves
  subst hwriters
  cases readLock with
  | true =>
    simp only [LRWMutex.lock, hwriting, Bool.not_true]
    exact ⟨by simp [href], by simp, by simp⟩
  | false =>
    cases hreaders rfl
    simp only [LRWMutex.lock, href, hwriting, Bool.not_false]
    exact ⟨by simp, by simp, by simp⟩

theorem refused (hserves : lm.Serves readers writers) {id source : String} {readLock : Bool}
    (hlocked : (lm.lock id source (!readLock)).2 = false) :
    (lm.lock id source (!readLock)).1.Serves readers writers := by
  revert hlocked
  simp only [LRWMutex.lock]
  split
  · split
    · intro hlocked; cases hlocked
    · exact fun _ => ⟨hserves.ref, hserves.writing, hserves.alone⟩
  · split
    · intro hlocked; cases hlocked
    · exact fun _ => ⟨hserves.ref, hserves.writing, hserves.alone⟩

theorem unlock (readLock : Bool) (hserves : lm.Serves (readers + if readLock then 1 else 0)
      (writers + if readLock = false then 1 else 0)) :
    (lm.unlock (!readLock)).2 = true ∧ (lm.unlock (!readLock)).1.Serves readers writers := by
  obtain ⟨href, hwriting, halone⟩ := hserves
  cases readLock with
  | true =>
    simp only [Bool.true_eq_false, if_true, if_false, Nat.add_zero] at href hwriting halone
    have hwriters : writers = 0 := by omega
    subst hwriters
    have hpos : lm.ref > 0 := by omega
    simp only [LRWMutex.unlock, hwriting, Bool.not_true, Bool.false_eq_true, if_false,
      Nat.lt_irrefl, decide_false, Bool.not_false, if_true, hpos]
    exact ⟨trivial, by simp [href], by simp, by simp⟩
  | false =>
    simp only [Bool.false_eq_true, if_true, if_false, Nat.add_zero] at href hwriting halone
    have hzero : readers = 0 ∧ writers = 0 := by omega
    obtain ⟨rfl, rfl⟩ := hzero
    simp only [LRWMutex.unlock, Bool.not_false, if_true, hwriting, href]
    exact ⟨by simp, by simp, by simp, by simp⟩

end Serves

end LRWMutex

namespace NsLockMap

/-- Every entry has an address of its own, that was given out. -/
structure WellFormed (n : NsLockMap) : Prop where
  fresh : ∀ resource nsLk, n.lockMap resource = some nsLk → nsLk < n.next
  injective : ∀ resource other nsLk, n.lockMap resource = some nsLk →
    n.lockMap other = some nsLk → resource = other

/-- What an operation on one path makes of the lock map. -/
structure Edits (n : NsLockMap) (resource : String) (n' : NsLockMap) (lock? : Option NsLock) :
    Prop where
  wellFormed : n'.WellFormed
  entry_self : n'.entry resource = lock?
  entry_other : ∀ other, other ≠ resource → n'.entry other = n.entry other
  lockMap_other : ∀ other, other ≠ resource → n'.lockMap other = n.lockMap other
  /-- The lock of the path stays the same one for as long as it is there. -/
  address : ∀ nsLk, n.lockMap resource = some nsLk → lock? ≠ none →
    n'.lockMap resource = some nsLk

variable {n : NsLockMap}
variable {resource : String}

theorem entry_of_lockMap {nsLk : Nat} (hfound : n.lockMap resource = some nsLk) :
    n.entry resource = some (n.heap nsLk) := by
  rw [entry, hfound, Option.map_some]

theorem WellFormed.edits_refl (hwf : n.WellFormed) (resource : String) :
    n.Edits resource n (n.entry resource) where
  wellFormed := hwf
  entry_self := rfl
  entry_other := fun _ _ => rfl
  lockMap_other := fun _ _ => rfl
  address := fun _ h _ => h

theorem WellFormed.edits_store (hwf : n.WellFormed) {nsLk : Nat}
    (hfound : n.lockMap resource = some nsLk) (lock : NsLock) :
    n.Edits resource (n.store nsLk lock) (some lock) where
  wellFormed := ⟨hwf.fresh, hwf.injective⟩
  entry_self := by
    have hafter : (n.store nsLk lock).lockMap resource = some nsLk := hfound
    rw [entry_of_lockMap hafter]
    show some (Function.update n.heap nsLk lock nsLk) = some lock
    rw [Function.update_self]
  entry_other := by
    intro other hne
    show (n.lockMap other).map (Function.update n.heap nsLk lock) = (n.lockMap other).map n.heap
    apply Option.map_congr
    intro address haddress
    apply Function.update_of_ne
    rintro rfl
    exact hne (hwf.injective other resource address haddress hfound)
  lockMap_other := fun _ _ => rfl
  address := fun _ h _ => h

/-- A path without an entry gets a new one. -/
theorem WellFormed.edits_insert (hwf : n.WellFormed) (habsent : n.lockMap resource = none)
    (heap : Nat → NsLock) (hheap : ∀ nsLk, nsLk < n.next → heap nsLk = n.heap nsLk) :
    n.Edits resource
      { lockMap := Function.update n.lockMap resource (some n.next), heap := heap,
        next := n.next + 1 } (some (heap n.next)) where
  wellFormed := by
    -- The new address is none of those that were given out.
    have hlookup : ∀ other nsLk,
        Function.update n.lockMap resource (some n.next) other = some nsLk →
        (other = resource ∧ nsLk = n.next) ∨ (n.lockMap other = some nsLk ∧ nsLk < n.next) := by
      intro other nsLk hother
      rcases eq_or_ne other resource with rfl | hne
      · rw [Function.update_self, Option.some.injEq] at hother
        exact .inl ⟨rfl, hother.symm⟩
      · rw [Function.update_of_ne hne] at hother
        exact .inr ⟨hother, hwf.fresh other nsLk hother⟩
    constructor
    · intro other nsLk hother
      rcases hlookup other nsLk hother with ⟨_, rfl⟩ | ⟨_, hlt⟩
      · exact Nat.lt_succ_self n.next
      · exact Nat.lt_succ_of_lt hlt
    · intro first second nsLk hfirst hsecond
      rcases hlookup first nsLk hfirst with ⟨rfl, rfl⟩ | ⟨hold, hlt⟩
      · rcases hlookup second _ hsecond with ⟨rfl, _⟩ | ⟨_, hlt⟩
        · rfl
        · exact absurd hlt (Nat.lt_irrefl _)
      · rcases hlookup second nsLk hsecond with ⟨rfl, rfl⟩ | ⟨hold', _⟩
        · exact absurd hlt (Nat.lt_irrefl _)
        · exact hwf.injective first second nsLk hold hold'
  entry_self := by
    show (Function.update n.lockMap resource (some n.next) resource).map heap = _
    rw [Function.update_self, Option.map_some]
  entry_other := by
    intro other hne
    show (Function.update n.lockMap resource (some n.next) other).map heap = _
    rw [Function.update_of_ne hne]
    exact Option.map_congr fun nsLk h => hheap nsLk (hwf.fresh other nsLk h)
  lockMap_other := fun other hne => Function.update_of_ne hne _ _
  address := by
    intro nsLk hfound
    rw [habsent] at hfound
    cases hfound

theorem WellFormed.enter (hwf : n.WellFormed) (resource : String) :
    n.Edits resource (n.enter resource).1
        (some { (n.entry resource).getD {} with ref := ((n.entry resource).getD {}).ref + 1 }) ∧
      (n.enter resource).1.lockMap resource = some (n.enter resource).2 := by
  constructor
  · cases hfound : n.lockMap resource with
    | some nsLk =>
      have henter : (n.enter resource).1 =
          n.store nsLk { n.heap nsLk with ref := (n.heap nsLk).ref + 1 } := by
        simp only [NsLockMap.enter, hfound, store]
        rw [← hfound, Function.update_eq_self]
      rw [henter, entry_of_lockMap hfound, Option.getD_some]
      exact hwf.edits_store hfound _
    | none =>
      have hentry : n.entry resource = none := by rw [entry, hfound, Option.map_none]
      have hedits := hwf.edits_insert hfound
        (Function.update n.heap n.next { ref := 1, mutex := {} })
        fun nsLk hlt => Function.update_of_ne (Nat.ne_of_lt hlt) _ _
      simp only [NsLockMap.enter, hfound, store, hentry, Option.getD_none,
        Function.update_self, Function.update_idem] at hedits ⊢
      exact hedits
  · simp only [NsLockMap.enter, store, Function.update_self]

theorem WellFormed.edits_delete (hwf : n.WellFormed) {nsLk : Nat}
    (hfound : n.lockMap resource = some nsLk) (lock : NsLock) :
    n.Edits resource { n.store nsLk lock with
      lockMap := Function.update n.lockMap resource none } none where
  wellFormed := by
    have hlookup : ∀ other nsLk, Function.update n.lockMap resource none other = some nsLk →
        n.lockMap other = some nsLk := by
      intro other nsLk hother
      rcases eq_or_ne other resource with rfl | hne
      · rw [Function.update_self] at hother
        cases hother
      · rwa [Function.update_of_ne hne] at hother
    constructor
    · exact fun other nsLk hother => hwf.fresh other nsLk (hlookup other nsLk hother)
    · intro first second nsLk hfirst hsecond
      exact hwf.injective first second nsLk (hlookup first nsLk hfirst)
        (hlookup second nsLk hsecond)
  entry_self := by
    show (Function.update n.lockMap resource none resource).map _ = _
    rw [Function.update_self, Option.map_none]
  entry_other := by
    intro other hne
    rw [← (hwf.edits_store hfound lock).entry_other other hne]
    show (Function.update n.lockMap resource none other).map _ = _
    rw [Function.update_of_ne hne]
    rfl
  lockMap_other := fun other hne => Function.update_of_ne hne _ _
  address := fun _ _ hnone => absurd rfl hnone

theorem WellFormed.dropRef (hwf : n.WellFormed) {nsLk users : Nat}
    (hfound : n.lockMap resource = some nsLk) (href : (n.heap nsLk).ref = users + 1) :
    ∃ n', n.dropRef resource = .ok n' ∧
      n.Edits resource n' (if users = 0 then none else
        some { n.heap nsLk with ref := users }) := by
  have hafter : (n.heap nsLk).ref - 1 = users := by omega
  have hnonneg : ¬ (users : Int) < 0 := by omega
  simp only [NsLockMap.dropRef, hfound, hafter, hnonneg, if_false, Int.natCast_eq_zero]
  split
  next hlast => exact ⟨_, rfl, hwf.edits_delete hfound _⟩
  next hmore => exact ⟨_, rfl, hwf.edits_store hfound _⟩

theorem Edits.trans {n' n'' : NsLockMap} {lock : NsLock} {lock? : Option NsLock}
    (hfirst : n.Edits resource n' (some lock)) (hsecond : n'.Edits resource n'' lock?) :
    n.Edits resource n'' lock? where
  wellFormed := hsecond.wellFormed
  entry_self := hsecond.entry_self
  entry_other := fun other hne =>
    (hsecond.entry_other other hne).trans (hfirst.entry_other other hne)
  lockMap_other := fun other hne =>
    (hsecond.lockMap_other other hne).trans (hfirst.lockMap_other other hne)
  address := fun nsLk hfound hsome =>
    hsecond.address nsLk (hfirst.address nsLk hfound (Option.some_ne_none lock)) hsome

theorem WellFormed.unlock (hwf : n.WellFormed) {resource : String} {nsLk users : Nat}
    (hfound : n.lockMap resource = some nsLk) (href : (n.heap nsLk).ref = users + 1)
    {readLock : Bool} (hunlock : ((n.heap nsLk).mutex.unlock (!readLock)).2 = true) :
    ∃ n', n.unlock resource readLock = .ok n' ∧
      n.Edits resource n' (if users = 0 then none else
        some { ref := users, mutex := ((n.heap nsLk).mutex.unlock (!readLock)).1 }) := by
  let lock : NsLock :=
    { n.heap nsLk with mutex := ((n.heap nsLk).mutex.unlock (!readLock)).1 }
  have hstore := hwf.edits_store hfound lock
  have hheap : (n.store nsLk lock).heap nsLk = lock := Function.update_self _ _ _
  have hcount : ((n.store nsLk lock).heap nsLk).ref = users + 1 := by
    rw [hheap]
    exact href
  obtain ⟨n', hdrop, hedits⟩ := hstore.wellFormed.dropRef hfound hcount
  refine ⟨n', ?_, ?_⟩
  · simp only [NsLockMap.unlock, hfound, hunlock, if_true]
    exact hdrop
  · rw [hheap] at hedits
    exact hstore.trans hedits

end NsLockMap

end Fs3
