import Fs3.Foundation.Tally
import Fs3.Namespace.LockMap

/-! # The lock map serves its callers

In every state that can be reached, an entry is there for a path that callers hold or wait for and
for no other, and counts them. -/

namespace Fs3

open Foundation

def namespaceLocks : LockService LockCall String where
  name := LockCall.resource
  shared := LockCall.readLock

def Uses (resource : String) (turn : Turn LockCall) : Prop :=
  turn.call?.map LockCall.resource = some resource

def Holds (resource : String) (readLock : Bool) (turn : Turn LockCall) : Prop :=
  turn.held?.map (fun call => (call.resource, call.readLock)) = some (resource, readLock)

instance (resource : String) : DecidablePred (Uses resource) :=
  fun _ => inferInstanceAs (Decidable (_ = _))

instance (resource : String) (readLock : Bool) : DecidablePred (Holds resource readLock) :=
  fun _ => inferInstanceAs (Decidable (_ = _))

section Turns

variable (resource : String) (readLock : Bool) (call : LockCall)

@[simp]
theorem uses_idle : ¬ Uses resource .idle := fun h => nomatch h

@[simp]
theorem uses_waiting : Uses resource (.waiting call) ↔ call.resource = resource :=
  Option.some_inj

@[simp]
theorem uses_leaving : Uses resource (.leaving call) ↔ call.resource = resource :=
  Option.some_inj

@[simp]
theorem uses_holding : Uses resource (.holding call) ↔ call.resource = resource :=
  Option.some_inj

@[simp]
theorem holds_idle : ¬ Holds resource readLock .idle := fun h => nomatch h

@[simp]
theorem holds_waiting : ¬ Holds resource readLock (.waiting call) := fun h => nomatch h

@[simp]
theorem holds_leaving : ¬ Holds resource readLock (.leaving call) := fun h => nomatch h

@[simp]
theorem holds_holding : Holds resource readLock (.holding call) ↔
    call.resource = resource ∧ call.readLock = readLock :=
  Option.some_inj.trans Prod.mk_inj

end Turns

theorem holds_iff {resource : String} {readLock : Bool} {turn : Turn LockCall} :
    Holds resource readLock turn ↔
      ∃ call, turn.held? = some call ∧ call.resource = resource ∧ call.readLock = readLock := by
  unfold Holds
  rw [Option.map_eq_some_iff]
  exact exists_congr fun call => and_congr_right fun _ => Prod.mk_inj

theorem Holds.uses {resource : String} {readLock : Bool} {turn : Turn LockCall}
    (hholds : Holds resource readLock turn) : Uses resource turn := by
  obtain ⟨call, hheld, hresource, _⟩ := holds_iff.mp hholds
  rw [Uses, Turn.call?_of_held? hheld, Option.map_some, hresource]

namespace Namespace

variable {τ : Type}

def view (s : Namespace τ) (t : τ) : Turn LockCall := (s.callers t).map LockAttempt.call

section Counts

variable [Fintype τ] (s : Namespace τ) (resource : String)

def users : Nat := population (Uses resource) s.view

def readers : Nat := population (Holds resource true) s.view

def writers : Nat := population (Holds resource false) s.view

theorem readers_le_users : s.readers resource ≤ s.users resource :=
  population_mono fun _ => Holds.uses

theorem writers_le_users : s.writers resource ≤ s.users resource :=
  population_mono fun _ => Holds.uses

end Counts

end Namespace

def Counts (lock? : Option NsLock) (users readers writers : Nat) : Prop :=
  match lock? with
  | none => users = 0
  | some lock => 0 < users ∧ lock.ref = users ∧ lock.mutex.Serves readers writers

/-- The invariant of the lock map and its callers. -/
structure Tracked {τ : Type} [Fintype τ] (s : Namespace τ) : Prop where
  wellFormed : s.locks.WellFormed
  found : ∀ t attempt, (s.callers t).call? = some attempt →
    s.locks.lockMap attempt.call.resource = some attempt.nsLk
  counts : ∀ resource, Counts (s.locks.entry resource) (s.users resource) (s.readers resource)
    (s.writers resource)

section Tracked

variable {τ : Type} [Fintype τ]

theorem tracked_initial : Tracked (Namespace.initial : Namespace τ) where
  wellFormed := ⟨(fun _ _ h => nomatch h), (fun _ _ _ h => nomatch h)⟩
  found := fun _ _ h => nomatch h
  counts := fun _ => population_eq_zero.mpr fun _ h => nomatch h

theorem Tracked.served {s : Namespace τ} (htracked : Tracked s) {t : τ} {attempt : LockAttempt}
    (hcall : (s.callers t).call? = some attempt) :
    Counts (some (s.locks.heap attempt.nsLk)) (s.users attempt.call.resource)
      (s.readers attempt.call.resource) (s.writers attempt.call.resource) := by
  have hcounts := htracked.counts attempt.call.resource
  rwa [NsLockMap.entry_of_lockMap (htracked.found t attempt hcall)] at hcounts

/-- A lock is given exactly when nothing that is held conflicts with it. -/
theorem Tracked.tryLock_iff {s : Namespace τ} (htracked : Tracked s) {t : τ} {attempt : LockAttempt}
    (hcall : (s.callers t).call? = some attempt) :
    (s.locks.tryLock attempt.nsLk attempt.call).2 = true ↔
      namespaceLocks.Free s.view attempt.call := by
  obtain ⟨_, _, hserves⟩ := htracked.served hcall
  have hlock := hserves.lock_iff attempt.call.opsID attempt.call.lockSource attempt.call.readLock
  refine hlock.trans ?_
  unfold Namespace.readers Namespace.writers
  rw [population_eq_zero, population_eq_zero]
  constructor
  · rintro ⟨hwriters, hreaders⟩ u held hheld hname
    have hread : held.readLock = true := by
      by_contra hwrite
      rw [Bool.not_eq_true] at hwrite
      exact hwriters u (holds_iff.mpr ⟨held, hheld, hname, hwrite⟩)
    refine ⟨hread, ?_⟩
    by_contra hwrite
    rw [Bool.not_eq_true] at hwrite
    exact hreaders hwrite u (holds_iff.mpr ⟨held, hheld, hname, hread⟩)
  · intro hfree
    constructor
    · intro u hholds
      obtain ⟨held, hheld, hname, hwrite⟩ := holds_iff.mp hholds
      have hread : held.readLock = true := (hfree u held hheld hname).1
      rw [hwrite] at hread
      cases hread
    · intro hwrite u hholds
      obtain ⟨held, hheld, hname, _⟩ := holds_iff.mp hholds
      have hread : attempt.call.readLock = true := (hfree u held hheld hname).2
      rw [hwrite] at hread
      cases hread

end Tracked

variable {τ : Type} [DecidableEq τ] {s : Namespace τ}

namespace Namespace

@[simp]
theorem view_set (locks : NsLockMap) (t : τ) (turn : Turn LockAttempt) :
    (s.set locks t turn).view = Function.update s.view t (turn.map LockAttempt.call) := by
  exact Function.comp_update (Turn.map LockAttempt.call) s.callers t turn

variable [Fintype τ]

theorem population_set (p : Turn LockCall → Prop) [DecidablePred p] (locks : NsLockMap) (t : τ)
    (turn : Turn LockAttempt) :
    population p (s.set locks t turn).view + (if p (s.view t) then 1 else 0) =
      population p s.view + if p (turn.map LockAttempt.call) then 1 else 0 := by
  rw [view_set]
  exact population_update t (turn.map LockAttempt.call)

theorem population_set_of_not {p : Turn LockCall → Prop} [DecidablePred p] (locks : NsLockMap)
    {t : τ} {turn : Turn LockAttempt} (hbefore : ¬ p (s.view t))
    (hafter : ¬ p (turn.map LockAttempt.call)) :
    population p (s.set locks t turn).view = population p s.view := by
  have hchange := s.population_set p locks t turn
  rwa [if_neg hbefore, if_neg hafter] at hchange

end Namespace

variable {turn : Turn LockAttempt}

theorem uses_map {resource : String} :
    Uses resource (turn.map LockAttempt.call) ↔
      ∃ attempt, turn.call? = some attempt ∧ attempt.call.resource = resource := by
  rw [Uses, Turn.call?_map, Option.map_map, Option.map_eq_some_iff]
  rfl

variable [Fintype τ]

namespace Tracked

/-- A caller and the entry of the path of its call change together. -/
theorem set (htracked : Tracked s) {resource : String} {locks : NsLockMap} {lock? : Option NsLock}
    (hedits : s.locks.Edits resource locks lock?) {t : τ}
    (hbefore : ∀ attempt, (s.callers t).call? = some attempt → attempt.call.resource = resource)
    (hafter : ∀ attempt, turn.call? = some attempt →
      attempt.call.resource = resource ∧ locks.lockMap resource = some attempt.nsLk)
    (hcounts : ∀ users readers writers,
      users + (if Uses resource (s.view t) then 1 else 0) =
        s.users resource + (if Uses resource (turn.map LockAttempt.call) then 1 else 0) →
      readers + (if Holds resource true (s.view t) then 1 else 0) =
        s.readers resource +
          (if Holds resource true (turn.map LockAttempt.call) then 1 else 0) →
      writers + (if Holds resource false (s.view t) then 1 else 0) =
        s.writers resource +
          (if Holds resource false (turn.map LockAttempt.call) then 1 else 0) →
      Counts lock? users readers writers) : Tracked (s.set locks t turn) := by
  have hself := hcounts _ _ _ (s.population_set _ locks t turn) (s.population_set _ locks t turn)
    (s.population_set _ locks t turn)
  refine ⟨hedits.wellFormed, ?_, ?_⟩
  · intro u attempt hcall
    show locks.lockMap attempt.call.resource = some attempt.nsLk
    have huses : Uses attempt.call.resource ((s.set locks t turn).view u) :=
      uses_map.mpr ⟨attempt, hcall, rfl⟩
    rw [Namespace.set_callers] at hcall
    rcases eq_or_ne u t with rfl | hne
    · rw [Function.update_self] at hcall
      obtain ⟨hresource, hlockMap⟩ := hafter attempt hcall
      rw [hresource, hlockMap]
    · rw [Function.update_of_ne hne] at hcall
      have hfound := htracked.found u attempt hcall
      rcases eq_or_ne attempt.call.resource resource with hsame | hother
      · -- The caller is one of those that the entry accounts for, so that it is still there.
        rw [hsame] at hfound huses ⊢
        apply hedits.address _ hfound
        rintro rfl
        exact population_eq_zero.mp hself u huses
      · rw [hedits.lockMap_other _ hother, hfound]
  · intro other
    rcases eq_or_ne other resource with rfl | hother
    · rw [Namespace.set_locks, hedits.entry_self]
      exact hself
    · have hbefore : ¬ Uses other (s.view t) := by
        intro huses
        obtain ⟨attempt, hcall, rfl⟩ := uses_map.mp huses
        exact hother (hbefore attempt hcall)
      have hafter : ¬ Uses other (turn.map LockAttempt.call) := by
        intro huses
        obtain ⟨attempt, hcall, rfl⟩ := uses_map.mp huses
        exact hother (hafter attempt hcall).1
      have hcounts := htracked.counts other
      rw [Namespace.set_locks, hedits.entry_other other hother]
      unfold Namespace.users Namespace.readers Namespace.writers at hcounts ⊢
      rw [Namespace.population_set_of_not locks hbefore hafter,
        Namespace.population_set_of_not locks (fun h => hbefore h.uses) fun h => hafter h.uses,
        Namespace.population_set_of_not locks (fun h => hbefore h.uses) fun h => hafter h.uses]
      exact hcounts

variable {attempt : LockAttempt}

section

variable (htracked : Tracked s) {t : τ}
include htracked

/-- A caller goes on with its call, or is done with it. -/
theorem set_of_call (hcall : (s.callers t).call? = some attempt) {locks : NsLockMap}
    {lock? : Option NsLock} (hedits : s.locks.Edits attempt.call.resource locks lock?)
    (hafter : turn.call? = none ∨
      turn.call? = some attempt ∧ locks.lockMap attempt.call.resource = some attempt.nsLk)
    (hcounts : ∀ users readers writers,
      users + 1 = s.users attempt.call.resource +
        (if Uses attempt.call.resource (turn.map LockAttempt.call) then 1 else 0) →
      readers + (if Holds attempt.call.resource true (s.view t) then 1 else 0) =
        s.readers attempt.call.resource +
          (if Holds attempt.call.resource true (turn.map LockAttempt.call) then 1 else 0) →
      writers + (if Holds attempt.call.resource false (s.view t) then 1 else 0) =
        s.writers attempt.call.resource +
          (if Holds attempt.call.resource false (turn.map LockAttempt.call) then 1 else 0) →
      Counts lock? users readers writers) : Tracked (s.set locks t turn) := by
  have huses : Uses attempt.call.resource (s.view t) := uses_map.mpr ⟨attempt, hcall, rfl⟩
  apply htracked.set hedits
  · intro other hother
    rw [hcall] at hother
    cases hother
    rfl
  · intro other hother
    rcases hafter with hnone | ⟨hsome, hfound⟩
    · rw [hnone] at hother
      cases hother
    · rw [hsome] at hother
      cases hother
      exact ⟨rfl, hfound⟩
  · intro users readers writers husers
    rw [if_pos huses] at husers
    exact hcounts users readers writers husers

theorem enter (hidle : s.callers t = .idle) (call : LockCall) :
    Tracked (s.set (s.locks.enter call.resource).1 t
      (.waiting ⟨call, (s.locks.enter call.resource).2⟩)) := by
  obtain ⟨hedits, hlockMap⟩ := htracked.wellFormed.enter call.resource
  have hview : s.view t = .idle := by rw [Namespace.view, hidle, Turn.map]
  apply htracked.set hedits
  · intro attempt hcall
    rw [hidle] at hcall
    cases hcall
  · intro attempt hcall
    cases hcall
    exact ⟨rfl, hlockMap⟩
  · intro users readers writers husers hreaders hwriters
    have hcounts := htracked.counts call.resource
    simp only [hview, Turn.map, uses_idle, uses_waiting, holds_idle, holds_waiting, if_true,
      if_false, Nat.add_zero] at husers hreaders hwriters
    subst husers hreaders hwriters
    cases hentry : s.locks.entry call.resource with
    | none =>
      rw [hentry] at hcounts
      have hnone : s.users call.resource = 0 := hcounts
      have hreaders := s.readers_le_users call.resource
      have hwriters := s.writers_le_users call.resource
      rw [hnone, Nat.le_zero] at hreaders hwriters
      rw [hnone, hreaders, hwriters, Option.getD_none]
      exact ⟨Nat.one_pos, rfl, LRWMutex.serves_new⟩
    | some lock =>
      rw [hentry] at hcounts
      obtain ⟨_, href, hserves⟩ := hcounts
      rw [Option.getD_some]
      refine ⟨Nat.succ_pos _, ?_, hserves⟩
      show lock.ref + 1 = _
      omega

theorem acquires (hwaiting : s.callers t = .waiting attempt)
    (hlocked : (s.locks.tryLock attempt.nsLk attempt.call).2 = true) :
    Tracked (s.set (s.locks.tryLock attempt.nsLk attempt.call).1 t (.holding attempt)) := by
  have hcall : (s.callers t).call? = some attempt := by rw [hwaiting, Turn.call?]
  have hview : s.view t = .waiting attempt.call := by rw [Namespace.view, hwaiting, Turn.map]
  have hfound := htracked.found t attempt hcall
  apply htracked.set_of_call hcall (htracked.wellFormed.edits_store hfound _) (.inr ⟨rfl, hfound⟩)
  intro users readers writers husers hreaders hwriters
  obtain ⟨hpos, href, hserves⟩ := htracked.served hcall
  have hlock := hserves.lock hlocked
  simp only [hview, Turn.map, uses_holding, holds_waiting, holds_holding, true_and,
    if_false, Nat.add_zero, Nat.add_right_cancel_iff, if_true] at husers hreaders hwriters
  subst husers hreaders hwriters
  exact ⟨hpos, href, hlock⟩

theorem retries (hwaiting : s.callers t = .waiting attempt)
    (hlocked : (s.locks.tryLock attempt.nsLk attempt.call).2 = false) :
    Tracked (s.set (s.locks.tryLock attempt.nsLk attempt.call).1 t (.waiting attempt)) := by
  have hcall : (s.callers t).call? = some attempt := by rw [hwaiting, Turn.call?]
  have hview : s.view t = .waiting attempt.call := by rw [Namespace.view, hwaiting, Turn.map]
  have hfound := htracked.found t attempt hcall
  apply htracked.set_of_call hcall (htracked.wellFormed.edits_store hfound _) (.inr ⟨rfl, hfound⟩)
  intro users readers writers husers hreaders hwriters
  obtain ⟨hpos, href, hserves⟩ := htracked.served hcall
  simp only [hview, Turn.map, uses_waiting, if_true, Nat.add_right_cancel_iff]
    at husers hreaders hwriters
  subst husers hreaders hwriters
  exact ⟨hpos, href, hserves.refused hlocked⟩

theorem timesOut (hwaiting : s.callers t = .waiting attempt) :
    Tracked (s.set s.locks t (.leaving attempt)) := by
  have hcall : (s.callers t).call? = some attempt := by rw [hwaiting, Turn.call?]
  have hview : s.view t = .waiting attempt.call := by rw [Namespace.view, hwaiting, Turn.map]
  have hfound := htracked.found t attempt hcall
  apply htracked.set_of_call hcall (htracked.wellFormed.edits_refl _) (.inr ⟨rfl, hfound⟩)
  intro users readers writers husers hreaders hwriters
  have hcounts := htracked.counts attempt.call.resource
  simp only [hview, Turn.map, uses_leaving, holds_waiting, holds_leaving, if_true, if_false,
    Nat.add_zero, Nat.add_right_cancel_iff] at husers hreaders hwriters
  subst husers hreaders hwriters
  exact hcounts

theorem dropRef (hleaving : s.callers t = .leaving attempt) :
    ∃ locks, s.locks.dropRef attempt.call.resource = .ok locks ∧
      Tracked (s.set locks t .idle) := by
  have hcall : (s.callers t).call? = some attempt := by rw [hleaving, Turn.call?]
  have hview : s.view t = .leaving attempt.call := by rw [Namespace.view, hleaving, Turn.map]
  obtain ⟨hpos, href, hserves⟩ := htracked.served hcall
  obtain ⟨rest, hrest⟩ := Nat.exists_eq_add_one.mpr hpos
  rw [hrest, Int.natCast_succ] at href
  obtain ⟨locks, hdrop, hedits⟩ :=
    htracked.wellFormed.dropRef (htracked.found t attempt hcall) href
  refine ⟨locks, hdrop, htracked.set_of_call hcall hedits (.inl rfl) ?_⟩
  intro users readers writers husers hreaders hwriters
  simp only [hview, Turn.map, uses_idle, holds_leaving, holds_idle, if_false, Nat.add_zero, hrest,
    Nat.add_right_cancel_iff] at husers hreaders hwriters
  subst husers hreaders hwriters
  split
  next hlast => exact hlast
  next hmore => exact ⟨Nat.pos_of_ne_zero hmore, rfl, hserves⟩

/-- A caller that holds a lock can always release it. -/
theorem unlock {attempt : LockAttempt} (hholding : s.callers t = .holding attempt) :
    ∃ locks, s.locks.unlock attempt.call.resource attempt.call.readLock = .ok locks ∧
      Tracked (s.set locks t .idle) := by
  have hcall : (s.callers t).call? = some attempt := by rw [hholding, Turn.call?]
  have hview : s.view t = .holding attempt.call := by rw [Namespace.view, hholding, Turn.map]
  obtain ⟨hpos, href, hserves⟩ := htracked.served hcall
  obtain ⟨rest, hrest⟩ := Nat.exists_eq_add_one.mpr hpos
  rw [hrest, Int.natCast_succ] at href
  -- The lock is held by those that still hold it afterwards, and by this caller.
  have hheld : ∀ readLock, population (Holds attempt.call.resource readLock) s.view =
      population (Holds attempt.call.resource readLock) (s.set s.locks t .idle).view +
        if attempt.call.readLock = readLock then 1 else 0 := by
    intro readLock
    have hchange := s.population_set (Holds attempt.call.resource readLock) s.locks t .idle
    simp only [hview, Turn.map, holds_holding, holds_idle, true_and, if_false,
      Nat.add_zero] at hchange
    exact hchange.symm
  rw [Namespace.readers, Namespace.writers, hheld true, hheld false] at hserves
  obtain ⟨hunlocked, hafter⟩ := LRWMutex.Serves.unlock attempt.call.readLock hserves
  obtain ⟨locks, hunlock, hedits⟩ :=
    htracked.wellFormed.unlock (htracked.found t attempt hcall) href hunlocked
  refine ⟨locks, hunlock, htracked.set_of_call hcall hedits (.inl rfl) ?_⟩
  intro users readers writers husers hreaders hwriters
  simp only [hview, Turn.map, uses_idle, holds_holding, holds_idle, true_and, if_false,
    Nat.add_zero, hrest, Nat.add_right_cancel_iff, Namespace.readers, Namespace.writers, hheld]
    at husers hreaders hwriters
  subst husers hreaders hwriters
  split
  next hlast => exact hlast
  next hmore => exact ⟨Nat.pos_of_ne_zero hmore, rfl, hafter⟩

end

end Tracked

end Fs3

/-! ## The lock map as a lock service

Every step of a caller is a step of the readers-writer lock service, and what
the service allows, the lock map can do. A call that times out is therefore as
good as not made.
-/

namespace Fs3

open Foundation

variable {τ : Type} [Fintype τ] [DecidableEq τ] {s s' : Namespace τ}

namespace Tracked

theorem step (htracked : Tracked s) {t : τ} (hstep : Namespace.Step t s s') : Tracked s' := by
  cases hstep with
  | enter call hidle => exact htracked.enter hidle call
  | acquires attempt hwaiting hlocked => exact htracked.acquires hwaiting hlocked
  | retries attempt hwaiting hlocked =>
    have hafter := htracked.retries hwaiting hlocked
    rwa [Namespace.set, ← hwaiting, Function.update_eq_self] at hafter
  | timesOut attempt hwaiting => exact htracked.timesOut hwaiting
  | leaves attempt hleaving locks hdrop =>
    obtain ⟨locks', hdrop', hafter⟩ := htracked.dropRef hleaving
    rw [hdrop] at hdrop'
    cases hdrop'
    exact hafter
  | unlock attempt hholding locks hunlock =>
    obtain ⟨locks', hunlock', hafter⟩ := htracked.unlock hholding
    rw [hunlock] at hunlock'
    cases hunlock'
    exact hafter

theorem of_reachable (hreach : s.Reachable) : Tracked s :=
  hreach.invariant (fun _ _ htracked hstep => hstep.elim fun _ => htracked.step) tracked_initial

theorem service_step (htracked : Tracked s) {t : τ} (hstep : Namespace.Step t s s') :
    namespaceLocks.Step t s.view s'.view := by
  cases hstep with
  | enter call hidle =>
    rw [Namespace.view_set]
    exact .asks call (by rw [Namespace.view, hidle, Turn.map])
  | acquires attempt hwaiting hlocked =>
    have hcall : (s.callers t).call? = some attempt := by rw [hwaiting, Turn.call?]
    rw [Namespace.view_set]
    exact .granted attempt.call (by rw [Namespace.view, hwaiting, Turn.map])
      ((htracked.tryLock_iff hcall).mp hlocked)
  | retries attempt hwaiting hlocked =>
    have hcall : (s.callers t).call? = some attempt := by rw [hwaiting, Turn.call?]
    refine .refused attempt.call (by rw [Namespace.view, hwaiting, Turn.map]) fun hfree => ?_
    rw [(htracked.tryLock_iff hcall).mpr hfree] at hlocked
    cases hlocked
  | timesOut attempt hwaiting =>
    rw [Namespace.view_set]
    exact .givesUp attempt.call (by rw [Namespace.view, hwaiting, Turn.map])
  | leaves attempt hleaving locks hdrop =>
    rw [Namespace.view_set]
    exact .leaves attempt.call (by rw [Namespace.view, hleaving, Turn.map])
  | unlock attempt hholding locks hunlock =>
    rw [Namespace.view_set]
    exact .releases attempt.call (by rw [Namespace.view, hholding, Turn.map])

theorem exists_step (htracked : Tracked s) {t : τ} {turns : τ → Turn LockCall}
    (hstep : namespaceLocks.Step t s.view turns) :
    ∃ s', Namespace.Step t s s' ∧ s'.view = turns := by
  cases hstep with
  | asks call hidle => exact ⟨_, .enter call (Turn.map_eq_idle.mp hidle), Namespace.view_set _ t _⟩
  | granted call hwaiting hfree =>
    obtain ⟨attempt, hturn, rfl⟩ := Turn.map_eq_waiting.mp hwaiting
    have hcall : (s.callers t).call? = some attempt := by rw [hturn, Turn.call?]
    exact ⟨_, .acquires attempt hturn ((htracked.tryLock_iff hcall).mpr hfree),
      Namespace.view_set _ t _⟩
  | refused call hwaiting hbusy =>
    obtain ⟨attempt, hturn, rfl⟩ := Turn.map_eq_waiting.mp hwaiting
    have hcall : (s.callers t).call? = some attempt := by rw [hturn, Turn.call?]
    refine ⟨_, .retries attempt hturn ?_, rfl⟩
    rw [← Bool.not_eq_true, htracked.tryLock_iff hcall]
    exact hbusy
  | givesUp call hwaiting =>
    obtain ⟨attempt, hturn, rfl⟩ := Turn.map_eq_waiting.mp hwaiting
    exact ⟨_, .timesOut attempt hturn, Namespace.view_set _ t _⟩
  | leaves call hleaving =>
    obtain ⟨attempt, hturn, rfl⟩ := Turn.map_eq_leaving.mp hleaving
    obtain ⟨locks, hdrop, _⟩ := htracked.dropRef hturn
    exact ⟨_, .leaves attempt hturn locks hdrop, Namespace.view_set _ t _⟩
  | releases call hholding =>
    obtain ⟨attempt, hturn, rfl⟩ := Turn.map_eq_holding.mp hholding
    obtain ⟨locks, hunlock, _⟩ := htracked.unlock hturn
    exact ⟨_, .unlock attempt hturn locks hunlock, Namespace.view_set _ t _⟩

end Tracked

def NsLock.anonymous (lock : NsLock) : NsLock :=
  { lock with mutex := { lock.mutex with id := "", source := "" } }

namespace Namespace

/-- Two states with the same callers, where every path has an entry in both or
in neither, and the same one but for the note of who tried last. -/
structure SameLocks (s s' : Namespace τ) : Prop where
  view : s.view = s'.view
  entries : ∀ resource,
    (s.locks.entry resource).map NsLock.anonymous = (s'.locks.entry resource).map NsLock.anonymous

def Unserved (t : τ) (s s' : Namespace τ) : Prop :=
  (∃ u, Step u s s') ∧ ∀ attempt, s'.callers t ≠ .holding attempt

def Others (t : τ) (s s' : Namespace τ) : Prop := ∃ u, u ≠ t ∧ Step u s s'

end Namespace

theorem Counts.anonymous_eq {lock? other? : Option NsLock} {users readers writers : Nat}
    (hlock : Counts lock? users readers writers) (hother : Counts other? users readers writers) :
    lock?.map NsLock.anonymous = other?.map NsLock.anonymous := by
  cases lock? with
  | none =>
    cases other? with
    | none => rfl
    | some other => exact absurd hother.1 (Nat.ne_of_gt · hlock)
  | some lock =>
    cases other? with
    | none => exact absurd hlock.1 (Nat.ne_of_gt · hother)
    | some other =>
      obtain ⟨_, href, hserves⟩ := hlock
      obtain ⟨_, href', hserves'⟩ := hother
      simp only [Option.map_some, NsLock.anonymous, href, href', hserves.ref, hserves'.ref,
        hserves.writing, hserves'.writing]

omit [DecidableEq τ] in
theorem Tracked.sameLocks (htracked : Tracked s) (htracked' : Tracked s')
    (hview : s.view = s'.view) : s.SameLocks s' where
  view := hview
  entries := by
    intro resource
    have hcounts := htracked.counts resource
    unfold Namespace.users Namespace.readers Namespace.writers at hcounts
    rw [hview] at hcounts
    exact hcounts.anonymous_eq (htracked'.counts resource)

theorem Tracked.exists_runs (htracked : Tracked s) {t : τ} {turns : τ → Turn LockCall}
    (hruns : Runs (namespaceLocks.Others t) s.view turns) :
    ∃ s', Runs (Namespace.Others t) s s' ∧ s'.view = turns ∧ Tracked s' := by
  induction hruns with
  | refl => exact ⟨s, .refl, rfl, htracked⟩
  | tail _ hlast ih =>
    obtain ⟨middle, hruns, rfl, hmiddle⟩ := ih
    obtain ⟨u, hne, hstep⟩ := hlast
    obtain ⟨last, hstep, hview⟩ := hmiddle.exists_step hstep
    exact ⟨last, hruns.tail ⟨u, hne, hstep⟩, hview, hmiddle.step hstep⟩

theorem Tracked.service_runs (htracked : Tracked s) {t : τ}
    (hruns : Runs (Namespace.Unserved t) s s') :
    Runs (namespaceLocks.Unserved t) s.view s'.view ∧ Tracked s' := by
  induction hruns with
  | refl => exact ⟨.refl, htracked⟩
  | @tail middle last _ hlast ih =>
    obtain ⟨hruns, hmiddle⟩ := ih
    obtain ⟨⟨u, hstep⟩, hunserved⟩ := hlast
    refine ⟨hruns.tail ⟨u, hmiddle.service_step hstep, ?_⟩, hmiddle.step hstep⟩
    cases hheld : (last.view t).held? with
    | none => rfl
    | some call =>
      obtain ⟨attempt, hholding, _⟩ := Turn.map_eq_holding.mp (Turn.held?_eq_some.mp hheld)
      exact absurd hholding (hunserved attempt)

theorem Tracked.runs_without (htracked : Tracked s) {t : τ}
    (hruns : Runs (Namespace.Unserved t) s s') (hbefore : s.callers t = .idle)
    (hafter : s'.callers t = .idle) :
    ∃ s'', Runs (Namespace.Others t) s s'' ∧ s'.SameLocks s'' := by
  obtain ⟨hservice, htracked'⟩ := htracked.service_runs hruns
  have hidle : s.view t = .idle := Turn.map_eq_idle.mpr hbefore
  have hidle' : s'.view t = .idle := Turn.map_eq_idle.mpr hafter
  have hwithout := (LockService.runs_without hservice (by rw [hidle]; rfl)).1
  rw [LockService.without_of_idle hidle, LockService.without_of_idle hidle'] at hwithout
  obtain ⟨s'', hothers, hview, htracked''⟩ := htracked.exists_runs hwithout
  exact ⟨s'', hothers, htracked'.sameLocks htracked'' hview.symm⟩

/-- What the callers can rely on in every state. -/
structure Referenced (s : Namespace τ) : Prop where
  /-- The reference count is the number of callers that hold or wait for the lock. -/
  counted : ∀ resource lock, s.locks.entry resource = some lock → lock.ref = s.users resource
  positive : ∀ resource lock, s.locks.entry resource = some lock → 0 < lock.ref
  present : ∀ resource, s.locks.entry resource = none ↔ s.users resource = 0
  /-- All callers of a path wait for or hold the lock that its entry has now. -/
  sameLock : ∀ t attempt, (s.callers t).call? = some attempt →
    s.locks.lockMap attempt.call.resource = some attempt.nsLk
  /-- Where two callers hold the lock of one path, neither of them writes. -/
  excludes : ∀ t u attempt other, s.callers t = .holding attempt → s.callers u = .holding other →
    attempt.call.resource = other.call.resource → t ≠ u →
    attempt.call.readLock = true ∧ other.call.readLock = true
  dropRef_ok : ∀ t attempt, s.callers t = .leaving attempt →
    ∃ locks, s.locks.dropRef attempt.call.resource = .ok locks
  unlock_ok : ∀ t attempt, s.callers t = .holding attempt →
    ∃ locks, s.locks.unlock attempt.call.resource attempt.call.readLock = .ok locks

theorem excludes_of_reachable (hreach : s.Reachable) : namespaceLocks.Excludes s.view := by
  have hboth : Tracked s ∧ namespaceLocks.Excludes s.view := by
    apply hreach.invariant
    · rintro s s' ⟨htracked, hexcludes⟩ ⟨t, hstep⟩
      exact ⟨htracked.step hstep, hexcludes.step (htracked.service_step hstep)⟩
    · exact ⟨tracked_initial, fun _ _ _ _ h => nomatch h⟩
  exact hboth.2

theorem referenced_of_reachable (hreach : s.Reachable) : Referenced s := by
  have htracked := Tracked.of_reachable hreach
  have hentry : ∀ resource lock, s.locks.entry resource = some lock →
      0 < s.users resource ∧ lock.ref = s.users resource := by
    intro resource lock hlock
    have hcounts := htracked.counts resource
    rw [hlock] at hcounts
    exact ⟨hcounts.1, hcounts.2.1⟩
  constructor
  case counted => exact fun resource lock hlock => (hentry resource lock hlock).2
  case positive =>
    intro resource lock hlock
    obtain ⟨hpos, href⟩ := hentry resource lock hlock
    rw [href]
    exact Int.natCast_pos.mpr hpos
  case present =>
    intro resource
    constructor
    · intro hnone
      have hcounts := htracked.counts resource
      rwa [hnone] at hcounts
    · intro hzero
      cases hlock : s.locks.entry resource with
      | none => rfl
      | some lock => exact absurd hzero (Nat.ne_of_gt (hentry resource lock hlock).1)
  case sameLock => exact htracked.found
  case excludes =>
    intro t u attempt other ht hu hresource hne
    refine excludes_of_reachable hreach t u attempt.call other.call ?_ ?_ hresource hne
    · rw [Namespace.view, ht]
      rfl
    · rw [Namespace.view, hu]
      rfl
  case dropRef_ok =>
    intro t attempt hleaving
    obtain ⟨locks, hdrop, _⟩ := htracked.dropRef hleaving
    exact ⟨locks, hdrop⟩
  case unlock_ok =>
    intro t attempt hholding
    obtain ⟨locks, hunlock, _⟩ := htracked.unlock hholding
    exact ⟨locks, hunlock⟩

/-- In every state that can be reached the lock map accounts for its callers,
and a call that times out from there on leaves the locks as they would be
without it, but for the note of who tried last. -/
theorem lockMap_serves (hreach : s.Reachable) :
    Referenced s ∧ ∀ t s', Runs (Namespace.Unserved t) s s' → s.callers t = .idle →
      s'.callers t = .idle → ∃ s'', Runs (Namespace.Others t) s s'' ∧ s'.SameLocks s'' :=
  ⟨referenced_of_reachable hreach,
    fun _ _ hruns => (Tracked.of_reachable hreach).runs_without hruns⟩

def writing : Namespace Bool :=
  let call : LockCall :=
    { resource := "bucket/object", lockSource := "put", opsID := "1", readLock := false }
  let (locks, nsLk) := NsLockMap.enter {} call.resource
  { locks := (locks.tryLock nsLk call).1
    callers := Function.update (fun _ => .idle) false (.holding ⟨call, nsLk⟩) }

theorem writing_reachable : writing.Reachable := by
  have hwriting : writing = ((Namespace.initial.set (NsLockMap.enter {} "bucket/object").1 false
      (.waiting ⟨⟨"bucket/object", "put", "1", false⟩, 0⟩)).set writing.locks false
        (.holding ⟨⟨"bucket/object", "put", "1", false⟩, 0⟩)) := by
    unfold Namespace.set
    rw [Function.update_idem]
    rfl
  rw [hwriting]
  exact (Relation.ReflTransGen.single ⟨false, .enter ⟨"bucket/object", "put", "1", false⟩ rfl⟩).tail
    ⟨false, .acquires ⟨⟨"bucket/object", "put", "1", false⟩, 0⟩ rfl rfl⟩

theorem lockMap_serves_writing : Referenced writing ∧ ∀ t s',
    Runs (Namespace.Unserved t) writing s' → writing.callers t = .idle →
      s'.callers t = .idle → ∃ s'', Runs (Namespace.Others t) writing s'' ∧ s'.SameLocks s'' :=
  lockMap_serves writing_reachable

def givenUp : Namespace Bool :=
  let attempt : LockAttempt := ⟨⟨"bucket/object", "get", "2", true⟩, 0⟩
  let locks := (writing.locks.enter attempt.call.resource).1
  writing.set (locks.tryLock attempt.nsLk attempt.call).1 true (.leaving attempt)

theorem givenUp_runs : Runs (fun s s' => Namespace.Step true s s' ∧
    ∀ attempt, s'.callers true ≠ .holding attempt) writing givenUp := by
  let attempt : LockAttempt := ⟨⟨"bucket/object", "get", "2", true⟩, 0⟩
  let entered := writing.set (writing.locks.enter "bucket/object").1 true (.waiting attempt)
  let refused : Namespace Bool :=
    { entered with locks := (entered.locks.tryLock attempt.nsLk attempt.call).1 }
  have henter : Namespace.Step true writing entered := .enter attempt.call rfl
  have hretry : Namespace.Step true entered refused := .retries attempt rfl rfl
  have htimeout : Namespace.Step true refused givenUp := by
    have hgivenUp : givenUp = refused.set refused.locks true (.leaving attempt) := by
      simp only [refused, entered, Namespace.set, Function.update_idem]
      rfl
    rw [hgivenUp]
    exact .timesOut attempt rfl
  exact ((Relation.ReflTransGen.single ⟨henter, fun _ h => nomatch h⟩).tail
    ⟨hretry, fun _ h => nomatch h⟩).tail ⟨htimeout, fun _ h => nomatch h⟩

/-- A reader that times out leaves its id on the lock that another caller holds. -/
theorem timesOut_leaves_id : ¬ ∀ s s' : Namespace Bool, s.Reachable →
    Runs (fun s s' => Namespace.Step true s s' ∧ ∀ attempt, s'.callers true ≠ .holding attempt)
      s s' →
    s.callers true = .idle → s'.callers true = .idle → s'.locks.entry = s.locks.entry := by
  intro hclaim
  obtain ⟨locks, hdrop, hentry⟩ : ∃ locks, givenUp.locks.dropRef "bucket/object" = .ok locks ∧
      locks.entry "bucket/object" ≠ writing.locks.entry "bucket/object" :=
    ⟨_, rfl, by decide⟩
  have hleaves : Namespace.Step true givenUp (givenUp.set locks true .idle) :=
    .leaves ⟨⟨"bucket/object", "get", "2", true⟩, 0⟩ rfl locks hdrop
  have hruns := givenUp_runs.tail ⟨hleaves, fun _ h => nomatch h⟩
  exact hentry (congrFun (hclaim writing _ writing_reachable hruns rfl rfl) "bucket/object")

end Fs3
