import Mathlib.Data.List.Perm.Basic

/-! # One attempt to get a lock

An attempt asks all lockers at once and collects their answers as they come, up to the timeout. -/

namespace Fs3.LockAttempt

/-- What a locker answers to a request. -/
structure LockerAnswer where
  locked : Bool
  err : Option String := none
  deriving DecidableEq

/-- What the goroutine of a locker sends on the channel. -/
structure Granted where
  index : Nat
  lockUID : String
  deriving DecidableEq

def isLocked (uid : String) : Bool := decide (0 < uid.length)

/-- The lockers with their answers, nil lockers among them. -/
abbrev Lockers := List (Option LockerAnswer)

def grants : Option LockerAnswer → Bool
  | none => false
  | some answer => answer.locked

def granted (id : String) (lockers : Lockers) (index : Nat) : Granted where
  index := index
  lockUID := if grants (lockers[index]?).join then id else ""

/-- What the collector sees next. -/
inductive Arrival where
  | answer (index : Nat)
  | timeout
  deriving DecidableEq

def marked (id : String) (lockers : Lockers) : Arrival → Option Nat
  | .answer index => if isLocked (granted id lockers index).lockUID then some index else none
  | .timeout => none

/-- What has been collected at the decision, and what comes after it. -/
structure Collected where
  locks : List String
  locksFailed : Nat
  late : List Arrival
  deriving DecidableEq

def collect (id : String) (lockers : Lockers) (tolerance : Nat) :
    Nat → List String → Nat → List Arrival → Collected
  | 0, locks, locksFailed, arrivals => ⟨locks, locksFailed, arrivals⟩
  | _ + 1, locks, locksFailed, [] => ⟨locks, locksFailed, []⟩
  | more + 1, locks, locksFailed, arrival :: arrivals =>
    match marked id lockers arrival with
    | some index => collect id lockers tolerance more (locks.set index id) locksFailed arrivals
    | none =>
      if tolerance < locksFailed + 1 then ⟨locks, locksFailed + 1, arrivals⟩
      else collect id lockers tolerance more locks (locksFailed + 1) arrivals

def checkQuorumLocked (locks : List String) (quorum : Nat) : Bool :=
  decide (quorum ≤ locks.countP isLocked)

/-- `releaseAll`: a mark is taken away when its locker acknowledges the release. -/
def releaseAll (release : Nat → Bool) (locks : List String) : List String :=
  locks.mapIdx fun index uid => if isLocked uid && release index then "" else uid

/-- How an attempt ends: its result, the marks that are left, the releases that were sent
and whether they were acknowledged, and what came after the decision. -/
structure Outcome where
  locked : Bool
  locks : List String
  releases : List (Nat × Bool)
  late : List Arrival
  deriving DecidableEq

/-- `lock`; `release` says which lockers acknowledge a release. -/
def lock (lockers : Lockers) (release : Nat → Bool) (id : String) (tolerance quorum : Nat)
    (arrivals : List Arrival) : Outcome :=
  let collected :=
    collect id lockers tolerance lockers.length (lockers.map fun _ => "") 0 arrivals
  let quorumLocked :=
    checkQuorumLocked collected.locks quorum && decide (collected.locksFailed ≤ tolerance)
  let acquired := (List.range lockers.length).filter fun index =>
    isLocked (collected.locks.getD index "")
  let abandoned := collected.late.filterMap (marked id lockers)
  { locked := quorumLocked
    locks := if quorumLocked then collected.locks else releaseAll release collected.locks
    releases := ((if quorumLocked then [] else acquired) ++ abandoned).map fun index =>
      (index, release index)
    late := collected.late }

def Answered (lockers : Lockers) (arrivals : List Arrival) : Prop :=
  (arrivals.filter (· ≠ .timeout)).Perm ((List.range lockers.length).map .answer)

instance (lockers : Lockers) (arrivals : List Arrival) : Decidable (Answered lockers arrivals) :=
  inferInstanceAs (Decidable (List.Perm _ _))

/-! ## What is collected -/

section Collecting

variable {id : String} {lockers : Lockers} {tolerance quorum : Nat} {arrivals : List Arrival}

theorem isLocked_iff {uid : String} : isLocked uid = true ↔ uid ≠ "" := by
  rw [isLocked, decide_eq_true_iff, Nat.pos_iff_ne_zero, ne_eq, String.length_eq_zero_iff]

def marks (id : String) (lockers : Lockers) (seen : List Arrival) : List String :=
  lockers.mapIdx fun index locker => if .answer index ∈ seen ∧ grants locker then id else ""

theorem marked_answer (hid : id ≠ "") {index : Nat} :
    marked id lockers (.answer index) =
      if grants (lockers[index]?).join then some index else none := by
  rw [marked, granted]
  cases grants (lockers[index]?).join with
  | true => rw [if_pos rfl, if_pos (isLocked_iff.mpr hid), if_pos rfl]
  | false => rfl

theorem marked_eq_some (hid : id ≠ "") {arrival : Arrival} {index : Nat}
    (h : marked id lockers arrival = some index) :
    arrival = .answer index ∧ grants (lockers[index]?).join = true := by
  cases arrival with
  | timeout => cases h
  | answer i =>
    rw [marked_answer hid] at h
    split at h
    next hgrants =>
      cases h
      exact ⟨rfl, hgrants⟩
    next => cases h

@[simp]
theorem length_marks (seen : List Arrival) : (marks id lockers seen).length = lockers.length := by
  rw [marks, List.length_mapIdx]

theorem marks_getElem? (seen : List Arrival) (index : Nat) :
    (marks id lockers seen)[index]? =
      lockers[index]?.map fun locker =>
        if .answer index ∈ seen ∧ grants locker then id else "" := by
  rw [marks, List.getElem?_mapIdx]

theorem marks_nil : marks id lockers [] = lockers.map fun _ => "" := by
  refine List.ext_getElem? fun index => ?_
  rw [marks_getElem?, List.getElem?_map]
  cases lockers[index]? with
  | none => rfl
  | some locker => simp

theorem marks_grant {seen : List Arrival} {index : Nat}
    (hgrants : grants (lockers[index]?).join = true) :
    (marks id lockers seen).set index id = marks id lockers (seen ++ [.answer index]) := by
  refine List.ext_getElem? fun i => ?_
  rw [List.getElem?_set, length_marks, marks_getElem?, marks_getElem?]
  split
  next hsame =>
    subst hsame
    split
    next hlt =>
      rw [List.getElem?_eq_getElem hlt] at hgrants ⊢
      have hgrants : grants lockers[index] = true := hgrants
      rw [Option.map_some, if_pos ⟨List.mem_append_right _ List.mem_cons_self, hgrants⟩]
    next hge =>
      rw [List.getElem?_eq_none (by omega), Option.map_none]
  next hother =>
    cases lockers[i]? with
    | none => rfl
    | some locker =>
      rw [Option.map_some, Option.map_some]
      simp [Ne.symm hother]

theorem marks_fail (hid : id ≠ "") {seen : List Arrival} {arrival : Arrival}
    (hfails : marked id lockers arrival = none) :
    marks id lockers (seen ++ [arrival]) = marks id lockers seen := by
  refine List.ext_getElem? fun i => ?_
  rw [marks_getElem?, marks_getElem?]
  cases hlocker : lockers[i]? with
  | none => rfl
  | some locker =>
    rw [Option.map_some, Option.map_some]
    by_cases hsame : arrival = .answer i
    · subst hsame
      rw [marked_answer hid, hlocker] at hfails
      have hno : ¬ grants locker = true := by
        intro hgrants
        have hjoin : (some locker).join = locker := by cases locker <;> rfl
        rw [hjoin, if_pos hgrants] at hfails
        cases hfails
      rw [if_neg fun h => hno h.2, if_neg fun h => hno h.2]
    · simp [Ne.symm hsame]

def fails (id : String) (lockers : Lockers) (arrival : Arrival) : Bool :=
  (marked id lockers arrival).isNone

/-- What the loop has seen when it ends: what it has marked, how many have failed, and why
it has ended. -/
structure Decided (id : String) (lockers : Lockers) (tolerance more : Nat)
    (before seen arrivals : List Arrival) (locksFailed : Nat) (collected : Collected) : Prop where
  arrivals : arrivals = seen ++ collected.late
  locks : collected.locks = marks id lockers (before ++ seen)
  locksFailed : collected.locksFailed =
    locksFailed + seen.countP (fails id lockers)
  ended : tolerance < collected.locksFailed ∨ seen.length = more ∨ collected.late = []

theorem decided_collect (hid : id ≠ "") (more : Nat) (before arrivals : List Arrival)
    (locksFailed : Nat) :
    ∃ seen, Decided id lockers tolerance more before seen arrivals locksFailed
      (collect id lockers tolerance more (marks id lockers before) locksFailed arrivals) := by
  induction more generalizing before arrivals locksFailed with
  | zero =>
    rw [collect]
    exact ⟨[], rfl, by rw [List.append_nil], rfl, Or.inr (Or.inl rfl)⟩
  | succ more ih =>
    cases arrivals with
    | nil =>
      rw [collect]
      exact ⟨[], rfl, by rw [List.append_nil], rfl, Or.inr (Or.inr rfl)⟩
    | cons arrival arrivals =>
      rw [collect]
      split
      next index hmarked =>
        obtain ⟨rfl, hgrants⟩ := marked_eq_some hid hmarked
        rw [marks_grant hgrants]
        obtain ⟨seen, hdecided⟩ := ih (before ++ [.answer index]) arrivals locksFailed
        refine ⟨.answer index :: seen, ?_, ?_, ?_, ?_⟩
        · rw [List.cons_append, ← hdecided.arrivals]
        · rw [hdecided.locks, List.append_assoc, List.singleton_append]
        · rw [hdecided.locksFailed, List.countP_cons_of_neg]
          rw [fails, hmarked]
          exact Bool.false_ne_true
        · rcases hdecided.ended with hfailed | hall | hlate
          · exact Or.inl hfailed
          · exact Or.inr (Or.inl (congrArg (· + 1) hall))
          · exact Or.inr (Or.inr hlate)
      next hmarked =>
        have hnone : fails id lockers arrival = true := by
          rw [fails, hmarked]
          rfl
        split
        next hmany =>
          refine ⟨[arrival], rfl, ?_, ?_, Or.inl hmany⟩
          · exact (marks_fail hid hmarked).symm
          · rw [List.countP_cons_of_pos hnone, List.countP_nil]
        next =>
          rw [← marks_fail hid hmarked]
          obtain ⟨seen, hdecided⟩ := ih (before ++ [arrival]) arrivals (locksFailed + 1)
          refine ⟨arrival :: seen, ?_, ?_, ?_, ?_⟩
          · rw [List.cons_append, ← hdecided.arrivals]
          · rw [hdecided.locks, List.append_assoc, List.singleton_append]
          · rw [hdecided.locksFailed, List.countP_cons_of_pos hnone]
            omega
          · rcases hdecided.ended with hfailed | hall | hlate
            · exact Or.inl hfailed
            · exact Or.inr (Or.inl (congrArg (· + 1) hall))
            · exact Or.inr (Or.inr hlate)

theorem decided_lock (hid : id ≠ "") (arrivals : List Arrival) :
    ∃ seen, Decided id lockers tolerance lockers.length [] seen arrivals 0
      (collect id lockers tolerance lockers.length (lockers.map fun _ => "") 0 arrivals) := by
  rw [← @marks_nil id]
  exact decided_collect hid _ _ _ _

/-! ## The decision -/

theorem countP_mapIdx_le {α β : Type*} {f : Nat → α → β} {p : β → Bool} {q : α → Bool}
    (himp : ∀ i x, p (f i x) = true → q x = true) (xs : List α) :
    (xs.mapIdx f).countP p ≤ xs.countP q := by
  induction xs generalizing f with
  | nil => exact Nat.le_refl _
  | cons x xs ih =>
    have hrest := ih fun i => himp (i + 1)
    rw [List.mapIdx_cons, List.countP_cons, List.countP_cons]
    split
    next hp =>
      rw [if_pos (himp 0 x hp)]
      exact Nat.succ_le_succ hrest
    next => exact Nat.le_add_right_of_le hrest

theorem countP_marks_le (seen : List Arrival) :
    (marks id lockers seen).countP isLocked ≤ lockers.countP grants := by
  refine countP_mapIdx_le ?_ lockers
  intro index locker hlocked
  split at hlocked
  next hgrants => exact hgrants.2
  next => cases hlocked

theorem countP_range_getElem? {α : Type*} (p : Option α → Bool) (xs : List (Option α)) :
    (List.range xs.length).countP (fun i => p (xs[i]?).join) = xs.countP p := by
  induction xs with
  | nil => rfl
  | cons x xs ih =>
    have hjoin : (some x).join = x := by cases x <;> rfl
    rw [List.length_cons, List.range_succ_eq_map, List.countP_cons, List.countP_map,
      List.countP_cons, ← ih, List.getElem?_cons_zero, hjoin]
    rfl

theorem countP_answers (hid : id ≠ "") :
    ((List.range lockers.length).map Arrival.answer).countP (fails id lockers) =
      lockers.countP fun locker => !grants locker := by
  rw [List.countP_map, ← countP_range_getElem?]
  congr 1
  funext i
  rw [Function.comp_apply, fails, marked_answer hid]
  cases grants (lockers[i]?).join <;> rfl

theorem filter_ne_timeout (htime : Arrival.timeout ∉ arrivals) :
    arrivals.filter (· ≠ .timeout) = arrivals := by
  refine List.filter_eq_self.mpr fun arrival hmem => decide_eq_true ?_
  rintro rfl
  exact htime hmem

theorem countP_marks_of_answered (hid : id ≠ "")
    (hall : ∀ index < lockers.length, Arrival.answer index ∈ arrivals) :
    (marks id lockers arrivals).countP isLocked = lockers.countP grants := by
  have hmarks : marks id lockers arrivals =
      lockers.map fun locker => if grants locker then id else "" := by
    refine List.ext_getElem? fun index => ?_
    rw [marks_getElem?, List.getElem?_map]
    cases hlocker : lockers[index]? with
    | none => rfl
    | some locker =>
      have hmem := hall index (List.getElem?_eq_some_iff.mp hlocker).1
      simp only [Option.map_some, and_iff_right hmem]
  rw [hmarks, List.countP_map]
  congr 1
  funext locker
  rw [Function.comp_apply]
  cases hgrants : grants locker with
  | true => exact isLocked_iff.mpr hid
  | false => rfl

/-- Where all answers come in time, the attempt gets the lock if enough lockers grant it
and not too many do not. -/
theorem lock_locked (hid : id ≠ "") (release : Nat → Bool) (hall : Answered lockers arrivals)
    (htime : .timeout ∉ arrivals) :
    (lock lockers release id tolerance quorum arrivals).locked =
      (decide (quorum ≤ lockers.countP grants) &&
        decide ((lockers.countP fun locker => !grants locker) ≤ tolerance)) := by
  rw [Answered, filter_ne_timeout htime] at hall
  have hfails := hall.countP_eq (fails id lockers)
  rw [countP_answers hid] at hfails
  obtain ⟨seen, hdecided⟩ := @decided_lock id lockers tolerance hid arrivals
  unfold lock
  dsimp only
  generalize collect id lockers tolerance lockers.length (lockers.map fun _ => "") 0 arrivals =
    collected at hdecided
  have hcount := hdecided.locksFailed
  rw [Nat.zero_add] at hcount
  by_cases hmany : tolerance < collected.locksFailed
  · have hle : seen.countP (fails id lockers) ≤ arrivals.countP (fails id lockers) := by
      rw [hdecided.arrivals, List.countP_append]
      exact Nat.le_add_right _ _
    have hover : ¬ lockers.countP (fun locker => !grants locker) ≤ tolerance := by omega
    rw [decide_eq_false (Nat.not_le.mpr hmany), decide_eq_false hover, Bool.and_false,
      Bool.and_false]
  · have hlate : collected.late = [] := by
      rcases hdecided.ended with hfailed | hseen | hlate
      · exact absurd hfailed hmany
      · have hlength := hall.length_eq
        rw [List.length_map, List.length_range, hdecided.arrivals, List.length_append] at hlength
        exact List.eq_nil_of_length_eq_zero (by omega)
      · exact hlate
    have hseen : arrivals = seen := by
      rw [hdecided.arrivals, hlate, List.append_nil]
    have hmarks : collected.locks.countP isLocked = lockers.countP grants := by
      rw [hdecided.locks, List.nil_append, ← hseen]
      refine countP_marks_of_answered hid fun index hlt => ?_
      exact hall.mem_iff.mpr (List.mem_map_of_mem (List.mem_range.mpr hlt))
    rw [checkQuorumLocked, hmarks, ← hfails, hcount, ← hseen]

theorem releaseAll_getElem? (release : Nat → Bool) (locks : List String) (index : Nat) :
    (releaseAll release locks)[index]? =
      locks[index]?.map fun uid => if isLocked uid && release index then "" else uid := by
  rw [releaseAll, List.getElem?_mapIdx]

end Collecting

/-- What a grant comes to when the attempt does not get the lock: one that came before the
decision is released or still marked, and one that came after it is sent a release. -/
def Outcome.Accounted (outcome : Outcome) (release : Nat → Bool) (id : String) (index : Nat) :
    Prop :=
  (Arrival.answer index ∉ outcome.late →
    (index, true) ∈ outcome.releases ∨ outcome.locks[index]? = some id) ∧
  (Arrival.answer index ∈ outcome.late → (index, release index) ∈ outcome.releases)

theorem accounted_lock {id : String} {lockers : Lockers} {release : Nat → Bool}
    {tolerance quorum : Nat} {arrivals : List Arrival} (hid : id ≠ "")
    (hall : Answered lockers arrivals)
    (hfailed : (lock lockers release id tolerance quorum arrivals).locked = false) {index : Nat}
    (hgrants : grants (lockers[index]?).join = true) :
    (lock lockers release id tolerance quorum arrivals).Accounted release id index := by
  obtain ⟨seen, hdecided⟩ := @decided_lock id lockers tolerance hid arrivals
  obtain ⟨locker, hlocker⟩ : ∃ locker, lockers[index]? = some locker := by
    cases hlocker : lockers[index]? with
    | none =>
      rw [hlocker] at hgrants
      cases hgrants
    | some locker => exact ⟨locker, rfl⟩
  have hlt := (List.getElem?_eq_some_iff.mp hlocker).1
  have hlockerGrants : grants locker = true := by
    rw [hlocker] at hgrants
    cases locker <;> exact hgrants
  unfold lock at hfailed ⊢
  dsimp only [Outcome.Accounted] at hfailed ⊢
  generalize collect id lockers tolerance lockers.length (lockers.map fun _ => "") 0 arrivals =
    collected at hdecided hfailed ⊢
  rw [hfailed, if_neg Bool.false_ne_true, if_neg Bool.false_ne_true]
  refine ⟨fun hbefore => ?_, fun hlate => ?_⟩
  · have hseen : Arrival.answer index ∈ seen := by
      have hmem : Arrival.answer index ∈ arrivals := by
        have hanswer := hall.mem_iff.mpr (List.mem_map_of_mem (List.mem_range.mpr hlt))
        exact (List.mem_filter.mp hanswer).1
      rw [hdecided.arrivals] at hmem
      exact (List.mem_append.mp hmem).resolve_right hbefore
    have hmark : collected.locks[index]? = some id := by
      rw [hdecided.locks, marks_getElem?, hlocker, Option.map_some, List.nil_append,
        if_pos ⟨hseen, hlockerGrants⟩]
    cases hrelease : release index with
    | true =>
      left
      refine List.mem_map.mpr ⟨index, List.mem_append_left _ ?_, by rw [hrelease]⟩
      refine List.mem_filter.mpr ⟨List.mem_range.mpr hlt, ?_⟩
      rw [List.getD_eq_getElem?_getD, hmark, Option.getD_some]
      exact isLocked_iff.mpr hid
    | false =>
      right
      rw [releaseAll_getElem?, hmark, Option.map_some, hrelease, Bool.and_false,
        if_neg Bool.false_ne_true]
  · refine List.mem_map.mpr ⟨index, List.mem_append_right _ ?_, rfl⟩
    refine List.mem_filterMap.mpr ⟨_, hlate, ?_⟩
    rw [marked_answer hid, if_pos hgrants]

/-- An attempt that gets the lock has a quorum of grants, one that does not accounts for
every grant, and where all answers come in time their order does not matter. -/
theorem lock_outcome {id : String} (hid : id ≠ "") (lockers : Lockers) (release : Nat → Bool)
    (tolerance quorum : Nat) {arrivals : List Arrival} (hall : Answered lockers arrivals) :
    ((lock lockers release id tolerance quorum arrivals).locked = true →
      quorum ≤ lockers.countP grants) ∧
    ((lock lockers release id tolerance quorum arrivals).locked = false →
      ∀ index, grants (lockers[index]?).join = true →
        (lock lockers release id tolerance quorum arrivals).Accounted release id index) ∧
    (.timeout ∉ arrivals → ∀ arrivals', Answered lockers arrivals' → .timeout ∉ arrivals' →
      (lock lockers release id tolerance quorum arrivals').locked =
        (lock lockers release id tolerance quorum arrivals).locked) := by
  refine ⟨fun hlocked => ?_, fun hfailed index hgrants => accounted_lock hid hall hfailed hgrants,
    fun htime arrivals' hall' htime' => ?_⟩
  · obtain ⟨seen, hdecided⟩ := @decided_lock id lockers tolerance hid arrivals
    have hquorum := of_decide_eq_true (Bool.and_eq_true_iff.mp hlocked).1
    rw [hdecided.locks] at hquorum
    exact Nat.le_trans hquorum (countP_marks_le _)
  · rw [lock_locked hid release hall' htime', lock_locked hid release hall htime]

/-- Two lockers reject the lock, and the third one grants it too late. -/
theorem lateGrant_outcome :
    (lock [some ⟨false, none⟩, some ⟨false, none⟩, some ⟨true, none⟩] (fun _ => true) "id" 1 2
        [.answer 0, .answer 1, .answer 2]).Accounted (fun _ => true) "id" 2 :=
  (@lock_outcome "id" (by decide) [some ⟨false, none⟩, some ⟨false, none⟩, some ⟨true, none⟩]
    (fun _ => true) 1 2 [.answer 0, .answer 1, .answer 2] (by decide)).2.1 (by decide) 2 rfl

/-- The release of a late grant is not repeated: where it fails, the grant is neither
released nor marked. -/
theorem lateGrant_forgotten :
    Answered [some ⟨false, none⟩, some ⟨false, none⟩, some ⟨true, none⟩]
      [.answer 0, .answer 1, .answer 2] ∧
    (let outcome := lock [some ⟨false, none⟩, some ⟨false, none⟩, some ⟨true, none⟩]
      (fun _ => false) "id" 1 2 [.answer 0, .answer 1, .answer 2]
    outcome.locked = false ∧ (2, true) ∉ outcome.releases ∧
      outcome.locks[2]? ≠ some "id") := by
  refine ⟨?_, ?_, ?_, ?_⟩ <;> decide

end Fs3.LockAttempt
