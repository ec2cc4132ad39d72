import Fs3.Lifecycle.Rule

/-! # What the lifecycle does to an object

The rules that are about an object are selected first and evaluated then, in their order: a rule
that deletes ends the evaluation, and of the others that want something the last one has its way.
-/

namespace Fs3.Lifecycle

inductive Action where
  | noneAction
  | deleteAction
  | deleteVersionAction
  | transitionAction
  | transitionVersionAction
  | deleteRestoredAction
  | deleteRestoredVersionAction
  deriving DecidableEq

def TransitionComplete : String := "complete"

/-- What is known of an object version when the rules are evaluated. -/
structure ObjectOpts where
  name : String
  userTags : String := ""
  modTime : Time
  versionID : String := ""
  isLatest : Bool := true
  deleteMarker : Bool := false
  numVersions : Int := 1
  successorModTime : Time := Time.zero
  transitionStatus : String := ""
  restoreExpires : Time := Time.zero
  remoteTiersImmediately : List String := []
  deriving DecidableEq

def ObjectOpts.expiredObjectDeleteMarker (obj : ObjectOpts) : Bool :=
  obj.deleteMarker && obj.numVersions == 1

def doesMatchDebugTiers (tier : String) (debugTiers : List String) : Bool :=
  debugTiers.any fun other => toUpper tier == toUpper other

def Rule.selections (rule : Rule) (obj : ObjectOpts) : List Rule :=
  if rule.status == Disabled then []
  else if !hasPrefix obj.name rule.getPrefix then []
  else if rule.expiration.deleteMarker.val then [rule]
  else if !rule.noncurrentVersionExpiration.isDaysNull then [rule]
  else if !rule.noncurrentVersionTransition.isDaysNull then [rule]
  else
    (if rule.filter.testTags (splitAll obj.userTags '&') then [rule] else []) ++
      if !rule.transition.isNull then [rule] else []

def filterActionableRules (lc : Lifecycle) (obj : ObjectOpts) : List Rule :=
  if obj.name == "" then [] else lc.rules.flatMap fun rule => rule.selections obj

/-- `ExpectedExpiryTime`: the midnight after so many days, which are counted in
nanoseconds of 64 bits. -/
def expectedExpiryTime (modTime : Time) (days : Int) : Time :=
  Time.truncateDay (modTime + wrap64 (wrap64 (wrap64 (days + 1) * 24) * Time.hour))

/-- What the evaluation of one rule leads to. -/
inductive Evaluation where
  | returns (action : Action)
  | goesOn (action : Action)
  deriving DecidableEq

section Evaluate

variable (rule : Rule) (obj : ObjectOpts) (now : Time)

def ObjectOpts.superseded : Bool :=
  obj.versionID != "" && !obj.isLatest && !obj.successorModTime.isZero

/-- Whether a rule removes a noncurrent version, or the delete marker that is left. -/
def Rule.expiresNoncurrent : Bool :=
  !rule.noncurrentVersionExpiration.isDaysNull &&
    ((obj.superseded && now > expectedExpiryTime obj.successorModTime
        rule.noncurrentVersionExpiration.noncurrentDays) ||
      (obj.versionID != "" && obj.expiredObjectDeleteMarker &&
        now > expectedExpiryTime obj.modTime rule.noncurrentVersionExpiration.noncurrentDays))

def Rule.transitionsNoncurrent : Bool :=
  !rule.noncurrentVersionTransition.isDaysNull &&
    (obj.superseded && !obj.deleteMarker && obj.transitionStatus != TransitionComplete) &&
      (now > expectedExpiryTime obj.successorModTime
          rule.noncurrentVersionTransition.noncurrentDays ||
        doesMatchDebugTiers rule.noncurrentVersionTransition.storageClass
          obj.remoteTiersImmediately)

def Rule.expires : Bool :=
  if !rule.expiration.isDateNull then now > rule.expiration.date
  else if !rule.expiration.isDaysNull then
    now > expectedExpiryTime obj.modTime rule.expiration.days
  else false

def Rule.transitionDue : Bool :=
  if !rule.transition.isDateNull then now > rule.transition.date
  else if !rule.transition.isDaysNull then
    now > expectedExpiryTime obj.modTime rule.transition.days
  else false

/-- The temporary copy of a transitioned object is removed when its time is over. -/
def ObjectOpts.restored (action : Action) : Action :=
  if !obj.restoreExpires.isZero && now > obj.restoreExpires then
    if obj.versionID != "" then .deleteRestoredVersionAction else .deleteRestoredAction
  else action

/-- One round of the loop of `ComputeAction`. -/
def Rule.evaluate (action : Action) : Evaluation :=
  if obj.expiredObjectDeleteMarker && rule.expiration.deleteMarker.val then
    .returns .deleteVersionAction
  else if rule.expiresNoncurrent obj now then .returns .deleteVersionAction
  else if rule.transitionsNoncurrent obj now then .returns .transitionVersionAction
  else if obj.versionID == "" || obj.isLatest && !obj.deleteMarker then
    if rule.expires obj now then .returns .deleteAction
    else
      let action :=
        if obj.transitionStatus != TransitionComplete then
          let action := if rule.transitionDue obj now then .transitionAction else action
          let action :=
            if !rule.transition.isNull &&
                doesMatchDebugTiers rule.transition.storageClass obj.remoteTiersImmediately then
              .transitionAction
            else action
          obj.restored now action
        else action
      .goesOn (obj.restored now action)
  else .goesOn action

end Evaluate

/-- The loop of `ComputeAction`, with the action so far. -/
def evaluateRules (obj : ObjectOpts) (now : Time) : List Rule → Action → Action
  | [], action => action
  | rule :: rules, action =>
    match rule.evaluate obj now action with
    | .returns action => action
    | .goesOn action => evaluateRules obj now rules action

def computeAction (lc : Lifecycle) (obj : ObjectOpts) (now : Time) : Action :=
  if obj.modTime.isZero then .noneAction
  else evaluateRules obj now (lc.filterActionableRules obj) .noneAction

end Fs3.Lifecycle

/-! ## Why the lifecycle acts

Whatever is done to an object, a rule that was selected for it has a reason to
call for it: a setting of the rule that is due, or the end of the time for which
the object was restored.
-/

namespace Fs3.Lifecycle

/-- The settings that are given in days. -/
inductive DaysSetting where
  | noncurrentExpiration
  | noncurrentTransition
  | expiration
  | transition
  deriving DecidableEq

def Rule.days (rule : Rule) : DaysSetting → Int
  | .noncurrentExpiration => rule.noncurrentVersionExpiration.noncurrentDays
  | .noncurrentTransition => rule.noncurrentVersionTransition.noncurrentDays
  | .expiration => rule.expiration.days
  | .transition => rule.transition.days

inductive Reason where
  /-- Only a delete marker is left. -/
  | lastMarker
  /-- So many days have passed since a time. -/
  | days (setting : DaysSetting) (since : Time)
  | expirationDate
  | transitionDate
  | debugTier
  /-- The temporary copy has served its time. -/
  | restored
  deriving DecidableEq

/-- A version that is not one of several, or the latest of them and no marker. -/
def ObjectOpts.current (obj : ObjectOpts) : Bool :=
  obj.versionID == "" || obj.isLatest && !obj.deleteMarker

/-- The reasons for which a rule calls for an action on an object. -/
inductive CallsFor (rule : Rule) (obj : ObjectOpts) (now : Time) : Reason → Action → Prop where
  | lastMarker (hlast : obj.expiredObjectDeleteMarker = true)
      (hset : rule.expiration.deleteMarker.val = true) :
      CallsFor rule obj now .lastMarker .deleteVersionAction
  | noncurrentExpiration (hset : rule.noncurrentVersionExpiration.isDaysNull = false)
      (hold : obj.superseded = true)
      (hdue : expectedExpiryTime obj.successorModTime (rule.days .noncurrentExpiration) < now) :
      CallsFor rule obj now (.days .noncurrentExpiration obj.successorModTime)
        .deleteVersionAction
  | markerExpiration (hset : rule.noncurrentVersionExpiration.isDaysNull = false)
      (hlast : obj.expiredObjectDeleteMarker = true)
      (hdue : expectedExpiryTime obj.modTime (rule.days .noncurrentExpiration) < now) :
      CallsFor rule obj now (.days .noncurrentExpiration obj.modTime) .deleteVersionAction
  | noncurrentTransition (hset : rule.noncurrentVersionTransition.isDaysNull = false)
      (hold : obj.superseded = true)
      (hdue : expectedExpiryTime obj.successorModTime (rule.days .noncurrentTransition) < now) :
      CallsFor rule obj now (.days .noncurrentTransition obj.successorModTime)
        .transitionVersionAction
  | noncurrentDebugTier (hset : rule.noncurrentVersionTransition.isDaysNull = false)
      (hold : obj.superseded = true)
      (htier : doesMatchDebugTiers rule.noncurrentVersionTransition.storageClass
        obj.remoteTiersImmediately = true) :
      CallsFor rule obj now .debugTier .transitionVersionAction
  | expirationDate (hcurrent : obj.current = true) (hset : rule.expiration.isDateNull = false)
      (hdue : rule.expiration.date < now) : CallsFor rule obj now .expirationDate .deleteAction
  | expirationDays (hcurrent : obj.current = true) (hdate : rule.expiration.isDateNull = true)
      (hset : rule.expiration.isDaysNull = false)
      (hdue : expectedExpiryTime obj.modTime (rule.days .expiration) < now) :
      CallsFor rule obj now (.days .expiration obj.modTime) .deleteAction
  | transitionDate (hcurrent : obj.current = true) (hset : rule.transition.isDateNull = false)
      (hdue : rule.transition.date < now) : CallsFor rule obj now .transitionDate .transitionAction
  | transitionDays (hcurrent : obj.current = true) (hdate : rule.transition.isDateNull = true)
      (hset : rule.transition.isDaysNull = false)
      (hdue : expectedExpiryTime obj.modTime (rule.days .transition) < now) :
      CallsFor rule obj now (.days .transition obj.modTime) .transitionAction
  | debugTier (hcurrent : obj.current = true) (hset : rule.transition.isNull = false)
      (htier : doesMatchDebugTiers rule.transition.storageClass
        obj.remoteTiersImmediately = true) :
      CallsFor rule obj now .debugTier .transitionAction
  | restored (hcurrent : obj.current = true) (hrestored : obj.restoreExpires.isZero = false)
      (hover : obj.restoreExpires < now) (action : Action) :
      CallsFor rule obj now .restored (obj.restored now action)

variable {rule : Rule} {obj : ObjectOpts} {now : Time}

theorem callsFor_of_expiresNoncurrent (hexpires : rule.expiresNoncurrent obj now = true) :
    ∃ reason, CallsFor rule obj now reason .deleteVersionAction := by
  simp only [Rule.expiresNoncurrent, Bool.and_eq_true, Bool.or_eq_true, Bool.not_eq_true',
    decide_eq_true_eq] at hexpires
  obtain ⟨hset, ⟨hold, hdue⟩ | ⟨⟨_, hlast⟩, hdue⟩⟩ := hexpires
  · exact ⟨_, .noncurrentExpiration hset hold hdue⟩
  · exact ⟨_, .markerExpiration hset hlast hdue⟩

theorem callsFor_of_transitionsNoncurrent
    (htransitions : rule.transitionsNoncurrent obj now = true) :
    ∃ reason, CallsFor rule obj now reason .transitionVersionAction := by
  simp only [Rule.transitionsNoncurrent, Bool.and_eq_true, Bool.or_eq_true, Bool.not_eq_true',
    decide_eq_true_eq] at htransitions
  obtain ⟨⟨hset, ⟨hold, _⟩, _⟩, hdue | htier⟩ := htransitions
  · exact ⟨_, .noncurrentTransition hset hold hdue⟩
  · exact ⟨_, .noncurrentDebugTier hset hold htier⟩

theorem callsFor_of_expires (hcurrent : obj.current = true)
    (hexpires : rule.expires obj now = true) :
    ∃ reason, CallsFor rule obj now reason .deleteAction := by
  unfold Rule.expires at hexpires
  split at hexpires
  next hdate =>
    exact ⟨_, .expirationDate hcurrent (by simpa using hdate) (of_decide_eq_true hexpires)⟩
  next hdate =>
    split at hexpires
    next hdays =>
      exact ⟨_, .expirationDays hcurrent (by simpa using hdate) (by simpa using hdays)
        (of_decide_eq_true hexpires)⟩
    next => cases hexpires

theorem callsFor_of_transitionDue (hcurrent : obj.current = true)
    (hdue : rule.transitionDue obj now = true) :
    ∃ reason, CallsFor rule obj now reason .transitionAction := by
  unfold Rule.transitionDue at hdue
  split at hdue
  next hdate => exact ⟨_, .transitionDate hcurrent (by simpa using hdate) (of_decide_eq_true hdue)⟩
  next hdate =>
    split at hdue
    next hdays =>
      exact ⟨_, .transitionDays hcurrent (by simpa using hdate) (by simpa using hdays)
        (of_decide_eq_true hdue)⟩
    next => cases hdue

theorem restored_cases (hcurrent : obj.current = true) (rule : Rule) (action : Action) :
    obj.restored now action = action ∨
      ∃ reason, CallsFor rule obj now reason (obj.restored now action) := by
  by_cases hover : (!obj.restoreExpires.isZero && now > obj.restoreExpires) = true
  · right
    rw [Bool.and_eq_true, Bool.not_eq_true', decide_eq_true_eq] at hover
    exact ⟨_, .restored hcurrent hover.1 hover.2 action⟩
  · left
    rw [ObjectOpts.restored, if_neg hover]

def Evaluation.Justified (rule : Rule) (obj : ObjectOpts) (now : Time) (before : Action) :
    Evaluation → Prop
  | .returns action => ∃ reason, CallsFor rule obj now reason action
  | .goesOn action => action = before ∨ ∃ reason, CallsFor rule obj now reason action

theorem justified_evaluate (rule : Rule) (obj : ObjectOpts) (now : Time) (before : Action) :
    (rule.evaluate obj now before).Justified rule obj now before := by
  unfold Rule.evaluate
  split
  next hlast =>
    rw [Bool.and_eq_true] at hlast
    exact ⟨_, .lastMarker hlast.1 hlast.2⟩
  split
  next hexpires => exact callsFor_of_expiresNoncurrent hexpires
  split
  next htransitions => exact callsFor_of_transitionsNoncurrent htransitions
  split
  next hcurrent =>
    split
    next hexpires => exact callsFor_of_expires hcurrent hexpires
    -- The transition, the debugging tier and the restored copy, in this order.
    have hchain : ∀ action, (action = before ∨ ∃ reason, CallsFor rule obj now reason action) →
        obj.restored now action = before ∨
          ∃ reason, CallsFor rule obj now reason (obj.restored now action) := by
      intro action haction
      rcases restored_cases hcurrent rule action with hsame | hcalls
      · rwa [hsame]
      · exact .inr hcalls
    dsimp only [Evaluation.Justified]
    apply hchain
    split
    next =>
      apply hchain
      split
      next htier =>
        rw [Bool.and_eq_true, Bool.not_eq_true'] at htier
        exact .inr ⟨_, .debugTier hcurrent htier.1 htier.2⟩
      next =>
        split
        next hdue => exact .inr (callsFor_of_transitionDue hcurrent hdue)
        next => exact .inl rfl
    next => exact .inl rfl
  next => exact .inl rfl

theorem evaluateRules_justified {rules : List Rule} {before action : Action}
    (heval : evaluateRules obj now rules before = action) (hne : action ≠ before) :
    ∃ rule ∈ rules, ∃ reason, CallsFor rule obj now reason action := by
  induction rules generalizing before with
  | nil => exact absurd heval.symm hne
  | cons rule rules ih =>
    have hjustified := justified_evaluate rule obj now before
    unfold evaluateRules at heval
    split at heval
    next stopped hstop =>
      rw [hstop] at hjustified
      subst heval
      exact ⟨rule, List.mem_cons_self, hjustified⟩
    next after hnext =>
      rw [hnext] at hjustified
      by_cases hsame : action = after
      · rcases hjustified with hbefore | hcalls
        · exact absurd (hsame.trans hbefore) hne
        · exact ⟨rule, List.mem_cons_self, hsame ▸ hcalls⟩
      · obtain ⟨other, hother, hcalls⟩ := ih heval hsame
        exact ⟨other, List.mem_cons_of_mem rule hother, hcalls⟩

end Fs3.Lifecycle

/-! ## Which rules have a say

Only rules that were selected for an object decide about it. The tags are not
looked at where a rule has an expiration of delete markers, a setting for
noncurrent versions or a transition.
-/

namespace Fs3.Lifecycle

variable {lc : Lifecycle} {rule : Rule} {obj : ObjectOpts} {now : Time}

def Rule.skipsTags (rule : Rule) : Bool :=
  rule.expiration.deleteMarker.val || !rule.noncurrentVersionExpiration.isDaysNull ||
    !rule.noncurrentVersionTransition.isDaysNull || !rule.transition.isNull

def Rule.matchesTags (rule : Rule) (obj : ObjectOpts) : Bool :=
  rule.filter.testTags (splitAll obj.userTags '&')

def Rule.covers (rule : Rule) (obj : ObjectOpts) : Bool :=
  rule.status != Disabled && hasPrefix obj.name rule.getPrefix

def Rule.eligible (rule : Rule) (obj : ObjectOpts) : Bool :=
  obj.name != "" && rule.covers obj && (rule.matchesTags obj || rule.skipsTags)

theorem mem_selections {other : Rule} : other ∈ rule.selections obj ↔
    other = rule ∧ rule.covers obj = true ∧
      (rule.matchesTags obj = true ∨ rule.skipsTags = true) := by
  unfold Rule.selections Rule.covers Rule.skipsTags Rule.matchesTags bne
  cases rule.status == Disabled
  case true => simp
  cases hasPrefix obj.name rule.getPrefix
  case false => simp
  cases rule.expiration.deleteMarker.val
  case true => simp
  cases rule.noncurrentVersionExpiration.isDaysNull
  case false => simp
  cases rule.noncurrentVersionTransition.isDaysNull
  case false => simp
  cases rule.transition.isNull <;> cases rule.filter.testTags (splitAll obj.userTags '&') <;> simp

theorem mem_filterActionableRules :
    rule ∈ lc.filterActionableRules obj ↔ rule ∈ lc.rules ∧ rule.eligible obj = true := by
  unfold filterActionableRules Rule.eligible bne
  cases obj.name == ""
  case true => simp
  simp only [Bool.false_eq_true, if_false, List.mem_flatMap, mem_selections, Bool.not_false,
    Bool.true_and, Bool.and_eq_true, Bool.or_eq_true]
  constructor
  · rintro ⟨other, hmem, rfl, hselected⟩
    exact ⟨hmem, hselected⟩
  · rintro ⟨hmem, hselected⟩
    exact ⟨rule, hmem, rfl, hselected⟩

theorem filterActionableRules_filter (lc : Lifecycle) (obj : ObjectOpts) :
    filterActionableRules { rules := lc.rules.filter fun rule => rule.eligible obj } obj =
      lc.filterActionableRules obj := by
  unfold filterActionableRules
  split
  next => rfl
  next hname =>
    dsimp only
    induction lc.rules with
    | nil => rfl
    | cons rule rules ih =>
      rw [List.filter_cons, List.flatMap_cons]
      split
      next => rw [List.flatMap_cons, ih]
      next hnot =>
        have hnone : rule.selections obj = [] := by
          apply List.eq_nil_iff_forall_not_mem.mpr
          intro other hmem
          obtain ⟨_, hcovers, htags⟩ := mem_selections.mp hmem
          apply hnot
          simp only [Rule.eligible, hcovers, Bool.and_true, Bool.and_eq_true, Bool.or_eq_true]
          exact ⟨by simpa using hname, htags⟩
        rw [hnone, List.nil_append, ih]

theorem computeAction_filter (lc : Lifecycle) (obj : ObjectOpts) (now : Time) :
    computeAction { rules := lc.rules.filter fun rule => rule.eligible obj } obj now =
      lc.computeAction obj now := by
  unfold computeAction
  rw [filterActionableRules_filter]

theorem computeAction_justified {action : Action} (haction : lc.computeAction obj now = action)
    (hne : action ≠ .noneAction) :
    ∃ rule ∈ lc.filterActionableRules obj, ∃ reason, CallsFor rule obj now reason action := by
  unfold computeAction at haction
  split at haction
  next => exact absurd haction.symm hne
  next => exact evaluateRules_justified haction hne

/-- What is done to an object, a rule that is not disabled and is about its name calls for. -/
theorem computeAction_sound (lc : Lifecycle) (obj : ObjectOpts) (now : Time) :
    (∀ action, lc.computeAction obj now = action → action ≠ .noneAction →
      ∃ rule ∈ lc.rules, rule.status ≠ Disabled ∧ hasPrefix obj.name rule.getPrefix = true ∧
        (rule.matchesTags obj = true ∨ rule.skipsTags = true) ∧
        ∃ reason, CallsFor rule obj now reason action) ∧
      computeAction { rules := lc.rules.filter fun rule => rule.eligible obj } obj now =
        lc.computeAction obj now := by
  refine ⟨?_, computeAction_filter lc obj now⟩
  intro action haction hne
  obtain ⟨rule, hmem, hcalls⟩ := computeAction_justified haction hne
  obtain ⟨hrule, heligible⟩ := mem_filterActionableRules.mp hmem
  simp only [Rule.eligible, Rule.covers, Bool.and_eq_true, Bool.or_eq_true, bne_iff_ne, ne_eq]
    at heligible
  obtain ⟨⟨_, hstatus, hfront⟩, htags⟩ := heligible
  exact ⟨rule, hrule, hstatus, hfront, htags, hcalls⟩

/-- What is done to an object, an enabled rule calls for whose name and tags
match, by a setting of its own. -/
def Sound (lc : Lifecycle) (obj : ObjectOpts) (now : Time) : Prop :=
  ∀ action, lc.computeAction obj now = action → action ≠ .noneAction →
    ∃ rule ∈ lc.rules, rule.status = Enabled ∧ hasPrefix obj.name rule.getPrefix = true ∧
      rule.matchesTags obj = true ∧
      ∃ reason, reason ≠ .restored ∧ CallsFor rule obj now reason action

theorem CallsFor.eq_restored {reason : Reason} {action : Action}
    (hcalls : CallsFor rule obj now reason action) (haction : action = .deleteRestoredAction) :
    reason = .restored := by
  cases hcalls with
  | restored => rfl
  | _ => cases haction

/-- A rule that expires objects after 1000 days removes the temporary copy of
one that is younger, and a rule about objects with a tag removes a noncurrent
version without it. -/
theorem computeAction_unsound :
    ¬ Sound
        { rules := [{ id := "old", status := Enabled, pre := { set := true },
                      expiration := { days := 1000, set := true } }] }
        { name := "photo", modTime := Time.day, transitionStatus := TransitionComplete,
          restoreExpires := 2 * Time.day } (3 * Time.day) ∧
      ¬ Sound
        { rules := [{ id := "drafts", status := Enabled,
                      filter := { set := true, tag := { key := "kind", value := "draft" } },
                      noncurrentVersionExpiration := { noncurrentDays := 1, set := true } }] }
        { name := "photo", userTags := "kind=final", modTime := Time.day, versionID := "v1",
          isLatest := false, numVersions := 2, successorModTime := 2 * Time.day }
        (9 * Time.day) := by
  constructor
  · intro hsound
    obtain ⟨rule, _, _, _, _, reason, hreason, hcalls⟩ :=
      hsound .deleteRestoredAction (by decide) (by decide)
    exact hreason (hcalls.eq_restored rfl)
  · intro hsound
    obtain ⟨rule, hmem, _, _, htags, _⟩ := hsound .deleteVersionAction (by decide) (by decide)
    cases List.mem_singleton.mp hmem
    exact absurd htags (by decide)

end Fs3.Lifecycle
