import Fs3.Lifecycle.LongPeriods

/-! # Predicting what the lifecycle will do

When an object expires or goes to another tier is announced before it happens. -/

namespace Fs3.Lifecycle

/-- A rule with its time, instead of what was found so far, if that is later. -/
def keepSooner (found : String × Time) (ruleID : String) (time : Time) : String × Time :=
  if found.2.isZero || found.2 > time then (ruleID, time) else found

/-- The loop of `PredictExpiryTime`. -/
def predictExpiryRules (obj : ObjectOpts) : List Rule → String × Time → String × Time
  | [], found => found
  | rule :: rules, found =>
    if !rule.noncurrentVersionExpiration.isDaysNull && !obj.isLatest && obj.versionID != "" then
      (rule.id, expectedExpiryTime obj.successorModTime
        rule.noncurrentVersionExpiration.noncurrentDays)
    else
      let found :=
        if !rule.expiration.isDateNull then keepSooner found rule.id rule.expiration.date
        else found
      let found :=
        if !rule.expiration.isDaysNull then
          keepSooner found rule.id (expectedExpiryTime obj.modTime rule.expiration.days)
        else found
      predictExpiryRules obj rules found

def predictExpiryTime (lc : Lifecycle) (obj : ObjectOpts) : String × Time :=
  if obj.deleteMarker then ("", Time.zero)
  else predictExpiryRules obj (lc.filterActionableRules obj) ("", Time.zero)

/-- The loop of `PredictTransitionTime`. -/
def predictTransitionRules (obj : ObjectOpts) : List Rule → String × Time → String × Time
  | [], found => found
  | rule :: rules, found =>
    let found :=
      if !rule.transition.isDateNull then keepSooner found rule.id rule.transition.date
      else if !rule.transition.isDaysNull then
        -- The days are those of the expiration.
        keepSooner found rule.id (expectedExpiryTime obj.modTime rule.expiration.days)
      else found
    predictTransitionRules obj rules found

def predictTransitionTime (lc : Lifecycle) (obj : ObjectOpts) : String × Time :=
  if obj.deleteMarker then ("", Time.zero)
  else if obj.transitionStatus == TransitionComplete then ("", Time.zero)
  else predictTransitionRules obj (lc.filterActionableRules obj) ("", Time.zero)

def soonest (found : Time) (times : List Time) : Time :=
  times.foldl (fun found time => if found.isZero || found > time then time else found) found

section Soonest

variable {times : List Time}

theorem soonest_of_found {found : Time} (hfound : found ≠ Time.zero)
    (hnonzero : ∀ time ∈ times, time ≠ Time.zero) :
    (soonest found times = found ∨ soonest found times ∈ times) ∧
      soonest found times ≤ found ∧ ∀ time ∈ times, soonest found times ≤ time := by
  induction times generalizing found with
  | nil => exact ⟨.inl rfl, Int.le_refl found, fun _ h => nomatch h⟩
  | cons time times ih =>
    have hzero : found.isZero = false := by rw [← Bool.not_eq_true, Time.isZero_iff]; exact hfound
    have htimes : ∀ other ∈ times, other ≠ Time.zero :=
      fun other hmem => hnonzero other (List.mem_cons_of_mem time hmem)
    unfold soonest
    rw [List.foldl_cons, hzero, Bool.false_or]
    split
    next hlater =>
      obtain ⟨hmem, hle, hall⟩ := ih (hnonzero time List.mem_cons_self) htimes
      exact ⟨.inr (List.mem_cons.mpr hmem),
        Int.le_trans hle (Int.le_of_lt (of_decide_eq_true hlater)),
        List.forall_mem_cons.mpr ⟨hle, hall⟩⟩
    next hsooner =>
      obtain ⟨hmem, hle, hall⟩ := ih hfound htimes
      have hnot : ¬ time < found := fun h => hsooner (decide_eq_true h)
      exact ⟨hmem.imp_right (List.mem_cons_of_mem time), hle,
        List.forall_mem_cons.mpr ⟨Int.le_trans hle (Int.not_lt.mp hnot), hall⟩⟩

theorem soonest_spec (hnonzero : ∀ time ∈ times, time ≠ Time.zero)
    (hfound : soonest Time.zero times ≠ Time.zero ∨ times ≠ []) :
    soonest Time.zero times ∈ times ∧ ∀ time ∈ times, soonest Time.zero times ≤ time := by
  cases times with
  | nil => simp [soonest] at hfound
  | cons time times =>
    have hfirst : soonest Time.zero (time :: times) = soonest time times := rfl
    rw [hfirst]
    obtain ⟨hmem, hle, hall⟩ := soonest_of_found (hnonzero time List.mem_cons_self)
      fun other hmem => hnonzero other (List.mem_cons_of_mem time hmem)
    exact ⟨List.mem_cons.mpr hmem, List.forall_mem_cons.mpr ⟨hle, hall⟩⟩

end Soonest

/-! ## Expirations -/

variable {lc : Lifecycle} {rule : Rule} {obj : ObjectOpts} {now : Time}

def Action.deletes (action : Action) : Bool :=
  action == .deleteAction || action == .deleteVersionAction

def Rule.expiryTime (rule : Rule) (obj : ObjectOpts) : Option Time :=
  if !rule.expiration.isDateNull then some rule.expiration.date
  else if !rule.expiration.isDaysNull then
    some (expectedExpiryTime obj.modTime rule.expiration.days)
  else none

theorem expires_iff : rule.expires obj now = true ↔ ∃ time, rule.expiryTime obj = some time ∧
    time < now := by
  unfold Rule.expires Rule.expiryTime
  split
  next => simp
  next => split <;> simp

/-- The latest version of an object is removed by a rule that expires it, and by no other. -/
theorem evaluate_latest (hlatest : obj.isLatest = true) (hmarker : obj.deleteMarker = false)
    (action : Action) :
    if rule.expires obj now then rule.evaluate obj now action = .returns .deleteAction
    else ∃ after, rule.evaluate obj now action = .goesOn after ∧
      (after.deletes = true → action.deletes = true) := by
  have hlast : obj.expiredObjectDeleteMarker = false := by
    rw [ObjectOpts.expiredObjectDeleteMarker, hmarker, Bool.false_and]
  have hold : obj.superseded = false := by
    rw [ObjectOpts.superseded, hlatest, Bool.not_true, Bool.and_false, Bool.false_and]
  have hrestored : ∀ action, (obj.restored now action).deletes = true → action.deletes = true := by
    intro action
    unfold ObjectOpts.restored
    split
    next => split <;> simp [Action.deletes]
    next => exact id
  unfold Rule.evaluate Rule.expiresNoncurrent Rule.transitionsNoncurrent
  simp only [hlast, hold, hlatest, hmarker, Bool.false_and, Bool.and_false, Bool.or_false,
    Bool.not_false, Bool.and_true, Bool.or_true, if_true, Bool.false_eq_true, if_false]
  split
  next => rfl
  next =>
    refine ⟨_, rfl, fun hdeletes => ?_⟩
    have hbefore := hrestored _ hdeletes
    split at hbefore
    next =>
      have hbefore := hrestored _ hbefore
      split at hbefore
      next => cases hbefore
      next =>
        split at hbefore
        next => cases hbefore
        next => exact hbefore
    next => exact hbefore

theorem evaluateRules_deletes_iff (hlatest : obj.isLatest = true)
    (hmarker : obj.deleteMarker = false) {rules : List Rule} {action : Action}
    (haction : action.deletes = false) :
    (evaluateRules obj now rules action).deletes = true ↔
      ∃ rule ∈ rules, rule.expires obj now = true := by
  induction rules generalizing action with
  | nil => simp [evaluateRules, haction]
  | cons rule rules ih =>
    have heval := @evaluate_latest rule obj now hlatest hmarker action
    rw [List.exists_mem_cons_iff]
    split at heval
    next hexpires =>
      rw [evaluateRules, heval]
      exact ⟨fun _ => .inl hexpires, fun _ => rfl⟩
    next hexpires =>
      obtain ⟨after, heval, hdeletes⟩ := heval
      have hafter : after.deletes = false := by
        rw [← Bool.not_eq_true]
        intro h
        rw [hdeletes h] at haction
        cases haction
      rw [evaluateRules, heval]
      refine (ih hafter).trans ?_
      exact ⟨.inr, fun h => h.resolve_left hexpires⟩

def Rule.expiryCandidates (rule : Rule) (obj : ObjectOpts) : List Time :=
  (if !rule.expiration.isDateNull then [rule.expiration.date] else []) ++
    if !rule.expiration.isDaysNull then [expectedExpiryTime obj.modTime rule.expiration.days]
    else []

theorem keepSooner_snd (found : String × Time) (ruleID : String) (time : Time) :
    (keepSooner found ruleID time).2 = soonest found.2 [time] := by
  unfold keepSooner soonest
  rw [List.foldl_cons, List.foldl_nil]
  split <;> rfl

theorem soonest_append (found : Time) (times others : List Time) :
    soonest found (times ++ others) = soonest (soonest found times) others :=
  List.foldl_append

theorem predictExpiryRules_snd (hlatest : obj.isLatest = true) (rules : List Rule)
    (found : String × Time) : (predictExpiryRules obj rules found).2 =
      soonest found.2 (rules.flatMap fun rule => rule.expiryCandidates obj) := by
  induction rules generalizing found with
  | nil => rfl
  | cons rule rules ih =>
    unfold predictExpiryRules
    rw [hlatest, Bool.not_true, Bool.and_false, Bool.false_and, if_neg Bool.false_ne_true,
      List.flatMap_cons, soonest_append, Rule.expiryCandidates, soonest_append]
    dsimp only
    rw [ih]
    congr 1
    split <;> split <;> simp [keepSooner_snd, soonest]

theorem expectedExpiryTime_ne_zero {since : Int} (hrange : IsInt64 since) (days : Int) :
    expectedExpiryTime since days ≠ Time.zero := by
  unfold expectedExpiryTime
  obtain ⟨turns, _, hlow, _⟩ := wrap64_spec (wrap64 (wrap64 (days + 1) * 24) * Time.hour)
  have hlt := lt_truncateDay_add (since + wrap64 (wrap64 (wrap64 (days + 1) * 24) * Time.hour))
  intro hzero
  rw [hzero] at hlt
  unfold IsInt64 at hrange
  unfold Time.zero Time.day Time.hour at *
  omega

theorem modTime_isZero (hrange : IsInt64 obj.modTime) : obj.modTime.isZero = false := by
  rw [← Bool.not_eq_true, Time.isZero_iff]
  intro hzero
  rw [hzero] at hrange
  exact absurd hrange.1 (by decide)

theorem computeAction_deletes_iff (hlatest : obj.isLatest = true)
    (hmarker : obj.deleteMarker = false) (hrange : IsInt64 obj.modTime) :
    (lc.computeAction obj now).deletes = true ↔
      ∃ rule ∈ lc.filterActionableRules obj, ∃ time, rule.expiryTime obj = some time ∧
        time < now := by
  rw [computeAction, modTime_isZero hrange, if_neg Bool.false_ne_true,
    evaluateRules_deletes_iff hlatest hmarker rfl]
  exact exists_congr fun rule => and_congr_right fun _ => expires_iff

theorem mem_expiryCandidates {time : Time} : time ∈ rule.expiryCandidates obj ↔
    (rule.expiration.isDateNull = false ∧ time = rule.expiration.date) ∨
      (rule.expiration.isDaysNull = false ∧
        time = expectedExpiryTime obj.modTime rule.expiration.days) := by
  unfold Rule.expiryCandidates
  cases rule.expiration.isDateNull <;> cases rule.expiration.isDaysNull <;> simp

theorem mem_expiryCandidates_of_expiryTime {time : Time}
    (hexpiry : rule.expiryTime obj = some time) : time ∈ rule.expiryCandidates obj := by
  rw [mem_expiryCandidates]
  unfold Rule.expiryTime at hexpiry
  split at hexpiry
  next hdate =>
    rw [Bool.not_eq_true'] at hdate
    exact .inl ⟨hdate, (Option.some.inj hexpiry).symm⟩
  next =>
    split at hexpiry
    next hdays =>
      rw [Bool.not_eq_true'] at hdays
      exact .inr ⟨hdays, (Option.some.inj hexpiry).symm⟩
    next => cases hexpiry

def PredictsExpiry (lc : Lifecycle) (obj : ObjectOpts) : Prop :=
  (lc.predictExpiryTime obj).2 ≠ Time.zero →
    (∀ now, now < (lc.predictExpiryTime obj).2 → (lc.computeAction obj now).deletes = false) ∧
      ∀ now, (lc.predictExpiryTime obj).2 < now → (lc.computeAction obj now).deletes = true

/-- Where a rule expires objects by a date and after some days, its days are
not over before some rule expires the object. -/
def ExpiriesAgree (lc : Lifecycle) (obj : ObjectOpts) : Prop :=
  ∀ rule ∈ lc.filterActionableRules obj, rule.expiration.isDateNull = false →
    rule.expiration.isDaysNull = false →
    ∃ other ∈ lc.filterActionableRules obj, ∃ time, other.expiryTime obj = some time ∧
      time ≤ expectedExpiryTime obj.modTime rule.expiration.days

theorem expiriesAgree_iff : lc.ExpiriesAgree obj ↔
    ∀ candidate ∈ (lc.filterActionableRules obj).flatMap fun rule => rule.expiryCandidates obj,
      ∃ rule ∈ lc.filterActionableRules obj, ∃ time, rule.expiryTime obj = some time ∧
        time ≤ candidate := by
  constructor
  · intro hagree candidate hcandidate
    obtain ⟨rule, hrule, hcandidate⟩ := List.mem_flatMap.mp hcandidate
    rcases mem_expiryCandidates.mp hcandidate with ⟨hdate, rfl⟩ | ⟨hdays, rfl⟩
    · exact ⟨rule, hrule, _, by rw [Rule.expiryTime, hdate]; rfl, Int.le_refl _⟩
    · cases hdate : rule.expiration.isDateNull with
      | true =>
        refine ⟨rule, hrule, _, ?_, Int.le_refl _⟩
        rw [Rule.expiryTime, hdate, hdays]
        rfl
      | false => exact hagree rule hrule hdate hdays
  · intro hcandidates rule hrule _ hdays
    apply hcandidates
    exact List.mem_flatMap.mpr ⟨rule, hrule, mem_expiryCandidates.mpr (.inr ⟨hdays, rfl⟩)⟩

theorem expiryCandidates_ne_zero (hrange : IsInt64 obj.modTime) (rules : List Rule) :
    ∀ candidate ∈ rules.flatMap fun rule => rule.expiryCandidates obj,
      candidate ≠ Time.zero := by
  intro candidate hcandidate
  obtain ⟨rule, _, hcandidate⟩ := List.mem_flatMap.mp hcandidate
  rcases mem_expiryCandidates.mp hcandidate with ⟨hdate, rfl⟩ | ⟨_, rfl⟩
  · intro hzero
    rw [Expiration.isDateNull, Time.isZero_iff.mpr hzero] at hdate
    cases hdate
  · exact expectedExpiryTime_ne_zero hrange _

theorem predictsExpiry_iff (hlatest : obj.isLatest = true) (hmarker : obj.deleteMarker = false)
    (hrange : IsInt64 obj.modTime) : lc.PredictsExpiry obj ↔ lc.ExpiriesAgree obj := by
  have hnonzero := expiryCandidates_ne_zero hrange (lc.filterActionableRules obj)
  have hpredicted : (lc.predictExpiryTime obj).2 = soonest Time.zero
      ((lc.filterActionableRules obj).flatMap fun rule => rule.expiryCandidates obj) := by
    rw [predictExpiryTime, hmarker, if_neg Bool.false_ne_true, predictExpiryRules_snd hlatest]
  rw [expiriesAgree_iff, PredictsExpiry, hpredicted]
  constructor
  · intro hpredicts candidate hcandidate
    obtain ⟨hmem, hleast⟩ := soonest_spec hnonzero (.inr (List.ne_nil_of_mem hcandidate))
    have hdeletes := (hpredicts (hnonzero _ hmem)).2 (candidate + (1 : Int))
      (Int.lt_add_one_of_le (hleast candidate hcandidate))
    obtain ⟨rule, hrule, time, hexpiry, hlt⟩ :=
      (computeAction_deletes_iff hlatest hmarker hrange).mp hdeletes
    exact ⟨rule, hrule, time, hexpiry, Int.le_of_lt_add_one hlt⟩
  · intro hagree hfound
    obtain ⟨hmem, hleast⟩ := soonest_spec hnonzero (.inl hfound)
    constructor
    · intro now hnow
      rw [← Bool.not_eq_true, computeAction_deletes_iff hlatest hmarker hrange]
      rintro ⟨rule, hrule, time, hexpiry, hlt⟩
      have hle := hleast time
        (List.mem_flatMap.mpr ⟨rule, hrule, mem_expiryCandidates_of_expiryTime hexpiry⟩)
      exact absurd (Int.lt_of_le_of_lt hle (Int.lt_trans hlt hnow)) (Int.lt_irrefl _)
    · intro now hnow
      obtain ⟨rule, hrule, time, hexpiry, hle⟩ := hagree _ hmem
      exact (computeAction_deletes_iff hlatest hmarker hrange).mpr
        ⟨rule, hrule, time, hexpiry, Int.lt_of_le_of_lt hle hnow⟩

/-! ## Transitions -/

def Rule.transitionTime (rule : Rule) (obj : ObjectOpts) : Option Time :=
  if !rule.transition.isDateNull then some rule.transition.date
  else if !rule.transition.isDaysNull then
    some (expectedExpiryTime obj.modTime rule.transition.days)
  else none

def Rule.transitionTimeOfExpiration (rule : Rule) (obj : ObjectOpts) : Option Time :=
  if !rule.transition.isDateNull then some rule.transition.date
  else if !rule.transition.isDaysNull then
    some (expectedExpiryTime obj.modTime rule.expiration.days)
  else none

theorem transitionDue_iff : rule.transitionDue obj now = true ↔
    ∃ time, rule.transitionTime obj = some time ∧ time < now := by
  unfold Rule.transitionDue Rule.transitionTime
  split
  next => simp
  next => split <;> simp

/-- The announced transition is when a transition of the object becomes due. -/
def PredictsTransition (lc : Lifecycle) (obj : ObjectOpts) : Prop :=
  (lc.predictTransitionTime obj).2 ≠ Time.zero →
    ∀ now, (∃ rule ∈ lc.filterActionableRules obj, rule.transitionDue obj now = true) ↔
      (lc.predictTransitionTime obj).2 < now

/-- The soonest transition of the rules is the same with the days of their
expirations: each time of one kind is not before some time of the other. -/
def TransitionsAgree (lc : Lifecycle) (obj : ObjectOpts) : Prop :=
  (∀ rule ∈ lc.filterActionableRules obj, ∀ time, rule.transitionTimeOfExpiration obj = some time →
    ∃ other ∈ lc.filterActionableRules obj, ∃ due, other.transitionTime obj = some due ∧
      due ≤ time) ∧
  ∀ rule ∈ lc.filterActionableRules obj, ∀ due, rule.transitionTime obj = some due →
    ∃ other ∈ lc.filterActionableRules obj, ∃ time,
      other.transitionTimeOfExpiration obj = some time ∧ time ≤ due

theorem predictTransitionRules_snd (rules : List Rule) (found : String × Time) :
    (predictTransitionRules obj rules found).2 =
      soonest found.2 (rules.filterMap fun rule => rule.transitionTimeOfExpiration obj) := by
  induction rules generalizing found with
  | nil => rfl
  | cons rule rules ih =>
    unfold predictTransitionRules
    dsimp only
    rw [ih, List.filterMap_cons]
    unfold Rule.transitionTimeOfExpiration
    split
    next => rw [keepSooner_snd, ← soonest_append]; rfl
    next =>
      split
      next => rw [keepSooner_snd, ← soonest_append]; rfl
      next => rfl

theorem transitionTimeOfExpiration_ne_zero (hrange : IsInt64 obj.modTime) (rules : List Rule) :
    ∀ time ∈ rules.filterMap fun rule => rule.transitionTimeOfExpiration obj,
      time ≠ Time.zero := by
  intro time hmem hzero
  obtain ⟨rule, _, htime⟩ := List.mem_filterMap.mp hmem
  unfold Rule.transitionTimeOfExpiration at htime
  split at htime
  next hdate =>
    rw [Bool.not_eq_true', Transition.isDateNull, Option.some.inj htime,
      Time.isZero_iff.mpr hzero] at hdate
    cases hdate
  next =>
    split at htime
    next => exact expectedExpiryTime_ne_zero hrange _ ((Option.some.inj htime).trans hzero)
    next => cases htime

theorem transitionTime_isSome (rule : Rule) (obj : ObjectOpts) :
    (rule.transitionTime obj).isSome = (rule.transitionTimeOfExpiration obj).isSome := by
  unfold Rule.transitionTime Rule.transitionTimeOfExpiration
  split
  next => rfl
  next => split <;> rfl

theorem predictsTransition_iff (hmarker : obj.deleteMarker = false)
    (hrange : IsInt64 obj.modTime) : lc.PredictsTransition obj ↔
      obj.transitionStatus = TransitionComplete ∨ lc.TransitionsAgree obj := by
  have hnonzero := transitionTimeOfExpiration_ne_zero hrange (lc.filterActionableRules obj)
  by_cases hcomplete : obj.transitionStatus = TransitionComplete
  · have hpredicted : (lc.predictTransitionTime obj).2 = Time.zero := by
      rw [predictTransitionTime, hmarker, if_neg Bool.false_ne_true, hcomplete]
      rfl
    rw [PredictsTransition, hpredicted]
    exact ⟨fun _ => .inl hcomplete, fun _ hfound => absurd rfl hfound⟩
  · have hpredicted : (lc.predictTransitionTime obj).2 = soonest Time.zero
        ((lc.filterActionableRules obj).filterMap fun rule =>
          rule.transitionTimeOfExpiration obj) := by
      rw [predictTransitionTime, hmarker, if_neg Bool.false_ne_true,
        if_neg (fun h => hcomplete (eq_of_beq h)), predictTransitionRules_snd]
    rw [PredictsTransition, hpredicted, or_iff_right hcomplete]
    simp only [transitionDue_iff]
    constructor
    · intro hpredicts
      have hspec := fun rule hrule time htime =>
        have hcandidate := List.mem_filterMap.mpr ⟨rule, hrule, htime⟩
        have hsoonest := soonest_spec hnonzero (.inr (List.ne_nil_of_mem hcandidate))
        And.intro hsoonest.1 (hsoonest.2 time hcandidate)
      constructor
      · intro rule hrule time htime
        obtain ⟨hmem, hleast⟩ := hspec rule hrule time htime
        obtain ⟨other, hother, due, hdue, hlt⟩ :=
          (hpredicts (hnonzero _ hmem) (time + (1 : Int))).mpr
            (Int.lt_add_one_of_le hleast)
        exact ⟨other, hother, due, hdue, Int.le_of_lt_add_one hlt⟩
      · intro rule hrule due hdue
        -- The rule has a time of the other kind, so that something is announced.
        have hsome := transitionTime_isSome rule obj
        rw [hdue, Option.isSome_some, eq_comm, Option.isSome_iff_exists] at hsome
        obtain ⟨time, htime⟩ := hsome
        obtain ⟨hmem, -⟩ := hspec rule hrule time htime
        have hlt := (hpredicts (hnonzero _ hmem) (due + (1 : Int))).mp
          ⟨rule, hrule, due, hdue, Int.lt_add_one_of_le (Int.le_refl due)⟩
        obtain ⟨other, hother, hsoonest⟩ := List.mem_filterMap.mp hmem
        exact ⟨other, hother, _, hsoonest, Int.le_of_lt_add_one hlt⟩
    · rintro ⟨hlate, hearly⟩ hfound now
      obtain ⟨hmem, hleast⟩ := soonest_spec hnonzero (.inl hfound)
      constructor
      · rintro ⟨rule, hrule, due, hdue, hlt⟩
        obtain ⟨other, hother, time, htime, hle⟩ := hearly rule hrule due hdue
        have hcandidate := hleast time (List.mem_filterMap.mpr ⟨other, hother, htime⟩)
        exact Int.lt_of_le_of_lt hcandidate (Int.lt_of_le_of_lt hle hlt)
      · intro hnow
        obtain ⟨rule, hrule, htime⟩ := List.mem_filterMap.mp hmem
        obtain ⟨other, hother, due, hdue, hle⟩ := hlate rule hrule _ htime
        exact ⟨other, hother, due, hdue, Int.lt_of_le_of_lt hle hnow⟩

/-- For the latest version of an object, unless it is a delete marker, what is
announced is what will be done exactly if no rule has a date and days between
which that makes a difference, and its transitions are due at the times that
the days of the expirations give. -/
theorem predictions_iff (hlatest : obj.isLatest = true) (hmarker : obj.deleteMarker = false)
    (hrange : IsInt64 obj.modTime) :
    (lc.PredictsExpiry obj ∧ lc.PredictsTransition obj) ↔
      lc.ExpiriesAgree obj ∧
        (obj.transitionStatus = TransitionComplete ∨ lc.TransitionsAgree obj) :=
  and_congr (predictsExpiry_iff hlatest hmarker hrange) (predictsTransition_iff hmarker hrange)

/-- An object that goes to another tier after 30 days is announced to go after one. -/
theorem transition_announced_early : ¬ (PredictsExpiry { rules := [ruleOf 30 .transition] }
      { name := "object", modTime := (0 : Int) } ∧
    PredictsTransition { rules := [ruleOf 30 .transition] }
      { name := "object", modTime := (0 : Int) }) := by
  rintro ⟨_, hpredicts⟩
  obtain ⟨rule, hrule, hdue⟩ := (hpredicts (by decide) (2 * Time.day)).mpr (by decide)
  rw [mem_filterActionableRules] at hrule
  cases List.mem_singleton.mp hrule.1
  exact absurd hdue (by decide)

/-- With a transition by a date the announcement is right. -/
theorem predictions_dated : (PredictsExpiry
      { rules := [{ status := Enabled, transition := { date := Time.day, set := true } }] }
      { name := "object", modTime := (0 : Int) } ∧
    PredictsTransition
      { rules := [{ status := Enabled, transition := { date := Time.day, set := true } }] }
      { name := "object", modTime := (0 : Int) }) ↔
    (ExpiriesAgree
      { rules := [{ status := Enabled, transition := { date := Time.day, set := true } }] }
      { name := "object", modTime := (0 : Int) } ∧
    ("" = TransitionComplete ∨ TransitionsAgree
      { rules := [{ status := Enabled, transition := { date := Time.day, set := true } }] }
      { name := "object", modTime := (0 : Int) })) :=
  predictions_iff rfl rfl (by unfold IsInt64; decide)

end Fs3.Lifecycle
