import Fs3.Lifecycle.ComputeAction

/-! # Periods that are too long

The days of a setting are counted in nanoseconds of 64 bits. -/

namespace Fs3

theorem truncateDay_le (time : Int) : Time.truncateDay time ≤ time := by
  unfold Time.truncateDay Time.day Time.hour
  omega

theorem lt_truncateDay_add (time : Int) : time < Time.truncateDay time + Time.day := by
  unfold Time.truncateDay Time.day Time.hour
  omega

theorem truncateDay_mono {time later : Int} (hle : time ≤ later) :
    Time.truncateDay time ≤ Time.truncateDay later := by
  unfold Time.truncateDay Time.day Time.hour
  omega

namespace Lifecycle

def maxDays : Int := 106750

variable {days : Int}

theorem expectedExpiryTime_of_le (hnonneg : 0 ≤ days) (hfits : days ≤ maxDays) (since : Int) :
    expectedExpiryTime since days = Time.truncateDay (since + (days + 1) * Time.day) := by
  unfold maxDays at hfits
  have hdays : wrap64 (days + 1) = days + 1 := wrap64_of_fits (by omega) (by omega)
  have hhours : wrap64 ((days + 1) * 24) = (days + 1) * 24 :=
    wrap64_of_fits (by omega) (by omega)
  have hnanos : wrap64 ((days + 1) * 24 * Time.hour) = (days + 1) * 24 * Time.hour := by
    unfold Time.hour
    exact wrap64_of_fits (by omega) (by omega)
  rw [expectedExpiryTime, hdays, hhours, hnanos, Int.mul_assoc, Time.day]

theorem lt_expectedExpiryTime (hnonneg : 0 ≤ days) (hfits : days ≤ maxDays) (since : Int) :
    since + days * Time.day < expectedExpiryTime since days := by
  rw [expectedExpiryTime_of_le hnonneg hfits]
  have hlt := lt_truncateDay_add (since + (days + 1) * Time.day)
  unfold Time.day Time.hour at hlt ⊢
  omega

theorem expectedExpiryTime_le (hlong : maxDays < days) (since : Int) :
    expectedExpiryTime since days ≤ since + (days + 1) * Time.day - 2 ^ 64 := by
  unfold maxDays at hlong
  unfold expectedExpiryTime
  obtain ⟨first, hfirst, _, _⟩ := wrap64_spec (days + 1)
  obtain ⟨second, hsecond, _, _⟩ := wrap64_spec (wrap64 (days + 1) * 24)
  obtain ⟨third, hthird, _, hlt⟩ := wrap64_spec (wrap64 (wrap64 (days + 1) * 24) * Time.hour)
  have hle := truncateDay_le (since + wrap64 (wrap64 (wrap64 (days + 1) * 24) * Time.hour))
  refine Int.le_trans hle ?_
  -- At least one turn is lost, since more than 63 bits are needed.
  unfold Time.day Time.hour at *
  omega

theorem expectedExpiryTime_mono {days longer : Int} (hnonneg : 0 ≤ days) (hle : days ≤ longer)
    (hfits : longer ≤ maxDays) (since : Int) :
    expectedExpiryTime since days ≤ expectedExpiryTime since longer := by
  rw [expectedExpiryTime_of_le hnonneg (Int.le_trans hle hfits),
    expectedExpiryTime_of_le (Int.le_trans hnonneg hle) hfits]
  apply truncateDay_mono
  unfold Time.day Time.hour
  omega

def Admitted (days : Int) : Prop := ∃ n, IsInt64 n ∧ ExpirationDays.unmarshal n = .ok days

theorem admitted_iff : Admitted days ↔ 0 < days ∧ days < 2 ^ 63 := by
  unfold Admitted ExpirationDays.unmarshal IsInt64
  constructor
  · rintro ⟨n, hrange, hok⟩
    split at hok
    next => cases hok
    next hpos =>
      cases hok
      omega
  · intro hrange
    refine ⟨days, by omega, ?_⟩
    rw [if_neg (by omega)]

def OnlyDays (allowed : DaysSetting → Int → Prop) (lc : Lifecycle) : Prop :=
  ∀ rule ∈ lc.rules, ∀ setting, rule.days setting ≠ 0 → allowed setting (rule.days setting)

/-- Whenever an action is taken, the days that a rule calls for it by have passed. -/
def Punctual (lc : Lifecycle) : Prop :=
  ∀ obj now action, lc.computeAction obj now = action → action ≠ .noneAction →
    ∀ rule ∈ lc.filterActionableRules obj, ∀ setting since,
      CallsFor rule obj now (.days setting since) action →
      since + rule.days setting * Time.day ≤ now

def Monotone (allowed : DaysSetting → Int → Prop) : Prop :=
  ∀ setting days longer, Admitted days → Admitted longer → allowed setting days →
    allowed setting longer → days ≤ longer →
    ∀ since, expectedExpiryTime since days ≤ expectedExpiryTime since longer

theorem CallsFor.days_due {rule : Rule} {obj : ObjectOpts} {now : Time} {setting : DaysSetting}
    {since : Time} {action : Action} (hcalls : CallsFor rule obj now (.days setting since) action) :
    rule.days setting ≠ 0 ∧ expectedExpiryTime since (rule.days setting) < now := by
  cases hcalls with
  | noncurrentExpiration hset _ hdue | markerExpiration hset _ hdue
  | noncurrentTransition hset _ hdue | expirationDays _ _ hset hdue
  | transitionDays _ _ hset hdue => exact ⟨ne_of_beq_false hset, hdue⟩

theorem Rule.Parsed.days_admitted {rule : Rule} (hparsed : rule.Parsed) (setting : DaysSetting)
    (hset : rule.days setting ≠ 0) : Admitted (rule.days setting) := by
  cases setting with
  | noncurrentExpiration => exact hparsed.noncurrentExpirationDays.resolve_left hset
  | noncurrentTransition => exact hparsed.noncurrentTransitionDays.resolve_left hset
  | expiration => exact hparsed.expirationDays.resolve_left hset
  | transition =>
    obtain ⟨n, hrange, hok⟩ := hparsed.transitionDays.resolve_left hset
    refine ⟨n, hrange, ?_⟩
    unfold TransitionDays.unmarshal at hok
    split at hok
    next => cases hok
    next hnonneg =>
      rw [ExpirationDays.unmarshal, if_neg]
      · exact hok
      · have hsame : n = rule.transition.days := Except.ok.inj hok
        have hset : rule.transition.days ≠ 0 := hset
        omega

theorem punctual_of_fits {lc : Lifecycle} (haccepted : lc.Accepted)
    (hfits : ∀ rule ∈ lc.rules, ∀ setting, rule.days setting ≤ maxDays) : lc.Punctual := by
  intro obj now action haction hne rule hmem setting since hcalls
  have hrule := (mem_filterActionableRules.mp hmem).1
  obtain ⟨hset, hdue⟩ := hcalls.days_due
  have hpos := (admitted_iff.mp ((haccepted.parsed rule hrule).days_admitted setting hset)).1
  have hlt := lt_expectedExpiryTime (Int.le_of_lt hpos) (hfits rule hrule setting) since
  exact Int.le_of_lt (Int.lt_trans hlt hdue)

/-! ## A rule with one setting -/

def ruleOf (days : Int) : DaysSetting → Rule
  | .noncurrentExpiration =>
    { status := Enabled, pre := { set := true }
      noncurrentVersionExpiration := { noncurrentDays := days, set := true } }
  | .noncurrentTransition =>
    { status := Enabled, pre := { set := true }
      noncurrentVersionTransition :=
        { noncurrentDays := days, storageClass := "COLD", set := true } }
  | .expiration =>
    { status := Enabled, pre := { set := true }, expiration := { days := days, set := true } }
  | .transition =>
    { status := Enabled, pre := { set := true }
      transition := { days := days, storageClass := "COLD", set := true } }

def objectOf : DaysSetting → ObjectOpts
  | .noncurrentExpiration | .noncurrentTransition =>
    { name := "object", modTime := (0 : Int), versionID := "v1", isLatest := false,
      numVersions := 2, successorModTime := (0 : Int) }
  | .expiration | .transition => { name := "object", modTime := (0 : Int) }

def actionOf : DaysSetting → Action
  | .noncurrentExpiration => .deleteVersionAction
  | .noncurrentTransition => .transitionVersionAction
  | .expiration => .deleteAction
  | .transition => .transitionAction

theorem accepted_ruleOf (hadmitted : Admitted days) (setting : DaysSetting) :
    Accepted { rules := [ruleOf days setting] } := by
  have hpos : ¬ days ≤ 0 := Int.not_le.mpr (admitted_iff.mp hadmitted).1
  have hne : days ≠ 0 := fun h => hpos (Int.le_of_eq h)
  have htransition : ∃ n, IsInt64 n ∧ TransitionDays.unmarshal n = .ok days := by
    obtain ⟨hlow, hhigh⟩ := admitted_iff.mp hadmitted
    refine ⟨days, ⟨by omega, hhigh⟩, ?_⟩
    rw [TransitionDays.unmarshal, if_neg (by omega)]
  constructor
  case parsed =>
    intro rule hmem
    cases List.mem_singleton.mp hmem
    cases setting with
    | noncurrentExpiration =>
      exact ⟨.inl rfl, .inl rfl, .inr hadmitted, .inl rfl, .inl rfl, .inl rfl, fun _ => rfl,
        fun _ => rfl, nofun, fun _ => rfl, nofun, fun _ => rfl⟩
    | noncurrentTransition =>
      exact ⟨.inl rfl, .inl rfl, .inl rfl, .inr hadmitted, .inl rfl, .inl rfl, fun _ => rfl,
        fun _ => rfl, fun _ => rfl, nofun, nofun, fun _ => rfl⟩
    | expiration =>
      exact ⟨.inr hadmitted, .inl rfl, .inl rfl, .inl rfl, .inl rfl, .inl rfl, nofun,
        fun _ => rfl, fun _ => rfl, fun _ => rfl, nofun, fun _ => rfl⟩
    | transition =>
      exact ⟨.inl rfl, .inr htransition, .inl rfl, .inl rfl, .inl rfl, .inl rfl, fun _ => rfl,
        nofun, fun _ => rfl, fun _ => rfl, nofun, fun _ => rfl⟩
  case validated =>
    have hstatus : Enabled ≠ "" := by decide
    have hzero : Time.isZero Time.zero = true := rfl
    cases setting <;>
      simp [validate, Rule.validate, ruleOf, Rule.validateID, Rule.validateStatus,
        Expiration.validate, Transition.validate, NoncurrentVersionExpiration.validate,
        NoncurrentVersionTransition.validate, Rule.validatePrefixAndFilter, Filter.isEmpty,
        Expiration.isDaysNull, Expiration.isDateNull, Transition.isDaysNull,
        Transition.isDateNull, hpos, hne, hstatus, hzero] <;>
      rfl

theorem callsFor_ruleOf (hset : days ≠ 0) (setting : DaysSetting) {now : Time}
    (hdue : expectedExpiryTime (0 : Int) days < now) :
    CallsFor (ruleOf days setting) (objectOf setting) now (.days setting (0 : Int))
      (actionOf setting) := by
  cases setting with
  | noncurrentExpiration => exact .noncurrentExpiration (beq_false_of_ne hset) rfl hdue
  | noncurrentTransition => exact .noncurrentTransition (beq_false_of_ne hset) rfl hdue
  | expiration => exact .expirationDays rfl rfl (beq_false_of_ne hset) hdue
  | transition => exact .transitionDays rfl rfl (beq_false_of_ne hset) hdue

theorem computeAction_ruleOf (hset : days ≠ 0) (setting : DaysSetting) {now : Time}
    (hdue : expectedExpiryTime (0 : Int) days < now) :
    computeAction { rules := [ruleOf days setting] } (objectOf setting) now = actionOf setting := by
  have henabled : ¬ Enabled = Disabled := by decide
  have hfront : hasPrefix "object" "" = true := by decide
  have htime : Time.isZero (0 : Int) = false := by decide
  have hzero : Time.isZero Time.zero = true := rfl
  have hversion : ¬ "" = TransitionComplete := by decide
  cases setting <;>
    simp [computeAction, filterActionableRules, ruleOf, objectOf, actionOf, Rule.selections,
      Rule.getPrefix, Filter.testTags, Filter.cachedTags, Tag.isEmpty, evaluateRules,
      Rule.evaluate, Rule.expires, Rule.expiresNoncurrent, Rule.transitionsNoncurrent,
      Rule.transitionDue, ObjectOpts.superseded, ObjectOpts.expiredObjectDeleteMarker,
      ObjectOpts.restored, Expiration.isDaysNull, Expiration.isDateNull, Transition.isNull,
      Transition.isDaysNull, Transition.isDateNull, NoncurrentVersionExpiration.isDaysNull,
      NoncurrentVersionTransition.isDaysNull, hset, hdue, henabled, hfront, htime, hzero,
      hversion]

theorem not_punctual_ruleOf (hadmitted : Admitted days) (hlong : maxDays < days)
    (setting : DaysSetting) : ¬ Punctual { rules := [ruleOf days setting] } := by
  intro hpunctual
  have hset : days ≠ 0 := Int.ne_of_gt (admitted_iff.mp hadmitted).1
  let now : Int := expectedExpiryTime (0 : Int) days + 1
  have hdue : expectedExpiryTime (0 : Int) days < now := Int.lt_succ _
  have hmem : ruleOf days setting ∈
      filterActionableRules { rules := [ruleOf days setting] } (objectOf setting) := by
    rw [mem_filterActionableRules]
    refine ⟨List.mem_singleton.mpr rfl, ?_⟩
    cases setting <;> rfl
  have hdays : (ruleOf days setting).days setting = days := by cases setting <;> rfl
  have hne : actionOf setting ≠ .noneAction := by cases setting <;> decide
  have hlate := hpunctual (objectOf setting) now (actionOf setting)
    (computeAction_ruleOf hset setting hdue) hne _ hmem setting (0 : Int)
    (callsFor_ruleOf hset setting hdue)
  have hearly := expectedExpiryTime_le hlong 0
  rw [hdays] at hlate
  have hboth : 0 + days * Time.day ≤ 0 + (days + 1) * Time.day - 2 ^ 64 + 1 :=
    Int.le_trans hlate (Int.add_le_add_right hearly 1)
  unfold Time.day Time.hour at hboth
  omega

/-- With these days the lifecycle acts in time, and not the earlier for more
days, exactly if none of them are more than 106750. -/
theorem punctual_iff (allowed : DaysSetting → Int → Prop) :
    ((∀ lc : Lifecycle, lc.Accepted → lc.OnlyDays allowed → lc.Punctual) ∧ Monotone allowed) ↔
      ∀ setting days, Admitted days → allowed setting days → days ≤ maxDays := by
  constructor
  · rintro ⟨hpunctual, _⟩ setting days hadmitted hallowed
    by_contra hlong
    apply not_punctual_ruleOf hadmitted (Int.not_le.mp hlong) setting
    apply hpunctual _ (accepted_ruleOf hadmitted setting)
    intro rule hmem other hset
    cases List.mem_singleton.mp hmem
    obtain ⟨rfl, hdays⟩ : other = setting ∧ (ruleOf days setting).days other = days := by
      cases setting <;> cases other <;> first | exact ⟨rfl, rfl⟩ | exact absurd rfl hset
    rw [hdays]
    exact hallowed
  · intro hfits
    constructor
    · intro lc haccepted honly
      apply punctual_of_fits haccepted
      intro rule hrule setting
      by_cases hset : rule.days setting = 0
      · rw [hset]
        decide
      · exact hfits setting _ ((haccepted.parsed rule hrule).days_admitted setting hset)
          (honly rule hrule setting hset)
    · intro setting days longer hdays hlonger _ hallowed hle since
      exact expectedExpiryTime_mono (Int.le_of_lt (admitted_iff.mp hdays).1) hle
        (hfits setting longer hlonger hallowed) since

/-- A configuration that keeps objects for 110000 days deletes them at once. -/
theorem longPeriod_early : Accepted { rules := [ruleOf 110000 .expiration] } ∧
    ¬ Punctual { rules := [ruleOf 110000 .expiration] } := by
  have hadmitted : Admitted 110000 := admitted_iff.mpr (by decide)
  refine ⟨accepted_ruleOf hadmitted .expiration, fun hpunctual => ?_⟩
  let created : Int := 18628 * Time.day
  have hlate := hpunctual { name := "object", modTime := created } (created + 1) .deleteAction
    (by decide) (by decide) (ruleOf 110000 .expiration) (by decide) .expiration created
    (.expirationDays rfl rfl rfl (by decide))
  exact absurd hlate (by decide)

end Lifecycle

end Fs3

/-! ## Folders without active rules

Before a folder is scanned, `HasActiveRules` says whether its objects can be
subject to the lifecycle at all. It does not count what removes the last delete
marker of an object, nor the end of a restored copy, which any rule brings
about.
-/

namespace Fs3.Lifecycle

/-- Whether `HasActiveRules` counts a rule for a start of names. -/
def Rule.isActive (rule : Rule) (pre : String) (recursive : Bool) (now : Time) : Bool :=
  if rule.status == Disabled then false
  else if pre != "" && rule.getPrefix != "" && !recursive &&
      !hasPrefix pre rule.getPrefix then false
  else if pre != "" && rule.getPrefix != "" && recursive &&
      (!hasPrefix pre rule.getPrefix && !hasPrefix rule.getPrefix pre) then false
  else if rule.noncurrentVersionExpiration.noncurrentDays > 0 then true
  else if rule.noncurrentVersionTransition.noncurrentDays > 0 then true
  else if rule.expiration.isNull && rule.transition.isNull then false
  else if !rule.expiration.isDateNull && rule.expiration.date < now then true
  else if !rule.transition.isDateNull && rule.transition.date < now then true
  else !rule.expiration.isDaysNull || !rule.transition.isDaysNull

def hasActiveRules (lc : Lifecycle) (pre : String) (recursive : Bool) (now : Time) : Bool :=
  lc.rules.any fun rule => rule.isActive pre recursive now

variable {lc : Lifecycle} {rule : Rule} {obj : ObjectOpts} {pre : String} {now : Time}

def Rule.concerns (rule : Rule) (pre : String) : Bool :=
  rule.status != Disabled && (hasPrefix pre rule.getPrefix || hasPrefix rule.getPrefix pre)

def Rule.hasActiveSetting (rule : Rule) (now : Time) : Bool :=
  rule.noncurrentVersionExpiration.noncurrentDays > 0 ||
    rule.noncurrentVersionTransition.noncurrentDays > 0 ||
    !rule.expiration.isDaysNull || !rule.transition.isDaysNull ||
    (!rule.expiration.isDateNull && rule.expiration.date < now) ||
    (!rule.transition.isDateNull && rule.transition.date < now)

/-- A rule that is selected for some object: its tags do not matter, or can be matched. -/
def Rule.selectable (rule : Rule) : Bool :=
  rule.skipsTags || rule.filter.cachedTags.all fun tag => !tag.toList.contains '&'

theorem hasPrefix_empty (text : String) : hasPrefix text "" = true := by
  rw [hasPrefix_iff]
  exact List.nil_prefix

theorem unrelated_eq (pre other : String) :
    (pre != "" && other != "" && true && (!hasPrefix pre other && !hasPrefix other pre)) =
      !(hasPrefix pre other || hasPrefix other pre) := by
  by_cases hpre : pre = ""
  · rw [hpre, hasPrefix_empty, Bool.or_true]
    rfl
  by_cases hother : other = ""
  · rw [hother, hasPrefix_empty, Bool.true_or]
    simp
  · simp [hpre, hother]

theorem isActive_recursive : rule.isActive pre true now = true ↔
    rule.concerns pre = true ∧ rule.hasActiveSetting now = true := by
  unfold Rule.isActive Rule.concerns Rule.hasActiveSetting Expiration.isNull Transition.isNull bne
  rw [← bne, ← bne, unrelated_eq, Bool.not_true, Bool.and_false, Bool.false_and]
  cases rule.status == Disabled
  case true => simp
  cases hasPrefix pre rule.getPrefix || hasPrefix rule.getPrefix pre
  case false => simp
  by_cases hexpires : rule.noncurrentVersionExpiration.noncurrentDays > 0
  · simp [hexpires]
  by_cases htransitions : rule.noncurrentVersionTransition.noncurrentDays > 0
  · simp [htransitions]
  cases rule.expiration.isDaysNull <;> cases rule.transition.isDaysNull <;>
    cases rule.expiration.isDateNull <;> cases rule.transition.isDateNull <;>
    simp [hexpires, htransitions]

/-- Under the folder no action is lost where there are no active rules: at the
time of the check, or at any time. -/
def LosesNothing (lc : Lifecycle) (pre : String) (now : Time) (times : Time → Prop) : Prop :=
  lc.hasActiveRules pre true now = false →
    ∀ obj, hasPrefix obj.name pre = true → ∀ time, times time →
      lc.computeAction obj time = .noneAction

theorem matchable_of_matchesTags (hmatches : rule.matchesTags obj = true) :
    rule.selectable = true := by
  unfold Rule.selectable
  rw [Bool.or_eq_true, List.all_eq_true]
  right
  intro tag htag
  have hmem := List.all_eq_true.mp hmatches tag htag
  rw [List.contains_iff_mem, splitAll, List.mem_map] at hmem
  obtain ⟨part, hpart, rfl⟩ := hmem
  rw [String.toList_ofList, Bool.not_eq_true', ← Bool.not_eq_true, List.contains_iff_mem]
  exact not_mem_of_mem_splitOn hpart

theorem computeAction_of_not_selectable (hpre : hasPrefix obj.name pre = true)
    (hnone : ∀ rule ∈ lc.rules, rule.concerns pre = true → rule.selectable = false) :
    lc.computeAction obj now = .noneAction := by
  by_contra hne
  obtain ⟨rule, hmem, _⟩ := computeAction_justified rfl hne
  obtain ⟨hrule, heligible⟩ := mem_filterActionableRules.mp hmem
  simp only [Rule.eligible, Rule.covers, Bool.and_eq_true, Bool.or_eq_true] at heligible
  obtain ⟨⟨_, hstatus, hname⟩, htags⟩ := heligible
  have hconcerns : rule.concerns pre = true := by
    rw [Rule.concerns, hstatus, Bool.true_and, Bool.or_eq_true]
    exact hasPrefix_or_hasPrefix hpre hname
  have hselectable : rule.selectable = true := by
    rcases htags with hmatches | hskips
    · exact matchable_of_matchesTags hmatches
    · rw [Rule.selectable, hskips, Bool.true_or]
  rw [hnone rule hrule hconcerns] at hselectable
  cases hselectable

/-! ## An object that a rule removes the copy of -/

def nameUnder (rule : Rule) (pre : String) : String :=
  (if hasPrefix rule.getPrefix pre then rule.getPrefix else pre) ++ "x"

theorem nameUnder_spec (hconcerns : rule.concerns pre = true) :
    hasPrefix (nameUnder rule pre) pre = true ∧
      hasPrefix (nameUnder rule pre) rule.getPrefix = true := by
  rw [Rule.concerns, Bool.and_eq_true, Bool.or_eq_true] at hconcerns
  have hrefl : ∀ text, hasPrefix text text = true := fun text => hasPrefix_iff.mpr List.prefix_rfl
  unfold nameUnder
  split
  next hlonger => exact ⟨hasPrefix_append hlonger _, hasPrefix_append (hrefl _) _⟩
  next hnot =>
    exact ⟨hasPrefix_append (hrefl _) _, hasPrefix_append (hconcerns.2.resolve_right hnot) _⟩

def tagsFor (rule : Rule) : String :=
  String.ofList (['&'].intercalate (rule.filter.cachedTags.map String.toList))

def restoredObject (rule : Rule) (pre : String) (expires : Time) : ObjectOpts :=
  { name := nameUnder rule pre, userTags := tagsFor rule, modTime := (0 : Int)
    transitionStatus := TransitionComplete, restoreExpires := expires }

theorem restoredObject_eligible (hconcerns : rule.concerns pre = true)
    (hselectable : rule.selectable = true) (expires : Time) :
    rule.eligible (restoredObject rule pre expires) = true := by
  obtain ⟨_, hname⟩ := nameUnder_spec hconcerns
  have hstatus : (rule.status != Disabled) = true := by
    rw [Rule.concerns, Bool.and_eq_true] at hconcerns
    exact hconcerns.1
  have hnonempty : (nameUnder rule pre != "") = true := by
    rw [bne_iff_ne, nameUnder]
    intro hempty
    have hlength := congrArg String.length hempty
    rw [String.length_append] at hlength
    exact absurd hlength (Nat.succ_ne_zero _)
  have htags : (rule.matchesTags (restoredObject rule pre expires) || rule.skipsTags) = true := by
    rw [Bool.or_eq_true]
    rw [Rule.selectable, Bool.or_eq_true, List.all_eq_true] at hselectable
    rcases hselectable with hskips | hmatchable
    · exact .inr hskips
    · left
      rw [Rule.matchesTags, Filter.testTags, List.all_eq_true]
      intro tag htag
      rw [List.contains_iff_mem]
      show tag ∈ splitAll (tagsFor rule) '&'
      rw [tagsFor, splitAll_intercalate _ (List.ne_nil_of_mem htag)]
      · exact htag
      · intro other hother
        have hfree := hmatchable other hother
        rw [Bool.not_eq_true', ← Bool.not_eq_true, List.contains_iff_mem] at hfree
        exact hfree
  simp only [Rule.eligible, Rule.covers, restoredObject, hnonempty, hstatus, hname,
    Bool.true_and] at htags ⊢
  exact htags

def Evaluation.action : Evaluation → Action
  | .returns action => action
  | .goesOn action => action

theorem evaluate_restored (hcurrent : obj.current = true)
    (hover : (!obj.restoreExpires.isZero && now > obj.restoreExpires) = true) (rule : Rule)
    (action : Action) : (rule.evaluate obj now action).action ≠ .noneAction := by
  unfold Rule.evaluate
  split
  next => simp [Evaluation.action]
  split
  next => simp [Evaluation.action]
  split
  next => simp [Evaluation.action]
  split
  next =>
    split
    next => simp [Evaluation.action]
    next =>
      dsimp only [Evaluation.action]
      rw [ObjectOpts.restored, if_pos hover]
      split <;> simp
  next hnot => exact absurd hcurrent hnot

theorem evaluateRules_restored (hcurrent : obj.current = true)
    (hover : (!obj.restoreExpires.isZero && now > obj.restoreExpires) = true) {rules : List Rule}
    {action : Action} (hsome : action ≠ .noneAction ∨ rules ≠ []) :
    evaluateRules obj now rules action ≠ .noneAction := by
  induction rules generalizing action with
  | nil => exact hsome.resolve_right fun h => h rfl
  | cons rule rules ih =>
    have hrestored := evaluate_restored hcurrent hover rule action
    unfold evaluateRules
    split
    next stopped hstop =>
      rw [hstop] at hrestored
      exact hrestored
    next after hnext =>
      rw [hnext] at hrestored
      exact ih (.inl hrestored)

theorem exists_action (hrule : rule ∈ lc.rules) (hconcerns : rule.concerns pre = true)
    (hselectable : rule.selectable = true) (now : Time) :
    ∃ obj, hasPrefix obj.name pre = true ∧ lc.computeAction obj now ≠ .noneAction := by
  -- The copy expires just before, but not at the time that stands for none.
  let expires : Int := if now - (1 : Int) = Time.zero then now - (2 : Int) else now - (1 : Int)
  have hover : (!Time.isZero expires && now > expires) = true := by
    rw [Bool.and_eq_true, Bool.not_eq_true', ← Bool.not_eq_true, Time.isZero_iff, decide_eq_true_eq]
    show expires ≠ Time.zero ∧ @LT.lt Int _ expires now
    dsimp only [expires]
    split
    next hzero =>
      have hbefore : @Eq Int (now - 1) Time.zero := hzero
      constructor <;> omega
    next hzero =>
      exact ⟨hzero, by omega⟩
  refine ⟨restoredObject rule pre expires, (nameUnder_spec hconcerns).1, ?_⟩
  have hmem : rule ∈ lc.filterActionableRules (restoredObject rule pre expires) :=
    mem_filterActionableRules.mpr ⟨hrule, restoredObject_eligible hconcerns hselectable expires⟩
  exact evaluateRules_restored rfl hover (.inr (List.ne_nil_of_mem hmem))

/-- Some rule about the folder has a setting that is counted, or none of them
can be selected for any object. -/
def SafeToSkip (lc : Lifecycle) (pre : String) (now : Time) : Prop :=
  (∃ rule ∈ lc.rules, rule.concerns pre = true ∧ rule.hasActiveSetting now = true) ∨
    ∀ rule ∈ lc.rules, rule.concerns pre = true → rule.selectable = false

/-- Where the check finds no active rules in a folder, no action is lost by
skipping it, now or at any time, exactly if it is safe to skip. -/
theorem losesNothing_iff (lc : Lifecycle) (pre : String) (now : Time) :
    (lc.LosesNothing pre now (· = now) ↔ lc.SafeToSkip pre now) ∧
      (lc.LosesNothing pre now (fun _ => True) ↔ lc.SafeToSkip pre now) := by
  have hactive : lc.hasActiveRules pre true now = true ↔
      ∃ rule ∈ lc.rules, rule.concerns pre = true ∧ rule.hasActiveSetting now = true := by
    rw [hasActiveRules, List.any_eq_true]
    exact exists_congr fun rule => and_congr_right fun _ => isActive_recursive
  have hsafe : lc.LosesNothing pre now (· = now) → lc.SafeToSkip pre now := by
    intro hloses
    rw [SafeToSkip, ← hactive]
    by_cases hrules : lc.hasActiveRules pre true now = true
    · exact .inl hrules
    · right
      intro rule hrule hconcerns
      by_contra hselectable
      rw [Bool.not_eq_false] at hselectable
      obtain ⟨obj, hname, haction⟩ := exists_action hrule hconcerns hselectable now
      exact haction (hloses (Bool.not_eq_true _ ▸ hrules) obj hname now rfl)
  have hskip : lc.SafeToSkip pre now → lc.LosesNothing pre now fun _ => True := by
    intro hsafe hrules obj hname time _
    rw [SafeToSkip, ← hactive, hrules] at hsafe
    exact computeAction_of_not_selectable hname (hsafe.resolve_left Bool.false_ne_true)
  have hsame : lc.LosesNothing pre now (fun _ => True) → lc.LosesNothing pre now (· = now) :=
    fun hloses hrules obj hname time _ => hloses hrules obj hname time trivial
  exact ⟨⟨hsafe, hsame ∘ hskip⟩, ⟨hsafe ∘ hsame, hskip⟩⟩

/-- A rule that only removes the last delete marker is accepted and not counted. -/
theorem lastMarker_lost :
    validate { rules := [{ status := Enabled, filter := { set := true }
                           expiration := { deleteMarker := { val := true, set := true }
                                           set := true } }] } = .ok () ∧
      ¬ LosesNothing
        { rules := [{ status := Enabled, filter := { set := true }
                      expiration := { deleteMarker := { val := true, set := true }
                                      set := true } }] } "logs/" Time.day (· = Time.day) := by
  refine ⟨by decide, fun hloses => ?_⟩
  have hnone := hloses (by decide)
    { name := "logs/old", modTime := (0 : Int), versionID := "v1", deleteMarker := true }
    (by decide) Time.day rfl
  exact absurd hnone (by decide)

end Fs3.Lifecycle
