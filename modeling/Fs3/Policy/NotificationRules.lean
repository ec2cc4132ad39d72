import Fs3.Foundation.SlashPath
import Mathlib.Algebra.GroupWithZero.Nat
import Mathlib.Data.Finset.Union

/-! # Notification rules

The rules of a bucket tell the targets of an event from its name and the name of its object. -/

namespace Fs3.Notification

open Foundation

/-- `Name`, without the texts of the events. -/
inductive Name where
  | objectAccessedAll
  | objectAccessedGet
  | objectAccessedGetRetention
  | objectAccessedGetLegalHold
  | objectAccessedHead
  | objectCreatedAll
  | objectCreatedCompleteMultipartUpload
  | objectCreatedCopy
  | objectCreatedPost
  | objectCreatedPut
  | objectCreatedPutRetention
  | objectCreatedPutLegalHold
  | objectCreatedPutTagging
  | objectCreatedDeleteTagging
  | objectRemovedAll
  | objectRemovedDelete
  | objectRemovedDeleteMarkerCreated
  | bucketCreated
  | bucketRemoved
  | objectReplicationAll
  | objectReplicationFailed
  | objectReplicationComplete
  | objectReplicationMissedThreshold
  | objectReplicationReplicatedAfterThreshold
  | objectReplicationNotTracked
  | objectRestorePostInitiated
  | objectRestorePostCompleted
  | objectRestorePostAll
  | objectTransitionAll
  | objectTransitionFailed
  | objectTransitionComplete
  deriving DecidableEq

def Name.expand : Name → List Name
  | objectAccessedAll =>
    [objectAccessedGet, objectAccessedHead, objectAccessedGetRetention, objectAccessedGetLegalHold]
  | objectCreatedAll =>
    [objectCreatedCompleteMultipartUpload, objectCreatedCopy, objectCreatedPost, objectCreatedPut,
      objectCreatedPutRetention, objectCreatedPutLegalHold, objectCreatedPutTagging,
      objectCreatedDeleteTagging]
  | objectRemovedAll => [objectRemovedDelete, objectRemovedDeleteMarkerCreated]
  | objectReplicationAll =>
    [objectReplicationFailed, objectReplicationComplete, objectReplicationNotTracked,
      objectReplicationMissedThreshold, objectReplicationReplicatedAfterThreshold]
  | objectRestorePostAll => [objectRestorePostInitiated, objectRestorePostCompleted]
  | objectTransitionAll => [objectTransitionFailed, objectTransitionComplete]
  | name => [name]

structure TargetID where
  id : String
  name : String
  deriving DecidableEq

structure ARN where
  targetID : TargetID
  region : String
  deriving DecidableEq

structure FilterRule where
  name : String := ""
  value : List Char := []
  deriving DecidableEq

/-- `Queue`, with the rules of its filter. -/
structure Queue where
  id : String := ""
  rules : List FilterRule
  events : List Name
  arn : ARN
  deriving DecidableEq

structure Config where
  queueList : List Queue
  lambdaList : List String := []
  topicList : List String := []
  deriving DecidableEq

inductive Err where
  | invalidFilterName (name : String)
  | invalidFilterValue (value : List Char)
  | filterNamePrefix
  | filterNameSuffix
  | missingEventNames
  | duplicateEventName (name : Name)
  | duplicateQueueConfiguration (queue : Queue)
  | unsupportedConfiguration
  | arnNotFound (arn : ARN)
  | unknownRegion (region : String)
  deriving DecidableEq

/-! ## Configurations -/

/-- The decoder hands on valid text alone. -/
def validateFilterRuleValue (value : List Char) : Except Err Unit :=
  if (SlashPath.split value).any fun s => s = SlashPath.dot || s = SlashPath.dotdot then
    .error (.invalidFilterValue value)
  else if (value.map Char.utf8Size).sum ≤ 1024 ∧ '\\' ∉ value then .ok ()
  else .error (.invalidFilterValue value)

/-- `FilterRule.UnmarshalXML`: whether `rule`, as it is decoded, becomes the next `filter`. -/
def FilterRule.unmarshalXML (filter rule : FilterRule) : Except Err Unit :=
  if rule.name ≠ "prefix" ∧ rule.name ≠ "suffix" then .error (.invalidFilterName rule.name)
  else validateFilterRuleValue filter.value

/-- The first that is in a list again, as the loops over a `StringSet` find it. -/
def firstTwice {α : Type} [DecidableEq α] (seen : List α) : List α → Option α
  | [] => none
  | a :: rest => if a ∈ seen then some a else firstTwice (a :: seen) rest

namespace Queue

variable (q : Queue)

def unmarshalXML : Except Err Unit := do
  q.rules.forM (FilterRule.unmarshalXML {})
  match firstTwice [] (q.rules.map FilterRule.name) with
  | some name => .error (if name = "prefix" then .filterNamePrefix else .filterNameSuffix)
  | none =>
    if q.events = [] then .error .missingEventNames
    else
      match firstTwice [] q.events with
      | some name => .error (.duplicateEventName name)
      | none => .ok ()

def setRegion (region : String) : Queue := { q with arn := { q.arn with region } }

def validate (region : String) (targetList : TargetID → Bool) : Except Err Unit :=
  if q.arn.region ≠ "" ∧ region ≠ "" ∧ q.arn.region ≠ region then
    .error (.unknownRegion q.arn.region)
  else if targetList q.arn.targetID then .ok ()
  else .error (.arnNotFound q.arn)

/-- What the loop of `Pattern` ends with for a name: the value of the last rule. -/
def value (name : String) : List Char :=
  (((q.rules.filter (·.name = name)).getLast?).map FilterRule.value).getD []

end Queue

def duplicateQueue : List Queue → Option Queue
  | [] => none
  | q1 :: rest =>
    if rest.any fun q2 =>
      q1 = if q2.arn.region ≠ "" ∧ q1.arn.region = "" then q2.setRegion "" else q2
    then some q1
    else duplicateQueue rest

/-- `ParseConfig`, from the elements and the attributes of the document. -/
def parseConfig (region : String) (targetList : TargetID → Bool) (config : Config) :
    Except Err Config := do
  config.queueList.forM Queue.unmarshalXML
  match duplicateQueue config.queueList with
  | some q => .error (.duplicateQueueConfiguration q)
  | none =>
    if config.lambdaList ≠ [] ∨ config.topicList ≠ [] then .error .unsupportedConfiguration
    else
      config.queueList.forM (Queue.validate · region targetList)
      .ok { config with queueList := config.queueList.map (Queue.setRegion · region) }

/-! ## Rules -/

/-- `strings.Replace` of two stars by one. -/
def squeezeStars : List Char → List Char
  | [] => []
  | [c] => [c]
  | c :: d :: rest =>
    if c = '*' ∧ d = '*' then '*' :: squeezeStars rest else c :: squeezeStars (d :: rest)

def newPattern (pre suf : List Char) : List Char :=
  squeezeStars <|
    (if pre = [] ∨ ['*'] <:+ pre then pre else pre ++ ['*']) ++
      if suf = [] ∨ ['*'] <+: suf then suf else '*' :: suf

/-- Targets by pattern. -/
abbrev Rules := List (List Char × Finset TargetID)

namespace Rules

/-- `rules[pattern] = rules[pattern].Union(targetIDs)` -/
def put (pattern : List Char) (targetIDs : Finset TargetID) : Rules → Rules
  | [] => [(pattern, targetIDs)]
  | (other, ids) :: rules =>
    if other = pattern then (other, ids ∪ targetIDs) :: rules
    else (other, ids) :: put pattern targetIDs rules

def union (rules rules2 : Rules) : Rules :=
  rules2.foldl (fun nrules rule => put rule.1 rule.2 nrules) rules

-- `wildcard.MatchSimple`
variable (matchSimple : List Char → List Char → Bool)

/-- `Rules.Match`. -/
def matches_ (rules : Rules) (objectName : List Char) : Finset TargetID :=
  rules.foldl (fun ids rule => if matchSimple rule.1 objectName then ids ∪ rule.2 else ids) ∅

end Rules

/-- Rules by event: a name without any is no key. -/
abbrev RulesMap := Name → Rules

def newRulesMap (eventNames : List Name) (pattern : List Char) (targetID : TargetID) : RulesMap :=
  let rules := Rules.put (if pattern = [] then ['*'] else pattern) {targetID} []
  (eventNames.flatMap Name.expand).foldl
    (fun rulesMap name => Function.update rulesMap name ((rulesMap name).union rules)) fun _ => []

def RulesMap.add (rulesMap rulesMap2 : RulesMap) : RulesMap := fun eventName =>
  if rulesMap2 eventName = [] then rulesMap eventName
  else (rulesMap2 eventName).union (rulesMap eventName)

def Queue.toRulesMap (q : Queue) : RulesMap :=
  newRulesMap q.events (newPattern (q.value "prefix") (q.value "suffix")) q.arn.targetID

def Config.toRulesMap (config : Config) : RulesMap :=
  config.queueList.foldl (fun rulesMap q => rulesMap.add q.toRulesMap) fun _ => []

/-! ## Patterns -/

/-- What a pattern with stars matches. -/
def globs : List Char → List Char → Bool
  | [], name => name.isEmpty
  | c :: pattern, name =>
    if c = '*' then name.tails.any (globs pattern)
    else
      match name with
      | [] => false
      | d :: rest => c = d && globs pattern rest

theorem globs_append {pre pattern name : List Char} (hpre : '*' ∉ pre) :
    globs (pre ++ pattern) name = true ↔ ∃ rest, name = pre ++ rest ∧ globs pattern rest = true := by
  induction pre generalizing name with
  | nil => simp
  | cons c pre ih =>
    obtain ⟨hc, hpre⟩ := not_or.mp (mt List.mem_cons.mpr hpre)
    cases name with
    | nil => simp [globs, Ne.symm hc]
    | cons d rest =>
      rw [List.cons_append, globs, if_neg (Ne.symm hc), Bool.and_eq_true, decide_eq_true_iff, ih hpre]
      constructor
      · rintro ⟨rfl, rest, rfl, hrest⟩
        exact ⟨rest, rfl, hrest⟩
      · rintro ⟨rest, heq, hrest⟩
        obtain ⟨rfl, rfl⟩ := List.cons.inj heq
        exact ⟨rfl, rest, rfl, hrest⟩

theorem globs_star {pre suf name : List Char} (hpre : '*' ∉ pre) (hsuf : '*' ∉ suf) :
    globs (pre ++ '*' :: suf) name = true ↔
      pre <+: name ∧ suf <:+ name ∧ pre.length + suf.length ≤ name.length := by
  have hend : ∀ rest, globs ('*' :: suf) rest = true ↔ suf <:+ rest := by
    intro rest
    have hself : ∀ tail, globs suf tail = true ↔ tail = suf := by
      intro tail
      rw [← List.append_nil suf, globs_append hsuf]
      simp [globs]
    simp [globs, hself]
  rw [globs_append hpre]
  constructor
  · rintro ⟨rest, rfl, hrest⟩
    have hsuffix := (hend rest).mp hrest
    refine ⟨List.prefix_append _ _, hsuffix.trans (List.suffix_append _ _), ?_⟩
    rw [List.length_append]
    exact Nat.add_le_add_left hsuffix.length_le _
  · rintro ⟨⟨rest, rfl⟩, hsuffix, hlength⟩
    rw [List.length_append] at hlength
    exact ⟨rest, rfl, (hend rest).mpr (List.suffix_of_suffix_length_le hsuffix
      (List.suffix_append _ _) (Nat.le_of_add_le_add_left hlength))⟩

theorem squeezeStars_append {pre : List Char} (hpre : '*' ∉ pre) (rest : List Char) :
    squeezeStars (pre ++ rest) = pre ++ squeezeStars rest := by
  induction pre with
  | nil => rfl
  | cons c pre ih =>
    obtain ⟨hc, hpre⟩ := not_or.mp (mt List.mem_cons.mpr hpre)
    rw [List.cons_append, List.cons_append, ← ih hpre]
    cases pre ++ rest with
    | nil => rfl
    | cons d tail => rw [squeezeStars, if_neg fun h => hc h.1.symm]

theorem pattern_eq {pre suf : List Char} (hpre : '*' ∉ pre) (hsuf : '*' ∉ suf) :
    (if newPattern pre suf = [] then ['*'] else newPattern pre suf) = pre ++ '*' :: suf := by
  have hplain : squeezeStars suf = suf := by
    rw [← List.append_nil suf, squeezeStars_append hsuf, squeezeStars]
  have hone : squeezeStars ('*' :: suf) = '*' :: suf := by
    cases suf with
    | nil => rfl
    | cons c suf => rw [squeezeStars, if_neg fun h : _ ∧ c = '*' => hsuf (h.2 ▸ List.mem_cons_self), hplain]
  have hend : ¬ ['*'] <:+ pre := fun h => hpre (h.subset List.mem_cons_self)
  have hstart : ¬ ['*'] <+: suf := fun h => hsuf (h.subset List.mem_cons_self)
  rw [newPattern]
  by_cases hnil : pre = []
  · by_cases hnil' : suf = []
    · rw [hnil, hnil']
      rfl
    · simp [hnil, hnil', hstart, hone]
  · by_cases hnil' : suf = []
    · have hsqueeze := squeezeStars_append hpre ['*']
      simp_all [squeezeStars]
    · simp [hnil, hnil', hstart, hend, squeezeStars_append hpre, squeezeStars, hplain]

/-! ## Targets -/

theorem foldl_iff {α β : Type} {P : β → Prop} {Q : α → Prop} {f : β → α → β}
    (hf : ∀ b a, P (f b a) ↔ P b ∨ Q a) (l : List α) (b : β) :
    P (l.foldl f b) ↔ P b ∨ ∃ a ∈ l, Q a := by
  induction l generalizing b with
  | nil => simp
  | cons a l ih =>
    rw [List.foldl_cons, ih, hf, List.exists_mem_cons_iff, or_assoc]

variable {matchSimple : List Char → List Char → Bool} {objectName : List Char} {t : TargetID}

/-- A rule tells that a target is one. -/
abbrev Rules.Tells (matchSimple : List Char → List Char → Bool) (rules : Rules)
    (objectName : List Char) (t : TargetID) : Prop :=
  ∃ rule ∈ rules, matchSimple rule.1 objectName = true ∧ t ∈ rule.2

theorem Rules.mem_matches (rules : Rules) :
    t ∈ rules.matches_ matchSimple objectName ↔ rules.Tells matchSimple objectName t := by
  rw [matches_, foldl_iff (P := (t ∈ ·))
    (Q := fun rule => matchSimple rule.1 objectName = true ∧ t ∈ rule.2)]
  · simp
  · intro ids rule
    split <;> simp_all

theorem Rules.tells_put (pattern : List Char) (ids : Finset TargetID) (rules : Rules) :
    (put pattern ids rules).Tells matchSimple objectName t ↔
      rules.Tells matchSimple objectName t ∨ matchSimple pattern objectName = true ∧ t ∈ ids := by
  induction rules with
  | nil => simp [put]
  | cons rule rules ih =>
    obtain ⟨other, old⟩ := rule
    rw [put]
    split
    next hsame =>
      subst hsame
      simp only [Tells, List.exists_mem_cons_iff, Finset.mem_union, and_or_left]
      rw [or_assoc, or_assoc, or_comm (b := _ ∧ t ∈ ids)]
    next =>
      simp only [Tells, List.exists_mem_cons_iff] at ih ⊢
      rw [ih, or_assoc]

theorem Rules.tells_union (rules rules2 : Rules) :
    (rules.union rules2).Tells matchSimple objectName t ↔
      rules.Tells matchSimple objectName t ∨ rules2.Tells matchSimple objectName t :=
  foldl_iff (P := fun rules => rules.Tells matchSimple objectName t)
    (fun rules rule => tells_put rule.1 rule.2 rules) rules2 rules

theorem tells_newRulesMap {eventNames : List Name} {pattern : List Char} {targetID : TargetID}
    {eventName : Name} :
    (newRulesMap eventNames pattern targetID eventName).Tells matchSimple objectName t ↔
      eventName ∈ eventNames.flatMap Name.expand ∧
        matchSimple (if pattern = [] then ['*'] else pattern) objectName = true ∧ t = targetID := by
  rw [newRulesMap, foldl_iff (P := fun rulesMap : RulesMap =>
    (rulesMap eventName).Tells matchSimple objectName t)
    (Q := fun name => eventName = name ∧
      matchSimple (if pattern = [] then ['*'] else pattern) objectName = true ∧ t = targetID)]
  · simp
  · intro rulesMap name
    rw [Function.update_apply]
    split
    next hsame =>
      subst hsame
      rw [Rules.tells_union]
      simp [Rules.put]
    next hne => simp [hne]

/-- The queue is configured for the event, and for the object by its prefix and its suffix. -/
abbrev Queue.Covers (q : Queue) (eventName : Name) (objectName : List Char) : Prop :=
  eventName ∈ q.events.flatMap Name.expand ∧ q.value "prefix" <+: objectName ∧
    q.value "suffix" <:+ objectName

/-- No value has a star or a question mark. -/
abbrev Config.Plain (config : Config) : Prop :=
  ∀ q ∈ config.queueList, ∀ rule ∈ q.rules, '*' ∉ rule.value ∧ '?' ∉ rule.value

abbrev Config.Valid (config : Config) : Prop :=
  ∀ q ∈ config.queueList, ∀ rule ∈ q.rules, validateFilterRuleValue rule.value = .ok ()

/-- Prefix and suffix do not overlap in the name. -/
def Queue.Apart (q : Queue) (objectName : List Char) : Prop :=
  (q.value "prefix").length + (q.value "suffix").length ≤ objectName.length

structure Config.Met (matchSimple : List Char → List Char → Bool) (config : Config)
    (eventName : Name) (objectName : List Char) : Prop where
  valid : config.Valid
  targets : config.Plain → ∀ t,
    t ∈ (config.toRulesMap eventName).matches_ matchSimple objectName ↔
      ∃ q ∈ config.queueList, q.Covers eventName objectName ∧ t = q.arn.targetID

theorem tells_toRulesMap (config : Config) (eventName : Name) :
    t ∈ (config.toRulesMap eventName).matches_ matchSimple objectName ↔
      ∃ q ∈ config.queueList, (q.toRulesMap eventName).Tells matchSimple objectName t := by
  rw [Rules.mem_matches, Config.toRulesMap, foldl_iff (P := fun rulesMap : RulesMap =>
    (rulesMap eventName).Tells matchSimple objectName t)
    (Q := fun q => (q.toRulesMap eventName).Tells matchSimple objectName t)]
  · simp
  · intro rulesMap q
    rw [RulesMap.add]
    split
    next hnone => simp [hnone]
    next => rw [Rules.tells_union, or_comm]

/-- A configuration tells what each of its queues would tell alone. -/
theorem matches_eq_biUnion (config : Config) (eventName : Name) (objectName : List Char) :
    (config.toRulesMap eventName).matches_ matchSimple objectName =
      config.queueList.toFinset.biUnion fun q =>
        (q.toRulesMap eventName).matches_ matchSimple objectName := by
  ext t
  rw [tells_toRulesMap]
  simp only [Finset.mem_biUnion, List.mem_toFinset, Rules.mem_matches]

theorem Config.Plain.value {config : Config} (hplain : config.Plain) {q : Queue}
    (hq : q ∈ config.queueList) (name : String) : '*' ∉ q.value name ∧ '?' ∉ q.value name := by
  rw [Queue.value]
  cases hlast : (q.rules.filter (·.name = name)).getLast? with
  | none => simp
  | some rule => exact hplain q hq rule (List.mem_filter.mp (List.mem_of_getLast? hlast)).1

theorem tells_toRulesMap_queue (hmatch : ∀ pattern name, '?' ∉ pattern →
    matchSimple pattern name = globs pattern name) {config : Config} (hplain : config.Plain)
    {q : Queue} (hq : q ∈ config.queueList) (eventName : Name) :
    (q.toRulesMap eventName).Tells matchSimple objectName t ↔
      (q.Covers eventName objectName ∧ q.Apart objectName) ∧ t = q.arn.targetID := by
  obtain ⟨hpre, hpre'⟩ := hplain.value hq "prefix"
  obtain ⟨hsuf, hsuf'⟩ := hplain.value hq "suffix"
  rw [Queue.toRulesMap, tells_newRulesMap, pattern_eq hpre hsuf, hmatch _ _ (by simp [*]),
    globs_star hpre hsuf, Queue.Covers, Queue.Apart]
  tauto

theorem bind_eq_ok {ε α β : Type} {x : Except ε α} {f : α → Except ε β} {b : β} :
    x >>= f = .ok b ↔ ∃ a, x = .ok a ∧ f a = .ok b := by
  cases x <;> simp [bind, Except.bind]

theorem eq_of_parseConfig {region : String} {targetList : TargetID → Bool} {config parsed : Config}
    (hparse : parseConfig region targetList config = .ok parsed) :
    parsed = { config with queueList := config.queueList.map (Queue.setRegion · region) } := by
  obtain ⟨_, -, hchecked⟩ := bind_eq_ok.mp hparse
  split at hchecked
  next => cases hchecked
  next =>
    split at hchecked
    next => cases hchecked
    next =>
      obtain ⟨_, -, hreturn⟩ := bind_eq_ok.mp hchecked
      exact (Except.ok.inj hreturn).symm

/-- A target that is to be told has a queue whose prefix and suffix are apart in the name. -/
def Config.Served (config : Config) (eventName : Name) (objectName : List Char) : Prop :=
  ∀ q ∈ config.queueList, q.Covers eventName objectName →
    ∃ other ∈ config.queueList, other.Covers eventName objectName ∧ other.Apart objectName ∧
      other.arn.targetID = q.arn.targetID

theorem Config.met_iff (hmatch : ∀ pattern name, '?' ∉ pattern →
    matchSimple pattern name = globs pattern name) (config : Config) (eventName : Name) :
    config.Met matchSimple eventName objectName ↔
      config.Valid ∧ (config.Plain → config.Served eventName objectName) := by
  have htells := fun (hplain : config.Plain) q hq t =>
    @tells_toRulesMap_queue _ objectName t hmatch _ hplain q hq eventName
  constructor
  · rintro ⟨hvalid, htargets⟩
    refine ⟨hvalid, fun hplain q hq hcovers => ?_⟩
    obtain ⟨other, hother, htold⟩ := (tells_toRulesMap _ _).mp
      ((htargets hplain q.arn.targetID).mpr ⟨q, hq, hcovers, rfl⟩)
    obtain ⟨⟨hcovers', hapart⟩, hsame⟩ := (htells hplain other hother _).mp htold
    exact ⟨other, hother, hcovers', hapart, hsame.symm⟩
  · rintro ⟨hvalid, hserved⟩
    refine ⟨hvalid, fun hplain t => ?_⟩
    rw [tells_toRulesMap]
    constructor
    · rintro ⟨q, hq, htold⟩
      obtain ⟨⟨hcovers, -⟩, hsame⟩ := (htells hplain q hq t).mp htold
      exact ⟨q, hq, hcovers, hsame⟩
    · rintro ⟨q, hq, hcovers, rfl⟩
      obtain ⟨other, hother, hcovers', hapart, hsame⟩ := hserved hplain q hq hcovers
      exact ⟨other, hother, (htells hplain other hother _).mpr ⟨⟨hcovers', hapart⟩, hsame.symm⟩⟩

/-- An accepted configuration has valid values, and tells the targets that it should, exactly when
the values in its document are valid, and no target depends on a prefix and a suffix that
overlap in the name. -/
theorem parseConfig_met_iff (hmatch : ∀ pattern name, '?' ∉ pattern →
    matchSimple pattern name = globs pattern name) {region : String}
    {targetList : TargetID → Bool} {config parsed : Config}
    (hparse : parseConfig region targetList config = .ok parsed) (eventName : Name)
    (objectName : List Char) :
    parsed.Met matchSimple eventName objectName ↔
      config.Valid ∧ (config.Plain → config.Served eventName objectName) := by
  rw [Config.met_iff hmatch, eq_of_parseConfig hparse]
  simp only [Config.Valid, Config.Plain, Config.Served, List.mem_map, forall_exists_index,
    and_imp, forall_apply_eq_imp_iff₂, exists_exists_and_eq_and]
  rfl

def queueOf (rules : List FilterRule) : Config where
  queueList := [⟨"", rules, [.objectCreatedAll], ⟨⟨"1", "webhook"⟩, ""⟩⟩]

def allTargets : TargetID → Bool := fun _ => true

theorem jpgQueue_met : (queueOf [⟨"suffix", ".jpg".toList⟩]).Met globs .objectCreatedPut
    "a.jpg".toList :=
  (@parseConfig_met_iff globs (fun _ _ _ => rfl) "" allTargets
    (queueOf [⟨"suffix", ".jpg".toList⟩]) _ (by decide) .objectCreatedPut "a.jpg".toList).mpr
    ⟨by decide, fun _ q hq hcovers => ⟨q, hq, hcovers, by
      cases List.mem_singleton.mp hq
      exact Nat.le_of_ble_eq_true rfl, rfl⟩⟩

theorem filters_not_met :
    (parseConfig "" allTargets (queueOf [⟨"prefix", "..".toList⟩]) =
        .ok (queueOf [⟨"prefix", "..".toList⟩]) ∧
      ¬ (queueOf [⟨"prefix", "..".toList⟩]).Valid) ∧
    parseConfig "" allTargets (queueOf [⟨"prefix", "ab".toList⟩, ⟨"suffix", "bc".toList⟩]) =
        .ok (queueOf [⟨"prefix", "ab".toList⟩, ⟨"suffix", "bc".toList⟩]) ∧
      ¬ (queueOf [⟨"prefix", "ab".toList⟩, ⟨"suffix", "bc".toList⟩]).Met globs .objectCreatedPut
        "abc".toList := by
  refine ⟨⟨by decide, by decide⟩, by decide, fun hmet => ?_⟩
  have htold := (hmet.targets (by decide) ⟨"1", "webhook"⟩).mpr
    ⟨_, List.mem_cons_self, by decide, rfl⟩
  exact absurd htold (by decide)

end Fs3.Notification
