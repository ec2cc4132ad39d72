import Fs3.Runtime.Text
import Fs3.Runtime.Time

/-! # Rules of a bucket's lifecycle

A rule says which objects it is about, by the start of their names and by their tags, and when they
expire or go to another tier. -/

namespace Fs3.Lifecycle

/-- A `Prefix` element, and whether it is there. -/
structure Prefix where
  text : String := ""
  set : Bool := false
  deriving DecidableEq

structure Tag where
  key : String := ""
  value : String := ""
  deriving DecidableEq

def Tag.string (tag : Tag) : String := tag.key ++ "=" ++ tag.value

def Tag.isEmpty (tag : Tag) : Bool := tag.key == ""

/-- A start of the name and several tags. -/
structure And where
  pre : Prefix := {}
  tags : List Tag := []
  deriving DecidableEq

def And.isEmpty (and : And) : Bool := and.tags.isEmpty && !and.pre.set

/-- Which objects a rule is about. -/
structure Filter where
  set : Bool := false
  pre : Prefix := {}
  and : And := {}
  tag : Tag := {}
  deriving DecidableEq

def Filter.isEmpty (filter : Filter) : Bool := !filter.set

def Filter.cachedTags (filter : Filter) : List String :=
  ((filter.and.tags ++ [filter.tag]).filter fun tag => !tag.isEmpty).map Tag.string

/-- `TestTags`: whether the tags of an object satisfy the filter. -/
def Filter.testTags (filter : Filter) (tags : List String) : Bool :=
  filter.cachedTags.all fun tag => tags.contains tag

structure ExpireDeleteMarker where
  val : Bool := false
  set : Bool := false
  deriving DecidableEq

structure Expiration where
  days : Int := 0
  date : Time := Time.zero
  deleteMarker : ExpireDeleteMarker := {}
  set : Bool := false
  deriving DecidableEq

def Expiration.isDaysNull (e : Expiration) : Bool := e.days == 0

def Expiration.isDateNull (e : Expiration) : Bool := e.date.isZero

def Expiration.isNull (e : Expiration) : Bool := e.isDaysNull && e.isDateNull

structure Transition where
  days : Int := 0
  date : Time := Time.zero
  storageClass : String := ""
  set : Bool := false
  deriving DecidableEq

def Transition.isDaysNull (t : Transition) : Bool := t.days == 0

def Transition.isDateNull (t : Transition) : Bool := t.date.isZero

def Transition.isNull (t : Transition) : Bool := t.isDaysNull && t.isDateNull

structure NoncurrentVersionExpiration where
  noncurrentDays : Int := 0
  set : Bool := false
  deriving DecidableEq

def NoncurrentVersionExpiration.isDaysNull (n : NoncurrentVersionExpiration) : Bool :=
  n.noncurrentDays == 0

structure NoncurrentVersionTransition where
  noncurrentDays : Int := 0
  storageClass : String := ""
  set : Bool := false
  deriving DecidableEq

def NoncurrentVersionTransition.isDaysNull (n : NoncurrentVersionTransition) : Bool :=
  n.noncurrentDays == 0

def Enabled : String := "Enabled"

def Disabled : String := "Disabled"

structure Rule where
  id : String := ""
  status : String := ""
  filter : Filter := {}
  pre : Prefix := {}
  expiration : Expiration := {}
  transition : Transition := {}
  noncurrentVersionExpiration : NoncurrentVersionExpiration := {}
  noncurrentVersionTransition : NoncurrentVersionTransition := {}
  deriving DecidableEq

/-- `GetPrefix`: the first of the three places that has one. -/
def Rule.getPrefix (rule : Rule) : String :=
  if rule.pre.text != "" then rule.pre.text
  else if rule.filter.pre.text != "" then rule.filter.pre.text
  else if rule.filter.and.pre.text != "" then rule.filter.and.pre.text
  else ""

end Fs3.Lifecycle

namespace Fs3

/-- The configuration of a bucket. -/
structure Lifecycle where
  rules : List Lifecycle.Rule
  deriving DecidableEq

end Fs3

/-! ## Configurations that are accepted

What the parser lets through for the fields of a rule, and what `Validate`
checks of a whole configuration afterwards.
-/

namespace Fs3.Lifecycle

inductive LifecycleError where
  | tooManyRules
  | noRule
  | duplicateID
  | xmlNotWellFormed
  | invalidRuleID
  | emptyRuleStatus
  | invalidRuleStatus
  | invalidDays
  | invalidExpiration
  | invalidDeleteMarker
  | dateNotMidnight
  | invalidFilter
  | duplicateTagKey
  | invalidTagKey
  | invalidTagValue
  | transitionInvalidDays
  | transitionInvalid
  deriving DecidableEq

/-- `ExpirationDays.UnmarshalXML`, from the number that was read. -/
def ExpirationDays.unmarshal (numDays : Int) : Except LifecycleError Int :=
  if numDays ≤ 0 then .error .invalidDays else .ok numDays

/-- `TransitionDays.UnmarshalXML`. -/
def TransitionDays.unmarshal (numDays : Int) : Except LifecycleError Int :=
  if numDays < 0 then .error .transitionInvalidDays else .ok numDays

/-- `ExpirationDate.UnmarshalXML` and the same of a transition, from the date
that was read. -/
def Date.unmarshal (date : Int) : Except LifecycleError Time :=
  if date % Time.day ≠ 0 then .error .dateNotMidnight else .ok date

def FromXML (absent : Int) (unmarshal : Int → Except LifecycleError Int) (value : Int) : Prop :=
  value = absent ∨ ∃ n, IsInt64 n ∧ unmarshal n = .ok value

/-- What the parser makes of a rule: values that passed their own checks, and
nothing in the elements that are not there. -/
structure Rule.Parsed (rule : Rule) : Prop where
  expirationDays : FromXML 0 ExpirationDays.unmarshal rule.expiration.days
  transitionDays : FromXML 0 TransitionDays.unmarshal rule.transition.days
  noncurrentExpirationDays :
    FromXML 0 ExpirationDays.unmarshal rule.noncurrentVersionExpiration.noncurrentDays
  noncurrentTransitionDays :
    FromXML 0 ExpirationDays.unmarshal rule.noncurrentVersionTransition.noncurrentDays
  expirationDate : rule.expiration.date = Time.zero ∨
    ∃ date, Date.unmarshal date = .ok rule.expiration.date
  transitionDate : rule.transition.date = Time.zero ∨
    ∃ date, Date.unmarshal date = .ok rule.transition.date
  expiration : rule.expiration.set = false → rule.expiration = {}
  transition : rule.transition.set = false → rule.transition = {}
  noncurrentVersionExpiration :
    rule.noncurrentVersionExpiration.set = false → rule.noncurrentVersionExpiration = {}
  noncurrentVersionTransition :
    rule.noncurrentVersionTransition.set = false → rule.noncurrentVersionTransition = {}
  pre : rule.pre.set = false → rule.pre = {}
  filter : rule.filter.set = false → rule.filter = {}

/-! ## Validation -/

def Tag.validate (tag : Tag) : Except LifecycleError Unit :=
  if tag.key.length = 0 ∨ tag.key.length > 128 then .error .invalidTagKey
  else if tag.value.length > 256 then .error .invalidTagValue
  else .ok ()

def And.containsDuplicateTag (and : And) : Bool := !decide (and.tags.map Tag.key).Nodup

def And.validate (and : And) : Except LifecycleError Unit :=
  let emptyPrefix := !and.pre.set
  let emptyTags := and.tags.isEmpty
  if emptyPrefix && emptyTags then .ok ()
  else if emptyPrefix && !emptyTags || !emptyPrefix && emptyTags then .error .xmlNotWellFormed
  else if and.containsDuplicateTag then .error .duplicateTagKey
  else and.tags.forM Tag.validate

def Filter.validate (filter : Filter) : Except LifecycleError Unit := do
  if filter.isEmpty then throw .xmlNotWellFormed
  if !filter.and.isEmpty then
    if filter.pre.set then throw .invalidFilter
    if !filter.tag.isEmpty then throw .invalidFilter
    filter.and.validate
  if filter.pre.set then
    if !filter.tag.isEmpty then throw .invalidFilter
  if !filter.tag.isEmpty then
    if filter.pre.set then throw .invalidFilter
    filter.tag.validate

def Expiration.validate (e : Expiration) : Except LifecycleError Unit :=
  if !e.set then .ok ()
  else if (!e.isDaysNull || !e.isDateNull) && e.deleteMarker.set then .error .invalidDeleteMarker
  else if !e.deleteMarker.set && e.isDaysNull && e.isDateNull then .error .xmlNotWellFormed
  else if !e.isDaysNull && !e.isDateNull then .error .invalidExpiration
  else .ok ()

def Transition.validate (t : Transition) : Except LifecycleError Unit :=
  if !t.set then .ok ()
  else if t.isDaysNull && t.isDateNull then .error .xmlNotWellFormed
  else if !t.isDaysNull && !t.isDateNull then .error .transitionInvalid
  else if t.storageClass == "" then .error .xmlNotWellFormed
  else .ok ()

def NoncurrentVersionExpiration.validate (n : NoncurrentVersionExpiration) :
    Except LifecycleError Unit :=
  if !n.set then .ok ()
  else if n.noncurrentDays ≤ 0 then .error .xmlNotWellFormed
  else .ok ()

def NoncurrentVersionTransition.validate (n : NoncurrentVersionTransition) :
    Except LifecycleError Unit :=
  if !n.set then .ok ()
  else if n.noncurrentDays ≤ 0 ∨ n.storageClass = "" then .error .xmlNotWellFormed
  else .ok ()

def Rule.validateID (rule : Rule) : Except LifecycleError Unit :=
  if rule.id.utf8ByteSize > 255 then .error .invalidRuleID else .ok ()

def Rule.validateStatus (rule : Rule) : Except LifecycleError Unit :=
  if rule.status == "" then .error .emptyRuleStatus
  else if rule.status != Enabled && rule.status != Disabled then .error .invalidRuleStatus
  else .ok ()

def Rule.validatePrefixAndFilter (rule : Rule) : Except LifecycleError Unit :=
  if !rule.pre.set && rule.filter.isEmpty || rule.pre.set && !rule.filter.isEmpty then
    .error .xmlNotWellFormed
  else if !rule.pre.set then rule.filter.validate
  else .ok ()

def Rule.validate (rule : Rule) : Except LifecycleError Unit := do
  rule.validateID
  rule.validateStatus
  rule.expiration.validate
  rule.noncurrentVersionExpiration.validate
  rule.validatePrefixAndFilter
  rule.transition.validate
  rule.noncurrentVersionTransition.validate
  if !rule.expiration.set && !rule.transition.set && !rule.noncurrentVersionExpiration.set &&
      !rule.noncurrentVersionTransition.set then
    throw .xmlNotWellFormed

def validate (lc : Lifecycle) : Except LifecycleError Unit :=
  if lc.rules.length > 1000 then .error .tooManyRules
  else if lc.rules.length = 0 then .error .noRule
  else do
    lc.rules.forM Rule.validate
    if ¬ (lc.rules.map Rule.id).Nodup then throw .duplicateID

/-- A configuration that was parsed and validated. -/
structure Accepted (lc : Lifecycle) : Prop where
  parsed : ∀ rule ∈ lc.rules, rule.Parsed
  validated : lc.validate = .ok ()

end Fs3.Lifecycle
