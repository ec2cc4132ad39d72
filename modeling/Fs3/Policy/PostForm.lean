import Fs3.Runtime.Text
import Fs3.Runtime.Time
import Mathlib.Tactic.NormNum

/-! # Uploads with a signed form

A form comes with a document that its sender has signed. -/

namespace Fs3.PostPolicy

/-- A JSON value: any other than a text or a number is refused wherever it stands. -/
inductive Value where
  | text (text : String)
  | number (float64 : Rat)
  | other
  deriving DecidableEq

inductive RawCondition where
  | object (fields : List (String × Value))
  | array (elems : List Value)
  | other

/-- The document, with its time and its conditions decoded. -/
structure Document where
  expiration : Int
  conditions : List RawCondition

inductive Err where
  | unknownType
  | malformedConditionalFields
  | unknownField
  | invalidNumberFormat
  | atoi (err : NumError)
  | policyConditionFailed
  | policyExpired
  | extraInputFields
  | errDataTooSmall
  | errDataTooLarge
  deriving DecidableEq

namespace Value

def toString : Value → String
  | text s => s
  | _ => ""

def isString : Value → Bool
  | text _ => true
  | _ => false

/-- `int64` of a `float64`: what is out of range gives the smallest integer. -/
def int64 (float64 : Rat) : Int :=
  let whole := float64.num.tdiv float64.den
  if -2 ^ 63 ≤ whole ∧ whole < 2 ^ 63 then whole else -2 ^ 63

def toInteger : Value → Except Err Int
  | text s =>
    match atoi s with
    | (_, some err) => .error (.atoi err)
    | (n, none) => .ok n
  | number float64 => .ok (int64 float64)
  | other => .error .invalidNumberFormat

end Value

structure Policy where
  operator : String
  key : String
  value : String

structure PostPolicyForm where
  expiration : Int
  policies : List Policy
  /-- `Min` and `Max` if it is valid. -/
  contentLengthRange : Option (Int × Int)

def startsWithConds : List (String × Bool) :=
  [("$acl", true), ("$bucket", false), ("$cache-control", true), ("$content-type", true),
    ("$content-disposition", true), ("$content-encoding", true), ("$expires", true),
    ("$key", true), ("$success_action_redirect", true), ("$redirect", true),
    ("$success_action_status", false), ("$x-amz-algorithm", false), ("$x-amz-credential", false),
    ("$x-amz-date", false)]

def isTokenRune (rune : Char) : Bool :=
  rune.isAlphanum || rune ∈ "!#$%&*+-.^_|~".toList || rune.toNat = 0x27 || rune.toNat = 0x60

def canonicalRunes (upper : Bool) : List Char → List Char
  | [] => []
  | rune :: runes =>
    (if upper then rune.toUpper else rune.toLower) :: canonicalRunes (rune == '-') runes

/-- `http.CanonicalHeaderKey` -/
def canonicalHeaderKey (key : String) : String :=
  if key.toList.all isTokenRune then String.ofList (canonicalRunes true key.toList) else key

/-- `strings.TrimPrefix` of the dollar sign. -/
def trimDollar (key : String) : String :=
  if hasPrefix key "$" then String.ofList key.toList.tail else key

/-- The form fields under their canonical names. -/
abbrev Header := List (String × List String)

/-- `Header.Get`: the first value, if there is one. -/
def Header.get (form : Header) (key : String) : String :=
  ((form.lookup (canonicalHeaderKey key)).getD []).headD ""

-- `strings.ToLower`
variable (lower : String → String)

def addCondition (form : PostPolicyForm) : RawCondition → Except Err PostPolicyForm
  | .object fields =>
    if fields.all fun f => f.2.isString then
      let policies := fields.map fun f => ⟨"eq", "$" ++ lower f.1, f.2.toString⟩
      .ok { form with policies := form.policies ++ policies }
    else .error .unknownType
  | .array [operator, matchType, value] =>
    if lower operator.toString = "eq" ∨ lower operator.toString = "starts-with" then
      if operator.isString ∧ matchType.isString ∧ value.isString then
        if hasPrefix (lower matchType.toString) "$" then
          let policy := ⟨lower operator.toString, lower matchType.toString, value.toString⟩
          .ok { form with policies := form.policies ++ [policy] }
        else .error .policyConditionFailed
      else .error .unknownType
    else if lower operator.toString = "content-length-range" then
      match matchType.toInteger, value.toInteger with
      | .ok min, .ok max => .ok { form with contentLengthRange := some (min, max) }
      | .error err, _ => .error err
      | .ok _, .error err => .error err
    else .error .unknownType
  | .array _ => .error .malformedConditionalFields
  | .other => .error .unknownField

def parsePostPolicyForm (doc : Document) : Except Err PostPolicyForm :=
  doc.conditions.foldlM (addCondition lower) ⟨doc.expiration, [], none⟩

def checkPolicyCond (op input1 input2 : String) : Bool :=
  if op = "eq" then input1 == input2
  else if op = "starts-with" then hasPrefix input1 input2
  else false

/-- The turn of the loop over the conditions; one whose name is not known passes. -/
def checkCondition (formValues : Header) (policy : Policy) : Bool :=
  let formCanonicalName := canonicalHeaderKey (trimDollar policy.key)
  match startsWithConds.lookup policy.key with
  | some startsWithSupported =>
    if policy.operator = "starts-with" ∧ startsWithSupported = false then false
    else checkPolicyCond policy.operator (formValues.get formCanonicalName) policy.value
  | none =>
    if hasPrefix policy.key "$x-amz-meta-" ∨ hasPrefix policy.key "$x-amz-" then
      checkPolicyCond policy.operator (formValues.get formCanonicalName) policy.value
    else true

/-- The names in `metaMap`. -/
def metaNames (policies : List Policy) : List String :=
  (policies.filter fun policy => hasPrefix policy.key "$x-amz-meta-").map fun policy =>
    canonicalHeaderKey (trimDollar policy.key)

def checkPostPolicy (now : Int) (formValues : Header) (form : PostPolicyForm) : Except Err Unit :=
  if ¬ now < form.expiration then .error .policyExpired
  else if formValues.any fun field =>
      hasPrefix field.1 "X-Amz-Meta-" && !(metaNames form.policies).contains field.1 then
    .error .extraInputFields
  else if form.policies.all (checkCondition formValues) then .ok ()
  else .error .policyConditionFailed

def globalMaxObjectSize : Int := 5 * 1024 ^ 4

def checkLength (fileSize : Int) : Option (Int × Int) → Except Err Unit
  | none => .ok ()
  | some (min, max) =>
    if fileSize < min then .error .errDataTooSmall
    else if max < fileSize ∨ globalMaxObjectSize < fileSize then .error .errDataTooLarge
    else .ok ()

/-- The part of `PostPolicyBucketHandler` that is about the document. -/
def checkUpload (now : Int) (doc : Document) (formValues : Header) (fileSize : Int) :
    Except Err Unit := do
  let form ← parsePostPolicyForm lower doc
  checkPostPolicy now formValues form
  checkLength fileSize form.contentLengthRange

/-! ## What the document says -/

/-- One condition: on the field of a name, which is looked for under a key, or on the length. -/
inductive Statement where
  | field (operator key name value : String)
  | range (min max : Value)
  deriving DecidableEq

def statements : RawCondition → List Statement
  | .object fields => fields.map fun f => .field "eq" ("$" ++ lower f.1) f.1 f.2.toString
  | .array [operator, matchType, value] =>
    if lower operator.toString = "eq" ∨ lower operator.toString = "starts-with" then
      [.field (lower operator.toString) (lower matchType.toString)
        (trimDollar matchType.toString) value.toString]
    else [.range matchType value]
  | _ => []

def Document.statements (doc : Document) : List Statement :=
  doc.conditions.flatMap (PostPolicy.statements lower)

def Value.bound : Value → Option Rat
  | text s => if (atoi s).2 = none then some (atoi s).1 else none
  | number float64 => some float64
  | other => none

def Statement.Holds (formValues : Header) (fileSize : Int) : Statement → Prop
  | field operator _ name value =>
    (operator = "eq" → formValues.get name = value) ∧
      (operator = "starts-with" → value.toList <+: (formValues.get name).toList)
  | range min max =>
    (∀ bound, min.bound = some bound → bound ≤ fileSize) ∧
      ∀ bound, max.bound = some bound → (fileSize : Rat) ≤ bound

/-- All conditions hold, and every metadata field is one that a condition names. -/
structure Document.Met (doc : Document) (formValues : Header) (fileSize : Int) : Prop where
  holds : ∀ statement ∈ doc.statements lower, statement.Holds formValues fileSize
  named : ∀ field ∈ formValues, hasPrefix field.1 "X-Amz-Meta-" = true →
    ∃ operator key name value, .field operator key name value ∈ doc.statements lower ∧
      canonicalHeaderKey (trimDollar key) = field.1

/-- A key that the loop passes over, or under which it finds another field than the one named. -/
def Unchecked (key name : String) : Prop :=
  startsWithConds.lookup key = none ∧ hasPrefix key "$x-amz-" = false ∨
    canonicalHeaderKey (canonicalHeaderKey (trimDollar key)) ≠ canonicalHeaderKey name

def Inexact (bound : Value) : Prop :=
  ∃ float64, bound = .number float64 ∧ (Value.int64 float64 : Rat) ≠ float64

/-- The conditions that are not checked hold: those on fields outside the tables, the ranges
before the last, and a range whose bounds are not the integers that are compared. -/
structure UncheckedHold (doc : Document) (formValues : Header) (fileSize : Int) : Prop where
  fields : ∀ operator key name value, .field operator key name value ∈ doc.statements lower →
    Unchecked key name → (Statement.field operator key name value).Holds formValues fileSize
  ranges : ∀ before min max after, doc.statements lower = before ++ .range min max :: after →
    ((∃ min' max', .range min' max' ∈ after) ∨ Inexact min ∨ Inexact max) →
      (Statement.range min max).Holds formValues fileSize

variable {lower}

/-- What a parsed form keeps of the statements that have been read. -/
structure Collects (form : PostPolicyForm) (read : List Statement) : Prop where
  kept : ∀ operator key name value, .field operator key name value ∈ read →
    ⟨operator, key, value⟩ ∈ form.policies
  from_ : ∀ policy ∈ form.policies, ∃ name, .field policy.operator policy.key name policy.value ∈ read
  range : ∀ before min max after, read = before ++ .range min max :: after →
    (∀ min' max', .range min' max' ∉ after) → ∃ low high, min.toInteger = .ok low ∧
      max.toInteger = .ok high ∧ form.contentLengthRange = some (low, high)

theorem Collects.addFields {form : PostPolicyForm} {read : List Statement}
    (hcollects : Collects form read) (fields : List (String × String × String × String)) :
    Collects { form with policies := form.policies ++ fields.map fun f => ⟨f.1, f.2.1, f.2.2.2⟩ }
      (read ++ fields.map fun f => .field f.1 f.2.1 f.2.2.1 f.2.2.2) := by
  obtain ⟨hkept, hfrom, hrange⟩ := hcollects
  constructor
  · intro operator key name value hmem
    rcases List.mem_append.mp hmem with hmem | hmem
    · exact List.mem_append_left _ (hkept _ _ _ _ hmem)
    · obtain ⟨f, hf, heq⟩ := List.mem_map.mp hmem
      cases heq
      exact List.mem_append_right _ (List.mem_map.mpr ⟨f, hf, rfl⟩)
  · intro policy hpolicy
    rcases List.mem_append.mp hpolicy with hpolicy | hpolicy
    · obtain ⟨name, hname⟩ := hfrom policy hpolicy
      exact ⟨name, List.mem_append_left _ hname⟩
    · obtain ⟨f, hf, rfl⟩ := List.mem_map.mp hpolicy
      exact ⟨f.2.2.1, List.mem_append_right _ (List.mem_map.mpr ⟨f, hf, rfl⟩)⟩
  · intro before min max after hsplit hlast
    rcases List.append_eq_append_iff.mp hsplit with ⟨more, rfl, hmore⟩ | ⟨more, rfl, hmore⟩
    · -- a range among the fields that are added
      have hmem : Statement.range min max ∈
          fields.map fun f => Statement.field f.1 f.2.1 f.2.2.1 f.2.2.2 := by
        rw [hmore]
        simp
      simp at hmem
    · cases more with
      | nil =>
        have hmem : Statement.range min max ∈
            fields.map fun f => Statement.field f.1 f.2.1 f.2.2.1 f.2.2.2 := by
          rw [← List.nil_append (fields.map _), ← hmore]
          exact List.mem_cons_self
        simp at hmem
      | cons first more =>
        obtain ⟨rfl, rfl⟩ := List.cons.inj hmore
        exact hrange before min max more rfl fun min' max' hmem =>
          hlast min' max' (List.mem_append_left _ hmem)

theorem Collects.addRange {form : PostPolicyForm} {read : List Statement}
    (hcollects : Collects form read) {min max : Value} {low high : Int}
    (hmin : min.toInteger = .ok low) (hmax : max.toInteger = .ok high) :
    Collects { form with contentLengthRange := some (low, high) } (read ++ [.range min max]) := by
  obtain ⟨hkept, hfrom, -⟩ := hcollects
  constructor
  · intro operator key name value hmem
    rcases List.mem_append.mp hmem with hmem | hmem
    · exact hkept operator key name value hmem
    · cases List.mem_singleton.mp hmem
  · intro policy hpolicy
    obtain ⟨name, hname⟩ := hfrom policy hpolicy
    exact ⟨name, List.mem_append_left _ hname⟩
  · intro before min' max' after hsplit hlast
    -- no range comes after it, so it is the one that is added
    rcases List.eq_nil_or_concat after with rfl | ⟨rest, final, rfl⟩
    · obtain ⟨-, hsame⟩ := List.append_inj' hsplit rfl
      cases hsame
      exact ⟨low, high, hmin, hmax, rfl⟩
    · rw [List.concat_eq_append, ← List.cons_append, ← List.append_assoc] at hsplit
      obtain ⟨-, hsame⟩ := List.append_inj' hsplit rfl
      cases hsame
      exact absurd (by simp) (hlast min max)

theorem Collects.addCondition {form form' : PostPolicyForm} {read : List Statement}
    (hcollects : Collects form read) {condition : RawCondition}
    (hadd : PostPolicy.addCondition lower form condition = .ok form') :
    Collects form' (read ++ statements lower condition) := by
  unfold PostPolicy.addCondition at hadd
  split at hadd
  next fields =>
    split at hadd
    next =>
      cases hadd
      have hfields := hcollects.addFields
        (fields.map fun f => ("eq", "$" ++ lower f.1, f.1, f.2.toString))
      rw [List.map_map, List.map_map] at hfields
      exact hfields
    next => cases hadd
  next operator matchType value =>
    rw [statements]
    split at hadd
    next hoperator =>
      rw [if_pos hoperator]
      split at hadd
      next =>
        split at hadd
        next =>
          cases hadd
          exact hcollects.addFields [(lower operator.toString, lower matchType.toString,
            trimDollar matchType.toString, value.toString)]
        next => cases hadd
      next => cases hadd
    next hoperator =>
      rw [if_neg hoperator]
      split at hadd
      next =>
        split at hadd
        next low high hmin hmax =>
          cases hadd
          exact hcollects.addRange hmin hmax
        next => cases hadd
        next => cases hadd
      next => cases hadd
  next => cases hadd
  next => cases hadd

theorem collects_parsePostPolicyForm {doc : Document} {form : PostPolicyForm}
    (hparse : parsePostPolicyForm lower doc = .ok form) :
    Collects form (doc.statements lower) := by
  have hfold : ∀ (conditions : List RawCondition) (start : PostPolicyForm) (read : List Statement),
      Collects start read → conditions.foldlM (PostPolicy.addCondition lower) start = .ok form →
      Collects form (read ++ conditions.flatMap (statements lower)) := by
    intro conditions
    induction conditions with
    | nil =>
      intro start read hcollects hstart
      cases hstart
      rw [List.flatMap_nil, List.append_nil]
      exact hcollects
    | cons condition conditions ih =>
      intro start read hcollects hrest
      rw [List.foldlM_cons] at hrest
      cases hadd : PostPolicy.addCondition lower start condition with
      | error err =>
        rw [hadd] at hrest
        cases hrest
      | ok next =>
        rw [hadd] at hrest
        rw [List.flatMap_cons, ← List.append_assoc]
        exact ih next _ (hcollects.addCondition hadd) hrest
  refine hfold doc.conditions _ [] ⟨by simp, by simp, ?_⟩ hparse
  intro before min max after hsplit
  cases (List.append_eq_nil_iff.mp hsplit.symm).2

theorem checkPolicyCond_iff {operator input1 input2 : String}
    (hcheck : checkPolicyCond operator input1 input2 = true) :
    (operator = "eq" → input1 = input2) ∧
      (operator = "starts-with" → input2.toList <+: input1.toList) := by
  unfold checkPolicyCond at hcheck
  refine ⟨fun heq => ?_, fun heq => ?_⟩
  · rw [if_pos heq] at hcheck
    exact beq_iff_eq.mp hcheck
  · rw [if_neg (by rw [heq]; decide), if_pos heq] at hcheck
    exact hasPrefix_iff.mp hcheck

/-- A condition that the loop checks holds of the field that it names. -/
theorem holds_of_checkCondition {formValues : Header} {fileSize : Int}
    {operator key name value : String} (hchecked : ¬ Unchecked key name)
    (hcheck : checkCondition formValues ⟨operator, key, value⟩ = true) :
    (Statement.field operator key name value).Holds formValues fileSize := by
  obtain ⟨hlooped, hfound⟩ := not_or.mp hchecked
  have hget : formValues.get (canonicalHeaderKey (trimDollar key)) = formValues.get name := by
    rw [Header.get, Header.get, not_not.mp hfound]
  rw [Statement.Holds, ← hget]
  apply checkPolicyCond_iff
  unfold checkCondition at hcheck
  dsimp only at hcheck
  split at hcheck
  next =>
    split at hcheck
    next => cases hcheck
    next => exact hcheck
  next hnone =>
    split at hcheck
    next => exact hcheck
    next hnot => exact absurd ⟨hnone, by simpa using (not_or.mp hnot).2⟩ hlooped

theorem bound_of_toInteger {bound : Value} {n : Int} (hinteger : bound.toInteger = .ok n)
    (hexact : ¬ Inexact bound) : bound.bound = some (n : Rat) := by
  cases bound with
  | text s =>
    rw [Value.toInteger] at hinteger
    split at hinteger
    next => cases hinteger
    next m hread =>
      cases hinteger
      rw [Value.bound, hread, if_pos rfl]
  | number float64 =>
    cases hinteger
    rw [Value.bound, Option.some.injEq]
    by_contra hne
    exact hexact ⟨float64, rfl, Ne.symm hne⟩
  | other => cases hinteger

theorem holds_of_checkLength {formValues : Header} {fileSize low high : Int} {min max : Value}
    (hcheck : checkLength fileSize (some (low, high)) = .ok ()) (hmin : min.toInteger = .ok low)
    (hmax : max.toInteger = .ok high) (hexactMin : ¬ Inexact min) (hexactMax : ¬ Inexact max) :
    (Statement.range min max).Holds formValues fileSize := by
  rw [checkLength] at hcheck
  rw [Statement.Holds, bound_of_toInteger hmin hexactMin, bound_of_toInteger hmax hexactMax]
  split at hcheck
  next => cases hcheck
  next hlow =>
    split at hcheck
    next => cases hcheck
    next hhigh =>
      have hhigh := Int.not_lt.mp (not_or.mp hhigh).1
      refine ⟨fun bound hbound => ?_, fun bound hbound => ?_⟩
      · cases hbound
        exact Rat.intCast_le_intCast.mpr (Int.not_lt.mp hlow)
      · cases hbound
        exact Rat.intCast_le_intCast.mpr hhigh

/-- An upload that is let through meets its document exactly when the conditions that are not
checked hold. -/
theorem checkUpload_met_iff {now fileSize : Int} {doc : Document} {formValues : Header}
    (hupload : checkUpload lower now doc formValues fileSize = .ok ()) :
    doc.Met lower formValues fileSize ↔ UncheckedHold lower doc formValues fileSize := by
  refine ⟨fun hmet => ⟨fun operator key name value hmem _ => hmet.holds _ hmem,
    fun before min max after hsplit _ => hmet.holds _ (by rw [hsplit]; simp)⟩, fun hhold => ?_⟩
  unfold checkUpload at hupload
  cases hparse : parsePostPolicyForm lower doc with
  | error err =>
    rw [hparse] at hupload
    cases hupload
  | ok form =>
    rw [hparse] at hupload
    change (checkPostPolicy now formValues form >>= fun _ =>
      checkLength fileSize form.contentLengthRange) = .ok () at hupload
    obtain ⟨hkept, hfrom, hrange⟩ := collects_parsePostPolicyForm hparse
    cases hpolicy : checkPostPolicy now formValues form with
    | error err =>
      rw [hpolicy] at hupload
      cases hupload
    | ok done =>
      rw [hpolicy] at hupload
      have hlength : checkLength fileSize form.contentLengthRange = .ok () := hupload
      unfold checkPostPolicy at hpolicy
      split at hpolicy
      next => cases hpolicy
      next =>
        split at hpolicy
        next => cases hpolicy
        next hextra =>
          split at hpolicy
          next hall =>
            constructor
            · intro statement hmem
              cases statement with
              | field operator key name value =>
                by_cases hunchecked : Unchecked key name
                · exact hhold.fields operator key name value hmem hunchecked
                · exact holds_of_checkCondition hunchecked
                    (List.all_eq_true.mp hall _ (hkept operator key name value hmem))
              | range min max =>
                obtain ⟨before, after, hsplit⟩ := List.append_of_mem hmem
                by_cases hunchecked :
                    (∃ min' max', .range min' max' ∈ after) ∨ Inexact min ∨ Inexact max
                · exact hhold.ranges before min max after hsplit hunchecked
                · obtain ⟨hlast, hexact⟩ := not_or.mp hunchecked
                  obtain ⟨hexactMin, hexactMax⟩ := not_or.mp hexact
                  obtain ⟨low, high, hmin, hmax, heq⟩ := hrange before min max after hsplit
                    fun min' max' hafter => hlast ⟨min', max', hafter⟩
                  rw [heq] at hlength
                  exact holds_of_checkLength hlength hmin hmax hexactMin hexactMax
            · intro field hfield hmeta
              have hnamed : (metaNames form.policies).contains field.1 = true := by
                by_contra hnot
                refine hextra (List.any_eq_true.mpr ⟨field, hfield, ?_⟩)
                rw [hmeta, Bool.not_eq_true _ |>.mp hnot]
                rfl
              obtain ⟨policy, hpolicy, heq⟩ := List.mem_map.mp (List.contains_iff_mem.mp hnamed)
              obtain ⟨name, hname⟩ := hfrom policy (List.mem_filter.mp hpolicy).1
              exact ⟨_, _, _, _, hname, heq⟩
          next => cases hpolicy

def twoRanges : Document :=
  ⟨1, [.array [.text "content-length-range", .number 0, .number 10],
    .array [.text "content-length-range", .number 0, .number 100]]⟩

theorem statements_twoRanges : twoRanges.statements Fs3.toLower =
    [.range (.number 0) (.number 10), .range (.number 0) (.number 100)] := rfl

theorem twoRanges_met : twoRanges.Met Fs3.toLower [] 5 := by
  have hupload : checkUpload Fs3.toLower 0 twoRanges [] 5 = .ok () := rfl
  have hholds : ∀ statement ∈ twoRanges.statements Fs3.toLower, statement.Holds [] 5 := by
    rw [statements_twoRanges]
    simp only [List.forall_mem_cons, Statement.Holds, Value.bound, Option.some.injEq]
    norm_num
  refine (checkUpload_met_iff hupload).mpr ⟨?_, ?_⟩
  · exact fun operator key name value hmem _ => hholds _ hmem
  · intro before min max after hsplit _
    exact hholds _ (hsplit ▸ List.mem_append_right _ List.mem_cons_self)

/-- The first range is forgotten. -/
theorem twoRanges_exceeded : checkUpload Fs3.toLower 0 twoRanges [] 50 = .ok () ∧
    ¬ ∀ doc formValues fileSize, checkUpload Fs3.toLower 0 doc formValues fileSize = .ok () →
      doc.Met Fs3.toLower formValues fileSize := by
  refine ⟨rfl, fun hall => ?_⟩
  have hmet := (hall twoRanges [] 50 rfl).holds (.range (.number 0) (.number 10))
    (by rw [statements_twoRanges]; exact List.mem_cons_self)
  exact absurd (hmet.2 10 rfl) (by norm_num)

end Fs3.PostPolicy
