import Fs3.Foundation.Histories
import Fs3.ObjectLock.Checks

/-! # Write once, read many

The requests of the clients of a bucket with object lock, in any order and by anyone. -/

namespace Fs3

open Foundation

/-- The objects of a bucket, by their names. -/
abbrev Bucket := String → XlMetaV2

/-- A request of a client, with what it carries beside its headers, the default
retention of the bucket, the id that would be drawn for a new version, and
whether the bucket replicates it. -/
inductive LockEvent where
  | put (r : Request) (mode : Option RetMode) (validity : Int) (fi : FileInfo) (fresh : UUID)
  | retention (r : Request) (mode : String) (retainUntilDate : Time)
      (mustReplicate : LockedObjectInfo → Bool)
  | legalHold (r : Request) (status : LegalHoldStatus) (mustReplicate : LockedObjectInfo → Bool)
  | delete (r : Request) (replicateDel : Bool) (fresh : UUID)

namespace LockEvent

def request : LockEvent → Request
  | put r _ _ _ _ => r
  | retention r _ _ _ => r
  | legalHold r _ _ => r
  | delete r _ _ => r

def handle (ol : ObjectLayer) (z : XlMetaV2) : LockEvent → Except APIErr XlMetaV2
  | put r mode validity fi fresh =>
    ol.putObjectHandler z r { mode, validity, lockEnabled := true } fi fresh
  | retention r mode retainUntilDate mustReplicate =>
    ol.putObjectRetentionHandler z r mode retainUntilDate mustReplicate
  | legalHold r status mustReplicate => ol.putObjectLegalHoldHandler z r status mustReplicate
  | delete r replicateDel fresh => ol.deleteObjectHandler z r replicateDel fresh

def step (ol : ObjectLayer) (s : Bucket) (event : LockEvent) : Bucket :=
  match event.handle ol (s event.request.object) with
  | .error _ => s
  | .ok z => Function.update s event.request.object z

def run (ol : ObjectLayer) (events : List LockEvent) : Bucket :=
  events.foldl (step ol) fun _ => {}

/-- Whether a request has the bypass header and the permission that its check
asks for. -/
def mayBypass : LockEvent → Bool
  | delete r _ _ => ObjectLayer.mayBypassForDelete r
  | event => event.request.bypassSet && event.request.allowed .bypassGovernanceRetention

def Draws (s : Bucket) : LockEvent → Prop
  | put r _ _ _ fresh => r.vid = "" → ∀ version ∈ (s r.object).versions, version.uuid ≠ fresh
  | delete r _ fresh => r.vid = "" → ∀ version ∈ (s r.object).versions, version.uuid ≠ fresh
  | _ => True

def Retains (object : XlMetaV2Object) (event : LockEvent) : Prop :=
  object.Under .compliance event.request.now ∨
    object.Under .governance event.request.now ∧ event.mayBypass = false

def Protects (object : XlMetaV2Object) (event : LockEvent) : Prop :=
  Retains object event ∨ object.legalHold = some .on

/-- The requests whose checks look for what protects the version that they name. -/
def Regular (ol : ObjectLayer) (s : Bucket) : LockEvent → Prop
  | put r mode validity fi fresh =>
    r.allowed .putObject = true → (r.isReplica = true → r.allowed .replicateObject = true) →
      ∀ object, ol.Names (s r.object) r object →
        Protects object (put r mode validity fi fresh) →
          r.isReplica = false ∧
            (object.Under .compliance r.now ∨ object.legalHold = some .on)
  | delete r replicateDel fresh =>
    r.allowed .deleteObject = true → (r.isReplica = true → r.allowed .replicateDelete = true) →
      ∀ object, ol.Names (s r.object) r object →
        Protects object (delete r replicateDel fresh) →
          ObjectLayer.skipsLock r replicateDel = false
  | retention r mode retainUntilDate mustReplicate =>
    ∀ objRetention, parseObjectRetention r.clock mode retainUntilDate = .ok objRetention →
      ∀ object, ol.Reads (s r.object) r object →
        (object.Under .governance r.now → r.bypassSet = true →
          r.allowed .bypassGovernanceRetention = false →
          isPutRetentionAllowed r objRetention.mode r.bypassSet = none →
          objRetention.mode ≠ none ∧
            object.retention.retainUntilDate ≤ objRetention.retainUntilDate) ∧
        (Retains object (retention r mode retainUntilDate mustReplicate) →
          ObjectLayer.PutAllowed r object objRetention →
          object.retention.retainUntilDate ≤ objRetention.retainUntilDate →
          object.retention.retainUntilDate ≤ storedDate objRetention.retainUntilDate)
  | legalHold _ _ _ => True

/-- A version is still there, with what it was written with. -/
structure Keeps (s : Bucket) (name : String) (object object' : XlMetaV2Object) : Prop where
  holds : (s name).Holds object'
  content : object'.content = object.content

/-- What the lock promises of a sequence of requests. -/
structure Worm (ol : ObjectLayer) (events : List LockEvent) : Prop where
  compliance : ∀ before later, before ++ later <+: events → ∀ name object,
    (run ol before name).Holds object → object.retention.mode = some .compliance →
      (∀ event ∈ later, event.request.now < object.retention.retainUntilDate) →
        ∃ object', Keeps (run ol (before ++ later)) name object object' ∧
          object'.retention.mode = some .compliance ∧
          object.retention.retainUntilDate ≤ object'.retention.retainUntilDate
  legalHold : ∀ before event, before ++ [event] <+: events → ∀ name object,
    (run ol before name).Holds object → object.legalHold = some .on →
      ∃ object', Keeps (run ol (before ++ [event])) name object object'
  governance : ∀ before event, before ++ [event] <+: events → ∀ name object,
    (run ol before name).Holds object → object.Under .governance event.request.now →
      event.mayBypass = false →
        ∃ object', Keeps (run ol (before ++ [event])) name object object' ∧
          object'.retention.mode ≠ none ∧
          object.retention.retainUntilDate ≤ object'.retention.retainUntilDate

/-! ## One request -/

variable {ol : ObjectLayer} {z z' : XlMetaV2} {s : Bucket} {object : XlMetaV2Object}
variable {event : LockEvent} {name : String}

theorem step_of_ok (hok : event.handle ol (s event.request.object) = .ok z') :
    step ol s event = Function.update s event.request.object z' := by
  rw [step, hok]

theorem step_of_error {err : APIErr}
    (herr : event.handle ol (s event.request.object) = .error err) :
    step ol s event = s := by
  rw [step, herr]

theorem sound_of_handle (hsound : z.Sound) (hok : event.handle ol z = .ok z') : z'.Sound := by
  cases event with
  | put r mode validity fi fresh =>
    simp only [handle] at hok
    obtain ⟨⟨uv, -, hacts⟩, -⟩ := ObjectLayer.putObjectHandler_cases hsound rfl hok
    exact hacts.sound
  | retention r mode retainUntilDate mustReplicate =>
    simp only [handle] at hok
    obtain ⟨_, _, _, -, -, -, hrewrites⟩ := ObjectLayer.putObjectRetentionHandler_cases hsound hok
    exact hrewrites.actsOn.sound
  | legalHold r status mustReplicate =>
    simp only [handle] at hok
    obtain ⟨_, _, -, hrewrites⟩ := ObjectLayer.putObjectLegalHoldHandler_cases hsound hok
    exact hrewrites.actsOn.sound
  | delete r replicateDel fresh =>
    simp only [handle] at hok
    rcases ObjectLayer.deleteObjectHandler_cases hsound hok with rfl | ⟨⟨uv, -, hacts⟩, -⟩
    · exact hsound
    · exact hacts.sound

theorem step_sound (hsound : ∀ name, (s name).Sound) (name : String) :
    (step ol s event name).Sound := by
  cases hresult : event.handle ol (s event.request.object) with
  | error err =>
    rw [step_of_error hresult]
    exact hsound name
  | ok z' =>
    rw [step_of_ok hresult, Function.update_apply]
    split
    · exact sound_of_handle (hsound _) hresult
    · exact hsound name

variable {r : Request}

theorem holds_of_actsOn {fresh : UUID}
    (hacts : ∃ uv, ol.chosenID r.vid fresh = some uv ∧ ObjectLayer.ActsOn uv z z')
    (hfresh : r.vid = "" → ∀ version ∈ z.versions, version.uuid ≠ fresh) (hholds : z.Holds object)
    (hnames : ¬ ol.Names z r object) : z'.Holds object := by
  obtain ⟨uv, hchosen, hacts⟩ := hacts
  refine hacts.others object hholds fun hid => ?_
  subst hid
  rw [ObjectLayer.chosenID] at hchosen
  split at hchosen
  next hempty => exact hfresh hempty _ hholds.mem (Option.some.inj hchosen).symm
  next hne => exact hnames ⟨hholds, hne, hchosen⟩

/-- What is left of a protected version after a request: what it was written
with, and its retention where that holds against the request. -/
structure Survives (z' : XlMetaV2) (event : LockEvent) (object object' : XlMetaV2Object) :
    Prop where
  holds : z'.Holds object'
  content : object'.content = object.content
  compliance : object.Under .compliance event.request.now →
    object'.retention.mode = some .compliance
  retention : Retains object event → object'.retention.mode ≠ none ∧
    object.retention.retainUntilDate ≤ object'.retention.retainUntilDate

theorem Retains.mode_ne_none (hretains : Retains object event) : object.retention.mode ≠ none := by
  rcases hretains with hunder | ⟨hunder, -⟩
  all_goals rw [hunder.mode]; exact nofun

theorem Survives.of_retention {object' : XlMetaV2Object} (hholds : z'.Holds object')
    (hcontent : object'.content = object.content)
    (hretention : object'.retention = object.retention) : Survives z' event object object' where
  holds := hholds
  content := hcontent
  compliance := fun hunder => by rw [hretention, hunder.mode]
  retention := fun hretains => by
    rw [hretention]
    exact ⟨hretains.mode_ne_none, Int.le_refl _⟩

theorem put_keeps {mode : Option RetMode} {validity : Int} {fi : FileInfo} {fresh : UUID}
    (hsound : (s r.object).Sound) (hdraws : Draws s (put r mode validity fi fresh))
    (hregular : Regular ol s (put r mode validity fi fresh)) (hholds : (s r.object).Holds object)
    (hprotects : Protects object (put r mode validity fi fresh))
    (hok : (put r mode validity fi fresh).handle ol (s r.object) = .ok z') : z'.Holds object := by
  simp only [handle] at hok
  obtain ⟨hacts, hput, hreplicate, hcheck⟩ := ObjectLayer.putObjectHandler_cases hsound rfl hok
  refine holds_of_actsOn hacts hdraws hholds fun hnames => ?_
  obtain ⟨hreplica, hlocked⟩ := hregular hput hreplicate object hnames hprotects
  obtain ⟨hcompliance, hhold⟩ := hcheck object hnames hreplica
  rcases hlocked with hunder | hon
  · exact hcompliance hunder
  · exact hhold hon

theorem delete_keeps {replicateDel : Bool} {fresh : UUID} (hsound : (s r.object).Sound)
    (hdraws : Draws s (delete r replicateDel fresh))
    (hregular : Regular ol s (delete r replicateDel fresh)) (hholds : (s r.object).Holds object)
    (hprotects : Protects object (delete r replicateDel fresh))
    (hok : (delete r replicateDel fresh).handle ol (s r.object) = .ok z') : z'.Holds object := by
  simp only [handle] at hok
  rcases ObjectLayer.deleteObjectHandler_cases hsound hok with
    rfl | ⟨hacts, hdelete, hreplicate, hcheck⟩
  · exact hholds
  refine holds_of_actsOn hacts hdraws hholds fun hnames => ?_
  have hallowed := hcheck object hnames (hregular hdelete hreplicate object hnames hprotects)
  rcases hprotects with (hunder | ⟨hunder, hbypass⟩) | hon
  · exact hallowed.compliance hunder
  · exact Bool.false_ne_true (hbypass.symm.trans (hallowed.governance hunder))
  · exact hallowed.legalHold hon

theorem exists_of_rewrites {stored : XlMetaV2Object} {metadata : Metadata} (hsound : z.Sound)
    (hstored : z.Holds stored) (hholds : z.Holds object)
    (hrewrites : ObjectLayer.Rewrites stored metadata z z') :
    z'.Holds object ∨ object = stored ∧ ∃ object', z'.Holds object' ∧
      object'.content = object.content ∧ AgreeOnLock metadata object'.metadata := by
  by_cases hid : object.versionID = stored.versionID
  · obtain rfl := XlMetaV2Version.objectType.inj (hsound.eq_of_uuid hholds.mem hstored.mem hid)
    exact Or.inr ⟨rfl, hrewrites.exists_object⟩
  · exact Or.inl (hrewrites.actsOn.others object hholds hid)

variable {mustReplicate : LockedObjectInfo → Bool}

theorem legalHold_keeps {status : LegalHoldStatus} (hsound : z.Sound) (hholds : z.Holds object)
    (hok : (legalHold r status mustReplicate).handle ol z = .ok z') :
    ∃ object', z'.Holds object' ∧ object'.content = object.content ∧
      object'.retention = object.retention := by
  simp only [handle] at hok
  obtain ⟨stored, replicate, hreads, hrewrites⟩ :=
    ObjectLayer.putObjectLegalHoldHandler_cases hsound hok
  rcases exists_of_rewrites hsound hreads.holds hholds hrewrites with
    hsame | ⟨rfl, object', hholds', hcontent, hagree⟩
  · exact ⟨object, hsame, rfl, rfl⟩
  · refine ⟨object', hholds', hcontent, ?_⟩
    rw [XlMetaV2Object.retention, hagree.retention, (agreeOnLock_markReplicate _ _).retention,
      ObjectLayer.retention_insert_legalHold, (agreeOnLock_cleanMetadata _).retention]
    rfl

theorem asked_of_putAllowed {mode : String} {retainUntilDate : Time}
    {objRetention : ObjectRetention} (hallowed : ObjectLayer.PutAllowed r object objRetention)
    (hbypass : object.Under .governance r.now → r.bypassSet = true →
      r.allowed .bypassGovernanceRetention = false →
      isPutRetentionAllowed r objRetention.mode r.bypassSet = none →
      objRetention.mode ≠ none ∧
        object.retention.retainUntilDate ≤ objRetention.retainUntilDate)
    (hretains : Retains object (retention r mode retainUntilDate mustReplicate)) :
    objRetention.mode ≠ none ∧
      object.retention.retainUntilDate ≤ objRetention.retainUntilDate := by
  rcases hretains with hunder | ⟨hunder, hmay⟩
  · obtain ⟨hmode, hdate⟩ := hallowed.compliance hunder
    exact ⟨by rw [hmode]; exact nofun, hdate⟩
  · cases hset : r.bypassSet with
    | false =>
      obtain ⟨hmode, hdate⟩ := hallowed.governance hunder hset
      exact ⟨by rw [hmode]; exact nofun, hdate⟩
    | true =>
      have hdenied : r.allowed .bypassGovernanceRetention = false := by
        simpa [mayBypass, request, hset] using hmay
      exact hbypass hunder hset hdenied (hallowed.permitted hunder)

theorem retention_keeps {mode : String} {retainUntilDate : Time} (hsound : (s r.object).Sound)
    (hregular : Regular ol s (retention r mode retainUntilDate mustReplicate))
    (hholds : (s r.object).Holds object)
    (hok : (retention r mode retainUntilDate mustReplicate).handle ol (s r.object) = .ok z') :
    ∃ object', Survives z' (retention r mode retainUntilDate mustReplicate) object object' := by
  simp only [handle] at hok
  obtain ⟨objRetention, stored, replicate, hparse, hreads, hallowed, hrewrites⟩ :=
    ObjectLayer.putObjectRetentionHandler_cases hsound hok
  rcases exists_of_rewrites hsound hreads.holds hholds hrewrites with
    hsame | ⟨rfl, object', hholds', hcontent, hagree⟩
  · exact ⟨object, Survives.of_retention hsame rfl rfl⟩
  · obtain ⟨hbypass, hwritten⟩ := hregular objRetention hparse object hreads
    have hread : ∀ mode, objRetention.mode = some mode → object'.retention =
        { mode := some mode, retainUntilDate := storedDate objRetention.retainUntilDate } := by
      intro mode hmode
      rw [XlMetaV2Object.retention, hagree.retention, (agreeOnLock_markReplicate _ _).retention,
        ObjectLayer.getObjectRetentionMeta_retentionMetadata hmode]
    refine ⟨object', hholds', hcontent, fun hunder => ?_, fun hretains => ?_⟩
    · rw [hread _ (hallowed.compliance hunder).1]
    · obtain ⟨hmode, hdate⟩ := asked_of_putAllowed hallowed hbypass hretains
      obtain ⟨mode, hmode⟩ := Option.ne_none_iff_exists'.mp hmode
      have hstored := hwritten hretains hallowed hdate
      rw [hread mode hmode]
      dsimp only
      exact ⟨Option.some_ne_none mode, hstored⟩

theorem step_keeps (hsound : ∀ name, (s name).Sound) (hdraws : Draws s event)
    (hregular : Regular ol s event) (hholds : (s name).Holds object)
    (hprotects : Protects object event) :
    ∃ object', Survives (step ol s event name) event object object' := by
  cases hresult : event.handle ol (s event.request.object) with
  | error err =>
    rw [step_of_error hresult]
    exact ⟨object, Survives.of_retention hholds rfl rfl⟩
  | ok z' =>
    rw [step_of_ok hresult, Function.update_apply]
    split
    next hname =>
      subst hname
      cases event with
      | put r mode validity fi fresh =>
        exact ⟨object, Survives.of_retention
          (put_keeps (hsound _) hdraws hregular hholds hprotects hresult) rfl rfl⟩
      | retention r mode retainUntilDate mustReplicate =>
        exact retention_keeps (hsound _) hregular hholds hresult
      | legalHold r status mustReplicate =>
        obtain ⟨object', hholds', hcontent, hretention⟩ :=
          legalHold_keeps (hsound _) hholds hresult
        exact ⟨object', Survives.of_retention hholds' hcontent hretention⟩
      | delete r replicateDel fresh =>
        exact ⟨object, Survives.of_retention
          (delete_keeps (hsound _) hdraws hregular hholds hprotects hresult) rfl rfl⟩
    next => exact ⟨object, Survives.of_retention hholds rfl rfl⟩

/-- Requests that meet a condition, and leave the ids they draw to themselves. -/
def AllRegular (ol : ObjectLayer) (s : Bucket) (events : List LockEvent) : Prop :=
  Guarded (step ol) (fun s event => Draws s event ∧ Regular ol s event) s events

theorem compliance_keeps {later : List LockEvent} (hsound : ∀ name, (s name).Sound)
    (hregular : AllRegular ol s later) (hholds : (s name).Holds object)
    (hmode : object.retention.mode = some .compliance) {date : Time}
    (hdate : date ≤ object.retention.retainUntilDate)
    (hbefore : ∀ event ∈ later, event.request.now < date) :
    ∃ object', Keeps (later.foldl (step ol) s) name object object' ∧
      object'.retention.mode = some .compliance ∧ date ≤ object'.retention.retainUntilDate := by
  induction later generalizing s object with
  | nil => exact ⟨object, ⟨hholds, rfl⟩, hmode, hdate⟩
  | cons event later ih =>
    obtain ⟨⟨hdraws, hevent⟩, hrest⟩ := guarded_cons.mp hregular
    have hunder : object.Under .compliance event.request.now :=
      ⟨hmode, Int.lt_of_lt_of_le (hbefore event List.mem_cons_self) hdate⟩
    obtain ⟨object', hsurvives⟩ :=
      step_keeps hsound hdraws hevent hholds (Or.inl (Or.inl hunder))
    obtain ⟨object'', hkeeps, hkept⟩ := ih (step_sound hsound) hrest hsurvives.holds
      (hsurvives.compliance hunder)
      (Int.le_trans hdate (hsurvives.retention (Or.inl hunder)).2)
      fun event hmem => hbefore event (List.mem_cons_of_mem _ hmem)
    exact ⟨object'', ⟨hkeeps.holds, hkeeps.content.trans hsurvives.content⟩, hkept⟩

theorem run_sound (ol : ObjectLayer) (events : List LockEvent) (name : String) :
    (run ol events name).Sound := by
  have hsound : ∀ (s : Bucket), (∀ name, (s name).Sound) →
      ∀ name, (events.foldl (step ol) s name).Sound := by
    induction events with
    | nil => exact fun s hs => hs
    | cons event events ih => exact fun s hs => ih _ (step_sound hs)
  exact hsound _ (fun _ => XlMetaV2.sound_nil) name

theorem AllRegular.drop {before later events : List LockEvent}
    (hregular : AllRegular ol s events) (hpast : before ++ later <+: events) :
    AllRegular ol (before.foldl (step ol) s) later := by
  intro front event hfront
  rw [← List.foldl_append]
  refine hregular (before ++ front) event (List.IsPrefix.trans ?_ hpast)
  rw [List.append_assoc]
  exact (List.prefix_append_right_inj before).mpr hfront

theorem survives_of_regular {before events : List LockEvent}
    (hregular : AllRegular ol (fun _ => {}) events) (hfront : before ++ [event] <+: events)
    (hholds : (run ol before name).Holds object) (hprotects : Protects object event) :
    ∃ object', Survives (run ol (before ++ [event]) name) event object object' := by
  obtain ⟨hdraws, hevent⟩ := hregular before event hfront
  rw [run, List.foldl_concat]
  exact step_keeps (run_sound ol before) hdraws hevent hholds hprotects

/-- The lock keeps its promises in every sequence of requests that are regular
where they come. -/
theorem worm_of_regular (ol : ObjectLayer) (events : List LockEvent)
    (hdraws : Guarded (step ol) Draws (fun _ => {}) events)
    (hregular : Guarded (step ol) (Regular ol) (fun _ => {}) events) : Worm ol events := by
  have hall : AllRegular ol (fun _ => {}) events :=
    fun before event hfront => ⟨hdraws before event hfront, hregular before event hfront⟩
  refine ⟨fun before later hfront name object hholds hmode hbefore => ?_,
    fun before event hfront name object hholds hon => ?_,
    fun before event hfront name object hholds hunder hbypass => ?_⟩
  · rw [run, List.foldl_append]
    exact compliance_keeps (run_sound ol before) (hall.drop hfront) hholds hmode
      (Int.le_refl _) hbefore
  · obtain ⟨object', hsurvives⟩ := survives_of_regular hall hfront hholds (Or.inr hon)
    exact ⟨object', hsurvives.holds, hsurvives.content⟩
  · have hretains : Retains object event := Or.inr ⟨hunder, hbypass⟩
    obtain ⟨object', hsurvives⟩ := survives_of_regular hall hfront hholds (Or.inl hretains)
    exact ⟨object', ⟨hsurvives.holds, hsurvives.content⟩, hsurvives.retention hretains⟩

/-! ## Two short histories -/

def lockedBucket : ObjectLayer where
  bucket := "bucket"
  uuid := .google
  clock := { now := (0 : Int), parseHTTPTime := fun _ => none }
  sorter := .stable _

def newYear : Time := (1767225600000000000 : Int)

def contents (size : Int) : FileInfo where
  modTime := newYear
  size := size
  dataDir := UuidPackage.google.print 1
  erasure := { dataBlocks := 1, parityBlocks := 1, index := 1, distribution := [1, 2] }

def lockedPut (mode : RetMode) : LockEvent :=
  .put
    { object := "report"
      versionID := UuidPackage.google.print 7
      header := fun key =>
        if key = amzObjectLockMode then [mode.toText]
        else if key = amzObjectLockRetainUntilDate then ["2030-01-01T00:00:00Z"]
        else []
      now := newYear
      allowed := fun action => action == .putObject || action == .putObjectRetention }
    none 0 (contents 3) 0

def secondPut : LockEvent :=
  .put
    { object := "report"
      versionID := UuidPackage.google.print 7
      now := newYear
      allowed := fun action => action == .putObject }
    none 0 (contents 4) 0

def earlyDelete : LockEvent :=
  .delete
    { object := "report"
      versionID := UuidPackage.google.print 7
      now := newYear
      allowed := fun action => action == .deleteObject }
    false 0

/-- A version under compliance and a delete of it. -/
theorem worm_compliance : Worm lockedBucket [lockedPut .compliance, earlyDelete] := by
  refine worm_of_regular lockedBucket _
    (guarded_cons.mpr ⟨?_, guarded_cons.mpr ⟨?_, guarded_nil⟩⟩)
    (guarded_cons.mpr ⟨?_, guarded_cons.mpr ⟨?_, guarded_nil⟩⟩)
  · intro _ version hmem
    cases hmem
  · intro hempty
    exact absurd hempty (by decide +kernel)
  · intro _ _ object hnames
    cases hnames.holds.mem
  · intro _ _ _ _ _
    decide

/-- Whether a version is of some size, under governance at the new year, and not
marked by a delete. -/
def isGoverned (size : Int) : XlMetaV2Version → Bool
  | .objectType object =>
    object.size = size ∧ object.retention.mode = some .governance ∧
      newYear < object.retention.retainUntilDate ∧
      headerValue object.metaSys versionPurgeStatusKey = ""
  | _ => false

theorem exists_of_isGoverned {size : Int} (hany : z.versions.any (isGoverned size) = true) :
    ∃ object, z.Holds object ∧ object.size = size ∧ object.Under .governance newYear := by
  obtain ⟨version, hmem, hversion⟩ := List.any_eq_true.mp hany
  cases version with
  | objectType object =>
    obtain ⟨hsize, hmode, hdate, hunmarked⟩ := of_decide_eq_true hversion
    exact ⟨object, ⟨hmem, hunmarked⟩, hsize, hmode, hdate⟩
  | invalid => cases hversion
  | deleteType => cases hversion
  | legacyType => cases hversion

/-- A version under governance and a put over it, without the bypass header and
without the permission to bypass. -/
theorem not_worm_governance :
    Guarded (step lockedBucket) Draws (fun _ => {}) [lockedPut .governance, secondPut] ∧
      ¬ Worm lockedBucket [lockedPut .governance, secondPut] := by
  refine ⟨guarded_cons.mpr ⟨?_, guarded_cons.mpr ⟨?_, guarded_nil⟩⟩, fun hworm => ?_⟩
  · intro _ version hmem
    cases hmem
  · intro hempty
    exact absurd hempty (by decide +kernel)
  · obtain ⟨object, hholds, hsize, hunder⟩ := @exists_of_isGoverned
      (run lockedBucket [lockedPut .governance] "report") 3 (by decide +kernel)
    obtain ⟨object', hkeeps, -⟩ := hworm.governance [lockedPut .governance] secondPut
      List.prefix_rfl "report" object hholds hunder (by decide)
    have hsizes : ∀ version ∈
        (run lockedBucket [lockedPut .governance, secondPut] "report").versions,
          isGoverned 4 version = true := by
      decide +kernel
    have hother := of_decide_eq_true (hsizes _ hkeeps.holds.mem)
    have hsame : object'.content.size = object.content.size :=
      congrArg XlMetaV2Object.size hkeeps.content
    rw [XlMetaV2Object.content, XlMetaV2Object.content] at hsame
    dsimp only at hsame
    rw [hother.1, hsize] at hsame
    exact absurd hsame (by decide)

end LockEvent

end Fs3
