import Fs3.ObjectLock.Effects

/-! # What passes the checks

For every request that a handler takes: the version that it worked on, and what its check has found
about the lock of that version. -/

namespace Fs3

open Foundation

theorem isPlainKey_lock {key : String} (hkey : key = amzObjectLockMode ∨
    key = amzObjectLockRetainUntilDate ∨ key = amzObjectLockLegalHold) :
    isPlainKey key = true ∧ isPlainKey (toLower key) = true := by
  rcases hkey with rfl | rfl | rfl <;> decide

namespace AgreeOnLock

variable {metadata metadata' : Metadata}

theorem of_plain (hagree : ∀ key, isPlainKey key = true → metadata'[key]? = metadata[key]?) :
    AgreeOnLock metadata metadata' := by
  have htext : ∀ key, (key = amzObjectLockMode ∨ key = amzObjectLockRetainUntilDate ∨
      key = amzObjectLockLegalHold) → lockText metadata' key = lockText metadata key := by
    intro key hkey
    obtain ⟨hplain, hlower⟩ := isPlainKey_lock hkey
    rw [lockText, lockText, hagree key hplain, hagree _ hlower]
  exact ⟨htext _ (Or.inl rfl), htext _ (Or.inr (Or.inl rfl)), htext _ (Or.inr (Or.inr rfl))⟩

theorem retention (hagree : AgreeOnLock metadata metadata') :
    getObjectRetentionMeta metadata' = getObjectRetentionMeta metadata := by
  rw [getObjectRetentionMeta, getObjectRetentionMeta, hagree.mode, hagree.date]

theorem legalHold (hagree : AgreeOnLock metadata metadata') :
    getObjectLegalHoldMeta metadata' = getObjectLegalHoldMeta metadata := by
  rw [getObjectLegalHoldMeta, getObjectLegalHoldMeta, hagree.hold]

end AgreeOnLock

def XlMetaV2Object.retention (object : XlMetaV2Object) : ObjectRetention :=
  getObjectRetentionMeta object.metadata

def XlMetaV2Object.legalHold (object : XlMetaV2Object) : Option LegalHoldStatus :=
  (getObjectLegalHoldMeta object.metadata).status

theorem agreeOnLock_cleanMetadata (metadata : Metadata) :
    AgreeOnLock metadata (cleanMetadata metadata) :=
  AgreeOnLock.of_plain fun _ hplain => getElem?_cleanMetadata metadata hplain

theorem lockText_insert_ne {key other : String} (metadata : Metadata) (value : String)
    (hlower : toLower key ≠ other) (hne : key ≠ other) :
    lockText (metadata.insert other value) key = lockText metadata key := by
  rw [lockText, lockText, getElem?_insert_ne metadata value hlower,
    getElem?_insert_ne metadata value hne]

theorem agreeOnLock_markReplicate (replicate : Bool) (metadata : Metadata) :
    AgreeOnLock metadata (ObjectLayer.markReplicate replicate metadata) := by
  rw [ObjectLayer.markReplicate]
  split
  · exact ⟨lockText_insert_ne metadata _ (by decide) (by decide),
      lockText_insert_ne metadata _ (by decide) (by decide),
      lockText_insert_ne metadata _ (by decide) (by decide)⟩
  · exact ⟨rfl, rfl, rfl⟩

namespace ObjectLayer

theorem getObjectRetentionMeta_retentionMetadata {objRetention : ObjectRetention} {mode : RetMode}
    (hmode : objRetention.mode = some mode) (metadata : Metadata) :
    getObjectRetentionMeta (retentionMetadata objRetention metadata) =
      { mode := some mode, retainUntilDate := storedDate objRetention.retainUntilDate } := by
  have hdate := lockText_insert_lower (metadata.insert lockModeKey mode.toText)
    amzObjectLockRetainUntilDate (Time.formatRFC3339 objRetention.retainUntilDate)
  have htext := (lockText_insert_ne (metadata.insert lockModeKey mode.toText)
    (Time.formatRFC3339 objRetention.retainUntilDate)
    (show toLower amzObjectLockMode ≠ retainUntilDateKey by decide) (by decide)).trans
    (lockText_insert_lower metadata amzObjectLockMode mode.toText)
  rw [toLower_amzObjectLockRetainUntilDate] at hdate
  rw [retentionMetadata, hmode, getObjectRetentionMeta, htext, hdate]
  simp only [parseRetMode_toText, Option.bind_some, storedDate]

theorem retention_insert_legalHold (metadata : Metadata) (value : String) :
    getObjectRetentionMeta (metadata.insert legalHoldKey value) =
      getObjectRetentionMeta metadata := by
  rw [getObjectRetentionMeta, getObjectRetentionMeta,
    lockText_insert_ne _ _ (by decide) (by decide), lockText_insert_ne _ _ (by decide) (by decide)]

/-! ## Metadata that is read and written back -/

/-- Every plain key of a version is set in the metadata that is written back. -/
def Covers (object : XlMetaV2Object) (metadata : Metadata) : Prop :=
  ∀ key, isPlainKey key = true → metadata[key]?.or object.metadata[key]? = metadata[key]?

variable {ol : ObjectLayer} {z z' : XlMetaV2} {object : XlMetaV2Object} {metadata : Metadata}
variable {r : Request} {opts : DeleteOptions} {info : LockedObjectInfo} {fresh : UUID}

theorem covers_cleanMetadata (object : XlMetaV2Object) :
    Covers object (cleanMetadata object.metadata) := by
  intro key hplain
  rw [getElem?_cleanMetadata _ hplain]
  cases object.metadata[key]? <;> rfl

theorem Covers.insert (hcovers : Covers object metadata) (key value : String) :
    Covers object (metadata.insert key value) := by
  intro other hplain
  have hother := hcovers other hplain
  rw [Std.ExtTreeMap.getElem?_insert]
  split
  · rfl
  · exact hother

theorem Covers.retentionMetadata (hcovers : Covers object metadata)
    (objRetention : ObjectRetention) :
    Covers object (retentionMetadata objRetention metadata) := by
  rw [ObjectLayer.retentionMetadata]
  split
  · exact (hcovers.insert _ _).insert _ _
  · exact (hcovers.insert _ _).insert _ _

theorem Covers.markReplicate (hcovers : Covers object metadata) (replicate : Bool) :
    Covers object (markReplicate replicate metadata) := by
  rw [ObjectLayer.markReplicate]
  split
  · exact hcovers.insert _ _
  · exact hcovers

/-- A change of one version's metadata: what is there afterwards has the same
contents, and the lock that was written. -/
structure Rewrites (object : XlMetaV2Object) (metadata : Metadata) (z z' : XlMetaV2) : Prop where
  actsOn : ActsOn object.versionID z z'
  exists_object : ∃ object', z'.Holds object' ∧ object'.content = object.content ∧
    AgreeOnLock metadata object'.metadata

theorem rewrites_of_writeBack (hsound : z.Sound) (hholds : z.Holds object)
    (hdescribes : ol.Describes object info)
    (hnamed : opts.versionID ≠ "" →
      parseVersionID ol.uuid opts.versionID = some object.versionID)
    (hcovers : Covers object metadata)
    (hwrite : ol.writeBack z r opts { info with userDefined := metadata } = .ok z') :
    Rewrites object metadata z z' := by
  rw [writeBack] at hwrite
  dsimp only at hwrite
  generalize hid : (if opts.versionID = "" then info.versionID else opts.versionID) = versionID
    at hwrite
  have hparse : versionID ≠ "" ∧ parseVersionID ol.uuid versionID = some object.versionID := by
    subst hid
    split
    · exact ⟨hdescribes.versionID_ne, hdescribes.parse⟩
    next hne => exact ⟨hne, hnamed hne⟩
  split at hwrite
  · cases hwrite
  next result hput =>
    obtain rfl := Except.ok.inj hwrite
    obtain ⟨uv, huv, hacts, hkeys⟩ := putObjectMetadata_actsOn hsound hparse.1 hput
    obtain rfl : object.versionID = uv := Option.some.inj (hparse.2.symm.trans huv)
    obtain ⟨object', hholds', hcontent, hkeys⟩ := hkeys object hholds rfl
    refine ⟨hacts, object', hholds', hcontent, AgreeOnLock.of_plain fun key hplain => ?_⟩
    rw [hkeys key (isUserKey_of_isPlainKey hplain), hcovers key hplain]

end ObjectLayer

/-- A version under retention in a mode whose date is still to come. -/
structure XlMetaV2Object.Under (object : XlMetaV2Object) (mode : RetMode) (now : Time) :
    Prop where
  mode : object.retention.mode = some mode
  date : now < object.retention.retainUntilDate

theorem XlMetaV2Object.not_under {object : XlMetaV2Object} {mode : RetMode} {now : Time}
    {found : Option RetMode} (hfound : object.retention.mode = found) (hne : found ≠ some mode) :
    ¬ object.Under mode now :=
  fun hunder => hne (hfound.symm.trans hunder.mode)

theorem Request.now_of_clock {r : Request} {t : Time} (hclock : r.clock = some t) : t = r.now := by
  rw [Request.clock] at hclock
  split at hclock
  · exact (Option.some.inj hclock).symm
  · cases hclock

namespace ObjectLayer

variable {ol : ObjectLayer} {z z' : XlMetaV2} {object : XlMetaV2Object} {metadata : Metadata}
variable {r : Request} {opts : DeleteOptions} {info : LockedObjectInfo} {fresh : UUID}

theorem Describes.retention (hdescribes : ol.Describes object info) :
    getObjectRetentionMeta info.userDefined = object.retention := by
  rw [hdescribes.userDefined]
  exact (agreeOnLock_cleanMetadata object.metadata).retention

theorem Describes.legalHold (hdescribes : ol.Describes object info) :
    (getObjectLegalHoldMeta info.userDefined).status = object.legalHold := by
  rw [hdescribes.userDefined, (agreeOnLock_cleanMetadata object.metadata).legalHold]
  rfl

/-- What the options of a request are before replication changes them. -/
structure PlainOptions (r : Request) (opts : DeleteOptions) : Prop where
  versioning : opts.versioning = .enabled
  versionID : opts.versionID = r.vid
  replicationStatus : opts.deleteMarkerReplicationStatus = ""
  transitionStatus : opts.transitionStatus = ""
  expireRestored : opts.expireRestored = false

theorem getOpts_cases (hopts : getOpts ol r = .ok opts) :
    PlainOptions r opts ∧ opts.versionPurgeStatus = "" := by
  unfold getOpts at hopts
  split at hopts
  · cases hopts
  dsimp only at hopts
  split at hopts
  · cases hopts
  split at hopts
  · cases hopts
  · rw [← Except.ok.inj hopts]
    exact ⟨⟨rfl, rfl, rfl, rfl, rfl⟩, rfl⟩

theorem versionID_of_getOpts (hopts : getOpts ol r = .ok opts) : opts.versionID = r.vid :=
  (getOpts_cases hopts).1.versionID

/-- What a retention request that passes its check asks of a version. -/
structure PutAllowed (r : Request) (object : XlMetaV2Object) (objRetention : ObjectRetention) :
    Prop where
  compliance : object.Under .compliance r.now → objRetention.mode = some .compliance ∧
    object.retention.retainUntilDate ≤ objRetention.retainUntilDate
  governance : object.Under .governance r.now → r.bypassSet = false →
    objRetention.mode = some .governance ∧
      object.retention.retainUntilDate ≤ objRetention.retainUntilDate
  permitted : object.Under .governance r.now →
    isPutRetentionAllowed r objRetention.mode r.bypassSet = none

/-- The version that a request names, or the latest one. -/
structure Reads (ol : ObjectLayer) (z : XlMetaV2) (r : Request) (object : XlMetaV2Object) :
    Prop where
  holds : z.Holds object
  named : r.vid ≠ "" → parseVersionID ol.uuid r.vid = some object.versionID
  newest : r.vid = "" → ∀ other ∈ z.versions,
    other.modTime ≤ (XlMetaV2Version.objectType object).modTime

theorem enforceRetentionBypassForPut_cases {objRetention : ObjectRetention} (hsound : z.Sound)
    (hok : enforceRetentionBypassForPut ol z r objRetention = .ok info) :
    ∃ object, Reads ol z r object ∧ ol.Describes object info ∧
      PutAllowed r object objRetention := by
  unfold enforceRetentionBypassForPut at hok
  dsimp only at hok
  split at hok
  · cases hok
  next opts hopts =>
    split at hok
    · cases hok
    · cases hok
    next oi hinfo =>
      obtain ⟨object, hholds, hdescribes, hnamed, hnewest⟩ :=
        holds_of_getObjectInfo hsound hinfo
      rw [versionID_of_getOpts hopts] at hnamed hnewest
      split at hok
      · cases hok
      next t hclock =>
        obtain rfl := Request.now_of_clock hclock
        rw [hdescribes.retention] at hok
        have hreads : Reads ol z r object := ⟨hholds, hnamed, hnewest⟩
        split at hok
        next hnone =>
          split at hok
          · obtain rfl := Except.ok.inj hok
            refine ⟨object, hreads, hdescribes, fun hunder => ?_, fun hunder => ?_,
              fun hunder => ?_⟩
            all_goals cases hnone.symm.trans hunder.mode
          · cases hok
        next mode hmode =>
          split at hok
          next hpast =>
            split at hok
            · obtain rfl := Except.ok.inj hok
              refine ⟨object, hreads, hdescribes, fun hunder => ?_, fun hunder => ?_,
                fun hunder => ?_⟩
              all_goals exact absurd (Int.lt_trans hunder.date hpast) (Int.lt_irrefl _)
            · cases hok
          next hactive =>
            split at hok
            · split at hok
              · cases hok
              next hkept =>
                split at hok
                next hallowed =>
                  obtain rfl := Except.ok.inj hok
                  refine ⟨object, hreads, hdescribes, fun hunder => ?_, fun hunder hbypass => ?_,
                    fun _ => hallowed⟩
                  · cases hmode.symm.trans hunder.mode
                  · simp only [hbypass, true_and, not_or, not_not, Int.not_lt] at hkept
                    exact hkept
                · cases hok
            · split at hok
              · cases hok
              next hkept =>
                split at hok
                · obtain rfl := Except.ok.inj hok
                  refine ⟨object, hreads, hdescribes, fun hunder => ?_, fun hunder => ?_,
                    fun hunder => ?_⟩
                  · simp only [not_or, not_not, Int.not_lt] at hkept
                    exact hkept
                  all_goals cases hmode.symm.trans hunder.mode
                · cases hok

/-! ## The handlers -/

theorem putObjectRetentionHandler_cases {mode : String} {date : Time}
    {mustReplicate : LockedObjectInfo → Bool} (hsound : z.Sound)
    (hok : ol.putObjectRetentionHandler z r mode date mustReplicate = .ok z') :
    ∃ objRetention object replicate,
      parseObjectRetention r.clock mode date = .ok objRetention ∧
      Reads ol z r object ∧ PutAllowed r object objRetention ∧
      Rewrites object (markReplicate replicate
        (retentionMetadata objRetention (cleanMetadata object.metadata))) z z' := by
  unfold putObjectRetentionHandler at hok
  split at hok
  · cases hok
  next objRetention hparse =>
    split at hok
    · cases hok
    next opts hopts =>
      split at hok
      · cases hok
      next info hcheck =>
        split at hok
        · cases hok
        obtain ⟨object, hreads, hdescribes, hallowed⟩ :=
          enforceRetentionBypassForPut_cases hsound hcheck
        rw [changed, hdescribes.userDefined] at hok
        refine ⟨objRetention, object, _, hparse, hreads, hallowed,
          rewrites_of_writeBack hsound hreads.holds hdescribes ?_ ?_ hok⟩
        · rw [versionID_of_getOpts hopts]
          exact hreads.named
        · exact ((covers_cleanMetadata object).retentionMetadata objRetention).markReplicate
            _

theorem putObjectLegalHoldHandler_cases {status : LegalHoldStatus}
    {mustReplicate : LockedObjectInfo → Bool} (hsound : z.Sound)
    (hok : ol.putObjectLegalHoldHandler z r status mustReplicate = .ok z') :
    ∃ object replicate, Reads ol z r object ∧
      Rewrites object (markReplicate replicate
        ((cleanMetadata object.metadata).insert legalHoldKey status.toText)) z z' := by
  unfold putObjectLegalHoldHandler at hok
  split at hok
  · cases hok
  split at hok
  · cases hok
  next opts hopts =>
    split at hok
    · cases hok
    · cases hok
    next info hinfo =>
      split at hok
      · cases hok
      obtain ⟨object, hholds, hdescribes, hnamed, hnewest⟩ :=
        holds_of_getObjectInfo hsound hinfo
      rw [versionID_of_getOpts hopts] at hnewest
      rw [changed, hdescribes.userDefined] at hok
      refine ⟨object, _, ⟨hholds, ?_, hnewest⟩,
        rewrites_of_writeBack hsound hholds hdescribes hnamed ?_ hok⟩
      · rw [← versionID_of_getOpts hopts]
        exact hnamed
      · exact ((covers_cleanMetadata object).insert legalHoldKey status.toText).markReplicate _

/-- The version that a put or a delete names by its id. -/
structure Names (ol : ObjectLayer) (z : XlMetaV2) (r : Request) (object : XlMetaV2Object) :
    Prop where
  holds : z.Holds object
  versionID_ne : r.vid ≠ ""
  parse : parseVersionID ol.uuid r.vid = some object.versionID

theorem lockOfNamedVersion_cases {locks : ObjectRetention × ObjectLegalHold} (hsound : z.Sound)
    (hopts : getOpts ol r = .ok opts) (hok : lockOfNamedVersion ol z r opts = .ok locks)
    (hreplica : r.isReplica = false) (hnames : Names ol z r object) :
    ¬ object.Under .compliance r.now ∧ object.legalHold ≠ some .on := by
  have hid := versionID_of_getOpts hopts
  obtain ⟨info, hinfo, hdescribes⟩ := @getObjectInfo_of_holds ol z object r.object
    opts.versionID opts.deleteMarker hsound hnames.holds (hid ▸ hnames.versionID_ne)
    (hid ▸ hnames.parse)
  have hasked : opts.versionID ≠ "" ∧ r.isReplica = false := ⟨hid ▸ hnames.versionID_ne, hreplica⟩
  rw [lockOfNamedVersion, if_pos hasked, hinfo] at hok
  dsimp only [Option.elim] at hok
  rw [hdescribes.retention, hdescribes.legalHold] at hok
  split at hok
  · cases hok
  next t hclock =>
    obtain rfl := Request.now_of_clock hclock
    split at hok
    · cases hok
    next hfree =>
      split at hok
      · cases hok
      next hhold => exact ⟨fun hunder => hfree ⟨hunder.mode, hunder.date⟩, hhold⟩

/-- A put works on one id. -/
theorem putObjectHandler_cases {retentionCfg : Retention} {fi : FileInfo} (hsound : z.Sound)
    (hlock : retentionCfg.lockEnabled = true)
    (hok : ol.putObjectHandler z r retentionCfg fi fresh = .ok z') :
    (∃ uv, ol.chosenID r.vid fresh = some uv ∧ ActsOn uv z z') ∧
      r.allowed .putObject = true ∧ (r.isReplica = true → r.allowed .replicateObject = true) ∧
      ∀ object, Names ol z r object → r.isReplica = false →
        ¬ object.Under .compliance r.now ∧ object.legalHold ≠ some .on := by
  unfold putObjectHandler at hok
  split at hok
  · cases hok
  next hput =>
    split at hok
    · cases hok
    split at hok
    · cases hok
    next ret hold hcheck =>
      split at hok
      · cases hok
      next hreplicate =>
        dsimp only at hok
        split at hok
        · cases hok
        next result hstored =>
          obtain rfl := Except.ok.inj hok
          refine ⟨putObject_actsOn hsound hstored, by simpa using hput, ?_, ?_⟩
          · intro hreplica
            by_contra hdenied
            exact hreplicate ⟨hreplica, by simpa using hdenied⟩
          · intro object hnames hreplica
            unfold checkPutObjectLockAllowed at hcheck
            dsimp only at hcheck
            rw [if_neg (by simp [hlock])] at hcheck
            split at hcheck
            · cases hcheck
            next opts hopts =>
              split at hcheck
              · cases hcheck
              next hlocks => exact lockOfNamedVersion_cases hsound hopts hlocks hreplica hnames

/-- Whether a delete asks to have finished what the source of a replica began. -/
def purges (r : Request) : Bool :=
  parseFlag (r.trimmed minIOSourceDeleteMarkerDelete) == some true

theorem delOpts_cases (hopts : delOpts ol r = .ok opts) :
    PlainOptions r opts ∧
      opts.versionPurgeStatus = if purges r then purgeComplete else "" := by
  unfold delOpts at hopts
  split at hopts
  · cases hopts
  next plain hplain =>
    obtain ⟨⟨hversioning, hid, hreplication, htransition, hexpire⟩, -⟩ := getOpts_cases hplain
    split at hopts
    · cases hopts
    next purge hpurge =>
      have hpurges : purges r = purge := by
        rw [purges, hpurge]
        cases purge <;> rfl
      dsimp only at hopts
      split at hopts
      · rw [← Except.ok.inj hopts, hpurges]
        exact ⟨⟨hversioning, hid, hreplication, htransition, hexpire⟩, rfl⟩
      · split at hopts
        · cases hopts
        · rw [← Except.ok.inj hopts, hpurges]
          exact ⟨⟨hversioning, hid, hreplication, htransition, hexpire⟩, rfl⟩

def skipsLock (r : Request) (replicateDel : Bool) : Bool :=
  r.isReplica && !replicateDel && !purges r

theorem checkedID_eq {requested : DeleteOptions} {replicateDel : Bool}
    (hopts : delOpts ol r = .ok requested) (hne : r.vid ≠ "") :
    checkedID r (deleteOptions r requested replicateDel) =
      if skipsLock r replicateDel then "" else r.vid := by
  obtain ⟨⟨-, hid, -⟩, hpurge⟩ := delOpts_cases hopts
  have hcomplete : purgeComplete ≠ "" := by decide
  have hpending : pendingStatus ≠ "" := by decide
  rw [checkedID, skipsLock]
  cases hreplica : r.isReplica <;> cases replicateDel <;> cases hpurges : purges r <;>
    simp [deleteOptions, hreplica, hid, hne, hpurge, hpurges, hcomplete, hpending]

/-- The permission that a delete of a version under governance needs with the
bypass header: either of two. -/
def mayBypassForDelete (r : Request) : Bool :=
  r.bypassSet &&
    (r.allowed .bypassGovernanceRetention || r.allowed .getBucketObjectLockConfiguration)

/-- What the lock of a version is where a delete passes its check. -/
structure DeleteAllowed (r : Request) (object : XlMetaV2Object) : Prop where
  compliance : ¬ object.Under .compliance r.now
  legalHold : object.legalHold ≠ some .on
  governance : object.Under .governance r.now → mayBypassForDelete r = true

theorem enforceRetentionBypassForDelete_cases (hdescribes : ol.Describes object info)
    (hallowed : enforceRetentionBypassForDelete ol r (some info) none = none) :
    DeleteAllowed r object := by
  unfold enforceRetentionBypassForDelete at hallowed
  split at hallowed
  · cases hallowed
  dsimp only [Option.elim] at hallowed
  rw [hdescribes.retention, hdescribes.legalHold] at hallowed
  -- A date that is past protects in no mode.
  have hpast : ∀ t, r.clock = some t → object.retention.retainUntilDate < t →
      ∀ mode, ¬ object.Under mode r.now := by
    intro t hclock hlt mode hunder
    obtain rfl := Request.now_of_clock hclock
    exact Int.lt_irrefl _ (Int.lt_trans hunder.date hlt)
  split at hallowed
  · cases hallowed
  next hhold =>
    split at hallowed
    next hnone =>
      exact ⟨object.not_under hnone nofun, hhold,
        fun hunder => absurd hunder (object.not_under hnone nofun)⟩
    next hcompliance =>
      refine ⟨?_, hhold, fun hunder => absurd hunder (object.not_under hcompliance nofun)⟩
      split at hallowed
      · cases hallowed
      next t hclock =>
        split at hallowed
        next hlt => exact hpast t hclock hlt .compliance
        next => cases hallowed
    next hgovernance =>
      refine ⟨object.not_under hgovernance nofun, hhold, fun hunder => ?_⟩
      split at hallowed
      · split at hallowed
        · cases hallowed
        next t hclock =>
          split at hallowed
          next hlt => exact absurd hunder (hpast t hclock hlt .governance)
          next => cases hallowed
      next hbypass =>
        split at hallowed
        · cases hallowed
        next hpermitted =>
          rw [mayBypassForDelete, Bool.and_eq_true, Bool.or_eq_true]
          refine ⟨by simpa using hbypass, ?_⟩
          by_contra hdenied
          exact hpermitted (by simpa using hdenied)

/-- A delete works on one id. -/
theorem deleteObjectHandler_cases {replicateDel : Bool} (hsound : z.Sound)
    (hok : ol.deleteObjectHandler z r replicateDel fresh = .ok z') :
    z' = z ∨ (∃ uv, ol.chosenID r.vid fresh = some uv ∧ ActsOn uv z z') ∧
      r.allowed .deleteObject = true ∧ (r.isReplica = true → r.allowed .replicateDelete = true) ∧
      ∀ object, Names ol z r object → skipsLock r replicateDel = false →
        DeleteAllowed r object := by
  unfold deleteObjectHandler at hok
  split at hok
  · cases hok
  next hdelete =>
    split at hok
    · cases hok
    next requested hopts =>
      dsimp only at hok
      split at hok
      · cases hok
      next hreplicate =>
        split at hok
        · cases hok
        split at hok
        next err herr =>
          split at hok
          · exact Or.inl (Except.ok.inj hok).symm
          · cases hok
        next herr =>
          obtain ⟨⟨hversioning, hid, hreplication, htransition, hexpire⟩, -⟩ :=
            delOpts_cases hopts
          have hmodified : (deleteOptions r requested replicateDel).versioning = .enabled ∧
              (deleteOptions r requested replicateDel).versionID = r.vid ∧
              (deleteOptions r requested replicateDel).transitionStatus = "" ∧
              (deleteOptions r requested replicateDel).expireRestored = false := by
            simp only [deleteOptions]
            split <;> split <;> (try split) <;>
              exact ⟨hversioning, hid, htransition, hexpire⟩
          have hstatus : (deleteOptions r requested replicateDel).versionID ≠ "" →
              (deleteOptions r requested replicateDel).deleteMarkerReplicationStatus = "" ∨
                (deleteOptions r requested replicateDel).deleteMarkerReplicationStatus =
                  "REPLICA" := by
            rw [hmodified.2.1, ← hid]
            intro hne
            cases hreplica : r.isReplica <;> cases replicateDel <;>
              simp [deleteOptions, hreplica, hne, hreplication, replicaStatus]
          have hacts := @deleteObject_actsOn ol z r.object fresh
            (deleteOptions r requested replicateDel) r.now hsound hmodified.1 hstatus
            hmodified.2.2.2 hmodified.2.2.1
          obtain rfl := Except.ok.inj hok
          rcases hacts with hsame | hacts
          · exact Or.inl hsame
          rw [hmodified.2.1] at hacts
          refine Or.inr ⟨hacts, by simpa using hdelete, ?_, ?_⟩
          · intro hreplica
            by_contra hdenied
            exact hreplicate ⟨hreplica, by simpa using hdenied⟩
          · intro object hnames hchecks
            obtain ⟨info, hinfo, hdescribes⟩ := @getObjectInfo_of_holds ol z object r.object
              r.vid false hsound hnames.holds hnames.versionID_ne hnames.parse
            have hchecked : checkedID r (deleteOptions r requested replicateDel) = r.vid := by
              rw [checkedID_eq hopts hnames.versionID_ne, hchecks]
              rfl
            rw [hchecked, if_pos hnames.versionID_ne, hinfo] at herr
            exact enforceRetentionBypassForDelete_cases hdescribes herr

end ObjectLayer

end Fs3
