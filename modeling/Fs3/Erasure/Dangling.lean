import Fs3.Erasure.Quorum

/-! # Objects that are beyond repair

Healing removes an object when too many of its shards are gone. -/

namespace Fs3

def isNotFound (err : Option StorageErr) : Bool :=
  isErr err [.errFileNotFound, .errFileVersionNotFound]

def firstValidMeta (metaArr : List FileInfo) : FileInfo :=
  (metaArr.find? FileInfo.isValid).getD {}

def isObjectDangling (clock : Clock) (metaArr : List FileInfo)
    (errs dataErrs : List (Option StorageErr)) : FileInfo × Bool :=
  let notFoundErasureMeta := errs.countP isNotFound
  let corruptedErasureMeta :=
    errs.countP fun err => !isNotFound err && isErr err [.errCorruptedFormat]
  -- A drive whose two errors are the same is not counted twice.
  let notFoundParts :=
    (errs.zip dataErrs).countP fun err => err.1 != err.2 && isNotFound err.2
  let validMeta := firstValidMeta metaArr
  if validMeta.deleted || validMeta.isRemote clock then
    (validMeta, decide (errs.length / 2 < corruptedErasureMeta + notFoundErasureMeta))
  else if validMeta.erasure.dataBlocks = 0 then (validMeta, true)
  else
    (validMeta, decide (validMeta.erasure.parityBlocks <
      ((corruptedErasureMeta + notFoundErasureMeta + notFoundParts : Nat) : Int)))

/-- Options of a healing run. -/
structure HealOpts where
  dryRun : Bool := false
  remove : Bool := false

/-- A delete that healing asks the drives for: of the whole object, or of one
version of it. -/
inductive PurgeRequest where
  | deleteObject (writeQuorum : Int)
  | deleteObjectVersion (writeQuorum : Int) (versionID : String)
  deriving DecidableEq, Repr

def purgeObjectDangling (clock : Clock) (defaultParityCount : Int) (versionID : String)
    (metaArr : List FileInfo) (errs dataErrs : List (Option StorageErr)) (opts : HealOpts) :
    Option PurgeRequest :=
  let (validMeta, ok) := isObjectDangling clock metaArr errs dataErrs
  let parityBlocks :=
    if validMeta.erasure.parityBlocks = 0 then defaultParityCount
    else validMeta.erasure.parityBlocks
  let dataBlocks :=
    if validMeta.erasure.dataBlocks = 0 then errs.length - parityBlocks
    else validMeta.erasure.dataBlocks
  let writeQuorum := if dataBlocks = parityBlocks then dataBlocks + 1 else dataBlocks
  if ok && !opts.dryRun && opts.remove then
    if versionID = "" then some (.deleteObject writeQuorum)
    else some (.deleteObjectVersion writeQuorum versionID)
  else none

/-! ## The errors of the data check -/

/-- The checks of a shard that are the drive's own matter: of inline data
against its checksum, and of the parts of an entry (that they are there, or
that they are intact in a deep scan). -/
structure DataCheck where
  bitrotVerify : FileInfo → Option StorageErr
  checkParts : Nat → FileInfo → Option StorageErr

def DataCheck.dataErr (check : DataCheck) (clock : Clock) (index : Nat) (fi : FileInfo) :
    Option StorageErr :=
  if (fi.data ≠ [] ∨ fi.size = 0) ∧ fi.parts ≠ [] then check.bitrotVerify fi
  else if fi.isRemote clock then none
  else check.checkParts index fi

def isInconsistent (drives index : Nat) (fi : FileInfo) : Bool :=
  fi.isValid && (fi.erasure.distribution.length != drives ||
    fi.erasure.distribution[index]? != some fi.erasure.index)

/-- What the data check leaves of a drive: whether its data is available, its
data error, and its entry. -/
structure CheckedDrive where
  available : Bool
  dataErr : Option StorageErr
  fi : FileInfo

def checkDrive (check : DataCheck) (clock : Clock) (modTime : Time) (dataDir : String)
    (drives : Nat) (reliable : Bool) (index : Nat) (online : Bool) (read : MetaRead) :
    CheckedDrive :=
  match read.2 with
  | some err => ⟨false, some err, read.1⟩
  | none =>
    if online = false then ⟨false, some .errDiskNotFound, read.1⟩
    else if read.1.modTime ≠ modTime ∨ read.1.dataDir ≠ dataDir then
      ⟨false, some .errFileCorrupt, {}⟩
    else if reliable && !read.1.isValid then ⟨false, none, read.1⟩
    else if reliable && isInconsistent drives index read.1 then ⟨false, some .errFileCorrupt, {}⟩
    else
      match check.dataErr clock index read.1 with
      | none => ⟨true, none, read.1⟩
      | some err => ⟨false, some err, {}⟩

def disksWithAllParts {δ : Type} (orders : MapOrders) (check : DataCheck) (clock : Clock)
    (onlineDisks : List (Option δ)) (reads : List MetaRead) : List CheckedDrive :=
  let (modTime, dataDir) := commonTime orders (listObjectModtimes reads) (listObjectDataDirs reads)
  let inconsistent :=
    reads.zipIdx.countP fun entry => isInconsistent onlineDisks.length entry.2 entry.1.1
  -- With too many inconsistent entries the distribution itself is not trusted.
  let erasureDistributionReliable := decide (inconsistent ≤ reads.length / 2)
  (onlineDisks.zip reads).zipIdx.map fun entry =>
    checkDrive check clock modTime dataDir onlineDisks.length erasureDistributionReliable entry.2
      entry.1.1.isSome entry.1.2

/-- Data errors as the callers fill them in: an error of the metadata is the
error of the data too. -/
def DataErrsFollow (errs dataErrs : List (Option StorageErr)) : Prop :=
  ∀ err ∈ errs.zip dataErrs, err.1 ≠ none → err.2 = err.1

instance (errs dataErrs : List (Option StorageErr)) : Decidable (DataErrsFollow errs dataErrs) :=
  inferInstanceAs (Decidable (∀ err ∈ _, _))

theorem dataErrsFollow_nil (errs : List (Option StorageErr)) : DataErrsFollow errs [] := by
  intro err herr
  rw [List.zip_nil_right] at herr
  exact absurd herr List.not_mem_nil

theorem disksWithAllParts_dataErrsFollow {δ : Type} (orders : MapOrders) (check : DataCheck)
    (clock : Clock) (onlineDisks : List (Option δ)) (reads : List MetaRead)
    (hlength : onlineDisks.length = reads.length) :
    DataErrsFollow (reads.map Prod.snd)
      ((disksWithAllParts orders check clock onlineDisks reads).map CheckedDrive.dataErr) := by
  intro err herr hsome
  obtain ⟨i, hi, hget⟩ := List.mem_iff_getElem.mp herr
  rw [List.length_zip, List.length_map] at hi
  have hread : i < reads.length := by omega
  have hchecked : ((disksWithAllParts orders check clock onlineDisks reads).map
      CheckedDrive.dataErr)[i]? = some err.2 := by
    rw [← hget, List.getElem_zip, List.getElem?_eq_getElem]
  have hzip : i < (onlineDisks.zip reads).length := by
    rw [List.length_zip]
    omega
  have herrs : reads[i].2 = err.1 := by
    rw [← hget, List.getElem_zip, List.getElem_map]
  unfold disksWithAllParts at hchecked
  simp only [List.map_map, List.getElem?_map, List.getElem?_zipIdx,
    List.getElem?_eq_getElem hzip, Option.map_some, Function.comp_apply,
      List.getElem_zip] at hchecked
  rw [← Option.some.inj hchecked]
  unfold checkDrive
  cases hcase : reads[i].2 with
  | none => exact absurd (herrs.symm.trans hcase) hsome
  | some err' => simp only [← herrs, hcase]

def isLostMeta (err : Option StorageErr) : Bool := isNotFound err || isErr err [.errCorruptedFormat]

/-- Whether the shard of a drive is gone for certain, by the errors of its
metadata and of its data. -/
def isLostShard (err : Option StorageErr × Option StorageErr) : Bool :=
  isLostMeta err.1 || isNotFound err.2

/-- The errors of every drive; a drive whose data was not checked has no data
error. -/
def driveErrs : List (Option StorageErr) → List (Option StorageErr) →
    List (Option StorageErr × Option StorageErr)
  | [], _ => []
  | err :: errs, [] => (err, none) :: driveErrs errs []
  | err :: errs, dataErr :: dataErrs => (err, dataErr) :: driveErrs errs dataErrs

section Lost

variable {errs dataErrs : List (Option StorageErr)}

theorem countP_isLostMeta : errs.countP isLostMeta =
    errs.countP (fun err => !isNotFound err && isErr err [.errCorruptedFormat]) +
      errs.countP isNotFound := by
  induction errs with
  | nil => rfl
  | cons err errs ih =>
    rw [List.countP_cons, List.countP_cons, List.countP_cons, ih, isLostMeta]
    cases isNotFound err <;> cases isErr err [.errCorruptedFormat] <;> simp <;> omega

theorem isNotFound_none : isNotFound none = false := by decide

/-- No drive is counted twice when its data error follows its metadata error. -/
theorem countP_isLostShard (hfollow : DataErrsFollow errs dataErrs) :
    (driveErrs errs dataErrs).countP isLostShard =
      errs.countP isLostMeta +
        (errs.zip dataErrs).countP fun err => err.1 != err.2 && isNotFound err.2 := by
  induction errs generalizing dataErrs with
  | nil => rfl
  | cons err errs ih =>
    cases dataErrs with
    | nil =>
      rw [driveErrs, List.countP_cons, List.countP_cons, ih (dataErrsFollow_nil errs)]
      simp only [isLostShard, isNotFound_none, Bool.or_false, List.zip_nil_right,
        List.countP_nil, Nat.add_zero]
    | cons dataErr dataErrs =>
      have htail : DataErrsFollow errs dataErrs := fun other hother =>
        hfollow other (List.mem_cons_of_mem _ hother)
      rw [driveErrs, List.countP_cons, List.countP_cons, ih htail, List.zip_cons_cons,
        List.countP_cons]
      cases err with
      | none =>
        have hlost : isLostMeta none = false := by decide
        cases dataErr with
        | none => simp [isLostShard, hlost, isNotFound_none]
        | some dataErr =>
          simp only [isLostShard, hlost, Bool.false_or]
          cases isNotFound (some dataErr) <;> simp; omega
      | some err =>
        obtain rfl : dataErr = some err :=
          hfollow (some err, dataErr) List.mem_cons_self (Option.some_ne_none err)
        have hsame : isLostShard (some err, some err) = isLostMeta (some err) := by
          cases hfound : isNotFound (some err) <;> simp [isLostShard, isLostMeta, hfound]
        rw [hsame, bne_self_eq_false, Bool.false_and, if_neg Bool.false_ne_true]
        omega

end Lost

section Judged

variable {clock : Clock} {metaArr : List FileInfo} {errs dataErrs : List (Option StorageErr)}

/-- The drives that may still have a shard of the version: all but those whose
shard is gone for certain. -/
def possibleShards (errs dataErrs : List (Option StorageErr)) : Int :=
  errs.length - ((driveErrs errs dataErrs).countP isLostShard : Nat)

def possibleMetas (errs : List (Option StorageErr)) : Int :=
  errs.length - (errs.countP isLostMeta : Nat)

theorem firstValidMeta_isValid {fi : FileInfo} (hmem : fi ∈ metaArr) (hvalid : fi.isValid = true) :
    (firstValidMeta metaArr).isValid = true := by
  unfold firstValidMeta
  cases hfind : metaArr.find? FileInfo.isValid with
  | none => exact absurd hvalid (List.find?_eq_none.mp hfind fi hmem)
  | some found => exact List.find?_some hfind

theorem isObjectDangling_of_noParts
    (hparts : ((firstValidMeta metaArr).deleted ||
    (firstValidMeta metaArr).isRemote clock) = true) :
    (isObjectDangling clock metaArr errs dataErrs).2 = true ↔
      2 * possibleMetas errs < errs.length := by
  unfold isObjectDangling possibleMetas
  simp only [hparts, if_true, decide_eq_true_eq, ← countP_isLostMeta]
  omega

theorem isObjectDangling_of_parts (hfollow : DataErrsFollow errs dataErrs)
    (hparts : ((firstValidMeta metaArr).deleted || (firstValidMeta metaArr).isRemote clock) =
      false)
    (hvalid : (firstValidMeta metaArr).isValid = true)
    (hdrives : (firstValidMeta metaArr).erasure.dataBlocks +
      (firstValidMeta metaArr).erasure.parityBlocks = errs.length) :
    (isObjectDangling clock metaArr errs dataErrs).2 = true ↔
      possibleShards errs dataErrs < (firstValidMeta metaArr).erasure.dataBlocks := by
  obtain ⟨hobject, _⟩ := (Bool.or_eq_false_iff).mp hparts
  obtain ⟨_, hdata, _⟩ := (FileInfo.isValid_object_iff hobject).mp hvalid
  unfold isObjectDangling possibleShards
  rw [countP_isLostShard hfollow, countP_isLostMeta]
  simp only [hparts, Bool.false_eq_true, if_false, if_neg hdata, decide_eq_true_eq]
  omega

/-- An object with some valid metadata is only judged to be beyond repair when
too few drives can still hold it: fewer than the data shards of the version, or
fewer than half of the drives for a delete marker. -/
theorem isObjectDangling_only_when_lost (hfollow : DataErrsFollow errs dataErrs) {fi : FileInfo}
    (hmem : fi ∈ metaArr) (hvalid : fi.isValid = true)
    (hdrives : (firstValidMeta metaArr).deleted = false →
      (firstValidMeta metaArr).erasure.dataBlocks +
        (firstValidMeta metaArr).erasure.parityBlocks = errs.length)
    (hdangling : (isObjectDangling clock metaArr errs dataErrs).2 = true) :
    if (firstValidMeta metaArr).deleted then 2 * possibleMetas errs < errs.length
    else possibleShards errs dataErrs < (firstValidMeta metaArr).erasure.dataBlocks := by
  have hfirst := firstValidMeta_isValid hmem hvalid
  cases hdeleted : (firstValidMeta metaArr).deleted with
  | true =>
    rw [if_pos rfl]
    exact (isObjectDangling_of_noParts (by simp [hdeleted])).mp hdangling
  | false =>
    rw [if_neg Bool.false_ne_true]
    cases hremote : (firstValidMeta metaArr).isRemote clock with
    | true =>
      -- Half of the drives are never more than the data shards.
      have hmetas := (isObjectDangling_of_noParts (by simp [hremote])).mp hdangling
      obtain ⟨hle, _⟩ := (FileInfo.isValid_object_iff hdeleted).mp hfirst
      have hlost := countP_isLostShard hfollow
      have hdrives := hdrives hdeleted
      unfold possibleMetas at hmetas
      unfold possibleShards
      omega
    | false =>
      exact (isObjectDangling_of_parts hfollow (by simp [hdeleted, hremote]) hfirst
        (hdrives hdeleted)).mp hdangling

end Judged

/-- Metadata of a shard of an object of `dataBlocks` and `parityBlocks`. -/
def shardMeta (dataBlocks parityBlocks index : Int) (modTime : Time) : FileInfo :=
  { modTime := modTime, size := 1
    erasure := { dataBlocks := dataBlocks, parityBlocks := parityBlocks, index := index
                 distribution := [1, 2, 3, 4] } }

def epochClock : Clock := { now := (0 : Int), parseHTTPTime := fun _ => none }

/-- One part is missing, the metadata of two drives is: one shard may be left
where two are needed. -/
theorem isObjectDangling_three_lost :
    possibleShards [none, none, some .errFileVersionNotFound, some .errFileVersionNotFound]
        [none, some .errFileNotFound, some .errFileVersionNotFound,
          some .errFileVersionNotFound] < 2 :=
  @isObjectDangling_only_when_lost epochClock [shardMeta 2 2 1 (1 : Int), {}, {}, {}] _ _
    (by decide) (shardMeta 2 2 1 (1 : Int)) (by decide) (by decide) (by decide) (by decide)

/-- Beyond repair is only what fewer than `dataBlocks` drives may still hold,
where each drive without a definite "not found" may. -/
def OnlyWhenNotFound (clock : Clock) (metaArr : List FileInfo)
    (errs dataErrs : List (Option StorageErr)) (latest : FileInfo) : Prop :=
  (isObjectDangling clock metaArr errs dataErrs).2 = true →
    (errs.length : Int) - ((driveErrs errs dataErrs).countP fun err =>
      isNotFound err.1 || isNotFound err.2 : Nat) < latest.erasure.dataBlocks

instance (clock : Clock) (metaArr : List FileInfo) (errs dataErrs : List (Option StorageErr))
    (latest : FileInfo) : Decidable (OnlyWhenNotFound clock metaArr errs dataErrs latest) :=
  inferInstanceAs (Decidable (_ → _))

/-- Four ways for an object to be judged beyond repair although enough drives
may hold it: corrupt metadata counts as lost, a delete marker has no data
shards, the first valid metadata can be that of an older version, and without
any valid metadata the drives are not counted at all. -/
theorem isObjectDangling_too_early :
    ¬ OnlyWhenNotFound epochClock [shardMeta 2 2 1 (1 : Int), {}, {}, {}]
        [none, some .errCorruptedFormat, some .errCorruptedFormat, some .errCorruptedFormat] []
        (shardMeta 2 2 1 (1 : Int)) ∧
      ¬ OnlyWhenNotFound epochClock [{ deleted := true }, {}, {}]
        [none, some .errFileVersionNotFound, some .errFileVersionNotFound] []
        { deleted := true } ∧
      ¬ OnlyWhenNotFound epochClock
        [shardMeta 3 1 1 (1 : Int), shardMeta 2 2 2 (2 : Int), {}, {}]
        [none, none, some .errFileVersionNotFound, some .errFileVersionNotFound] []
        (shardMeta 2 2 2 (2 : Int)) ∧
      ¬ OnlyWhenNotFound epochClock [{}, {}, {}, {}]
        [some .errDiskNotFound, some .errDiskNotFound, some .errDiskNotFound,
          some .errDiskNotFound] []
        (shardMeta 2 2 1 (1 : Int)) := by
  decide

end Fs3
