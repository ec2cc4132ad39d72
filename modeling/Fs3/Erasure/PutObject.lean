import Fs3.Erasure.Quorum
import Fs3.Journal.Record

/-! # How an object is spread over the drives when it is put

The storage class of a request gives the number of parity drives. Each drive that is found to be
offline raises it by one, up to half of the drives. -/

namespace Fs3

/-- The configured parity of the two storage classes; zero is not configured. -/
structure StorageClassConfig where
  standard : Int := 0
  rrs : Int := 0
  deriving DecidableEq, Repr

def reducedRedundancy : String := "REDUCED_REDUNDANCY"

def defaultRRSParity : Int := 2

def StorageClassConfig.getParityForSC (sCfg : StorageClassConfig) (sc : String) : Int :=
  if trimSpace sc.toList = reducedRedundancy.toList then
    if sCfg.rrs = 0 then defaultRRSParity else sCfg.rrs
  else sCfg.standard

def StorageClassConfig.parityOrDefault (sCfg : StorageClassConfig) (defaultParityCount : Int)
    (sc : String) : Int :=
  if sCfg.getParityForSC sc ≤ 0 then defaultParityCount else sCfg.getParityForSC sc

/-- What a drive of the set is found to be: absent, or the answer of `DiskInfo`
with the id of the drive. -/
abbrev DiskStatus := Option (Except StorageErr String)

def isOfflineDisk : DiskStatus → Bool
  | none => true
  | some (.error _) => true
  | some (.ok id) => id == ""

/-- Raise the parity by one for each drive that is offline, up to `half`. -/
def upgradeParity (half : Int) : List DiskStatus → Int → Int
  | [], parityDrives => parityDrives
  | disk :: disks, parityDrives =>
    if half ≤ parityDrives then half
    else upgradeParity half disks (if isOfflineDisk disk then parityDrives + 1 else parityDrives)

/-- The options of a put that decide how the object is spread. -/
structure PutOptions where
  userDefined : Metadata := ∅
  maxParity : Bool := false
  versioned : Bool := false
  versionID : String := ""
  mTime : Time := Time.zero

def minIOErasureUpgraded : String := "x-minio-internal-erasure-upgraded"

structure PutPlan where
  parityDrives : Int
  dataDrives : Int
  writeQuorum : Int
  userDefined : Metadata

def writeQuorumOf (dataDrives parityDrives : Int) : Int :=
  if dataDrives = parityDrives then dataDrives + 1 else dataDrives

def noteUpgrade (userDefined : Metadata) (parityOrig parityDrives : Int) : Metadata :=
  if parityOrig ≠ parityDrives then
    userDefined.insert minIOErasureUpgraded
      (toString parityOrig ++ "->" ++ toString parityDrives)
  else userDefined

def putPlan (sCfg : StorageClassConfig) (defaultParityCount : Int) (opts : PutOptions)
    (storageDisks : List DiskStatus) : PutPlan :=
  let half : Int := (storageDisks.length / 2 : Nat)
  let parityOrig :=
    if opts.maxParity then half
    else sCfg.parityOrDefault defaultParityCount (opts.userDefined.getD amzStorageClass "")
  let parityDrives :=
    if opts.maxParity then half else upgradeParity half storageDisks parityOrig
  { parityDrives := parityDrives
    dataDrives := storageDisks.length - parityDrives
    writeQuorum := writeQuorumOf (storageDisks.length - parityDrives) parityDrives
    userDefined := noteUpgrade opts.userDefined parityOrig parityDrives }

def erasureAlgorithm : String := "rs-vandermonde"

def blockSizeV2 : Int := 1048576

/-- Which shard each drive holds: consecutive ones from where the checksum of
the name says. -/
def hashOrder (keyCrc : UInt32) (cardinality : Int) : List Int :=
  (List.range cardinality.toNat).map fun (i : Nat) =>
    1 + ((keyCrc.toNat % cardinality.toNat + (i + 1)) % cardinality.toNat : Nat)

def newFileInfo (keyCrc : UInt32) (dataBlocks parityBlocks : Int) : FileInfo :=
  { erasure :=
      { algorithm := erasureAlgorithm
        dataBlocks := dataBlocks
        parityBlocks := parityBlocks
        blockSize := blockSizeV2
        distribution := hashOrder keyCrc (dataBlocks + parityBlocks) } }

/-- What a put learns besides its options: fresh ids, the time, the checksum of
the name, and what the stream and the writers of the shards give. -/
structure PutInput where
  versionUUID : String
  dataDirUUID : String
  now : Time
  keyCrc : UInt32
  /-- The length of the stream, and of the contents before compression. -/
  size : Int
  actualSize : Int
  md5 : String
  contentType : String
  /-- Whether shards are small enough to be kept in the metadata. -/
  inlined : Bool

/-- The shard that the writer of one drive got: its place, its bitrot checksum
and, where shards are inlined, its bytes. -/
structure PutShard where
  index : Nat
  sum : Bytes
  data : Bytes

/-- `DefaultBitrotAlgorithm`. -/
def defaultBitrotAlgorithm : BitrotAlgorithm := .highwayHash256S

def setUnset (metadata : Metadata) (key value : String) : Metadata :=
  if metadata.getD key "" = "" then metadata.insert key value else metadata

def putMetadata (plan : PutPlan) (input : PutInput) : Metadata :=
  let named := setUnset (setUnset plan.userDefined "etag" input.md5) "content-type"
    input.contentType
  if input.inlined then named.insert (reservedMetadataPrefixLower ++ "inline-data") "true"
  else named

/-- The file information that `renameData` hands to the drive of a shard. -/
def putFileInfo (plan : PutPlan) (opts : PutOptions) (input : PutInput) (shard : PutShard) :
    FileInfo :=
  let fi := newFileInfo input.keyCrc plan.dataDrives plan.parityDrives
  { fi with
    versionID :=
      if opts.versioned = true ∧ opts.versionID = "" then input.versionUUID else opts.versionID
    dataDir := input.dataDirUUID
    data := if input.inlined then shard.data else []
    parts := [{ number := 1, eTag := "", size := input.size, actualSize := input.actualSize }]
    metadata := putMetadata plan input
    size := input.size
    modTime := if opts.mTime = Time.zero then input.now else opts.mTime
    erasure :=
      { fi.erasure with
        index := shard.index + 1
        checksums :=
          [{ partNumber := 1, algorithm := defaultBitrotAlgorithm, hash := shard.sum }] } }

section Lemmas

variable {sCfg : StorageClassConfig} {defaultParityCount : Int} {opts : PutOptions}
  {storageDisks : List DiskStatus}

theorem upgradeParity_eq {half parityDrives : Int} (hne : storageDisks ≠ []) :
    upgradeParity half storageDisks parityDrives =
      if parityDrives + storageDisks.countP isOfflineDisk ≤ half then
        parityDrives + storageDisks.countP isOfflineDisk
      else half := by
  induction storageDisks generalizing parityDrives with
  | nil => exact absurd rfl hne
  | cons disk disks ih =>
    rw [upgradeParity, List.countP_cons]
    split
    next hhalf => split <;> omega
    next hlow =>
      by_cases hlast : disks = []
      · subst hlast
        rw [upgradeParity, List.countP_nil]
        split <;> split <;> omega
      · rw [ih hlast]
        split <;> split <;> split <;> omega

theorem getElem?_insert_of_ne (metadata : Metadata) {key other : String} (value : String)
    (hne : key ≠ other) : (metadata.insert key value)[other]? = metadata[other]? := by
  rw [Std.ExtTreeMap.getElem?_insert, if_neg]
  exact fun heq => hne (Std.LawfulEqOrd.eq_of_compare heq)

theorem getElem?_setUnset_of_ne (metadata : Metadata) {key other : String} (value : String)
    (hne : key ≠ other) : (setUnset metadata key value)[other]? = metadata[other]? := by
  unfold setUnset
  split
  next => exact getElem?_insert_of_ne metadata value hne
  next => rfl

theorem putMetadata_storageClass (plan : PutPlan) (input : PutInput) :
    (putMetadata plan input)[amzStorageClass]? = plan.userDefined[amzStorageClass]? := by
  have hetag : "etag" ≠ amzStorageClass := by decide
  have htype : "content-type" ≠ amzStorageClass := by decide
  have hinline : reservedMetadataPrefixLower ++ "inline-data" ≠ amzStorageClass := by decide
  have hnamed : (setUnset (setUnset plan.userDefined "etag" input.md5) "content-type"
      input.contentType)[amzStorageClass]? = plan.userDefined[amzStorageClass]? := by
    rw [getElem?_setUnset_of_ne _ _ htype, getElem?_setUnset_of_ne _ _ hetag]
  rw [← hnamed]
  unfold putMetadata
  simp only
  split
  next => exact getElem?_insert_of_ne _ _ hinline
  next => rfl

theorem putPlan_storageClass :
    (putPlan sCfg defaultParityCount opts storageDisks).userDefined[amzStorageClass]? =
      opts.userDefined[amzStorageClass]? := by
  have hnote : minIOErasureUpgraded ≠ amzStorageClass := by decide
  have hkept : ∀ parityOrig parityDrives : Int,
      (noteUpgrade opts.userDefined parityOrig parityDrives)[amzStorageClass]? =
        opts.userDefined[amzStorageClass]? := by
    intro parityOrig parityDrives
    unfold noteUpgrade
    split
    next => exact getElem?_insert_of_ne _ _ hnote
    next => rfl
  exact hkept _ _

end Lemmas

end Fs3

/-! ## The quorums of an object that is there

A put knows how many parity drives it uses. Later the quorums are computed
again, from the data drives in the metadata but the parity of the storage
class, so an object whose parity was raised to half of the drives has a write
quorum that is one drive short.
-/

namespace Fs3

def objectQuorumFromMeta (orders : MapOrders) (sCfg : StorageClassConfig)
    (reads : List MetaRead) (defaultParityCount : Int) : Except StorageErr (Int × Int) :=
  match getLatestFileInfo orders reads with
  | .error err => .error err
  | .ok latestFileInfo =>
    if latestFileInfo.isValid = false then .error .errErasureReadQuorum
    else
      let parityBlocks := sCfg.parityOrDefault defaultParityCount
        (latestFileInfo.metadata.getD amzStorageClass "")
      let dataBlocks :=
        if latestFileInfo.erasure.dataBlocks = 0 then reads.length - parityBlocks
        else latestFileInfo.erasure.dataBlocks
      .ok (dataBlocks, writeQuorumOf dataBlocks parityBlocks)

/-- The quorums that are computed for an object overlap, and the write quorum
is the one it was put with. -/
def QuorumsAgree (orders : MapOrders) (sCfg : StorageClassConfig) (reads : List MetaRead)
    (defaultParityCount : Int) (plan : PutPlan) : Prop :=
  ∃ readQuorum writeQuorum,
    objectQuorumFromMeta orders sCfg reads defaultParityCount = .ok (readQuorum, writeQuorum) ∧
      plan.dataDrives + plan.parityDrives < readQuorum + writeQuorum ∧
      plan.dataDrives + plan.parityDrives < 2 * writeQuorum ∧
      writeQuorum = plan.writeQuorum

/-- The parity an object is put with: that of its class, raised by the drives
that are offline, but half of the drives at most. -/
def raisedParity (sCfg : StorageClassConfig) (defaultParityCount : Int) (opts : PutOptions)
    (storageDisks : List DiskStatus) : Int :=
  let half : Int := (storageDisks.length / 2 : Nat)
  let raised :=
    sCfg.parityOrDefault defaultParityCount (opts.userDefined.getD amzStorageClass "") +
      storageDisks.countP isOfflineDisk
  if opts.maxParity = true ∨ half < raised then half else raised

section Plan

variable {sCfg : StorageClassConfig} {defaultParityCount : Int} {opts : PutOptions}
  {storageDisks : List DiskStatus}

theorem putPlan_parityDrives (hne : storageDisks ≠ []) :
    (putPlan sCfg defaultParityCount opts storageDisks).parityDrives =
      raisedParity sCfg defaultParityCount opts storageDisks := by
  unfold putPlan raisedParity
  cases hmax : opts.maxParity with
  | true => simp
  | false =>
    simp only [Bool.false_eq_true, if_false, false_or]
    rw [upgradeParity_eq hne]
    split <;> split <;> omega

variable (sCfg defaultParityCount opts storageDisks) in
theorem putPlan_drives :
    (putPlan sCfg defaultParityCount opts storageDisks).dataDrives +
      (putPlan sCfg defaultParityCount opts storageDisks).parityDrives = storageDisks.length := by
  change (storageDisks.length - _ : Int) + _ = _
  exact Int.sub_add_cancel _ _

theorem putPlan_writeQuorum :
    (putPlan sCfg defaultParityCount opts storageDisks).writeQuorum =
      writeQuorumOf (putPlan sCfg defaultParityCount opts storageDisks).dataDrives
        (putPlan sCfg defaultParityCount opts storageDisks).parityDrives := rfl

end Plan

section Claim

variable {orders : MapOrders} {reads : List MetaRead} {sCfg sCfg' : StorageClassConfig}
  {defaultParityCount defaultParityCount' : Int} {opts : PutOptions}
  {storageDisks : List DiskStatus} {input : PutInput} {shard : PutShard} {uuid : UuidPackage}
  {latest : FileInfo}

theorem recorded_putFileInfo {plan : PutPlan}
    (hvalid : (putFileInfo plan opts input shard).isValid = true)
    (hrecorded : (putFileInfo plan opts input shard).Recorded uuid latest) :
    latest.isValid = true ∧ latest.erasure.dataBlocks = plan.dataDrives ∧
      latest.metadata[amzStorageClass]? = plan.userDefined[amzStorageClass]? := by
  have hobject := hrecorded.object rfl
  have hdeleted : latest.deleted = false := hrecorded.deleted
  have hclass : isReserved amzStorageClass = false := by decide
  have hkept : isUnencryptedContent amzStorageClass = false := by decide
  refine ⟨?_, hobject.dataBlocks, ?_⟩
  · rw [← hvalid]
    unfold FileInfo.isValid
    rw [hdeleted, hobject.dataBlocks, hobject.parityBlocks, hobject.index, hobject.distribution,
      List.length_map]
    rfl
  · rw [hobject.metadata, hkept, FileInfo.storedValue_of_not_isReserved _ hclass]
    exact putMetadata_storageClass plan input

theorem drives_of_isValid {plan : PutPlan}
    (hvalid : (putFileInfo plan opts input shard).isValid = true) :
    plan.parityDrives ≤ plan.dataDrives ∧ plan.dataDrives ≠ 0 ∧
      0 < plan.dataDrives + plan.parityDrives := by
  obtain ⟨hle, hdata, _, hpos, hindex, _⟩ := (FileInfo.isValid_object_iff rfl).mp hvalid
  exact ⟨hle, hdata, Int.lt_of_lt_of_le hpos hindex⟩

theorem objectQuorumFromMeta_putFileInfo
    (hvalid : (putFileInfo (putPlan sCfg defaultParityCount opts storageDisks) opts input
      shard).isValid = true)
    (hrecorded : (putFileInfo (putPlan sCfg defaultParityCount opts storageDisks) opts input
      shard).Recorded uuid latest)
    (hlatest : getLatestFileInfo orders reads = .ok latest) :
    objectQuorumFromMeta orders sCfg' reads defaultParityCount' =
      .ok ((putPlan sCfg defaultParityCount opts storageDisks).dataDrives,
        writeQuorumOf (putPlan sCfg defaultParityCount opts storageDisks).dataDrives
          (sCfg'.parityOrDefault defaultParityCount'
            (opts.userDefined.getD amzStorageClass ""))) := by
  obtain ⟨hlatestValid, hdata, hclass⟩ := recorded_putFileInfo hvalid hrecorded
  obtain ⟨_, hne, _⟩ := drives_of_isValid hvalid
  have hget : latest.metadata.getD amzStorageClass "" =
      opts.userDefined.getD amzStorageClass "" := by
    rw [Std.ExtTreeMap.getD_eq_getD_getElem?, hclass, putPlan_storageClass,
      ← Std.ExtTreeMap.getD_eq_getD_getElem?]
  unfold objectQuorumFromMeta
  rw [hlatest]
  simp only [hlatestValid, hdata, hget, if_neg hne, Bool.true_eq_false, if_false]

theorem writeQuorumOf_agree_iff {dataDrives parityDrives : Int} (other : Int)
    (hle : parityDrives ≤ dataDrives) :
    (dataDrives + parityDrives < dataDrives + writeQuorumOf dataDrives other ∧
        dataDrives + parityDrives < 2 * writeQuorumOf dataDrives other ∧
        writeQuorumOf dataDrives other = writeQuorumOf dataDrives parityDrives) ↔
      (dataDrives = parityDrives ↔ dataDrives = other) := by
  unfold writeQuorumOf
  split <;> split <;> omega

/-- The quorums agree exactly when the object is put with half of the drives as
parity just where the parity that its class has later makes up all drives
together with it. -/
theorem quorumsAgree_iff
    (hvalid : (putFileInfo (putPlan sCfg defaultParityCount opts storageDisks) opts input
      shard).isValid = true)
    (hrecorded : (putFileInfo (putPlan sCfg defaultParityCount opts storageDisks) opts input
      shard).Recorded uuid latest)
    (hlatest : getLatestFileInfo orders reads = .ok latest) :
    QuorumsAgree orders sCfg' reads defaultParityCount'
        (putPlan sCfg defaultParityCount opts storageDisks) ↔
      ((storageDisks.length : Int) = 2 * raisedParity sCfg defaultParityCount opts storageDisks ↔
        (storageDisks.length : Int) = raisedParity sCfg defaultParityCount opts storageDisks +
          sCfg'.parityOrDefault defaultParityCount'
            (opts.userDefined.getD amzStorageClass "")) := by
  obtain ⟨hle, _, hpos⟩ := drives_of_isValid hvalid
  have hdrives := putPlan_drives sCfg defaultParityCount opts storageDisks
  have hdisks : storageDisks ≠ [] := by
    rintro rfl
    rw [hdrives] at hpos
    exact Int.lt_irrefl 0 hpos
  unfold QuorumsAgree
  rw [objectQuorumFromMeta_putFileInfo hvalid hrecorded hlatest,
    ← putPlan_parityDrives hdisks, ← hdrives]
  have hagree := writeQuorumOf_agree_iff
    (sCfg'.parityOrDefault defaultParityCount' (opts.userDefined.getD amzStorageClass "")) hle
  rw [← putPlan_writeQuorum] at hagree
  constructor
  · rintro ⟨readQuorum, writeQuorum, hok, hoverlap⟩
    injection hok with hpair
    obtain ⟨rfl, rfl⟩ := Prod.mk.inj hpair
    have hsame := hagree.mp hoverlap
    omega
  · intro hcondition
    exact ⟨_, _, rfl, hagree.mpr (by omega)⟩

end Claim

section Examples

def emptyPut : PutInput :=
  { versionUUID := "", dataDirUUID := "", now := (1 : Int), keyCrc := 0, size := 0
    actualSize := 0, md5 := "", contentType := "", inlined := false }

def emptyShard (index : Nat) : PutShard := { index := index, sum := [], data := [] }

def readBack (plan : PutPlan) (index : Nat) : FileInfo :=
  ((putFileInfo plan {} emptyPut (emptyShard index)).toVersion 0 0).fileInfo .google "bucket"
    "object"

def readsBack (plan : PutPlan) : List MetaRead :=
  readAllFileInfo [.ok (readBack plan 0), .ok (readBack plan 1), .ok (readBack plan 2),
    .ok (readBack plan 3), .ok (readBack plan 4), .error .errDiskNotFound]

def anyOrders : MapOrders := ⟨.visitFirst 0, .visitFirst "", .visitFirst none, .visitFirst ""⟩

def sixDisks (last : DiskStatus) : List DiskStatus :=
  [some (.ok "a"), some (.ok "b"), some (.ok "c"), some (.ok "d"), some (.ok "e"), last]

def onlinePlan : PutPlan := putPlan { standard := 2 } 3 {} (sixDisks (some (.ok "f")))

def raisedPlan : PutPlan := putPlan { standard := 2 } 3 {} (sixDisks none)

theorem onlinePlan_quorumsAgree :
    QuorumsAgree anyOrders { standard := 2 } (readsBack onlinePlan) 3 onlinePlan :=
  have hvalid : (putFileInfo onlinePlan {} emptyPut (emptyShard 4)).isValid = true := by decide
  have hrecorded : (putFileInfo onlinePlan {} emptyPut (emptyShard 4)).Recorded .google
      (readBack onlinePlan 4) :=
    FileInfo.recorded_toVersion .google "bucket" "object" _ rfl (by decide)
  (quorumsAgree_iff hvalid hrecorded rfl).mpr (by decide)

/-- The object is put with a write quorum of four drives, and later three are
taken to be enough. -/
theorem raisedPlan_quorums_disagree :
    (putFileInfo raisedPlan {} emptyPut (emptyShard 4)).isValid = true ∧
      (putFileInfo raisedPlan {} emptyPut (emptyShard 4)).Recorded .google (readBack raisedPlan 4) ∧
      getLatestFileInfo anyOrders (readsBack raisedPlan) = .ok (readBack raisedPlan 4) ∧
      ¬ QuorumsAgree anyOrders { standard := 2 } (readsBack raisedPlan) 3 raisedPlan := by
  have hvalid : (putFileInfo raisedPlan {} emptyPut (emptyShard 4)).isValid = true := by decide
  have hrecorded : (putFileInfo raisedPlan {} emptyPut (emptyShard 4)).Recorded .google
      (readBack raisedPlan 4) :=
    FileInfo.recorded_toVersion .google "bucket" "object" _ rfl (by decide)
  have hlatest : getLatestFileInfo anyOrders (readsBack raisedPlan) =
      .ok (readBack raisedPlan 4) := rfl
  refine ⟨hvalid, hrecorded, hlatest, ?_⟩
  rintro ⟨readQuorum, writeQuorum, hok, _, _, hwrite⟩
  have hthree : writeQuorumOf raisedPlan.dataDrives
      (StorageClassConfig.parityOrDefault { standard := 2 } 3 "") = 3 := by decide
  have hfour : raisedPlan.writeQuorum = 4 := by decide
  rw [objectQuorumFromMeta_putFileInfo hvalid hrecorded hlatest] at hok
  injection hok with hpair
  obtain ⟨_, hquorum⟩ := Prod.mk.inj hpair
  rw [← hquorum, hfour] at hwrite
  exact absurd (hthree.symm.trans hwrite) (by decide)

end Examples

end Fs3
