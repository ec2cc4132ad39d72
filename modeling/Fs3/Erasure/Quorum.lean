import Fs3.Foundation.Tally
import Fs3.Storage.FileInfo

/-! # The version a set of drives agrees on

Every drive of a set answers a read with its own file information or with an error. -/

namespace Fs3

/-- One drive's entry: its file information and its error. -/
abbrev MetaRead := FileInfo × Option StorageErr

/-- `readAllFileInfo`: a drive that answers with an error leaves no file
information. -/
def readAllFileInfo (answers : List (Except StorageErr FileInfo)) : List MetaRead :=
  answers.map fun
    | .ok fi => (fi, none)
    | .error err => ({}, some err)

/-- The orders in which the counting maps are walked. -/
structure MapOrders where
  modTimes : Foundation.MapOrder Int
  dataDirs : Foundation.MapOrder String
  errs : Foundation.MapOrder (Option StorageErr)
  metaHashes : Foundation.MapOrder String

def baseIgnoredErrs : List StorageErr := [.errDiskNotFound, .errFaultyDisk, .errFaultyRemoteDisk]

def objectOpIgnoredErrs : List StorageErr :=
  baseIgnoredErrs ++ [.errDiskAccessDenied, .errUnformattedDisk]

def reduceErrs (orders : MapOrders) (errs : List (Option StorageErr))
    (ignoredErrs : List StorageErr) : Nat × Option StorageErr :=
  Foundation.mostFrequent orders.errs (fun err _ => err.isNone) none
    (errs.filter fun err => !isErr err ignoredErrs)

def reduceQuorumErrs (orders : MapOrders) (errs : List (Option StorageErr))
    (ignoredErrs : List StorageErr) (quorum : Int) (quorumErr : StorageErr) :
    Option StorageErr :=
  let (maxCount, maxErr) := reduceErrs orders errs ignoredErrs
  if quorum ≤ maxCount then maxErr else some quorumErr

def reduceReadQuorumErrs (orders : MapOrders) (errs : List (Option StorageErr))
    (ignoredErrs : List StorageErr) (readQuorum : Int) : Option StorageErr :=
  reduceQuorumErrs orders errs ignoredErrs readQuorum .errErasureReadQuorum

def reduceWriteQuorumErrs (orders : MapOrders) (errs : List (Option StorageErr))
    (ignoredErrs : List StorageErr) (writeQuorum : Int) : Option StorageErr :=
  reduceQuorumErrs orders errs ignoredErrs writeQuorum .errErasureWriteQuorum

def timeSentinel : Time := (0 : Int)

def objectModtime (read : MetaRead) : Time :=
  match read.2 with
  | some _ => timeSentinel
  | none => read.1.modTime

def objectDataDir (read : MetaRead) : String :=
  match read.2 with
  | some _ => ""
  | none => read.1.dataDir

def listObjectModtimes (reads : List MetaRead) : List Time := reads.map objectModtime

def listObjectDataDirs (reads : List MetaRead) : List String := reads.map objectDataDir

def commonModTime (orders : MapOrders) (modTimes : List Time) : Time :=
  Time.ofUnixNano (Foundation.mostFrequent orders.modTimes
    (fun nano modTime => decide (modTime < Time.ofUnixNano nano)) Time.zero
    ((modTimes.filter fun time => time != timeSentinel).map Time.unixNano)).2

def commonDataDir (orders : MapOrders) (dataDirs : List String) : String :=
  (Foundation.mostFrequent orders.dataDirs (fun _ _ => false) ""
    (dataDirs.filter fun dataDir => dataDir != "")).2

def commonTime (orders : MapOrders) (modTimes : List Time) (dataDirs : List String) :
    Time × String :=
  (commonModTime orders modTimes, commonDataDir orders dataDirs)

def isLatestEntry (modTime : Time) (dataDir : String) (read : MetaRead) : Bool :=
  read.1.isValid && objectModtime read == modTime && read.1.dataDir == dataDir

/-- Set to `none` every drive whose entry is not of the common version. -/
def listOnlineDisks {δ : Type} (orders : MapOrders) (disks : List (Option δ))
    (reads : List MetaRead) : List (Option δ) × Time × String :=
  let (modTime, dataDir) := commonTime orders (listObjectModtimes reads) (listObjectDataDirs reads)
  (List.zipWith (fun disk read => if isLatestEntry modTime dataDir read then disk else none)
    disks reads, modTime, dataDir)

/-- The file information of the common version: that of the last entry that
carries it. -/
def getLatestFileInfo (orders : MapOrders) (reads : List MetaRead) :
    Except StorageErr FileInfo :=
  let half : Nat := reads.length / 2
  match reduceReadQuorumErrs orders (reads.map Prod.snd) objectOpIgnoredErrs half with
  | some err => .error err
  | none =>
    let (modTime, dataDir) :=
      commonTime orders (listObjectModtimes reads) (listObjectDataDirs reads)
    let latest := reads.filter (isLatestEntry modTime dataDir)
    if latest.length < half then .error .errErasureReadQuorum
    else .ok (latest.getLast?.elim {} Prod.fst)

/-- What entries must share to be counted as one by `findFileInfoInQuorum`:
the part numbers, the distribution and the length of the inline data. -/
structure MetaHashInput where
  partNumbers : List Int
  distribution : List Int
  dataLength : Nat
  deriving DecidableEq, Repr

def FileInfo.hashInput (fi : FileInfo) : MetaHashInput where
  partNumbers := fi.parts.map ObjectPartInfo.number
  distribution := fi.erasure.distribution
  dataLength := fi.data.length

/-- Hashing what the entries must share: `sha256` over its text, in hex. -/
structure MetaHash where
  sum : MetaHashInput → String
  sum_ne_empty : ∀ input, sum input ≠ ""

def metaHash (hash : MetaHash) (modTime : Time) (dataDir : String) (fi : FileInfo) : String :=
  if fi.isValid && fi.modTime == modTime && fi.dataDir == dataDir then hash.sum fi.hashInput
  else ""

def metaHashVotes (hash : MetaHash) (modTime : Time) (dataDir : String)
    (metaArr : List FileInfo) : List String :=
  (metaArr.map (metaHash hash modTime dataDir)).filter fun metaHash => metaHash != ""

def commonMetaHash (orders : MapOrders) (hash : MetaHash) (metaArr : List FileInfo)
    (modTime : Time) (dataDir : String) : Nat × String :=
  Foundation.mostFrequent orders.metaHashes (fun _ _ => false) ""
    (metaHashVotes hash modTime dataDir metaArr)

/-- The first of the entries that most agree with each other, if they reach
the quorum. -/
def findFileInfoInQuorum (orders : MapOrders) (hash : MetaHash) (metaArr : List FileInfo)
    (modTime : Time) (dataDir : String) (quorum : Int) : Except StorageErr FileInfo :=
  if quorum < 2 then .error .errErasureReadQuorum
  else
    let common := commonMetaHash orders hash metaArr modTime dataDir
    if (common.1 : Int) < quorum then .error .errErasureReadQuorum
    else
      match metaArr.find? (fun fi =>
        metaHash hash modTime dataDir fi == common.2 && fi.isValid) with
      | some fi => .ok fi
      | none => .error .errErasureReadQuorum

def pickValidFileInfo (orders : MapOrders) (hash : MetaHash) (metaArr : List FileInfo)
    (modTime : Time) (dataDir : String) (quorum : Int) : Except StorageErr FileInfo :=
  findFileInfoInQuorum orders hash metaArr modTime dataDir quorum

open Foundation (occurrences)

section Majority

variable (orders : MapOrders)

theorem reduceQuorumErrs_of_majority {errs : List (Option StorageErr)}
    {ignoredErrs : List StorageErr} {quorum : Int} {quorumErr : StorageErr}
    (hmajority : errs.length < 2 * occurrences errs none)
    (hquorum : quorum ≤ occurrences errs none) :
    reduceQuorumErrs orders errs ignoredErrs quorum quorumErr = none := by
  have hnone : occurrences (errs.filter fun err => !isErr err ignoredErrs) none =
      occurrences errs none := by
    apply Foundation.occurrences_filter
    simp [isErr]
  have hlength := List.length_filter_le (fun err => !isErr err ignoredErrs) errs
  unfold reduceQuorumErrs reduceErrs
  rw [Foundation.mostFrequent_of_majority _ _ _ none (by omega), hnone]
  exact if_pos hquorum

theorem commonModTime_of_majority {modTimes : List Time} {modTime : Time}
    (hsentinel : modTime ≠ timeSentinel) (hzero : modTime ≠ Time.zero)
    (hmajority : modTimes.length < 2 * occurrences modTimes modTime) :
    commonModTime orders modTimes = modTime := by
  have hnano : modTime.unixNano = modTime := if_neg hzero
  have hcounted : occurrences (modTimes.filter fun time => time != timeSentinel) modTime =
      occurrences modTimes modTime := by
    apply Foundation.occurrences_filter
    simpa using hsentinel
  have hmapped := Foundation.occurrences_le_map
    (modTimes.filter fun time => time != timeSentinel) modTime Time.unixNano
  have hlength := List.length_filter_le (fun time => time != timeSentinel) modTimes
  unfold commonModTime
  rw [Foundation.mostFrequent_of_majority _ _ _ modTime.unixNano
    (by rw [List.length_map]; omega)]
  exact hnano

theorem commonModTime_cases (modTimes : List Time) :
    (commonModTime orders modTimes = Time.zero ∧ ∀ time ∈ modTimes, time = timeSentinel) ∨
      ∃ time ∈ modTimes, time ≠ timeSentinel ∧ commonModTime orders modTimes = time.unixNano := by
  unfold commonModTime
  by_cases hcounted : ((modTimes.filter fun time => time != timeSentinel).map Time.unixNano) = []
  · left
    rw [hcounted, Foundation.mostFrequent_nil]
    have hnone := List.filter_eq_nil_iff.mp (List.map_eq_nil_iff.mp hcounted)
    exact ⟨rfl, fun time htime => by simpa using hnone time htime⟩
  · right
    have hfound := Foundation.mostFrequent_mem orders.modTimes
      (fun nano modTime => decide (modTime < Time.ofUnixNano nano)) Time.zero hcounted
    obtain ⟨time, htime, heq⟩ := List.mem_map.mp hfound
    obtain ⟨hmem, hne⟩ := List.mem_filter.mp htime
    exact ⟨time, hmem, by simpa using hne, heq.symm⟩

theorem commonModTime_ne_sentinel (modTimes : List Time) :
    commonModTime orders modTimes ≠ timeSentinel := by
  rcases commonModTime_cases orders modTimes with ⟨hzero, _⟩ | ⟨time, _, hne, hnano⟩
  · rw [hzero]
    decide
  · rw [hnano]
    exact fun hcount => hne (Time.unixNano_eq_zero.mp hcount)

theorem commonModTime_ne_zero {modTimes : List Time} (hmem : Time.zero ∈ modTimes) :
    commonModTime orders modTimes ≠ Time.zero := by
  rcases commonModTime_cases orders modTimes with ⟨_, hall⟩ | ⟨time, _, _, hnano⟩
  · exact absurd (hall _ hmem) (by decide)
  · rw [hnano]
    exact Time.unixNano_ne_zero_time time

theorem commonDataDir_of_majority {dataDirs : List String} {dataDir : String}
    (hne : dataDir ≠ "") (hmajority : dataDirs.length < 2 * occurrences dataDirs dataDir) :
    commonDataDir orders dataDirs = dataDir := by
  have hcounted : occurrences (dataDirs.filter fun dataDir => dataDir != "") dataDir =
      occurrences dataDirs dataDir := by
    apply Foundation.occurrences_filter
    simpa using hne
  have hlength := List.length_filter_le (fun dataDir => dataDir != "") dataDirs
  unfold commonDataDir
  rw [Foundation.mostFrequent_of_majority _ _ _ dataDir (by omega)]

theorem commonDataDir_eq_empty {dataDirs : List String} :
    commonDataDir orders dataDirs = "" ↔ ∀ dataDir ∈ dataDirs, dataDir = "" := by
  unfold commonDataDir
  by_cases hcounted : (dataDirs.filter fun dataDir => dataDir != "") = []
  · rw [hcounted, Foundation.mostFrequent_nil]
    have hempty := List.filter_eq_nil_iff.mp hcounted
    exact ⟨fun _ dataDir hmem => by simpa using hempty dataDir hmem, fun _ => rfl⟩
  · have hfound := Foundation.mostFrequent_mem orders.dataDirs (fun _ _ => false) "" hcounted
    obtain ⟨hmem, hne⟩ := List.mem_filter.mp hfound
    constructor
    · intro hempty
      rw [hempty] at hne
      exact absurd hne (by decide)
    · intro hall
      exact hall _ hmem

end Majority

section Picked

variable {orders : MapOrders} {hash : MetaHash} {metaArr : List FileInfo} {modTime : Time}
  {dataDir : String} {quorum : Int}

/-- Whether file information is a valid one of the given time and directory. -/
def isVersionEntry (modTime : Time) (dataDir : String) (fi : FileInfo) : Bool :=
  fi.isValid && fi.modTime == modTime && fi.dataDir == dataDir

theorem metaHash_ne_empty {fi : FileInfo} :
    metaHash hash modTime dataDir fi ≠ "" ↔ isVersionEntry modTime dataDir fi = true := by
  unfold metaHash isVersionEntry
  split
  next hentry => simp [hentry, hash.sum_ne_empty]
  next hother => simp [hother]

theorem mem_metaHashVotes {sum : String} (hmem : sum ∈ metaHashVotes hash modTime dataDir metaArr) :
    ∃ fi ∈ metaArr, isVersionEntry modTime dataDir fi = true ∧
      metaHash hash modTime dataDir fi = sum := by
  obtain ⟨hmem, hne⟩ := List.mem_filter.mp hmem
  obtain ⟨fi, hfi, rfl⟩ := List.mem_map.mp hmem
  exact ⟨fi, hfi, metaHash_ne_empty.mp (by simpa using hne), rfl⟩

variable (hash metaArr modTime dataDir) in
theorem occurrences_metaHashVotes_ge (input : MetaHashInput) :
    metaArr.countP (fun fi => isVersionEntry modTime dataDir fi && fi.hashInput == input) ≤
      occurrences (metaHashVotes hash modTime dataDir metaArr) (hash.sum input) := by
  have hkept : occurrences (metaHashVotes hash modTime dataDir metaArr) (hash.sum input) =
      occurrences (metaArr.map (metaHash hash modTime dataDir)) (hash.sum input) := by
    apply Foundation.occurrences_filter
    simp [hash.sum_ne_empty]
  rw [hkept]
  unfold occurrences
  rw [List.countP_map]
  refine List.countP_mono_left fun fi _ hfi => ?_
  obtain ⟨hentry, hinput⟩ := (Bool.and_eq_true _ _).mp hfi
  unfold isVersionEntry at hentry
  simp only [Function.comp_apply, metaHash, hentry, if_true, eq_of_beq hinput, decide_true]

theorem commonMetaHash_mem
    (hpos : 0 < (commonMetaHash orders hash metaArr modTime dataDir).1) :
    (commonMetaHash orders hash metaArr modTime dataDir).2 ∈
      metaHashVotes hash modTime dataDir metaArr := by
  apply Foundation.mostFrequent_mem
  intro hnil
  rw [commonMetaHash, hnil, Foundation.mostFrequent_nil] at hpos
  exact Nat.lt_irrefl 0 hpos

theorem findFileInfoInQuorum_ok {fi : FileInfo}
    (hok : findFileInfoInQuorum orders hash metaArr modTime dataDir quorum = .ok fi) :
    fi ∈ metaArr ∧ isVersionEntry modTime dataDir fi = true := by
  unfold findFileInfoInQuorum at hok
  split at hok
  next => exact nomatch hok
  next hquorum =>
    simp only at hok
    split at hok
    next => exact nomatch hok
    next hreached =>
      split at hok
      next found hfound =>
        injection hok with hfi
        subst hfi
        refine ⟨List.mem_of_find?_eq_some hfound, ?_⟩
        have hsame := List.find?_some hfound
        rw [Bool.and_eq_true, beq_iff_eq] at hsame
        have hvote : (commonMetaHash orders hash metaArr modTime dataDir).2 ∈
            metaHashVotes hash modTime dataDir metaArr := commonMetaHash_mem (by omega)
        have hne := (List.mem_filter.mp hvote).2
        rw [← @metaHash_ne_empty hash, hsame.1]
        simpa using hne
      next => exact nomatch hok

theorem findFileInfoInQuorum_exists {input : MetaHashInput} (htwo : 2 ≤ quorum)
    (hquorum : quorum ≤ metaArr.countP
      (fun fi => isVersionEntry modTime dataDir fi && fi.hashInput == input)) :
    ∃ fi, findFileInfoInQuorum orders hash metaArr modTime dataDir quorum = .ok fi := by
  have hvotes := occurrences_metaHashVotes_ge hash metaArr modTime dataDir input
  have hmem : hash.sum input ∈ metaHashVotes hash modTime dataDir metaArr :=
    Foundation.occurrences_pos.mp (by omega)
  obtain ⟨key, hkey, hresult, hmax⟩ := Foundation.mostFrequent_spec orders.metaHashes
    (fun _ _ => false) "" (List.ne_nil_of_mem hmem)
  have hcommon : commonMetaHash orders hash metaArr modTime dataDir =
      (occurrences (metaHashVotes hash modTime dataDir metaArr) key, key) := hresult
  have hlargest := hmax _ hmem
  obtain ⟨fi, hfi, hentry, hsum⟩ := mem_metaHashVotes hkey
  have hvalid : fi.isValid = true := by
    simp only [isVersionEntry, Bool.and_eq_true] at hentry
    exact hentry.1.1
  unfold findFileInfoInQuorum
  rw [if_neg (by omega), hcommon]
  simp only
  rw [if_neg (by omega)]
  split
  next found _ => exact ⟨found, rfl⟩
  next hnone =>
    have hnot := List.find?_eq_none.mp hnone fi hfi
    simp [hsum, hvalid] at hnot

end Picked

end Fs3

/-! ## The error that a quorum of drives reports

The errors of a set of drives are counted in a map, where no error counts as
one and those to be ignored are left out. Here errors are values of any type:
they are counted by `==`, and ignored by `errors.Is`, which looks through the
errors that an error wraps.
-/

namespace Fs3

open Foundation (MapOrder mostFrequent occurrences)

/-- Package `errors`: whether an error is another one, or wraps it. -/
structure ErrorsPackage (ε : Type) where
  is : ε → ε → Bool

namespace ErrorsPackage

variable {ε : Type} (errors : ErrorsPackage ε)

/-- `errors.Is`, where no error is nothing but no error. -/
def isTarget : Option ε → Option ε → Bool
  | none, none => true
  | some err, some target => errors.is err target
  | _, _ => false

def isErrIgnored (err : Option ε) (ignoredErrs : List (Option ε)) : Bool :=
  ignoredErrs.any fun exactErr => errors.isTarget err exactErr

def counted (errs ignoredErrs : List (Option ε)) : List (Option ε) :=
  errs.filter fun err => !errors.isErrIgnored err ignoredErrs

variable [DecidableEq ε] (order : MapOrder (Option ε))

/-- `reduceErrs`: of two values that occur as often, no error is preferred. -/
def reduceErrs (errs ignoredErrs : List (Option ε)) : Nat × Option ε :=
  mostFrequent order (fun err _ => err.isNone) none (errors.counted errs ignoredErrs)

def reduceQuorumErrs (errs ignoredErrs : List (Option ε)) (quorum : Int)
    (quorumErr : Option ε) : Option ε :=
  let (maxCount, maxErr) := errors.reduceErrs order errs ignoredErrs
  if quorum ≤ maxCount then maxErr else quorumErr

/-! ## What a quorum agrees on -/

section Quorum

variable {errs errs' ignoredErrs : List (Option ε)} {quorum : Int}

theorem occurrences_counted {err : Option ε} (hkept : errors.isErrIgnored err ignoredErrs = false) :
    occurrences (errors.counted errs ignoredErrs) err = occurrences errs err :=
  Foundation.occurrences_filter (by rw [hkept]; rfl)

omit [DecidableEq ε] in
theorem isErrIgnored_of_mem {err : Option ε} (hmem : err ∈ errors.counted errs ignoredErrs) :
    errors.isErrIgnored err ignoredErrs = false := by
  simpa using (List.mem_filter.mp hmem).2

theorem reduceQuorumErrs_of_agreed (hquorum : errs.length < 2 * quorum) {err : Option ε}
    (hkept : errors.isErrIgnored err ignoredErrs = false)
    (hagreed : quorum ≤ occurrences errs err) (quorumErr : Option ε) :
    errors.reduceQuorumErrs order errs ignoredErrs quorum quorumErr = err := by
  have hlength : (errors.counted errs ignoredErrs).length ≤ errs.length :=
    List.length_filter_le _ _
  unfold reduceQuorumErrs reduceErrs
  rw [Foundation.mostFrequent_of_majority order _ none err
    (by rw [errors.occurrences_counted hkept]; omega), errors.occurrences_counted hkept]
  exact if_pos hagreed

theorem reduceQuorumErrs_of_disagreed (hquorum : errs.length < 2 * quorum)
    (hless : ∀ err, errors.isErrIgnored err ignoredErrs = false → occurrences errs err < quorum)
    (quorumErr : Option ε) :
    errors.reduceQuorumErrs order errs ignoredErrs quorum quorumErr = quorumErr := by
  have hfst : (mostFrequent order (fun err _ => err.isNone) none
      (errors.counted errs ignoredErrs)).1 < quorum.toNat := by
    apply Foundation.mostFrequent_fst_lt
    · omega
    · intro err hmem
      have hkept := errors.isErrIgnored_of_mem hmem
      have hlt := hless err hkept
      rw [errors.occurrences_counted hkept]
      omega
  unfold reduceQuorumErrs reduceErrs
  dsimp only
  rw [if_neg (by omega)]

/-- An error that a quorum reports, if there is one, is what the errors are reduced to,
and otherwise the error of the quorum. -/
structure Reduces (errs ignoredErrs : List (Option ε)) (quorum : Int)
    (quorumErr result : Option ε) : Prop where
  agreed : ∀ err, errors.isErrIgnored err ignoredErrs = false →
    quorum ≤ occurrences errs err → result = err
  disagreed : (∀ err, errors.isErrIgnored err ignoredErrs = false →
    occurrences errs err < quorum) → result = quorumErr

theorem Reduces.unique {quorumErr result result' : Option ε} (hperm : errs'.Perm errs)
    (hreduces : errors.Reduces errs ignoredErrs quorum quorumErr result)
    (hreduces' : errors.Reduces errs' ignoredErrs quorum quorumErr result') :
    result' = result := by
  by_cases hagreed : ∃ err, errors.isErrIgnored err ignoredErrs = false ∧
      quorum ≤ occurrences errs err
  · obtain ⟨err, hkept, hle⟩ := hagreed
    rw [hreduces.agreed err hkept hle]
    exact hreduces'.agreed err hkept (by rwa [Foundation.occurrences_perm hperm])
  · have hless : ∀ err, errors.isErrIgnored err ignoredErrs = false →
        occurrences errs err < quorum :=
      fun err hkept => Int.not_le.mp fun hle => hagreed ⟨err, hkept, hle⟩
    rw [hreduces.disagreed hless]
    exact hreduces'.disagreed fun err hkept => by
      rw [Foundation.occurrences_perm hperm]
      exact hless err hkept

/-- A quorum of more than half of the drives reduces their errors to what it reports,
whatever the order of the drives is and that of the map. -/
theorem reduceQuorumErrs_reduces (hquorum : errs.length < 2 * quorum) (quorumErr : Option ε) :
    errors.Reduces errs ignoredErrs quorum quorumErr
        (errors.reduceQuorumErrs order errs ignoredErrs quorum quorumErr) ∧
      ∀ (order' : MapOrder (Option ε)) (errs' : List (Option ε)), errs'.Perm errs →
        errors.reduceQuorumErrs order' errs' ignoredErrs quorum quorumErr =
          errors.reduceQuorumErrs order errs ignoredErrs quorum quorumErr := by
  have hreduces : ∀ (order' : MapOrder (Option ε)) (errs' : List (Option ε)),
      errs'.Perm errs → errors.Reduces errs' ignoredErrs quorum quorumErr
        (errors.reduceQuorumErrs order' errs' ignoredErrs quorum quorumErr) := by
    intro order' errs' hperm
    have hquorum' : errs'.length < 2 * quorum := by rwa [hperm.length_eq]
    exact ⟨fun err hkept hle => errors.reduceQuorumErrs_of_agreed order' hquorum' hkept hle _,
      fun hless => errors.reduceQuorumErrs_of_disagreed order' hquorum' hless _⟩
  have hself := hreduces order errs (List.Perm.refl _)
  exact ⟨hself, fun order' errs' hperm => hself.unique errors hperm (hreduces order' errs' hperm)⟩

end Quorum

def storage : ErrorsPackage StorageErr where
  is err target := err == target

theorem isErrIgnored_storage (err : Option StorageErr) (ignoredErrs : List StorageErr) :
    storage.isErrIgnored err (ignoredErrs.map some) = isErr err ignoredErrs := by
  unfold isErrIgnored isErr
  rw [List.any_map]
  congr 1
  funext exact
  cases err with
  | none => rfl
  | some err => exact (Option.some_beq_some).symm

theorem reduceQuorumErrs_storage (orders : MapOrders) (errs : List (Option StorageErr))
    (ignoredErrs : List StorageErr) (quorum : Int) (quorumErr : StorageErr) :
    storage.reduceQuorumErrs orders.errs errs (ignoredErrs.map some) quorum (some quorumErr) =
      Fs3.reduceQuorumErrs orders errs ignoredErrs quorum quorumErr := by
  unfold reduceQuorumErrs Fs3.reduceQuorumErrs reduceErrs Fs3.reduceErrs counted
  simp only [isErrIgnored_storage]

/-- Four of seven drives that lack the volume, with two that are to be ignored. -/
theorem volumeNotFound_reduces :
    storage.Reduces
        [none, some .errVolumeNotFound, some .errVolumeNotFound, some .errDiskNotFound,
          some .errVolumeNotFound, some .errDiskNotFound, some .errVolumeNotFound]
        [some .errDiskNotFound] 4 (some .errErasureReadQuorum)
        (storage.reduceQuorumErrs (MapOrder.visitFirst none)
          [none, some .errVolumeNotFound, some .errVolumeNotFound, some .errDiskNotFound,
            some .errVolumeNotFound, some .errDiskNotFound, some .errVolumeNotFound]
          [some .errDiskNotFound] 4 (some .errErasureReadQuorum)) :=
  (storage.reduceQuorumErrs_reduces (MapOrder.visitFirst none) (by decide) _).1

/-- A quorum that reports an error to be ignored is a quorum that agrees on nothing. -/
theorem ignored_not_reduced :
    1 ≤ occurrences [some StorageErr.errDiskNotFound] (some .errDiskNotFound) ∧
      ∀ order : MapOrder (Option StorageErr),
        storage.reduceQuorumErrs order [some .errDiskNotFound] [some .errDiskNotFound] 1
          (some .errErasureReadQuorum) ≠ some .errDiskNotFound := by
  refine ⟨by decide, fun order => ?_⟩
  rw [storage.reduceQuorumErrs_of_disagreed order (by decide)]
  · decide
  · intro err hkept
    by_cases hdisk : err = some .errDiskNotFound
    · subst hdisk
      cases hkept
    · have hnone : occurrences [some StorageErr.errDiskNotFound] err = 0 := by
        simp [occurrences, Ne.symm hdisk]
      rw [hnone]
      decide

end ErrorsPackage

end Fs3
