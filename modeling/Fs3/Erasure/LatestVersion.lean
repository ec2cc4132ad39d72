import Fs3.Erasure.Quorum

/-! # What a majority of the drives agrees on is what is read

When more than half of the entries are valid and carry one modification time and one data
directory, they should be what the erasure layer takes for the latest version. They are unless one
of the two counts misses them: the epoch is not counted as a time, the zero time is not given back
by its nanosecond count, and a missing directory, which is what a delete marker has, loses against
any directory that an entry of another version still carries. -/

namespace Fs3

open Foundation (occurrences)

/-- An entry read without an error that is valid and carries the given
modification time and data directory. -/
def agreesOn (modTime : Time) (dataDir : String) (read : MetaRead) : Bool :=
  read.2.isNone && read.1.isValid && read.1.modTime == modTime && read.1.dataDir == dataDir

def MajorityAgrees (modTime : Time) (dataDir : String) (reads : List MetaRead) : Prop :=
  reads.length < 2 * reads.countP (agreesOn modTime dataDir)

instance (modTime : Time) (dataDir : String) (reads : List MetaRead) :
    Decidable (MajorityAgrees modTime dataDir reads) :=
  inferInstanceAs (Decidable (_ < _))

/-- The entries that agree are the ones that are selected, however the counting
maps are walked. -/
structure SelectsAgreeing (reads : List MetaRead) (modTime : Time) (dataDir : String) :
    Prop where
  /-- The online drives are exactly theirs. -/
  online : ∀ (orders : MapOrders) (δ : Type) (disks : List (Option δ)),
    (listOnlineDisks orders disks reads).1 = List.zipWith
      (fun disk read => if agreesOn modTime dataDir read then disk else none) disks reads
  /-- The latest file information is one of theirs. -/
  latest : ∀ orders : MapOrders, ∃ read ∈ reads,
    agreesOn modTime dataDir read = true ∧ getLatestFileInfo orders reads = .ok read.1
  /-- Only they can be picked for the common version. -/
  picked : ∀ (orders : MapOrders) (hash : MetaHash) (quorum : Int) (fi : FileInfo),
    pickValidFileInfo orders hash (reads.map Prod.fst)
        (commonTime orders (listObjectModtimes reads) (listObjectDataDirs reads)).1
        (commonTime orders (listObjectModtimes reads) (listObjectDataDirs reads)).2 quorum =
          .ok fi →
      ∃ read ∈ reads, agreesOn modTime dataDir read = true ∧ read.1 = fi
  /-- One is picked when a quorum of them has the same parts, distribution and
  length of inline data. -/
  pickable : ∀ (orders : MapOrders) (hash : MetaHash) (quorum : Int) (input : MetaHashInput),
    2 ≤ quorum →
    quorum ≤ reads.countP (fun read => agreesOn modTime dataDir read &&
      read.1.hashInput == input) →
    ∃ fi, pickValidFileInfo orders hash (reads.map Prod.fst)
      (commonTime orders (listObjectModtimes reads) (listObjectDataDirs reads)).1
      (commonTime orders (listObjectModtimes reads) (listObjectDataDirs reads)).2 quorum = .ok fi

section Entries

variable {modTime : Time} {dataDir : String} {read : MetaRead} {reads : List MetaRead}

theorem agreesOn_iff : agreesOn modTime dataDir read = true ↔
    read.2 = none ∧ read.1.isValid = true ∧ read.1.modTime = modTime ∧
      read.1.dataDir = dataDir := by
  simp [agreesOn, and_assoc]

theorem objectModtime_of_agrees (hagrees : agreesOn modTime dataDir read = true) :
    objectModtime read = modTime := by
  obtain ⟨herr, _, htime, _⟩ := agreesOn_iff.mp hagrees
  rw [objectModtime, herr]
  exact htime

theorem objectDataDir_of_agrees (hagrees : agreesOn modTime dataDir read = true) :
    objectDataDir read = dataDir := by
  obtain ⟨herr, _, _, hdir⟩ := agreesOn_iff.mp hagrees
  rw [objectDataDir, herr]
  exact hdir

theorem isLatestEntry_eq_agreesOn (hsentinel : modTime ≠ timeSentinel) (read : MetaRead) :
    isLatestEntry modTime dataDir read = agreesOn modTime dataDir read := by
  obtain ⟨fi, err⟩ := read
  unfold isLatestEntry agreesOn objectModtime
  cases err with
  | none => rfl
  | some err => simp [Ne.symm hsentinel]

variable (modTime dataDir reads)

theorem occurrences_modTime_ge :
    reads.countP (agreesOn modTime dataDir) ≤ occurrences (listObjectModtimes reads) modTime := by
  unfold occurrences listObjectModtimes
  rw [List.countP_map]
  refine List.countP_mono_left fun read _ hagrees => ?_
  exact decide_eq_true (objectModtime_of_agrees hagrees)

theorem occurrences_dataDir_ge :
    reads.countP (agreesOn modTime dataDir) ≤ occurrences (listObjectDataDirs reads) dataDir := by
  unfold occurrences listObjectDataDirs
  rw [List.countP_map]
  refine List.countP_mono_left fun read _ hagrees => ?_
  exact decide_eq_true (objectDataDir_of_agrees hagrees)

theorem occurrences_none_ge :
    reads.countP (agreesOn modTime dataDir) ≤ occurrences (reads.map Prod.snd) none := by
  unfold occurrences
  rw [List.countP_map]
  refine List.countP_mono_left fun read _ hagrees => ?_
  exact decide_eq_true (agreesOn_iff.mp hagrees).1

end Entries

section Common

variable {modTime : Time} {dataDir : String} {reads : List MetaRead} (orders : MapOrders)

def NotMissed (modTime : Time) (dataDir : String) (reads : List MetaRead) : Prop :=
  modTime ≠ timeSentinel ∧ modTime ≠ Time.zero ∧
    (dataDir = "" → ∀ read ∈ reads, objectDataDir read = "")

theorem commonTime_of_majority (hmajority : MajorityAgrees modTime dataDir reads)
    (hcounted : NotMissed modTime dataDir reads) :
    commonTime orders (listObjectModtimes reads) (listObjectDataDirs reads) =
      (modTime, dataDir) := by
  obtain ⟨hsentinel, hzero, hempty⟩ := hcounted
  unfold MajorityAgrees at hmajority
  have htimes := occurrences_modTime_ge modTime dataDir reads
  have hdirs := occurrences_dataDir_ge modTime dataDir reads
  have htimesLength : (listObjectModtimes reads).length = reads.length := List.length_map _
  have hdirsLength : (listObjectDataDirs reads).length = reads.length := List.length_map _
  unfold commonTime
  rw [commonModTime_of_majority orders hsentinel hzero (by omega)]
  by_cases hdir : dataDir = ""
  · have hnone : commonDataDir orders (listObjectDataDirs reads) = "" := by
      rw [commonDataDir_eq_empty]
      intro other hother
      obtain ⟨read, hread, rfl⟩ := List.mem_map.mp hother
      exact hempty hdir read hread
    rw [hnone, hdir]
  · rw [commonDataDir_of_majority orders hdir (by omega)]

theorem commonTime_of_missed (hmajority : MajorityAgrees modTime dataDir reads)
    (hmissed : ¬ NotMissed modTime dataDir reads) :
    (commonTime orders (listObjectModtimes reads) (listObjectDataDirs reads)).1 ≠ modTime ∨
      (commonTime orders (listObjectModtimes reads) (listObjectDataDirs reads)).2 ≠ dataDir := by
  have hpos : 0 < reads.countP (agreesOn modTime dataDir) := by
    unfold MajorityAgrees at hmajority
    omega
  obtain ⟨read, hread, hagrees⟩ := List.countP_pos_iff.mp hpos
  have hmem : modTime ∈ listObjectModtimes reads :=
    List.mem_map.mpr ⟨read, hread, objectModtime_of_agrees hagrees⟩
  by_cases hsentinel : modTime = timeSentinel
  · left
    rw [hsentinel]
    exact commonModTime_ne_sentinel orders _
  by_cases hzero : modTime = Time.zero
  · left
    rw [hzero] at hmem ⊢
    exact commonModTime_ne_zero orders hmem
  · right
    have hdirs : ¬ (dataDir = "" → ∀ read ∈ reads, objectDataDir read = "") :=
      fun h => hmissed ⟨hsentinel, hzero, h⟩
    push Not at hdirs
    obtain ⟨hempty, other, hother, hne⟩ := hdirs
    intro hcommon
    rw [hempty] at hcommon
    have hall := (commonDataDir_eq_empty orders).mp hcommon
    exact hne (hall _ (List.mem_map.mpr ⟨other, hother, rfl⟩))

theorem getLatestFileInfo_eq (hmajority : MajorityAgrees modTime dataDir reads) :
    getLatestFileInfo orders reads =
      let common := commonTime orders (listObjectModtimes reads) (listObjectDataDirs reads)
      let latest := reads.filter (isLatestEntry common.1 common.2)
      if latest.length < reads.length / 2 then .error .errErasureReadQuorum
      else .ok (latest.getLast?.elim {} Prod.fst) := by
  unfold MajorityAgrees at hmajority
  have hnone := occurrences_none_ge modTime dataDir reads
  have hlength : (reads.map Prod.snd).length = reads.length := List.length_map _
  have hnoErr : reduceQuorumErrs orders (reads.map Prod.snd) objectOpIgnoredErrs
      (reads.length / 2 : Nat) .errErasureReadQuorum = none :=
    reduceQuorumErrs_of_majority orders (by omega) (by omega)
  unfold getLatestFileInfo reduceReadQuorumErrs
  simp only [hnoErr]

theorem getLatestFileInfo_of_majority (hmajority : MajorityAgrees modTime dataDir reads)
    (hcounted : NotMissed modTime dataDir reads) :
    ∃ read ∈ reads, agreesOn modTime dataDir read = true ∧
      getLatestFileInfo orders reads = .ok read.1 := by
  have hlatest := getLatestFileInfo_eq orders hmajority
  have hsame : isLatestEntry modTime dataDir = agreesOn modTime dataDir :=
    funext (isLatestEntry_eq_agreesOn hcounted.1)
  rw [commonTime_of_majority orders hmajority hcounted] at hlatest
  simp only [hsame, ← List.countP_eq_length_filter] at hlatest
  unfold MajorityAgrees at hmajority
  rw [if_neg (by omega)] at hlatest
  cases hlast : (reads.filter (agreesOn modTime dataDir)).getLast? with
  | none =>
    have hnil := List.getLast?_eq_none_iff.mp hlast
    rw [List.countP_eq_length_filter, hnil, List.length_nil] at hmajority
    omega
  | some read =>
    obtain ⟨hread, hagrees⟩ := List.mem_filter.mp (List.mem_of_getLast? hlast)
    rw [hlast] at hlatest
    exact ⟨read, hread, hagrees, hlatest⟩

/-- Where a count misses the majority, the latest file information is not one
of theirs. -/
theorem getLatestFileInfo_of_missed (hmajority : MajorityAgrees modTime dataDir reads)
    (hmissed : ¬ NotMissed modTime dataDir reads) {read : MetaRead}
    (hagrees : agreesOn modTime dataDir read = true) :
    getLatestFileInfo orders reads ≠ .ok read.1 := by
  have hother := commonTime_of_missed orders hmajority hmissed
  have hcounted : (commonTime orders (listObjectModtimes reads) (listObjectDataDirs reads)).1 ≠
      timeSentinel := commonModTime_ne_sentinel orders _
  rw [getLatestFileInfo_eq orders hmajority]
  generalize commonTime orders (listObjectModtimes reads) (listObjectDataDirs reads) = common
    at hother hcounted
  obtain ⟨herr, hvalid, htime, hdir⟩ := agreesOn_iff.mp hagrees
  simp only
  split
  next => exact fun h => nomatch h
  next =>
    intro hok
    injection hok with hok
    cases hlast : (reads.filter (isLatestEntry common.1 common.2)).getLast? with
    | none =>
      -- Without an entry of the common version the zero value is returned.
      rw [hlast] at hok
      rw [← hok] at hvalid
      exact absurd hvalid (by rw [Option.elim_none, FileInfo.isValid_zero]; decide)
    | some latest =>
      obtain ⟨_, hcommon⟩ := List.mem_filter.mp (List.mem_of_getLast? hlast)
      rw [hlast] at hok
      have hfi : latest.1 = read.1 := hok
      rw [isLatestEntry_eq_agreesOn hcounted, agreesOn_iff, hfi, htime, hdir] at hcommon
      rcases hother with hne | hne
      · exact hne hcommon.2.2.1.symm
      · exact hne hcommon.2.2.2.symm

end Common

section Claim

variable {modTime : Time} {dataDir : String} {answers : List (Except StorageErr FileInfo)}

theorem readAllFileInfo_err {read : MetaRead} (hread : read ∈ readAllFileInfo answers)
    (hvalid : read.1.isValid = true) : read.2 = none := by
  obtain ⟨answer, _, rfl⟩ := List.mem_map.mp hread
  cases answer with
  | ok fi => rfl
  | error err => exact absurd hvalid (by rw [FileInfo.isValid_zero]; decide)

theorem isVersionEntry_eq_agreesOn {read : MetaRead} (hread : read ∈ readAllFileInfo answers) :
    isVersionEntry modTime dataDir read.1 = agreesOn modTime dataDir read := by
  unfold isVersionEntry agreesOn
  cases hvalid : read.1.isValid with
  | false => simp
  | true => simp [readAllFileInfo_err hread hvalid]

theorem selectsAgreeing_of_notMissed
    (hmajority : MajorityAgrees modTime dataDir (readAllFileInfo answers))
    (hcounted : NotMissed modTime dataDir (readAllFileInfo answers)) :
    SelectsAgreeing (readAllFileInfo answers) modTime dataDir where
  online := by
    intro orders δ disks
    unfold listOnlineDisks
    simp only [commonTime_of_majority orders hmajority hcounted,
      isLatestEntry_eq_agreesOn hcounted.1]
  latest orders := getLatestFileInfo_of_majority orders hmajority hcounted
  picked := by
    intro orders hash quorum fi hok
    rw [commonTime_of_majority orders hmajority hcounted] at hok
    obtain ⟨hmem, hentry⟩ := findFileInfoInQuorum_ok hok
    obtain ⟨read, hread, rfl⟩ := List.mem_map.mp hmem
    exact ⟨read, hread, (isVersionEntry_eq_agreesOn hread).symm.trans hentry, rfl⟩
  pickable := by
    intro orders hash quorum input htwo hquorum
    rw [commonTime_of_majority orders hmajority hcounted]
    have hsame : (readAllFileInfo answers).countP (fun read =>
        agreesOn modTime dataDir read && read.1.hashInput == input) =
        ((readAllFileInfo answers).map Prod.fst).countP (fun fi =>
          isVersionEntry modTime dataDir fi && fi.hashInput == input) := by
      rw [List.countP_map]
      refine List.countP_congr fun read hread => ?_
      rw [Function.comp_apply, isVersionEntry_eq_agreesOn hread]
    rw [hsame] at hquorum
    exact findFileInfoInQuorum_exists htwo hquorum

/-- The entries of a majority are selected exactly when their time is neither
the epoch nor the zero time and, if they have no data directory, no drive
answers with one. -/
theorem selectsAgreeing_iff
    (hmajority : MajorityAgrees modTime dataDir (readAllFileInfo answers)) :
    SelectsAgreeing (readAllFileInfo answers) modTime dataDir ↔
      modTime ≠ timeSentinel ∧ modTime ≠ Time.zero ∧
        (dataDir = "" → ∀ fi, Except.ok fi ∈ answers → fi.dataDir = "") := by
  have hdirs : (∀ read ∈ readAllFileInfo answers, objectDataDir read = "") ↔
      ∀ fi, Except.ok fi ∈ answers → fi.dataDir = "" := by
    constructor
    · intro hempty fi hfi
      exact hempty (fi, none) (List.mem_map.mpr ⟨.ok fi, hfi, rfl⟩)
    · intro hempty read hread
      obtain ⟨answer, hanswer, rfl⟩ := List.mem_map.mp hread
      cases answer with
      | ok fi => exact hempty fi hanswer
      | error err => rfl
  rw [← hdirs]
  constructor
  · intro hselects
    by_contra hmissed
    -- Any order of the maps shows it: none is needed to miss the majority.
    let orders : MapOrders :=
      ⟨.visitFirst 0, .visitFirst "", .visitFirst none, .visitFirst ""⟩
    obtain ⟨read, _, hagrees, hok⟩ := hselects.latest orders
    exact getLatestFileInfo_of_missed orders hmajority hmissed hagrees hok
  · exact selectsAgreeing_of_notMissed hmajority

end Claim

/-- Three drives with an object of 2+2 shards, and a fourth that cannot be
reached. -/
def agreeingAnswers : List (Except StorageErr FileInfo) :=
  let shard (index : Int) : FileInfo :=
    { dataDir := "d", modTime := (2 : Int), size := 1
      erasure := { dataBlocks := 2, parityBlocks := 2, index := index
                   distribution := [1, 2, 3, 4] } }
  [.ok (shard 1), .ok (shard 2), .ok (shard 3), .error .errDiskNotFound]

theorem agreeingAnswers_selected : SelectsAgreeing (readAllFileInfo agreeingAnswers)
    (2 : Int) "d" :=
  (selectsAgreeing_iff (by decide)).mpr
    ⟨by decide, by decide, fun hempty => absurd hempty (by decide)⟩

/-- Three drives with a delete marker, and a fourth that missed the delete and
still has the object. -/
def deletedAnswers : List (Except StorageErr FileInfo) :=
  let marker : FileInfo := { deleted := true, modTime := (2 : Int) }
  let stale : FileInfo :=
    { dataDir := "d", modTime := (1 : Int), size := 1
      erasure := { dataBlocks := 2, parityBlocks := 2, index := 4
                   distribution := [1, 2, 3, 4] } }
  [.ok marker, .ok marker, .ok marker, .ok stale]

/-- The delete marker that most drives have is not found: the directory of the
stale object is the only one that is counted. -/
theorem deletedAnswers_not_selected :
    MajorityAgrees (2 : Int) "" (readAllFileInfo deletedAnswers) ∧
      ¬ SelectsAgreeing (readAllFileInfo deletedAnswers) (2 : Int) "" := by
  refine ⟨by decide, fun hselects => ?_⟩
  let orders : MapOrders := ⟨.visitFirst 2, .visitFirst "", .visitFirst none, .visitFirst ""⟩
  obtain ⟨read, _, _, hok⟩ := hselects.latest orders
  have herr : getLatestFileInfo orders (readAllFileInfo deletedAnswers) =
      .error .errErasureReadQuorum := by decide
  rw [herr] at hok
  exact nomatch hok

end Fs3
