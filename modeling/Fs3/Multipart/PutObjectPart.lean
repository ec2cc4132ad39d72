import Fs3.Multipart.Upload

/-! # Uploading a part

The data of a part is encoded into temporary files first. Then, under the write lock of the upload,
three rounds of calls go to the drives: the temporary files are renamed to the part's place, the
metadata is read again, and the metadata with the new entry is written. -/

namespace Fs3

/-- Why uploading a part fails. -/
inductive PartErr where
  | errInvalidArgument
  | errUploadIDNotFound
  | incompleteBody
  | operationTimedOut
  | errInvShardNum
  | errMaxShardNum
  | storage (err : StorageErr)
  deriving DecidableEq, Repr

/-- The part that a request uploads: its number, the size and the actual size of
its reader, and the digest that is taken while it is read. -/
structure NewPart where
  partID : Int
  size : Int
  actualSize : Int
  md5hex : String
  deriving DecidableEq, Repr

/-- What `Erasure.Encode` has done: the bytes it read, which writers are left,
and the temporary file of each position. -/
structure EncodedPart where
  n : Int
  writers : List Bool
  files : List Bytes

/-- What a call meets outside its own code: the orders of its maps, the locks, the
answers of the drives and the time. -/
structure PartRun (δ : Type) where
  orders : MapOrders
  hash : MetaHash
  sCfg : StorageClassConfig
  defaultParityCount : Int
  storageDisks : List (Option δ)
  readLocked : Bool := true
  /-- What the drives answer to the first check of the upload. -/
  firstCheck : List (Except StorageErr FileInfo)
  /-- What they answer when the metadata is read. -/
  firstRead : List (Except StorageErr FileInfo)
  encode : Except StorageErr EncodedPart
  locked : Bool := true
  /-- What they answer to the check under the write lock. -/
  secondCheck : List (Except StorageErr FileInfo)
  renames : δ → DriveCall
  undos : δ → DriveCall
  /-- The drives on which reading the metadata again fails. -/
  rereads : δ → Option StorageErr
  writes : δ → DriveCall
  now : Time

section Checks

variable (orders : MapOrders) (hash : MetaHash) (sCfg : StorageClassConfig)
  (defaultParityCount : Int)

def checkUploadIDExists (answers : List (Except StorageErr FileInfo)) : Except PartErr Unit :=
  let reads := readAllFileInfo answers
  let checked : Except StorageErr Unit :=
    match objectQuorumFromMeta orders sCfg reads defaultParityCount with
    | .error err => .error err
    | .ok (readQuorum, _) =>
      match reduceReadQuorumErrs orders (reads.map Prod.snd) objectOpIgnoredErrs readQuorum with
      | some err => .error err
      | none =>
        let (modTime, dataDir) :=
          commonTime orders (listObjectModtimes reads) (listObjectDataDirs reads)
        match pickValidFileInfo orders hash (reads.map Prod.fst) modTime dataDir readQuorum with
        | .error err => .error err
        | .ok _ => .ok ()
  match checked with
  | .error .errFileNotFound => .error .errUploadIDNotFound
  | .error err => .error (.storage err)
  | .ok () => .ok ()

/-- The sanity check of `NewErasure`. -/
def newErasure (dataBlocks parityBlocks : Int) : Except PartErr Unit :=
  if dataBlocks ≤ 0 ∨ parityBlocks ≤ 0 then .error .errInvShardNum
  else if 256 < dataBlocks + parityBlocks then .error .errMaxShardNum
  else .ok ()

end Checks

variable {δ : Type} [DecidableEq δ]

/-- What is left to commit once the part lies in temporary files: the drives in
the order of the distribution, the write quorum, and the encoded part. -/
structure PreparedPart (δ : Type) where
  disks : List (Option δ)
  writeQuorum : Int
  encoded : EncodedPart

def PreparedPart.file (prep : PreparedPart δ) (disk : δ) : Bytes :=
  prep.encoded.files.getD (prep.disks.idxOf (some disk)) []

namespace PartRun

variable (run : PartRun δ) (part : NewPart)

def preparePart : Except PartErr (PreparedPart δ) :=
  if run.readLocked = false then .error .operationTimedOut
  else if part.size < -1 then .error .errInvalidArgument
  else
    match checkUploadIDExists run.orders run.hash run.sCfg run.defaultParityCount
        run.firstCheck with
    | .error err => .error err
    | .ok () =>
      let reads := readAllFileInfo run.firstRead
      match objectQuorumFromMeta run.orders run.sCfg reads run.defaultParityCount with
      | .error err => .error (.storage err)
      | .ok (_, writeQuorum) =>
        let reducedErr := reduceWriteQuorumErrs run.orders (reads.map Prod.snd)
          objectOpIgnoredErrs writeQuorum
        if reducedErr = some .errErasureWriteQuorum then .error (.storage .errErasureWriteQuorum)
        else
          let (onlineDisks, modTime, dataDir) :=
            listOnlineDisks run.orders run.storageDisks reads
          match pickValidFileInfo run.orders run.hash (reads.map Prod.fst) modTime dataDir
              writeQuorum with
          | .error err => .error (.storage err)
          | .ok fi =>
            let onlineDisks := shuffleDisks onlineDisks fi.erasure.distribution
            match newErasure fi.erasure.dataBlocks fi.erasure.parityBlocks with
            | .error err => .error err
            | .ok () =>
              match run.encode with
              | .error err => .error (.storage err)
              | .ok encoded =>
                if encoded.n < part.size then .error .incompleteBody
                else if run.locked = false then .error .operationTimedOut
                else
                  match checkUploadIDExists run.orders run.hash run.sCfg run.defaultParityCount
                      run.secondCheck with
                  | .error err => .error err
                  | .ok () =>
                    .ok { disks := List.zipWith (fun disk left => if left then disk else none)
                            onlineDisks encoded.writers
                          writeQuorum := writeQuorum
                          encoded := encoded }

/-! ## The three rounds of calls -/

variable (prep : PreparedPart δ) (upload : Upload δ)

/-- What the renames leave: the new file, on each drive where its rename takes
effect. -/
def renameFiles : Upload δ := fun disk =>
  if some disk ∈ prep.disks ∧ (run.renames disk).effect = true then
    (upload disk).putPart part.partID (some (prep.file disk))
  else upload disk

/-- Move the new file away again, on each drive that reported it as renamed. -/
def undoRename (renamed : Upload δ) : Upload δ := fun disk =>
  if some disk ∈ prep.disks ∧ (run.renames disk).err = none ∧ (run.undos disk).effect = true then
    (renamed disk).putPart part.partID none
  else renamed disk

def renameErr : Option StorageErr :=
  reduceWriteQuorumErrs run.orders (callDisks prep.disks run.renames) objectOpIgnoredErrs
    prep.writeQuorum

/-- `rename`: the upload after it, and the drives that go on. -/
def rename : Upload δ × List (Option δ) × Option StorageErr :=
  let errs := callDisks prep.disks run.renames
  let err := run.renameErr prep
  let renamed := run.renameFiles part prep upload
  (if err = some .errErasureWriteQuorum then run.undoRename part prep renamed else renamed,
    evalDisks prep.disks errs, err)

def reread (disks : List (Option δ)) : List MetaRead :=
  readAllFileInfo (disks.map fun
    | none => .error .errDiskNotFound
    | some disk =>
      match run.rereads disk with
      | some err => .error err
      | none => (upload disk).xlMeta)

def newEntry : ObjectPartInfo where
  number := part.partID
  eTag := part.md5hex
  size := prep.encoded.n
  actualSize := part.actualSize

/-- The file information that the drives at each position are to write: their
own, with the parts and the times of the picked one. -/
def newMetadata (picked : FileInfo) (reads : List MetaRead) : List FileInfo :=
  let fi := ({ picked with modTime := run.now }).addObjectPart (newEntry part prep)
  reads.map fun read =>
    { read.1 with
      size := fi.size
      modTime := fi.modTime
      parts := fi.parts
      erasure := { read.1.erasure with
        checksums := addChecksumInfo
          { partNumber := part.partID, algorithm := .highwayHash256S, hash := [] }
          read.1.erasure.checksums } }

def withIndex (fi : FileInfo) (index : Nat) : FileInfo :=
  { fi with erasure := { fi.erasure with index := index + 1 } }

def sentMetadata (disks : List (Option δ)) (files : List FileInfo) (disk : δ) : Option FileInfo :=
  let index := disks.idxOf (some disk)
  match files[index]? with
  | none => none
  | some fi =>
    if some disk ∈ disks ∧ (withIndex fi index).isValid = true then some (withIndex fi index)
    else none

/-- `writeUniqueFileInfo`: a drive that has nothing valid to write is an error
like one that fails. -/
def writeUniqueFileInfo (disks : List (Option δ)) (files : List FileInfo) (writeQuorum : Int) :
    Upload δ × Option StorageErr :=
  let errs := disks.map fun
    | none => some .errDiskNotFound
    | some disk =>
      match sentMetadata disks files disk with
      | some _ => (run.writes disk).err
      | none => some .errCorruptedFormat
  (fun disk =>
      match sentMetadata disks files disk with
      | some fi => if (run.writes disk).effect = true then (upload disk).putMeta fi else upload disk
      | none => upload disk,
    reduceWriteQuorumErrs run.orders errs objectOpIgnoredErrs writeQuorum)

/-- What the metadata round decides on before it writes: the drives that are
still online, and what each position is to write. -/
def plannedMetadata (disks : List (Option δ)) :
    Except StorageErr (List (Option δ) × List FileInfo) :=
  let reads := run.reread upload disks
  let reducedErr := reduceWriteQuorumErrs run.orders (reads.map Prod.snd) objectOpIgnoredErrs
    prep.writeQuorum
  if reducedErr = some .errErasureWriteQuorum then .error .errErasureWriteQuorum
  else
    let (onlineDisks, modTime, dataDir) := listOnlineDisks run.orders disks reads
    match pickValidFileInfo run.orders run.hash (reads.map Prod.fst) modTime dataDir
        prep.writeQuorum with
    | .error err => .error err
    | .ok fi => .ok (onlineDisks, run.newMetadata part prep fi reads)

def commitPart : Except PartErr ObjectPartInfo × Upload δ :=
  match run.rename part prep upload with
  | (renamed, _, some err) => (.error (.storage err), renamed)
  | (renamed, disks, none) =>
    match run.plannedMetadata part prep renamed disks with
    | .error err => (.error (.storage err), renamed)
    | .ok (onlineDisks, files) =>
      match run.writeUniqueFileInfo renamed onlineDisks files prep.writeQuorum with
      | (written, some err) => (.error (.storage err), written)
      | (written, none) => (.ok (newEntry part prep), written)

def putObjectPart : Except PartErr ObjectPartInfo × Upload δ :=
  match run.preparePart part with
  | .error err => (.error err, upload)
  | .ok prep => run.commitPart part prep upload

end PartRun

end Fs3

/-! ## What a failed upload leaves of the part recorded before

A drive serves a recorded part as long as it has both its file and its entry. The
renames of a new upload overwrite the file before anything is known of the
entries, and a failure after them never puts the old file back. So the recorded
part is still readable just where the renames spare a write quorum.
-/

namespace Fs3

/-- A part that was recorded: its entry, and the file each drive has for it. -/
structure RecordedPart (δ : Type) where
  entry : ObjectPartInfo
  file : δ → Bytes

def UploadDir.HasEntry (dir : UploadDir) (entry : ObjectPartInfo) : Prop :=
  match dir.xlMeta with
  | .ok fi => objectPart fi.parts entry.number = some entry
  | .error _ => False

instance (dir : UploadDir) (entry : ObjectPartInfo) : Decidable (dir.HasEntry entry) := by
  unfold UploadDir.HasEntry
  cases dir.xlMeta <;> exact inferInstance

def UploadDir.Holds (dir : UploadDir) (entry : ObjectPartInfo) (file : Bytes) : Prop :=
  dir.parts entry.number = some file ∧ dir.HasEntry entry

instance (dir : UploadDir) (entry : ObjectPartInfo) (file : Bytes) :
    Decidable (dir.Holds entry file) := inferInstanceAs (Decidable (_ ∧ _))

variable {δ : Type}

/-- A write quorum of drives has the file and the entry of the recorded part, so that a completion
that lists its etag builds the object from its bytes. -/
def StillReadable (old : RecordedPart δ) (drives : List δ) (writeQuorum : Nat)
    (upload : Upload δ) : Prop :=
  writeQuorum ≤ drives.countP fun disk => (upload disk).Holds old.entry (old.file disk)

variable [DecidableEq δ]

namespace PartRun

variable (run : PartRun δ) (part : NewPart)

def Renames (disk : δ) : Prop :=
  match run.preparePart part with
  | .ok prep => some disk ∈ prep.disks ∧ (run.renames disk).effect = true
  | .error _ => False

omit [DecidableEq δ] in
theorem renames_of_ok {run : PartRun δ} {part : NewPart} {prep : PreparedPart δ}
    (hprep : run.preparePart part = .ok prep) (disk : δ) :
    some disk ∈ prep.disks ∧ (run.renames disk).effect = true ↔ run.Renames part disk := by
  rw [Renames, hprep]

instance (disk : δ) : Decidable (run.Renames part disk) :=
  match hprep : run.preparePart part with
  | .ok prep =>
    decidable_of_iff (some disk ∈ prep.disks ∧ (run.renames disk).effect = true)
      (renames_of_ok hprep disk)
  | .error _ => .isFalse (by simp only [Renames, hprep, not_false_eq_true])

def Undoes (disk : δ) : Prop :=
  match run.preparePart part with
  | .ok prep => run.renameErr prep = some .errErasureWriteQuorum ∧
      (run.renames disk).err = none ∧ (run.undos disk).effect = true
  | .error _ => False

instance (disk : δ) : Decidable (run.Undoes part disk) :=
  match hprep : run.preparePart part with
  | .ok prep =>
    decidable_of_iff (run.renameErr prep = some .errErasureWriteQuorum ∧
      (run.renames disk).err = none ∧ (run.undos disk).effect = true)
      (by simp only [Undoes, hprep])
  | .error _ => .isFalse (by simp [Undoes, hprep])

/-- The metadata that a drive writes, once the renames have reached a quorum. -/
def written (upload : Upload δ) (disk : δ) : Option FileInfo :=
  match run.preparePart part with
  | .error _ => none
  | .ok prep =>
    match run.rename part prep upload with
    | (_, _, some _) => none
    | (renamed, disks, none) =>
      match run.plannedMetadata part prep renamed disks with
      | .error _ => none
      | .ok (onlineDisks, files) =>
        if (run.writes disk).effect = true then sentMetadata onlineDisks files disk else none

def newFile (disk : δ) : Bytes :=
  match run.preparePart part with
  | .ok prep => prep.file disk
  | .error _ => []

/-- A drive on which the rename takes no effect keeps what it has. One on which it
does has the recorded part only if the new file is the same, is not taken back,
and the entry it has or is given is the recorded one. -/
def Spares (upload : Upload δ) (old : RecordedPart δ) (disk : δ) : Prop :=
  if run.Renames part disk then
    ¬ run.Undoes part disk ∧ run.newFile part disk = old.file disk ∧
      match run.written part upload disk with
      | some fi => objectPart fi.parts old.entry.number = some old.entry
      | none => (upload disk).HasEntry old.entry
  else (upload disk).Holds old.entry (old.file disk)

instance (upload : Upload δ) (old : RecordedPart δ) (disk : δ) :
    Decidable (run.Spares part upload old disk) := by
  unfold Spares
  cases run.written part upload disk <;> exact inferInstance

/-! ## What a run leaves on a drive -/

section Drive

variable {run part} {prep : PreparedPart δ} {upload : Upload δ} {disk : δ}

omit [DecidableEq δ] in
theorem mem_of_mem_listOnlineDisks {orders : MapOrders} {disks : List (Option δ)}
    {reads : List MetaRead} (hmem : some disk ∈ (listOnlineDisks orders disks reads).1) :
    some disk ∈ disks := by
  unfold listOnlineDisks at hmem
  simp only at hmem
  rw [← List.map_uncurry_zip_eq_zipWith] at hmem
  obtain ⟨⟨other, read⟩, hpair, hsame⟩ := List.mem_map.mp hmem
  simp only [Function.uncurry_apply_pair] at hsame
  split at hsame
  next =>
    rw [← hsame]
    exact (List.of_mem_zip hpair).1
  next => exact nomatch hsame

omit [DecidableEq δ] in
theorem mem_of_plannedMetadata {disks onlineDisks : List (Option δ)} {files : List FileInfo}
    (hok : run.plannedMetadata part prep upload disks = .ok (onlineDisks, files))
    (hmem : some disk ∈ onlineDisks) : some disk ∈ disks := by
  unfold plannedMetadata at hok
  simp only at hok
  split at hok
  next => exact nomatch hok
  next =>
    split at hok
    next => exact nomatch hok
    next =>
      injection hok with hpair
      rw [← (Prod.mk.inj hpair).1] at hmem
      exact mem_of_mem_listOnlineDisks hmem

theorem mem_of_sentMetadata {disks : List (Option δ)} {files : List FileInfo} {fi : FileInfo}
    (hsent : sentMetadata disks files disk = some fi) : some disk ∈ disks := by
  unfold sentMetadata at hsent
  simp only at hsent
  split at hsent
  next => exact nomatch hsent
  next =>
    split at hsent
    next hmem => exact hmem.1
    next => exact nomatch hsent

theorem of_written {fi : FileInfo} (hwritten : run.written part upload disk = some fi) :
    ∃ prep, run.preparePart part = .ok prep ∧ run.renameErr prep = none ∧
      some disk ∈ prep.disks ∧ (run.renames disk).err = none := by
  unfold written at hwritten
  split at hwritten
  next => exact nomatch hwritten
  next prep hprep =>
    refine ⟨prep, hprep, ?_⟩
    split at hwritten
    next => exact nomatch hwritten
    next renamed disks hrename =>
      split at hwritten
      next => exact nomatch hwritten
      next onlineDisks files hplanned =>
        split at hwritten
        next =>
          obtain ⟨_, hdisks, herr⟩ : _ ∧ evalDisks prep.disks _ = disks ∧ run.renameErr prep =
            none := by
            simpa [rename] using hrename
          have hleft := mem_of_plannedMetadata hplanned (mem_of_sentMetadata hwritten)
          rw [← hdisks] at hleft
          exact ⟨herr, mem_evalDisks_callDisks hleft⟩
        next => exact nomatch hwritten

theorem renames_of_written {fi : FileInfo} (hwritten : run.written part upload disk = some fi) :
    run.Renames part disk ∧ ¬ run.Undoes part disk := by
  obtain ⟨prep, hprep, hquorum, hmem, hok⟩ := of_written hwritten
  unfold Renames Undoes
  rw [hprep]
  simp only [hquorum]
  exact ⟨⟨hmem, (run.renames disk).effect_of_ok hok⟩, fun hundone => nomatch hundone.1⟩

theorem writeUniqueFileInfo_apply {disks : List (Option δ)} {files : List FileInfo}
    {writeQuorum : Int} :
    (run.writeUniqueFileInfo upload disks files writeQuorum).1 disk =
      match (if (run.writes disk).effect = true then sentMetadata disks files disk else none) with
      | some fi => (upload disk).putMeta fi
      | none => upload disk := by
  unfold writeUniqueFileInfo
  simp only
  cases hsent : sentMetadata disks files disk with
  | none => simp
  | some fi =>
    by_cases heffect : (run.writes disk).effect = true
    · simp only [heffect, if_true]
    · simp only [heffect, Bool.false_eq_true, if_false]

theorem commitPart_apply (hprep : run.preparePart part = .ok prep) :
    (run.commitPart part prep upload).2 disk =
      match run.written part upload disk with
      | some fi => ((run.rename part prep upload).1 disk).putMeta fi
      | none => (run.rename part prep upload).1 disk := by
  unfold commitPart written
  simp only [hprep]
  rcases hrename : run.rename part prep upload with ⟨renamed, disks, _ | err⟩
  · simp only
    cases run.plannedMetadata part prep renamed disks with
    | error err => rfl
    | ok planned =>
      obtain ⟨onlineDisks, files⟩ := planned
      have hwritten := @writeUniqueFileInfo_apply δ _ run renamed disk onlineDisks files
        prep.writeQuorum
      simp only
      rw [← hwritten]
      rcases run.writeUniqueFileInfo renamed onlineDisks files prep.writeQuorum with
        ⟨written, _ | err⟩
      · rfl
      · rfl
  · rfl

theorem rename_apply (hprep : run.preparePart part = .ok prep) :
    (run.rename part prep upload).1 disk =
      if run.Renames part disk then
        (upload disk).putPart part.partID
          (if run.Undoes part disk then none else some (run.newFile part disk))
      else upload disk := by
  unfold rename renameFiles undoRename Renames Undoes newFile
  simp only [hprep]
  by_cases heffect : some disk ∈ prep.disks ∧ (run.renames disk).effect = true
  · rw [if_pos heffect]
    split
    next hundone =>
      by_cases hback : (run.renames disk).err = none ∧ (run.undos disk).effect = true
      · simp [heffect, hundone, hback]
      · simp [heffect, hundone, hback]
    next hkept => simp [heffect, hkept]
  · rw [if_neg heffect]
    -- Without the effect of a rename there is no success to take back.
    have hnone : ¬ (some disk ∈ prep.disks ∧ (run.renames disk).err = none ∧
        (run.undos disk).effect = true) :=
      fun hback => heffect ⟨hback.1, (run.renames disk).effect_of_ok hback.2.1⟩
    split
    next => simp only [if_neg hnone, if_neg heffect]
    next => simp only [if_neg heffect]

theorem putObjectPart_holds_iff {old : RecordedPart δ} (hnumber : old.entry.number = part.partID) :
    ((run.putObjectPart part upload).2 disk).Holds old.entry (old.file disk) ↔
      run.Spares part upload old disk := by
  unfold putObjectPart
  cases hprep : run.preparePart part with
  | error err =>
    have hrenames : ¬ run.Renames part disk := by simp [Renames, hprep]
    unfold Spares
    rw [if_neg hrenames]
  | ok prep =>
    simp only
    rw [commitPart_apply hprep, rename_apply hprep]
    unfold Spares UploadDir.Holds
    by_cases hrenames : run.Renames part disk
    · rw [if_pos hrenames, if_pos hrenames, hnumber]
      cases hwritten : run.written part upload disk with
      | some fi =>
        have hkept := (renames_of_written hwritten).2
        simp [hkept, UploadDir.HasEntry, hnumber]
      | none =>
        by_cases hundone : run.Undoes part disk
        · simp [hundone]
        · simp [hundone, UploadDir.HasEntry]
    · rw [if_neg hrenames, if_neg hrenames]
      cases hwritten : run.written part upload disk with
      | some fi => exact absurd (renames_of_written hwritten).1 hrenames
      | none => rfl

end Drive

section Recorded

variable {run part} {upload : Upload δ} {old : RecordedPart δ}

/-- The recorded part is still readable after a run just if the run spares it on
a write quorum of drives. -/
theorem stillReadable_iff (hnumber : old.entry.number = part.partID) (drives : List δ)
    (writeQuorum : Nat) :
    StillReadable old drives writeQuorum (run.putObjectPart part upload).2 ↔
      writeQuorum ≤ drives.countP fun disk => run.Spares part upload old disk := by
  unfold StillReadable
  simp only [putObjectPart_holds_iff hnumber]

end Recorded

end PartRun

section Examples

def recordedInfo (disk : Fin 4) : FileInfo where
  dataDir := "data"
  modTime := (1000 : Int)
  parts := [{ number := 1, eTag := "old", size := 2, actualSize := 2 }]
  erasure := { dataBlocks := 2, parityBlocks := 2, blockSize := 1048576, index := disk + 1,
               distribution := [1, 2, 3, 4] }

def recordedUpload : Upload (Fin 4) := fun disk =>
  { xlMeta := .ok (recordedInfo disk), parts := fun n => if n = 1 then some [1] else none }

def recordedPart : RecordedPart (Fin 4) where
  entry := { number := 1, eTag := "old", size := 2, actualSize := 2 }
  file _ := [1]

def secondUpload : NewPart := { partID := 1, size := 2, actualSize := 2, md5hex := "new" }

def recordedReads : List (Except StorageErr FileInfo) :=
  (List.finRange 4).map fun disk => .ok (recordedInfo disk)

def secondRun (rereads : Fin 4 → Option StorageErr) (encode : Except StorageErr EncodedPart) :
    PartRun (Fin 4) where
  orders := anyOrders
  hash := ⟨fun _ => "0a", fun _ => by decide⟩
  sCfg := { standard := 2 }
  defaultParityCount := 2
  storageDisks := (List.finRange 4).map some
  firstCheck := recordedReads
  firstRead := recordedReads
  encode := encode
  secondCheck := recordedReads
  renames _ := {}
  undos _ := {}
  rereads := rereads
  writes _ := {}
  now := (2000 : Int)

def encodedSecond : EncodedPart :=
  { n := 2, writers := [true, true, true, true], files := [[2], [2], [2], [2]] }

def twoStop (disk : Fin 4) : Option StorageErr :=
  if disk.val < 2 then some .errFaultyDisk else none

theorem secondRun_keeps_recordedPart :
    StillReadable recordedPart (List.finRange 4) 3
      ((secondRun twoStop (.error .errErasureWriteQuorum)).putObjectPart secondUpload
        recordedUpload).2 :=
  (PartRun.stillReadable_iff rfl (List.finRange 4) 3).mpr (by decide)

def afterSecondRun : Upload (Fin 4) :=
  ((secondRun twoStop (.ok encodedSecond)).putObjectPart secondUpload recordedUpload).2

/-- The upload fails, and then every drive has the new bytes under the entry that
is recorded: a completion that names its etag is accepted and takes them. -/
theorem secondRun_loses_recordedPart :
    StillReadable recordedPart (List.finRange 4) 3 recordedUpload ∧
      ((secondRun twoStop (.ok encodedSecond)).putObjectPart secondUpload recordedUpload).1 =
        .error (.storage .errErasureWriteQuorum) ∧
      (∀ disk, (afterSecondRun disk).HasEntry recordedPart.entry ∧
        (afterSecondRun disk).parts 1 = some [2]) ∧
      completedParts id [recordedPart.entry] [⟨1, "old"⟩] =
        .ok [{ number := 1, size := 2, actualSize := 2 }] ∧
      ¬ StillReadable recordedPart (List.finRange 4) 3 afterSecondRun := by
  refine ⟨?_, ?_, ?_, ?_, ?_⟩
  · unfold StillReadable
    decide
  · decide
  · decide
  · rfl
  · unfold StillReadable
    decide

end Examples

end Fs3
