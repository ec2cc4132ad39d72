import Fs3.Foundation.MarkedPages
import Fs3.Multipart.PutObjectPart

/-! # Listing the parts of an upload

Both backends list the parts of an upload in pages, from a part number marker on. -/

namespace Fs3

open Foundation (MarkedPage cutPage ListsAfter)

structure PartInfo where
  partNumber : Int
  eTag : String
  lastModified : Time
  size : Int
  actualSize : Int := 0
  deriving DecidableEq, Repr

structure ListPartsInfo extends MarkedPage PartInfo Int where
  next := 0
  maxParts : Nat
  partNumberMarker : Int
  userDefined : Metadata

def maxPartsList : Nat := 10000

def objectPartIndex (parts : List ObjectPartInfo) (partNumber : Int) : Option Nat :=
  parts.findIdx? fun part => partNumber == part.number

def FileInfo.partInfo (fi : FileInfo) (part : ObjectPartInfo) : PartInfo where
  partNumber := part.number
  eTag := part.eTag
  lastModified := fi.modTime
  size := part.size

def FileInfo.partsAfter (fi : FileInfo) (partNumberMarker : Int) : List ObjectPartInfo :=
  match objectPartIndex fi.parts partNumberMarker with
  | none => fi.parts
  | some partIdx => fi.parts.drop (partIdx + 1)

def FileInfo.listParts (fi : FileInfo) (partNumberMarker : Int) (maxParts : Nat) : ListPartsInfo :=
  let stub : ListPartsInfo :=
    { maxParts, partNumberMarker, userDefined := fi.metadata }
  if fi.parts.length = 0 ∨ maxParts = 0 then stub
  else
    let count := if maxPartsList < maxParts then maxPartsList else maxParts
    let parts := fi.partsAfter partNumberMarker
    let listed := (parts.take count).map fi.partInfo
    if listed.length < parts.length then
      { stub with
        parts := listed
        isTruncated := true
        next := (listed.getLast?.map PartInfo.partNumber).getD 0 }
    else { stub with parts := listed }

/-- What a listing meets outside its own code. -/
structure ListRun (δ : Type) where
  orders : MapOrders
  hash : MetaHash
  sCfg : StorageClassConfig
  defaultParityCount : Int
  storageDisks : List (Option δ)
  readLocked : Bool := true
  /-- What the drives answer to the check of the upload. -/
  check : List (Except StorageErr FileInfo)
  /-- What they answer when the metadata is read. -/
  read : List (Except StorageErr FileInfo)

variable {δ : Type} in
def ListRun.listObjectParts (run : ListRun δ) (partNumberMarker : Int) (maxParts : Nat) :
    Except PartErr ListPartsInfo :=
  if run.readLocked = false then .error .operationTimedOut
  else
    match checkUploadIDExists run.orders run.hash run.sCfg run.defaultParityCount run.check with
    | .error err => .error err
    | .ok () =>
      let reads := readAllFileInfo run.read
      match objectQuorumFromMeta run.orders run.sCfg reads run.defaultParityCount with
      | .error err => .error (.storage err)
      | .ok (_, writeQuorum) =>
        let reducedErr := reduceWriteQuorumErrs run.orders (reads.map Prod.snd)
          objectOpIgnoredErrs writeQuorum
        if reducedErr = some .errErasureWriteQuorum then .error (.storage .errErasureWriteQuorum)
        else
          let (_, modTime, dataDir) := listOnlineDisks run.orders run.storageDisks reads
          match pickValidFileInfo run.orders run.hash (reads.map Prod.fst) modTime dataDir
              writeQuorum with
          | .error err => .error (.storage err)
          | .ok fi => .ok (fi.listParts partNumberMarker maxParts)

namespace FsUpload

/-- A name in the directory of an upload, and the size and the time of its file if they
can be read. -/
structure DirEntry where
  name : String
  stat : Option (Int × Time)

def decodePartFile (name : String) : Option (Int × String × Int) :=
  match splitAll name '.' with
  | [number, eTag, actualSize] =>
    match atoi number, atoi actualSize with
    | (partNumber, none), (size, none) => some (partNumber, eTag, size)
    | _, _ => none
  | _ => none

def DirEntry.part (metaJSONFile : String) (entry : DirEntry) : Option PartInfo :=
  if entry.name = metaJSONFile then none
  else
    match decodePartFile entry.name, entry.stat with
    | some (partNumber, eTag, actualSize), some (size, lastModified) =>
      some { partNumber, eTag, lastModified, size, actualSize }
    | _, _ => none

def keepNewest (current : PartInfo) : List PartInfo → List PartInfo
  | [] => [current]
  | cached :: rest =>
    if cached.partNumber = current.partNumber then
      (if cached.lastModified < current.lastModified then current else cached) :: rest
    else cached :: keepNewest current rest

def partsOf (metaJSONFile : String) (entries : List DirEntry) : List PartInfo :=
  ((entries.filterMap (DirEntry.part metaJSONFile)).foldl (fun parts part => keepNewest part parts)
    []).mergeSort fun a b => decide (a.partNumber ≤ b.partNumber)

def skipTo (partNumberMarker : Int) : List PartInfo → Nat
  | [] => 0
  | part :: rest =>
    if part.partNumber = partNumberMarker then 1 else skipTo partNumberMarker rest + 1

def partsAfter (parts : List PartInfo) (partNumberMarker : Int) : List PartInfo :=
  parts.drop (if partNumberMarker ≠ 0 then skipTo partNumberMarker parts else 0)

def listParts (metaJSONFile : String) (entries : List DirEntry) (userDefined : Metadata)
    (partNumberMarker : Int) (maxParts : Nat) : ListPartsInfo :=
  let parts := partsAfter (partsOf metaJSONFile entries) partNumberMarker
  let listed := parts.take maxParts
  { parts := listed
    isTruncated := decide (listed.length < parts.length)
    next :=
      if listed.length < parts.length then (listed.getLast?.map PartInfo.partNumber).getD 0 else 0
    maxParts, partNumberMarker, userDefined }

/-- What a listing finds on the file system, in the order it looks. -/
structure UploadFiles where
  bucket : Except PartErr Unit := .ok ()
  metaStat : Except PartErr Unit := .ok ()
  entries : Except PartErr (List DirEntry)
  /-- The metadata that is read and parsed after the parts are listed. -/
  fsMeta : Except PartErr Metadata

def listObjectParts (metaJSONFile : String) (files : UploadFiles) (partNumberMarker : Int)
    (maxParts : Nat) : Except PartErr ListPartsInfo := do
  files.bucket
  files.metaStat
  let entries ← files.entries
  let userDefined ← files.fsMeta
  .ok (listParts metaJSONFile entries userDefined partNumberMarker maxParts)

end FsUpload

section Ascending

variable {π : Type} {number : π → Int}

theorem ascending_mergeSort {parts : List π} (hnodup : (parts.map number).Nodup) :
    (parts.mergeSort fun a b => decide (number a ≤ number b)).Pairwise
      fun a b => number a < number b := by
  have hsorted := @List.pairwise_mergeSort _ (fun a b => decide (number a ≤ number b))
    (fun a b c => by simpa using le_trans) (fun a b => by simpa using le_total (number a) (number b))
    parts
  have hdistinct := ((List.mergeSort_perm parts
    fun a b => decide (number a ≤ number b)).map number).nodup_iff.mpr hnodup
  rw [List.Nodup, List.pairwise_map] at hdistinct
  apply (hsorted.and hdistinct).imp
  rintro a b ⟨hle, hne⟩
  exact lt_of_le_of_ne (of_decide_eq_true hle) hne

end Ascending

theorem replacePart_numbers {partInfo : ObjectPartInfo} (parts : List ObjectPartInfo) :
    match replacePart partInfo parts with
    | none => partInfo.number ∉ parts.map ObjectPartInfo.number
    | some replaced => replaced.map ObjectPartInfo.number = parts.map ObjectPartInfo.number := by
  induction parts with
  | nil => exact List.not_mem_nil
  | cons part rest ih =>
    rw [replacePart]
    by_cases hsame : partInfo.number = part.number
    · rw [if_pos hsame]
      simp [hsame]
    · rw [if_neg hsame]
      cases hrest : replacePart partInfo rest with
      | none => simpa [hrest, hsame] using ih
      | some replaced => simpa [hrest] using ih

namespace FileInfo

variable (fi : FileInfo)

def recordParts (added : List ObjectPartInfo) : FileInfo :=
  added.foldl addObjectPart { fi with parts := [] }

variable {fi} in
theorem ascending_addObjectPart (hparts : fi.parts.Pairwise fun a b => a.number < b.number)
    (part : ObjectPartInfo) :
    (fi.addObjectPart part).parts.Pairwise fun a b => a.number < b.number := by
  have hnumbers := @replacePart_numbers part fi.parts
  rw [← List.pairwise_map] at hparts
  unfold addObjectPart
  cases hreplaced : replacePart part fi.parts with
  | some replaced =>
    rw [hreplaced] at hnumbers
    rw [← List.pairwise_map, hnumbers]
    exact hparts
  | none =>
    rw [hreplaced] at hnumbers
    apply ascending_mergeSort
    rw [List.map_append, List.map_singleton, ← List.concat_eq_append]
    exact List.Nodup.concat hnumbers hparts.nodup

theorem ascending_recordParts (added : List ObjectPartInfo) :
    (fi.recordParts added).parts.Pairwise fun a b => a.number < b.number := by
  unfold recordParts
  generalize hstart : ({ fi with parts := [] } : FileInfo) = start
  have hparts : start.parts.Pairwise fun a b => a.number < b.number := by
    rw [← hstart]
    exact List.Pairwise.nil
  clear hstart
  induction added generalizing start with
  | nil => exact hparts
  | cons part rest ih => exact ih _ (ascending_addObjectPart hparts part)

/-! ## What the markers leave -/

def partInfos : List PartInfo := fi.parts.map fi.partInfo

def Placed (marker : Int) : Prop :=
  (∃ part ∈ fi.parts, part.number = marker) ∨ ∀ part ∈ fi.parts, marker < part.number

variable {fi}

theorem objectPartIndex_append {l l' : List ObjectPartInfo} {part : ObjectPartInfo}
    (hl : ∀ other ∈ l, other.number < part.number) :
    objectPartIndex (l ++ part :: l') part.number = some l.length := by
  induction l with
  | nil => simp [objectPartIndex, List.findIdx?_cons]
  | cons other l ih =>
    obtain ⟨hother, hl⟩ := List.forall_mem_cons.mp hl
    have hrest := ih hl
    unfold objectPartIndex at hrest ⊢
    rw [List.cons_append, List.findIdx?_cons, if_neg (by simpa using hother.ne'), hrest]
    rfl

theorem partsAfter_of_placed (hparts : fi.parts.Pairwise fun a b => a.number < b.number)
    {marker : Int} (hplaced : fi.Placed marker) :
    fi.partsAfter marker = fi.parts.filter (marker < ObjectPartInfo.number ·) := by
  unfold partsAfter
  rcases hplaced with ⟨part, hmem, rfl⟩ | hbelow
  · obtain ⟨l, l', hsplit⟩ := List.append_of_mem hmem
    rw [Foundation.filter_behind hparts hsplit, hsplit]
    rw [hsplit] at hparts
    rw [objectPartIndex_append fun other hother =>
      (List.pairwise_append.mp hparts).2.2 other hother part List.mem_cons_self]
    dsimp only
    rw [List.append_cons, List.drop_left' (by simp)]
  · have hnone : objectPartIndex fi.parts marker = none := by
      apply List.findIdx?_eq_none_iff.mpr
      intro part hpart
      simpa using (hbelow part hpart).ne
    rw [hnone]
    exact (List.filter_eq_self.mpr (by simpa using hbelow)).symm

theorem listParts_eq_cutPage {maxParts : Nat} (hmax : 1 ≤ maxParts) (marker : Int) :
    (fi.listParts marker maxParts).toMarkedPage =
      cutPage PartInfo.partNumber 0 (min maxParts maxPartsList)
        ((fi.partsAfter marker).map fi.partInfo) := by
  have hcount : (if maxPartsList < maxParts then maxPartsList else maxParts) =
      min maxParts maxPartsList := by
    split
    next hlt => exact (min_eq_right hlt.le).symm
    next hle => exact (min_eq_left (Nat.le_of_not_lt hle)).symm
  unfold listParts
  by_cases hempty : fi.parts.length = 0
  · have hnil : fi.parts = [] := List.length_eq_zero_iff.mp hempty
    rw [if_pos (Or.inl hempty)]
    simp [cutPage, partsAfter, objectPartIndex, hnil]
  · rw [if_neg (by omega), hcount]
    generalize fi.partsAfter marker = parts
    have hmore : (parts.take (min maxParts maxPartsList)).length < parts.length ↔
        min maxParts maxPartsList < parts.length := by
      rw [List.length_take]
      omega
    dsimp only
    unfold cutPage
    simp only [List.length_map, ← List.map_take]
    by_cases hlt : min maxParts maxPartsList < parts.length
    · rw [if_pos (hmore.mpr hlt), if_pos hlt, decide_eq_true hlt]
    · rw [if_neg (mt hmore.mp hlt), if_neg hlt, decide_eq_false hlt]

def pages (fi : FileInfo) (maxParts : Nat) (marker : Int) : MarkedPage PartInfo Int :=
  (fi.listParts marker maxParts).toMarkedPage

theorem listsAfter_iff (hparts : fi.parts.Pairwise fun a b => a.number < b.number) (marker : Int) :
    ListsAfter PartInfo.partNumber fi.partInfos fi.pages marker ↔ fi.Placed marker := by
  constructor
  · intro hlists
    by_contra hplaced
    obtain ⟨habsent, part, hmem, hle⟩ : (∀ part ∈ fi.parts, part.number ≠ marker) ∧
        ∃ part ∈ fi.parts, part.number ≤ marker := by
      simpa [Placed] using hplaced
    have hnone : objectPartIndex fi.parts marker = none := by
      apply List.findIdx?_eq_none_iff.mpr
      intro part hpart
      simpa using (habsent part hpart).symm
    -- The first page begins with the first part, which is not behind the marker.
    have hpage := (hlists 1 le_rfl).1
    rw [pages, listParts_eq_cutPage le_rfl] at hpage
    cases hcons : fi.parts with
    | nil => simp [hcons] at hmem
    | cons first rest =>
      rw [hcons] at hparts hmem
      have hfirst : first.number ≤ marker := by
        rcases List.mem_cons.mp hmem with rfl | hrest
        · exact hle
        · exact ((List.pairwise_cons.mp hparts).1 part hrest).le.trans hle
      have hlisted : fi.partInfo first ∈ fi.partInfos.filter (marker < PartInfo.partNumber ·) := by
        apply hpage.subset
        rw [partsAfter, hnone]
        simp [cutPage, hcons, maxPartsList]
      exact absurd (of_decide_eq_true (List.mem_filter.mp hlisted).2) (not_lt.mpr hfirst)
  · intro hplaced
    refine Foundation.listsAfter_of_cutPage (min · maxPartsList)
      (fun marker => (fi.partsAfter marker).map fi.partInfo) fi.Placed
      (List.pairwise_map.mpr hparts) ?_ (fun maxParts hmax marker => listParts_eq_cutPage hmax marker) ?_ ?_ hplaced
    · intro maxParts hmax
      exact ⟨le_min hmax (by decide), min_le_left _ _⟩
    · intro marker hplaced
      rw [partsAfter_of_placed hparts hplaced, List.filter_map]
      rfl
    · rintro marker entry - hentry -
      obtain ⟨part, hpart, rfl⟩ := List.mem_map.mp hentry
      exact Or.inl ⟨part, hpart, rfl⟩

end FileInfo

namespace FsUpload

/-- The marker is a part's number or above all of them; only zero lists from the start. -/
def Placed (parts : List PartInfo) (marker : Int) : Prop :=
  if marker = 0 then ∀ part ∈ parts, 0 < part.partNumber
  else (∃ part ∈ parts, part.partNumber = marker) ∨ ∀ part ∈ parts, part.partNumber < marker

theorem keepNewest_numbers (current : PartInfo) (parts : List PartInfo) :
    (keepNewest current parts).map PartInfo.partNumber =
      if current.partNumber ∈ parts.map PartInfo.partNumber then
        parts.map PartInfo.partNumber
      else parts.map PartInfo.partNumber ++ [current.partNumber] := by
  induction parts with
  | nil => rfl
  | cons cached rest ih =>
    rw [keepNewest]
    by_cases hsame : cached.partNumber = current.partNumber
    · have hmem : current.partNumber ∈ (cached :: rest).map PartInfo.partNumber := by simp [hsame]
      rw [if_pos hsame, if_pos hmem, List.map_cons, List.map_cons]
      split
      next => rw [hsame]
      next => rfl
    · simp only [if_neg hsame, List.map_cons, List.mem_cons, Ne.symm hsame, false_or, ih]
      split
      next => rfl
      next => rfl

variable (metaJSONFile : String) (entries : List DirEntry)

theorem ascending_partsOf :
    (partsOf metaJSONFile entries).Pairwise fun a b => a.partNumber < b.partNumber := by
  apply ascending_mergeSort
  generalize hstart : ([] : List PartInfo) = start
  have hnodup : (start.map PartInfo.partNumber).Nodup := by
    rw [← hstart]
    exact List.nodup_nil
  clear hstart
  induction entries.filterMap (DirEntry.part metaJSONFile) generalizing start with
  | nil => exact hnodup
  | cons part rest ih =>
    apply ih
    rw [keepNewest_numbers]
    split
    next => exact hnodup
    next hnew =>
      rw [← List.concat_eq_append]
      exact List.Nodup.concat hnew hnodup

theorem skipTo_append {l l' : List PartInfo} {part : PartInfo}
    (hl : ∀ other ∈ l, other.partNumber < part.partNumber) :
    skipTo part.partNumber (l ++ part :: l') = l.length + 1 := by
  induction l with
  | nil => simp [skipTo]
  | cons other l ih =>
    obtain ⟨hother, hl⟩ := List.forall_mem_cons.mp hl
    rw [List.cons_append, skipTo, if_neg hother.ne, ih hl, List.length_cons]

theorem skipTo_of_absent {marker : Int} {parts : List PartInfo}
    (habsent : ∀ part ∈ parts, part.partNumber ≠ marker) : skipTo marker parts = parts.length := by
  induction parts with
  | nil => rfl
  | cons part rest ih =>
    obtain ⟨hpart, hrest⟩ := List.forall_mem_cons.mp habsent
    rw [skipTo, if_neg hpart, ih hrest, List.length_cons]

variable {parts : List PartInfo}

theorem partsAfter_of_placed (hparts : parts.Pairwise fun a b => a.partNumber < b.partNumber)
    {marker : Int} (hplaced : Placed parts marker) :
    partsAfter parts marker = parts.filter (marker < PartInfo.partNumber ·) := by
  unfold partsAfter
  unfold Placed at hplaced
  by_cases hzero : marker = 0
  · rw [if_pos hzero] at hplaced
    subst hzero
    exact (List.filter_eq_self.mpr (by simpa using hplaced)).symm
  · rw [if_neg hzero] at hplaced
    rw [if_pos hzero]
    rcases hplaced with ⟨part, hmem, rfl⟩ | habove
    · obtain ⟨l, l', hsplit⟩ := List.append_of_mem hmem
      rw [Foundation.filter_behind hparts hsplit, hsplit]
      rw [hsplit] at hparts
      rw [skipTo_append fun other hother =>
        (List.pairwise_append.mp hparts).2.2 other hother part List.mem_cons_self]
      rw [List.append_cons, List.drop_left' (by simp)]
    · rw [skipTo_of_absent fun part hpart => (habove part hpart).ne, List.drop_length]
      exact (List.filter_eq_nil_iff.mpr (by simpa using fun part hpart => (habove part hpart).le)).symm

variable (userDefined : Metadata)

def pages (maxParts : Nat) (marker : Int) : MarkedPage PartInfo Int :=
  (listParts metaJSONFile entries userDefined marker maxParts).toMarkedPage

theorem pages_eq_cutPage (maxParts : Nat) (marker : Int) :
    pages metaJSONFile entries userDefined maxParts marker =
      cutPage PartInfo.partNumber 0 maxParts
        (partsAfter (partsOf metaJSONFile entries) marker) := by
  unfold pages listParts cutPage
  have hmore (parts : List PartInfo) :
      (parts.take maxParts).length < parts.length ↔ maxParts < parts.length := by
    rw [List.length_take]
    omega
  simp only [hmore]

theorem listsAfter_iff (marker : Nat) :
    ListsAfter PartInfo.partNumber (partsOf metaJSONFile entries)
      (pages metaJSONFile entries userDefined) marker ↔
        Placed (partsOf metaJSONFile entries) marker := by
  have hparts := ascending_partsOf metaJSONFile entries
  have hpages := pages_eq_cutPage metaJSONFile entries userDefined
  generalize partsOf metaJSONFile entries = parts at hparts hpages ⊢
  constructor
  · intro hlists
    unfold Placed
    split
    next hzero =>
      intro part hpart
      by_contra hle
      have hpage := (hlists 1 le_rfl).1
      rw [hzero, hpages] at hpage
      cases parts with
      | nil => cases hpart
      | cons first rest =>
        have hfirst : first.partNumber ≤ 0 := by
          rcases List.mem_cons.mp hpart with rfl | hrest
          · exact not_lt.mp hle
          · exact ((List.pairwise_cons.mp hparts).1 part hrest).le.trans (not_lt.mp hle)
        have hlisted : first ∈ (first :: rest).filter (0 < PartInfo.partNumber ·) := by
          apply hpage.subset
          simp [cutPage, partsAfter]
        exact absurd (of_decide_eq_true (List.mem_filter.mp hlisted).2) (not_lt.mpr hfirst)
    next hpos =>
      by_contra hplaced
      obtain ⟨habsent, part, hmem, hle⟩ : (∀ part ∈ parts, part.partNumber ≠ marker) ∧
          ∃ part ∈ parts, (marker : Int) ≤ part.partNumber := by
        simpa using hplaced
      -- Nothing is left behind the last part, so the first page is empty and the last one.
      obtain ⟨-, -, calls, hcalls⟩ := hlists 1 le_rfl
      have hempty : pages metaJSONFile entries userDefined 1 marker = { next := 0 } := by
        rw [hpages, partsAfter, if_pos hpos, skipTo_of_absent habsent, List.drop_length]
        rfl
      cases calls with
      | zero => cases hcalls
      | succ calls =>
        rw [Foundation.follow, hempty, if_neg Bool.false_ne_true] at hcalls
        have hbehind : part ∈ parts.filter ((marker : Int) < PartInfo.partNumber ·) := by
          apply List.mem_filter.mpr
          exact ⟨hmem, decide_eq_true (lt_of_le_of_ne hle (habsent part hmem).symm)⟩
        rw [← Option.some.inj hcalls] at hbehind
        cases hbehind
  · intro hplaced
    refine Foundation.listsAfter_of_cutPage id (partsAfter parts)
      (fun marker => 0 ≤ marker ∧ Placed parts marker) hparts (fun maxParts hmax => ⟨hmax, le_rfl⟩)
      (fun maxParts _ marker => hpages maxParts marker) ?_ ?_ ⟨Int.natCast_nonneg marker, hplaced⟩
    · rintro marker ⟨-, hplaced⟩
      exact partsAfter_of_placed hparts hplaced
    · rintro marker entry ⟨hpos, -⟩ hentry hlt
      have hentrypos : 0 < entry.partNumber := hpos.trans_lt hlt
      refine ⟨hentrypos.le, ?_⟩
      unfold Placed
      rw [if_neg hentrypos.ne']
      exact Or.inl ⟨entry, hentry, rfl⟩

end FsUpload

/-- Both backends list the parts behind a marker in pages exactly where the marker leads their loops
to the first of these. -/
theorem listObjectParts_iff (fi : FileInfo) (added : List ObjectPartInfo) (metaJSONFile : String)
    (entries : List FsUpload.DirEntry) (userDefined : Metadata) (marker : Nat) :
    (ListsAfter PartInfo.partNumber (fi.recordParts added).partInfos
      (fi.recordParts added).pages marker ↔ (fi.recordParts added).Placed marker) ∧
    (ListsAfter PartInfo.partNumber (FsUpload.partsOf metaJSONFile entries)
      (FsUpload.pages metaJSONFile entries userDefined) marker ↔
        FsUpload.Placed (FsUpload.partsOf metaJSONFile entries) marker) := by
  constructor
  · exact FileInfo.listsAfter_iff (fi.ascending_recordParts added) marker
  · exact FsUpload.listsAfter_iff metaJSONFile entries userDefined marker

/-- Behind the second part, which is not there, the erasure backend lists the first and the
other does not list the third. -/
theorem absentMarker_not_listed :
    ¬ ListsAfter PartInfo.partNumber (({} : FileInfo).recordParts [{ number := 1 }]).partInfos
      (({} : FileInfo).recordParts [{ number := 1 }]).pages 2 ∧
    ¬ ListsAfter PartInfo.partNumber (FsUpload.partsOf "fs.json" [⟨"00003.b.1", some (1, 0)⟩])
      (FsUpload.pages "fs.json" [⟨"00003.b.1", some (1, 0)⟩] ∅) 2 := by
  constructor
  · rw [FileInfo.listsAfter_iff (({} : FileInfo).ascending_recordParts _)]
    simp [FileInfo.Placed, FileInfo.recordParts, FileInfo.addObjectPart, replacePart]
  · have hpart : FsUpload.DirEntry.part "fs.json" ⟨"00003.b.1", some (1, 0)⟩ =
        some { partNumber := 3, eTag := "b", lastModified := 0, size := 1, actualSize := 1 } := by
      decide
    have hlists := FsUpload.listsAfter_iff "fs.json" [⟨"00003.b.1", some (1, 0)⟩] ∅ 2
    rw [Nat.cast_ofNat] at hlists
    rw [hlists]
    simp [FsUpload.Placed, FsUpload.partsOf, hpart, FsUpload.keepNewest]

end Fs3
