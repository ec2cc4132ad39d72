import Fs3.Listing.Entries
import Fs3.Storage.FileInfo

/-! # Merging the listings of the drives

Each drive of a set streams its own entries in the order of their names. -/

namespace Fs3.Listing

variable {μ ε : Type}

/-- What entries are compared by: the version that a reader of the metadata finds to be
the latest. -/
structure LatestVersion where
  modTime : Time
  size : Int
  versionID : String
  deriving DecidableEq

/-- Reading the metadata of an object: `len`, `getFileInfo`, and whether two of its
errors are the same value. -/
structure MetadataReader (μ ε : Type) where
  length : μ → Nat
  getFileInfo : Name → μ → Except ε LatestVersion
  sameErr : ε → ε → Bool

namespace MetadataReader

variable (reader : MetadataReader μ ε)

def metadataLength (e : MetaCacheEntry μ) : Nat :=
  match e.metadata with
  | none => 0
  | some metadata => reader.length metadata

/-- `metaCacheEntry.fileInfo`: a directory has the zero values. -/
def fileInfo (e : MetaCacheEntry μ) : Except ε LatestVersion :=
  match e.metadata with
  | none => .ok { modTime := Time.zero, size := 0, versionID := "" }
  | some metadata => reader.getFileInfo e.name metadata

/-- `metaCacheEntry.matches`. -/
def matchesEntry (e other : MetaCacheEntry μ) : Bool :=
  if reader.metadataLength e ≠ reader.metadataLength other ∨ e.name ≠ other.name then false
  else
    match reader.fileInfo e, reader.fileInfo other with
    | .ok eFi, .ok oFi => eFi == oFi
    | .error eErr, .error oErr => reader.sameErr eErr oErr
    | _, _ => false

theorem name_eq_of_matchesEntry {e other : MetaCacheEntry μ}
    (hmatches : reader.matchesEntry e other = true) : e.name = other.name := by
  unfold matchesEntry at hmatches
  split at hmatches
  next => exact nomatch hmatches
  next hsame =>
    by_contra hne
    exact hsame (Or.inr hne)

end MetadataReader

/-- What a drive has still to send: entries, and then the end of the stream or an error. -/
structure DriveStream (μ : Type) where
  entries : List (MetaCacheEntry μ)
  ending : Option StorageErr := none

namespace DriveStream

variable (stream : DriveStream μ)

def endsNotFound : Bool :=
  stream.ending == some .errFileNotFound || stream.ending == some .errVolumeNotFound

def failure : Option StorageErr := if stream.endsNotFound then none else stream.ending

end DriveStream

/-- A drive's reader, with the error it was given up for. -/
structure RawReader (μ : Type) where
  stream : DriveStream μ
  err : Option StorageErr := none

/-- The counters of a round, after some of the readers. -/
structure Round (μ : Type) where
  current : Option (MetaCacheEntry μ) := none
  topEntries : List (Option (MetaCacheEntry μ)) := []
  errs : List (Option StorageErr) := []
  atEOF : Nat := 0
  fnf : Nat := 0
  hasErr : Nat := 0
  agree : Nat := 0

/-- The calls of the functions that the caller passes. -/
inductive RawCall (μ : Type) where
  | agreed (entry : MetaCacheEntry μ)
  | disagreed (entries : List (Option (MetaCacheEntry μ))) (nAgreed : Nat)
      (errs : List (Option StorageErr))
  | finished (errs : List (Option StorageErr))
  deriving DecidableEq

/-- The errors of the function itself. -/
inductive RawErr where
  | noDrives
  | errFileNotFound
  /-- The errors of all drives in one text. -/
  | combined (errs : List (Option StorageErr))
  deriving DecidableEq

section Rounds

variable (reader : MetadataReader μ ε)

namespace Round

def without (round : Round μ) (err : Option StorageErr) : Round μ :=
  { round with
    topEntries := round.topEntries ++ [none]
    errs := round.errs ++ [err] }

def withEntry (round : Round μ) (entry : MetaCacheEntry μ) : Round μ :=
  { round with
    topEntries := round.topEntries ++ [some entry]
    errs := round.errs ++ [none] }

def peekEntry (round : Round μ) (entry : MetaCacheEntry μ) : Round μ :=
  match round.current with
  | none => { round.withEntry entry with current := some entry, agree := round.agree + 1 }
  | some current =>
    if reader.matchesEntry current entry then
      { round.withEntry entry with agree := round.agree + 1 }
    else if entry.name = current.name then round.withEntry entry
    else if current.name < entry.name then round.without none
    else
      -- A better current: what the readers before have is not of this round.
      { round with
        topEntries := round.topEntries.map (fun _ => none) ++ [some entry]
        errs := round.errs ++ [none]
        current := some entry
        agree := 1 }

def next (round : Round μ) (r : RawReader μ) : Round μ :=
  match r.err with
  | some err => { round.without (some err) with hasErr := round.hasErr + 1 }
  | none =>
    match r.stream.entries with
    | entry :: _ => round.peekEntry reader entry
    | [] =>
      match r.stream.ending with
      | none => { round.without none with atEOF := round.atEOF + 1 }
      | some err =>
        if r.stream.endsNotFound then
          { round.without none with atEOF := round.atEOF + 1, fnf := round.fnf + 1 }
        else { round.without (some err) with hasErr := round.hasErr + 1 }

end Round

def round (readers : List (RawReader μ)) : Round μ := readers.foldl (Round.next reader) {}

def skipUsed (readers : List (RawReader μ)) (topEntries : List (Option (MetaCacheEntry μ)))
    (errs : List (Option StorageErr)) : List (RawReader μ) :=
  List.zipWith
    (fun r (top, err) =>
      { stream := { r.stream with
          entries := if top.isSome then r.stream.entries.drop 1 else r.stream.entries }
        err := err })
    readers (topEntries.zip errs)

def rawRounds (minDisks : Int) : Nat → List (RawReader μ) →
    Option (List (RawCall μ) × Option RawErr)
  | 0, _ => none
  | fuel + 1, readers =>
    let r := round reader readers
    let disks := readers.length
    if (disks : Int) - minDisks < r.hasErr ∧ 0 < r.hasErr then
      some ([.finished r.errs], some (.combined r.errs))
    else if r.atEOF + r.hasErr = disks then
      some (if 0 < r.hasErr then [.finished r.errs] else [], none)
    else if r.fnf = disks then some ([], some .errFileNotFound)
    else
      match r.current with
      | none => none
      | some current =>
        let call := if r.agree = disks then .agreed current
          else .disagreed r.topEntries r.agree r.errs
        match rawRounds minDisks fuel (skipUsed readers r.topEntries r.errs) with
        | none => none
        | some (calls, err) => some (call :: calls, err)

def entriesLeft (readers : List (RawReader μ)) : Nat :=
  (readers.map fun r => r.stream.entries.length).sum

/-- `listPathRaw`: the calls it makes, and its error. -/
def listPathRaw (minDisks : Int) (disks : List (DriveStream μ)) :
    Option (List (RawCall μ) × Option RawErr) :=
  if disks = [] then some ([], some .noDrives)
  else
    let readers := disks.map fun stream => ({ stream := stream } : RawReader μ)
    rawRounds reader minDisks (entriesLeft readers + 1) readers

end Rounds

end Fs3.Listing
