import Fs3.Foundation.DescendingSort
import Fs3.Tracker.Paths

/-! # The data update tracker

The tracker records the paths that are updated in a Bloom filter for each cycle. -/

namespace Fs3.Tracker

open Foundation Foundation.SlashPath Listing

/-- The package of the Bloom filters: a filter has what was added to it and what is in a
filter merged into it. Filters with other parameters do not merge. -/
structure BloomFilters where
  Filter : Type
  new : Filter
  add : Filter → Name → Filter
  test : Filter → Name → Bool
  merge : Filter → Filter → Option Filter
  test_add_self : ∀ bf key, test (add bf key) key = true
  test_add : ∀ bf key key', test bf key' = true → test (add bf key) key' = true
  test_merge : ∀ bf other merged key, merge bf other = some merged →
    test bf key = true ∨ test other key = true → test merged key = true

structure DataUpdateFilter (φ : Type) where
  idx : Nat
  bf : φ

/-- What the tracker works with: the filters, `s3utils.CheckValidBucketName`, the sort of its
history, and whether it logs. -/
structure Env where
  filters : BloomFilters
  checkValidBucketName : Name → Bool
  sorter : DescendingSort fun f : DataUpdateFilter filters.Filter => f.idx
  debug : Bool

/-- `bloomFilterRequest`. -/
structure BloomFilterRequest where
  oldest : Nat := 0
  current : Nat := 0
  oldestClean : Name := []

/-- `bloomFilterResponse`, with the filter as it was written. -/
structure BloomFilterResponse (φ : Type) where
  currentIdx : Nat := 0
  oldestIdx : Nat := 0
  newestIdx : Nat := 0
  complete : Bool := false
  filter : Option φ := none

/-- `time.Time{}`, in seconds. -/
def zeroTime : Int := -62135596800

/-- `dataUpdateTracker`, the time in seconds. -/
structure DataUpdateTracker (φ : Type) where
  current : DataUpdateFilter φ
  history : List (DataUpdateFilter φ) := []
  saved : Int := zeroTime
  dirty : Bool := true

/-- What `serialize` writes. -/
structure SavedTracker (φ : Type) where
  saved : Int
  current : DataUpdateFilter φ
  history : List (DataUpdateFilter φ)

section Paths

/-- `pathJoin` of two elements. -/
def pathJoin (bucket pre : Name) : Name :=
  joinPath [bucket, pre] ++ if slashSeparator.isSuffixOf pre then slashSeparator else []

/-- The bucket that `path2BucketObjectWithBasePath` finds. -/
def bucketOf (path : Name) : Name := (trimPrefix path slashSeparator).takeWhile (· ≠ '/')

def minioMetaBucket : Name := ".minio.sys".toList

def minioReservedBucket : Name := "minio".toList

variable (env : Env)

/-- `isReservedOrInvalidBucket`. -/
def isReservedOrInvalidBucket (bucket : Name) : Bool :=
  if bucket = [] then true
  else
    let bucket := trimSuffix bucket slashSeparator
    !env.checkValidBucketName bucket || bucket == minioMetaBucket || bucket == minioReservedBucket

/-- Whether `markDirty` passes over what it is given. -/
def skipsDirty (bucket : Name) : Bool :=
  (bucket == [] && env.debug) || (isReservedOrInvalidBucket env bucket && env.debug)

def skipsUpdate (path : Name) : Bool :=
  bucketOf path == [] || isReservedOrInvalidBucket env (bucketOf path)

/-- `containsDir`. -/
def containsDir (bf : env.filters.Filter) (dir : Name) : Bool :=
  match dirKey dir with
  | none => false
  | some key => env.filters.test bf key

end Paths

variable (env : Env)

/-- `newDataUpdateTracker`. -/
def newDataUpdateTracker : DataUpdateTracker env.filters.Filter where
  current := { idx := 1, bf := env.filters.new }

/-- `dataUpdateTrackerHistory.find`. -/
def find {φ : Type} (history : List (DataUpdateFilter φ)) (idx : Nat) :
    Option (DataUpdateFilter φ) :=
  history.find? (·.idx = idx)

/-- `removeOlderThan`. -/
def removeOlderThan (history : List (DataUpdateFilter env.filters.Filter)) (n : Nat) :
    List (DataUpdateFilter env.filters.Filter) :=
  (env.sorter.sort history).takeWhile (n ≤ ·.idx)

namespace DataUpdateTracker

variable {env} (d : DataUpdateTracker env.filters.Filter)

def addPath (path : Name) : DataUpdateTracker env.filters.Filter :=
  { d with
    current := { d.current with bf := (updateKeys path).foldl env.filters.add d.current.bf }
    dirty := d.dirty || !(splitPathDeterministic path).isEmpty }

/-- The loop of `latestWithDir` through the history. -/
def latestFrom (dir : Name) : Nat → Nat
  | 0 => 0
  | idx + 1 =>
    match find d.history (idx + 1) with
    | none => idx + 1
    | some f => if containsDir env f.bf dir then idx + 1 else latestFrom dir idx

/-- `latestWithDir`. -/
def latestWithDir (dir : Name) : Nat :=
  if bucketOf dir = [] ∨ isReservedOrInvalidBucket env (bucketOf dir) = true then d.current.idx
  else if containsDir env d.current.bf dir || d.current.idx == 0 then d.current.idx
  else d.latestFrom dir (d.current.idx - 1)

def filterOf (idx : Nat) : Option (DataUpdateFilter env.filters.Filter) :=
  match find d.history idx with
  | some f => some f
  | none => if d.current.idx = idx then some d.current else none

/-- One turn of the loop of `filterFrom`. -/
def mergeIndex (acc : env.filters.Filter × BloomFilterResponse env.filters.Filter) (idx : Nat) :
    env.filters.Filter × BloomFilterResponse env.filters.Filter :=
  match d.filterOf idx with
  | none => (acc.1, { acc.2 with complete := false, oldestIdx := idx + 1 })
  | some f =>
    match env.filters.merge acc.1 f.bf with
    | none => (acc.1, { acc.2 with complete := false })
    | some merged =>
      if (find d.history idx).isSome then (merged, { acc.2 with newestIdx := idx })
      else (merged, acc.2)

/-- `filterFrom`. -/
def filterFrom (oldest newest : Nat) : BloomFilterResponse env.filters.Filter :=
  let (bf, response) := (List.range' oldest (newest + 1 - oldest)).foldl d.mergeIndex
    (env.filters.new, { oldestIdx := oldest, currentIdx := d.current.idx, complete := true })
  { response with filter := some bf }

def newestOf (request : BloomFilterRequest) : Nat :=
  if request.current = 0 then d.current.idx else request.current

def moveTo (current : Nat) : DataUpdateTracker env.filters.Filter :=
  if d.current.idx ≠ current then
    { d with
      history := d.history ++ [d.current]
      current := { idx := current, bf := env.filters.new }
      dirty := true }
  else d

/-- `cycleFilter`. -/
def cycleFilter (request : BloomFilterRequest) :
    BloomFilterResponse env.filters.Filter × DataUpdateTracker env.filters.Filter :=
  if request.oldestClean ≠ [] then ({ oldestIdx := d.latestWithDir request.oldestClean }, d)
  else if request.current = 0 then
    if d.history = [] then (d.filterFrom d.current.idx d.current.idx, d)
    else
      let d := { d with history := env.sorter.sort d.history }
      let oldest := if request.oldest = 0 then (d.history.getLast?.elim 0 (·.idx))
        else request.oldest
      (d.filterFrom oldest d.current.idx, d)
  else
    let d := d.moveTo request.current
    let d := { d with history := removeOlderThan env d.history request.oldest }
    (d.filterFrom request.oldest request.current, d)

def serialize (now : Int) : SavedTracker env.filters.Filter where
  saved := now
  current := d.current
  history := d.history

/-- `deserialize` of a file, if it is newer. -/
def deserialize (file : SavedTracker env.filters.Filter) : DataUpdateTracker env.filters.Filter :=
  if d.saved < file.saved then
    { d with current := file.current, history := file.history, saved := zeroTime }
  else d

/-- `load`; a file that cannot be read changes nothing. -/
def load (files : List (Option (SavedTracker env.filters.Filter))) :
    DataUpdateTracker env.filters.Filter :=
  files.foldl (fun d file => file.elim d d.deserialize) d

end DataUpdateTracker

/-- What becomes of a drive's file when the tracker is saved. -/
inductive Write
  | written
  | failed
  /-- What is left cannot be read. -/
  | torn
  deriving DecidableEq

inductive Op
  | markDirty (bucket pre : Name)
  /-- An update for the collector. -/
  | collect (path : Name)
  | cycleFilter (request : BloomFilterRequest)
  | save (now : Int) (writes : Nat → Write)
  /-- A new process, which loads the files. -/
  | restart

/-- A path that was recorded as updated in a cycle. -/
structure Update where
  path : Name
  cycle : Nat

/-- The tracker and the files, each with the updates that were recorded before it was saved,
all updates so far, and the last answer with the newest index it was asked for. -/
structure System (φ : Type) where
  tracker : DataUpdateTracker φ
  drives : List (Option (SavedTracker φ × List Update))
  recorded : List Update := []
  answer : Option (BloomFilterResponse φ × Nat) := none

namespace System

variable {env} (s : System env.filters.Filter)

def start (env : Env) (drives : Nat) : System env.filters.Filter where
  tracker := newDataUpdateTracker env
  drives := List.replicate drives none

def update (path : Name) : System env.filters.Filter :=
  { s with
    tracker := s.tracker.addPath path
    recorded := { path, cycle := s.tracker.current.idx } :: s.recorded
    answer := none }

def saveTo (now : Int) (write : Write)
    (file : Option (SavedTracker env.filters.Filter × List Update)) :
    Option (SavedTracker env.filters.Filter × List Update) :=
  match write with
  | .written => some (s.tracker.serialize now, s.recorded)
  | .failed => file
  | .torn => none

def step (s : System env.filters.Filter) : Op → System env.filters.Filter
  | .markDirty bucket pre =>
    if skipsDirty env bucket then { s with answer := none } else s.update (pathJoin bucket pre)
  | .collect path =>
    if skipsUpdate env path then { s with answer := none } else s.update path
  | .cycleFilter request =>
    let (response, tracker) := s.tracker.cycleFilter request
    { s with tracker, answer := some (response, s.tracker.newestOf request) }
  | .save now writes =>
    if s.tracker.dirty then
      { s with
        tracker := { s.tracker with saved := now, dirty := false }
        drives := s.drives.mapIdx fun i file => s.saveTo now (writes i) file
        answer := none }
    else { s with answer := none }
  | .restart =>
    { s with
      tracker := (newDataUpdateTracker env).load (s.drives.map (Option.map Prod.fst))
      answer := none }

end System

end Fs3.Tracker
