import Fs3.Foundation.DescendingSort
import Fs3.Foundation.SlashPath
import Fs3.Foundation.Tally
import Fs3.Listing.Entries
import Fs3.Runtime.Time

/-! # The listings that are kept of a bucket

A bucket keeps its listings by their ids, and an index of the ids by the roots of the listings. -/

namespace Fs3.Listing

open Foundation (MapOrder DescendingSort)

inductive ScanStatus where
  | none
  | started
  | success
  | error
  deriving DecidableEq, Repr

/-- `metacache`. -/
structure Metacache where
  id : String
  bucket : String
  root : Name
  recursive : Bool
  filter : Name
  status : ScanStatus
  started : Time
  ended : Time
  lastUpdate : Time
  lastHandout : Time
  startedCycle : Nat
  deriving DecidableEq

def minute : Int := 60000000000

def hour : Int := 60 * minute

def metacacheMaxRunningAge : Int := minute

def metacacheMaxEntries : Nat := 5000

def dataUsageUpdateDirCycles : Nat := 16

namespace Metacache

variable (now : Time) (m other : Metacache)

def finished : Bool := !m.ended.isZero

def worthKeeping (currentCycle : Nat) : Bool :=
  if !m.finished ∧ now - m.lastUpdate > metacacheMaxRunningAge then false
  else if m.finished ∧ m.startedCycle > currentCycle then false
  else if m.finished ∧ now - m.lastHandout > 48 * hour then false
  else if m.finished ∧ currentCycle ≥ dataUsageUpdateDirCycles ∧
      m.startedCycle < currentCycle - dataUsageUpdateDirCycles then false
  else if m.status = .error ∨ m.status = .none then decide (now - m.lastUpdate < 5 * minute)
  else true

/-- Whether another cache, that is worth keeping as well, can take the place of this one. -/
def canBeReplacedBy : Bool :=
  if other.started < m.started ∨ m.id = other.id then false
  else if other.status = .none ∨ other.status = .error then false
  else if m.status = .started ∧ now - m.lastUpdate < metacacheMaxRunningAge then false
  else if now - m.lastHandout < 30 * minute ∨ now - m.lastUpdate < metacacheMaxRunningAge then
    false
  else
    match m.recursive, other.recursive with
    | false, false => m.root == other.root && other.filter.isPrefixOf m.filter
    | true, false => false
    | false, true => other.root.isPrefixOf m.root && other.filter == []
    | true, true => other.root.isPrefixOf m.root && other.filter == []

def stale : Bool := decide (now - m.lastHandout > 30 * minute)

end Metacache

/-- `bucketMetacache`. -/
structure BucketMetacache where
  bucket : String
  caches : List (String × Metacache)
  cachesRoot : Name → List String
  transient : Bool := false
  keyed : (caches.map Prod.fst).Nodup

/-- The orders in which maps are walked, and the sort by handout time, oldest first. -/
structure CleanupOrders where
  walk : MapOrder String
  removal : MapOrder String
  oldestFirst : DescendingSort fun cache : String × Metacache =>
    OrderDual.toDual cache.2.lastHandout

def interestingCaches (root : Name) (cachesRoot : Name → List String) : List String :=
  let rootSplit := Foundation.SlashPath.split root
  (List.range rootSplit.length).flatMap fun i =>
    cachesRoot (Foundation.SlashPath.joinPath (rootSplit.take (i + 1)))

namespace BucketMetacache

variable (b : BucketMetacache)

def ids : List String := b.caches.map Prod.fst

def find (id : String) : Option Metacache :=
  (b.caches.find? fun cache => cache.1 == id).map Prod.snd

/-- `deleteCache`, without the data of the cache on the drives. -/
def deleteCache (id : String) : BucketMetacache :=
  match b.find id with
  | none => b
  | some c =>
    { b with
      caches := b.caches.filter fun cache => cache.1 != id
      cachesRoot := fun root =>
        if root = c.root then (b.cachesRoot root).erase id else b.cachesRoot root
      keyed := b.keyed.sublist (List.filter_sublist.map Prod.fst) }

variable (now : Time) (currentCycle : Nat)

def removable (id : String) (cache : Metacache) : Bool :=
  (b.transient && decide (now - cache.lastUpdate > 10 * minute) &&
      decide (now - cache.lastHandout > 10 * minute)) ||
    !cache.worthKeeping now currentCycle || cache.id != id ||
    (cache.bucket != b.bucket && !b.transient)

def removableId (id : String) : Bool :=
  match b.find id with
  | none => false
  | some cache => b.removable now currentCycle id cache

/-- Whether one of the caches that are not removed so far can take the place of a cache. -/
def replaceable (remove : List String) (id : String) (cache : Metacache) : Bool :=
  (interestingCaches cache.root b.cachesRoot).any fun id2 =>
    !(id2 ∈ remove || id2 == id) &&
      match b.find id2 with
      | none => false
      | some cache2 => cache.canBeReplacedBy now cache2

def replaceTurn (remove : List String) (id : String) : List String :=
  if b.transient ∨ id ∈ remove then remove
  else
    match b.find id with
    | none => remove
    | some cache => if b.replaceable now remove id cache then remove ++ [id] else remove

variable (orders : CleanupOrders)

def checked : List String :=
  let walk := orders.walk.keys b.ids
  walk.foldl (b.replaceTurn now) (walk.filter (b.removableId now currentCycle))

def remaining (remove : List String) : List (String × Metacache) :=
  b.caches.filter fun cache => !decide (cache.1 ∈ remove)

def beyondLimit (remove : List String) : List String :=
  if b.caches.length - remove.length > metacacheMaxEntries then
    let remainCaches := b.remaining remove
    if remainCaches.length > metacacheMaxEntries then
      (((orders.oldestFirst.sort remainCaches).drop metacacheMaxEntries).filter
        fun cache => cache.2.stale now).map fun cache => cache.2.id
    else []
  else []

/-- `cleanup`. -/
def cleanup : BucketMetacache :=
  let remove := b.checked now currentCycle orders
  (orders.removal.keys (remove ++ b.beyondLimit now orders remove)).foldl deleteCache b

end BucketMetacache

end Fs3.Listing
