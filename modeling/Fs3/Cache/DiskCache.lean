import Fs3.Foundation.Pairs
import Fs3.ObjectReader.ObjectInfo

/-! # The entry of an object on a cache drive

An entry has a small record with the ETag and the size of the version it is for, the count of hits
and the ranges that are cached, each in a file of its own, or the whole object in one file. -/

namespace Fs3.Cache

open Foundation ObjectReader

/-- What a range is recorded under, `rs.String(size)`: its offset and its length, or nothing for
no range or a bad one. -/
abbrev RangeKey := Option (Int × Int)

def rangeKey (rs : Option HTTPRangeSpec) (size : Nat) : RangeKey :=
  match rs with
  | none => none
  | some spec => (getOffsetLength (some spec) size).toOption

def slice (bytes : Bytes) (off length : Int) : Bytes := (bytes.drop off.toNat).take length.toNat

def RangeKey.of (bytes : Bytes) : RangeKey → Bytes
  | none => bytes
  | some (off, length) => slice bytes off length

/-- `cacheMeta`. -/
structure CacheMeta (ε : Type) where
  etag : ε
  size : Nat
  ranges : List (RangeKey × Nat) := []
  hits : Nat := 0

/-- The directory of an entry: `cache.json`, `part.1`, and the files of ranges. -/
structure Entry (ε : Type) where
  cacheMeta : Option (CacheMeta ε) := none
  data : Option Bytes := none
  files : List (Nat × Bytes) := []

/-- A cached object that `Get` has found: the whole object or the file of a range, and where the
part that is asked for begins. -/
structure Hit (ε : Type) where
  etag : ε
  size : Nat
  file : Option Nat
  off : Int
  length : Int

namespace Entry

variable {ε : Type} (entry : Entry ε)

/-- `numHits` of a lookup. -/
def numHits : Nat := (entry.cacheMeta.map CacheMeta.hits).getD 0

/-- `diskCache.Get`: what `statRange` finds, and the part of it that is read. -/
def get (rs : Option HTTPRangeSpec) : Option (Hit ε) :=
  match entry.cacheMeta with
  | none => none
  | some m =>
    match getOffsetLength rs m.size with
    | .error _ => none
    | .ok (off, length) =>
      if entry.data.isSome then some ⟨m.etag, m.size, none, off, length⟩
      else
        match Pairs.value m.ranges (rangeKey rs m.size) with
        | none => none
        | some file =>
          if (Pairs.value entry.files file).isSome then
            some ⟨m.etag, m.size, some file, off, length⟩
          else none

/-- The ETag that `statRange` without a range, or `Stat`, finds. -/
def statETag : Option ε :=
  match entry.cacheMeta with
  | none => none
  | some m =>
    if entry.data.isSome then some m.etag
    else
      match Pairs.value m.ranges none with
      | none => none
      | some file => if (Pairs.value entry.files file).isSome then some m.etag else none

/-- `saveMetadata`. -/
def saveMetadata (etag : ε) (size : Nat) (rs : Option HTTPRangeSpec) (rsFileName : Option Nat)
    (incHitsOnly : Bool) : Entry ε :=
  let m := entry.cacheMeta.getD { etag := etag, size := size }
  let ranges :=
    match rs, rsFileName with
    | some _, some file => Pairs.put m.ranges (rangeKey rs size) file
    | _, _ => m.ranges
  -- the ranges are dropped where the whole object is cached
  let drops := rs.isNone && !incHitsOnly && entry.data.isSome
  { entry with
    cacheMeta := some
      { etag := etag
        size := size
        ranges := if drops then [] else ranges
        hits := m.hits + 1 }
    files := if drops then Pairs.drop entry.files (ranges.map Prod.snd) else entry.files }

variable (content : ε → Bytes)

/-- `putRange` of a version, under a new file name, of which so many bytes come through. -/
def putRange (spec : HTTPRangeSpec) (etag : ε) (cacheFile delivered : Nat) : Entry ε :=
  match getOffsetLength (some spec) (content etag).length with
  | .error _ => entry
  | .ok (off, length) =>
    let bytes := (slice (content etag) off length).take delivered
    if bytes.length = length.toNat then
      { entry with files := Pairs.put entry.files cacheFile bytes }.saveMetadata etag
        (content etag).length (some spec) (some cacheFile) false
    else {}

/-- The part of `Put` that caches the whole object. -/
def putData (etag : ε) (delivered : Nat) (incHitsOnly : Bool) : Entry ε :=
  let bytes := (content etag).take delivered
  if bytes.length = (content etag).length then
    { entry with data := some bytes }.saveMetadata etag bytes.length none none incHitsOnly
  else {}

/-- The part of `Put` that caches data. -/
def store (rs : Option HTTPRangeSpec) (etag : ε) (cacheFile delivered : Nat)
    (incHitsOnly : Bool) : Entry ε :=
  match rs with
  | some spec => entry.putRange content spec etag cacheFile delivered
  | none => entry.putData content etag delivered incHitsOnly

/-- `diskCache.Put` of a version. -/
def put [DecidableEq ε] (after : Nat) (rs : Option HTTPRangeSpec) (etag : ε)
    (cacheFile delivered : Nat) : Entry ε :=
  match entry.cacheMeta with
  | none =>
    if 1 ≤ after then entry.saveMetadata etag (content etag).length none none false
    else entry.store content rs etag cacheFile delivered false
  | some m =>
    if m.hits < after then
      if m.etag = etag then entry.saveMetadata etag (content etag).length none none false
      else entry.store content rs etag cacheFile delivered true
    else entry.store content rs etag cacheFile delivered false

def file (name : Option Nat) : Option Bytes :=
  match name with
  | none => entry.data
  | some name => Pairs.value entry.files name

end Entry

end Fs3.Cache

/-! ## Requests through the disk cache

The requests for one object with write-back off. The backend has one version of it at a time. A
request takes the entry's lock for each of its steps on the entry and lets it go between them, and
the file of a cached object is read block by block without the lock.
-/

namespace Fs3.Cache

open Foundation ObjectReader

/-- How the cache is configured: after how many hits objects are cached, and whether ranges are. -/
structure CacheConfig where
  after : Nat
  enableRange : Bool

/-- What `SaveMetadata` is called with. -/
structure SaveArgs (ε : Type) where
  etag : ε
  size : Nat
  rs : Option HTTPRangeSpec
  incHitsOnly : Bool

/-- Where a request stands: it has looked the entry up; it is about to save metadata, to delete
the entry and be done, or to delete it and go to the backend; it is about to fetch from the
backend for its client, or all of the object in the background; it has a reader of a version in
the background and is about to look whether that is cached; it is about to put a version. -/
inductive Phase (ε : Type) where
  | idle
  | looked (rs : Option HTTPRangeSpec) (hit : Option (Hit ε)) (numHits : Nat)
  | saving (args : SaveArgs ε)
  | evicting
  | replacing (rs : Option HTTPRangeSpec) (numHits : Nat) (bkETag : ε)
  | fetching (rs : Option HTTPRangeSpec) (numHits : Nat) (bkETag : ε)
  | fetchingWhole
  | checking (etag : ε)
  | putting (rs : Option HTTPRangeSpec) (etag : ε)
  | answered

/-- A reader of a cached object, with what it has read. -/
structure Reader (ε : Type) where
  hit : Hit ε
  got : Bytes := []

/-- What the backend's `GetObjectInfo` answers: that it is down, another error, an object that is
not cached, or the object's information, with whether the metadata are the same. -/
inductive BackendAnswer where
  | down
  | failed
  | uncacheable
  | found (metadataSame : Bool)

/-- The backend's version, the entry, the next unused name of a range's file, and the requests
with the readers that they have opened. -/
structure CacheState (ε τ : Type) where
  backend : Option ε := none
  entry : Entry ε := {}
  nextFile : Nat := 0
  phase : τ → Phase ε := fun _ => .idle
  reader : τ → Option (Reader ε) := fun _ => none

/-- What can happen next: a step of a request, with the choices that time, metadata, the client
and the backend make, or a change of the backend's version. -/
inductive CacheEvent (ε τ : Type) where
  | get (r : τ) (rs : Option HTTPRangeSpec)
  | serveFresh (r : τ)
  | passOver (r : τ)
  | askBackend (r : τ) (answer : BackendAnswer)
  | save (r : τ)
  | evict (r : τ)
  | fetch (r : τ) (diskSpaceAvailable : Bool)
  | fetchWhole (r : τ)
  | check (r : τ)
  | put (r : τ) (delivered : Nat)
  | read (r : τ) (n : Nat)
  | putObject (r : τ) (etag : ε)
  | putUncached (r : τ)
  | deleteObject (r : τ)
  | backendChange (version : Option ε)

namespace CacheState

variable {ε τ : Type} [DecidableEq ε] [DecidableEq τ] (config : CacheConfig)
  (content : ε → Bytes) (s : CacheState ε τ)

def moveTo (r : τ) (phase : Phase ε) : CacheState ε τ :=
  { s with phase := Function.update s.phase r phase }

def close (r : τ) : CacheState ε τ := { s with reader := Function.update s.reader r none }

/-- `GetObjectNInfo` looks the object up in the cache. -/
def get (r : τ) (rs : Option HTTPRangeSpec) : CacheState ε τ :=
  match s.phase r with
  | .idle =>
    let hit := s.entry.get rs
    { s with reader := Function.update s.reader r (hit.map fun hit => { hit := hit }) }
      |>.moveTo r (.looked rs hit s.entry.numHits)
  | _ => s

def serveFresh (r : τ) : CacheState ε τ :=
  match s.phase r with
  | .looked rs (some hit) _ =>
    s.moveTo r (.saving { etag := hit.etag, size := hit.size, rs := rs, incHitsOnly := true })
  | _ => s

def passOver (r : τ) : CacheState ε τ :=
  match s.phase r with
  | .looked _ _ _ => (s.close r).moveTo r .answered
  | _ => s

def askBackend (r : τ) (answer : BackendAnswer) : CacheState ε τ :=
  match s.phase r with
  | .looked rs hit numHits =>
    match answer with
    | .down => s.moveTo r .answered
    | .failed | .uncacheable => (s.close r).moveTo r .answered
    | .found metadataSame =>
      match s.backend, hit with
      | none, none => s.moveTo r .answered
      | none, some _ => (s.close r).moveTo r .evicting
      | some bkETag, none => s.moveTo r (.fetching rs numHits bkETag)
      | some bkETag, some hit =>
        if hit.etag = bkETag then
          s.moveTo r (.saving
            (if metadataSame then
              { etag := hit.etag, size := hit.size, rs := rs, incHitsOnly := true }
            else
              { etag := bkETag, size := (content bkETag).length, rs := none,
                incHitsOnly := false }))
        else (s.close r).moveTo r (.replacing rs numHits bkETag)
  | _ => s

/-- `SaveMetadata`. -/
def save (r : τ) : CacheState ε τ :=
  match s.phase r with
  | .saving args =>
    { s with entry := s.entry.saveMetadata args.etag args.size args.rs none args.incHitsOnly }
      |>.moveTo r .answered
  | _ => s

/-- `diskCache.Delete`. -/
def evict (r : τ) : CacheState ε τ :=
  match s.phase r with
  | .evicting => { s with entry := {} }.moveTo r .answered
  | .replacing rs numHits bkETag => { s with entry := {} }.moveTo r (.fetching rs numHits bkETag)
  | _ => s

/-- The backend is read for the client, and the cache is to be filled or the hit counted. -/
def fetch (r : τ) (diskSpaceAvailable : Bool) : CacheState ε τ :=
  match s.phase r with
  | .fetching rs numHits bkETag =>
    match s.backend with
    | none => s.moveTo r .answered
    | some etag =>
      if (getOffsetLength rs (content etag).length).toOption.isNone then s.moveTo r .answered
      else if numHits < config.after then
        s.moveTo r (.saving { etag := bkETag, size := (content bkETag).length, rs := rs,
                              incHitsOnly := true })
      else if !diskSpaceAvailable then s.moveTo r .answered
      else if rs.isSome && !config.enableRange then s.moveTo r .fetchingWhole
      else s.moveTo r (.putting rs etag)
  | _ => s

def fetchWhole (r : τ) : CacheState ε τ :=
  match s.phase r with
  | .fetchingWhole =>
    match s.backend with
    | none => s.moveTo r .answered
    | some etag => s.moveTo r (.checking etag)
  | _ => s

def check (r : τ) : CacheState ε τ :=
  match s.phase r with
  | .checking etag =>
    s.moveTo r (if s.entry.statETag = some etag then .answered else .putting none etag)
  | _ => s

/-- `diskCache.Put`. -/
def put (r : τ) (delivered : Nat) : CacheState ε τ :=
  match s.phase r with
  | .putting rs etag =>
    { s with
      entry := s.entry.put content config.after rs etag s.nextFile delivered
      nextFile := s.nextFile + 1 }.moveTo r .answered
  | _ => s

def read (r : τ) (n : Nat) : CacheState ε τ :=
  match s.reader r with
  | none => s
  | some reader =>
    match s.entry.file reader.hit.file with
    | none => { s with entry := {} }.close r
    | some bytes =>
      let start := if reader.hit.file = none then reader.hit.off.toNat else 0
      let block := (bytes.drop (start + reader.got.length)).take
        (min n (reader.hit.length.toNat - reader.got.length))
      { s with
        reader := Function.update s.reader r
          (some { reader with got := reader.got ++ block }) }

/-- `PutObject`, whose version is then read in the background. -/
def putObject (r : τ) (etag : ε) : CacheState ε τ :=
  match s.phase r with
  | .idle => { s with backend := some etag }.moveTo r .fetchingWhole
  | _ => s

/-- `PutObject` of an object that is not cached deletes the entry first. -/
def putUncached (r : τ) : CacheState ε τ :=
  match s.phase r with
  | .idle => s.moveTo r .evicting
  | _ => s

/-- `DeleteObject` deletes the entry when the backend has deleted the object. -/
def deleteObject (r : τ) : CacheState ε τ :=
  match s.phase r with
  | .idle => { s with backend := none }.moveTo r .evicting
  | _ => s

def after : CacheEvent ε τ → CacheState ε τ
  | .get r rs => s.get r rs
  | .serveFresh r => s.serveFresh r
  | .passOver r => s.passOver r
  | .askBackend r answer => s.askBackend content r answer
  | .save r => s.save r
  | .evict r => s.evict r
  | .fetch r diskSpaceAvailable => s.fetch config content r diskSpaceAvailable
  | .fetchWhole r => s.fetchWhole r
  | .check r => s.check r
  | .put r delivered => s.put config content r delivered
  | .read r n => s.read r n
  | .putObject r etag => s.putObject r etag
  | .putUncached r => s.putUncached r
  | .deleteObject r => s.deleteObject r
  | .backendChange version => { s with backend := version }

end CacheState

end Fs3.Cache
