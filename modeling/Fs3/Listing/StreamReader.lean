import Fs3.Foundation.ListCursor
import Fs3.Foundation.Msgp
import Fs3.Listing.Entries

/-! # The stream of a listing

A listing is written as a stream of message pack values: a version, and for every entry that there
is one, its name and its metadata. -/

namespace Fs3.Listing

open Msgp (Fault)

/-- `metaCacheEntry`, by its bytes. Without a name it stands for none. -/
structure StreamEntry where
  name : List UInt8
  metadata : List UInt8
  deriving DecidableEq

namespace StreamEntry

variable (e : StreamEntry)

def none : StreamEntry := ⟨[], []⟩

def isDir : Bool := e.metadata.isEmpty

def isObject : Bool := !e.metadata.isEmpty

def hasPrefix (s : List UInt8) : Bool := s.isPrefixOf e.name

def isLatestDeletemarker [ObjectMetadata (List UInt8)] : Bool :=
  !e.metadata.isEmpty && ObjectMetadata.latestDeleted e.metadata

end StreamEntry

def metacacheStreamVersion : UInt8 := 1

def encodeEntry (e : StreamEntry) : List UInt8 :=
  Msgp.appendBool true ++ (Msgp.appendStringFromBytes e.name ++ Msgp.appendBytes e.metadata)

/-- `metacacheWriter`: what it has written, once its stream is created. -/
structure StreamWriter where
  out : Option (List UInt8) := Option.none

namespace StreamWriter

variable (w : StreamWriter)

def create : List UInt8 := w.out.getD [metacacheStreamVersion]

/-- The loop of `write`, with whether it came to an object without a name. -/
def writeLoop (out : List UInt8) : List StreamEntry → List UInt8 × Bool
  | [] => (out, false)
  | o :: objs => if o.name = [] then (out, true) else writeLoop (out ++ encodeEntry o) objs

def write (objs : List StreamEntry) : StreamWriter × Bool :=
  if objs = [] then (w, false)
  else
    let (out, failed) := writeLoop w.create objs
    (⟨some out⟩, failed)

/-- `stream`, with all that is sent to its channel. -/
def stream (objs : List StreamEntry) : StreamWriter :=
  ⟨some (w.create ++ (objs.filter fun o => o.name ≠ []).flatMap encodeEntry)⟩

/-- `Close`: the end is written where anything was. -/
def close : List UInt8 :=
  match w.out with
  | Option.none => []
  | some out => out ++ Msgp.appendBool false

end StreamWriter

/-! ## Reading -/

/-- The errors that a reader returns. -/
inductive StreamErr where
  | eof
  | unexpectedEOF
  | malformed
  | unknownVersion (version : UInt8)
  | canceled
  deriving DecidableEq

namespace StreamErr

def ofFault : Fault → StreamErr
  | .eof => .eof
  | .unexpectedEOF => .unexpectedEOF
  | .malformed => .malformed

def ofShort : Fault → StreamErr
  | .eof => .unexpectedEOF
  | fault => ofFault fault

end StreamErr

/-- `metacacheReader`, with the bytes that are left. -/
structure StreamReader where
  current : StreamEntry := .none
  err : Option StreamErr := Option.none
  created : Bool := false
  rest : List UInt8
  deriving DecidableEq

/-- What a call returns: entries or names, whether it is the end, and an error. -/
structure Returned where
  entries : List StreamEntry := []
  names : List (List UInt8) := []
  atEOF : Bool := false
  err : Option StreamErr := Option.none
  deriving DecidableEq

/-- What is read of an entry up to its name. -/
inductive Pulled where
  | name (name : List UInt8) (rest : List UInt8)
  | ended (rest : List UInt8)
  | noMore (fault : Fault)
  | cut (fault : Fault)

def pullName (input : List UInt8) : Pulled :=
  match Msgp.readBool input with
  | .error fault => .noMore fault
  | .ok (false, rest) => .ended rest
  | .ok (true, rest) =>
    match Msgp.readString rest with
    | .error fault => .cut fault
    | .ok (name, rest) => .name name rest

namespace StreamReader

variable (r : StreamReader)

def checkInit : StreamReader :=
  if r.created ∨ r.err ≠ Option.none then r
  else
    match Msgp.readByte r.rest with
    | .error fault => { r with created := true, err := some (.ofFault fault) }
    | .ok (version, rest) =>
      if version = metacacheStreamVersion then { r with created := true, rest := rest }
      else { r with created := true, rest := rest, err := some (.unknownVersion version) }

def checked (body : StreamReader → Returned × StreamReader) : Returned × StreamReader :=
  match r.checkInit.err with
  | some e => ({ err := some e }, r.checkInit)
  | Option.none => body r.checkInit

def fail (e : StreamErr) (found : Returned := {}) : Returned × StreamReader :=
  ({ found with err := some e }, { r with err := some e })

def reachEnd (rest : List UInt8) (found : Returned := {}) : Returned × StreamReader :=
  StreamReader.fail { r with rest := rest } .eof found

def noMore (fault : Fault) (found : Returned := {}) : Returned × StreamReader :=
  if fault = .malformed then ({ found with err := some .malformed }, r)
  else r.fail (.ofShort fault) found

def peek : Returned × StreamReader :=
  r.checked fun r =>
    if r.current.name ≠ [] then ({ entries := [r.current] }, r)
    else
      match pullName r.rest with
      | .ended rest => r.reachEnd rest
      | .noMore fault => r.fail (.ofShort fault)
      | .cut fault => r.fail (.ofShort fault)
      | .name name rest =>
        match Msgp.readBytes rest with
        | .error fault =>
          StreamReader.fail { r with current := ⟨name, []⟩, rest := rest } (.ofShort fault)
            { entries := [⟨name, []⟩] }
        | .ok (metadata, rest) =>
          ({ entries := [⟨name, metadata⟩] },
            { r with current := ⟨name, metadata⟩, rest := rest })

def next : Returned × StreamReader :=
  r.checked fun r =>
    if r.current.name ≠ [] then ({ entries := [r.current] }, { r with current := .none })
    else
      match pullName r.rest with
      | .ended rest => r.reachEnd rest
      | .noMore fault => r.fail (.ofShort fault)
      | .cut fault => r.fail (.ofShort fault)
      | .name name rest =>
        match Msgp.readBytes rest with
        | .error fault =>
          StreamReader.fail { r with rest := rest } (.ofShort fault)
            { entries := [⟨name, []⟩] }
        | .ok (metadata, rest) => ({ entries := [⟨name, metadata⟩] }, { r with rest := rest })

def nextEOF : Returned × StreamReader :=
  match r.checkInit.err with
  | some e => ({ atEOF := e = .eof }, r.checkInit)
  | Option.none =>
    if r.checkInit.current.name ≠ [] then ({}, r.checkInit)
    else
      match r.checkInit.peek with
      | ({ err := some e, .. }, r) => ({ atEOF := e = .eof }, { r with err := some e })
      | (_, r) => ({}, r)

/-- The loop of `forwardTo`. -/
def forwardLoop (s : List UInt8) : Nat → StreamReader → Returned × StreamReader
  | 0, r => r.fail .unexpectedEOF
  | fuel + 1, r =>
    match pullName r.rest with
    | .ended rest => r.reachEnd rest
    | .noMore fault => r.fail (.ofShort fault)
    | .cut fault => r.fail (.ofFault fault)
    | .name name rest =>
      if name < s then
        match Msgp.skip rest with
        | .error fault => StreamReader.fail { r with rest := rest } (.ofShort fault)
        | .ok rest => forwardLoop s fuel { r with rest := rest }
      else
        match Msgp.readBytes rest with
        | .error fault =>
          StreamReader.fail { r with current := ⟨name, []⟩, rest := rest } (.ofFault fault)
        | .ok (metadata, rest) => ({}, { r with current := ⟨name, metadata⟩, rest := rest })

def forwardTo (s : List UInt8) : Returned × StreamReader :=
  r.checked fun r =>
    if s = [] then ({}, r)
    else if r.current.name ≠ [] ∧ ¬ r.current.name < s then ({}, r)
    else forwardLoop s (r.rest.length + 1) { r with current := .none }

section ReadN

variable [ObjectMetadata (List UInt8)]

/-- The loop of `readN`. -/
def readNLoop (n : Int) (inclDeleted inclDirs : Bool) (pre : List UInt8) :
    Nat → List StreamEntry → StreamReader → Returned × StreamReader
  | 0, res, r => r.fail .unexpectedEOF { entries := res }
  | fuel + 1, res, r =>
    if n < 0 ∨ res.length < n then
      match pullName r.rest with
      | .ended rest => r.reachEnd rest { entries := res }
      | .noMore fault => r.fail (.ofShort fault) { entries := res }
      | .cut fault => r.fail (.ofShort fault) { entries := res }
      | .name name rest =>
        if !pre.isPrefixOf name then
          -- The metadata is not read: one byte of it is skipped.
          ({ entries := res, err := some .eof }, { r with rest := rest.drop 1 })
        else
          match Msgp.readBytes rest with
          | .error fault =>
            StreamReader.fail { r with rest := rest } (.ofShort fault) { entries := res }
          | .ok (metadata, rest) =>
            let entry : StreamEntry := ⟨name, metadata⟩
            if !inclDirs && entry.isDir then
              readNLoop n inclDeleted inclDirs pre fuel res { r with rest := rest }
            else if !inclDeleted && entry.isLatestDeletemarker then
              readNLoop n inclDeleted inclDirs pre fuel res { r with rest := rest }
            else
              readNLoop n inclDeleted inclDirs pre fuel (res ++ [entry])
                { r with rest := rest }
    else ({ entries := res }, r)

/-- `readN` behind the forwarding to the prefix. -/
def readNFrom (n : Int) (inclDeleted inclDirs : Bool) (pre : List UInt8) :
    Returned × StreamReader :=
  match r.peek with
  | ({ err := some e, .. }, r) => ({ err := some e }, r)
  | (_, r) =>
    if !r.current.hasPrefix pre then ({ err := some .eof }, r)
    else
      let res :=
        if (inclDeleted || !r.current.isLatestDeletemarker) && r.current.hasPrefix pre &&
          (inclDirs || r.current.isObject) then [r.current] else []
      readNLoop n inclDeleted inclDirs pre (r.rest.length + 1)
        (if r.current.name ≠ [] then res else []) { r with current := .none }

def readN (n : Int) (inclDeleted inclDirs : Bool) (pre : List UInt8) : Returned × StreamReader :=
  if n = 0 then ({}, r.checkInit)
  else
    r.checked fun r =>
      if pre = [] then r.readNFrom n inclDeleted inclDirs pre
      else
        match r.forwardTo pre with
        | ({ err := some e, .. }, r) => ({ err := some e }, r)
        | (_, r) => r.readNFrom n inclDeleted inclDirs pre

end ReadN

/-- The loop of `readAll`, which may be canceled before it sends an entry. -/
def readAllLoop (canceled : Option Nat) :
    Nat → List StreamEntry → StreamReader → Returned × StreamReader
  | 0, sent, r => r.fail .unexpectedEOF { entries := sent }
  | fuel + 1, sent, r =>
    match pullName r.rest with
    -- There is no error at the end, and none stays.
    | .ended rest => ({ entries := sent }, { r with rest := rest, err := Option.none })
    | .noMore fault => r.fail (.ofShort fault) { entries := sent }
    | .cut fault => r.fail (.ofShort fault) { entries := sent }
    | .name name rest =>
      match Msgp.readBytes rest with
      | .error fault =>
        StreamReader.fail { r with rest := rest } (.ofShort fault) { entries := sent }
      | .ok (metadata, rest) =>
        if canceled = some sent.length then
          StreamReader.fail { r with rest := rest } .canceled { entries := sent }
        else readAllLoop canceled fuel (sent ++ [⟨name, metadata⟩]) { r with rest := rest }

def readAll (canceled : Option Nat) : Returned × StreamReader :=
  r.checked fun r =>
    if r.current.name ≠ [] then
      if canceled = some 0 then r.fail .canceled
      else readAllLoop canceled (r.rest.length + 1) [r.current] { r with current := .none }
    else readAllLoop canceled (r.rest.length + 1) [] r

/-- The loop of `readFn`, with the entries that `fn` was called with. -/
def readFnLoop (fn : List StreamEntry → Bool) :
    Nat → List StreamEntry → StreamReader → Returned × StreamReader
  | 0, seen, r => r.fail .unexpectedEOF { entries := seen }
  | fuel + 1, seen, r =>
    match pullName r.rest with
    | .ended rest => r.reachEnd rest { entries := seen }
    | .noMore fault => r.noMore fault { entries := seen }
    | .cut fault => r.fail (.ofShort fault) { entries := seen }
    | .name name rest =>
      match Msgp.readBytes rest with
      | .error fault =>
        StreamReader.fail { r with rest := rest } (.ofShort fault) { entries := seen }
      | .ok (metadata, rest) =>
        if fn (seen ++ [⟨name, metadata⟩]) then
          readFnLoop fn fuel (seen ++ [⟨name, metadata⟩]) { r with rest := rest }
        else ({ entries := seen ++ [⟨name, metadata⟩] }, { r with rest := rest })

/-- `readFn`. What `fn` says of the entry that was peeked at is not looked at. -/
def readFn (fn : List StreamEntry → Bool) : Returned × StreamReader :=
  r.checked fun r =>
    if r.current.name ≠ [] then
      readFnLoop fn (r.rest.length + 1) [r.current] { r with current := .none }
    else readFnLoop fn (r.rest.length + 1) [] r

/-- The loop of `readNames`. -/
def readNamesLoop (n : Int) :
    Nat → List (List UInt8) → StreamReader → Returned × StreamReader
  | 0, res, r => r.fail .unexpectedEOF { names := res }
  | fuel + 1, res, r =>
    if n < 0 ∨ res.length < n then
      match pullName r.rest with
      | .ended rest => r.reachEnd rest { names := res }
      | .noMore fault => r.noMore fault { names := res }
      | .cut fault => r.fail (.ofFault fault) { names := res }
      | .name name rest =>
        match Msgp.skip rest with
        | .error fault =>
          StreamReader.fail { r with rest := rest } (.ofShort fault) { names := res }
        | .ok rest => readNamesLoop n fuel (res ++ [name]) { r with rest := rest }
    else ({ names := res }, r)

def readNames (n : Int) : Returned × StreamReader :=
  r.checked fun r =>
    if n = 0 then ({}, r)
    else if r.current.name ≠ [] then
      readNamesLoop n (r.rest.length + 1) [r.current.name] { r with current := .none }
    else readNamesLoop n (r.rest.length + 1) [] r

/-- The loop of `skip`. -/
def skipLoop : Nat → StreamReader → Returned × StreamReader
  | 0, r => ({}, r)
  | n + 1, r =>
    match Msgp.readBool r.rest with
    | .error fault => r.noMore fault
    | .ok (false, rest) => r.reachEnd rest
    | .ok (true, rest) =>
      match Msgp.skip rest with
      | .error fault => StreamReader.fail { r with rest := rest } (.ofShort fault)
      | .ok rest =>
        match Msgp.skip rest with
        | .error fault => StreamReader.fail { r with rest := rest } (.ofShort fault)
        | .ok rest => skipLoop n { r with rest := rest }

def skip (n : Int) : Returned × StreamReader :=
  r.checked fun r =>
    if n ≤ 0 then ({}, r)
    else if r.current.name ≠ [] then skipLoop (n.toNat - 1) { r with current := .none }
    else skipLoop n.toNat r

end StreamReader

end Fs3.Listing

/-! ## Calls of a reader and calls of a cursor

The calls of a reader of a stream are those of a cursor over the list of entries that
was written. What a call returns may depend on the calls before.
-/

namespace Fs3.Listing

open Foundation

/-- A call of the writer. -/
inductive WriterCall where
  | write (objs : List StreamEntry)
  | stream (objs : List StreamEntry)
  deriving DecidableEq

namespace WriterCall

def entries : WriterCall → List StreamEntry
  | write objs => objs
  | stream objs => objs

def onWriter (w : StreamWriter) : WriterCall → StreamWriter
  | write objs => (w.write objs).1
  | stream objs => w.stream objs

def creates : WriterCall → Bool
  | write objs => !objs.isEmpty
  | stream _ => true

end WriterCall

def writtenBytes (writes : List WriterCall) : List UInt8 :=
  (writes.foldl WriterCall.onWriter {}).close

/-- A call of the reader. The callback of `readFn` is asked with all entries that it has
been called with; `readAll` may be canceled before it sends an entry. -/
inductive ReaderCall where
  | peek
  | next
  | nextEOF
  | skip (n : Int)
  | forwardTo (s : List UInt8)
  | readN (n : Int) (inclDeleted inclDirs : Bool) (pre : List UInt8)
  | readNames (n : Int)
  | readFn (fn : List StreamEntry → Bool)
  | readAll (canceled : Option Nat)

namespace ReaderCall

variable [ObjectMetadata (List UInt8)]

def onReader (r : StreamReader) : ReaderCall → Returned × StreamReader
  | peek => r.peek
  | next => r.next
  | nextEOF => r.nextEOF
  | skip n => r.skip n
  | forwardTo s => r.forwardTo s
  | readN n inclDeleted inclDirs pre => r.readN n inclDeleted inclDirs pre
  | readNames n => r.readNames n
  | readFn fn => r.readFn fn
  | readAll canceled => r.readAll canceled

def limit (n : Int) : Option Nat := if n < 0 then none else some n.toNat

/-- The entries that `readN` keeps. -/
def keep (inclDeleted inclDirs : Bool) (e : StreamEntry) : Bool :=
  (inclDirs || e.isObject) && (inclDeleted || !e.isLatestDeletemarker)

/-- The entries that `readN` is about. -/
def within (pre : List UInt8) (e : StreamEntry) : Bool := e.hasPrefix pre

def told (found : Bool × Cursor StreamEntry) : Returned × Cursor StreamEntry :=
  ({ err := if found.1 then none else some .eof }, found.2)

def shown : Option StreamEntry × Cursor StreamEntry → Returned × Cursor StreamEntry
  | (some e, c) => ({ entries := [e] }, c)
  | (none, c) => ({ err := some .eof }, c)

/-- The error of a call that was asked for entries: none where it has enough of them. -/
def stopErr : CursorStop → Option StreamErr
  | .full => none
  | _ => some .eof

def early (s : List UInt8) (e : StreamEntry) : Bool := decide (e.name < s)

def toPrefix (pre : List UInt8) (c : Cursor StreamEntry) : Bool × Cursor StreamEntry :=
  if pre = [] then c.skip 0 else c.seek (early pre)

def onList (c : Cursor StreamEntry) : ReaderCall → Returned × Cursor StreamEntry
  | peek => shown c.peek
  | next => shown c.next
  | nextEOF =>
    match c.peek with
    | (some _, c) => ({}, c)
    | (none, c) => ({ atEOF := true }, c)
  | skip n => told (c.skip n.toNat)
  | forwardTo s => told (toPrefix s c)
  | readN n inclDeleted inclDirs pre =>
    if n = 0 then ({}, c)
    else
      let (found, stop, c) :=
        (toPrefix pre c).2.take (within pre) (keep inclDeleted inclDirs) (limit n)
      ({ entries := found, err := stopErr stop }, c)
  | readNames n =>
    let (found, stop, c) := c.take (fun _ => true) (fun _ => true) (limit n)
    ({ names := found.map StreamEntry.name, err := stopErr stop }, c)
  | readFn fn =>
    let (seen, c) := c.visit fn
    ({ entries := seen, err := if c = .ended then some .eof else none }, c)
  | readAll _ =>
    ({ entries := c.drain, err := if c = .ended then some .eof else none }, .ended)

/-- A reader and the callbacks of a call understand each other: the callback of `readFn`
goes on after an entry that was peeked at, and `readAll` is not canceled before its end. -/
def Heeded (r : StreamReader) (c : Cursor StreamEntry) : ReaderCall → Prop
  | readFn fn => r.current.name ≠ [] → fn [r.current] = true
  | readAll canceled => ∀ sent ∈ canceled, c.drain.length ≤ sent
  | _ => True

/-- Whether reading entries with a prefix comes to one without it, behind one that has
it. -/
def LosesFrom (n : Int) (inclDeleted inclDirs : Bool) (pre : List UInt8) :
    Cursor StreamEntry → Prop
  | .before (e :: rest) =>
    within pre e = true ∧
      (Cursor.collect (within pre) (keep inclDeleted inclDirs) (limit n) (e :: rest)).2.1 = .past
  | _ => False

/-- A call after which the reader has lost its place: `readAll` has come to the end, or
`readN` to an entry past its prefix. -/
def Loses (c : Cursor StreamEntry) : ReaderCall → Prop
  | readAll _ => c ≠ .ended
  | readN n inclDeleted inclDirs pre =>
    n ≠ 0 ∧ LosesFrom n inclDeleted inclDirs pre (toPrefix pre c).2
  | _ => False

def Idle (c : Cursor StreamEntry) : ReaderCall → Prop
  | readN n _ _ _ => n = 0
  | skip n => n ≤ 0 ∧ c ≠ .ended
  | forwardTo s => s = [] ∧ c ≠ .ended
  | readNames n => n = 0 ∧ c ≠ .ended
  | _ => False

end ReaderCall

variable [ObjectMetadata (List UInt8)]

def readerRun : StreamReader → List ReaderCall → List Returned
  | _, [] => []
  | r, call :: calls => (call.onReader r).1 :: readerRun (call.onReader r).2 calls

def listRun : Cursor StreamEntry → List ReaderCall → List Returned
  | _, [] => []
  | c, call :: calls => (call.onList c).1 :: listRun (call.onList c).2 calls

/-- All calls are heeded, and nothing is asked for after one that has lost its place. -/
def Kept : StreamReader → Cursor StreamEntry → List ReaderCall → Prop
  | _, _, [] => True
  | r, c, call :: calls =>
    call.Heeded r c ∧
      (call.Loses c → ∀ later ∈ calls, later.Idle (call.onList c).2) ∧
      (¬ call.Loses c → Kept (call.onReader r).2 (call.onList c).2 calls)

end Fs3.Listing
