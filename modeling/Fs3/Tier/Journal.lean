import Fs3.Foundation.Msgp

/-! # Entries of the tier journal

An entry names an object on a remote tier that is to be deleted there. -/

namespace Fs3.Tier

open Msgp

/-- A string, no longer than its header can say. -/
abbrev Text := { bytes : List UInt8 // bytes.length < 2 ^ 32 }

structure Jentry where
  objName : Text
  versionID : Text
  tierName : Text
  deriving DecidableEq

namespace Jentry

/-- `MarshalMsg`. -/
def marshalMsg (z : Jentry) : List UInt8 :=
  [0x83, 0xa3, 0x6f, 0x62, 0x6a] ++ appendStringFromBytes z.objName ++
    [0xa3, 0x76, 0x69, 0x64] ++ appendStringFromBytes z.versionID ++
    [0xa4, 0x74, 0x69, 0x65, 0x72] ++ appendStringFromBytes z.tierName

/-- The `var entry jentry` that an entry is read into. -/
def zero : Jentry := ⟨⟨[], by decide⟩, ⟨[], by decide⟩, ⟨[], by decide⟩⟩

end Jentry

/-- `ReadString`. -/
def readString (input : List UInt8) : Option (Text × List UInt8) :=
  (readStringZC input).bind fun read =>
    if hbound : read.1.length < 2 ^ 32 then some (⟨read.1, hbound⟩, read.2) else none

/-- What else the message pack library is asked for. -/
structure MsgpReader where
  /-- `Skip`, over the value of a key that is not known. -/
  skip : List UInt8 → Option (List UInt8)
  /-- Whether an entry that cannot be read from some bytes gives the error of their end. -/
  atEOF : List UInt8 → Bool

namespace MsgpReader

variable (dc : MsgpReader)

def readField (z : Jentry) (input : List UInt8) : Option (Jentry × List UInt8) :=
  (readMapKeyZC input).bind fun field =>
    if field.1 = [0x6f, 0x62, 0x6a] then
      (readString field.2).map fun read => ({ z with objName := read.1 }, read.2)
    else if field.1 = [0x76, 0x69, 0x64] then
      (readString field.2).map fun read => ({ z with versionID := read.1 }, read.2)
    else if field.1 = [0x74, 0x69, 0x65, 0x72] then
      (readString field.2).map fun read => ({ z with tierName := read.1 }, read.2)
    else (dc.skip field.2).map fun rest => (z, rest)

def readFields : Nat → Jentry → List UInt8 → Option (Jentry × List UInt8)
  | 0, z, input => some (z, input)
  | fields + 1, z, input => (dc.readField z input).bind fun read => readFields fields read.1 read.2

/-- `DecodeMsg`, with the bytes after the entry. -/
def decodeMsg (input : List UInt8) : Option (Jentry × List UInt8) :=
  (readMapHeaderBytes input).bind fun header => dc.readFields header.1 Jentry.zero header.2

theorem readString_append (value : Text) (rest : List UInt8) :
    readString (appendStringFromBytes value ++ rest) = some (value, rest) := by
  rw [readString, readStringZC_append _ rest value.2, Option.bind_some, dif_pos value.2]

theorem decodeMsg_append (z : Jentry) (rest : List UInt8) :
    dc.decodeMsg (z.marshalMsg ++ rest) = some (z, rest) := by
  have hobj : ∀ more, readMapKeyZC ([0xa3, 0x6f, 0x62, 0x6a] ++ more) =
      some ([0x6f, 0x62, 0x6a], more) := fun more =>
    readMapKeyZC_append [0x6f, 0x62, 0x6a] more (by decide)
  have hvid : ∀ more, readMapKeyZC ([0xa3, 0x76, 0x69, 0x64] ++ more) =
      some ([0x76, 0x69, 0x64], more) := fun more =>
    readMapKeyZC_append [0x76, 0x69, 0x64] more (by decide)
  have htier : ∀ more, readMapKeyZC ([0xa4, 0x74, 0x69, 0x65, 0x72] ++ more) =
      some ([0x74, 0x69, 0x65, 0x72], more) := fun more =>
    readMapKeyZC_append [0x74, 0x69, 0x65, 0x72] more (by decide)
  have hheader : ∀ more, readMapHeaderBytes ([0x83, 0xa3, 0x6f, 0x62, 0x6a] ++ more) =
      some (3, [0xa3, 0x6f, 0x62, 0x6a] ++ more) := by
    intro more
    rw [List.cons_append, readMapHeaderBytes, if_pos (by decide)]
    rfl
  have hvidObj : ([0x76, 0x69, 0x64] : List UInt8) ≠ [0x6f, 0x62, 0x6a] := by decide
  have htierObj : ([0x74, 0x69, 0x65, 0x72] : List UInt8) ≠ [0x6f, 0x62, 0x6a] := by decide
  have htierVid : ([0x74, 0x69, 0x65, 0x72] : List UInt8) ≠ [0x76, 0x69, 0x64] := by decide
  rw [decodeMsg, Jentry.marshalMsg]
  simp only [List.append_assoc]
  rw [hheader, Option.bind_some]
  simp only [readFields, readField]
  rw [hobj, Option.bind_some, if_pos rfl, readString_append, Option.map_some, Option.bind_some,
    hvid, Option.bind_some, if_neg hvidObj, if_pos rfl, readString_append, Option.map_some,
    Option.bind_some, htier, Option.bind_some, if_neg htierObj, if_neg htierVid, if_pos rfl,
    readString_append, Option.map_some, Option.bind_some]

end MsgpReader

end Fs3.Tier

/-! ## The tier journal

Goroutines add entries to the active journal, which is now and then renamed to the
read-only journal. A walk reads that journal, deletes what its entries name from the
remote tiers, and removes it at its end. An operation goes in steps, between which other
goroutines take theirs; what happens under the lock of the journal is one step.
-/

namespace Fs3.Tier

abbrev Bytes := List UInt8

/-- The header of a journal: `tierJournalVersion`, the low byte first. -/
def header : Bytes := [1, 0]

/-- `tierJournalHdrLen`. -/
def tierJournalHdrLen : Nat := 2

/-- What a remote tier says to a delete. -/
inductive RemoteAnswer
  | deleted
  | objectNotFound
  | failed

inductive Op
  | addEntry (entry : Jentry)
  | walkEntries
  | close

/-- What the next step of a goroutine meets: the operation it starts, the file operations
that fail and the number of bytes that a failing write has written. -/
structure Chance where
  op : Op := .close
  openFails : Bool := false
  statFails : Bool := false
  writeFails : Bool := false
  written : Nat := 0
  renameFails : Bool := false
  readFails : Bool := false
  removeFails : Bool := false
  remote : RemoteAnswer := .deleted

/-- The files of a journal. -/
structure Journal where
  active : Option Bytes := none
  /-- Whether `j.file` is open. -/
  file : Bool := false
  ro : Option Bytes := none
  roFile : Nat := 0

namespace Journal

variable (j : Journal)

/-- `Open`, with whether it succeeds. -/
def open' (chance : Chance) : Journal × Bool :=
  if j.file then (j, true)
  else if chance.openFails then (j, false)
  else
    let size := (j.active.getD []).length
    let opened := { j with active := some (j.active.getD []), file := true }
    if chance.statFails then (opened, false)
    else if size = 0 then
      if chance.writeFails then
        ({ opened with active := some (header.take chance.written) }, false)
      else ({ opened with active := some header }, true)
    else (opened, true)

/-- The write of `AddEntry`, with whether it succeeds. -/
def write (entry : Jentry) (chance : Chance) : Journal × Bool :=
  if j.file then
    if chance.writeFails then
      ({ j with active := j.active.map (· ++ entry.marshalMsg.take chance.written), file := false },
        false)
    else ({ j with active := j.active.map (· ++ entry.marshalMsg) }, true)
  else (j, false)

/-- `Close`. -/
def close (chance : Chance) : Journal :=
  if !j.file then j
  else if chance.statFails then { j with file := false }
  else if (j.active.getD []).length = tierJournalHdrLen then { j with file := false }
  else if chance.renameFails then { j with file := false }
  else { active := none, file := false, ro := j.active, roFile := j.roFile + 1 }

/-- `OpenRO`: what there is to read after the header. -/
def openRO (chance : Chance) : Option Bytes :=
  if chance.openFails then none
  else
    match j.ro with
    | none => none
    | some bytes =>
      if chance.readFails then none
      else if bytes.take tierJournalHdrLen = header then some (bytes.drop tierJournalHdrLen)
      else none

end Journal

/-- A read-only journal that is open, and what there still is to read of it. -/
structure Reader where
  file : Nat
  rest : Bytes

/-- Where a goroutine is. -/
inductive Pc
  | idle
  | opening (entry : Jentry) (walk : Option Reader)
  | writing (entry : Jentry) (walk : Option Reader)
  | closing
  | statting
  | rotating
  | reopening
  | openingRO
  | reading (ro : Reader)
  | deleting (entry : Jentry) (ro : Reader)
  | removing (file : Nat)

def Op.start : Op → Pc
  | .addEntry entry => .opening entry none
  | .walkEntries => .statting
  | .close => .closing

/-- Where a goroutine goes on after `AddEntry`. -/
def Pc.afterAdd : Option Reader → Pc
  | none => .idle
  | some ro => .reading ro

/-- The journal with its goroutines, the entries that `AddEntry` has added with success,
and those that are deleted from their tier or were not found there. -/
structure System (ι : Type*) where
  journal : Journal
  pcs : ι → Pc
  added : List Jentry := []
  deleted : List Jentry := []

variable {ι : Type*} [DecidableEq ι]

namespace System

variable (dc : MsgpReader) (s : System ι)

def goto (t : ι) (pc : Pc) : System ι := { s with pcs := Function.update s.pcs t pc }

def readNext (chance : Chance) (ro : Reader) : Pc :=
  if chance.readFails then .idle
  else
    match dc.decodeMsg ro.rest with
    | some (entry, rest) => .deleting entry { ro with rest := rest }
    | none => if dc.atEOF ro.rest then .removing ro.file else .idle

def step (event : ι × Chance) : System ι :=
  let (t, chance) := event
  match s.pcs t with
  | .idle => s.goto t chance.op.start
  | .opening entry walk =>
    let opened := s.journal.open' chance
    { s with journal := opened.1 }.goto t
      (if opened.2 then .writing entry walk else Pc.afterAdd walk)
  | .writing entry walk =>
    let wrote := s.journal.write entry chance
    { s with
      journal := wrote.1
      added := if wrote.2 then entry :: s.added else s.added }.goto t (Pc.afterAdd walk)
  | .closing => { s with journal := s.journal.close chance }.goto t .idle
  | .statting =>
    s.goto t (if s.journal.ro.isSome && !chance.statFails then .openingRO else .rotating)
  | .rotating => { s with journal := s.journal.close chance }.goto t .reopening
  | .reopening =>
    let opened := s.journal.open' chance
    { s with journal := opened.1 }.goto t (if opened.2 then .openingRO else .idle)
  | .openingRO =>
    match s.journal.openRO chance with
    | none => s.goto t .idle
    | some rest => s.goto t (.reading ⟨s.journal.roFile, rest⟩)
  | .reading ro => s.goto t (readNext dc chance ro)
  | .deleting entry ro =>
    match chance.remote with
    | .failed => s.goto t (.opening entry (some ro))
    | _ => { s with deleted := entry :: s.deleted }.goto t (.reading ro)
  | .removing _ =>
    if chance.removeFails then s.goto t .idle
    else { s with journal := { s.journal with ro := none } }.goto t .idle

end System

end Fs3.Tier
