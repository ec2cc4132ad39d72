import Mathlib.Data.Char
import Fs3.Foundation.Histories
import Fs3.Foundation.PrefixOrder
import Fs3.Multipart.Upload

/-! # The append file of a multipart upload

The file system backend appends the parts of an upload to one file while they arrive. -/

namespace Fs3.FsUpload

/-- The fields of the name of a part file. -/
structure PartName where
  partNumber : Nat
  eTag : String
  actualSize : Int
  deriving DecidableEq, Repr

def PartName.key (name : PartName) : Nat × String := (name.partNumber, name.eTag)

/-- `%.5d`. -/
def padPartNumber (partNumber : Nat) : List Char :=
  List.replicate (5 - (toString partNumber).length) '0' ++ (toString partNumber).toList

def encodePartFile (name : PartName) : List Char :=
  padPartNumber name.partNumber ++ '.' :: name.eTag.toList ++
    '.' :: (toString name.actualSize).toList

/-- A part that a completion asks for, its etag stripped of quotes. -/
structure AskedPart where
  partNumber : Nat
  eTag : String
  deriving DecidableEq, Repr

def AskedPart.key (part : AskedPart) : Nat × String := (part.partNumber, part.eTag)

/-- `fsAppendFile`, and the bytes that lie at its path. -/
structure AppendFile where
  parts : List PartName := []
  bytes : Bytes := []
  /-- Whether the file was removed from its path or moved to the object. -/
  gone : Bool := false

/-- Where a run of `backgroundAppend` is. -/
inductive Appending where
  | start
  /-- It has an append file and waits for its lock. -/
  | waiting (file : Nat)
  /-- It holds the lock and goes through the entries of the directory. -/
  | looping (file : Nat) (entries : List PartName) (nextPartNumber : Nat)

/-- Where a goroutine is. -/
inductive Run where
  | idle
  | background (phase : Appending)
  /-- A completion whose parts are there first appends in the foreground. -/
  | completing (parts : List AskedPart) (entries : List PartName) (phase : Appending)
  | taking (parts : List AskedPart) (entries : List PartName)
  /-- It has taken the append file from the map and waits for its lock. -/
  | comparing (parts : List AskedPart) (entries : List PartName) (file : Nat)
  /-- The append file has other parts, so the parts are copied one by one. -/
  | copying (parts : List AskedPart) (entries : List PartName) (file : Option Nat)
      (rest : List AskedPart) (copied : Option Bytes)
  /-- The append file is the object. -/
  | appended (parts : List AskedPart) (file : Nat)

/-- An upload, with everything that works on it. -/
structure State where
  /-- The part files, the last one first, and whether their directory is still there. -/
  dir : List (PartName × Bytes) := []
  present : Bool := true
  /-- The append file in the map. -/
  current : Option Nat := none
  fileCount : Nat := 0
  files : Nat → AppendFile := fun _ => {}
  locks : Nat → Option Nat := fun _ => none
  runs : Nat → Run := fun _ => .idle
  /-- What completions have moved to the object, with the parts they were asked for. -/
  made : List (List AskedPart × Bytes) := []

inductive Event where
  /-- `PutObjectPart` renames a part file to its place and starts a background run. -/
  | upload (name : PartName) (bytes : Bytes) (run : Nat)
  /-- `CompleteMultipartUpload` finds a file for each part. -/
  | complete (parts : List AskedPart) (files : List PartName) (run : Nat)
  /-- A run looks up the append file, or makes one. -/
  | find (run : Nat)
  /-- It gets the lock and lists the directory, which can fail. -/
  | list (run : Nat) (readable : Bool)
  /-- It looks at the next entry. -/
  | append (run : Nat) (failsAfter : Option Nat)
  /-- A completion takes the append file out of the map. -/
  | take (run : Nat)
  /-- It gets the lock and compares the part lists. -/
  | compare (run : Nat)
  /-- It copies the next part from a file, which can fail after some bytes. -/
  | copy (run : Nat) (name : PartName) (failsAfter : Option Nat)
  /-- It moves its file to the object under the object's lock, unless a step of that
  fails, and moves the directory away, where a failure is ignored. -/
  | commit (run : Nat) (succeeds : Bool) (purged : Bool)
  /-- `AbortMultipartUpload`. -/
  | abort

namespace Run

/-- The run of `backgroundAppend` that a goroutine is in. -/
def appending : Run → Option Appending
  | .background phase => some phase
  | .completing _ _ phase => some phase
  | _ => none

def advance (phase : Appending) : Run → Run
  | .completing parts entries _ => .completing parts entries phase
  | _ => .background phase

/-- What comes after `backgroundAppend`. -/
def finish : Run → Run
  | .completing parts entries _ => .taking parts entries
  | _ => .idle

end Run

namespace State

def content (s : State) (key : Nat × String) : Bytes :=
  match s.dir.find? fun entry => entry.1.key == key with
  | some entry => entry.2
  | none => []

def concat (s : State) (keys : List (Nat × String)) : Bytes := keys.flatMap s.content

def read (s : State) (name : PartName) : Option Bytes :=
  if s.present then (s.dir.find? fun entry => entry.1 == name).map Prod.snd else none

def entries (s : State) : List PartName :=
  (s.dir.map Prod.fst).insertionSort fun a b => encodePartFile a ≤ encodePartFile b

def setRun (s : State) (run : Nat) (phase : Run) : State :=
  { s with runs := Function.update s.runs run phase }

def setFile (s : State) (file : Nat) (contents : AppendFile) : State :=
  { s with files := Function.update s.files file contents }

def setLock (s : State) (file : Nat) (holder : Option Nat) : State :=
  { s with locks := Function.update s.locks file holder }

/-- Release the lock of the file that a completion has taken, if there was one. -/
def unlock (s : State) : Option Nat → State
  | some file => s.setLock file none
  | none => s

def removeFile (s : State) (file : Nat) : State :=
  s.setFile file { s.files file with bytes := [], gone := true }

end State

/-- Whether the files are those of the parts, and every part but the last is large
enough. -/
def validParts (entries : List PartName) : List AskedPart → List PartName → Bool
  | [], [] => true
  | part :: parts, name :: names =>
    decide (name ∈ entries) && name.key == part.key &&
      (parts.isEmpty || decide (globalMinPartSize ≤ name.actualSize)) &&
      validParts entries parts names
  | _, _ => false

def hasParts (appended : List PartName) (parts : List AskedPart) : Bool :=
  !parts.isEmpty && appended.map PartName.key == parts.map AskedPart.key

open State

/-- One entry of the loop of `backgroundAppend`. -/
def appendEntry (s : State) (run : Nat) (failsAfter : Option Nat) (file : Nat)
    (entries : List PartName) (nextPartNumber : Nat) : State :=
  let done := (s.setRun run (s.runs run).finish).setLock file none
  match entries with
  | [] => done
  | name :: rest =>
    if name.partNumber < nextPartNumber then
      s.setRun run ((s.runs run).advance (.looping file rest nextPartNumber))
    else if nextPartNumber < name.partNumber then done
    else
      match s.read name, failsAfter with
      | none, _ => done
      | some bytes, none =>
        (s.setRun run ((s.runs run).advance (.looping file rest (nextPartNumber + 1)))).setFile
          file { s.files file with
            parts := (s.files file).parts ++ [name]
            bytes := (s.files file).bytes ++ bytes }
      | some bytes, some count =>
        -- What was written before the failure stays in the file.
        done.setFile file { s.files file with
          bytes := (s.files file).bytes ++ bytes.take count }

def makeObject (s : State) (run : Nat) (parts : List AskedPart) (bytes : Bytes) (purged : Bool) :
    State :=
  { s.setRun run .idle with
    made := (parts, bytes) :: s.made
    present := if purged then false else s.present }

def step (s : State) : Event → State
  | .upload name bytes run =>
    match s.runs run with
    | .idle =>
      if s.present then
        { s.setRun run (.background .start) with
          dir := (name, bytes) :: s.dir.filter fun entry => entry.1 != name }
      else s
    | _ => s
  | .complete parts files run =>
    match s.runs run with
    | .idle =>
      if s.present && validParts s.entries parts files then
        s.setRun run (.completing parts s.entries .start)
      else s
    | _ => s
  | .find run =>
    match (s.runs run).appending with
    | some .start =>
      match s.current with
      | some file => s.setRun run ((s.runs run).advance (.waiting file))
      | none =>
        { s.setRun run ((s.runs run).advance (.waiting s.fileCount)) with
          current := some s.fileCount
          fileCount := s.fileCount + 1 }
    | _ => s
  | .list run readable =>
    match (s.runs run).appending with
    | some (.waiting file) =>
      match s.locks file with
      | some _ => s
      | none =>
        if s.present && readable then
          (s.setRun run ((s.runs run).advance
            (.looping file s.entries ((s.files file).parts.length + 1)))).setLock file run
        else s.setRun run (s.runs run).finish
    | _ => s
  | .append run failsAfter =>
    match (s.runs run).appending with
    | some (.looping file entries nextPartNumber) =>
      appendEntry s run failsAfter file entries nextPartNumber
    | _ => s
  | .take run =>
    match s.runs run with
    | .taking parts entries =>
      match s.current with
      | some file => { s.setRun run (.comparing parts entries file) with current := none }
      | none => s.setRun run (.copying parts entries none parts none)
    | _ => s
  | .compare run =>
    match s.runs run with
    | .comparing parts entries file =>
      match s.locks file with
      | some _ => s
      | none =>
        if hasParts (s.files file).parts parts then
          (s.setRun run (.appended parts file)).setLock file run
        else
          ((s.setRun run (.copying parts entries (some file) parts none)).setLock file
            run).removeFile file
    | _ => s
  | .copy run name failsAfter =>
    match s.runs run with
    | .copying parts entries file (part :: rest) copied =>
      -- Each part was found among these entries before, so it is found again.
      if decide (name ∈ entries) && name.key == part.key then
        match s.read name, failsAfter with
        | some bytes, none =>
          s.setRun run (.copying parts entries file rest (some (copied.getD [] ++ bytes)))
        | _, _ => (s.setRun run .idle).unlock file
      else s
    | _ => s
  | .commit run succeeds purged =>
    match s.runs run with
    | .appended parts file =>
      if succeeds && s.present then
        ((makeObject s run parts (s.files file).bytes purged).removeFile file).setLock file none
      else (s.setRun run .idle).setLock file none
    | .copying parts _ file [] copied =>
      match copied with
      | some bytes =>
        if succeeds && s.present then (makeObject s run parts bytes purged).unlock file
        else (s.setRun run .idle).unlock file
      | none => (s.setRun run .idle).unlock file
    | _ => s
  | .abort =>
    match s.current with
    | some file => { s.removeFile file with current := none, present := false }
    | none => { s with present := false }

end Fs3.FsUpload
