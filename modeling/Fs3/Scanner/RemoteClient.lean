import Fs3.Scanner.HttpStream

/-! # The client side of the remote scanner

A drive of another server is scanned there: the usage cache is sent along, and the response streams
the updates, each behind a flag, then the flag that there are no more, and the new cache. -/

namespace Fs3.Scanner

open Foundation

/-- The encodings of usage entries and usage caches, the compression of a cache that is sent, and
what is read of the older formats. -/
structure Wire (Entry Cache : Type) where
  entries : StreamCodec Entry
  caches : StreamCodec Cache
  compress : Bytes → Bytes
  decompress : Bytes → Option Bytes
  decompress_compress : ∀ bytes, decompress (compress bytes) = some bytes
  older : UInt8 → Bytes → Option Cache

def dataUsageCacheVerCurrent : UInt8 := 5

/-- The errors that the client meets: the one that its pipe is closed with, a byte that is not a
flag, and an error that `DecodeMsg` wraps. -/
inductive ScanErr where
  | stream (err : StreamErr)
  | badPrefix (byte : UInt8)
  | wrapped
  deriving DecidableEq

/-- What a scan returns, with the updates that it sent before. -/
structure ScanResult (Entry Cache : Type) where
  updates : List Entry
  cache : Cache
  err : Option ScanErr

/-- How the message pack writes `true` and `false`. -/
def mtrue : UInt8 := 0xc3

def mfalse : UInt8 := 0xc2

/-- `DecodeMsg`, whose errors are wrapped. -/
def decodeMsg {α : Type} (codec : StreamCodec α) (stream : Bytes) : Except ScanErr (α × Bytes) :=
  match codec.decode stream with
  | some read => .ok read
  | none => .error .wrapped

variable {Entry Cache : Type} (wire : Wire Entry Cache) (cache : Cache)

/-- `dataUsageCache.serializeTo`. -/
def serialize : Bytes :=
  dataUsageCacheVerCurrent :: wire.compress (wire.caches.encode cache)

/-- `dataUsageCache.deserialize`. -/
def deserialize : Bytes → Option Cache
  | [] => none
  | ver :: rest =>
    if ver = dataUsageCacheVerCurrent then
      ((wire.decompress rest).bind wire.caches.decode).map Prod.fst
    else wire.older ver rest

theorem deserialize_serialize : deserialize wire (serialize wire cache) = some cache := by
  have hread := wire.caches.decode_encode cache []
  rw [List.append_nil] at hread
  rw [serialize, deserialize, if_pos rfl, wire.decompress_compress, Option.bind_some, hread]
  rfl

/-- The end of the client's `NSScanner`: the new cache is decoded, and an `io.EOF` is none. -/
def readCache (stream : Bytes) : ScanResult Entry Cache :=
  match decodeMsg wire.caches stream with
  | .ok _newCache => { updates := [], cache := cache, err := none }
  | .error err =>
    { updates := [], cache := cache, err := if err = .stream .eof then none else some err }

/-- The loop of the client's `NSScanner`, over what it finds in its pipe up to its end. -/
def readScan (pipeEnd : StreamErr) : Bytes → ScanResult Entry Cache
  | [] => { updates := [], cache := cache, err := some (.stream pipeEnd) }
  | upd :: stream =>
    if upd = mfalse then readCache wire cache stream
    else if upd = mtrue then
      match _hread : wire.entries.decode stream with
      | none => { updates := [], cache := cache, err := some .wrapped }
      | some (update, stream') =>
        let scanned := readScan pipeEnd stream'
        { scanned with updates := update :: scanned.updates }
    else { updates := [], cache := cache, err := some (.badPrefix upd) }
termination_by stream => stream.length
decreasing_by
  have := wire.entries.shorter _hread
  simp only [List.length_cons]
  omega

/-- `storageRESTClient.NSScanner`, on the answer of the call: an error, or a body that ends with
`io.EOF` or a failure. -/
def nsScanner (answer : Except StreamErr (Bytes × Option StreamErr)) : ScanResult Entry Cache :=
  match answer with
  | .error err => { updates := [], cache := cache, err := some (.stream err) }
  | .ok (respBody, failure) =>
    let piped := waitForHTTPStream failure respBody
    readScan wire cache (piped.2.getD .eof) piped.1

def updateBytes (update : Entry) : Bytes := mtrue :: wire.entries.encode update

def scanBytes (updates : List Entry) (usage : Cache) : Bytes :=
  updates.flatMap (updateBytes wire) ++ mfalse :: wire.caches.encode usage

variable {wire cache}

theorem scanBytes_cons (update : Entry) (updates : List Entry) (usage : Cache) :
    scanBytes wire (update :: updates) usage =
      mtrue :: (wire.entries.encode update ++ scanBytes wire updates usage) := by
  rw [scanBytes, List.flatMap_cons, List.append_assoc]
  rfl

theorem scanBytes_append (updates updates' : List Entry) (usage : Cache) :
    scanBytes wire (updates ++ updates') usage =
      updates.flatMap (updateBytes wire) ++ scanBytes wire updates' usage := by
  rw [scanBytes, scanBytes, List.flatMap_append, List.append_assoc]

theorem readScan_update {pipeEnd : StreamErr} {stream after : Bytes} {update : Entry}
    (hread : wire.entries.decode stream = some (update, after)) :
    readScan wire cache pipeEnd (mtrue :: stream) =
      { readScan wire cache pipeEnd after with
        updates := update :: (readScan wire cache pipeEnd after).updates } := by
  rw [readScan, if_neg (by decide), if_pos rfl]
  split
  next hnone =>
    rw [hread] at hnone
    cases hnone
  next update' after' hsome =>
    obtain ⟨rfl, rfl⟩ := Prod.mk.inj (Option.some.inj (hread.symm.trans hsome))
    rfl

theorem readScan_scanBytes (pipeEnd : StreamErr) (updates : List Entry) (usage : Cache) :
    readScan wire cache pipeEnd (scanBytes wire updates usage) =
      { updates := updates, cache := cache, err := none } := by
  induction updates with
  | nil =>
    have hread := wire.caches.decode_encode usage []
    rw [List.append_nil] at hread
    rw [scanBytes, List.flatMap_nil, List.nil_append, readScan, if_pos rfl, readCache, decodeMsg,
      hread]
  | cons update updates ih =>
    rw [scanBytes_cons, readScan_update (wire.entries.decode_encode update _), ih]

/-- A stream that is cut gives an error. -/
theorem readScan_cut (pipeEnd : StreamErr) {updates : List Entry} {usage : Cache}
    {cut missing : Bytes} (hcut : cut ++ missing = scanBytes wire updates usage)
    (hmissing : missing ≠ []) : (readScan wire cache pipeEnd cut).err ≠ none := by
  induction updates generalizing cut with
  | nil =>
    cases cut with
    | nil =>
      rw [readScan]
      nofun
    | cons upd stream =>
      rw [scanBytes, List.flatMap_nil, List.nil_append, List.cons_append] at hcut
      obtain ⟨rfl, hcache⟩ := List.cons.inj hcut
      rw [readScan, if_pos rfl, readCache, decodeMsg, wire.caches.decode_cut hcache hmissing]
      nofun
  | cons update updates ih =>
    cases cut with
    | nil =>
      rw [readScan]
      nofun
    | cons upd stream =>
      rw [scanBytes_cons, List.cons_append] at hcut
      obtain ⟨rfl, hrest⟩ := List.cons.inj hcut
      rcases wire.entries.prefix_cases hrest with ⟨hnone, -⟩ | ⟨after, rfl, hafter⟩
      · rw [readScan, if_neg (by decide), if_pos rfl]
        split
        next => nofun
        next update' after' hsome =>
          rw [hnone] at hsome
          cases hsome
      · rw [readScan_update (wire.entries.decode_encode update after)]
        exact ih hafter

end Fs3.Scanner

/-! ## The server side of the remote scanner

The handler runs the local scanner and streams what it sends and returns. One goroutine writes
the updates as they come through a channel, another runs the scanner and writes its result. They
share the writer and the variable `err`, and the response has a third one that sends the blocks
and fillers.
-/

namespace Fs3.Scanner

/-- What the local scanner does: the updates that it sends, and what it returns. -/
structure Scan (Entry Cache : Type) where
  updates : List Entry
  usage : Cache
  err : Option Bytes

/-- Where the goroutine that writes the updates stands. -/
inductive WriterPc (Entry : Type) where
  | idle
  | received (update : Entry)
  | flagged (update : Entry)
  | encoded
  | flushed
  | done

/-- Where the handler itself stands: the scanner runs; it has returned; its error is sent; the
updates are waited for; the end of the updates is written, then the cache; the handler is done. -/
inductive MainPc where
  | scanning
  | returned
  | failing
  | waiting
  | flagged
  | encoded
  | finished
  deriving DecidableEq

/-- A handler that runs: what its scanner has still to send and will return, the channel of
updates, the variable `err`, what is written and not passed on, and the response. -/
structure HandlerState (Entry Cache : Type) where
  scan : Scan Entry Cache
  toSend : List Entry
  channel : List Entry := []
  closed : Bool := false
  err : Option Bytes := none
  writer : WriterPc Entry := .idle
  main : MainPc := .scanning
  buffered : Bytes := []
  frames : List Frame := []
  streamDone : Bool := false

/-- What can happen next. -/
inductive HandlerEvent where
  | tick
  | pass (n : Nat)
  | send
  | finishScan
  | receive
  | writeBool
  | encodeUpdate
  | flush
  | checkUpdate
  | checkScan
  | fail
  | writeEnd
  | encodeUsage
  | close

variable {Entry Cache : Type}

/-- `NSScannerHandler` up to the call of the scanner, on the body of a request. -/
def handlerStart (wire : Wire Entry Cache) (scanner : Cache → Scan Entry Cache) (request : Bytes) :
    Option (HandlerState Entry Cache) :=
  (deserialize wire request).map fun cache =>
    { scan := scanner cache, toSend := (scanner cache).updates }

namespace HandlerState

variable (wire : Wire Entry Cache) (s : HandlerState Entry Cache)

/-- `CloseWithError`; only the first one has an effect. -/
def closeWithError (err : Option Bytes) : HandlerState Entry Cache :=
  if s.streamDone then s else { s with frames := s.frames ++ [.done err], streamDone := true }

def tick : HandlerState Entry Cache :=
  if s.streamDone then s else { s with frames := s.frames ++ [.filler] }

def pass (n : Nat) : HandlerState Entry Cache :=
  if s.streamDone = false ∧ 0 < n ∧ n ≤ s.buffered.length ∧ n < 2 ^ 32 then
    { s with
      frames := s.frames ++ [.block (s.buffered.take n)]
      buffered := s.buffered.drop n }
  else s

def send : HandlerState Entry Cache :=
  match s.main, s.toSend, s.channel with
  | .scanning, update :: rest, [] => { s with toSend := rest, channel := [update] }
  | _, _, _ => s

def finishScan : HandlerState Entry Cache :=
  match s.main, s.toSend with
  | .scanning, [] => { s with closed := true, err := s.scan.err, main := .returned }
  | _, _ => s

def receive : HandlerState Entry Cache :=
  match s.writer, s.channel with
  | .idle, update :: rest => { s with channel := rest, writer := .received update }
  | .idle, [] => if s.closed then { s with writer := .done } else s
  | _, _ => s

/-- The flag of an update is written, and `err` gets the outcome. -/
def writeBool : HandlerState Entry Cache :=
  match s.writer with
  | .received update =>
    { s with buffered := s.buffered ++ [mtrue], err := none, writer := .flagged update }
  | _ => s

/-- The update is written, and `err` gets the outcome. -/
def encodeUpdate : HandlerState Entry Cache :=
  match s.writer with
  | .flagged update =>
    { s with
      buffered := s.buffered ++ wire.entries.encode update
      err := none
      writer := .encoded }
  | _ => s

def flush : HandlerState Entry Cache :=
  match s.writer with
  | .encoded => if s.buffered = [] ∨ s.streamDone = true then { s with writer := .flushed } else s
  | _ => s

/-- The goroutine of the updates looks at `err`. -/
def checkUpdate : HandlerState Entry Cache :=
  match s.writer with
  | .flushed =>
    if s.err = none then { s with writer := .idle }
    else { s.closeWithError s.err with writer := .done }
  | _ => s

/-- The handler looks at `err`. -/
def checkScan : HandlerState Entry Cache :=
  match s.main with
  | .returned => { s with main := if s.err = none then .waiting else .failing }
  | _ => s

def fail : HandlerState Entry Cache :=
  match s.main with
  | .failing => { s.closeWithError s.err with main := .finished }
  | _ => s

def writeEnd : HandlerState Entry Cache :=
  match s.main, s.writer with
  | .waiting, .done => { s with buffered := s.buffered ++ [mfalse], main := .flagged }
  | _, _ => s

def encodeUsage : HandlerState Entry Cache :=
  match s.main with
  | .flagged =>
    { s with buffered := s.buffered ++ wire.caches.encode s.scan.usage, main := .encoded }
  | _ => s

def close : HandlerState Entry Cache :=
  match s.main with
  | .encoded => if s.buffered = [] then { s.closeWithError none with main := .finished } else s
  | _ => s

def after : HandlerEvent → HandlerState Entry Cache
  | .tick => s.tick
  | .pass n => s.pass n
  | .send => s.send
  | .finishScan => s.finishScan
  | .receive => s.receive
  | .writeBool => s.writeBool
  | .encodeUpdate => s.encodeUpdate wire
  | .flush => s.flush
  | .checkUpdate => s.checkUpdate
  | .checkScan => s.checkScan
  | .fail => s.fail
  | .writeEnd => s.writeEnd
  | .encodeUsage => s.encodeUsage wire
  | .close => s.close

end HandlerState

end Fs3.Scanner
