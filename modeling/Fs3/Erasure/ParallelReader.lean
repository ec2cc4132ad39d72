import Fs3.Foundation.Histories
import Fs3.Foundation.SwapChain
import Fs3.Storage.FileInfo

/-! # Reading shards in parallel

A read needs as many shards as the object has data blocks. -/

namespace Fs3

open Foundation (Runs Stuck SwapChain)

/-- How a part is cut: into blocks, and each block into data shards. -/
structure Erasure where
  dataBlocks : Nat
  parityBlocks : Nat
  blockSize : Int

def ceilFrac (numerator : Int) (denominator : Nat) : Int :=
  if denominator = 0 then 0
  else if 0 < numerator ∧ numerator % denominator ≠ 0 then numerator / denominator + 1
  else numerator / denominator

namespace Erasure

def shardSize (e : Erasure) : Int := ceilFrac e.blockSize e.dataBlocks

def shardFileSize (e : Erasure) (totalLength : Int) : Int :=
  if totalLength = 0 then 0
  else if totalLength = -1 then -1
  else
    totalLength / e.blockSize * e.shardSize + ceilFrac (totalLength % e.blockSize) e.dataBlocks

end Erasure

/-- The readers of the shards of a part, of any type. -/
structure ParallelReader (ρ : Type) where
  drives : Nat
  readers : Nat → Option ρ
  orgReaders : Nat → Option ρ
  dataBlocks : Nat
  offset : Int
  shardSize : Int
  shardFileSize : Int
  readerToBuf : Nat → Nat

variable {ρ : Type}

def newParallelReader (readers : List (Option ρ)) (e : Erasure) (offset totalLength : Int) :
    ParallelReader ρ where
  drives := readers.length
  readers := fun i => (readers[i]?).join
  orgReaders := fun i => (readers[i]?).join
  dataBlocks := e.dataBlocks
  offset := offset / e.blockSize * e.shardSize
  shardSize := e.shardSize
  shardFileSize := e.shardFileSize totalLength
  readerToBuf := id

namespace ParallelReader

def isPreferred (readers : Nat → Option ρ) (prefer : List Bool) (i : Nat) : Bool :=
  prefer[i]?.getD false && (readers i).isSome

/-- Move the reader at `i` to `next`, unless it is there. -/
def moveReader (p : ParallelReader ρ) (next i : Nat) : ParallelReader ρ :=
  if i = next then p
  else
    { p with
      readers := p.readers ∘ Equiv.swap next i
      readerToBuf := Function.update (Function.update p.readerToBuf next i) i next }

/-- Go through the positions before `n`; `next` is the next non-preferred one. -/
def preferLoop (p : ParallelReader ρ) (prefer : List Bool) : Nat → ParallelReader ρ × Nat
  | 0 => ({ p with readers := p.orgReaders }, 0)
  | i + 1 =>
    let (p', next) := preferLoop p prefer i
    if isPreferred p'.readers prefer i then (p'.moveReader next i, next + 1) else (p', next)

def preferReaders (p : ParallelReader ρ) (prefer : List Bool) : ParallelReader ρ :=
  if prefer.length ≠ p.drives then p else (p.preferLoop prefer p.drives).1

end ParallelReader

/-! ## One read -/

/-- What each reader answers this time: an error, or as many bytes as it is
asked for. -/
abbrev Answers (ρ : Type) :=
  ρ → (offset : Int) → (size : Nat) → Except StorageErr { bytes : Bytes // bytes.length = size }

def Answers.bytes? (answers : Answers ρ) (rr : ρ) (offset : Int) (size : Nat) : Option Bytes :=
  match answers rr offset size with
  | .ok bytes => some bytes.1
  | .error _ => none

/-- The buffers of the shards; an empty one is missing. -/
abbrev Bufs := Nat → Bytes

/-- A read in progress: the loop takes triggers from a queue, and the readers it
has started work on their own. -/
structure ReadState (ρ : Type) where
  reader : ParallelReader ρ
  newBuf : Bufs
  triggers : List Bool
  readerIndex : Nat
  running : List Nat
  looping : Bool
  missingPartsHeal : Bool
  bitrotHeal : Bool

/-- What a read returns: buffers unless too few shards were read, and an error,
which with buffers only asks for a repair. -/
structure ReadResult where
  bufs : Option Bufs
  err : Option StorageErr

namespace ParallelReader

def canDecode (p : ParallelReader ρ) (bufs : Bufs) : Bool :=
  decide (p.dataBlocks ≤ (List.range p.drives).countP fun i => bufs i ≠ [])

/-- The shard size of the next read, which is cut short at the end of the file. -/
def cutShardSize (p : ParallelReader ρ) : ParallelReader ρ :=
  if p.shardFileSize < p.offset + p.shardSize then
    { p with shardSize := p.shardFileSize - p.offset }
  else p

def startRead (p : ParallelReader ρ) : ReadState ρ where
  reader := p.cutShardSize
  newBuf := fun _ => []
  triggers := List.replicate p.dataBlocks true
  readerIndex := 0
  running := []
  looping := true
  missingPartsHeal := false
  bitrotHeal := false

end ParallelReader

namespace ReadState

def takeTrigger (s : ReadState ρ) : Option (ReadState ρ) :=
  if s.looping = false then none
  else
    match s.triggers with
    | [] => none
    | readTrigger :: triggers =>
      let s := { s with triggers := triggers }
      if s.reader.canDecode s.newBuf then some { s with looping := false }
      else if s.readerIndex = s.reader.drives then some { s with looping := false }
      else if readTrigger = false then some s
      else some { s with readerIndex := s.readerIndex + 1, running := s.readerIndex :: s.running }

/-- A started reader is done: with a shard, or with a trigger for another one. -/
def finishRead (answers : Answers ρ) (i : Nat) (s : ReadState ρ) : ReadState ρ :=
  let s := { s with running := s.running.erase i }
  match s.reader.readers i with
  | none => { s with triggers := s.triggers ++ [true] }
  | some rr =>
    let bufIdx := s.reader.readerToBuf i
    match answers rr s.reader.offset s.reader.shardSize.toNat with
    | .error err =>
      { s with
        reader :=
          { s.reader with
            readers := Function.update s.reader.readers i none
            orgReaders := Function.update s.reader.orgReaders bufIdx none }
        missingPartsHeal := s.missingPartsHeal || err == .errFileNotFound
        bitrotHeal := s.bitrotHeal || err == .errFileCorrupt
        triggers := s.triggers ++ [true] }
    | .ok bytes =>
      { s with
        newBuf := Function.update s.newBuf bufIdx bytes
        triggers := s.triggers ++ [false] }

def isDone (s : ReadState ρ) : Prop := s.looping = false ∧ s.running = []

def result (s : ReadState ρ) : ReadResult × ParallelReader ρ :=
  if s.reader.canDecode s.newBuf then
    ({ bufs := some s.newBuf
       err :=
         if s.missingPartsHeal then some .errFileNotFound
         else if s.bitrotHeal then some .errFileCorrupt
         else none },
      { s.reader with offset := s.reader.offset + s.reader.shardSize })
  else ({ bufs := none, err := some .errErasureReadQuorum }, s.reader)

end ReadState

/-- What can happen during a read: the loop and the readers take turns in any
order. -/
inductive ReadStep (answers : Answers ρ) : ReadState ρ → ReadState ρ → Prop where
  | trigger {s s' : ReadState ρ} : s.takeTrigger = some s' → ReadStep answers s s'
  | finish {s : ReadState ρ} (i : Nat) : i ∈ s.running →
      ReadStep answers s (s.finishRead answers i)

/-- A whole read, with what it returns and the readers it leaves. -/
inductive ParallelReader.Reads (p : ParallelReader ρ) (answers : Answers ρ) :
    ReadResult → ParallelReader ρ → Prop where
  | empty : p.cutShardSize.shardSize = 0 →
      p.Reads answers { bufs := some fun _ => [], err := none } p.cutShardSize
  | done {s : ReadState ρ} : p.cutShardSize.shardSize ≠ 0 →
      Runs (ReadStep answers) p.startRead s → s.isDone → p.Reads answers s.result.1 s.result.2

end Fs3
