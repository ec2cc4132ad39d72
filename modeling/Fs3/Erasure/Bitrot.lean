import Fs3.Erasure.Decode
import Fs3.Foundation.Chunks

/-! # Shard files with hashes

A shard file is written block by block, each block after its hash, so that a range of the file can
be checked without the rest. -/

namespace Fs3

open Foundation (chunks packages)

/-- `ShardFileOffset`: where the reading of a shard file ends. -/
def Erasure.shardFileOffset (e : Erasure) (startOffset length totalLength : Int) : Int :=
  let shardSize := e.shardSize
  let shardFileSize := e.shardFileSize totalLength
  let endShard := (startOffset + length) / e.blockSize
  let tillOffset := endShard * shardSize + shardSize
  if tillOffset > shardFileSize then shardFileSize else tillOffset

/-- What a bitrot algorithm makes: a `hash.Hash`, whose sums have one length. -/
structure BitrotHash where
  size : Nat
  sum : Bytes → Bytes
  length_sum : ∀ data, (sum data).length = size

/-- `algo.New()`. -/
abbrev NewBitrotHash := BitrotAlgorithm → BitrotHash

inductive BitrotErr where
  | eof
  | unexpectedEOF
  | storage (err : StorageErr)
  deriving DecidableEq, Repr

def bitrotShardFileSize (new : NewBitrotHash) (size : Int) (shardSize : Nat)
    (algo : BitrotAlgorithm) : Int :=
  if algo ≠ .highwayHash256S then size
  else ceilFrac size shardSize * (new algo).size + size

/-- `streamingBitrotWriter.Write`, after what has been written. -/
def streamingBitrotWrite (h : BitrotHash) (file p : Bytes) : Bytes :=
  if p.length = 0 then file else file ++ h.sum p ++ p

def bitrotFile (h : BitrotHash) (shardSize : Nat) (payload : Bytes) : Bytes :=
  (chunks shardSize payload).foldl (streamingBitrotWrite h) []

/-! ## Reading -/

/-- `io.ReadFull`, and what is left of the stream. -/
def readFullBlock (size : Nat) (stream : Bytes) : Except BitrotErr Bytes × Bytes :=
  if size ≤ stream.length then (.ok (stream.take size), stream.drop size)
  else if stream.length = 0 then (.error .eof, [])
  else (.error .unexpectedEOF, [])

/-- `ReadFileStream` of a drive that may have the file. -/
def readFileStream (file : Option Bytes) (offset : Nat) (length : Int) : Except BitrotErr Bytes :=
  match file with
  | none => .error (.storage .errFileNotFound)
  | some bytes => .ok ((bytes.drop offset).take length.toNat)

/-- `streamingBitrotReader`, with the file on the drive; `rc` is what is left of the stream. -/
structure StreamingBitrotReader where
  disk : Option Bytes
  data : Bytes
  rc : Option Bytes := none
  tillOffset : Int
  currOffset : Nat := 0
  h : BitrotHash
  shardSize : Nat

def newStreamingBitrotReader (disk : Option Bytes) (data : Bytes) (tillOffset : Int)
    (h : BitrotHash) (shardSize : Nat) : StreamingBitrotReader where
  disk := disk
  data := data
  tillOffset := ceilFrac tillOffset shardSize * h.size + tillOffset
  h := h
  shardSize := shardSize

namespace StreamingBitrotReader

/-- The stream from an offset of the payload on: from the drive where no data is inline. -/
def openStream (b : StreamingBitrotReader) (offset : Nat) : Except BitrotErr Bytes :=
  let streamOffset := offset / b.shardSize * b.h.size + offset
  if b.data.length = 0 ∧ b.tillOffset ≠ streamOffset then
    readFileStream b.disk streamOffset (b.tillOffset - streamOffset)
  else .ok ((b.data.drop streamOffset).take (b.tillOffset - streamOffset).toNat)

/-- The first `ReadAt` opens the stream. -/
def opened (b : StreamingBitrotReader) (offset : Nat) : Except BitrotErr StreamingBitrotReader :=
  match b.rc with
  | some _ => .ok b
  | none =>
    match b.openStream offset with
    | .error err => .error err
    | .ok rc => .ok { b with currOffset := offset, rc := some rc }

/-- `ReadAt` into a buffer of some size. -/
def readAt (b : StreamingBitrotReader) (size offset : Nat) :
    Except BitrotErr Bytes × StreamingBitrotReader :=
  if offset % b.shardSize ≠ 0 then (.error (.storage errUnexpected), b)
  else
    match b.opened offset with
    | .error err => (.error err, { b with currOffset := offset })
    | .ok b =>
      if offset ≠ b.currOffset then (.error (.storage errUnexpected), b)
      else
        match readFullBlock b.h.size (b.rc.getD []) with
        | (.error err, rc) => (.error err, { b with rc := some rc })
        | (.ok hashBytes, rc) =>
          match readFullBlock size rc with
          | (.error err, rc) => (.error err, { b with rc := some rc })
          | (.ok buf, rc) =>
            if b.h.sum buf ≠ hashBytes then
              (.error (.storage .errFileCorrupt), { b with rc := some rc })
            else (.ok buf, { b with rc := some rc, currOffset := b.currOffset + size })

/-- One `ReadAt` after the other, each where the one before ended. -/
def readBlocks (b : StreamingBitrotReader) (offset : Nat) : List Nat → Except BitrotErr Bytes
  | [] => .ok []
  | size :: sizes =>
    match b.readAt size offset with
    | (.error err, _) => .error err
    | (.ok buf, b) =>
      match b.readBlocks (offset + size) sizes with
      | .error err => .error err
      | .ok bytes => .ok (buf ++ bytes)

end StreamingBitrotReader

def blockSizes (shardSize count : Nat) : List Nat :=
  (List.range (count ⌈/⌉ shardSize)).map fun k => min shardSize (count - k * shardSize)

/-- The loop of `bitrotVerify` with some fuel; `none` is a loop that has not ended. -/
def verifyBlocks (h : BitrotHash) : Nat → Bytes → Int → Int → Option (Except BitrotErr Unit)
  | fuel, r, left, shardSize =>
    if left ≤ 0 then some (.ok ())
    else
      match fuel with
      | 0 => none
      | fuel + 1 =>
        match readFullBlock h.size r with
        | (.error err, _) => some (.error err)
        | (.ok hashBuf, r) =>
          let left := left - h.size
          let shardSize := if left < shardSize then left else shardSize
          let block := r.take shardSize.toNat
          if h.sum block ≠ hashBuf then some (.error (.storage .errFileCorrupt))
          else
            verifyBlocks h fuel (r.drop shardSize.toNat) (left - block.length) shardSize

def bitrotVerify (new : NewBitrotHash) (r : Bytes) (wantSize partSize : Int)
    (algo : BitrotAlgorithm) (want : Bytes) (shardSize : Nat) : Option (Except BitrotErr Unit) :=
  if algo ≠ .highwayHash256S then
    if (r.length : Int) ≠ wantSize then some (.error (.storage .errFileCorrupt))
    else if (new algo).sum r ≠ want then some (.error (.storage .errFileCorrupt))
    else some (.ok ())
  else if wantSize ≠ bitrotShardFileSize new partSize shardSize algo then
    some (.error (.storage .errFileCorrupt))
  else verifyBlocks (new algo) (r.length + 1) r wantSize shardSize

/-- `xlStorage.bitrotVerify` of an open file, whose size is the one it has. -/
def verifyShardFile (new : NewBitrotHash) (file : Bytes) (partSize : Int)
    (algo : BitrotAlgorithm) (sum : Bytes) (shardSize : Nat) : Option (Except BitrotErr Unit) :=
  bitrotVerify new file file.length partSize algo sum shardSize

section File

variable {h : BitrotHash} {shardSize : Nat}

theorem streamingBitrotWrite_of_ne_nil {file p : Bytes} (hp : p ≠ []) :
    streamingBitrotWrite h file p = file ++ (h.sum p ++ p) := by
  rw [streamingBitrotWrite, if_neg (mt List.length_eq_zero_iff.mp hp), List.append_assoc]

theorem foldl_streamingBitrotWrite {blocks : List Bytes} (hblocks : ∀ p ∈ blocks, p ≠ [])
    (file : Bytes) :
    blocks.foldl (streamingBitrotWrite h) file = file ++ blocks.flatMap fun p => h.sum p ++ p := by
  induction blocks generalizing file with
  | nil => rw [List.foldl_nil, List.flatMap_nil, List.append_nil]
  | cons p blocks ih =>
    rw [List.foldl_cons, streamingBitrotWrite_of_ne_nil (hblocks p List.mem_cons_self),
      ih fun q hq => hblocks q (List.mem_cons_of_mem p hq), List.flatMap_cons, List.append_assoc]

theorem chunks_ne_nil {payload : Bytes} (hsize : 0 < shardSize) :
    ∀ p ∈ chunks shardSize payload, p ≠ [] := by
  induction payload using Foundation.chunks_induction hsize with
  | nil =>
    intro p hp
    rw [Foundation.chunks_nil] at hp
    exact absurd hp List.not_mem_nil
  | step payload hne ih =>
    intro p hp
    rw [Foundation.chunks_step hsize hne] at hp
    cases hp with
    | head => exact mt List.take_eq_nil_iff.mp (not_or.mpr ⟨hsize.ne', hne⟩)
    | tail _ hp => exact ih p hp

theorem bitrotFile_eq_flatMap (hsize : 0 < shardSize) (payload : Bytes) :
    bitrotFile h shardSize payload =
      (chunks shardSize payload).flatMap fun p => h.sum p ++ p := by
  rw [bitrotFile, foldl_streamingBitrotWrite (chunks_ne_nil hsize), List.nil_append]

@[simp]
theorem bitrotFile_nil : bitrotFile h shardSize [] = [] := by
  rw [bitrotFile, Foundation.chunks_nil, List.foldl_nil]

theorem bitrotFile_step (hsize : 0 < shardSize) {payload : Bytes} (hne : payload ≠ []) :
    bitrotFile h shardSize payload =
      h.sum (payload.take shardSize) ++ payload.take shardSize ++
        bitrotFile h shardSize (payload.drop shardSize) := by
  rw [bitrotFile_eq_flatMap hsize, Foundation.chunks_step hsize hne, List.flatMap_cons,
    ← bitrotFile_eq_flatMap hsize]

theorem bitrotFile_eq_packages (hsize : 0 < shardSize) (payload : Bytes) :
    bitrotFile h shardSize payload =
      (packages (fun _ p => h.sum p ++ p) shardSize 0 payload).flatten := by
  rw [bitrotFile_eq_flatMap hsize, Foundation.packages_const, List.flatMap_def]

theorem length_pack (n : Nat) (p : Bytes) :
    ((fun (_ : Nat) p => h.sum p ++ p) n p).length = p.length + h.size := by
  rw [List.length_append, h.length_sum, Nat.add_comm]

theorem length_bitrotFile (hsize : 0 < shardSize) (payload : Bytes) :
    (bitrotFile h shardSize payload).length =
      payload.length + h.size * (payload.length ⌈/⌉ shardSize) := by
  rw [bitrotFile_eq_packages hsize, Foundation.length_packages hsize length_pack]

theorem bitrotFile_append (hsize : 0 < shardSize) {front rest : Bytes}
    (hedge : shardSize ∣ front.length ∨ rest = []) :
    bitrotFile h shardSize (front ++ rest) =
      bitrotFile h shardSize front ++ bitrotFile h shardSize rest := by
  rcases hedge with ⟨k, hk⟩ | rfl
  · have hfront : (front ++ rest).take (k * shardSize) = front := by
      rw [Nat.mul_comm, ← hk, List.take_left]
    have hrest : (front ++ rest).drop (k * shardSize) = rest := by
      rw [Nat.mul_comm, ← hk, List.drop_left]
    have hcut := List.take_append_drop k (chunks shardSize (front ++ rest))
    rw [← Foundation.chunks_take hsize, ← Foundation.chunks_drop hsize, hfront, hrest] at hcut
    rw [bitrotFile_eq_flatMap hsize, ← hcut, List.flatMap_append, ← bitrotFile_eq_flatMap hsize,
      ← bitrotFile_eq_flatMap hsize]
  · rw [List.append_nil, bitrotFile_nil, List.append_nil]

end File

end Fs3
