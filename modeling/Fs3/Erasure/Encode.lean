import Fs3.Erasure.Decode
import Fs3.Erasure.Quorum
import Fs3.Foundation.Chunks

/-! # Encoding a part

A part is read in chunks of the size of a buffer. A drive whose writer has failed once is left out
from then on, and the part is given up when too few of them are left. -/

namespace Fs3

open Foundation

variable {ω : Type}

/-- The encoder of the erasure code. -/
structure ReedSolomonEncoder (drives dataBlocks : Nat) extends ReedSolomon drives dataBlocks where
  split : Bytes → Except StorageErr Bufs
  encode : Bufs → Except StorageErr Bufs
  splits : ∀ data : Bytes, data ≠ [] → ∃ shards padding, split data = .ok shards ∧
    (∀ i < drives, (shards i).length = data.length ⌈/⌉ dataBlocks) ∧
    (List.range dataBlocks).flatMap shards = data ++ List.replicate padding 0
  encodes : ∀ shards size, 0 < size → (∀ i < drives, (shards i).length = size) →
    ∃ out, encode shards = .ok out ∧ isCodeword out ∧ (∀ i < dataBlocks, out i = shards i) ∧
      ∀ i < drives, (out i).length = size

def encodeData {drives dataBlocks : Nat} (codec : ReedSolomonEncoder drives dataBlocks)
    (data : Bytes) : Except StorageErr Bufs :=
  if data.length = 0 then .ok fun _ => []
  else
    match codec.split data with
    | .error err => .error err
    | .ok encoded => codec.encode encoded

def errShortWrite : StorageErr := .unexpected "short write"

/-- What each writer does with a shard this time: how much of it it writes, and
an error. -/
abbrev WriteAnswers (ω : Type) := ω → Bytes → Nat × Option StorageErr

/-- The writers of the shards of a part, with the files they write. -/
structure ParallelWriter (ω : Type) where
  writers : List (Option ω)
  writeQuorum : Int
  errs : Nat → Option StorageErr
  files : Nat → Bytes

def newParallelWriter (writers : List (Option ω)) (writeQuorum : Int) : ParallelWriter ω where
  writers := writers
  writeQuorum := writeQuorum
  errs := fun _ => none
  files := fun _ => []

namespace ParallelWriter

def writeShard (p : ParallelWriter ω) (answers : WriteAnswers ω) (blocks : Bufs) (i : Nat) :
    Bytes × Option StorageErr :=
  match (p.writers[i]?).join with
  | none => (p.files i, some .errDiskNotFound)
  | some writer =>
    match p.errs i with
    | some err => (p.files i, some err)
    | none =>
      let (n, err) := answers writer (blocks i)
      (p.files i ++ (blocks i).take n,
        match err with
        | some err => some err
        | none => if n ≠ (blocks i).length then some errShortWrite else none)

def written (p : ParallelWriter ω) (answers : WriteAnswers ω) (blocks : Bufs) :
    ParallelWriter ω :=
  { p with
    errs := fun i => (p.writeShard answers blocks i).2
    files := fun i => (p.writeShard answers blocks i).1 }

def quorumErr (p : ParallelWriter ω) (orders : MapOrders) : Option StorageErr :=
  let errs := (List.range p.writers.length).map p.errs
  if p.writeQuorum ≤ errs.count none then none
  else reduceWriteQuorumErrs orders errs objectOpIgnoredErrs p.writeQuorum

end ParallelWriter

/-- The chunks of a source are encoded and written one after the other, with the writers at the end
and the number of bytes or an error. -/
inductive EncodeLoop {drives dataBlocks : Nat} (codec : ReedSolomonEncoder drives dataBlocks)
    (buf : Nat) : Bytes → Nat → ParallelWriter ω → Except StorageErr Nat → ParallelWriter ω →
      Prop where
  | readFails {src : Bytes} {total : Nat} {p : ParallelWriter ω} (err : StorageErr) :
      EncodeLoop codec buf src total p (.error err) p
  | eof {src : Bytes} {total : Nat} {p : ParallelWriter ω} :
      (src.take buf).length = 0 → total ≠ 0 → EncodeLoop codec buf src total p (.ok total) p
  | encodeFails {src : Bytes} {total : Nat} {p : ParallelWriter ω} {err : StorageErr} :
      ¬ ((src.take buf).length = 0 ∧ total ≠ 0) → encodeData codec (src.take buf) = .error err →
      EncodeLoop codec buf src total p (.error err) p
  | writeFails {src : Bytes} {total : Nat} {p : ParallelWriter ω} {blocks : Bufs}
      {err : StorageErr} (answers : WriteAnswers ω) (orders : MapOrders) :
      ¬ ((src.take buf).length = 0 ∧ total ≠ 0) → encodeData codec (src.take buf) = .ok blocks →
      (p.written answers blocks).quorumErr orders = some err →
      EncodeLoop codec buf src total p (.error err) (p.written answers blocks)
  | last {src : Bytes} {total : Nat} {p : ParallelWriter ω} {blocks : Bufs}
      (answers : WriteAnswers ω) (orders : MapOrders) :
      ¬ ((src.take buf).length = 0 ∧ total ≠ 0) → encodeData codec (src.take buf) = .ok blocks →
      (p.written answers blocks).quorumErr orders = none → (src.take buf).length < buf →
      EncodeLoop codec buf src total p (.ok (total + (src.take buf).length))
        (p.written answers blocks)
  | more {src : Bytes} {total : Nat} {p p' : ParallelWriter ω} {blocks : Bufs}
      {result : Except StorageErr Nat} (answers : WriteAnswers ω) (orders : MapOrders) :
      ¬ ((src.take buf).length = 0 ∧ total ≠ 0) → encodeData codec (src.take buf) = .ok blocks →
      (p.written answers blocks).quorumErr orders = none → ¬ (src.take buf).length < buf →
      EncodeLoop codec buf (src.drop buf) (total + (src.take buf).length)
        (p.written answers blocks) result p' →
      EncodeLoop codec buf src total p result p'

def Encodes {drives dataBlocks : Nat} (codec : ReedSolomonEncoder drives dataBlocks) (buf : Nat)
    (payload : Bytes) (writers : List (Option ω)) (quorum : Int) :
    Except StorageErr Nat → ParallelWriter ω → Prop :=
  EncodeLoop codec buf payload 0 (newParallelWriter writers quorum)

def shardOf {drives dataBlocks : Nat} (codec : ReedSolomonEncoder drives dataBlocks) (i : Nat)
    (data : Bytes) : Bytes :=
  match encodeData codec data with
  | .ok blocks => blocks i
  | .error _ => []

def shardFile {drives dataBlocks : Nat} (codec : ReedSolomonEncoder drives dataBlocks) (size : Nat)
    (payload : Bytes) (i : Nat) : Bytes :=
  eachChunk size (shardOf codec i) payload

/-! ## What is written -/

section Write

variable {p : ParallelWriter ω} {answers : WriteAnswers ω} {blocks : Bufs} {i : Nat}

theorem written_intact (hok : (p.written answers blocks).errs i = none) :
    p.errs i = none ∧ (p.written answers blocks).files i = p.files i ++ blocks i := by
  unfold ParallelWriter.written ParallelWriter.writeShard at hok ⊢
  simp only at hok ⊢
  cases hwriter : (p.writers[i]?).join with
  | none =>
    rw [hwriter] at hok
    exact nomatch hok
  | some writer =>
    cases herr : p.errs i with
    | some err =>
      rw [hwriter, herr] at hok
      exact nomatch hok
    | none =>
      rw [hwriter, herr] at hok
      simp only at hok ⊢
      cases hanswer : (answers writer (blocks i)).2 with
      | some err =>
        rw [hanswer] at hok
        exact nomatch hok
      | none =>
        rw [hanswer] at hok
        simp only [ite_eq_right_iff] at hok
        have hfull : (answers writer (blocks i)).1 = (blocks i).length := by
          by_contra hshort
          exact nomatch hok hshort
        rw [hfull, List.take_length]
        exact ⟨trivial, rfl⟩

end Write

section Files

variable {drives dataBlocks : Nat} {codec : ReedSolomonEncoder drives dataBlocks} {buf : Nat}
  {i : Nat}

theorem shardOf_eq {data : Bytes} {blocks : Bufs} (hencode : encodeData codec data = .ok blocks) :
    shardOf codec i data = blocks i := by
  unfold shardOf
  rw [hencode]

@[simp]
theorem shardOf_nil : shardOf codec i [] = [] := rfl

/-- A writer without an error at the end has appended the shards of everything
that was still to be read. -/
theorem EncodeLoop.files {src : Bytes} {total count : Nat} {p p' : ParallelWriter ω}
    {result : Except StorageErr Nat} (hbuf : 0 < buf)
    (hloop : EncodeLoop codec buf src total p result p') (hresult : result = .ok count)
    (hintact : p'.errs i = none) :
    p.errs i = none ∧ count = total + src.length ∧
      p'.files i = p.files i ++ eachChunk buf (shardOf codec i) src := by
  induction hloop with
  | readFails | encodeFails | writeFails => exact nomatch hresult
  | eof hempty _ =>
    obtain rfl := Except.ok.inj hresult
    obtain hsrc := List.take_eq_nil_iff.mp (List.length_eq_zero_iff.mp hempty)
    obtain rfl := hsrc.resolve_left hbuf.ne'
    rw [eachChunk_nil, List.append_nil]
    exact ⟨hintact, rfl, rfl⟩
  | @last src _ _ _ _ _ _ hencode _ hshort =>
    obtain rfl := Except.ok.inj hresult
    obtain ⟨herr, hfile⟩ := written_intact hintact
    have hle : src.length ≤ buf := by
      rw [List.length_take] at hshort
      omega
    refine ⟨herr, by rw [List.take_of_length_le hle], ?_⟩
    rw [hfile, eachChunk_of_length_le hbuf shardOf_nil hle, ← shardOf_eq hencode,
      List.take_of_length_le hle]
  | @more src _ _ _ _ _ _ _ _ hencode _ hfull _ ih =>
    obtain ⟨herr', hcount, hfile'⟩ := ih hresult hintact
    obtain ⟨herr, hfile⟩ := written_intact herr'
    have hle : buf ≤ src.length := by
      rw [List.length_take] at hfull
      omega
    have hne : src ≠ [] := List.ne_nil_of_length_pos (by omega)
    refine ⟨herr, ?_, ?_⟩
    · rw [hcount, List.length_take, List.length_drop]
      omega
    · rw [hfile', hfile, eachChunk_step hbuf hne, ← shardOf_eq hencode, List.append_assoc]

/-- The buffer of an encoding: as large as a block, or a part that fits into
both is read at once. -/
def BufFits (buf blockSize : Nat) (payload : Bytes) : Prop :=
  0 < buf ∧ (buf = blockSize ∨ payload.length ≤ buf ∧ payload.length ≤ blockSize)

theorem Encodes.shardFile {payload : Bytes} {writers : List (Option ω)} {quorum : Int}
    {count blockSize : Nat} {p : ParallelWriter ω} (hblock : 0 < blockSize)
    (hfits : BufFits buf blockSize payload)
    (hencodes : Encodes codec buf payload writers quorum (.ok count) p)
    (hintact : p.errs i = none) :
    p.files i = shardFile codec blockSize payload i := by
  obtain ⟨hbuf, hsize⟩ := hfits
  obtain ⟨_, _, hfile⟩ := EncodeLoop.files hbuf hencodes rfl hintact
  rw [hfile]
  change [] ++ _ = _
  rw [List.nil_append]
  rcases hsize with rfl | ⟨hle, hle'⟩
  · rfl
  · rw [Fs3.shardFile, eachChunk_of_length_le hbuf shardOf_nil hle,
      eachChunk_of_length_le hblock shardOf_nil hle']

end Files

end Fs3
