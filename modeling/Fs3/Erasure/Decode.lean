import Fs3.Erasure.ShardSlots

/-! # Decoding with preferred readers

A range of a part is read block by block: the shards of a block are read, the missing data shards
are reconstructed, and the bytes that are asked for are written out. -/

namespace Fs3

open Foundation (Runs Stuck SwapChain)

variable {ρ : Type}

/-- The codec of the erasure code. Any `dataBlocks` of the shards of a block
give back its data shards; a missing shard is an empty one. -/
structure ReedSolomon (drives dataBlocks : Nat) where
  /-- The shards of a block, as the encoder makes them. -/
  isCodeword : Bufs → Prop
  reconstructData : Bufs → Except StorageErr Bufs
  reconstructs : ∀ shards bufs, isCodeword shards →
    (∀ i < drives, bufs i = [] ∨ bufs i = shards i) →
    dataBlocks ≤ (List.range drives).countP (fun i => bufs i ≠ []) →
    ∃ out, reconstructData bufs = .ok out ∧ ∀ i < dataBlocks, out i = shards i

def decodeDataBlocks {drives dataBlocks : Nat} (codec : ReedSolomon drives dataBlocks)
    (bufs : Bufs) : Except StorageErr Bufs :=
  -- The loop stops at the first missing shard.
  let isZero := if (List.range drives).any fun i => bufs i = [] then 1 else 0
  if isZero = 0 ∨ isZero = drives then .ok bufs else codec.reconstructData bufs

def writeBlocks : List Bytes → Nat → Nat → Bytes
  | [], _, _ => []
  | block :: blocks, offset, write =>
    if block.length ≤ offset then writeBlocks blocks (offset - block.length) write
    else if write < (block.drop offset).length then (block.drop offset).take write
    else block.drop offset ++ writeBlocks blocks 0 (write - (block.drop offset).length)

def errUnexpected : StorageErr :=
  .unexpected
    "unexpected error, please report this issue at https://github.com/minio/minio/issues"

def errLessData : StorageErr := .unexpected "less data available than what was requested"

/-- The errors of the codec for too few shards and for too few bytes in them. -/
def errTooFewShards : StorageErr := .unexpected "too few shards given"

def errShortData : StorageErr :=
  .unexpected "not enough data to fill the number of requested shards"

def writeDataBlocks (enBlocks : Bufs) (drives dataBlocks : Nat) (offset length : Int) :
    Except StorageErr Bytes :=
  let blocks := (List.range dataBlocks).map enBlocks
  if offset < 0 ∨ length < 0 then .error errUnexpected
  else if drives < dataBlocks then .error errTooFewShards
  else if (blocks.map List.length).sum < length then .error errShortData
  else .ok (writeBlocks blocks offset.toNat length.toNat)

def decodeBlock {drives dataBlocks : Nat} (codec : ReedSolomon drives dataBlocks) (bufs : Bufs)
    (range : Int × Int) : Except StorageErr Bytes :=
  match decodeDataBlocks codec bufs with
  | .error err => .error err
  | .ok decoded => writeDataBlocks decoded drives dataBlocks range.1 range.2

namespace Erasure

def blockRange (e : Erasure) (offset length block : Int) : Int × Int :=
  let startBlock := offset / e.blockSize
  let endBlock := (offset + length) / e.blockSize
  if startBlock = endBlock then (offset % e.blockSize, length)
  else if block = startBlock then
    (offset % e.blockSize, e.blockSize - offset % e.blockSize)
  else if block = endBlock then (0, (offset + length) % e.blockSize)
  else (0, e.blockSize)

def blockRanges (e : Erasure) (offset length : Int) : List (Int × Int) :=
  let startBlock := offset / e.blockSize
  let endBlock := (offset + length) / e.blockSize
  ((List.range (endBlock - startBlock + 1).toNat).map fun (i : Nat) =>
    e.blockRange offset length (startBlock + i)).takeWhile fun range => range.2 ≠ 0

end Erasure

def keepErr (derr err : Option StorageErr) : Option StorageErr :=
  if isErr err [.errFileNotFound] || isErr err [.errFileCorrupt] then derr <|> err else derr

/-- Decode blocks one after the other, with what is written and how it ends: the
error that stops it, or the error that asks for a repair. The readers may
answer any time in any way that is `possible`. -/
inductive DecodeBlocks {drives dataBlocks : Nat} (codec : ReedSolomon drives dataBlocks)
    (possible : Answers ρ → Prop) :
    ParallelReader ρ → Option StorageErr → List (Int × Int) → Bytes →
      Except StorageErr (Option StorageErr) → Prop where
  | done {p : ParallelReader ρ} {derr : Option StorageErr} :
      DecodeBlocks codec possible p derr [] [] (.ok derr)
  | readFails {p p' : ParallelReader ρ} {derr : Option StorageErr} {answers : Answers ρ}
      {err : StorageErr} {range : Int × Int} {ranges : List (Int × Int)} :
      possible answers → p.Reads answers { bufs := none, err := some err } p' →
      DecodeBlocks codec possible p derr (range :: ranges) [] (.error err)
  | blockFails {p p' : ParallelReader ρ} {derr readErr : Option StorageErr}
      {answers : Answers ρ} {bufs : Bufs} {err : StorageErr} {range : Int × Int}
      {ranges : List (Int × Int)} :
      possible answers → p.Reads answers { bufs := some bufs, err := readErr } p' →
      decodeBlock codec bufs range = .error err →
      DecodeBlocks codec possible p derr (range :: ranges) [] (.error err)
  | block {p p' : ParallelReader ρ} {derr readErr : Option StorageErr} {answers : Answers ρ}
      {bufs : Bufs} {bytes rest : Bytes} {range : Int × Int} {ranges : List (Int × Int)}
      {outcome : Except StorageErr (Option StorageErr)} :
      possible answers → p.Reads answers { bufs := some bufs, err := readErr } p' →
      decodeBlock codec bufs range = .ok bytes →
      DecodeBlocks codec possible p' (keepErr derr readErr) ranges rest outcome →
      DecodeBlocks codec possible p derr (range :: ranges) (bytes ++ rest) outcome

/-- Decode a range of a part with some readers preferred: what is written, and
how it ends. -/
inductive Decodes (e : Erasure) (readers : List (Option ρ))
    (codec : ReedSolomon readers.length e.dataBlocks) (possible : Answers ρ → Prop)
    (offset length totalLength : Int) (prefer : List Bool) :
    Bytes → Except StorageErr (Option StorageErr) → Prop where
  | invalid : offset < 0 ∨ length < 0 ∨ totalLength < offset + length →
      Decodes e readers codec possible offset length totalLength prefer []
        (.error .errInvalidArgument)
  | nothing : 0 ≤ offset → length = 0 → offset ≤ totalLength →
      Decodes e readers codec possible offset length totalLength prefer [] (.ok none)
  | stops {written : Bytes} {err : StorageErr} :
      0 ≤ offset → 0 < length → offset + length ≤ totalLength →
      DecodeBlocks codec possible
        ((newParallelReader readers e offset totalLength).preferReaders prefer) none
        (e.blockRanges offset length) written (.error err) →
      Decodes e readers codec possible offset length totalLength prefer written (.error err)
  | ends {written : Bytes} {derr : Option StorageErr} :
      0 ≤ offset → 0 < length → offset + length ≤ totalLength →
      DecodeBlocks codec possible
        ((newParallelReader readers e offset totalLength).preferReaders prefer) none
        (e.blockRanges offset length) written (.ok derr) →
      Decodes e readers codec possible offset length totalLength prefer written
        (if (written.length : Int) ≠ length then .error errLessData else .ok derr)

def Honest (content : ρ → Int → Nat → Bytes) (answers : Answers ρ) : Prop :=
  ∀ rr offset size bytes, answers.bytes? rr offset size = some bytes →
    bytes = content rr offset size

def Encoded {drives dataBlocks : Nat} (codec : ReedSolomon drives dataBlocks)
    (org : Nat → Option ρ) (content : ρ → Int → Nat → Bytes) : Prop :=
  ∀ offset size, ∃ shards, codec.isCodeword shards ∧
    ∀ i rr, org i = some rr → content rr offset size = shards i

section Block

variable {drives dataBlocks : Nat} {codec : ReedSolomon drives dataBlocks}

theorem decodeDataBlocks_of_own {shards bufs : Bufs} (hcodeword : codec.isCodeword shards)
    (hdata : 0 < dataBlocks) (hle : dataBlocks ≤ drives)
    (hown : ∀ i < drives, bufs i = [] ∨ bufs i = shards i)
    (hcount : dataBlocks ≤ (List.range drives).countP fun i => bufs i ≠ []) :
    ∃ out, decodeDataBlocks codec bufs = .ok out ∧ ∀ i < dataBlocks, out i = shards i := by
  unfold decodeDataBlocks
  by_cases hmissing : (List.range drives).any (fun i => bufs i = []) = true
  · by_cases hone : 1 = drives
    · -- With one drive its shard is there, so none is missing.
      subst hone
      have hpos : 0 < (List.range 1).countP fun i => bufs i ≠ [] := by omega
      obtain ⟨i, hi, hfull⟩ := List.countP_pos_iff.mp hpos
      obtain ⟨k, hk, hempty⟩ := List.any_eq_true.mp hmissing
      have hik : i = k := by
        rw [List.mem_range] at hi hk
        omega
      subst hik
      simp only [decide_eq_true_eq] at hfull hempty
      exact absurd hempty hfull
    · simp only [hmissing, if_true, Nat.one_ne_zero, hone, or_self, if_false]
      exact codec.reconstructs shards bufs hcodeword hown hcount
  · simp only [hmissing, Bool.false_eq_true, if_false, true_or, if_true]
    refine ⟨bufs, rfl, fun i hi => ?_⟩
    rcases hown i (by omega) with hempty | hshard
    · refine absurd ?_ hmissing
      rw [List.any_eq_true]
      exact ⟨i, List.mem_range.mpr (by omega), decide_eq_true hempty⟩
    · exact hshard

theorem writeDataBlocks_congr {bufs bufs' : Bufs}
    (hsame : ∀ i < dataBlocks, bufs i = bufs' i) (offset length : Int) :
    writeDataBlocks bufs drives dataBlocks offset length =
      writeDataBlocks bufs' drives dataBlocks offset length := by
  have hblocks : (List.range dataBlocks).map bufs = (List.range dataBlocks).map bufs' :=
    List.map_congr_left fun i hi => hsame i (List.mem_range.mp hi)
  unfold writeDataBlocks
  rw [hblocks]

end Block

/-! ## The bytes of a range -/

section Range

variable {drives dataBlocks : Nat} {codec : ReedSolomon drives dataBlocks}
  {org : Nat → Option ρ} {content : ρ → Int → Nat → Bytes}

/-- Aligned readers of the shards that `org` has readers of. -/
structure ReadsShards (drives dataBlocks : Nat) (org : Nat → Option ρ) (p : ParallelReader ρ) :
    Prop where
  aligned : p.Aligned
  keeps : p.KeepsReaders org
  drives : p.drives = drives
  dataBlocks : p.dataBlocks = dataBlocks

theorem decodeDataBlocks_of_reads {p : ParallelReader ρ} {answers : Answers ρ} {bufs shards : Bufs}
    (hdata : 0 < dataBlocks) (hp : ReadsShards drives dataBlocks org p)
    (hhonest : Honest content answers) (hcodeword : codec.isCodeword shards)
    (hshards : ∀ i rr, org i = some rr →
      content rr p.offset p.cutShardSize.shardSize.toNat = shards i)
    (hown : OwnBufs p answers bufs)
    (hcount : p.dataBlocks ≤ (List.range p.drives).countP fun i => bufs i ≠ []) :
    ∃ out, decodeDataBlocks codec bufs = .ok out ∧ ∀ i < dataBlocks, out i = shards i := by
  rw [hp.drives, hp.dataBlocks] at hcount
  have hle : dataBlocks ≤ drives := by
    have hbound : (List.range drives).countP (fun i => bufs i ≠ []) ≤ (List.range drives).length :=
      List.countP_le_length
    rw [List.length_range] at hbound
    omega
  refine decodeDataBlocks_of_own hcodeword hdata hle (fun i _ => ?_) hcount
  by_cases hempty : bufs i = []
  · exact Or.inl hempty
  · obtain ⟨rr, horg, hbytes⟩ := hown i hempty
    right
    rw [hhonest rr _ _ _ hbytes]
    exact hshards i rr (hp.keeps i rr horg)

/-- Two reads at one place, in any order of the readers, with any of them failing
and any answering, write the same bytes if they both return buffers. -/
theorem decodeBlock_eq {p q p' q' : ParallelReader ρ} {answers answers' : Answers ρ}
    {bufs bufs' : Bufs} {err err' : Option StorageErr} (hdata : 0 < dataBlocks)
    (hencoded : Encoded codec org content)
    (hp : ReadsShards drives dataBlocks org p) (hq : ReadsShards drives dataBlocks org q)
    (hshape : p.SameShape q) (hhonest : Honest content answers) (hhonest' : Honest content answers')
    (hreads : p.Reads answers { bufs := some bufs, err := err } p')
    (hreads' : q.Reads answers' { bufs := some bufs', err := err' } q') (range : Int × Int) :
    decodeBlock codec bufs range = decodeBlock codec bufs' range := by
  have hsize : q.cutShardSize.shardSize = p.cutShardSize.shardSize :=
    hshape.cutShardSize.shardSize
  rcases hreads.cases hp.aligned with hnone | ⟨found, hfound, _, hcases⟩
  · exact nomatch hnone
  rcases hreads'.cases hq.aligned with hnone | ⟨found', hfound', _, hcases'⟩
  · exact nomatch hnone
  obtain rfl : bufs = found := Option.some.inj hfound
  obtain rfl : bufs' = found' := Option.some.inj hfound'
  rcases hcases with ⟨hzero, rfl⟩ | ⟨hne, hown, hcount⟩
  · rcases hcases' with ⟨_, rfl⟩ | ⟨hne', _⟩
    · rfl
    · exact absurd (hsize.trans hzero) hne'
  · rcases hcases' with ⟨hzero', _⟩ | ⟨_, hown', hcount'⟩
    · exact absurd (hsize.symm.trans hzero') hne
    · obtain ⟨shards, hcodeword, hshards⟩ :=
        hencoded p.offset p.cutShardSize.shardSize.toNat
      obtain ⟨out, hout, hsame⟩ :=
        decodeDataBlocks_of_reads hdata hp hhonest hcodeword hshards hown hcount
      obtain ⟨out', hout', hsame'⟩ := decodeDataBlocks_of_reads hdata hq hhonest' hcodeword
        (by rw [hshape.offset, hsize]; exact hshards) hown' hcount'
      unfold decodeBlock
      rw [hout, hout']
      exact writeDataBlocks_congr (fun i hi => (hsame i hi).trans (hsame' i hi).symm) _ _

theorem ReadsShards.next {p p' : ParallelReader ρ} {answers : Answers ρ} {bufs : Bufs}
    {err : Option StorageErr} (hp : ReadsShards drives dataBlocks org p)
    (hreads : p.Reads answers { bufs := some bufs, err := err } p') :
    ReadsShards drives dataBlocks org p' ∧ p.moveOn.SameShape p' := by
  obtain ⟨haligned, hkeeps, _⟩ := hreads.aligned hp.aligned
  rcases hreads.cases hp.aligned with hnone | ⟨_, _, hshape, _⟩
  · exact nomatch hnone
  · have hcut := cutShardSize_eq p
    refine ⟨⟨haligned, fun i rr h => hp.keeps i rr (hkeeps i rr h), ?_, ?_⟩, hshape⟩
    · rw [hshape.drives]
      change p.cutShardSize.drives = drives
      rw [hcut]
      exact hp.drives
    · rw [hshape.dataBlocks]
      change p.cutShardSize.dataBlocks = dataBlocks
      rw [hcut]
      exact hp.dataBlocks

/-- Two runs over the same blocks write the same bytes as far as both of them
get, and all of them where both get to the end. -/
theorem decodeBlocks_agree {p q : ParallelReader ρ} {derr derr' : Option StorageErr}
    {ranges : List (Int × Int)} {written written' : Bytes}
    {outcome outcome' : Except StorageErr (Option StorageErr)} (hdata : 0 < dataBlocks)
    (hencoded : Encoded codec org content)
    (hp : ReadsShards drives dataBlocks org p) (hq : ReadsShards drives dataBlocks org q)
    (hshape : p.SameShape q)
    (hdecode : DecodeBlocks codec (Honest content) p derr ranges written outcome)
    (hdecode' : DecodeBlocks codec (Honest content) q derr' ranges written' outcome') :
    (written <+: written' ∨ written' <+: written) ∧
      (outcome.isOk = true → outcome'.isOk = true → written = written') := by
  induction hdecode generalizing q derr' written' outcome' with
  | done =>
    cases hdecode' with
    | done => exact ⟨Or.inl (List.prefix_refl _), fun _ _ => rfl⟩
  | readFails => exact ⟨Or.inl (List.nil_prefix), fun hok => nomatch hok⟩
  | blockFails => exact ⟨Or.inl (List.nil_prefix), fun hok => nomatch hok⟩
  | @block _ _ _ _ _ _ _ _ range _ _ hhonest hreads hblock hrest ih =>
    cases hdecode' with
    | readFails => exact ⟨Or.inr (List.nil_prefix), fun _ hok => nomatch hok⟩
    | blockFails => exact ⟨Or.inr (List.nil_prefix), fun _ hok => nomatch hok⟩
    | block hhonest' hreads' hblock' hrest' =>
      have hsame := decodeBlock_eq hdata hencoded hp hq hshape hhonest hhonest' hreads hreads'
        range
      rw [hblock, hblock'] at hsame
      injection hsame with hbytes
      subst hbytes
      obtain ⟨hp', hmoved⟩ := hp.next hreads
      obtain ⟨hq', hmoved'⟩ := hq.next hreads'
      obtain ⟨hstarts, hall⟩ := ih hp' hq' (hshape.next hmoved hmoved') hrest'
      refine ⟨hstarts.imp (fun h => ?_) (fun h => ?_), fun hok hok' => ?_⟩
      · exact (List.prefix_append_right_inj _).mpr h
      · exact (List.prefix_append_right_inj _).mpr h
      · rw [hall hok hok']

end Range

end Fs3
