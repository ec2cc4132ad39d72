import Fs3.Erasure.BlockRanges
import Fs3.Erasure.Encode
import Fs3.Erasure.PreferredReaders

/-! # What was encoded is decoded

A range of a part is written out exactly as it was in the payload, whatever readers there are
beside those of enough intact shard files, and in whatever order they finish. -/

namespace Fs3

open Foundation

variable {ρ ω : Type}

/-- The readers of a part of which some shard files are intact. -/
structure ServesFiles {drives dataBlocks : Nat} (codec : ReedSolomonEncoder drives dataBlocks)
    (blockSize : Nat) (payload : Bytes) (p : ParallelWriter ω) (readers : List (Option ρ))
    (intact : Finset Nat) (answers : Answers ρ) : Prop where
  /-- The writer of an intact file has not failed. -/
  written : ∀ i ∈ intact, p.errs i = none
  /-- The reader of an intact file answers every read within it. -/
  answered : ∀ i ∈ intact, ∃ rr, (readers[i]?).join = some rr ∧
    ∀ offset size, 0 ≤ offset → offset.toNat + size ≤ (p.files i).length →
      answers.bytes? rr offset size = some (((p.files i).drop offset.toNat).take size)
  /-- Another reader fails, or what it answers is what was encoded. -/
  others : ∀ i ∉ intact, ∀ rr, (readers[i]?).join = some rr →
    ∀ offset size bytes, answers.bytes? rr offset size = some bytes →
      bytes = ((shardFile codec blockSize payload i).drop offset.toNat).take size

/-- The decoding of a range writes the given bytes. -/
structure DecodesRange (e : Erasure) (readers : List (Option ρ))
    (codec : ReedSolomon readers.length e.dataBlocks) (possible : Answers ρ → Prop)
    (offset length totalLength : Int) (prefer : List Bool) (bytes : Bytes) : Prop where
  /-- However it goes, the bytes are written and no error stops it. -/
  writes : ∀ written outcome,
    Decodes e readers codec possible offset length totalLength prefer written outcome →
      written = bytes ∧ outcome.isOk = true
  /-- Every read that has something to read returns. -/
  returns : ∀ p, AfterReads (preferredReader e readers prefer offset totalLength) p →
    0 < p.cutShardSize.shardSize → ∀ answers,
      Acc (fun s' s => ReadStep answers s s') p.startRead ∧
        ∀ s, Runs (ReadStep answers) p.startRead s → Stuck (ReadStep answers) s → s.isDone
  /-- Whenever the readers can answer at all, it ends. -/
  ends : (∃ answers, possible answers) → ∃ written outcome,
    Decodes e readers codec possible offset length totalLength prefer written outcome

/-! ## The bytes of a block -/

theorem writeBlocks_eq (blocks : List Bytes) (offset write : Nat) :
    writeBlocks blocks offset write = (blocks.flatten.drop offset).take write := by
  induction blocks generalizing offset write with
  | nil => simp [writeBlocks]
  | cons block blocks ih =>
    rw [writeBlocks, List.flatten_cons]
    split
    next hskip => rw [ih, List.drop_append, List.drop_of_length_le hskip, List.nil_append]
    next hstarts =>
      rw [List.drop_append_of_le_length (by omega)]
      split
      next hshort => rw [List.take_append_of_le_length (by omega)]
      next hlong =>
        have hwhole : (block.drop offset).take write = block.drop offset :=
          List.take_of_length_le (by omega)
        rw [ih, List.drop_zero, List.take_append, hwhole]

section Block

variable {drives dataBlocks : Nat} {codec : ReedSolomonEncoder drives dataBlocks}
variable (codec) in
theorem encodeData_spec (hdata : 0 < dataBlocks) {data : Bytes} (hne : data ≠ []) :
    ∃ shards padding, encodeData codec data = .ok shards ∧ codec.isCodeword shards ∧
      (∀ i < drives, (shards i).length = data.length ⌈/⌉ dataBlocks) ∧
      (List.range dataBlocks).flatMap shards = data ++ List.replicate padding 0 := by
  obtain ⟨split, padding, hsplit, hsizes, hsplits⟩ := codec.splits data hne
  have hpos := List.length_pos_of_ne_nil hne
  have hsize : 0 < data.length ⌈/⌉ dataBlocks := by
    by_contra hzero
    have hle := (ceilDiv_le_iff_le_mul hdata).mp (Nat.le_of_not_lt hzero)
    omega
  obtain ⟨shards, hencode, hcodeword, hsame, hlengths⟩ := codec.encodes split _ hsize hsizes
  refine ⟨shards, padding, ?_, hcodeword, hlengths, ?_⟩
  · unfold encodeData
    rw [if_neg hpos.ne', hsplit]
    exact hencode
  · rw [← hsplits, List.flatMap_def, List.flatMap_def]
    congr 1
    exact List.map_congr_left fun i hi => hsame i (List.mem_range.mp hi)

theorem writeDataBlocks_eq {shards : Bufs} {data : Bytes} {padding start length : Nat}
    (hle : dataBlocks ≤ drives)
    (hshards : (List.range dataBlocks).flatMap shards = data ++ List.replicate padding 0)
    (hrange : start + length ≤ data.length) :
    writeDataBlocks shards drives dataBlocks start length =
      .ok ((data.drop start).take length) := by
  have hsum : (((List.range dataBlocks).map shards).map List.length).sum =
    data.length + padding := by
    rw [← List.length_flatten, ← List.flatMap_def, hshards, List.length_append,
      List.length_replicate]
  unfold writeDataBlocks
  simp only
  rw [if_neg (by omega), if_neg (by omega), if_neg (by rw [hsum]; push_cast; omega),
    writeBlocks_eq, ← List.flatMap_def, hshards, Int.toNat_natCast, Int.toNat_natCast,
    List.drop_append_of_le_length (by omega),
    List.take_append_of_le_length (by rw [List.length_drop]; omega)]

variable {size k : Nat} {payload : Bytes}

theorem shardFile_slice (hsize : 0 < size) (hdata : 0 < dataBlocks) {i : Nat} (hi : i < drives)
    (hk : k * size < payload.length) :
    ((shardFile codec size payload i).drop (k * (size ⌈/⌉ dataBlocks))).take
      ((chunk size payload k).length ⌈/⌉ dataBlocks) = shardOf codec i (chunk size payload k) := by
  have hwidth : ∀ data : Bytes, data ≠ [] →
      (shardOf codec i data).length = data.length ⌈/⌉ dataBlocks := by
    intro data hne
    obtain ⟨shards, _, hencode, _, hlengths, _⟩ := encodeData_spec codec hdata hne
    rw [shardOf_eq hencode, hlengths i hi]
  have hnonempty : chunk size payload k ≠ [] := by
    rw [← List.length_pos_iff_ne_nil, length_chunk]
    omega
  rw [← hwidth _ hnonempty]
  refine eachChunk_slice hsize hk fun j hj => ?_
  rw [Nat.succ_mul] at hj
  have hfull : (chunk size payload j).length = size := by
    rw [length_chunk]
    omega
  rw [hwidth _ (List.ne_nil_of_length_pos (by omega)), hfull]

end Block

/-! ## One block of a range -/

section Read

variable {e : Erasure} {readers : List (Option ρ)}
  {codec : ReedSolomonEncoder readers.length e.dataBlocks} {payload : Bytes}
  {writer : ParallelWriter ω} {intact : Finset Nat} {possible : Answers ρ → Prop}
  {size : Nat} {answers : Answers ρ}

/-- Readers that stand at the beginning of a block, if there is one, with those
of the intact shards still there. -/
structure AtRange (e : Erasure) (readers : List (Option ρ)) (intact : Finset Nat)
    (size total k : Nat) (p : ParallelReader ρ) : Prop where
  shards : ReadsShards readers.length e.dataBlocks (fun i => (readers[i]?).join) p
  kept : ∀ i ∈ intact, ∃ rr, p.orgReaders i = some rr
  atBlock : k * size < total → AtBlock e total k p

/-- What holds of the encoding of the payload that the files are from. -/
structure EncodedFiles (codec : ReedSolomonEncoder readers.length e.dataBlocks) (size : Nat)
    (payload : Bytes) (writer : ParallelWriter ω) : Prop where
  blockSize : e.blockSize = size
  size_pos : 0 < size
  data_pos : 0 < e.dataBlocks
  files : ∀ i, writer.errs i = none → writer.files i = shardFile codec size payload i

/-- A read at a block returns shards of that block, from which any range of it is
written, and leaves the readers at the next block. -/
theorem read_block {p p' : ParallelReader ρ} {result : ReadResult} {k start length : Nat}
    (hfiles : EncodedFiles codec size payload writer)
    (hserves : ServesFiles codec size payload writer readers intact answers)
    (henough : e.dataBlocks ≤ intact.card)
    (hp : AtRange e readers intact size payload.length k p)
    (hlength : 0 < length) (hin : start + length ≤ size)
    (hend : k * size + start + length ≤ payload.length)
    (hreads : p.Reads answers result p') :
    (∃ bufs, result.bufs = some bufs ∧ decodeBlock codec.toReedSolomon bufs (start, length) =
        .ok ((payload.drop (k * size + start)).take length)) ∧
      AtRange e readers intact size payload.length (k + 1) p' := by
  obtain ⟨hblockSize, hsize, hdata, hwritten⟩ := hfiles
  have hk : k * size < payload.length := by omega
  have hat := hp.atBlock hk
  have hcut := hat.cutShardSize hblockSize hsize hdata hk
  obtain ⟨hshards, hkept, _⟩ := hp
  rw [← length_chunk] at hcut
  have hlengthChunk := length_chunk size payload k
  have hnonempty : chunk size payload k ≠ [] := by
    rw [← List.length_pos_iff_ne_nil, hlengthChunk]
    omega
  have hoffset : p.offset = ((k * (size ⌈/⌉ e.dataBlocks) : Nat) : Int) := by
    rw [hat.offset, shardSize_eq hblockSize hdata]
    push_cast
    rfl
  obtain ⟨shards, padding, hencode, hcodeword, hlengths, hdataShards⟩ :=
    encodeData_spec codec hdata hnonempty
  have hcutPos : 0 < p.cutShardSize.shardSize := by
    have hpos : 0 < (chunk size payload k).length ⌈/⌉ e.dataBlocks := by
      by_contra hzero
      have hle := (ceilDiv_le_iff_le_mul hdata).mp (Nat.le_of_not_lt hzero)
      rw [Nat.mul_zero, Nat.le_zero, List.length_eq_zero_iff] at hle
      exact hnonempty hle
    rw [hcut]
    exact_mod_cast hpos
  -- Where the file of a drive has its shard of this block.
  have hslice : ∀ i < readers.length,
      ((shardFile codec size payload i).drop p.offset.toNat).take
        p.cutShardSize.shardSize.toNat = shards i := by
    intro i hi
    rw [hoffset, hcut, Int.toNat_natCast, Int.toNat_natCast, shardFile_slice hsize hdata hi hk,
      shardOf_eq hencode]
  have hreader : ∀ i rr, (readers[i]?).join = some rr → i < readers.length := by
    intro i rr hsome
    by_contra hge
    rw [List.getElem?_eq_none (by omega)] at hsome
    exact nomatch hsome
  have hintact : ∀ i ∈ intact, ∃ rr bytes, p.orgReaders i = some rr ∧
      answers rr p.offset p.cutShardSize.shardSize.toNat = .ok bytes ∧ bytes.1 = shards i := by
    intro i hi
    obtain ⟨rr, horg⟩ := hkept i hi
    obtain ⟨rr', hjoin, hanswer⟩ := hserves.answered i hi
    obtain rfl : rr = rr' := Option.some.inj ((hshards.keeps i rr horg).symm.trans hjoin)
    have hlt := hreader i rr hjoin
    have hfile := hwritten i (hserves.written i hi)
    have hwithin : p.offset.toNat + p.cutShardSize.shardSize.toNat ≤ (writer.files i).length := by
      have hlen := congrArg List.length (hslice i hlt)
      rw [List.length_take, List.length_drop, hlengths i hlt, ← Int.toNat_natCast
        ((chunk size payload k).length ⌈/⌉ e.dataBlocks), ← hcut] at hlen
      rw [hfile]
      omega
    have hbytes := hanswer p.offset _ (by rw [hoffset]; exact Int.natCast_nonneg _) hwithin
    rw [hfile, hslice i hlt] at hbytes
    unfold Answers.bytes? at hbytes
    cases hok : answers rr p.offset p.cutShardSize.shardSize.toNat with
    | error err =>
      rw [hok] at hbytes
      cases hbytes
    | ok bytes =>
      rw [hok] at hbytes
      exact ⟨rr, bytes, horg, hok, Option.some.inj hbytes⟩
  have hkeptAll : AnswersAll p.cutShardSize answers (· ∈ intact) := by
    intro i hi
    obtain ⟨rr, bytes, horg, hok, _⟩ := hintact i hi
    refine ⟨rr, bytes, ?_, ?_⟩
    · rw [cutShardSize_eq p]
      exact horg
    · rw [show p.cutShardSize.offset = p.offset by rw [cutShardSize_eq p]]
      exact hok
  have hslots : ∀ i ∈ intact, i < p.drives ∧ i ∈ intact := by
    intro i hi
    obtain ⟨rr, _, horg, _⟩ := hintact i hi
    rw [hshards.drives]
    exact ⟨hreader i rr (hshards.keeps i rr horg), hi⟩
  obtain ⟨⟨bufs, hbufs⟩, hleft⟩ := hreads.of_intact hshards.aligned
    (by rw [hshards.dataBlocks]; exact hdata) hcutPos hkeptAll intact hslots
    (by rw [hshards.dataBlocks]; exact henough)
  rcases hreads.cases hshards.aligned with hnone | ⟨found, hfound, hshape, hcases⟩
  · rw [hnone] at hbufs
    exact nomatch hbufs
  obtain rfl : bufs = found := Option.some.inj (hbufs.symm.trans hfound)
  obtain ⟨hown, hcount⟩ : OwnBufs p answers bufs ∧
      p.dataBlocks ≤ (List.range p.drives).countP fun i => bufs i ≠ [] := by
    rcases hcases with ⟨hzero, _⟩ | ⟨_, hown, hcount⟩
    · omega
    · exact ⟨hown, hcount⟩
  rw [hshards.dataBlocks, hshards.drives] at hcount
  have hle : e.dataBlocks ≤ readers.length := by
    have hbound : (List.range readers.length).countP (fun i => bufs i ≠ []) ≤
        (List.range readers.length).length := List.countP_le_length
    rw [List.length_range] at hbound
    omega
  constructor
  · refine ⟨bufs, hbufs, ?_⟩
    have hslot : ∀ i < readers.length, bufs i = [] ∨ bufs i = shards i := by
      intro i hi
      by_cases hempty : bufs i = []
      · exact Or.inl hempty
      · obtain ⟨rr, horg, hbytes⟩ := hown i hempty
        right
        by_cases hmem : i ∈ intact
        · obtain ⟨rr', bytes, horg', hok, hshard⟩ := hintact i hmem
          obtain rfl : rr = rr' := Option.some.inj (horg.symm.trans horg')
          rw [Answers.bytes?, hok] at hbytes
          exact (Option.some.inj hbytes).symm.trans hshard
        · rw [hserves.others i hmem rr (hshards.keeps i rr horg) _ _ _ hbytes]
          exact hslice i hi
    obtain ⟨out, hout, hsame⟩ := decodeDataBlocks_of_own hcodeword hdata hle hslot hcount
    have hwithin : start + length ≤ (chunk size payload k).length := by
      rw [hlengthChunk]
      omega
    unfold decodeBlock
    rw [hout, ← chunk_slice hin payload k]
    exact (writeDataBlocks_congr hsame _ _).trans (writeDataBlocks_eq hle hdataShards hwithin)
  · obtain ⟨haligned, hkeeps, hblocks⟩ := hreads.aligned hshards.aligned
    have hmoved : p'.drives = p.drives := hshape.drives.trans (by
      change p.cutShardSize.drives = p.drives
      rw [cutShardSize_eq p])
    refine ⟨⟨haligned, fun i rr h => hshards.keeps i rr (hkeeps i rr h),
      hmoved.trans hshards.drives, hblocks.trans hshards.dataBlocks⟩,
        fun i hi => ?_, fun hnext => ?_⟩
    · obtain ⟨rr, hleft, _⟩ := hleft i hi
      exact ⟨rr, hleft⟩
    · -- There is a next block, so this one was whole.
      rw [Nat.succ_mul] at hnext
      have hfull : (chunk size payload k).length = size := by
        rw [hlengthChunk]
        omega
      rw [hfull, ← shardSize_eq hblockSize hdata] at hcut
      refine ⟨?_, hshape.shardSize.trans hcut, ?_⟩
      · rw [hshape.offset]
        change p.offset + p.cutShardSize.shardSize = _
        rw [hat.offset, hcut]
        push_cast
        ring
      · rw [hshape.shardFileSize]
        change p.cutShardSize.shardFileSize = _
        rw [cutShardSize_eq p]
        exact hat.shardFileSize

/-! ## All the blocks of a range -/

theorem Covers.cases {k start length : Nat} {range : Int × Int} {ranges : List (Int × Int)}
    (hcovers : Covers size k start length (range :: ranges)) :
    ∃ first count : Nat, range = ((first : Int), (count : Int)) ∧ start = k * size + first ∧
      0 < count ∧ first + count ≤ size ∧ count ≤ length ∧
      Covers size (k + 1 : Nat) (start + count : Nat) (length - count : Nat) ranges := by
  have hrest := hcovers.2.2.2.2.length_nonneg
  obtain ⟨hstart, hfirst, hcount, hle, hcovers⟩ := hcovers
  obtain ⟨first, hfirst⟩ := Int.eq_ofNat_of_zero_le hfirst
  obtain ⟨count, hcount'⟩ := Int.eq_ofNat_of_zero_le hcount.le
  rw [hfirst] at hstart
  rw [hcount'] at hcount hrest hcovers
  rw [hfirst, hcount'] at hle
  refine ⟨first, count, Prod.ext hfirst hcount', by exact_mod_cast hstart, by omega, by omega,
    by omega, ?_⟩
  rw [Int.natCast_sub (by omega : count ≤ length)]
  exact_mod_cast hcovers

theorem decodeBlocks_range (hfiles : EncodedFiles codec size payload writer)
    (hserves : ∀ answers, possible answers →
      ServesFiles codec size payload writer readers intact answers)
    (henough : e.dataBlocks ≤ intact.card) {p : ParallelReader ρ} {derr : Option StorageErr}
    {ranges : List (Int × Int)} {written : Bytes}
    {outcome : Except StorageErr (Option StorageErr)} {k start length : Nat}
    (hp : AtRange e readers intact size payload.length k p)
    (hcovers : Covers size k start length ranges) (hend : start + length ≤ payload.length)
    (hdecode : DecodeBlocks codec.toReedSolomon possible p derr ranges written outcome) :
    written = (payload.drop start).take length ∧ outcome.isOk = true := by
  induction hdecode generalizing k start length with
  | done =>
    have hzero : (length : Int) = 0 := hcovers
    obtain rfl : length = 0 := by omega
    exact ⟨List.take_zero.symm, rfl⟩
  | readFails hpossible hreads =>
    obtain ⟨first, count, rfl, rfl, hpos, hle, _, _⟩ := hcovers.cases
    obtain ⟨⟨bufs, hbufs, _⟩, _⟩ := read_block hfiles (hserves _ hpossible) henough hp hpos hle
      (by omega) hreads
    exact nomatch hbufs
  | blockFails hpossible hreads hblock =>
    obtain ⟨first, count, rfl, rfl, hpos, hle, _, _⟩ := hcovers.cases
    obtain ⟨⟨bufs, hbufs, hok⟩, _⟩ := read_block hfiles (hserves _ hpossible) henough hp hpos hle
      (by omega) hreads
    obtain rfl := Option.some.inj hbufs
    rw [hblock] at hok
    exact nomatch hok
  | block hpossible hreads hblock _ ih =>
    obtain ⟨first, count, rfl, rfl, hpos, hle, hcount, hrest⟩ := hcovers.cases
    obtain ⟨⟨bufs, hbufs, hok⟩, hnext⟩ := read_block hfiles (hserves _ hpossible) henough hp hpos
      hle (by omega) hreads
    obtain rfl := Option.some.inj hbufs
    rw [hblock] at hok
    obtain ⟨hrestWritten, hrestOk⟩ := ih hnext hrest (by omega)
    refine ⟨?_, hrestOk⟩
    rw [Except.ok.inj hok, hrestWritten, slice_append, Nat.add_sub_cancel' hcount]

theorem exists_decodeBlocks (hfiles : EncodedFiles codec size payload writer)
    (hpossible : possible answers)
    (hserves : ServesFiles codec size payload writer readers intact answers)
    (henough : e.dataBlocks ≤ intact.card) {p : ParallelReader ρ} (derr : Option StorageErr)
    {ranges : List (Int × Int)} {k start length : Nat}
    (hp : AtRange e readers intact size payload.length k p)
    (hcovers : Covers size k start length ranges) (hend : start + length ≤ payload.length) :
    ∃ written outcome,
      DecodeBlocks codec.toReedSolomon possible p derr ranges written outcome := by
  induction ranges generalizing p derr k start length with
  | nil => exact ⟨_, _, .done⟩
  | cons range ranges ih =>
    obtain ⟨first, count, rfl, rfl, hpos, hle, hcount, hrest⟩ := hcovers.cases
    have hk : k * size < payload.length := by omega
    have hcut := (hp.atBlock hk).cutShardSize hfiles.blockSize hfiles.size_pos hfiles.data_pos hk
    have hcutPos : 0 < p.cutShardSize.shardSize := by
      have hpos : 0 < (min size (payload.length - k * size)) ⌈/⌉ e.dataBlocks := by
        by_contra hzero
        have hle := (ceilDiv_le_iff_le_mul hfiles.data_pos).mp (Nat.le_of_not_lt hzero)
        have hsize := hfiles.size_pos
        omega
      rw [hcut]
      exact_mod_cast hpos
    obtain ⟨⟨found, err⟩, p', hreads⟩ := hp.shards.aligned.exists_read
      (by rw [hp.shards.dataBlocks]; exact hfiles.data_pos) hcutPos answers
    obtain ⟨⟨bufs, hbufs, hok⟩, hnext⟩ := read_block hfiles hserves henough hp hpos hle
      (by omega) hreads
    simp only at hbufs
    subst hbufs
    obtain ⟨written, outcome, hdecode⟩ := ih (keepErr derr err) hnext hrest (by omega)
    exact ⟨_, _, .block hpossible hreads hok hdecode⟩

theorem atRange_start (hfiles : EncodedFiles codec size payload writer)
    (hserves : ServesFiles codec size payload writer readers intact answers) {prefer : List Bool}
    {start : Nat}
    (haligned : (preferredReader e readers prefer start payload.length).Aligned) :
    AtRange e readers intact size payload.length (start / size)
      (preferredReader e readers prefer start payload.length) := by
  refine ⟨readsShards_preferredReader haligned, fun i hi => ?_, fun _ => ?_⟩
  · obtain ⟨rr, hreader, _⟩ := hserves.answered i hi
    rw [preferredReader_eq]
    exact ⟨rr, hreader⟩
  · rw [preferredReader_eq]
    refine ⟨?_, rfl, rfl⟩
    change (start : Int) / e.blockSize * e.shardSize = _
    rw [hfiles.blockSize]
    push_cast
    rfl

end Read

section Claim

variable {e : Erasure} {readers : List (Option ρ)}
  {codec : ReedSolomonEncoder readers.length e.dataBlocks}
end Claim

section Examples

def mirrorEncoder : ReedSolomonEncoder 2 1 where
  toReedSolomon := mirrorCodec
  split data := .ok fun i => if i = 0 then data else List.replicate data.length 0
  encode shards := .ok fun _ => shards 0
  splits := by
    intro data _
    refine ⟨_, 0, rfl, fun i _ => ?_, ?_⟩
    · rw [ceilDiv_one]
      split
      next => rfl
      next => exact List.length_replicate
    · rw [List.replicate_zero, List.append_nil]
      exact List.append_nil data
  encodes := by
    intro shards size _ hsizes
    refine ⟨_, rfl, rfl, fun i hi => ?_, fun _ _ => hsizes 0 (by decide)⟩
    obtain rfl : i = 0 := by omega
    rfl

def mirroredBytes : Bytes := [1, 2, 3]

def onlySecond : Answers Nat := fun rr offset size =>
  if hsize : rr = 1 ∧ ((mirroredBytes.drop offset.toNat).take size).length = size then
    .ok ⟨_, hsize.2⟩
  else .error .errFileNotFound

def writeAll : WriteAnswers Nat := fun _ bytes => (bytes.length, none)

end Examples

end Fs3
