import Fs3.Erasure.Decode

/-! # Intact shards are always read

A read gives up a reader only when it fails. -/

namespace Fs3

open Foundation (Runs Stuck)

variable {ρ : Type}

def AnswersAll (p : ParallelReader ρ) (answers : Answers ρ) (intact : Nat → Prop) : Prop :=
  ∀ i, intact i → ∃ rr bytes, p.orgReaders i = some rr ∧
    answers rr p.offset p.shardSize.toNat = .ok bytes

/-- What holds at any time of a read in which the readers of the intact shards
answer: they are still there, those that are done have filled their slots, and
the loop is only over when there is enough or every reader has been asked. -/
structure Answering (answers : Answers ρ) (intact : Nat → Prop) (s : ReadState ρ) : Prop where
  kept : AnswersAll s.reader answers intact
  filled : ∀ k < s.readerIndex, k ∉ s.running → intact (s.reader.readerToBuf k) →
    s.newBuf (s.reader.readerToBuf k) ≠ []
  stopped : s.looping = false →
    s.reader.canDecode s.newBuf = true ∨ s.readerIndex = s.reader.drives

section Step

variable {p : ParallelReader ρ} {answers : Answers ρ} {intact : Nat → Prop} {s s' : ReadState ρ}

theorem answering_start (hkept : AnswersAll p.cutShardSize answers intact) :
    Answering answers intact p.startRead where
  kept := hkept
  filled := fun k hk => absurd hk (Nat.not_lt_zero k)
  stopped := fun hlooping => nomatch hlooping

theorem Answering.takeTrigger (hanswering : Answering answers intact s)
    (htake : s.takeTrigger = some s') : Answering answers intact s' := by
  obtain ⟨hkept, hfilled, _⟩ := hanswering
  obtain ⟨hlooping, readTrigger, triggers, _, hcases⟩ := ReadState.takeTrigger_cases htake
  rcases hcases with ⟨hover, rfl⟩ | ⟨_, _, ⟨_, rfl⟩ | ⟨_, rfl⟩⟩
  · exact ⟨hkept, hfilled, fun _ => hover⟩
  · exact ⟨hkept, hfilled, fun hstop => absurd (hlooping.symm.trans hstop) (by decide)⟩
  · refine ⟨hkept, fun k hk hnot => ?_, fun hstop => absurd (hlooping.symm.trans hstop) (by decide)⟩
    rw [List.mem_cons, not_or] at hnot
    exact hfilled k (Nat.lt_of_le_of_ne (Nat.le_of_lt_succ hk) hnot.1) hnot.2

/-- A reader that is done: an intact shard is in its slot, and others may be
given up. -/
theorem Answering.finish (hanswering : Answering answers intact s) (hown : SlotsOwn p answers s)
    (hsize : 0 < s.reader.shardSize) {i : Nat} (hi : i ∈ s.running) :
    Answering answers intact (s.finishRead answers i) := by
  obtain ⟨hkept, hfilled, hstopped⟩ := hanswering
  have hdrives : s.reader.drives = p.drives := by rw [hown.same]
  have hlt := hown.running i hi
  have hstarted := hown.started
  have hbound : i < s.reader.drives := by omega
  have herased : ∀ k, k ≠ i → k ∉ s.running.erase i → k ∉ s.running := fun k hki hnot hmem =>
    hnot ((List.mem_erase_of_ne hki).mpr hmem)
  rcases ReadState.finishRead_cases answers i s with
    ⟨hnone, heq⟩ | ⟨rr, err, missing, bitrot, hreader, herr, heq⟩ |
      ⟨rr, bytes, hreader, hbytes, hlength, heq⟩
  · rw [heq]
    refine ⟨hkept, fun k hk hnot hintact => ?_, hstopped⟩
    by_cases hki : k = i
    · subst hki
      obtain ⟨rr, _, horg, _⟩ := hkept _ hintact
      rw [← hown.aligned.same k hbound, hnone] at horg
      exact nomatch horg
    · exact hfilled k hk (herased k hki hnot) hintact
  · have horg : s.reader.orgReaders (s.reader.readerToBuf i) = some rr := by
      rw [← hown.aligned.same i hbound]
      exact hreader
    -- A reader that fails is not that of an intact shard.
    have hbroken : ¬ intact (s.reader.readerToBuf i) := by
      intro hintact
      obtain ⟨rr', _, horg', hok⟩ := hkept _ hintact
      obtain rfl : rr = rr' := Option.some.inj (horg.symm.trans horg')
      rw [herr] at hok
      exact nomatch hok
    rw [heq]
    refine ⟨fun k hintact => ?_, fun k hk hnot hintact => ?_, hstopped⟩
    · have hne : k ≠ s.reader.readerToBuf i := fun hsame => hbroken (hsame ▸ hintact)
      obtain ⟨rr', bytes, horg', hok⟩ := hkept k hintact
      exact ⟨rr', bytes, by rw [← horg']; exact Function.update_of_ne hne _ _, hok⟩
    · by_cases hki : k = i
      · subst hki
        exact absurd hintact hbroken
      · exact hfilled k hk (herased k hki hnot) hintact
  · have hne : bytes ≠ [] := by
      rintro rfl
      rw [List.length_nil] at hlength
      omega
    rw [heq]
    refine ⟨hkept, fun k hk hnot hintact => ?_, fun hstop => ?_⟩
    · change Function.update s.newBuf (s.reader.readerToBuf i) bytes (s.reader.readerToBuf k) ≠ []
      by_cases hslot : s.reader.readerToBuf k = s.reader.readerToBuf i
      · rw [hslot, Function.update_self]
        exact hne
      · rw [Function.update_of_ne hslot]
        exact hfilled k hk (herased k (fun hki => hslot (congrArg _ hki)) hnot) hintact
    · refine (hstopped hstop).imp_left fun hdecode => ?_
      have henough := of_decide_eq_true hdecode
      apply decide_eq_true
      refine henough.trans ?_
      apply List.countP_mono_left
      intro k _ hfull
      rw [decide_eq_true_eq] at hfull ⊢
      change Function.update s.newBuf (s.reader.readerToBuf i) bytes k ≠ []
      by_cases hslot : k = s.reader.readerToBuf i
      · subst hslot
        rw [Function.update_self]
        exact hne
      · rw [Function.update_of_ne hslot]
        exact hfull

theorem answering_step (hsize : 0 < p.shardSize)
    (hinv : SlotsOwn p answers s ∧ Moving s ∧ Answering answers intact s)
    (hstep : ReadStep answers s s') :
    SlotsOwn p answers s' ∧ Moving s' ∧ Answering answers intact s' := by
  obtain ⟨hown, hmoving, hanswering⟩ := hinv
  obtain ⟨hown', hmoving'⟩ := slotsOwn_moving_step hsize ⟨hown, hmoving⟩ hstep
  refine ⟨hown', hmoving', ?_⟩
  cases hstep with
  | trigger htake => exact hanswering.takeTrigger htake
  | finish i hi =>
    have hshard : s.reader.shardSize = p.shardSize := by rw [hown.same]
    exact hanswering.finish hown (hshard ▸ hsize) hi

theorem Answering.canDecode (hanswering : Answering answers intact s)
    (hown : SlotsOwn p answers s) (hdone : s.isDone) (slots : Finset Nat)
    (hslots : ∀ i ∈ slots, i < s.reader.drives ∧ intact i)
    (henough : s.reader.dataBlocks ≤ slots.card) : s.reader.canDecode s.newBuf = true := by
  obtain ⟨hlooping, hrunning⟩ := hdone
  refine (hanswering.stopped hlooping).elim id fun hindex => ?_
  have hfull : ∀ i ∈ slots, s.newBuf i ≠ [] := by
    intro i hi
    obtain ⟨hlt, hintact⟩ := hslots i hi
    -- Every slot is the one of some position, and that position has been asked.
    obtain ⟨k, hk, rfl⟩ := hown.aligned.permutes.surjOn hlt
    refine hanswering.filled k (hindex ▸ hk) ?_ hintact
    rw [hrunning]
    exact List.not_mem_nil
  apply decide_eq_true
  have hsub : slots ⊆ (Finset.range s.reader.drives).filter fun i => s.newBuf i ≠ [] := fun i hi =>
    Finset.mem_filter.mpr ⟨Finset.mem_range.mpr (hslots i hi).1, hfull i hi⟩
  have hcard := henough.trans (Finset.card_le_card hsub)
  rw [Finset.card_def, Finset.filter_val, Finset.range_val, Multiset.range, Multiset.filter_coe,
    Multiset.coe_card, ← List.countP_eq_length_filter] at hcard
  exact hcard

end Step

section Whole

variable {p p' : ParallelReader ρ} {answers : Answers ρ} {intact : Nat → Prop}
  {result : ReadResult}

/-- With enough intact shards a read returns buffers, and the readers of the
intact shards are left. -/
theorem ParallelReader.Reads.of_intact (haligned : p.Aligned) (hdata : 0 < p.dataBlocks)
    (hsize : 0 < p.cutShardSize.shardSize)
    (hkept : AnswersAll p.cutShardSize answers intact) (slots : Finset Nat)
    (hslots : ∀ i ∈ slots, i < p.drives ∧ intact i) (henough : p.dataBlocks ≤ slots.card)
    (hreads : p.Reads answers result p') :
    (∃ bufs, result.bufs = some bufs) ∧
      ∀ i, intact i → ∃ rr, p'.orgReaders i = some rr ∧ p.orgReaders i = some rr := by
  have hcut := cutShardSize_eq p
  cases hreads with
  | empty hempty => omega
  | @done s _ hruns hdone =>
    obtain ⟨hown, _, hanswering⟩ := hruns.invariant (fun _ _ => answering_step hsize)
      ⟨slotsOwn_start haligned, moving_start hdata, answering_start hkept⟩
    have hsame := hown.same
    unfold ParallelReader.SameRead at hsame
    have hdecode : s.reader.canDecode s.newBuf = true := by
      refine hanswering.canDecode hown hdone slots (fun i hi => ?_) ?_
      · rw [hsame, hcut]
        exact hslots i hi
      · rw [hsame, hcut]
        exact henough
    have hresult : s.result = ({ bufs := some s.newBuf, err := s.result.1.err },
        { s.reader with offset := s.reader.offset + s.reader.shardSize }) := by
      unfold ReadState.result
      rw [if_pos hdecode]
    rw [hresult]
    refine ⟨⟨_, rfl⟩, fun i hintact => ?_⟩
    obtain ⟨rr, _, horg, _⟩ := hanswering.kept i hintact
    refine ⟨rr, horg, ?_⟩
    have hback := hown.keeps i rr horg
    rw [hcut] at hback
    exact hback

theorem ParallelReader.Aligned.exists_read (haligned : p.Aligned) (hdata : 0 < p.dataBlocks)
    (hsize : 0 < p.cutShardSize.shardSize) (answers : Answers ρ) :
    ∃ result p', p.Reads answers result p' := by
  obtain ⟨hacc, hdone⟩ : Acc (fun s' s => ReadStep answers s s') p.startRead ∧ _ :=
    haligned.read_returns hdata hsize
  obtain ⟨s, hruns, hstuck⟩ := Runs.exists_stuck hacc
  exact ⟨_, _, .done hsize.ne' hruns (hdone s hruns hstuck)⟩

end Whole

end Fs3

/-! ## When a preference is safe

Preferred readers are moved to the front one swap at a time, and the map that
says which shard a position belongs to goes wrong when a swap moves a reader
that an earlier swap has moved. Then a shard that is read after another reader
has failed can end up in the slot of a different one, and the block is decoded
from shards in the wrong order.
-/

namespace Fs3

open Foundation (Runs Stuck SwapChain)

variable {ρ : Type}

def preferredReader (e : Erasure) (readers : List (Option ρ)) (prefer : List Bool)
    (offset totalLength : Int) : ParallelReader ρ :=
  (newParallelReader readers e offset totalLength).preferReaders prefer

/-- The readers that some reads have left. -/
abbrev AfterReads : ParallelReader ρ → ParallelReader ρ → Prop :=
  Runs fun p p' => ∃ answers result, p.Reads answers result p'

/-- A preference that never mixes up shards. -/
structure KeepsShards (e : Erasure) (readers : List (Option ρ)) (prefer : List Bool) : Prop where
  /-- At any time of any read the positions are mapped to the shards one to
  one, and each has the reader of its shard. -/
  aligned : ∀ offset totalLength p,
    AfterReads (preferredReader e readers prefer offset totalLength) p →
    ∀ answers s, Runs (ReadStep answers) p.startRead s → s.reader.Aligned
  /-- A read fails for want of shards, or it fills each slot with nothing but
  what the reader of its shard answered. -/
  own : ∀ offset totalLength p,
    AfterReads (preferredReader e readers prefer offset totalLength) p →
    ∀ answers result p', p.Reads answers result p' →
      result = { bufs := none, err := some .errErasureReadQuorum } ∨
        ∃ bufs, result.bufs = some bufs ∧ ∀ i, bufs i ≠ [] → ∃ rr, (readers[i]?).join = some rr ∧
          answers.bytes? rr p.offset p.cutShardSize.shardSize.toNat = some (bufs i)
  /-- A read that has something to read returns, in whatever order its readers
  finish. -/
  returns : ∀ offset totalLength p,
    AfterReads (preferredReader e readers prefer offset totalLength) p →
    0 < p.cutShardSize.shardSize → ∀ answers,
      Acc (fun s' s => ReadStep answers s s') p.startRead ∧
        ∀ s, Runs (ReadStep answers) p.startRead s → Stuck (ReadStep answers) s → s.isDone
  /-- What is written is what is written without a preference. -/
  decodes : ∀ (codec : ReedSolomon readers.length e.dataBlocks) (content : ρ → Int → Nat → Bytes),
    Encoded codec (fun i => (readers[i]?).join) content →
    ∀ offset length totalLength written outcome written' outcome',
      Decodes e readers codec (Honest content) offset length totalLength prefer written outcome →
      Decodes e readers codec (Honest content) offset length totalLength [] written' outcome' →
      (written <+: written' ∨ written' <+: written) ∧
        (outcome.isOk = true → outcome'.isOk = true → written = written')

section Claim

variable {e : Erasure} {readers : List (Option ρ)} {prefer : List Bool} {offset totalLength : Int}

/-- Whether a position has a reader that is preferred. -/
abbrev Preferred (readers : List (Option ρ)) (prefer : List Bool) (i : Nat) : Prop :=
  ParallelReader.isPreferred (fun i => (readers[i]?).join) prefer i = true

variable (e offset totalLength) in
theorem aligned_preferredReader_iff :
    (preferredReader e readers prefer offset totalLength).Aligned ↔
      (prefer.length = readers.length →
        SwapChain.Separated (Preferred readers prefer) readers.length) := by
  by_cases hlength : prefer.length = readers.length
  · rw [preferredReader, ParallelReader.aligned_preferReaders_iff rfl hlength]
    exact ⟨fun hsep _ => hsep, fun hsep => hsep hlength⟩
  · refine ⟨fun _ hsame => absurd hsame hlength, fun _ => ?_⟩
    exact ParallelReader.aligned_preferReaders_of_length_ne rfl rfl hlength

variable (prefer) in
theorem preferredReader_eq :
    preferredReader e readers prefer offset totalLength =
      { newParallelReader readers e offset totalLength with
        readers := (preferredReader e readers prefer offset totalLength).readers
        readerToBuf := (preferredReader e readers prefer offset totalLength).readerToBuf } :=
  ParallelReader.preferReaders_eq rfl prefer

theorem readsShards_preferredReader
    (haligned : (preferredReader e readers prefer offset totalLength).Aligned) :
    ReadsShards readers.length e.dataBlocks (fun i => (readers[i]?).join)
      (preferredReader e readers prefer offset totalLength) := by
  refine ⟨haligned, fun i rr horg => ?_, ?_, ?_⟩
  · rw [preferredReader_eq] at horg
    exact horg
  · rw [preferredReader_eq]
    rfl
  · rw [preferredReader_eq]
    rfl

theorem readsShards_afterReads {drives : Nat} {org : Nat → Option ρ} {p p' : ParallelReader ρ}
    (hp : p.Aligned ∧ p.KeepsReaders org ∧ p.dataBlocks = drives) (hreads : AfterReads p p') :
    p'.Aligned ∧ p'.KeepsReaders org ∧ p'.dataBlocks = drives := by
  induction hreads with
  | refl => exact hp
  | tail _ hstep ih =>
    obtain ⟨haligned, hkeeps, hdata⟩ := ih
    obtain ⟨answers, result, hread⟩ := hstep
    obtain ⟨haligned', hkeeps', hdata'⟩ := hread.aligned haligned
    exact ⟨haligned', fun i rr h => hkeeps i rr (hkeeps' i rr h), hdata'.trans hdata⟩

/-- Two decodings of the same range, with readers that are aligned in both. -/
theorem decodes_agree (hdata : 0 < e.dataBlocks) {codec : ReedSolomon readers.length e.dataBlocks}
    {content : ρ → Int → Nat → Bytes} {length : Int} {prefer' : List Bool}
    (hencoded : Encoded codec (fun i => (readers[i]?).join) content)
    (haligned : (preferredReader e readers prefer offset totalLength).Aligned)
    (haligned' : (preferredReader e readers prefer' offset totalLength).Aligned)
    {written written' : Bytes} {outcome outcome' : Except StorageErr (Option StorageErr)}
    (hdecodes : Decodes e readers codec (Honest content) offset length totalLength prefer written
      outcome)
    (hdecodes' : Decodes e readers codec (Honest content) offset length totalLength prefer' written'
      outcome') :
    (written <+: written' ∨ written' <+: written) ∧
      (outcome.isOk = true → outcome'.isOk = true → written = written') := by
  have hshape : (preferredReader e readers prefer offset totalLength).SameShape
      (preferredReader e readers prefer' offset totalLength) := by
    rw [preferredReader_eq prefer, preferredReader_eq prefer']
    exact ⟨rfl, rfl, rfl, rfl, rfl⟩
  have hagree : ∀ {bytes bytes' : Bytes} {ending ending' : Except StorageErr (Option StorageErr)},
      DecodeBlocks codec (Honest content) (preferredReader e readers prefer offset totalLength)
        none (e.blockRanges offset length) bytes ending →
      DecodeBlocks codec (Honest content) (preferredReader e readers prefer' offset totalLength)
        none (e.blockRanges offset length) bytes' ending' →
      (bytes <+: bytes' ∨ bytes' <+: bytes) ∧
        (ending.isOk = true → ending'.isOk = true → bytes = bytes') := fun hblocks hblocks' =>
    decodeBlocks_agree hdata hencoded (readsShards_preferredReader haligned)
      (readsShards_preferredReader haligned') hshape hblocks hblocks'
  cases hdecodes with
  | invalid hinvalid => exact ⟨Or.inl List.nil_prefix, fun hok => nomatch hok⟩
  | nothing _ hzero _ =>
    cases hdecodes' with
    | invalid _ => exact ⟨Or.inl List.nil_prefix, fun _ hok => nomatch hok⟩
    | nothing _ _ _ => exact ⟨Or.inl List.nil_prefix, fun _ _ => rfl⟩
    | stops _ hpos _ _ => exact absurd hpos (by omega)
    | ends _ hpos _ _ => exact absurd hpos (by omega)
  | stops _ hpos _ hblocks =>
    refine ⟨?_, fun hok => nomatch hok⟩
    cases hdecodes' with
    | invalid _ => exact Or.inr List.nil_prefix
    | nothing _ _ _ => exact Or.inr List.nil_prefix
    | stops _ _ _ hblocks' =>
      exact (hagree hblocks hblocks').1
    | ends _ _ _ hblocks' =>
      exact (hagree hblocks hblocks').1
  | ends _ hpos _ hblocks =>
    cases hdecodes' with
    | invalid _ => exact ⟨Or.inr List.nil_prefix, fun _ hok => nomatch hok⟩
    | nothing _ hzero _ => exact absurd hpos (by omega)
    | stops _ _ _ hblocks' =>
      exact ⟨(hagree hblocks hblocks').1, fun _ hok => nomatch hok⟩
    | ends _ _ _ hblocks' =>
      obtain ⟨hstarts, hsame⟩ := hagree hblocks hblocks'
      exact ⟨hstarts, fun _ _ => hsame rfl rfl⟩

/-- A preference keeps shards where they belong exactly when each preferred
reader that is there has only such readers before it, or stands past as many
positions as there are preferred readers. -/
theorem keepsShards_iff (hdata : 0 < e.dataBlocks) :
    KeepsShards e readers prefer ↔
      (prefer.length = readers.length →
        SwapChain.Separated (Preferred readers prefer) readers.length) := by
  constructor
  · intro hkeeps
    rw [← aligned_preferredReader_iff e 0 0]
    have hcut := hkeeps.aligned 0 0 _ .refl (fun _ _ _ => .error .errFileNotFound) _ .refl
    change (preferredReader e readers prefer 0 0).cutShardSize.Aligned at hcut
    rw [cutShardSize_eq] at hcut
    exact ⟨hcut.permutes, hcut.same⟩
  · intro hsep
    have hstart : ∀ offset totalLength,
        (preferredReader e readers prefer offset totalLength).Aligned := fun _ _ =>
      (aligned_preferredReader_iff _ _ _).mpr hsep
    have hafter : ∀ offset totalLength p,
        AfterReads (preferredReader e readers prefer offset totalLength) p →
        p.Aligned ∧ p.KeepsReaders (fun i => (readers[i]?).join) ∧ p.dataBlocks = e.dataBlocks := by
      intro offset totalLength p hreads
      have hshards := readsShards_preferredReader (hstart offset totalLength)
      exact readsShards_afterReads ⟨hshards.aligned, hshards.keeps, hshards.dataBlocks⟩ hreads
    refine ⟨fun offset totalLength p hreads answers s hruns => ?_,
      fun offset totalLength p hreads answers result p' hread => ?_,
      fun offset totalLength p hreads hsize answers => ?_,
      fun codec content hencoded offset length totalLength written outcome written' outcome'
        hdecodes hdecodes' => ?_⟩
    · exact (SlotsOwn.runs (hafter offset totalLength p hreads).1 hruns).aligned
    · obtain ⟨haligned, hkeeps, _⟩ := hafter offset totalLength p hreads
      rcases hread.cases haligned with hnone | ⟨bufs, hbufs, _, ⟨_, rfl⟩ | ⟨_, hown, _⟩⟩
      · exact Or.inl hnone
      · exact Or.inr ⟨_, hbufs, fun i hi => absurd rfl hi⟩
      · refine Or.inr ⟨bufs, hbufs, fun i hi => ?_⟩
        obtain ⟨rr, horg, hbytes⟩ := hown i hi
        exact ⟨rr, hkeeps i rr horg, hbytes⟩
    · obtain ⟨haligned, _, hblocks⟩ := hafter offset totalLength p hreads
      exact haligned.read_returns (hblocks ▸ hdata) hsize
    · refine decodes_agree hdata hencoded (hstart _ _) ?_ hdecodes hdecodes'
      rw [aligned_preferredReader_iff]
      -- No preference has the length of the readers only if there are none.
      intro hlength i hi
      rw [← hlength] at hi
      exact absurd hi (Nat.not_lt_zero i)

end Claim

section Examples

def mirrorCodec : ReedSolomon 2 1 where
  isCodeword shards := shards 1 = shards 0
  reconstructData bufs := .ok fun _ => if bufs 0 = [] then bufs 1 else bufs 0
  reconstructs := by
    intro shards bufs hcodeword hown hcount
    refine ⟨_, rfl, fun i hi => ?_⟩
    obtain rfl : i = 0 := by omega
    split
    next hempty =>
      rcases hown 1 (by decide) with hnone | hshard
      · simp [List.range_succ, hempty, hnone] at hcount
      · rw [hshard, hcodeword]
    next hfull => exact (hown 0 (by decide)).resolve_left hfull

theorem mirrorCodec_keepsShards :
    Nonempty (ReedSolomon 2 1) ∧
      KeepsShards { dataBlocks := 1, parityBlocks := 1, blockSize := 1 } [some 0, some 1]
        [false, true] :=
  ⟨⟨mirrorCodec⟩, (keepsShards_iff (by decide)).mpr (by decide)⟩

/-- The reader of shard 1 fails, the others answer with the number of theirs. -/
def secondFails : Answers Nat := fun rr _ size =>
  if rr = 1 then .error .errFileNotFound
  else .ok ⟨List.replicate size (UInt8.ofNat rr), List.length_replicate⟩

def twoOfThree : Erasure := { dataBlocks := 2, parityBlocks := 1, blockSize := 2 }

def lastTwoPreferred : ParallelReader Nat :=
  preferredReader twoOfThree [some 0, some 1, some 2] [false, true, true] 0 2

theorem lastTwoPreferred_run : ∃ s, Runs (ReadStep secondFails) lastTwoPreferred.startRead s ∧
    s.isDone ∧ s.reader.canDecode s.newBuf = true ∧ s.newBuf 1 = [0] := by
  have hstart : Runs (ReadStep secondFails) lastTwoPreferred.startRead
      lastTwoPreferred.startRead := .refl
  -- Two readers are asked, the first fails, and the third takes its turn.
  have hruns := hstart.tail (.trigger rfl) |>.tail (.trigger rfl)
    |>.tail (.finish 0 (by decide)) |>.tail (.finish 1 (by decide))
    |>.tail (.trigger rfl) |>.tail (.finish 2 (by decide)) |>.tail (.trigger rfl)
  exact ⟨_, hruns, ⟨rfl, rfl⟩, by decide, by decide⟩

theorem lastTwoPreferred_mixes :
    ¬ KeepsShards twoOfThree [some 0, some 1, some 2] [false, true, true] ∧
      ∃ result p', lastTwoPreferred.Reads secondFails result p' ∧
        (result.bufs.map fun bufs => bufs 1) = some [0] := by
  obtain ⟨s, hruns, hdone, hdecode, hslot⟩ := lastTwoPreferred_run
  have hreads : lastTwoPreferred.Reads secondFails s.result.1 s.result.2 :=
    .done (by decide) hruns hdone
  have hbufs : s.result.1.bufs = some s.newBuf := by
    unfold ReadState.result
    rw [if_pos hdecode]
  refine ⟨fun hkeeps => ?_, _, _, hreads, by rw [hbufs, Option.map_some, hslot]⟩
  rcases hkeeps.own 0 2 _ .refl secondFails _ _ hreads with hnone | ⟨bufs, hsome, hown⟩
  · rw [hnone] at hbufs
    exact nomatch hbufs
  · obtain rfl : s.newBuf = bufs := Option.some.inj (hbufs.symm.trans hsome)
    obtain ⟨rr, hreader, hbytes⟩ := hown 1 (by rw [hslot]; exact List.cons_ne_nil _ _)
    obtain rfl : 1 = rr := Option.some.inj hreader
    exact nomatch hbytes

end Examples

end Fs3
