import Fs3.Erasure.ParallelReader

/-! # Every shard is read into its own slot

The buffer that a reader fills is given by a map that the reordering of the readers keeps in step.
-/

namespace Fs3

open Foundation (Runs Stuck SwapChain)

variable {ρ : Type}

namespace ParallelReader

/-- The reader at each position is the one of the shard that the position is
mapped to, and the positions are mapped to the shards one to one. -/
structure Aligned (p : ParallelReader ρ) : Prop where
  permutes : Set.BijOn p.readerToBuf (Set.Iio p.drives) (Set.Iio p.drives)
  same : ∀ k < p.drives, p.readers k = p.orgReaders (p.readerToBuf k)

def KeepsReaders (org : Nat → Option ρ) (p : ParallelReader ρ) : Prop :=
  ∀ i r, p.orgReaders i = some r → org i = some r

/-! ## Reordering the readers -/

section Prefer

variable {p : ParallelReader ρ} {prefer : List Bool}

/-- Which positions the loop moves. -/
abbrev Chosen (p : ParallelReader ρ) (prefer : List Bool) (k : Nat) : Prop :=
  isPreferred p.orgReaders prefer k = true

theorem isPreferred_congr {readers readers' : Nat → Option ρ} {i : Nat}
    (hsame : readers i = readers' i) :
    isPreferred readers prefer i = isPreferred readers' prefer i := by
  unfold isPreferred
  rw [hsame]

theorem preferLoop_eq (hfresh : p.readerToBuf = id) (i : Nat) :
    p.preferLoop prefer i =
      ({ p with
          readers := p.orgReaders ∘ (SwapChain.run (p.Chosen prefer) i).moved
          readerToBuf := (SwapChain.run (p.Chosen prefer) i).recorded },
        Nat.count (p.Chosen prefer) i) := by
  induction i with
  | zero =>
    rw [preferLoop]
    cases p
    subst hfresh
    rfl
  | succ i ih =>
    rw [preferLoop, ih]
    -- The reader at a position that the loop has not reached is still its own.
    obtain ⟨hmoved, _⟩ := SwapChain.untouched_of_le (p.Chosen prefer) (Nat.le_refl i)
    have hown : isPreferred (p.orgReaders ∘ (SwapChain.run (p.Chosen prefer) i).moved) prefer i =
        isPreferred p.orgReaders prefer i :=
      isPreferred_congr (congrArg p.orgReaders hmoved)
    simp only [hown]
    by_cases hi : p.Chosen prefer i
    · rw [if_pos hi, Nat.count_succ, if_pos hi]
      rcases SwapChain.count_lt_or_eq (p.Chosen prefer) i with hmoves | hstays
      · obtain ⟨hmoved', hrecorded'⟩ := SwapChain.run_succ_of_moves hi hmoves
        rw [hmoved', hrecorded', moveReader, if_neg (by omega)]
        rfl
      · obtain ⟨hmoved', hrecorded'⟩ := SwapChain.run_succ_of_stays hi hstays
        rw [hmoved', hrecorded', moveReader, if_pos hstays.symm]
    · rw [if_neg hi, Nat.count_succ, if_neg hi, SwapChain.run_succ_of_not hi, Nat.add_zero]

/-- After reordering, every position leads to the shard of its reader exactly
when the preferred readers are separated: each has only preferred ones before
it, or stands past as many positions as there are preferred readers. -/
theorem aligned_preferReaders_iff (hfresh : p.readerToBuf = id)
    (hlength : prefer.length = p.drives) :
    (p.preferReaders prefer).Aligned ↔ SwapChain.Separated (p.Chosen prefer) p.drives := by
  rw [preferReaders, if_neg (not_not_intro hlength), preferLoop_eq hfresh]
  constructor
  · intro haligned
    exact SwapChain.recorded_injOn_iff.mp haligned.permutes.injOn
  · intro hsep
    have hrecorded : (SwapChain.run (p.Chosen prefer) p.drives).recorded =
        (SwapChain.run (p.Chosen prefer) p.drives).moved :=
      funext fun k => hsep.recorded_eq_moved (Nat.le_refl _) k
    constructor
    · rw [hrecorded]
      exact SwapChain.bijOn_moved
    · intro k _
      rw [hrecorded]
      rfl

theorem aligned_preferReaders_of_length_ne (hfresh : p.readerToBuf = id)
    (horder : p.readers = p.orgReaders) (hlength : prefer.length ≠ p.drives) :
    (p.preferReaders prefer).Aligned := by
  rw [preferReaders, if_pos hlength]
  constructor
  · rw [hfresh]
    exact Set.bijOn_id _
  · intro k _
    rw [hfresh, horder]
    rfl

theorem preferReaders_eq (hfresh : p.readerToBuf = id) (prefer : List Bool) :
    p.preferReaders prefer =
      { p with
        readers := (p.preferReaders prefer).readers
        readerToBuf := (p.preferReaders prefer).readerToBuf } := by
  rw [preferReaders]
  split
  next => rfl
  next =>
    rw [preferLoop_eq hfresh]

end Prefer

def SameRead (p p' : ParallelReader ρ) : Prop :=
  p' = { p with readers := p'.readers, orgReaders := p'.orgReaders }

end ParallelReader

/-! ## What a step of a read does -/

namespace ReadState

variable {answers : Answers ρ} {s s' : ReadState ρ}

theorem takeTrigger_cases (h : s.takeTrigger = some s') :
    s.looping = true ∧ ∃ readTrigger triggers, s.triggers = readTrigger :: triggers ∧
      ((s.reader.canDecode s.newBuf = true ∨ s.readerIndex = s.reader.drives) ∧
          s' = { s with triggers := triggers, looping := false } ∨
        s.reader.canDecode s.newBuf = false ∧ s.readerIndex ≠ s.reader.drives ∧
          (readTrigger = false ∧ s' = { s with triggers := triggers } ∨
            readTrigger = true ∧
              s' = { s with
                triggers := triggers
                readerIndex := s.readerIndex + 1
                running := s.readerIndex :: s.running })) := by
  unfold takeTrigger at h
  split at h
  next => exact nomatch h
  next hlooping =>
    refine ⟨by simpa using hlooping, ?_⟩
    split at h
    next => exact nomatch h
    next readTrigger triggers htriggers =>
      refine ⟨readTrigger, triggers, htriggers, ?_⟩
      simp only at h
      split at h
      next hdecode => exact Or.inl ⟨Or.inl hdecode, (Option.some.inj h).symm⟩
      next hdecode =>
        split at h
        next hindex => exact Or.inl ⟨Or.inr hindex, (Option.some.inj h).symm⟩
        next hindex =>
          refine Or.inr ⟨by simpa using hdecode, hindex, ?_⟩
          split at h
          next hfalse => exact Or.inl ⟨hfalse, (Option.some.inj h).symm⟩
          next htrue => exact Or.inr ⟨by simpa using htrue, (Option.some.inj h).symm⟩

/-- The three ways a started reader can end: it is not there, it fails and is
given up, or its shard goes to the slot that its position is mapped to. -/
theorem finishRead_cases (answers : Answers ρ) (i : Nat) (s : ReadState ρ) :
    s.reader.readers i = none ∧
        s.finishRead answers i =
          { s with running := s.running.erase i, triggers := s.triggers ++ [true] } ∨
      (∃ rr err missing bitrot,
        s.reader.readers i = some rr ∧
        answers rr s.reader.offset s.reader.shardSize.toNat = .error err ∧
        s.finishRead answers i =
          { s with
            running := s.running.erase i
            reader :=
              { s.reader with
                readers := Function.update s.reader.readers i none
                orgReaders :=
                  Function.update s.reader.orgReaders (s.reader.readerToBuf i) none }
            missingPartsHeal := missing
            bitrotHeal := bitrot
            triggers := s.triggers ++ [true] }) ∨
      ∃ rr bytes,
        s.reader.readers i = some rr ∧
        answers.bytes? rr s.reader.offset s.reader.shardSize.toNat = some bytes ∧
        bytes.length = s.reader.shardSize.toNat ∧
        s.finishRead answers i =
          { s with
            running := s.running.erase i
            newBuf := Function.update s.newBuf (s.reader.readerToBuf i) bytes
            triggers := s.triggers ++ [false] } := by
  unfold finishRead
  simp only
  cases hreader : s.reader.readers i with
  | none => exact Or.inl ⟨rfl, rfl⟩
  | some rr =>
    right
    cases hanswer : answers rr s.reader.offset s.reader.shardSize.toNat with
    | error err =>
      refine Or.inl ⟨rr, err, s.missingPartsHeal || err == .errFileNotFound,
        s.bitrotHeal || err == .errFileCorrupt, rfl, hanswer, ?_⟩
      simp only [hanswer]
    | ok bytes =>
      refine Or.inr ⟨rr, bytes.1, rfl, by rw [Answers.bytes?, hanswer], bytes.2, ?_⟩
      simp only [hanswer]

end ReadState

/-! ## What holds during a read -/

/-- What holds at any time of a read that began with aligned readers: they still
are, and each slot has nothing but what the reader of its shard has answered. -/
structure SlotsOwn (p : ParallelReader ρ) (answers : Answers ρ) (s : ReadState ρ) : Prop where
  same : p.SameRead s.reader
  aligned : s.reader.Aligned
  keeps : s.reader.KeepsReaders p.orgReaders
  started : s.readerIndex ≤ p.drives
  running : ∀ i ∈ s.running, i < s.readerIndex
  own : ∀ i, s.newBuf i ≠ [] → ∃ rr, p.orgReaders i = some rr ∧
    answers.bytes? rr p.offset p.shardSize.toNat = some (s.newBuf i)

section Invariant

variable {p : ParallelReader ρ} {answers : Answers ρ} {s s' : ReadState ρ}

theorem slotsOwn_start (haligned : p.Aligned) : SlotsOwn p.cutShardSize answers p.startRead where
  same := rfl
  aligned := by
    change p.cutShardSize.Aligned
    unfold ParallelReader.cutShardSize
    split
    next => exact ⟨haligned.permutes, haligned.same⟩
    next => exact haligned
  keeps := fun _ _ h => h
  started := Nat.zero_le _
  running := fun i hi => absurd hi List.not_mem_nil
  own := fun i hi => absurd rfl hi

theorem ParallelReader.Aligned.giveUp (haligned : p.Aligned) {i : Nat} (hi : i < p.drives) :
    ({ p with
      readers := Function.update p.readers i none
      orgReaders := Function.update p.orgReaders (p.readerToBuf i) none } :
        ParallelReader ρ).Aligned := by
  refine ⟨haligned.permutes, fun k hk => ?_⟩
  by_cases hki : k = i
  · subst hki
    simp
  · have hslot : p.readerToBuf k ≠ p.readerToBuf i := fun heq =>
      hki (haligned.permutes.injOn hk hi heq)
    simp only [Function.update_of_ne hki, Function.update_of_ne hslot]
    exact haligned.same k hk

theorem SlotsOwn.step (hown : SlotsOwn p answers s) (hstep : ReadStep answers s s') :
    SlotsOwn p answers s' := by
  obtain ⟨hsame, haligned, hkeeps, hstarted, hrunning, hslots⟩ := hown
  cases hstep with
  | trigger htake =>
    obtain ⟨_, readTrigger, triggers, _, ⟨_, rfl⟩ | ⟨_, hindex, ⟨_, rfl⟩ | ⟨_, rfl⟩⟩⟩ :=
      ReadState.takeTrigger_cases htake
    · exact ⟨hsame, haligned, hkeeps, hstarted, hrunning, hslots⟩
    · exact ⟨hsame, haligned, hkeeps, hstarted, hrunning, hslots⟩
    · have hdrives : s.reader.drives = p.drives := by rw [hsame]
      refine ⟨hsame, haligned, hkeeps, ?_, fun i hi => ?_, hslots⟩
      · change s.readerIndex + 1 ≤ p.drives
        omega
      · change i < s.readerIndex + 1
        rcases List.mem_cons.mp hi with rfl | hi
        · exact Nat.lt_succ_self _
        · exact Nat.lt_succ_of_lt (hrunning i hi)
  | finish i hi =>
    have hbound : i < s.reader.drives := by
      have hdrives : s.reader.drives = p.drives := by rw [hsame]
      have hlt := hrunning i hi
      omega
    have herased : ∀ k ∈ s.running.erase i, k < s.readerIndex := fun k hk =>
      hrunning k (List.mem_of_mem_erase hk)
    rcases ReadState.finishRead_cases answers i s with
      ⟨_, heq⟩ | ⟨rr, err, missing, bitrot, _, _, heq⟩ | ⟨rr, bytes, hreader, hbytes, _, heq⟩
    · rw [heq]
      exact ⟨hsame, haligned, hkeeps, hstarted, herased, hslots⟩
    · rw [heq]
      refine ⟨?_, haligned.giveUp hbound, fun k r hk => ?_, hstarted, herased, hslots⟩
      · unfold ParallelReader.SameRead at hsame ⊢
        rw [hsame]
      · by_cases hkb : k = s.reader.readerToBuf i
        · subst hkb
          simp at hk
        · simp only [Function.update_of_ne hkb] at hk
          exact hkeeps k r hk
    · rw [heq]
      refine ⟨hsame, haligned, hkeeps, hstarted, herased, fun k hk => ?_⟩
      by_cases hkb : k = s.reader.readerToBuf i
      · -- The slot is that of the shard whose reader answered.
        subst hkb
        have horg : s.reader.orgReaders (s.reader.readerToBuf i) = some rr :=
          (haligned.same i hbound).symm.trans hreader
        rw [hsame] at hbytes
        refine ⟨rr, hkeeps _ _ horg, ?_⟩
        simp only [Function.update_self]
        exact hbytes
      · simp only [Function.update_of_ne hkb] at hk ⊢
        exact hslots k hk

theorem SlotsOwn.runs (haligned : p.Aligned) (hruns : Runs (ReadStep answers) p.startRead s) :
    SlotsOwn p.cutShardSize answers s :=
  hruns.invariant (fun _ _ hown hstep => hown.step hstep) (slotsOwn_start haligned)

end Invariant

/-! ## A read comes to an end -/

def ReadState.filled (s : ReadState ρ) : Nat :=
  (List.range s.reader.drives).countP fun i => s.newBuf i ≠ []

theorem ReadState.canDecode_eq (s : ReadState ρ) :
    s.reader.canDecode s.newBuf = decide (s.reader.dataBlocks ≤ s.filled) := rfl

theorem countP_range_update {f : Bufs} {slot : Nat} {bytes : Bytes} (hempty : f slot = [])
    (hbytes : bytes ≠ []) (n : Nat) :
    (List.range n).countP (fun i => Function.update f slot bytes i ≠ []) =
      (List.range n).countP (fun i => f i ≠ []) + if slot < n then 1 else 0 := by
  induction n with
  | zero => rfl
  | succ n ih =>
    rw [List.range_succ, List.countP_append, List.countP_append, ih, List.countP_singleton,
      List.countP_singleton]
    by_cases hslot : slot = n
    · subst hslot
      simp [hempty, hbytes]
    · have hne : n ≠ slot := Ne.symm hslot
      rw [Function.update_of_ne hne, if_congr (show slot < n + 1 ↔ slot < n by omega) rfl rfl]
      omega

/-- What keeps a read going: while the loop is on, each shard that is needed is
there, is being read, or has a trigger in the queue, and either a reader or a
trigger is left. -/
structure Moving (s : ReadState ρ) : Prop where
  nodup : s.running.Nodup
  fresh : ∀ i < s.reader.drives, s.newBuf (s.reader.readerToBuf i) ≠ [] →
    i < s.readerIndex ∧ i ∉ s.running
  conserved : s.looping = true →
    s.filled + s.running.length + s.triggers.count true = s.reader.dataBlocks
  moving : s.looping = true → s.running ≠ [] ∨ s.triggers ≠ []

section Progress

variable {p : ParallelReader ρ} {answers : Answers ρ} {s s' : ReadState ρ}

theorem moving_start (hdata : 0 < p.dataBlocks) : Moving p.startRead where
  nodup := List.nodup_nil
  fresh := fun i _ hi => absurd rfl hi
  conserved := by
    intro _
    have hblocks : p.startRead.reader.dataBlocks = p.dataBlocks := by
      change p.cutShardSize.dataBlocks = p.dataBlocks
      unfold ParallelReader.cutShardSize
      split <;> rfl
    have hfilled : p.startRead.filled = 0 := List.countP_eq_zero.mpr fun i _ => by
      simp [ParallelReader.startRead]
    rw [hblocks, hfilled]
    simp [ParallelReader.startRead]
  moving := by
    intro _
    right
    change List.replicate p.dataBlocks true ≠ []
    rw [Ne, List.replicate_eq_nil_iff]
    omega

theorem Moving.trigger (hmoving : Moving s) (hown : SlotsOwn p answers s)
    (htake : s.takeTrigger = some s') : Moving s' := by
  obtain ⟨hnodup, hfresh, hconserved, _⟩ := hmoving
  obtain ⟨hlooping, readTrigger, triggers, htriggers, hcases⟩ := ReadState.takeTrigger_cases htake
  have hsum := hconserved hlooping
  rw [htriggers] at hsum
  rcases hcases with ⟨_, rfl⟩ | ⟨hdecode, _, ⟨rfl, rfl⟩ | ⟨rfl, rfl⟩⟩
  · exact ⟨hnodup, hfresh, fun h => Bool.noConfusion h, fun h => Bool.noConfusion h⟩
  · rw [List.count_cons_of_ne (by decide)] at hsum
    refine ⟨hnodup, hfresh, fun _ => hsum, fun _ => ?_⟩
    -- The buffers are not enough yet, so a reader or a true trigger is left.
    rw [ReadState.canDecode_eq, decide_eq_false_iff_not] at hdecode
    by_contra hstill
    rw [not_or, not_not, not_not] at hstill
    obtain ⟨hrunning, hnone⟩ := hstill
    change s.running = [] at hrunning
    change triggers = [] at hnone
    rw [hrunning, hnone] at hsum
    simp at hsum
    omega
  · rw [List.count_cons_self] at hsum
    refine ⟨List.nodup_cons.mpr ⟨fun hmem => ?_, hnodup⟩, fun i hi hfilled => ?_, fun _ => ?_,
      fun _ => Or.inl (List.cons_ne_nil _ _)⟩
    · exact absurd (hown.running _ hmem) (Nat.lt_irrefl _)
    · obtain ⟨hstarted, hnot⟩ := hfresh i hi hfilled
      refine ⟨Nat.lt_succ_of_lt hstarted, fun hmem => ?_⟩
      rcases List.mem_cons.mp hmem with rfl | hmem
      · exact absurd hstarted (Nat.lt_irrefl _)
      · exact hnot hmem
    · change s.filled + (s.readerIndex :: s.running).length + triggers.count true =
        s.reader.dataBlocks
      rw [List.length_cons]
      omega

theorem Moving.fail (hmoving : Moving s) {i : Nat} (hi : i ∈ s.running)
    (hrunning : s'.running = s.running.erase i) (htriggers : s'.triggers = s.triggers ++ [true])
    (hlooping : s'.looping = s.looping) (hindex : s'.readerIndex = s.readerIndex)
    (hbuf : s'.newBuf = s.newBuf)
    (hreader : s.reader.SameRead s'.reader) : Moving s' := by
  obtain ⟨hnodup, hfresh, hconserved, _⟩ := hmoving
  have hlength := List.length_erase_add_one hi
  have hfilled : s'.filled = s.filled := by
    unfold ReadState.filled
    rw [hbuf, hreader]
  refine ⟨hrunning ▸ hnodup.erase i, fun k hk hslot => ?_, fun hloop => ?_, fun _ => Or.inr ?_⟩
  · rw [hreader] at hk hslot
    rw [hbuf] at hslot
    obtain ⟨hstarted, hnot⟩ := hfresh k hk hslot
    rw [hindex, hrunning]
    exact ⟨hstarted, fun hmem => hnot (List.mem_of_mem_erase hmem)⟩
  · have hsum := hconserved (hlooping ▸ hloop)
    rw [hfilled, hrunning, htriggers, hreader, List.count_append, List.count_singleton_self]
    change _ = s.reader.dataBlocks
    omega
  · rw [htriggers]
    exact List.append_ne_nil_of_right_ne_nil _ (List.cons_ne_nil _ _)

theorem Moving.finish (hmoving : Moving s) (hown : SlotsOwn p answers s)
    (hsize : 0 < s.reader.shardSize) {i : Nat} (hi : i ∈ s.running) :
    Moving (s.finishRead answers i) := by
  rcases ReadState.finishRead_cases answers i s with
    ⟨_, heq⟩ | ⟨rr, err, missing, bitrot, _, _, heq⟩ | ⟨rr, bytes, _, _, hbytes, heq⟩
  · rw [heq]
    exact hmoving.fail hi rfl rfl rfl rfl rfl rfl
  · rw [heq]
    exact hmoving.fail hi rfl rfl rfl rfl rfl rfl
  · obtain ⟨hnodup, hfresh, hconserved, _⟩ := hmoving
    have hbound : i < s.reader.drives := by
      have hdrives : s.reader.drives = p.drives := by rw [hown.same]
      have hlt := hown.running i hi
      have hle := hown.started
      omega
    have hslot : s.reader.readerToBuf i < s.reader.drives := hown.aligned.permutes.mapsTo hbound
    have hempty : s.newBuf (s.reader.readerToBuf i) = [] := by
      by_contra hfull
      exact (hfresh i hbound hfull).2 hi
    have hne : bytes ≠ [] := by
      rintro rfl
      rw [List.length_nil] at hbytes
      omega
    rw [heq]
    refine ⟨hnodup.erase i, fun k hk hfull => ?_, fun hlooping => ?_, fun _ => Or.inr ?_⟩
    · by_cases hki : k = i
      · subst hki
        exact ⟨hown.running k hi, hnodup.not_mem_erase⟩
      · have hother : s.reader.readerToBuf k ≠ s.reader.readerToBuf i := fun hsame =>
          hki (hown.aligned.permutes.injOn hk hbound hsame)
        simp only [Function.update_of_ne hother] at hfull
        obtain ⟨hstarted, hnot⟩ := hfresh k hk hfull
        exact ⟨hstarted, fun hmem => hnot (List.mem_of_mem_erase hmem)⟩
    · have hsum := hconserved hlooping
      have hlength := List.length_erase_add_one hi
      have hfilled := countP_range_update hempty hne s.reader.drives
      rw [if_pos hslot] at hfilled
      change (List.range s.reader.drives).countP
        (fun k => Function.update s.newBuf (s.reader.readerToBuf i) bytes k ≠ []) +
          (s.running.erase i).length + (s.triggers ++ [false]).count true = s.reader.dataBlocks
      have hcount : (s.triggers ++ [false]).count true = s.triggers.count true := by
        simp
      rw [hfilled, hcount]
      unfold ReadState.filled at hsum
      omega
    · exact List.append_ne_nil_of_right_ne_nil _ (List.cons_ne_nil _ _)

def ReadState.work (s : ReadState ρ) : Nat :=
  3 * (s.reader.drives - s.readerIndex) + 2 * s.running.length + s.triggers.length +
    if s.looping then 1 else 0

theorem ReadStep.work_lt (hown : SlotsOwn p answers s) (hstep : ReadStep answers s s') :
    s'.work < s.work := by
  have hdrives : s.reader.drives = p.drives := by rw [hown.same]
  have hstarted := hown.started
  unfold ReadState.work
  cases hstep with
  | trigger htake =>
    obtain ⟨hlooping, readTrigger, triggers, htriggers, hcases⟩ :=
      ReadState.takeTrigger_cases htake
    rw [hlooping, htriggers, List.length_cons]
    rcases hcases with ⟨_, rfl⟩ | ⟨_, hindex, ⟨_, rfl⟩ | ⟨_, rfl⟩⟩
    · simp only [Bool.false_eq_true, if_false, if_true]
      omega
    · simp only [hlooping, if_true]
      omega
    · simp only [hlooping, if_true, List.length_cons]
      omega
  | finish i hi =>
    have hlength := List.length_erase_add_one hi
    rcases ReadState.finishRead_cases answers i s with
      ⟨_, heq⟩ | ⟨rr, err, missing, bitrot, _, _, heq⟩ | ⟨rr, bytes, _, _, _, heq⟩
    all_goals
      rw [heq]
      simp only [List.length_append, List.length_singleton]
      omega

theorem Moving.isDone_of_stuck (hmoving : Moving s) (hstuck : Stuck (ReadStep answers) s) :
    s.isDone := by
  have hrunning : s.running = [] := by
    by_contra hne
    obtain ⟨i, hi⟩ := List.exists_mem_of_ne_nil _ hne
    exact hstuck _ (.finish i hi)
  refine ⟨?_, hrunning⟩
  by_contra hlooping
  rw [Bool.not_eq_false] at hlooping
  rcases hmoving.moving hlooping with hne | hne
  · exact hne hrunning
  · obtain ⟨readTrigger, triggers, htriggers⟩ := List.exists_cons_of_ne_nil hne
    have hsome : s.takeTrigger.isSome = true := by
      unfold ReadState.takeTrigger
      rw [if_neg (by simp [hlooping]), htriggers]
      simp only
      split <;> [rfl; (split <;> [rfl; (split <;> rfl)])]
    obtain ⟨next, hnext⟩ := Option.isSome_iff_exists.mp hsome
    exact hstuck next (.trigger hnext)

theorem slotsOwn_moving_step (hsize : 0 < p.shardSize)
    (hinv : SlotsOwn p answers s ∧ Moving s) (hstep : ReadStep answers s s') :
    SlotsOwn p answers s' ∧ Moving s' := by
  obtain ⟨hown, hmoving⟩ := hinv
  refine ⟨hown.step hstep, ?_⟩
  cases hstep with
  | trigger htake => exact hmoving.trigger hown htake
  | finish i hi =>
    have hshard : s.reader.shardSize = p.shardSize := by rw [hown.same]
    exact hmoving.finish hown (hshard ▸ hsize) hi

theorem ParallelReader.Aligned.read_returns (haligned : p.Aligned) (hdata : 0 < p.dataBlocks)
    (hsize : 0 < p.cutShardSize.shardSize) :
    Acc (fun s' s => ReadStep answers s s') p.startRead ∧
      ∀ s, Runs (ReadStep answers) p.startRead s → Stuck (ReadStep answers) s → s.isDone := by
  have hstart : SlotsOwn p.cutShardSize answers p.startRead ∧ Moving p.startRead :=
    ⟨slotsOwn_start haligned, moving_start hdata⟩
  constructor
  · exact Runs.acc ReadState.work (fun _ _ => slotsOwn_moving_step hsize)
      (fun _ _ hinv => ReadStep.work_lt hinv.1) hstart
  · intro s hruns
    exact (hruns.invariant (fun _ _ => slotsOwn_moving_step hsize) hstart).2.isDone_of_stuck

end Progress

/-! ## What a whole read returns -/

section Whole

variable {p p' : ParallelReader ρ} {answers : Answers ρ} {result : ReadResult}

theorem cutShardSize_eq (p : ParallelReader ρ) :
    p.cutShardSize = { p with shardSize := p.cutShardSize.shardSize } := by
  unfold ParallelReader.cutShardSize
  split <;> rfl

def OwnBufs (p : ParallelReader ρ) (answers : Answers ρ) (bufs : Bufs) : Prop :=
  ∀ i, bufs i ≠ [] → ∃ rr, p.orgReaders i = some rr ∧
    answers.bytes? rr p.offset p.cutShardSize.shardSize.toNat = some (bufs i)

/-- Two readers of the same shards at the same place, whatever their order and
whichever are left. -/
structure ParallelReader.SameShape (p q : ParallelReader ρ) : Prop where
  drives : q.drives = p.drives
  dataBlocks : q.dataBlocks = p.dataBlocks
  offset : q.offset = p.offset
  shardSize : q.shardSize = p.shardSize
  shardFileSize : q.shardFileSize = p.shardFileSize

theorem ParallelReader.SameShape.cutShardSize {q : ParallelReader ρ} (hshape : p.SameShape q) :
    p.cutShardSize.SameShape q.cutShardSize := by
  obtain ⟨hdrives, hdata, hoffset, hsize, hfile⟩ := hshape
  unfold ParallelReader.cutShardSize
  rw [hoffset, hsize, hfile]
  split
  · exact ⟨hdrives, hdata, rfl, rfl, rfl⟩
  · exact ⟨hdrives, hdata, hoffset, hsize, hfile⟩

def ParallelReader.moveOn (p : ParallelReader ρ) : ParallelReader ρ :=
  { p.cutShardSize with offset := p.offset + p.cutShardSize.shardSize }

theorem ParallelReader.SameShape.moveOn {q : ParallelReader ρ} (hshape : p.SameShape q) :
    p.moveOn.SameShape q.moveOn := by
  obtain ⟨hdrives, hdata, hoffset, hsize, hfile⟩ := hshape.cutShardSize
  refine ⟨hdrives, hdata, ?_, hsize, hfile⟩
  change q.offset + q.cutShardSize.shardSize = p.offset + p.cutShardSize.shardSize
  rw [hsize, hshape.offset]

theorem ParallelReader.SameShape.next {q q' : ParallelReader ρ} (hshape : p.SameShape q)
    (hmoved : p.moveOn.SameShape p') (hmoved' : q.moveOn.SameShape q') : p'.SameShape q' where
  drives := hmoved'.drives.trans (hshape.moveOn.drives.trans hmoved.drives.symm)
  dataBlocks := hmoved'.dataBlocks.trans (hshape.moveOn.dataBlocks.trans hmoved.dataBlocks.symm)
  offset := hmoved'.offset.trans (hshape.moveOn.offset.trans hmoved.offset.symm)
  shardSize := hmoved'.shardSize.trans (hshape.moveOn.shardSize.trans hmoved.shardSize.symm)
  shardFileSize := hmoved'.shardFileSize.trans
    (hshape.moveOn.shardFileSize.trans hmoved.shardFileSize.symm)

theorem ParallelReader.Reads.aligned (haligned : p.Aligned) (hreads : p.Reads answers result p') :
    p'.Aligned ∧ p'.KeepsReaders p.orgReaders ∧ p'.dataBlocks = p.dataBlocks := by
  have hcut := cutShardSize_eq p
  cases hreads with
  | empty hempty =>
    rw [hcut]
    exact ⟨⟨haligned.permutes, haligned.same⟩, fun _ _ h => h, rfl⟩
  | @done s _ hruns _ =>
    have hown := SlotsOwn.runs haligned hruns
    have hkeeps := hown.keeps
    have hdata : s.reader.dataBlocks = p.dataBlocks := by
      rw [hown.same, hcut]
    rw [hcut] at hkeeps
    unfold ReadState.result
    split
    · exact ⟨⟨hown.aligned.permutes, hown.aligned.same⟩, hkeeps, hdata⟩
    · exact ⟨hown.aligned, hkeeps, hdata⟩

/-- A read fails for want of shards, or there was nothing to read, or it returns
enough shards and each where it belongs. -/
theorem ParallelReader.Reads.cases (haligned : p.Aligned)
    (hreads : p.Reads answers result p') :
    result = { bufs := none, err := some .errErasureReadQuorum } ∨
      ∃ bufs, result.bufs = some bufs ∧ p.moveOn.SameShape p' ∧
        (p.cutShardSize.shardSize = 0 ∧ bufs = (fun _ => []) ∨
          p.cutShardSize.shardSize ≠ 0 ∧ OwnBufs p answers bufs ∧
            p.dataBlocks ≤ (List.range p.drives).countP fun i => bufs i ≠ []) := by
  have hcut := cutShardSize_eq p
  cases hreads with
  | empty hempty =>
    refine Or.inr ⟨_, rfl, ⟨rfl, rfl, ?_, rfl, rfl⟩, Or.inl ⟨hempty, rfl⟩⟩
    change p.cutShardSize.offset = p.offset + p.cutShardSize.shardSize
    rw [hempty, Int.add_zero, hcut]
  | @done s hne hruns _ =>
    have hown := SlotsOwn.runs haligned hruns
    have hsame := hown.same
    have hslots := hown.own
    rw [hcut] at hslots
    unfold ParallelReader.SameRead at hsame
    unfold ReadState.result
    split
    next hdecode =>
      have hcount : p.dataBlocks ≤ (List.range p.drives).countP fun i => s.newBuf i ≠ [] := by
        have henough := of_decide_eq_true hdecode
        rw [hsame, hcut] at henough
        exact henough
      refine Or.inr ⟨_, rfl, ?_, Or.inr ⟨hne, hslots, hcount⟩⟩
      rw [hsame]
      refine ⟨rfl, rfl, ?_, rfl, rfl⟩
      change p.cutShardSize.offset + p.cutShardSize.shardSize =
        p.offset + p.cutShardSize.shardSize
      rw [show p.cutShardSize.offset = p.offset by rw [hcut]]
    next => exact Or.inl rfl

end Whole

end Fs3
