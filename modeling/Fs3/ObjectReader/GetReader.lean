import Fs3.ObjectReader.RangeCorrect

/-! # The reader of an object

A reader asks for a range of what is stored and turns it into the range of the plaintext that was
requested: it decrypts, decompresses, skips and cuts off. -/

namespace Fs3.ObjectReader

open Foundation

/-- The package `s2`. -/
structure S2 where
  /-- Whether a stream is the compressed form of some bytes. -/
  encodes : Bytes → Bytes → Prop
  newReader : Bytes → Bytes
  newReader_flatten : ∀ streams : List (Bytes × Bytes), (∀ s ∈ streams, encodes s.1 s.2) →
    newReader (streams.map Prod.fst).flatten = (streams.map Prod.snd).flatten

/-- `ObjectOptions`, the fields that decide what is read. -/
structure ReadOptions where
  partNumber : Int := 0
  /-- Whether `Transition.RestoreRequest` is set. -/
  restoreRequest : Bool := false
  /-- Whether there is a `CheckPrecondFn` and it returns true. -/
  preconditionFailed : Bool := false

/-- The range of a part: the loop over the parts up to the one that is asked for. -/
def partRange (partNumber : Int) : Int → Int × Int → List ObjectPartInfo → Int × Int
  | _, range, [] => range
  | i, range, part :: parts =>
    if i < partNumber then
      partRange partNumber (i + 1) (range.2 + 1, range.2 + 1 + part.actualSize - 1) parts
    else range

def partNumberToRangeSpec (oi : ObjectInfo) (partNumber : Int) : Option HTTPRangeSpec :=
  if oi.size = 0 ∨ oi.parts.length = 0 then none
  else
    let range := partRange partNumber 0 (0, -1) oi.parts
    some { start := range.1, end_ := range.2 }

/-- The loop of `getCompressedOffsets`: the compressed offset, the bytes of the parts that
are skipped, and the first part. -/
def compressedOffsetsLoop (offset : Int) :
    Nat → Int → Int → List ObjectPartInfo → Int × Int × Nat
  | _, _, compressedOffset, [] => (compressedOffset, 0, 0)
  | i, cumulativeActualSize, compressedOffset, part :: parts =>
    if cumulativeActualSize + part.actualSize ≤ offset then
      compressedOffsetsLoop offset (i + 1) (cumulativeActualSize + part.actualSize)
        (compressedOffset + part.size) parts
    else (compressedOffset, cumulativeActualSize + part.actualSize - part.actualSize, i)

/-- `getCompressedOffsets`. -/
def getCompressedOffsets (objectInfo : ObjectInfo) (offset : Int) : Int × Int × Nat :=
  let (compressedOffset, skipLength, firstPartIdx) :=
    compressedOffsetsLoop offset 0 0 0 objectInfo.parts
  (compressedOffset, offset - skipLength, firstPartIdx)

/-- What `NewGetObjectReader` returns: the range to read of what is stored, and how the
plaintext is read from it. -/
structure ObjReader where
  fn : Bytes → Except ReadErr Bytes
  off : Int
  length : Int

section Reader

variable {Key : Type} (dare : Dare Key) (s2 : S2) (objectKey : Key)

/-- `GetActualSize`. -/
def ObjectInfo.getActualSize (o : ObjectInfo) : Except ReadErr Int :=
  if o.isCompressed then
    match o.userDefined[reservedMetadataPrefix ++ "actual-size"]? with
    | none => .error .errInvalidDecompressedSize
    | some sizeStr =>
      match atoi sizeStr with
      | (size, none) => .ok size
      | (_, some _) => .error .errInvalidDecompressedSize
  else if o.isEncrypted then o.decryptedObjSize dare
  else .ok o.size

/-- The reader of a compressed object, decrypting first where it is encrypted as well. -/
def decompress (oi : ObjectInfo) (opts : ReadOptions) (isEncrypted : Bool) (firstPart : Nat)
    (decOff decLength : Int) (inputReader : Bytes) : Except ReadErr Bytes :=
  if opts.preconditionFailed then .error .preConditionFailed
  else
    let inputReader :=
      if isEncrypted then oi.decryptBlocks dare objectKey 0 firstPart inputReader else inputReader
    let s2Reader := s2.newReader inputReader
    if 0 < decOff ∧ (s2Reader.length : Int) < decOff then .error .errUnexpectedEOF
    else .ok ((s2Reader.drop decOff.toNat).take decLength.toNat)

/-- The case of `NewGetObjectReader` for compressed objects. -/
def compressedReader (rs : Option HTTPRangeSpec) (oi : ObjectInfo) (opts : ReadOptions)
    (isEncrypted : Bool) : Except ReadErr ObjReader :=
  match oi.getActualSize dare with
  | .error err => .error err
  | .ok actualSize =>
    match rs with
    | none =>
      let firstPart := if 0 < opts.partNumber then (opts.partNumber - 1).toNat else 0
      .ok { fn := decompress dare s2 objectKey oi opts isEncrypted firstPart 0 actualSize
            off := 0
            length := oi.size }
    | some _ =>
      match getOffsetLength rs actualSize with
      | .error err => .error err
      | .ok (off, length) =>
        let (off, decOff, firstPart) := getCompressedOffsets oi off
        let decLength := if length < 0 then actualSize - decOff else length
        if decOff > actualSize ∨ decOff + decLength > actualSize then
          .error .errInvalidRange
        else
          .ok { fn := decompress dare s2 objectKey oi opts isEncrypted firstPart decOff
                  decLength
                off
                length := oi.size - off }

def encryptedReader (rs : Option HTTPRangeSpec) (oi : ObjectInfo) (opts : ReadOptions) :
    Except ReadErr ObjReader :=
  match oi.getDecryptedRange dare rs with
  | .error err => .error err
  | .ok range =>
    match oi.decryptedObjSize dare with
    | .error err => .error err
    | .ok decSize =>
      match getLength rs decSize with
      | .error err => .error err
      | .ok decRangeLength =>
        .ok { fn := fun inputReader =>
                if opts.preconditionFailed then .error .preConditionFailed
                else
                  let decReader := oi.decryptBlocks dare objectKey range.seqNumber
                    range.partStart inputReader
                  .ok ((decReader.drop range.skipLen.toNat).take decRangeLength.toNat)
              off := range.encOff
              length := range.encLength }

def plainReader (rs : Option HTTPRangeSpec) (oi : ObjectInfo) (opts : ReadOptions) :
    Except ReadErr ObjReader :=
  match getOffsetLength rs oi.size with
  | .error err => .error err
  | .ok (off, length) =>
    .ok { fn := fun inputReader =>
            if opts.preconditionFailed then .error .preConditionFailed else .ok inputReader
          off
          length }

def newGetObjectReader (rs : Option HTTPRangeSpec) (oi : ObjectInfo) (opts : ReadOptions) :
    Except ReadErr ObjReader :=
  let rs :=
    if rs.isNone && decide (0 < opts.partNumber) then partNumberToRangeSpec oi opts.partNumber
    else rs
  match oi.isCompressedOK with
  | .error err => .error err
  | .ok isCompressed =>
    -- A restore fetches what is stored.
    let isEncrypted := oi.isEncrypted && !opts.restoreRequest
    if isCompressed && !opts.restoreRequest then
      compressedReader dare s2 objectKey rs oi opts isEncrypted
    else if isEncrypted then encryptedReader dare objectKey rs oi opts
    else plainReader rs oi opts

end Reader

end Fs3.ObjectReader

/-! ## The reader delivers the range that was requested

However an object is stored, the range that is read of it is turned back into the
requested bytes of the plaintext.
-/

namespace Fs3.ObjectReader

open Foundation

variable {Key : Type} {dare : Dare Key} {s2 : S2} {objectKey : Key}

/-- The parts an object lists: what they take in the store, and what they hold. -/
def PartsOf (o : ObjectInfo) (parts : List (Nat × Bytes)) : Prop :=
  o.parts = [] ∧ parts.length = 1 ∨
    o.parts ≠ [] ∧ o.parts.map (fun part => (part.size, part.actualSize)) =
      parts.map fun part => ((part.1 : Int), (part.2.length : Int))

/-- How an object with some plaintext is stored, part by part. -/
inductive Stored (dare : Dare Key) (s2 : S2) (objectKey : Key) (o : ObjectInfo) :
    Bytes → List Bytes → Prop where
  | plain {plain : List Bytes} (hparts : PartsOf o (plain.map fun part => (part.length, part)))
      (hencrypted : o.isEncrypted = false) (hcompressed : o.isCompressedOK = .ok false)
      (hsize : o.size = plain.flatten.length) :
      Stored dare s2 objectKey o plain.flatten plain
  | compressed {streams : List (Bytes × Bytes)}
      (hparts : PartsOf o (streams.map fun s => (s.1.length, s.2)))
      (hencrypted : o.isEncrypted = false) (hcompressed : o.isCompressedOK = .ok true)
      (hencodes : ∀ s ∈ streams, s2.encodes s.1 s.2)
      (hactual : o.getActualSize dare = .ok ((streams.map Prod.snd).flatten.length : Int))
      (hsize : o.size = (streams.map Prod.fst).flatten.length) :
      Stored dare s2 objectKey o (streams.map Prod.fst).flatten (streams.map Prod.snd)
  | encrypted {plain : List Bytes}
      (hparts : PartsOf o (plain.map fun part => (dareSize part.length, part)))
      (hencrypts : Encrypts dare o plain) (hcompressed : o.isCompressedOK = .ok false) :
      Stored dare s2 objectKey o
        (dare.streams (o.streamKeys dare objectKey) plain).flatten.flatten plain
  | compressedEncrypted {streams : List (Bytes × Bytes)}
      (hparts : PartsOf o (streams.map fun s => (dareSize s.1.length, s.2)))
      (hencrypts : Encrypts dare o (streams.map Prod.fst))
      (hcompressed : o.isCompressedOK = .ok true)
      (hencodes : ∀ s ∈ streams, s2.encodes s.1 s.2)
      (hactual : o.getActualSize dare = .ok ((streams.map Prod.snd).flatten.length : Int)) :
      Stored dare s2 objectKey o
        (dare.streams (o.streamKeys dare objectKey) (streams.map Prod.fst)).flatten.flatten
        (streams.map Prod.snd)

/-- A request and the range of the plaintext it is for. -/
inductive Asks (plain : List Bytes) : Option HTTPRangeSpec → Int → Nat → Nat → Prop where
  | whole {partNumber : Int} (hnone : partNumber ≤ 0) :
      Asks plain none partNumber 0 plain.flatten.length
  | range {spec : HTTPRangeSpec} {partNumber : Int} {off length : Nat}
      (hrange : getOffsetLength (some spec) plain.flatten.length = .ok ((off : Int),
        (length : Int)))
      (hlength : 1 ≤ length) (hend : off + length ≤ plain.flatten.length) :
      Asks plain (some spec) partNumber off length
  | part {before after : List Bytes} {part : Bytes} (hplain : plain = before ++ part :: after)
      (hne : part ≠ []) :
      Asks plain none (before.length + 1 : Nat) before.flatten.length part.length

theorem PartsOf.ne_nil {o : ObjectInfo} {parts : List (Nat × Bytes)} (hparts : PartsOf o parts) :
    parts ≠ [] := by
  intro hnil
  rcases hparts with ⟨-, hone⟩ | ⟨hne, hlisted⟩
  · rw [hnil] at hone
    nomatch hone
  · rw [hnil, List.map_nil, List.map_eq_nil_iff] at hlisted
    exact hne hlisted

/-! ## Part numbers -/

theorem partRange_eq {partNumber : Int} {i : Int} {start end_ : Int}
    {parts : List ObjectPartInfo} {before after : List Bytes} {part : Bytes}
    (hparts : parts.map ObjectPartInfo.actualSize =
      (before ++ part :: after).map fun part => (part.length : Int))
    (hi : i + before.length + 1 = partNumber) :
    partRange partNumber i (start, end_) parts =
      (end_ + before.flatten.length + 1, end_ + before.flatten.length + part.length) := by
  induction before generalizing parts i start end_ with
  | nil =>
    cases parts with
    | nil => nomatch hparts
    | cons first parts =>
      rw [List.nil_append, List.map_cons, List.map_cons, List.cons.injEq] at hparts
      rw [List.length_nil] at hi
      rw [partRange, if_pos (by omega), hparts.1]
      have hstop : ∀ range, partRange partNumber (i + 1) range parts = range := by
        intro range
        cases parts with
        | nil => rfl
        | cons next parts => rw [partRange, if_neg (by omega)]
      rw [hstop, List.flatten_nil, List.length_nil, Prod.mk.injEq]
      exact ⟨by omega, by omega⟩
  | cons head before ih =>
    cases parts with
    | nil => nomatch hparts
    | cons first parts =>
      rw [List.cons_append, List.map_cons, List.map_cons, List.cons.injEq] at hparts
      rw [List.length_cons] at hi
      rw [partRange, if_pos (by omega), ih hparts.2 (by omega), hparts.1, List.flatten_cons,
        List.length_append, Prod.mk.injEq]
      exact ⟨by omega, by omega⟩

theorem PartsOf.actualSizes {o : ObjectInfo} {parts : List (Nat × Bytes)} (hparts : PartsOf o parts)
    (hlisted : o.parts ≠ []) :
    o.parts.map ObjectPartInfo.actualSize =
      (parts.map Prod.snd).map fun part => (part.length : Int) := by
  obtain ⟨-, hboth⟩ := hparts.resolve_left fun h => hlisted h.1
  have hsnd := congrArg (List.map Prod.snd) hboth
  rw [List.map_map, List.map_map] at hsnd
  rw [List.map_map]
  exact hsnd

theorem getOffsetLength_part {resourceSize start length : Nat} (hlength : 1 ≤ length)
    (hend : start + length ≤ resourceSize) :
    getOffsetLength (some { start := start, end_ := start + length - 1 }) resourceSize =
      .ok ((start : Int), (length : Int)) := by
  simp only [getOffsetLength, getLength, Bool.false_eq_true, if_false]
  rw [if_neg (by omega), if_neg (by omega), if_pos (by omega), if_neg (by omega)]
  dsimp only
  rw [Except.ok.injEq, Prod.mk.injEq]
  exact ⟨rfl, by omega⟩

def effectiveRange (o : ObjectInfo) (rs : Option HTTPRangeSpec) (partNumber : Int) :
    Option HTTPRangeSpec :=
  if rs.isNone && decide (0 < partNumber) then partNumberToRangeSpec o partNumber else rs

/-- A request comes down to a range, or to the whole object. -/
theorem Asks.spec {o : ObjectInfo} {parts : List (Nat × Bytes)} {plain : List Bytes}
    {rs : Option HTTPRangeSpec} {partNumber : Int} {off length : Nat}
    (hasks : Asks plain rs partNumber off length) (hparts : PartsOf o parts)
    (hplain : parts.map Prod.snd = plain) (hempty : o.size = 0 → plain.flatten = []) :
    getOffsetLength (effectiveRange o rs partNumber) plain.flatten.length =
        .ok ((off : Int), (length : Int)) ∧
      off + length ≤ plain.flatten.length ∧
      (effectiveRange o rs partNumber = none ∧ off = 0 ∧ length = plain.flatten.length ∧
          partNumber ≤ 1 ∨
        (effectiveRange o rs partNumber).isSome = true ∧ 1 ≤ length) := by
  cases hasks with
  | whole hnone =>
    rw [effectiveRange, decide_eq_false (Int.not_lt.mpr hnone), Bool.and_false,
      if_neg Bool.false_ne_true]
    exact ⟨rfl, by omega, Or.inl ⟨rfl, rfl, rfl, by omega⟩⟩
  | range hrange hlength hend => exact ⟨hrange, hend, Or.inr ⟨rfl, hlength⟩⟩
  | @part before after part hsplit hne =>
    have hpos := List.length_pos_of_ne_nil hne
    have htotal : plain.flatten.length =
        before.flatten.length + (part.length + after.flatten.length) := by
      rw [hsplit, List.flatten_append, List.flatten_cons, List.length_append, List.length_append]
    have hsize : o.size ≠ 0 := by
      intro hzero
      rw [hempty hzero, List.length_nil] at htotal
      omega
    have heffective : effectiveRange o none ((before.length + 1 : Nat) : Int) =
        partNumberToRangeSpec o ((before.length + 1 : Nat) : Int) := by
      rw [effectiveRange, decide_eq_true (by omega)]
      rfl
    rw [heffective, partNumberToRangeSpec]
    by_cases hlisted : o.parts = []
    · -- The only part is the whole object.
      have hone : plain.length = 1 := by
        rw [← hplain, List.length_map]
        exact (hparts.resolve_right fun h => h.1 hlisted).2
      rw [hsplit, List.length_append, List.length_cons] at hone
      have hbefore : before = [] := List.length_eq_zero_iff.mp (by omega)
      have hafter : after = [] := List.length_eq_zero_iff.mp (by omega)
      rw [if_pos (Or.inr (by rw [hlisted]; rfl))]
      rw [hbefore, hafter, List.flatten_nil, List.length_nil] at htotal
      rw [hbefore, List.flatten_nil, List.length_nil, List.length_nil]
      refine ⟨?_, by omega, Or.inl ⟨rfl, rfl, by omega, by omega⟩⟩
      rw [getOffsetLength, htotal]
      simp
    · rw [if_neg (not_or.mpr ⟨hsize, fun h => hlisted (List.length_eq_zero_iff.mp h)⟩)]
      have hsizes := hparts.actualSizes hlisted
      rw [hplain, hsplit] at hsizes
      have hpart := @partRange_eq ((before.length + 1 : Nat) : Int) 0 0 (-1) o.parts before after
        part hsizes (by omega)
      dsimp only
      rw [hpart]
      have hrange := @getOffsetLength_part plain.flatten.length before.flatten.length part.length
        (by omega) (by omega)
      have hstart : (-1 : Int) + before.flatten.length + 1 = before.flatten.length := by omega
      have hend : (-1 : Int) + before.flatten.length + part.length =
          before.flatten.length + part.length - 1 := by omega
      rw [hstart, hend]
      exact ⟨hrange, by omega, Or.inr ⟨rfl, hpos⟩⟩

section Kinds

variable {o : ObjectInfo} {rs : Option HTTPRangeSpec} {opts : ReadOptions} {off length : Nat}

/-- The reader asks for bytes that are stored, and for them gives what is wanted. -/
structure ObjReader.Delivers (reader : ObjReader) (stored : Bytes) (wanted : Bytes) : Prop where
  off_nonneg : 0 ≤ reader.off
  length_nonneg : 0 ≤ reader.length
  inside : reader.off + reader.length ≤ stored.length
  reads : reader.fn ((stored.drop reader.off.toNat).take reader.length.toNat) = .ok wanted

theorem plainReader_delivers {plain : Bytes} (hsize : o.size = plain.length)
    (hrange : getOffsetLength rs plain.length = .ok ((off : Int), (length : Int)))
    (hend : off + length ≤ plain.length) (hpre : opts.preconditionFailed = false) :
    ∃ reader, plainReader rs o opts = .ok reader ∧
      reader.Delivers plain ((plain.drop off).take length) := by
  refine ⟨_, by rw [plainReader, hsize, hrange], ?_⟩
  refine ⟨Int.natCast_nonneg _, Int.natCast_nonneg _, ?_, ?_⟩
  · dsimp only
    omega
  · simp only [hpre, Bool.false_eq_true, if_false, Int.toNat_natCast]

/-- The bytes of the packages that are addressed. -/
theorem encryptedReader_delivers {plain : List Bytes} (hencrypts : Encrypts dare o plain)
    (hrange : getOffsetLength rs plain.flatten.length = .ok ((off : Int), (length : Int)))
    (hend : off + length ≤ plain.flatten.length) (hsome : rs = none ∨ 1 ≤ length)
    (hpre : opts.preconditionFailed = false) :
    ∃ reader, encryptedReader dare objectKey rs o opts = .ok reader ∧
      reader.Delivers (dare.streams (o.streamKeys dare objectKey) plain).flatten.flatten
        ((plain.flatten.drop off).take length) := by
  have hholds : ∃ r, o.getDecryptedRange dare rs = .ok r ∧
      r.Holds dare objectKey o plain off length := by
    by_cases hlength : 1 ≤ length
    · obtain ⟨r, hr, hholds⟩ := @getDecryptedRange_holds _ dare o objectKey plain hencrypts rs off
        length hrange (by omega) (by omega) (by omega)
      rw [Int.toNat_natCast, Int.toNat_natCast] at hholds
      exact ⟨r, hr, hholds⟩
    · have hnone := hsome.resolve_right hlength
      rw [hnone, getOffsetLength, Except.ok.injEq, Prod.mk.injEq] at hrange
      have hoff : off = 0 := by omega
      have htotal : length = plain.flatten.length := by omega
      have hwhole : o.getDecryptedRange dare none = .ok ⟨0, o.size, 0, 0, 0⟩ := by
        unfold ObjectInfo.getDecryptedRange
        rw [hencrypts.encrypted, Bool.not_true, if_neg Bool.false_ne_true]
      rw [hnone, hoff, htotal]
      exact ⟨_, hwhole, hencrypts.holds_all hencrypts.ne_nil⟩
  obtain ⟨r, hr, ⟨before, addressed, after, hsplit, hencOff, hencLength, -, hdecrypt⟩, -⟩ := hholds
  have hdecSize : o.decryptedObjSize dare = .ok (plain.flatten.length : Int) := by
    rw [ObjectInfo.decryptedObjSize, hencrypts.encrypted, Bool.not_true, if_neg Bool.false_ne_true,
      hencrypts.streamSizes]
    dsimp only
    rw [sum_segmentSizes]
  have hdecLength : getLength rs plain.flatten.length = .ok (length : Int) :=
    getLength_of_getOffsetLength (Int.natCast_nonneg _) hrange
  refine ⟨_, by rw [encryptedReader, hr, hdecSize]; dsimp only; rw [hdecLength], ?_⟩
  refine ⟨?_, ?_, ?_, ?_⟩
  · rw [hencOff]
    exact Int.natCast_nonneg _
  · rw [hencLength]
    exact Int.natCast_nonneg _
  · dsimp only
    rw [hencOff, hencLength, hsplit, List.flatten_append, List.flatten_append, List.length_append,
      List.length_append]
    omega
  dsimp only
  have hread : (((dare.streams (o.streamKeys dare objectKey) plain).flatten.flatten.drop
      r.encOff.toNat).take r.encLength.toNat) = addressed.flatten := by
    rw [hsplit, hencOff, hencLength, Int.toNat_natCast, Int.toNat_natCast, List.flatten_append,
      List.flatten_append, List.append_assoc, List.drop_left, List.take_left]
  rw [hread, hpre, if_neg Bool.false_ne_true, Int.toNat_natCast, Except.ok.injEq]
  obtain ⟨rest, hrest⟩ := hdecrypt
  have hlength : ((plain.flatten.drop off).take length).length = length := by
    rw [List.length_take, List.length_drop]
    omega
  rw [← hrest]
  nth_rewrite 1 [← hlength]
  rw [List.take_left]

/-! ## Compressed objects -/

theorem compressedOffsetsLoop_eq {offset cumulativeActualSize compressedOffset : Int} {i : Nat}
    {listed : List ObjectPartInfo} {parts : List (Nat × Bytes)}
    (hlisted : listed.map (fun part => (part.size, part.actualSize)) =
      parts.map fun part => ((part.1 : Int), (part.2.length : Int)))
    (hle : cumulativeActualSize ≤ offset)
    (hlt : offset < cumulativeActualSize + (parts.map Prod.snd).flatten.length) :
    ∃ before after, parts = before ++ after ∧ after ≠ [] ∧
      cumulativeActualSize + (before.map Prod.snd).flatten.length ≤ offset ∧
      compressedOffsetsLoop offset i cumulativeActualSize compressedOffset listed =
        (compressedOffset + ((before.map Prod.fst).sum : Nat),
          cumulativeActualSize + (before.map Prod.snd).flatten.length, i + before.length) := by
  induction parts generalizing listed i cumulativeActualSize compressedOffset with
  | nil =>
    rw [List.map_nil, List.flatten_nil, List.length_nil] at hlt
    omega
  | cons part parts ih =>
    cases listed with
    | nil => nomatch hlisted
    | cons first listed =>
      rw [List.map_cons, List.map_cons, List.cons.injEq, Prod.mk.injEq] at hlisted
      obtain ⟨⟨hsize, hactual⟩, hlisted⟩ := hlisted
      rw [compressedOffsetsLoop, hsize, hactual]
      split
      next hskip =>
          rw [List.map_cons, List.flatten_cons, List.length_append] at hlt
          obtain ⟨before, after, hsplit, hafter, hle', hloop⟩ := @ih
            (cumulativeActualSize + part.2.length) (compressedOffset + part.1) (i + 1) listed
            hlisted hskip (by omega)
          refine ⟨part :: before, after, by rw [hsplit]; rfl, hafter, ?_, ?_⟩
          · rw [List.map_cons, List.flatten_cons, List.length_append]
            omega
          · rw [hloop, List.map_cons, List.map_cons, List.flatten_cons, List.sum_cons,
              List.length_append, List.length_cons, Prod.mk.injEq, Prod.mk.injEq]
            exact ⟨by omega, by omega, by omega⟩
      next hfirst =>
          refine ⟨[], part :: parts, rfl, List.cons_ne_nil _ _, ?_, ?_⟩
          · rw [List.map_nil, List.flatten_nil, List.length_nil]
            omega
          · rw [List.map_nil, List.map_nil, List.flatten_nil, List.length_nil, List.sum_nil,
              List.length_nil, Prod.mk.injEq, Prod.mk.injEq]
            exact ⟨by omega, by omega, by omega⟩

theorem getCompressedOffsets_eq {parts : List (Nat × Bytes)} (hparts : PartsOf o parts)
    (hoff : off < (parts.map Prod.snd).flatten.length) :
    ∃ before after, parts = before ++ after ∧ after ≠ [] ∧
      (before.map Prod.snd).flatten.length ≤ off ∧
      getCompressedOffsets o off = ((((before.map Prod.fst).sum : Nat) : Int),
        (off : Int) - (before.map Prod.snd).flatten.length, before.length) := by
  rcases hparts with ⟨hnone, hone⟩ | ⟨-, hlisted⟩
  · refine ⟨[], parts, rfl, List.ne_nil_of_length_pos (by omega), by simp, ?_⟩
    rw [getCompressedOffsets, hnone, compressedOffsetsLoop]
    rfl
  · obtain ⟨before, after, hsplit, hafter, hle, hloop⟩ := @compressedOffsetsLoop_eq off 0 0 0
      o.parts parts hlisted (Int.natCast_nonneg _) (by omega)
    refine ⟨before, after, hsplit, hafter, by omega, ?_⟩
    rw [getCompressedOffsets, hloop]
    dsimp only
    rw [Int.zero_add, Int.zero_add, Nat.zero_add]

/-- The reader of a compressed object, when the streams from any part on can be had. -/
theorem compressedReader_delivers {streams : List (Bytes × Bytes)} {width : Bytes → Nat}
    {stored : Bytes} {isEncrypted : Bool}
    (hparts : PartsOf o (streams.map fun s => (width s.1, s.2)))
    (hencodes : ∀ s ∈ streams, s2.encodes s.1 s.2)
    (hactual : o.getActualSize dare = .ok ((streams.map Prod.snd).flatten.length : Int))
    (hsize : o.size = stored.length)
    (hwidth : (streams.map fun s => width s.1).sum = stored.length)
    (hopen : ∀ before after, streams = before ++ after → after ≠ [] →
      (if isEncrypted then
        o.decryptBlocks dare objectKey 0 before.length
          (stored.drop (before.map fun s => width s.1).sum)
      else stored.drop (before.map fun s => width s.1).sum) = (after.map Prod.fst).flatten)
    (hne : streams ≠ [])
    (hrange : getOffsetLength rs (streams.map Prod.snd).flatten.length =
      .ok ((off : Int), (length : Int)))
    (hend : off + length ≤ (streams.map Prod.snd).flatten.length)
    (hsome : rs = none ∧ opts.partNumber ≤ 1 ∨ rs.isSome = true ∧ 1 ≤ length)
    (hpre : opts.preconditionFailed = false) :
    ∃ reader, compressedReader dare s2 objectKey rs o opts isEncrypted = .ok reader ∧
      reader.Delivers stored (((streams.map Prod.snd).flatten.drop off).take length) := by
  have hread : ∀ before after, streams = before ++ after → after ≠ [] → ∀ decOff decLength : Nat,
      decOff ≤ (after.map Prod.snd).flatten.length →
      decompress dare s2 objectKey o opts isEncrypted before.length decOff decLength
          (stored.drop (before.map fun s => width s.1).sum) =
        .ok (((after.map Prod.snd).flatten.drop decOff).take decLength) := by
    intro before after hsplit hafter decOff decLength hle
    rw [decompress, hpre, if_neg Bool.false_ne_true]
    dsimp only
    rw [hopen before after hsplit hafter, s2.newReader_flatten after fun s hs => hencodes s
      (hsplit ▸ List.mem_append_right _ hs), if_neg (by omega), Int.toNat_natCast,
      Int.toNat_natCast]
  cases rs with
  | none =>
    have hpart : opts.partNumber ≤ 1 := by
      rcases hsome with ⟨-, h⟩ | ⟨h, -⟩
      · exact h
      · cases h
    have hfirst : (if 0 < opts.partNumber then (opts.partNumber - 1).toNat else 0) = 0 := by
      split
      next hpos => omega
      next hnone => rfl
    rw [getOffsetLength, Except.ok.injEq, Prod.mk.injEq] at hrange
    have hoff : off = 0 := by omega
    have hlength : length = (streams.map Prod.snd).flatten.length := by omega
    refine ⟨_, by rw [compressedReader, hactual], ?_⟩
    refine ⟨Int.le_refl 0, by rw [hsize]; exact Int.natCast_nonneg _, by dsimp only; omega, ?_⟩
    dsimp only
    rw [hfirst, hsize, Int.toNat_zero, List.drop_zero, Int.toNat_natCast, List.take_length, hoff,
      hlength]
    exact hread [] streams rfl hne 0 _ (Nat.zero_le _)
  | some spec =>
    have hpos : 1 ≤ length := by
      rcases hsome with ⟨h, -⟩ | ⟨-, h⟩
      · cases h
      · exact h
    have hsnd : (streams.map fun s => (width s.1, s.2)).map Prod.snd = streams.map Prod.snd := by
      rw [List.map_map]
      rfl
    obtain ⟨before, after, hsplit, hafter, hle, hoffsets⟩ := @getCompressedOffsets_eq o off _
      hparts (by rw [hsnd]; omega)
    rw [List.map_eq_append_iff] at hsplit
    obtain ⟨before, after, rfl, rfl, rfl⟩ := hsplit
    rw [List.map_map] at hle hoffsets
    rw [List.map_map, List.length_map] at hoffsets
    have hwidths : (Prod.fst ∘ fun s : Bytes × Bytes => (width s.1, s.2)) =
        fun s => width s.1 := rfl
    have hplains : (Prod.snd ∘ fun s : Bytes × Bytes => (width s.1, s.2)) = Prod.snd := rfl
    rw [hplains] at hle hoffsets
    rw [hwidths] at hoffsets
    rw [List.map_append, List.flatten_append] at hactual hrange hend ⊢
    rw [List.length_append] at hactual hrange hend
    have hlimit : ¬ ((off : Int) - (before.map Prod.snd).flatten.length >
        ((before.map Prod.snd).flatten.length + (after.map Prod.snd).flatten.length : Nat) ∨
        (off : Int) - (before.map Prod.snd).flatten.length + length >
          ((before.map Prod.snd).flatten.length +
            (after.map Prod.snd).flatten.length : Nat)) := by
      omega
    refine ⟨_, by
      rw [compressedReader, hactual]
      dsimp only
      rw [hrange]
      dsimp only
      rw [hoffsets]
      dsimp only
      rw [if_neg (Int.not_lt.mpr (Int.natCast_nonneg _)), if_neg hlimit], ?_⟩
    rw [List.map_append, List.sum_append] at hwidth
    refine ⟨Int.natCast_nonneg _, by dsimp only; omega, by dsimp only; omega, ?_⟩
    dsimp only
    obtain ⟨skip, rfl⟩ := Nat.exists_eq_add_of_le hle
    have hskip : (((before.map Prod.snd).flatten.length + skip : Nat) : Int) -
        (before.map Prod.snd).flatten.length = skip := by omega
    have hrest : ∀ k : Nat, (stored.drop (k : Int).toNat).take (o.size - k).toNat =
        stored.drop k := by
      intro k
      rw [Int.toNat_natCast, List.take_of_length_le]
      rw [List.length_drop]
      omega
    rw [hskip, hrest, ← List.drop_drop, List.drop_left]
    exact hread before after rfl (fun hnil => hafter (by rw [hnil]; rfl)) skip length (by omega)

theorem Encrypts.decryptBlocks_drop {before after : List Bytes}
    (hencrypts : Encrypts dare o (before ++ after)) (hafter : after ≠ []) :
    o.decryptBlocks dare objectKey 0 before.length
        ((dare.streams (o.streamKeys dare objectKey) (before ++ after)).flatten.flatten.drop
          (storedSize before)) = after.flatten := by
  have hsplit : after = after.dropLast ++ [after.getLast hafter] :=
    (List.dropLast_append_getLast hafter).symm
  generalize after.dropLast = whole at hsplit
  generalize after.getLast hafter = segment at hsplit
  subst hsplit
  obtain ⟨keys, keys', last, rest, hkeys, hbefore, hwhole, hdecrypt⟩ :=
    @Encrypts.decryptBlocks _ dare o objectKey _ _ _ _ hencrypts
  have hread := hdecrypt 0 (segment.length ⌈/⌉ sseDAREPackageBlockSize)
    (fun s _ => by rw [Nat.zero_mul]; exact Nat.zero_le _)
  have hround : segment.length ≤ segment.length ⌈/⌉ sseDAREPackageBlockSize *
      sseDAREPackageBlockSize := by
    rw [Nat.mul_comm]
    exact le_smul_ceilDiv sseDAREPackageBlockSize_pos
  have hskipped : (dare.streams keys before).flatten.flatten.length = storedSize before :=
    length_flatten_streams hbefore
  have hcount : (dare.packages last segment).length ≤
      segment.length ⌈/⌉ sseDAREPackageBlockSize := by rw [packages_count]
  have hnil : dare.streams rest [] = [] := by cases rest <;> rfl
  rw [Dare.packagesUpTo, List.take_of_length_le hcount, Nat.zero_mul, List.drop_zero,
    List.drop_zero, List.take_of_length_le hround] at hread
  rw [hkeys, streams_append hbefore, streams_append hwhole, Dare.streams, hnil,
    List.flatten_append, List.flatten_append, ← hskipped, List.drop_left, List.flatten_append,
    List.flatten_singleton, hread, List.flatten_append, List.flatten_singleton]

theorem Encrypts.length_streamKeys {segments : List Bytes} (hencrypts : Encrypts dare o segments) :
    (o.streamKeys dare objectKey).length = segments.length := by
  rw [ObjectInfo.streamKeys]
  cases hmultipart : o.isEncryptedMultipart dare with
  | false => exact (hencrypts.single hmultipart).symm
  | true =>
    have hsizes := congrArg List.length (hencrypts.multipart hmultipart)
    rw [List.length_map, List.length_map] at hsizes
    rw [Bool.not_true, if_neg Bool.false_ne_true, List.length_map, hsizes]

/-! ## All kinds -/

theorem length_le_storedSize (segments : List Bytes) :
    segments.flatten.length ≤ storedSize segments := by
  induction segments with
  | nil => exact Nat.zero_le _
  | cons segment segments ih =>
    rw [List.flatten_cons, List.length_append, storedSize_cons, dareSize]
    omega

theorem isEmpty_of_streams {streams : List (Bytes × Bytes)}
    (hencodes : ∀ s ∈ streams, s2.encodes s.1 s.2) (hempty : (streams.map Prod.fst).flatten = []) :
    (streams.map Prod.snd).flatten = [] := by
  rw [← s2.newReader_flatten streams hencodes, hempty]
  exact s2.newReader_flatten [] fun s hs => nomatch hs

end Kinds

def plainS2 : S2 where
  encodes := fun stream plain => stream = plain
  newReader := fun streams => streams
  newReader_flatten := fun streams hencodes => by
    rw [List.map_congr_left hencodes]

def compressedParts : ObjectInfo :=
  { twoParts with
    userDefined := {(metaMultipart, ""), (metaSealedKeyS3, ""),
      (reservedMetadataPrefix ++ "compression", compressionAlgorithmV2),
      (reservedMetadataPrefix ++ "actual-size", "5")} }

theorem compressedParts_encrypts : Encrypts plainDare compressedParts [[1, 2, 3], [4, 5]] where
  encrypted := by decide
  size := by decide
  multipart := fun _ => by decide
  single := fun h => by
    have hmultipart : compressedParts.isEncryptedMultipart plainDare = true := by decide
    rw [hmultipart] at h
    nomatch h
  bounded := by decide

end Fs3.ObjectReader
