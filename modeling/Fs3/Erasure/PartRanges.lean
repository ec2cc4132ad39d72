import Fs3.Storage.FileInfo

/-! # The ranges of the parts that a get reads

A get goes through the parts of an object from the one that its range starts in to the one that it
ends in, and asks the erasure decoder for a range of each. -/

namespace Fs3

/-! ## The loop over the parts -/

/-- `ObjectToPartOffset` for an offset that is not zero, from some part on. -/
def seekPart : Nat → Int → List ObjectPartInfo → Option (Nat × Int)
  | _, _, [] => none
  | i, partOffset, part :: rest =>
    if partOffset < part.size then some (i, partOffset)
    else seekPart (i + 1) (partOffset - part.size) rest

/-- `ObjectToPartOffset`. -/
def FileInfo.objectToPartOffset (fi : FileInfo) (offset : Int) : Option (Nat × Int) :=
  if offset = 0 then some (0, 0) else seekPart 0 offset fi.parts

/-- What the decoder is asked for. -/
structure PartRange where
  partIndex : Nat
  partNumber : Int
  partOffset : Int
  partLength : Int
  partSize : Int
  deriving DecidableEq, Repr

/-- What `NewErasure` and `Decode` answer. -/
structure PartDecoder where
  newErasure : Option StorageErr
  decode : PartRange → Option StorageErr

/-- How a get ends. -/
inductive GetEnd where
  | done
  | invalidRange (offset length size : Int)
  | failed (err : StorageErr)
  /-- An index is out of range. -/
  | panics
  deriving DecidableEq, Repr

/-- The loop over the parts, for some more of them: what the decoder is asked for. -/
def readParts (decoder : PartDecoder) (parts : List ObjectPartInfo) (length : Int) :
    Nat → Nat → Int → Int → List PartRange × GetEnd
  | 0, _, _, _ => ([], .done)
  | more + 1, partIndex, partOffset, totalBytesRead =>
    if length = totalBytesRead then ([], .done)
    else
      match parts[partIndex]? with
      | none => ([], .panics)
      | some part =>
        let range : PartRange :=
          { partIndex := partIndex
            partNumber := part.number
            partOffset := partOffset
            partLength := min (part.size - partOffset) (length - totalBytesRead)
            partSize := part.size }
        match decoder.decode range with
        | some err => ([range], .failed err)
        | none =>
          let (ranges, ending) := readParts decoder parts length more (partIndex + 1) 0
            (totalBytesRead + range.partLength)
          (range :: ranges, ending)

def FileInfo.readLength (fi : FileInfo) (startOffset length : Int) : Int :=
  if length < 0 then fi.size - startOffset else length

/-- `getObjectWithFileInfo`: what the decoder is asked for, and how it ends. -/
def FileInfo.getObject (fi : FileInfo) (decoder : PartDecoder) (startOffset length : Int) :
    List PartRange × GetEnd :=
  let length := fi.readLength startOffset length
  let invalid := .invalidRange startOffset length fi.size
  if fi.size < startOffset ∨ fi.size < startOffset + length then ([], invalid)
  else
    match fi.objectToPartOffset startOffset with
    | none => ([], invalid)
    | some (partIndex, partOffset) =>
      let endOffset := if 0 < length then startOffset + (length - 1) else startOffset
      match fi.objectToPartOffset endOffset with
      | none => ([], invalid)
      | some (lastPartIndex, _) =>
        match decoder.newErasure with
        | some err => ([], .failed err)
        | none =>
          readParts decoder fi.parts length (lastPartIndex + 1 - partIndex) partIndex
            partOffset 0

/-! ## What is read -/

def SizesOf (parts : List ObjectPartInfo) (contents : List Bytes) : Prop :=
  parts.map ObjectPartInfo.size = contents.map fun part => (part.length : Int)

namespace PartRange

/-- A range of a part of the list, with the number and the size of the part. -/
def Inside (range : PartRange) (parts : List ObjectPartInfo) : Prop :=
  ∃ part, parts[range.partIndex]? = some part ∧ range.partNumber = part.number ∧
    range.partSize = part.size ∧ 0 ≤ range.partOffset ∧ 0 ≤ range.partLength ∧
    range.partOffset + range.partLength ≤ part.size

def bytes (range : PartRange) (contents : List Bytes) : Bytes :=
  ((contents.getD range.partIndex []).drop range.partOffset.toNat).take range.partLength.toNat

end PartRange

def PartDecoder.Answers (decoder : PartDecoder) (ranges : List PartRange) : Prop :=
  decoder.newErasure = none ∧ ∀ range ∈ ranges, decoder.decode range = none

/-- What is asked for are ranges of parts that begin before the range of the object ends,
and all together, where the decoder answers, the bytes of this range. -/
structure AsksFor (decoder : PartDecoder) (parts : List ObjectPartInfo) (contents : List Bytes)
    (start count : Nat) (result : List PartRange × GetEnd) : Prop where
  inside : ∀ range ∈ result.1, range.Inside parts
  needed : ∀ range ∈ result.1, (contents.take range.partIndex).flatten.length < start + count
  complete : decoder.Answers result.1 →
    (result.1.flatMap fun range => range.bytes contents) =
      (contents.flatten.drop start).take count
  noPanic : result.2 ≠ .panics

section Reading

variable {decoder : PartDecoder} {parts : List ObjectPartInfo} {contents : List Bytes}

theorem SizesOf.getElem? (hsizes : SizesOf parts contents) {before after : List Bytes}
    {c : Bytes} (hcontents : contents = before ++ c :: after) :
    ∃ part, parts[before.length]? = some part ∧ part.size = c.length := by
  have hget := congrArg (fun sizes => sizes[before.length]?) hsizes
  simp only [List.getElem?_map, hcontents] at hget
  rw [List.getElem?_append_right (Nat.le_refl _), Nat.sub_self, List.getElem?_cons_zero,
    Option.map_some] at hget
  obtain ⟨part, hpart, hsize⟩ := Option.map_eq_some_iff.mp hget
  exact ⟨part, hpart, hsize⟩

theorem seekPart_eq (hsizes : SizesOf parts contents) {offset : Nat}
    (hlt : offset < contents.flatten.length) (i : Nat) :
    ∃ before c after off, contents = before ++ c :: after ∧
      offset = before.flatten.length + off ∧ off < c.length ∧
      seekPart i offset parts = some (i + before.length, (off : Int)) := by
  induction contents generalizing parts offset i with
  | nil => simp at hlt
  | cons c rest ih =>
    cases parts with
    | nil => simp [SizesOf] at hsizes
    | cons part parts =>
      obtain ⟨hsize, hrest⟩ := List.cons.inj hsizes
      have hfirst : part.size = c.length := hsize
      rw [seekPart, hfirst]
      split
      next hinside =>
        exact ⟨[], c, rest, offset, rfl, by simp, by omega, rfl⟩
      next hbehind =>
        rw [List.flatten_cons, List.length_append] at hlt
        obtain ⟨before, d, after, off, hcontents, hoffset, hoff, hseek⟩ :=
          ih hrest (show offset - c.length < rest.flatten.length by omega) (i + 1)
        refine ⟨c :: before, d, after, off, by rw [hcontents, List.cons_append], ?_, hoff, ?_⟩
        · rw [List.flatten_cons, List.length_append]
          omega
        · rw [← Int.natCast_sub (by omega), hseek, List.length_cons, Nat.add_assoc,
            Nat.add_comm 1]

theorem asksFor_nil {start : Nat} {ending : GetEnd} (hending : ending ≠ .panics) :
    AsksFor decoder parts contents start 0 ([], ending) where
  inside _ hmem := absurd hmem List.not_mem_nil
  needed _ hmem := absurd hmem List.not_mem_nil
  complete _ := rfl
  noPanic := hending

theorem drop_flatten {before after : List Bytes} {c : Bytes} {off : Nat} (hoff : off ≤ c.length) :
    (before ++ c :: after).flatten.drop (before.flatten.length + off) =
      c.drop off ++ after.flatten := by
  rw [List.flatten_append, List.flatten_cons, List.drop_length_add_append,
    List.drop_append_of_le_length hoff]

section Step

variable {before after : List Bytes} {c : Bytes} {off read left : Nat} {part : ObjectPartInfo}
  {range : PartRange} {ranges : List PartRange} {ending : GetEnd}

def IsRangeAt (before : List Bytes) (part : ObjectPartInfo) (off read : Nat)
    (range : PartRange) : Prop :=
  range = ⟨before.length, part.number, off, read, part.size⟩

theorem IsRangeAt.inside (hrange : IsRangeAt before part off read range)
    (hpart : parts[before.length]? = some part) (hfits : (off + read : Int) ≤ part.size) :
    range.Inside parts := by
  subst hrange
  exact ⟨part, hpart, rfl, rfl, Int.natCast_nonneg _, Int.natCast_nonneg _, hfits⟩

section

variable (hrange : IsRangeAt before part off read range)
  (hcontents : contents = before ++ c :: after)
include hrange hcontents

theorem IsRangeAt.bytes : range.bytes contents = (c.drop off).take read := by
  subst hrange
  rw [PartRange.bytes, hcontents, List.getD_eq_getElem?_getD,
    List.getElem?_append_right (Nat.le_refl _), Nat.sub_self, List.getElem?_cons_zero]
  rfl

theorem IsRangeAt.needed :
    (contents.take range.partIndex).flatten.length = before.flatten.length := by
  subst hrange
  rw [hcontents, List.take_left]

theorem IsRangeAt.failed (hpart : parts[before.length]? = some part)
    (hfits : (off + read : Int) ≤ part.size) (hpos : 0 < left) {err : StorageErr}
    (hfails : decoder.decode range = some err) :
    AsksFor decoder parts contents (before.flatten.length + off) left
      ([range], .failed err) where
  inside other hmem := by
    rw [List.mem_singleton.mp hmem]
    exact hrange.inside hpart hfits
  needed other hmem := by
    rw [List.mem_singleton.mp hmem, hrange.needed hcontents]
    omega
  complete hanswers := by
    have hnone := hanswers.2 _ (List.mem_singleton_self _)
    rw [hfails] at hnone
    cases hnone
  noPanic := by simp

theorem IsRangeAt.cons (hpart : parts[before.length]? = some part) (hsize : part.size = c.length)
    (hfits : off + read ≤ c.length) (hpos : 0 < read + left)
    (hrest : AsksFor decoder parts contents (before.flatten.length + off + read) left
      (ranges, ending)) :
    AsksFor decoder parts contents (before.flatten.length + off) (read + left)
      (range :: ranges, ending) where
  inside other hmem := by
    rcases List.mem_cons.mp hmem with rfl | hlater
    · exact hrange.inside hpart (by omega)
    · exact hrest.inside other hlater
  needed other hmem := by
    rcases List.mem_cons.mp hmem with rfl | hlater
    · rw [hrange.needed hcontents]
      omega
    · have hlt := hrest.needed other hlater
      omega
  complete hanswers := by
    have hhead : (c.drop off).take read =
        (contents.flatten.drop (before.flatten.length + off)).take read := by
      rw [hcontents, drop_flatten (by omega), List.take_append_of_le_length]
      rw [List.length_drop]
      omega
    rw [List.flatMap_cons, hrange.bytes hcontents, hrest.complete
      ⟨hanswers.1, fun other hmem => hanswers.2 other (List.mem_cons_of_mem _ hmem)⟩, hhead,
      List.take_add, List.drop_drop]
  noPanic := hrest.noPanic

end

end Step

theorem readParts_nothing (more partIndex : Nat) (partOffset total : Int) :
    readParts decoder parts total more partIndex partOffset total = ([], .done) := by
  cases more with
  | zero => rfl
  | succ more => rw [readParts, if_pos rfl]

/-- The loop reads on from an offset of a part, if it goes on to the part where it ends. -/
theorem readParts_asksFor (hsizes : SizesOf parts contents) {length : Int} {more : Nat}
    {before after : List Bytes} {c : Bytes} {off count : Nat} {total : Int}
    (hcontents : contents = before ++ c :: after) (hoff : off ≤ c.length)
    (hcount : length - total = count)
    (hmore : 0 < count → off + count ≤ ((c :: after).take more).flatten.length) :
    AsksFor decoder parts contents (before.flatten.length + off) count
      (readParts decoder parts length more before.length off total) := by
  induction more generalizing before after c off count total with
  | zero =>
    obtain rfl : count = 0 := by
      rw [List.take_zero, List.flatten_nil, List.length_nil] at hmore
      omega
    exact asksFor_nil (by simp)
  | succ more ih =>
    rw [readParts]
    split
    next hdone =>
      obtain rfl : count = 0 := by omega
      exact asksFor_nil (by simp)
    next hgoes =>
      have hpos : 0 < count := by omega
      obtain ⟨part, hpart, hsize⟩ := hsizes.getElem? hcontents
      have htake := hmore hpos
      rw [List.take_succ_cons, List.flatten_cons, List.length_append] at htake
      rw [hpart]
      dsimp only
      -- what is read of this part, and what is left to read
      obtain ⟨read, left, hread, rfl, hfits⟩ : ∃ read left : Nat,
          min (part.size - (off : Int)) (length - total) = read ∧ count = read + left ∧
            (left ≠ 0 → off + read = c.length) :=
        ⟨min (c.length - off) count, count - min (c.length - off) count, by omega, by omega,
          by omega⟩
      rw [hread]
      split
      next err hfails =>
        exact (show IsRangeAt before part off read _ from rfl).failed hcontents hpart
          (by omega) hpos hfails
      next hok =>
        refine IsRangeAt.cons rfl hcontents hpart hsize (by omega) hpos ?_
        by_cases hlast : left = 0
        · obtain rfl : total + (read : Int) = length := by omega
          subst hlast
          rw [readParts_nothing]
          exact asksFor_nil (by simp)
        · -- the part is read to its end, and there is a next one
          have hend := hfits hlast
          cases after with
          | nil =>
            rw [List.take_nil, List.flatten_nil, List.length_nil] at htake
            omega
          | cons d after =>
            have hnext := ih (by rw [hcontents, List.append_cons] :
                contents = (before ++ [c]) ++ d :: after) (Nat.zero_le d.length)
              (by omega : length - (total + read) = (left : Int)) (fun _ => by omega)
            rw [List.flatten_append, List.length_append, List.flatten_singleton,
              List.length_append, List.length_singleton] at hnext
            rw [Nat.add_assoc, hend]
            exact hnext

variable (startOffset length : Int)

/-- The parts of an object and what they hold, and a range of it. -/
structure RangeOf (fi : FileInfo) (contents : List Bytes) : Prop where
  sizes : SizesOf fi.parts contents
  size : fi.size = contents.flatten.length
  nonneg : 0 ≤ startOffset
  start_le : startOffset ≤ fi.size
  end_le : startOffset + fi.readLength startOffset length ≤ fi.size

def FileInfo.FirstByteBehindEmpty (fi : FileInfo) : Prop :=
  startOffset = 0 ∧ fi.readLength startOffset length = 1 ∧
    ∃ part rest, fi.parts = part :: rest ∧ part.size = 0

variable {startOffset length} {fi : FileInfo}

theorem RangeOf.readLength_nonneg (hrange : RangeOf startOffset length fi contents) :
    0 ≤ fi.readLength startOffset length := by
  have hle := hrange.start_le
  unfold FileInfo.readLength
  split <;> omega

theorem exists_lastPart (hsizes : SizesOf parts contents) {offset : Nat}
    (hlt : offset < contents.flatten.length) (i : Nat) :
    ∃ last off, seekPart i offset parts = some (i + last, off) ∧
      offset < (contents.take (last + 1)).flatten.length := by
  obtain ⟨before, c, after, off, hcontents, hoffset, hoff, hseek⟩ := seekPart_eq hsizes hlt i
  refine ⟨before.length, off, hseek, ?_⟩
  rw [hcontents, List.take_length_add_append, List.take_one, List.head?_cons, List.flatten_append,
    List.length_append, Option.toList_some, List.flatten_singleton]
  omega


theorem exists_firstPart (hsizes : SizesOf fi.parts contents) {offset : Nat}
    (hlt : offset < contents.flatten.length) :
    ∃ before c after off, contents = before ++ c :: after ∧
      offset = before.flatten.length + off ∧ off ≤ c.length ∧
      fi.objectToPartOffset offset = some (before.length, (off : Int)) := by
  unfold FileInfo.objectToPartOffset
  split
  next hzero =>
    obtain rfl : offset = 0 := by omega
    cases contents with
    | nil => simp at hlt
    | cons c rest => exact ⟨[], c, rest, 0, rfl, rfl, Nat.zero_le _, rfl⟩
  next hpos =>
    obtain ⟨before, c, after, off, hcontents, hoffset, hoff, hseek⟩ := seekPart_eq hsizes hlt 0
    rw [Nat.zero_add] at hseek
    exact ⟨before, c, after, off, hcontents, hoffset, Nat.le_of_lt hoff, hseek⟩

theorem exists_endPart (hsizes : SizesOf fi.parts contents) {offset : Nat}
    (hlt : offset < contents.flatten.length)
    (hfirst : offset = 0 → ∀ part rest, fi.parts = part :: rest → part.size ≠ 0) :
    ∃ last off, fi.objectToPartOffset offset = some (last, off) ∧
      offset < (contents.take (last + 1)).flatten.length := by
  unfold FileInfo.objectToPartOffset
  split
  next hzero =>
    obtain rfl : offset = 0 := by omega
    refine ⟨0, 0, rfl, ?_⟩
    cases contents with
    | nil => simp at hlt
    | cons c rest =>
      obtain ⟨part, hpart, hsize⟩ := hsizes.getElem? (List.nil_append (c :: rest)).symm
      cases hparts : fi.parts with
      | nil => rw [hparts] at hpart; cases hpart
      | cons part' parts =>
        rw [hparts] at hpart
        obtain rfl := Option.some.inj hpart
        have hne := hfirst rfl _ _ hparts
        rw [List.take_succ_cons, List.take_zero, List.flatten_singleton]
        omega
  next hpos =>
    obtain ⟨last, off, hseek, hbehind⟩ := exists_lastPart hsizes hlt 0
    rw [Nat.zero_add] at hseek
    exact ⟨last, off, hseek, hbehind⟩

/-- A get asks for the bytes of its range, unless this is the first byte of an object with an
empty first part. -/
theorem getObject_asksFor (hrange : RangeOf startOffset length fi contents)
    (hnot : ¬ fi.FirstByteBehindEmpty startOffset length) (decoder : PartDecoder) :
    AsksFor decoder fi.parts contents startOffset.toNat (fi.readLength startOffset length).toNat
      (fi.getObject decoder startOffset length) := by
  obtain ⟨start, hstart⟩ := Int.eq_ofNat_of_zero_le hrange.nonneg
  obtain ⟨count, hcount⟩ := Int.eq_ofNat_of_zero_le hrange.readLength_nonneg
  have hend := hrange.end_le
  have hsize := hrange.size
  unfold FileInfo.FirstByteBehindEmpty at hnot
  unfold FileInfo.getObject
  rw [hcount] at hnot hend ⊢
  subst hstart
  dsimp only
  rw [if_neg (by omega), Int.toNat_natCast, Int.toNat_natCast]
  by_cases hzero : count = 0
  · subst hzero
    split
    · exact asksFor_nil (by simp)
    · split
      · exact asksFor_nil (by simp)
      · split
        · exact asksFor_nil (by simp)
        · rw [Int.natCast_zero, readParts_nothing]
          exact asksFor_nil (by simp)
  · obtain ⟨before, c, after, off, hcontents, hoffset, hoff, hfound⟩ :=
      exists_firstPart hrange.sizes (show start < contents.flatten.length by omega)
    obtain ⟨last, lastOff, hlast, hbehind⟩ :=
      exists_endPart hrange.sizes (show start + (count - 1) < contents.flatten.length by omega)
        fun hfirst part rest hparts hempty =>
          hnot ⟨by omega, by omega, part, rest, hparts, hempty⟩
    rw [hfound, if_pos (by omega), ← Int.natCast_one, ← Int.natCast_sub (by omega),
      ← Int.natCast_add, hlast]
    dsimp only
    cases hnew : decoder.newErasure with
    | some err =>
      refine ⟨fun _ hmem => absurd hmem List.not_mem_nil,
        fun _ hmem => absurd hmem List.not_mem_nil, fun hanswers => ?_, by simp⟩
      rw [hanswers.1] at hnew
      cases hnew
    | none =>
      dsimp only
      rw [hoffset]
      refine readParts_asksFor hrange.sizes hcontents hoff (by omega) fun _ => ?_
      rw [hcontents, List.take_append, List.flatten_append, List.length_append] at hbehind
      have hbefore := congrArg (fun parts => parts.flatten.length)
        (List.take_append_drop (last + 1) before)
      rw [List.flatten_append, List.length_append] at hbefore
      omega

def PartDecoder.answering : PartDecoder where
  newErasure := none
  decode _ := none

/-- A get always asks for just the bytes of its range, but for the first byte of an object
with an empty first part. -/
theorem getObject_asksFor_iff (hrange : RangeOf startOffset length fi contents) :
    (∀ decoder, AsksFor decoder fi.parts contents startOffset.toNat
      (fi.readLength startOffset length).toNat (fi.getObject decoder startOffset length)) ↔
      ¬ fi.FirstByteBehindEmpty startOffset length := by
  constructor
  · rintro hasks ⟨hstart, hlength, part, rest, hparts, hempty⟩
    have hasked := hasks .answering
    have hsizes := hrange.sizes
    have hend := hrange.end_le
    have hsize := hrange.size
    have hgets : fi.getObject .answering startOffset length =
        ([{ partIndex := 0, partNumber := part.number, partOffset := 0, partLength := 0,
            partSize := 0 }], .done) := by
      unfold FileInfo.getObject
      rw [hlength] at hend ⊢
      dsimp only
      rw [if_neg (by omega), hstart]
      have hmin : min (0 : Int) 1 = 0 := rfl
      simp [FileInfo.objectToPartOffset, readParts, hparts, hempty, PartDecoder.answering, hmin]
    -- the first byte is missing
    have hcomplete := hasked.complete ⟨rfl, fun _ _ => rfl⟩
    rw [hgets, hlength, hstart, List.flatMap_singleton, PartRange.bytes] at hcomplete
    have hcount := congrArg List.length hcomplete
    simp only [Int.toNat_zero, List.drop_zero, List.take_zero, List.length_nil, List.length_take,
      Int.toNat_one] at hcount
    omega
  · exact fun hnot decoder => getObject_asksFor hrange hnot decoder

end Reading

def byteBehindEmpty : FileInfo where
  size := 1
  parts := [{ number := 1, size := 0 }, { number := 2, size := 1 }]

/-- The byte is never asked for. -/
theorem byteBehindEmpty_not_asked :
    byteBehindEmpty.getObject .answering 0 1 =
        ([{ partIndex := 0, partNumber := 1, partOffset := 0, partLength := 0, partSize := 0 }],
          .done) ∧
      ¬ AsksFor .answering byteBehindEmpty.parts [[], [0x41]] 0 1
        (byteBehindEmpty.getObject .answering 0 1) := by
  have hgets : byteBehindEmpty.getObject .answering 0 1 =
      ([{ partIndex := 0, partNumber := 1, partOffset := 0, partLength := 0, partSize := 0 }],
        .done) := by decide
  refine ⟨hgets, fun hasks => ?_⟩
  have hcomplete := hasks.complete ⟨rfl, fun _ _ => rfl⟩
  rw [hgets] at hcomplete
  exact absurd hcomplete (by decide)

def bytesBehindEmpty : FileInfo where
  size := 3
  parts := [{ number := 1, size := 0 }, { number := 2, size := 3 }]

/-- Two bytes of that object are asked for. -/
theorem bytesBehindEmpty_asked :
    (∀ decoder, AsksFor decoder bytesBehindEmpty.parts [[], [0x41, 0x42, 0x43]] 0 2
      (bytesBehindEmpty.getObject decoder 0 2)) ↔
      ¬ bytesBehindEmpty.FirstByteBehindEmpty 0 2 :=
  @getObject_asksFor_iff [[], [0x41, 0x42, 0x43]] 0 2 bytesBehindEmpty
    ⟨rfl, rfl, by decide, by decide, by decide⟩

end Fs3
