import Fs3.ObjectReader.DecryptedRange

/-! # The encrypted range holds the range of the plaintext

The packages that are read run from the one with the first byte to the one with the last. -/

namespace Fs3.ObjectReader

open Foundation

variable {Key : Type} {dare : Dare Key}

/-! ## Streams -/

@[simp]
theorem Dare.streams_nil (dare : Dare Key) : dare.streams [] [] = [] := rfl

theorem streams_eq_zipWith (keys : List Key) (segments : List Bytes) :
    dare.streams keys segments = List.zipWith dare.packages keys segments := by
  induction segments generalizing keys with
  | nil => cases keys <;> rfl
  | cons segment segments ih =>
    cases keys with
    | nil => rfl
    | cons key keys => rw [Dare.streams, ih, List.zipWith_cons_cons]

theorem streams_append {keys keys' : List Key} {segments segments' : List Bytes}
    (hlength : keys.length = segments.length) :
    dare.streams (keys ++ keys') (segments ++ segments') =
      dare.streams keys segments ++ dare.streams keys' segments' := by
  rw [streams_eq_zipWith, streams_eq_zipWith, streams_eq_zipWith, List.zipWith_append hlength]

theorem length_streams {keys : List Key} {segments : List Bytes}
    (hlength : keys.length = segments.length) :
    (dare.streams keys segments).length = segments.length := by
  rw [streams_eq_zipWith, List.length_zipWith, hlength, min_self]

theorem length_flatten_streams {keys : List Key} {segments : List Bytes}
    (hlength : keys.length = segments.length) :
    (dare.streams keys segments).flatten.flatten.length = storedSize segments := by
  induction segments generalizing keys with
  | nil =>
    rw [List.length_nil, List.length_eq_zero_iff] at hlength
    rw [hlength]
    rfl
  | cons segment segments ih =>
    cases keys with
    | nil => nomatch hlength
    | cons key keys =>
      rw [List.length_cons, List.length_cons, Nat.add_right_cancel_iff] at hlength
      rw [Dare.streams, List.flatten_cons, List.flatten_append, List.length_append,
        Dare.length_packages, ih hlength, storedSize_cons]

theorem packages_count (key : Key) (segment : Bytes) :
    (dare.packages key segment).length = segment.length ⌈/⌉ sseDAREPackageBlockSize := by
  rw [Dare.packages, packages, length_packFrom, chunks, List.length_map, List.length_range]

theorem le_packages_count {key : Key} {segment : Bytes} {count : Nat}
    (hle : count * sseDAREPackageBlockSize ≤ segment.length) :
    count ≤ (dare.packages key segment).length := by
  have hround : segment.length ≤ sseDAREPackageBlockSize *
      (segment.length ⌈/⌉ sseDAREPackageBlockSize) :=
    le_smul_ceilDiv sseDAREPackageBlockSize_pos
  rw [packages_count]
  refine Nat.le_of_mul_le_mul_left (Nat.le_trans ?_ hround) sseDAREPackageBlockSize_pos
  rw [Nat.mul_comm]
  exact hle

theorem length_take_packages_eq_min {key : Key} {segment : Bytes} {count : Nat} :
    ((dare.packages key segment).take count).flatten.length =
      min (count * (sseDAREPackageBlockSize + sseDAREPackageMetaSize))
        (dareSize segment.length) := by
  have hceil : segment.length ⌈/⌉ sseDAREPackageBlockSize ≤ count ↔
      segment.length ≤ sseDAREPackageBlockSize * count :=
    ceilDiv_le_iff_le_smul sseDAREPackageBlockSize_pos
  have hexpand : count * (sseDAREPackageBlockSize + sseDAREPackageMetaSize) =
      sseDAREPackageBlockSize * count + sseDAREPackageMetaSize * count := by ring
  rcases Nat.le_total segment.length (count * sseDAREPackageBlockSize) with hle | hle
  · have hcount := hceil.mpr (by rw [Nat.mul_comm]; exact hle)
    have hmeta := Nat.mul_le_mul_left sseDAREPackageMetaSize hcount
    have hlength : (dare.packages key segment).length ≤ count := by
      rw [packages_count]
      exact hcount
    rw [List.take_of_length_le hlength, Dare.length_packages, Nat.min_eq_right]
    rw [hexpand, dareSize, Nat.mul_comm sseDAREPackageBlockSize]
    omega
  · have hcount : count ≤ segment.length ⌈/⌉ sseDAREPackageBlockSize := by
      have hcount : count ≤ (dare.packages key segment).length := le_packages_count hle
      rwa [packages_count] at hcount
    have hmeta := Nat.mul_le_mul_left sseDAREPackageMetaSize hcount
    rw [Dare.length_take_packages hle, Nat.min_eq_left]
    rw [hexpand, dareSize, Nat.mul_comm sseDAREPackageBlockSize]
    omega

/-! ## Decrypting part by part -/

/-- The packages from the first of some parts up to one in the middle of the next. -/
def Dare.packagesUpTo (keys : List Key) (segments : List Bytes) (key : Key) (segment : Bytes)
    (count : Nat) : List Bytes :=
  (dare.streams keys segments).flatten ++ (dare.packages key segment).take count

theorem decryptParts_nil (key : Key) (parts : List ObjectPartInfo) :
    decryptParts dare key 0 parts [] = [] := by
  have hread : ∀ key, dare.decryptReader key 0 [] = [] := fun _ => by
    rw [Dare.decryptReader, openStream, chunks_nil, unpackFrom]
  induction parts with
  | nil => rfl
  | cons part parts ih =>
    rw [decryptParts]
    simp only [List.take_nil, List.drop_nil, hread, ih, List.append_nil, ite_self]

theorem decryptReader_drop (key : Key) (segment : Bytes) (first : Nat) :
    dare.decryptReader key first ((dare.packages key segment).drop first).flatten =
      segment.drop (first * sseDAREPackageBlockSize) := by
  rw [Dare.packages, ← packages_drop sseDAREPackageBlockSize_pos, Nat.zero_add]
  exact openStream_packages sseDAREPackageBlockSize_pos (dare.length_encryptPackage key)
    (dare.decrypt_encryptPackage key) _

theorem length_drop_packages (key : Key) (segment : Bytes) (first : Nat) :
    ((dare.packages key segment).drop first).flatten.length =
      dareSize segment.length -
        first * (sseDAREPackageBlockSize + sseDAREPackageMetaSize) := by
  have htotal : (dare.packages key segment).flatten.length = dareSize segment.length :=
    dare.length_packages segment
  rw [← List.take_append_drop first (dare.packages key segment), List.flatten_append,
    List.length_append, length_take_packages_eq_min] at htotal
  omega

/-- Packages of a part and of what follows it. -/
theorem decryptParts_packages {objectKey : Key} {part : ObjectPartInfo}
    {parts after : List ObjectPartInfo} {segment : Bytes} {segments : List Bytes}
    {first count : Nat}
    (hsize : part.size = dareSize segment.length)
    (hparts : parts.map ObjectPartInfo.size = segments.map fun s => (dareSize s.length : Int))
    (hbounded : ∀ s ∈ segments, s.length ≤ maxDecryptedSize)
    (hfirst : ∀ s ∈ segments.head?, first * sseDAREPackageBlockSize ≤ s.length) :
    decryptParts dare objectKey first (parts ++ part :: after)
        ((dare.packagesUpTo (parts.map (dare.partKey objectKey)) segments
          (dare.partKey objectKey part) segment count).drop first).flatten =
      (segments.flatten ++ segment.take (count * sseDAREPackageBlockSize)).drop
        (first * sseDAREPackageBlockSize) := by
  have htoNat : ∀ first n : Nat,
    ((dareSize n : Int) - (first : Int) * ((sseDAREPackageBlockSize : Int) +
      sseDAREPackageMetaSize)).toNat =
        dareSize n - first * (sseDAREPackageBlockSize + sseDAREPackageMetaSize) := by
    intro first n
    have hcast : (first : Int) * ((sseDAREPackageBlockSize : Int) + sseDAREPackageMetaSize) =
        ((first * (sseDAREPackageBlockSize + sseDAREPackageMetaSize) : Nat) : Int) := by
          push_cast; rfl
    rw [hcast]
    omega
  induction segments generalizing parts first with
  | nil =>
    rw [List.map_nil, List.map_eq_nil_iff] at hparts
    rw [hparts, List.nil_append, List.map_nil, Dare.packagesUpTo, Dare.streams_nil,
      List.flatten_nil, List.flatten_nil, List.nil_append, List.nil_append, decryptParts]
    have hread := @Dare.decryptReader_packages _ dare (dare.partKey objectKey part) segment first
      (count - first)
    have hle : (((dare.packages (dare.partKey objectKey part) segment).take count).drop
        first).flatten.length ≤ dareSize segment.length -
          first * (sseDAREPackageBlockSize + sseDAREPackageMetaSize) := by
      rw [← @length_drop_packages _ dare (dare.partKey objectKey part), List.drop_take]
      exact (List.take_prefix _ _).flatten.length_le
    rw [hsize, htoNat, List.take_of_length_le hle, List.drop_of_length_le hle, decryptParts_nil,
      List.append_nil, ite_self, List.drop_take, hread, List.drop_take, Nat.sub_mul]
  | cons head segments ih =>
    cases parts with
    | nil => nomatch hparts
    | cons next parts =>
      rw [List.map_cons, List.map_cons, List.cons.injEq] at hparts
      have hhead := hfirst head rfl
      have hcount : first ≤ (dare.packages (dare.partKey objectKey next) head).length :=
        le_packages_count hhead
      have hbound := hbounded head List.mem_cons_self
      have hrest := @ih parts 0 hparts.2 (fun s hs => hbounded s (List.mem_cons_of_mem _ hs))
        (fun s _ => by rw [Nat.zero_mul]; exact Nat.zero_le _)
      rw [Nat.zero_mul, List.drop_zero, List.drop_zero] at hrest
      rw [List.cons_append, List.map_cons, Dare.packagesUpTo, Dare.streams, List.flatten_cons,
        List.append_assoc, ← Dare.packagesUpTo, List.drop_append_of_le_length hcount,
        List.flatten_append, decryptParts]
      rw [hparts.1, htoNat, ← length_drop_packages (dare.partKey objectKey next),
        List.take_left,
        List.drop_left, decryptReader_drop, Int.toNat_natCast, dare.decryptedSize_eq _ hbound,
        Option.getD_some, List.length_drop, if_neg (by omega), hrest,
        List.flatten_cons, List.append_assoc, List.drop_append_of_le_length hhead]

/-- The streams of an object, cut where some segments are, and how packages from the
cut on are decrypted. -/
theorem Encrypts.decryptBlocks {o : ObjectInfo} {key : Key} {skipped whole after : List Bytes}
    {segment : Bytes} (hstored : Encrypts dare o (skipped ++ (whole ++ segment :: after))) :
    ∃ keys keys' last rest, o.streamKeys dare key = keys ++ (keys' ++ last :: rest) ∧
      keys.length = skipped.length ∧ keys'.length = whole.length ∧
      ∀ first count, (∀ s ∈ whole.head?, first * sseDAREPackageBlockSize ≤ s.length) →
        o.decryptBlocks dare key first skipped.length
            ((dare.packagesUpTo keys' whole last segment count).drop first).flatten =
          (whole.flatten ++ segment.take (count * sseDAREPackageBlockSize)).drop
            (first * sseDAREPackageBlockSize) := by
  have hkeys : o.streamKeys dare key = if !o.isEncryptedMultipart dare then [key]
    else o.parts.map (dare.partKey key) := rfl
  cases hmultipart : o.isEncryptedMultipart dare with
  | false =>
    -- One stream: nothing is skipped, and no part comes before the last.
    have hone := hstored.single hmultipart
    simp only [List.length_append, List.length_cons] at hone
    have hskipped : skipped = [] := List.length_eq_zero_iff.mp (by omega)
    have hwhole : whole = [] := List.length_eq_zero_iff.mp (by omega)
    refine ⟨[], [], key, [], ?_, ?_, ?_, fun first count _ => ?_⟩
    · rw [hkeys, hmultipart]
      rfl
    · rw [hskipped]
      rfl
    · rw [hwhole]
      rfl
    · rw [hwhole, ObjectInfo.decryptBlocks, hmultipart, Bool.not_false, if_pos rfl,
        Dare.packagesUpTo, Dare.streams_nil, List.flatten_nil, List.flatten_nil, List.nil_append,
        List.nil_append, List.drop_take, List.drop_take, ← Nat.sub_mul]
      exact dare.decryptReader_packages segment first (count - first)
  | true =>
    have hsizes := hstored.multipart hmultipart
    rw [List.map_append, List.map_append, List.map_cons, List.map_eq_append_iff] at hsizes
    obtain ⟨skippedParts, parts, hparts, hskipped, hsizes⟩ := hsizes
    rw [List.map_eq_append_iff] at hsizes
    obtain ⟨wholeParts, parts, rfl, hwhole, hsizes⟩ := hsizes
    rw [List.map_eq_cons_iff] at hsizes
    obtain ⟨part, afterParts, rfl, hpart, -⟩ := hsizes
    have hlength : skippedParts.length = skipped.length := by
      rw [← List.length_map ObjectPartInfo.size, hskipped, List.length_map]
    refine ⟨skippedParts.map (dare.partKey key), wholeParts.map (dare.partKey key),
      dare.partKey key part, afterParts.map (dare.partKey key), ?_, ?_, ?_,
      fun first count hfirst => ?_⟩
    · rw [hkeys, hmultipart, hparts, List.map_append, List.map_append, List.map_cons]
      rfl
    · rw [List.length_map, hlength]
    · rw [List.length_map, ← List.length_map ObjectPartInfo.size, hwhole, List.length_map]
    · rw [ObjectInfo.decryptBlocks, hmultipart, hparts, ← hlength, Bool.not_true,
        if_neg Bool.false_ne_true, List.drop_left]
      refine decryptParts_packages hpart hwhole (fun s hs => hstored.bounded s ?_) hfirst
      exact List.mem_append_right _ (List.mem_append_left _ hs)

/-! ## The range -/

/-- What `GetDecryptedRange` has to return for a range of the plaintext: packages, where
they are, and how the range is read off them. -/
structure DecryptedRange.Holds (dare : Dare Key) (key : Key) (o : ObjectInfo)
    (segments : List Bytes) (off length : Nat) (r : DecryptedRange) : Prop where
  /-- Whole packages of the object are addressed. -/
  packages : ∃ before addressed after,
    (dare.streams (o.streamKeys dare key) segments).flatten = before ++ addressed ++ after ∧
      r.encOff = before.flatten.length ∧ r.encLength = addressed.flatten.length ∧
      -- They start with the package that the part and the sequence number name.
      before = ((dare.streams (o.streamKeys dare key) segments).take r.partStart).flatten ++
        ((dare.streams (o.streamKeys dare key) segments).getD r.partStart []).take r.seqNumber ∧
      -- They decrypt to a stream with the range.
      (segments.flatten.drop off).take length <+:
        (o.decryptBlocks dare key r.seqNumber r.partStart addressed.flatten).drop
          r.skipLen.toNat
  skipLen_nonneg : 0 ≤ r.skipLen

theorem take_drop_isPrefix {α : Type*} {ys xs : List α} {start length : Nat} (hpre : ys <+: xs)
    (hle : start + length ≤ ys.length) : (xs.drop start).take length <+: ys.drop start := by
  obtain ⟨rest, rfl⟩ := hpre
  rw [List.drop_append_of_le_length (by omega),
    List.take_append_of_le_length (by rw [List.length_drop]; omega)]
  exact List.take_prefix _ _

theorem take_packagesUpTo {keys : List Key} {last : Key} {whole : List Bytes} {segment : Bytes}
    {first count : Nat} (hkeys : keys.length = whole.length)
    (hle : whole = [] → first ≤ count)
    (hfirst : ∀ s ∈ (whole ++ [segment]).head?, first * sseDAREPackageBlockSize ≤ s.length)
    (rest : List (List Bytes)) :
    ∃ stream, (dare.streams keys whole ++ dare.packages last segment :: rest).head? = some stream ∧
      (dare.packagesUpTo keys whole last segment count).take first = stream.take first ∧
      (stream.take first).flatten.length =
        first * (sseDAREPackageBlockSize + sseDAREPackageMetaSize) := by
  cases whole with
  | nil =>
    rw [List.length_nil, List.length_eq_zero_iff] at hkeys
    refine ⟨dare.packages last segment, ?_, ?_, Dare.length_take_packages (hfirst segment rfl)⟩
    · rw [hkeys]
      rfl
    · rw [hkeys, Dare.packagesUpTo, Dare.streams_nil, List.flatten_nil, List.nil_append,
        List.take_take, Nat.min_eq_left (hle rfl)]
  | cons head whole =>
    cases keys with
    | nil => nomatch hkeys
    | cons key keys =>
      refine ⟨dare.packages key head, rfl, ?_, Dare.length_take_packages (hfirst head rfl)⟩
      rw [Dare.packagesUpTo, Dare.streams, List.flatten_cons, List.append_assoc,
        List.take_append_of_le_length (le_packages_count (hfirst head rfl))]

theorem length_packagesUpTo {keys : List Key} {last : Key} {whole : List Bytes} {segment : Bytes}
    {count : Nat} (hkeys : keys.length = whole.length) :
    (dare.packagesUpTo keys whole last segment count).flatten.length =
      storedSize whole + min (count * (sseDAREPackageBlockSize + sseDAREPackageMetaSize))
        (dareSize segment.length) := by
  rw [Dare.packagesUpTo, List.flatten_append, List.length_append, length_flatten_streams hkeys,
    length_take_packages_eq_min]

section Cut

variable {o : ObjectInfo} {key : Key} {skipped whole after : List Bytes} {segment : Bytes}
  {off length first skip count : Nat}

/-- A range found in the segments: `skipped` come before it, `whole` are those it reaches
over, and `segment` is the one it ends in. -/
theorem Encrypts.holds (hstored : Encrypts dare o (skipped ++ (whole ++ segment :: after)))
    (hoff : off = skipped.flatten.length + first * sseDAREPackageBlockSize + skip)
    (hle : whole = [] → first ≤ count)
    (hfirst : ∀ s ∈ (whole ++ [segment]).head?, first * sseDAREPackageBlockSize ≤ s.length)
    (hcount : off + length ≤ skipped.flatten.length + whole.flatten.length +
      min (count * sseDAREPackageBlockSize) segment.length) :
    DecryptedRange.Holds dare key o (skipped ++ (whole ++ segment :: after)) off length
      { encOff := (storedSize skipped +
          first * (sseDAREPackageBlockSize + sseDAREPackageMetaSize) : Nat)
        encLength := (storedSize whole +
          min (count * (sseDAREPackageBlockSize + sseDAREPackageMetaSize))
            (dareSize segment.length) : Nat) -
              (first * (sseDAREPackageBlockSize + sseDAREPackageMetaSize) : Nat)
        skipLen := skip
        seqNumber := first
        partStart := skipped.length } := by
  obtain ⟨keys, keys', last, rest, hkeys, hskipped, hwhole, hdecrypt⟩ :=
    @Encrypts.decryptBlocks _ dare o key _ _ _ _ hstored
  have hstreams : dare.streams (o.streamKeys dare key) (skipped ++ (whole ++ segment :: after)) =
      dare.streams keys skipped ++ (dare.streams keys' whole ++
        dare.packages last segment :: dare.streams rest after) := by
    rw [hkeys, streams_append hskipped, streams_append hwhole, Dare.streams]
  obtain ⟨stream, hhead, htake, hbefore⟩ := @take_packagesUpTo _ dare _ last _ _ _ _ hwhole hle
    hfirst (dare.streams rest after)
  have hcut : (dare.streams keys skipped).length = skipped.length := length_streams hskipped
  have hstream : (dare.streams keys skipped ++ (dare.streams keys' whole ++
      dare.packages last segment :: dare.streams rest after)).getD skipped.length [] = stream := by
    rw [← hcut, List.getD_eq_getElem?_getD,
      List.getElem?_append_right (Nat.le_refl _), Nat.sub_self, ← List.head?_eq_getElem?, hhead,
      Option.getD_some]
  have hlength := @length_packagesUpTo _ dare _ last _ segment count hwhole
  rw [← List.take_append_drop first (dare.packagesUpTo keys' whole last segment count),
    List.flatten_append, List.length_append, htake, hbefore] at hlength
  refine ⟨⟨(dare.streams keys skipped).flatten ++
    (dare.packagesUpTo keys' whole last segment count).take first,
    (dare.packagesUpTo keys' whole last segment count).drop first,
    (dare.packages last segment).drop count ++ (dare.streams rest after).flatten,
    ?_, ?_, ?_, ?_, ?_⟩, ?_⟩
  · rw [hstreams, List.append_assoc _ (List.take _ _), List.take_append_drop, Dare.packagesUpTo,
      List.flatten_append, List.flatten_append, List.flatten_cons, List.append_assoc,
      List.append_assoc, ← List.append_assoc (List.take _ _), List.take_append_drop]
  · dsimp only
    rw [List.flatten_append, List.length_append, htake, hbefore, length_flatten_streams hskipped]
  · dsimp only
    generalize first * _ = skippedSize at hlength ⊢
    generalize count * (sseDAREPackageBlockSize + _) = upToSize at hlength ⊢
    omega
  · dsimp only
    rw [hstreams, hstream, htake, ← hcut, List.take_left]
  · dsimp only
    have hfirst' : ∀ s ∈ whole.head?, first * sseDAREPackageBlockSize ≤ s.length := by
      intro s hs
      refine hfirst s ?_
      rw [List.head?_append, Option.mem_def.mp hs, Option.some_or]
      rfl
    rw [hdecrypt first count hfirst', Int.toNat_natCast, List.drop_drop, hoff, Nat.add_assoc,
      List.flatten_append, List.drop_append, List.drop_of_length_le (Nat.le_add_right _ _),
      List.nil_append, Nat.add_sub_cancel_left]
    refine take_drop_isPrefix ?_ ?_
    · rw [List.flatten_append, List.flatten_cons]
      exact (List.prefix_append_right_inj _).mpr
        ((List.take_prefix _ _).trans (List.prefix_append _ _))
    · rw [List.length_append, List.length_take]
      omega
  · exact Int.natCast_nonneg _

end Cut

section Range

variable {o : ObjectInfo} {key : Key} {segments : List Bytes} {off length : Nat}

/-- The range that is computed from the sizes of the segments. -/
theorem Encrypts.rangeOfSizes_holds (hstored : Encrypts dare o segments) (hlength : 1 ≤ length)
    (hend : off + length ≤ segments.flatten.length) :
    (rangeOfSizes dare (segmentSizes segments) off length).Holds dare key o segments off
      length := by
  obtain ⟨skipped, start, after, rfl, hstart, hle, hlt⟩ :=
    @locatePart_eq _ dare off 0 0 0 0 segments
    hstored.bounded (by omega) (by omega)
  have hbounded : ∀ s ∈ start :: after, s.length ≤ maxDecryptedSize := fun s hs =>
    hstored.bounded s (List.mem_append_right _ hs)
  rw [List.flatten_append, List.length_append] at hend
  obtain ⟨whole, segment, rest, hsplit, hlast, hle', hlt'⟩ := @locatePart_eq _ dare
    ((off : Int) + length - 1) 0 (0 + skipped.length) (0 + skipped.flatten.length)
    (0 + storedSize skipped) (start :: after) hbounded (by omega) (by omega)
  have hdrop : (segmentSizes (skipped ++ start :: after)).drop (0 + skipped.length) =
      segmentSizes (start :: after) := by
    rw [Nat.zero_add, segmentSizes, List.map_append,
      ← List.length_map fun segment : Bytes => (segment.length : Int), List.drop_left, segmentSizes]
  have hstartBound : start.length ≤ maxDecryptedSize := hbounded start List.mem_cons_self
  have hlastBound : segment.length ≤ maxDecryptedSize :=
    hbounded segment (hsplit ▸ List.mem_append_right _ List.mem_cons_self)
  have hpos : (0 : Int) < sseDAREPackageBlockSize := by decide
  -- The package of the first byte, and the one after the package of the last.
  obtain ⟨inPart, hinPart⟩ : ∃ inPart : Nat, off = skipped.flatten.length + inPart :=
    Nat.exists_eq_add_of_le (by omega)
  obtain ⟨inLast, hinLast⟩ : ∃ inLast : Nat,
      off + length - 1 = skipped.flatten.length + whole.flatten.length + inLast :=
    Nat.exists_eq_add_of_le (by omega)
  have hgetD :
    (segmentSizes (skipped ++ start :: after)).getD (0 + skipped.length + whole.length) 0 =
      segment.length := by
    have hlengths :
        (segmentSizes (skipped ++ whole)).length = 0 + skipped.length + whole.length := by
      rw [segmentSizes, List.length_map, List.length_append, Nat.zero_add]
    rw [hsplit, ← List.append_assoc, segmentSizes, List.map_append, ← segmentSizes,
      List.getD_eq_getElem?_getD, ← hlengths, List.getElem?_append_right (Nat.le_refl _),
      Nat.sub_self]
    rfl
  have hrange : rangeOfSizes dare (segmentSizes (skipped ++ start :: after)) off length =
      { encOff := (storedSize skipped + inPart / sseDAREPackageBlockSize *
          (sseDAREPackageBlockSize + sseDAREPackageMetaSize) : Nat)
        encLength := (storedSize whole +
          min ((inLast / sseDAREPackageBlockSize + 1) *
            (sseDAREPackageBlockSize + sseDAREPackageMetaSize)) (dareSize segment.length) : Nat) -
              (inPart / sseDAREPackageBlockSize *
                (sseDAREPackageBlockSize + sseDAREPackageMetaSize) : Nat)
        skipLen := (inPart % sseDAREPackageBlockSize : Nat)
        seqNumber := inPart / sseDAREPackageBlockSize
        partStart := skipped.length } := by
    rw [rangeOfSizes]
    simp only [hstart, hdrop, hlast, hgetD, encPartSize_natCast hlastBound]
    have hfrom : (off : Int) - (0 + skipped.flatten.length) = (inPart : Int) := by omega
    have hto : (off : Int) + length - 1 - (0 + skipped.flatten.length + whole.flatten.length) =
        (inLast : Int) := by omega
    rw [hfrom, hto, ← Int.ofNat_tdiv, ← Int.ofNat_tdiv, ← Int.ofNat_tmod, DecryptedRange.mk.injEq]
    refine ⟨?_, ?_, rfl, ?_, by omega⟩
    · push_cast
      omega
    · have hfirst : ((inPart / sseDAREPackageBlockSize : Nat) : Int) *
          ((sseDAREPackageBlockSize : Int) + sseDAREPackageMetaSize) =
            (inPart / sseDAREPackageBlockSize *
              (sseDAREPackageBlockSize + sseDAREPackageMetaSize) : Nat) := by push_cast; rfl
      have hcount : (((inLast / sseDAREPackageBlockSize : Nat) : Int) + 1) *
          ((sseDAREPackageBlockSize : Int) + sseDAREPackageMetaSize) =
            ((inLast / sseDAREPackageBlockSize + 1) *
              (sseDAREPackageBlockSize + sseDAREPackageMetaSize) : Nat) := by push_cast; rfl
      rw [hfirst, hcount]
      generalize inPart / sseDAREPackageBlockSize * _ = skippedSize
      generalize (inLast / sseDAREPackageBlockSize + 1) * _ = upToSize
      split
      next hshort => omega
      next hwhole => omega
    · have hseq : inPart / sseDAREPackageBlockSize < 2 ^ 32 := by
        rw [Nat.div_lt_iff_lt_mul sseDAREPackageBlockSize_pos]
        have hmax : maxDecryptedSize = 2 ^ 32 * sseDAREPackageBlockSize := by decide
        omega
      rw [Int.emod_eq_of_lt (Int.natCast_nonneg _) (by exact_mod_cast hseq), Int.toNat_natCast]
  rw [hrange, hsplit]
  rw [hsplit] at hstored
  refine hstored.holds ?_ ?_ ?_ ?_
  · rw [hinPart, Nat.add_assoc, Nat.div_add_mod']
  · intro hwhole
    rw [hwhole, List.flatten_nil, List.length_nil] at hinLast
    exact Nat.le_succ_of_le (Nat.div_le_div_right (by omega))
  · intro s hs
    have hs' : s = start := by
      have hhead : (start :: after).head? = (whole ++ [segment]).head? := by
        rw [hsplit]
        cases whole <;> rfl
      rw [← hhead] at hs
      exact (Option.some.inj hs).symm
    rw [hs']
    have hdiv := Nat.div_mul_le_self inPart sseDAREPackageBlockSize
    omega
  · have hdiv := @Nat.lt_div_mul_add inLast _ sseDAREPackageBlockSize_pos
    rw [Nat.add_mul, Nat.one_mul]
    generalize inLast / sseDAREPackageBlockSize * _ = upTo at hdiv ⊢
    generalize sseDAREPackageBlockSize = blockSize at hdiv ⊢
    omega

theorem Encrypts.holds_all (hstored : Encrypts dare o segments) (hne : segments ≠ []) :
    DecryptedRange.Holds dare key o segments 0 segments.flatten.length
      { encOff := 0, encLength := o.size, skipLen := 0, seqNumber := 0, partStart := 0 } := by
  have hsplit : segments = [] ++ (segments.dropLast ++ [segments.getLast hne]) :=
    (List.dropLast_append_getLast hne).symm
  generalize segments.dropLast = whole at hsplit
  generalize segments.getLast hne = segment at hsplit
  subst hsplit
  have hsize := hstored.size
  rw [List.nil_append, storedSize_append, storedSize_cons, storedSize_nil, Nat.add_zero] at hsize
  have hround : segment.length ≤ segment.length ⌈/⌉ sseDAREPackageBlockSize *
      sseDAREPackageBlockSize := by
    rw [Nat.mul_comm]
    exact le_smul_ceilDiv sseDAREPackageBlockSize_pos
  have hholds := @Encrypts.holds _ dare o key [] whole [] segment 0
    (([] ++ (whole ++ [segment])).flatten.length) 0 0
    (segment.length ⌈/⌉ sseDAREPackageBlockSize) hstored (by simp) (fun _ => Nat.zero_le _)
    (fun s _ => by simp) ?_
  · rw [Nat.min_eq_right (dareSize_le segment.length), ← hsize, Nat.zero_mul, storedSize_nil,
      Int.natCast_zero, Int.sub_zero] at hholds
    exact hholds
  · rw [Nat.min_eq_right hround]
    simp

/-- A range of the plaintext is read from whole packages of the object, which decrypt from
the part and the sequence number that are returned to a stream with the range. -/
theorem getDecryptedRange_holds (hstored : Encrypts dare o segments) {rs : Option HTTPRangeSpec}
    {off length : Int} (hrange : getOffsetLength rs segments.flatten.length = .ok (off, length))
    (hoff : 0 ≤ off) (hlength : 1 ≤ length) (hend : off + length ≤ segments.flatten.length) :
    ∃ r, o.getDecryptedRange dare rs = .ok r ∧
      r.Holds dare key o segments off.toNat length.toNat := by
  unfold ObjectInfo.getDecryptedRange
  rw [hstored.encrypted, Bool.not_true, if_neg Bool.false_ne_true]
  cases rs with
  | none =>
    rw [getOffsetLength, Except.ok.injEq, Prod.mk.injEq] at hrange
    refine ⟨_, rfl, ?_⟩
    rw [← hrange.1, ← hrange.2, Int.toNat_natCast]
    refine hstored.holds_all ?_
    intro hnil
    rw [hnil, List.flatten_nil, List.length_nil] at hend
    omega
  | some spec =>
    rw [hstored.streamSizes]
    dsimp only
    rw [sum_segmentSizes, hrange]
    refine ⟨_, rfl, ?_⟩
    rw [← Int.toNat_of_nonneg hoff, ← Int.toNat_of_nonneg (by omega : 0 ≤ length),
      Int.toNat_natCast, Int.toNat_natCast]
    exact hstored.rangeOfSizes_holds (by omega) (by omega)

end Range

/-- `sio.DecryptedSize`. -/
def plainDecryptedSize (size : Nat) : Option Nat :=
  if size > dareSize maxDecryptedSize then none
  else
    let packageSize := sseDAREPackageBlockSize + sseDAREPackageMetaSize
    let last := size % packageSize
    if last = 0 then some (size / packageSize * sseDAREPackageBlockSize)
    else if last ≤ sseDAREPackageMetaSize then none
    else some (size / packageSize * sseDAREPackageBlockSize + (last - sseDAREPackageMetaSize))

theorem plainDecryptedSize_dareSize (n : Nat) (hn : n ≤ maxDecryptedSize) :
    plainDecryptedSize (dareSize n) = some n := by
  have hsize : ∀ n, dareSize n = n + 32 * ((n + 65536 - 1) / 65536) := fun _ => rfl
  have hmax : dareSize maxDecryptedSize = 2 ^ 48 + 32 * 2 ^ 32 := by decide
  have hblock : sseDAREPackageBlockSize = 65536 := rfl
  have hmeta : sseDAREPackageMetaSize = 32 := rfl
  have hlarge : maxDecryptedSize = 2 ^ 48 := rfl
  rw [plainDecryptedSize, hmax, hblock, hmeta, hsize]
  rw [hlarge] at hn
  rw [if_neg (by omega)]
  by_cases hfull : n % 65536 = 0
  · rw [if_pos (by omega), Option.some.injEq]
    omega
  · rw [if_neg (by omega), if_neg (by omega), Option.some.injEq]
    omega

def plainDare : Dare Unit where
  encryptPackage := fun _ _ c => List.replicate sseDAREPackageMetaSize 0 ++ c
  decryptPackage := fun _ _ p => some (p.drop sseDAREPackageMetaSize)
  encryptedSize := fun n => if n ≤ maxDecryptedSize then some (dareSize n) else none
  decryptedSize := plainDecryptedSize
  partEncryptionKey := fun key _ => key
  length_encryptPackage := fun _ _ c => by
    rw [List.length_append, List.length_replicate, Nat.add_comm]
  decrypt_encryptPackage := fun _ _ c _ => by
    rw [List.drop_append_of_le_length (by rw [List.length_replicate]), List.drop_of_length_le
      (by rw [List.length_replicate]), List.nil_append]
  encryptedSize_eq := fun n hn => if_pos hn
  decryptedSize_eq := plainDecryptedSize_dareSize

def twoParts : ObjectInfo where
  size := 69
  eTag := "9bb58f26192e4ba00f01e2e7b136bbd8-2"
  userDefined := {(metaMultipart, ""), (metaSealedKeyS3, "")}
  parts := [{ number := 1, size := 35, actualSize := 3 },
    { number := 2, size := 34, actualSize := 2 }]
  backendType := .erasure

theorem twoParts_encrypts : Encrypts plainDare twoParts [[1, 2, 3], [4, 5]] where
  encrypted := by decide
  size := by decide
  multipart := fun _ => by decide
  single := fun h => by
    have hmultipart : twoParts.isEncryptedMultipart plainDare = true := by decide
    rw [hmultipart] at h
    nomatch h
  bounded := by decide

/-- Bytes of both parts. -/
theorem twoParts_getDecryptedRange :
    ∃ r, twoParts.getDecryptedRange plainDare (some { start := 2, end_ := 3 }) = .ok r ∧
      r.Holds plainDare () twoParts [[1, 2, 3], [4, 5]] 2 2 :=
  @getDecryptedRange_holds Unit plainDare twoParts () [[1, 2, 3], [4, 5]] twoParts_encrypts
    (some { start := 2, end_ := 3 }) 2 2 rfl (by decide) (by decide) (by decide)

end Fs3.ObjectReader
