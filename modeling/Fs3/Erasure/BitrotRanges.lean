import Mathlib.Data.UInt
import Fs3.Erasure.Bitrot
import Fs3.Erasure.BlockRanges

/-! # Reading ranges of shard files

A reader is opened up to an offset of the payload that is a block edge or the end, and finds the
blocks before it one after the other. -/

namespace Fs3

open Foundation (chunks)

variable {h : BitrotHash} {shardSize : Nat}

theorem readFullBlock_append {front : Bytes} (rest : Bytes) :
    readFullBlock front.length (front ++ rest) = (.ok front, rest) := by
  rw [readFullBlock, if_pos (List.length_append ▸ Nat.le_add_right _ _), List.take_left,
    List.drop_left]

namespace StreamingBitrotReader

variable {b : StreamingBitrotReader} {offset : Nat}

/-- A reader that stands at a block of the stream. -/
structure Stands (b : StreamingBitrotReader) (offset : Nat) (stream : Bytes) : Prop where
  rc : b.rc = some stream
  currOffset : b.currOffset = offset

theorem Stands.opened {stream : Bytes} (hb : b.Stands offset stream) (offset' : Nat) :
    b.opened offset' = .ok b := by
  unfold StreamingBitrotReader.opened
  rw [hb.rc]

theorem readAt_of_opened {b' : StreamingBitrotReader} {stream : Bytes}
    (hopen : b.opened offset = .ok b') (hstands : b'.Stands offset stream)
    (hsize : b'.shardSize = b.shardSize) (size : Nat) (haligned : offset % b.shardSize = 0) :
    b.readAt size offset = b'.readAt size offset := by
  unfold readAt
  rw [hsize, if_neg (not_not.mpr haligned), if_neg (not_not.mpr haligned), hopen,
    hstands.opened]

theorem Stands.readAt {p rest : Bytes} (haligned : offset % b.shardSize = 0)
    (hb : b.Stands offset (b.h.sum p ++ p ++ rest)) :
    ∃ b', b.readAt p.length offset = (.ok p, b') ∧ b'.Stands (offset + p.length) rest ∧
      b'.shardSize = b.shardSize ∧ b'.h = b.h := by
  refine ⟨{ b with rc := some rest, currOffset := b.currOffset + p.length }, ?_, ?_, rfl, rfl⟩
  · unfold StreamingBitrotReader.readAt
    rw [if_neg (not_not.mpr haligned), hb.opened]
    dsimp only
    have hhash : readFullBlock b.h.size (b.h.sum p ++ (p ++ rest)) =
        (.ok (b.h.sum p), p ++ rest) := by
      have hread := @readFullBlock_append (b.h.sum p) (p ++ rest)
      rw [b.h.length_sum] at hread
      exact hread
    rw [if_neg (not_not.mpr hb.currOffset.symm), hb.rc, Option.getD_some, List.append_assoc, hhash]
    dsimp only
    rw [readFullBlock_append]
    dsimp only
    rw [if_neg (not_not.mpr rfl)]
  · exact ⟨rfl, congrArg (· + p.length) hb.currOffset⟩

end StreamingBitrotReader

theorem blockSizes_step {xs : Bytes} (hsize : 0 < shardSize) (hne : xs ≠ []) :
    blockSizes shardSize xs.length =
      (xs.take shardSize).length :: blockSizes shardSize (xs.drop shardSize).length := by
  rw [blockSizes, Foundation.length_ceilDiv hsize hne, List.range_succ_eq_map, List.map_cons,
    List.map_map, Nat.zero_mul, Nat.sub_zero, List.length_take, blockSizes]
  congr 2
  funext k
  rw [Function.comp_apply, List.length_drop, Nat.succ_mul]
  congr 1
  omega

theorem StreamingBitrotReader.Stands.readBlocks {b : StreamingBitrotReader} {offset : Nat}
    {xs rest : Bytes} (hsize : 0 < b.shardSize) (haligned : xs ≠ [] → offset % b.shardSize = 0)
    (hb : b.Stands offset (bitrotFile b.h b.shardSize xs ++ rest)) :
    b.readBlocks offset (blockSizes b.shardSize xs.length) = .ok xs := by
  generalize hwidth : b.shardSize = size at *
  generalize hhash : b.h = h at *
  induction xs using Foundation.chunks_induction hsize generalizing b offset with
  | nil =>
    rw [List.length_nil, blockSizes, zero_ceilDiv]
    rfl
  | step xs hne ih =>
    have hedge := haligned hne
    rw [bitrotFile_step hsize hne, List.append_assoc, ← hhash] at hb
    obtain ⟨b', hread, hb', hwidth', hhash'⟩ := hb.readAt (hwidth ▸ hedge)
    rw [blockSizes_step hsize hne, StreamingBitrotReader.readBlocks, hread]
    dsimp only
    have hnext : xs.drop size ≠ [] → (offset + (xs.take size).length) % size = 0 := by
      intro hrest
      have hlt : size < xs.length := by
        by_contra hle
        exact hrest (List.drop_of_length_le (by omega))
      rw [List.length_take, Nat.min_eq_left hlt.le, Nat.add_mod_right]
      exact hedge
    rw [hhash] at hb' hhash'
    rw [ih (hwidth'.trans hwidth) hnext hhash' hb']
    dsimp only
    rw [List.take_append_drop]

/-- How the reading of a file can be asked for: inline, or from the drive. -/
inductive FileSource (file : Bytes) : Option Bytes → Bytes → Prop where
  | drive : FileSource file (some file) []
  | inline (disk : Option Bytes) : FileSource file disk file

/-- The stream of an aligned offset is that of the blocks from there to the end of
the reading. -/
theorem opened_newStreamingBitrotReader (hsize : 0 < shardSize) {front middle rest : Bytes}
    {disk : Option Bytes} {data : Bytes} (hfront : shardSize ∣ front.length)
    (hmiddle : shardSize ∣ middle.length ∨ rest = [])
    (hsource : FileSource (bitrotFile h shardSize (front ++ middle ++ rest)) disk data) :
    ∃ b, (newStreamingBitrotReader disk data (front ++ middle).length h shardSize).opened
        front.length = .ok b ∧
      b.Stands front.length (bitrotFile h shardSize middle) ∧
      b.shardSize = shardSize ∧ b.h = h := by
  obtain ⟨k, hk⟩ := hfront
  have hstream : (front.length / shardSize * h.size + front.length) =
      (bitrotFile h shardSize front).length := by
    have hceil : shardSize * k ⌈/⌉ shardSize = k := smul_ceilDiv hsize k
    rw [length_bitrotFile hsize, hk, Nat.mul_div_cancel_left k hsize, hceil]
    ring
  have htill : ceilFrac ((front ++ middle).length : Nat) shardSize * h.size +
      ((front ++ middle).length : Nat) =
      ((bitrotFile h shardSize (front ++ middle)).length : Nat) := by
    rw [length_bitrotFile hsize, ceilFrac_natCast hsize]
    push_cast
    ring
  have hwhole : shardSize ∣ (front ++ middle).length ∨ rest = [] := by
    rcases hmiddle with hmiddle | hrest
    · rw [List.length_append]
      exact Or.inl (Nat.dvd_add ⟨k, hk⟩ hmiddle)
    · exact Or.inr hrest
  have hcut : bitrotFile h shardSize (front ++ middle) =
      bitrotFile h shardSize front ++ bitrotFile h shardSize middle :=
    bitrotFile_append hsize (Or.inl ⟨k, hk⟩)
  have hfile : bitrotFile h shardSize (front ++ middle ++ rest) =
      bitrotFile h shardSize front ++
        (bitrotFile h shardSize middle ++ bitrotFile h shardSize rest) := by
    rw [bitrotFile_append hsize hwhole, hcut, List.append_assoc]
  generalize hwritten : bitrotFile h shardSize (front ++ middle ++ rest) = file at hsource
  have hlength : (((bitrotFile h shardSize (front ++ middle)).length : Nat) -
      ((bitrotFile h shardSize front).length : Nat) : Int).toNat =
      (bitrotFile h shardSize middle).length := by
    rw [hcut, List.length_append]
    omega
  have hbytes : (file.drop (bitrotFile h shardSize front).length).take
      (bitrotFile h shardSize middle).length = bitrotFile h shardSize middle := by
    rw [← hwritten, hfile, List.drop_left, List.take_left]
  have hopen : (newStreamingBitrotReader disk data (front ++ middle).length h
      shardSize).openStream front.length = .ok (bitrotFile h shardSize middle) := by
    simp only [StreamingBitrotReader.openStream, newStreamingBitrotReader, htill, hstream, hlength]
    cases hsource with
    | drive =>
      split
      next => rw [readFileStream, hlength, hbytes]
      next hsame =>
        -- Nothing is left to read.
        have hend : (bitrotFile h shardSize middle).length = 0 := by
          simp only [List.length_nil, true_and, not_not, hcut, List.length_append] at hsame
          omega
        rw [List.drop_nil, List.take_nil, List.length_eq_zero_iff.mp hend]
    | inline =>
      split
      next hempty =>
        -- An empty file ends where it begins.
        refine absurd ?_ hempty.2
        rw [hfile, ← List.append_assoc, ← hcut] at hwritten
        have hwhole := congrArg List.length hwritten
        rw [List.length_append, hempty.1] at hwhole
        have hcutLength := congrArg List.length hcut
        rw [List.length_append] at hcutLength
        omega
      next => rw [hbytes]
  unfold StreamingBitrotReader.opened
  rw [hopen]
  exact ⟨_, rfl, ⟨rfl, rfl⟩, rfl, rfl⟩

theorem readBlocks_newStreamingBitrotReader (hsize : 0 < shardSize) {front range more rest : Bytes}
    {disk : Option Bytes} {data : Bytes} (hfront : shardSize ∣ front.length)
    (hrange : shardSize ∣ range.length ∨ more = [])
    (htill : shardSize ∣ (range ++ more).length ∨ rest = [])
    (hsource : FileSource (bitrotFile h shardSize (front ++ (range ++ more) ++ rest)) disk data) :
    (newStreamingBitrotReader disk data (front ++ (range ++ more)).length h
      shardSize).readBlocks front.length (blockSizes shardSize range.length) = .ok range := by
  by_cases hne : range = []
  · rw [hne, List.length_nil, blockSizes, zero_ceilDiv]
    rfl
  · obtain ⟨b, hopen, hstands, hwidth, hhash⟩ :=
      opened_newStreamingBitrotReader hsize hfront htill hsource
    rw [bitrotFile_append hsize hrange] at hstands
    have haligned : front.length % shardSize = 0 := Nat.mod_eq_zero_of_dvd hfront
    have hblocks : b.readBlocks front.length (blockSizes b.shardSize range.length) = .ok range := by
      subst hhash hwidth
      exact hstands.readBlocks hsize fun _ => haligned
    rw [hwidth, blockSizes_step hsize hne] at hblocks
    rw [blockSizes_step hsize hne, StreamingBitrotReader.readBlocks,
      StreamingBitrotReader.readAt_of_opened hopen hstands hwidth _ haligned]
    exact hblocks

theorem Erasure.shardFileOffset_edge {e : Erasure} {total : Int} {start length till size : Nat}
    (hsize : e.shardSize = size) (htill : (till : Int) = e.shardFileOffset start length total) :
    (till : Int) ≤ e.shardFileSize total ∧
      (size ∣ till ∨ (till : Int) = e.shardFileSize total) := by
  unfold Erasure.shardFileOffset at htill
  dsimp only at htill
  rw [hsize] at htill
  split at htill
  next => exact ⟨htill.le, Or.inr htill⟩
  next hle =>
    refine ⟨by omega, Or.inl ?_⟩
    rw [← Int.natCast_dvd_natCast, htill]
    exact Int.dvd_add (Int.dvd_mul_left _ _) (Int.dvd_refl _)

/-- A range of whole blocks up to the end of the reading of a part. -/
theorem readBlocks_shardFileOffset (hsize : 0 < shardSize) {payload : Bytes} {e : Erasure}
    {total : Int} {start length first count : Nat} {disk : Option Bytes} {data : Bytes}
    (hshard : e.shardSize = shardSize) (hpayload : (payload.length : Int) = e.shardFileSize total)
    (hsource : FileSource (bitrotFile h shardSize payload) disk data)
    (hend : ((first * shardSize + count : Nat) : Int) ≤ e.shardFileOffset start length total)
    (hcount : shardSize ∣ count ∨ first * shardSize + count = payload.length) :
    (newStreamingBitrotReader disk data (e.shardFileOffset start length total) h
      shardSize).readBlocks (first * shardSize) (blockSizes shardSize count) =
      .ok ((payload.drop (first * shardSize)).take count) := by
  obtain ⟨till, htill⟩ := Int.eq_ofNat_of_zero_le (by omega : 0 ≤ e.shardFileOffset start length
    total)
  obtain ⟨hle, hedge⟩ := Erasure.shardFileOffset_edge hshard htill.symm
  rw [htill] at hend ⊢
  rw [← hpayload] at hle hedge
  have hbound : first * shardSize + count ≤ till := by exact_mod_cast hend
  have hlast : till ≤ payload.length := by exact_mod_cast hle
  generalize hstart : first * shardSize = offset at *
  have hrange : ((payload.drop offset).take count).length = count := by
    rw [List.length_take, List.length_drop]
    omega
  have hfront : (payload.take offset).length = offset := by
    rw [List.length_take]
    omega
  have hmiddle : payload.take offset ++ ((payload.drop offset).take count ++
      (payload.drop (offset + count)).take (till - (offset + count))) = payload.take till := by
    rw [Foundation.slice_append, ← List.take_add]
    congr 1
    omega
  have hwhole : (payload.take offset ++ ((payload.drop offset).take count ++
      (payload.drop (offset + count)).take (till - (offset + count)))).length = till := by
    rw [hmiddle, List.length_take]
    omega
  have haligned : shardSize ∣ offset := ⟨first, by rw [← hstart, Nat.mul_comm]⟩
  rw [← List.take_append_drop till payload, ← hmiddle] at hsource
  have hread := readBlocks_newStreamingBitrotReader hsize (hfront.symm ▸ haligned) ?_ ?_ hsource
  · rw [hwhole, hfront, hrange] at hread
    exact hread
  · rw [hrange]
    rcases hcount with hcount | hcount
    · exact Or.inl hcount
    · refine Or.inr (List.eq_nil_of_length_eq_zero ?_)
      rw [List.length_take, List.length_drop]
      omega
  · rcases hedge with hedge | hedge
    · refine Or.inl ((Nat.dvd_add_right haligned).mp ?_)
      rw [List.length_append, hfront] at hwhole
      rw [hwhole]
      exact hedge
    · refine Or.inr (List.drop_of_length_le ?_)
      have hsame : till = payload.length := by exact_mod_cast hedge
      exact hsame.ge

end Fs3

/-! ## What the bitrot check accepts

The check goes through a file block by block, and accepts it where each block
stands behind its own hash. What was written for a payload is accepted, and a
file of another length or with a block that is not the one of its hash is not.
-/

namespace Fs3

open Foundation (chunk chunks)

variable {h : BitrotHash} {shardSize : Nat}

def Hashed (h : BitrotHash) (block : Bytes) : Prop :=
  h.size ≤ block.length ∧ block.take h.size = h.sum (block.drop h.size)

instance (block : Bytes) : Decidable (Hashed h block) :=
  inferInstanceAs (Decidable (_ ∧ _))

theorem hashed_pack (p : Bytes) : Hashed h (h.sum p ++ p) := by
  refine ⟨?_, ?_⟩
  · rw [List.length_append, h.length_sum]
    exact Nat.le_add_right _ _
  · rw [List.take_append_of_le_length (h.length_sum p).ge, ← h.length_sum p, List.take_length,
      List.drop_left]

theorem verifyBlocks_zero (fuel : Nat) (r : Bytes) (size : Int) :
    verifyBlocks h fuel r 0 size = some (.ok ()) := by
  unfold verifyBlocks
  rfl

theorem verifyBlocks_step {fuel : Nat} {r : Bytes} (hne : r ≠ []) (hread : h.size ≤ r.length) :
    verifyBlocks h (fuel + 1) r r.length shardSize =
      if h.sum ((r.drop h.size).take shardSize) ≠ r.take h.size then
        some (.error (.storage .errFileCorrupt))
      else
        verifyBlocks h fuel (r.drop (shardSize + h.size)) (r.drop (shardSize + h.size)).length
          shardSize := by
  have hpos := List.length_pos_of_ne_nil hne
  have hleft : ((r.length : Int) - h.size) = ((r.drop h.size).length : Nat) := by
    rw [List.length_drop]
    omega
  have hrest : r.drop (shardSize + h.size) = (r.drop h.size).drop shardSize := by
    rw [List.drop_drop, Nat.add_comm]
  rw [verifyBlocks, if_neg (by omega), readFullBlock, if_pos hread, hrest]
  dsimp only
  rw [hleft]
  generalize r.drop h.size = tail
  by_cases hshort : (tail.length : Int) < shardSize
  · have hle : tail.length ≤ shardSize := by omega
    rw [if_pos hshort, Int.toNat_natCast, List.take_length, List.drop_length,
      List.take_of_length_le hle, List.drop_of_length_le hle, Int.sub_self, List.length_nil,
      Int.natCast_zero, verifyBlocks_zero, verifyBlocks_zero]
  · rw [if_neg hshort, Int.toNat_natCast, List.length_drop, List.length_take]
    congr 2
    omega

/-- The check of a file that is all there ends, and accepts it where every block is the
one of its hash. -/
theorem verifyBlocks_answer (hsize : 0 < shardSize) {fuel : Nat} {r : Bytes}
    (hfuel : r.length ≤ fuel) :
    (verifyBlocks h fuel r r.length shardSize = some (.ok ()) ∧
      ∀ b ∈ chunks (shardSize + h.size) r, Hashed h b) ∨
    ((∃ err, verifyBlocks h fuel r r.length shardSize = some (.error err)) ∧
      ∃ b ∈ chunks (shardSize + h.size) r, ¬ Hashed h b) := by
  have hwidth : 0 < shardSize + h.size := Nat.add_pos_left hsize _
  induction r using Foundation.chunks_induction hwidth generalizing fuel with
  | nil =>
    refine Or.inl ⟨verifyBlocks_zero fuel [] shardSize, ?_⟩
    rw [Foundation.chunks_nil]
    exact fun b hb => absurd hb List.not_mem_nil
  | step r hne ih =>
    have hpos := List.length_pos_of_ne_nil hne
    obtain ⟨fuel, rfl⟩ := Nat.exists_eq_succ_of_ne_zero (by omega : fuel ≠ 0)
    rw [Foundation.chunks_step hwidth hne]
    have hhead : r.take (shardSize + h.size) ∈
        r.take (shardSize + h.size) :: chunks (shardSize + h.size)
          (r.drop (shardSize + h.size)) := List.mem_cons_self
    by_cases hread : h.size ≤ r.length
    · have hlong : h.size ≤ (r.take (shardSize + h.size)).length := by
        rw [List.length_take]
        omega
      have htake : (r.take (shardSize + h.size)).take h.size = r.take h.size := by
        rw [List.take_take, Nat.min_eq_left (by omega)]
      have hdrop : (r.take (shardSize + h.size)).drop h.size =
          (r.drop h.size).take shardSize := by
        rw [List.drop_take, Nat.add_sub_cancel]
      rw [verifyBlocks_step hne hread]
      split
      next hdiffers =>
        refine Or.inr ⟨⟨_, rfl⟩, _, hhead, ?_⟩
        intro hhashed
        rw [Hashed, htake, hdrop] at hhashed
        exact hdiffers hhashed.2.symm
      next hsame =>
        have hhashed : Hashed h (r.take (shardSize + h.size)) := by
          refine ⟨hlong, ?_⟩
          rw [htake, hdrop]
          exact (not_not.mp hsame).symm
        have hrest : (r.drop (shardSize + h.size)).length ≤ fuel := by
          rw [List.length_drop]
          omega
        rcases ih hrest with ⟨hok, hall⟩ | ⟨herr, b, hb, hbad⟩
        · exact Or.inl ⟨hok, List.forall_mem_cons.mpr ⟨hhashed, hall⟩⟩
        · exact Or.inr ⟨herr, b, List.mem_cons_of_mem _ hb, hbad⟩
    · refine Or.inr ⟨?_, _, hhead, ?_⟩
      · rw [verifyBlocks, if_neg (by omega), readFullBlock, if_neg hread,
          if_neg hpos.ne']
        exact ⟨_, rfl⟩
      · intro hhashed
        have hlong := hhashed.1
        rw [List.length_take] at hlong
        omega

section Verify

variable {new : NewBitrotHash} {file payload want : Bytes} {partSize : Int}

theorem verifyShardFile_answer (hsize : 0 < shardSize) (file want : Bytes) (partSize : Int) :
    (verifyShardFile new file partSize .highwayHash256S want shardSize = some (.ok ()) ∧
      (file.length : Int) = bitrotShardFileSize new partSize shardSize .highwayHash256S ∧
      ∀ b ∈ chunks (shardSize + (new .highwayHash256S).size) file,
        Hashed (new .highwayHash256S) b) ∨
    ((∃ err, verifyShardFile new file partSize .highwayHash256S want shardSize =
        some (.error err)) ∧
      ((file.length : Int) ≠ bitrotShardFileSize new partSize shardSize .highwayHash256S ∨
        ∃ b ∈ chunks (shardSize + (new .highwayHash256S).size) file,
          ¬ Hashed (new .highwayHash256S) b)) := by
  unfold verifyShardFile bitrotVerify
  rw [if_neg (not_not.mpr rfl)]
  split
  next hlength => exact Or.inr ⟨⟨_, rfl⟩, Or.inl hlength⟩
  next hlength =>
    rcases @verifyBlocks_answer (new .highwayHash256S) shardSize hsize (file.length + 1) file
      (Nat.le_succ _) with ⟨hok, hall⟩ | ⟨herr, hbad⟩
    · exact Or.inl ⟨hok, not_not.mp hlength, hall⟩
    · exact Or.inr ⟨herr, Or.inr hbad⟩

theorem bitrotShardFileSize_bitrotFile (hsize : 0 < shardSize) (payload : Bytes) :
    ((bitrotFile (new .highwayHash256S) shardSize payload).length : Int) =
      bitrotShardFileSize new payload.length shardSize .highwayHash256S := by
  rw [bitrotShardFileSize, if_neg (not_not.mpr rfl), length_bitrotFile hsize,
    ceilFrac_natCast hsize]
  push_cast
  ring

theorem chunks_bitrotFile (hsize : 0 < shardSize) (payload : Bytes) :
    chunks (shardSize + h.size) (bitrotFile h shardSize payload) =
      (chunks shardSize payload).map fun p => h.sum p ++ p := by
  rw [bitrotFile_eq_packages hsize, Foundation.chunks_packages hsize length_pack,
    Foundation.packages_const]

theorem verifyShardFile_bitrotFile (hsize : 0 < shardSize) (payload want : Bytes) :
    verifyShardFile new (bitrotFile (new .highwayHash256S) shardSize payload) payload.length
      .highwayHash256S want shardSize = some (.ok ()) := by
  rcases verifyShardFile_answer hsize (bitrotFile (new .highwayHash256S) shardSize payload) want
    payload.length with ⟨hok, -⟩ | ⟨-, hlength | ⟨b, hb, hbad⟩⟩
  · exact hok
  · exact absurd (bitrotShardFileSize_bitrotFile hsize payload) hlength
  · rw [chunks_bitrotFile hsize] at hb
    obtain ⟨p, -, rfl⟩ := List.mem_map.mp hb
    exact absurd (hashed_pack p) hbad

end Verify

/-- Another file of the same length, in which no block has both another hash and other
data, and no other data has the hash of the data that was written. -/
structure Altered (h : BitrotHash) (shardSize : Nat) (file altered : Bytes) : Prop where
  ne : altered ≠ file
  length : altered.length = file.length
  block : ∀ k,
    (chunk (shardSize + h.size) altered k).take h.size =
      (chunk (shardSize + h.size) file k).take h.size ∨
    (chunk (shardSize + h.size) altered k).drop h.size =
      (chunk (shardSize + h.size) file k).drop h.size
  collisionFree : ∀ k,
    h.sum ((chunk (shardSize + h.size) altered k).drop h.size) =
      h.sum ((chunk (shardSize + h.size) file k).drop h.size) →
    (chunk (shardSize + h.size) altered k).drop h.size =
      (chunk (shardSize + h.size) file k).drop h.size

theorem Altered.not_hashed (hsize : 0 < shardSize) {file altered : Bytes}
    (haltered : Altered h shardSize file altered)
    (hfile : ∀ b ∈ chunks (shardSize + h.size) file, Hashed h b) :
    ∃ b ∈ chunks (shardSize + h.size) altered, ¬ Hashed h b := by
  have hwidth : 0 < shardSize + h.size := Nat.add_pos_left hsize _
  by_contra hall
  push Not at hall
  refine haltered.ne (Foundation.eq_of_chunk_eq hwidth haltered.length ?_)
  intro k
  by_cases hk : k * (shardSize + h.size) < file.length
  · have hsum := (hfile _ (Foundation.chunk_mem_chunks hwidth hk)).2
    have hsum' := (hall _ (Foundation.chunk_mem_chunks hwidth (haltered.length ▸ hk))).2
    rw [← List.take_append_drop h.size (chunk (shardSize + h.size) altered k),
      ← List.take_append_drop h.size (chunk (shardSize + h.size) file k)]
    rcases haltered.block k with hhash | hdata
    · rw [hhash, haltered.collisionFree k (hsum' ▸ hsum ▸ hhash)]
    · rw [hsum, hsum', hdata]
  · have hend : ∀ xs : Bytes, xs.length = file.length → chunk (shardSize + h.size) xs k = [] := by
      intro xs hxs
      refine List.eq_nil_of_length_eq_zero ?_
      rw [Foundation.length_chunk, hxs]
      omega
    rw [hend altered haltered.length, hend file rfl]

def byteSum : BitrotHash where
  size := 1
  sum := fun data => [data.sum]
  length_sum := fun _ => rfl

end Fs3
