import Fs3.Foundation.Histories
import Fs3.Streaming.ChunkedReader

/-! # What the reader of signed chunks delivers

As long as it has returned no error, all that the reader has delivered, with what it still holds,
are the payloads of the correctly signed chunks that it has taken from the stream. -/

namespace Fs3.Streaming

open Foundation

namespace ChunkSigner

variable {signer : ChunkSigner} {seedSignature last : String} {hashed stream stream' payload rest :
  Bytes} {fails : Bool} {payloads : List Bytes}

theorem isChunk_iff (fails : Bool) : signer.IsChunk seedSignature hashed stream payload rest ↔
    readSigned fails stream =
      (.ok (bytesOf (signer.signatureOf seedSignature (hashed ++ payload)), payload), rest) := by
  constructor
  · rintro ⟨hsmall, digits, hdigits, hstream⟩
    exact readSigned_eq_ok.mpr
      ⟨hsmall, signer.length_getSignature _, digits, hdigits, hstream⟩
  · intro hrun
    obtain ⟨hsmall, -, digits, hdigits, hstream⟩ := readSigned_eq_ok.mp hrun
    exact ⟨hsmall, digits, hdigits, hstream⟩

theorem IsChunk.unique {hashed' payload' rest' : Bytes} {seedSignature' : String}
    (hchunk : signer.IsChunk seedSignature hashed stream payload rest)
    (hchunk' : signer.IsChunk seedSignature' hashed' stream payload' rest') :
    payload = payload' ∧ rest = rest' := by
  have hrun := (isChunk_iff false).mp hchunk
  rw [(isChunk_iff false).mp hchunk'] at hrun
  injection hrun with hok hrest
  injection hok with hpair
  injection hpair with _ hpayload
  exact ⟨hpayload.symm, hrest.symm⟩

theorem IsChunk.length_lt (hchunk : signer.IsChunk seedSignature hashed stream payload rest) :
    rest.length < stream.length := by
  obtain ⟨digits, -, hstream⟩ := hchunk.shape
  rw [hstream]
  simp only [List.length_append, List.length_cons]
  omega

theorem Chunks.length_le (hchunks : signer.Chunks seedSignature stream payloads last rest) :
    rest.length ≤ stream.length := by
  induction hchunks with
  | none => exact Nat.le_refl _
  | one hnonempty hchunk hrest ih => exact Nat.le_trans ih (Nat.le_of_lt hchunk.length_lt)

theorem Chunks.unique {payloads' : List Bytes} {last' : String}
    (hchunks : signer.Chunks seedSignature stream payloads last rest)
    (hchunks' : signer.Chunks seedSignature stream payloads' last' rest) :
    payloads = payloads' := by
  induction hchunks generalizing payloads' with
  | none =>
    cases hchunks' with
    | none => rfl
    | one hnonempty hchunk hrest =>
      exact absurd hchunk.length_lt (Nat.not_lt.mpr hrest.length_le)
  | one hnonempty hchunk hrest ih =>
    cases hchunks' with
    | none => exact absurd hchunk.length_lt (Nat.not_lt.mpr hrest.length_le)
    | one hnonempty' hchunk' hrest' =>
      obtain ⟨rfl, rfl⟩ := hchunk.unique hchunk'
      rw [ih hrest']

theorem Chunks.snoc (hchunks : signer.Chunks seedSignature stream payloads last rest)
    (hnonempty : payload ≠ []) (hchunk : signer.IsChunk last [] rest payload stream') :
    signer.Chunks seedSignature stream (payloads ++ [payload]) (signer.signatureOf last payload)
      stream' := by
  induction hchunks with
  | none => exact .one hnonempty hchunk (.none _ _)
  | one hnonempty' hchunk' hrest ih => exact .one hnonempty' hchunk' (ih hchunk)

end ChunkSigner

/-! ## Errors of the body -/

/-- A step that never gives `io.EOF`. -/
def NeverEOF {α : Type} (x : Reads α) : Prop := ∀ body rest, x body ≠ (.error .eof, rest)

theorem endErr_ne_eof (fails : Bool) : endErr fails ≠ .eof := by
  cases fails <;> decide

namespace NeverEOF

variable {α β : Type} {fails : Bool}

theorem bind {x : Reads α} {f : α → Reads β} (hx : NeverEOF x) (hf : ∀ a, NeverEOF (f a)) :
    NeverEOF (x >>= f) := by
  intro body rest
  change ExceptT.bindCont f (x body).1 (x body).2 ≠ _
  have hne := hx body (x body).2
  rcases hrun : x body with ⟨err | a, rest'⟩
  · intro heof
    cases heof
    rw [hrun] at hne
    exact hne rfl
  · exact hf a rest' rest

theorem pure (a : α) : NeverEOF (pure a : Reads α) := fun _ _ heof => nomatch heof

theorem readByte : NeverEOF (readByte fails) := by
  intro body rest heof
  cases body with
  | nil =>
    injection heof with herr
    injection herr with herr
    exact endErr_ne_eof fails herr
  | cons b body => cases heof

theorem readByteOrZero : NeverEOF readByteOrZero := by
  intro body rest heof
  cases body <;> cases heof

theorem readFull (size : Nat) : NeverEOF (readFull fails size) := by
  intro body rest heof
  unfold Streaming.readFull at heof
  split at heof
  · cases heof
  · injection heof with herr
    injection herr with herr
    exact endErr_ne_eof fails herr

theorem ensure (ok : Bool) : NeverEOF (ensure ok) := by
  intro body rest heof
  unfold Streaming.ensure at heof
  split at heof <;> cases heof

theorem expect (b : UInt8) : NeverEOF (expect fails b) :=
  readByte.bind fun _ => ensure _

theorem readSize : NeverEOF (readSize fails) := by
  have hfrom : ∀ body size rest, readSizeFrom fails size body ≠ (.error .eof, rest) := by
    intro body
    induction body with
    | nil =>
      intro size rest heof
      injection heof with herr
      injection herr with herr
      exact endErr_ne_eof fails herr
    | cons b body ih =>
      intro size rest heof
      rw [readSizeFrom] at heof
      split at heof
      · cases heof
      · split at heof
        · cases heof
        · dsimp only at heof
          split at heof
          · cases heof
          · exact ih _ _ heof
  exact fun body rest => hfrom body 0 rest

theorem readSigned : NeverEOF (readSigned fails) := by
  refine NeverEOF.bind ?_ fun header => NeverEOF.bind ?_ fun _ => pure _
  · exact readSize.bind fun _ => (readFull 80).bind fun _ => (ensure _).bind fun _ =>
      (expect _).bind fun _ => (expect _).bind fun _ => pure _
  · exact (readFull header.1).bind fun _ => readByteOrZero.bind fun _ => (ensure _).bind fun _ =>
      (expect _).bind fun _ => pure _

end NeverEOF

/-! ## One chunk of the reader -/

namespace S3ChunkedReader

open ChunkSigner

variable {signer : ChunkSigner} {fails : Bool} {cr cr' : S3ChunkedReader} {err : Err}

def take (signer : ChunkSigner) (cr : S3ChunkedReader) (payload rest : Bytes) : S3ChunkedReader :=
  { cr with
    body := rest
    buffer := payload
    chunkSHA256Writer := []
    seedSignature := signer.signatureOf cr.seedSignature (cr.chunkSHA256Writer ++ payload) }

theorem readChunk_of_isChunk {payload rest : Bytes}
    (hchunk : signer.IsChunk cr.seedSignature cr.chunkSHA256Writer cr.body payload rest) :
    cr.readChunk signer fails =
      (if payload = [] then some .eof else none, cr.take signer payload rest) := by
  unfold readChunk
  rw [(isChunk_iff fails).mp hchunk]
  simp only [signatureOf, ne_eq, not_true_eq_false, if_false]
  split <;> rfl

theorem exists_isChunk_of_readChunk
    (hread : (cr.readChunk signer fails).1 = none ∨ (cr.readChunk signer fails).1 = some .eof) :
    ∃ payload rest, signer.IsChunk cr.seedSignature cr.chunkSHA256Writer cr.body payload rest := by
  cases hrun : readSigned fails cr.body with
  | mk result body =>
    cases result with
    | error err =>
      unfold readChunk at hread
      rw [hrun] at hread
      rcases hread with hread | hread
      · cases hread
      · cases hread
        exact absurd hrun (NeverEOF.readSigned _ _)
    | ok signed =>
      obtain ⟨signature, payload⟩ := signed
      unfold readChunk at hread
      rw [hrun] at hread
      dsimp only at hread
      split at hread
      · rcases hread with hread | hread <;> cases hread
      next hsame =>
        rw [Decidable.not_not] at hsame
        exact ⟨payload, body, (isChunk_iff fails).mpr (hsame ▸ hrun)⟩

theorem readChunk_eq_none_iff : (cr.readChunk signer fails).1 = none ↔
    signer.Continues cr.seedSignature cr.chunkSHA256Writer cr.body := by
  constructor
  · intro hnone
    obtain ⟨payload, rest, hchunk⟩ := exists_isChunk_of_readChunk (Or.inl hnone)
    refine ⟨payload, rest, fun hempty => ?_, hchunk⟩
    rw [readChunk_of_isChunk hchunk, if_pos hempty] at hnone
    cases hnone
  · rintro ⟨payload, rest, hnonempty, hchunk⟩
    rw [readChunk_of_isChunk hchunk, if_neg hnonempty]

theorem readChunk_eq_eof_iff : (cr.readChunk signer fails).1 = some .eof ↔
    signer.Ends cr.seedSignature cr.chunkSHA256Writer cr.body := by
  constructor
  · intro heof
    obtain ⟨payload, rest, hchunk⟩ := exists_isChunk_of_readChunk (Or.inr heof)
    rw [readChunk_of_isChunk hchunk] at heof
    split at heof
    next hempty =>
      subst hempty
      exact ⟨rest, hchunk⟩
    next => cases heof
  · rintro ⟨rest, hchunk⟩
    rw [readChunk_of_isChunk hchunk, if_pos rfl]

theorem readChunk_offset : (cr.readChunk signer fails).2.offset = cr.offset := by
  unfold readChunk
  split
  · rfl
  · dsimp only
    split
    · rfl
    · split <;> rfl

end S3ChunkedReader

/-! ## Reads -/

/-- A caller's reads: what has been delivered up to the first error, that error, and what
has been delivered since. -/
structure Session where
  reader : S3ChunkedReader
  delivered : Bytes := []
  ended : Option Err := none
  late : Bytes := []

namespace Session

variable (signer : ChunkSigner) (fails : Bool)

/-- `newSignV4ChunkedReader`. -/
def start (seedSignature : String) (stream : Bytes) : Session where
  reader := { body := stream, seedSignature }

/-- A `Read` into a buffer of some size. -/
def step (s : Session) (size : Nat) : Session :=
  let (result, reader) := s.reader.read signer fails size
  match s.ended with
  | none => { s with reader, delivered := s.delivered ++ result.bytes, ended := result.err }
  | some _ => { s with reader, late := s.late ++ result.bytes }

/-- What is delivered, with what the reader still holds, are the payloads of the correctly signed
chunks that it has taken from the stream. -/
structure Authentic (seedSignature : String) (stream : Bytes) (s : Session) : Prop where
  reading : s.ended = none → ∃ payloads last,
    signer.Chunks seedSignature stream payloads last s.reader.body ∧
      s.delivered ++ s.reader.unread = payloads.flatten
  ended : ∀ err, s.ended = some err → ∃ payloads last rest,
    signer.Chunks seedSignature stream payloads last rest ∧ s.delivered = payloads.flatten ∧
      ¬ signer.Continues last [] rest ∧ (err = .eof ↔ signer.Ends last [] rest)
  nothingLate : s.late = []

/-- What a `Read` has to be: where a correctly signed chunk with a payload comes next, no
error has been returned, and a reader that holds nothing is asked for some bytes. -/
def Good (s : Session) (size : Nat) : Prop :=
  signer.Continues s.reader.seedSignature s.reader.chunkSHA256Writer s.reader.body →
    (s.ended = none → size = 0 → 0 < s.reader.offset) ∧ (s.ended ≠ none → size = 0)

/-- What the reads that are good keep. -/
structure Inv (seedSignature : String) (stream : Bytes) (s : Session) : Prop where
  authentic : s.Authentic signer seedSignature stream
  chained : s.ended = none → ∃ payloads,
    signer.Chunks seedSignature stream payloads s.reader.seedSignature s.reader.body ∧
      s.delivered ++ s.reader.unread = payloads.flatten
  hashed : s.ended = none → s.reader.chunkSHA256Writer = []
  offset_le : s.ended = none → s.reader.offset ≤ s.reader.buffer.length
  offset_eq : s.ended ≠ none → s.reader.offset = 0

variable {signer fails} {seedSignature : String} {stream : Bytes} {s : Session} {size : Nat}

theorem step_reading (hended : s.ended = none) : s.step signer fails size =
    { s with
      reader := (s.reader.read signer fails size).2
      delivered := s.delivered ++ (s.reader.read signer fails size).1.bytes
      ended := (s.reader.read signer fails size).1.err } := by
  unfold step
  rw [hended]

theorem step_ended (hended : s.ended ≠ none) : s.step signer fails size =
    { s with
      reader := (s.reader.read signer fails size).2
      late := s.late ++ (s.reader.read signer fails size).1.bytes } := by
  obtain ⟨err, herr⟩ := Option.ne_none_iff_exists'.mp hended
  unfold step
  rw [herr]

end Session

namespace S3ChunkedReader

open ChunkSigner

variable {signer : ChunkSigner} {fails : Bool} {cr : S3ChunkedReader} {size : Nat}

theorem unread_of_offset (hoffset : cr.offset = 0) : cr.unread = [] := by
  rw [unread, hoffset, if_neg (Nat.lt_irrefl 0)]

theorem unread_of_pos (hoffset : 0 < cr.offset) : cr.unread = cr.buffer.drop cr.offset :=
  if_pos hoffset

theorem read_of_enough (hoffset : 0 < cr.offset) (hsize : size ≤ cr.unread.length) :
    cr.read signer fails size =
      ({ bytes := cr.unread.take size }, { cr with offset := cr.offset + size }) := by
  have hlength : (cr.unread.take size).length = size := List.length_take_of_le hsize
  unfold read
  rw [if_pos ⟨hoffset, hlength⟩, hlength]

theorem read_of_short (hshort : cr.offset = 0 ∨ cr.unread.length < size) :
    cr.unread.take size = cr.unread ∧ ¬ (0 < cr.offset ∧ (cr.unread.take size).length = size) := by
  have htake : cr.unread.take size = cr.unread := by
    rcases hshort with hoffset | hlt
    · rw [unread_of_offset hoffset, List.take_nil]
    · exact List.take_of_length_le (Nat.le_of_lt hlt)
  refine ⟨htake, ?_⟩
  rw [htake]
  rintro ⟨hoffset, hlength⟩
  rcases hshort with hzero | hlt
  · exact absurd hzero (Nat.pos_iff_ne_zero.mp hoffset)
  · exact absurd hlength (Nat.ne_of_lt hlt)

theorem read_of_error (hshort : cr.offset = 0 ∨ cr.unread.length < size) {cr' : S3ChunkedReader}
    {err : Err} (hrun : { cr with offset := 0 }.readChunk signer fails = (some err, cr')) :
    cr.read signer fails size =
      ({ bytes := cr.unread, err := some err }, { cr' with err := some err }) := by
  obtain ⟨htake, hguard⟩ := read_of_short hshort
  unfold read
  rw [if_neg hguard, htake, hrun]

theorem read_of_chunk (hshort : cr.offset = 0 ∨ cr.unread.length < size) {cr' : S3ChunkedReader}
    (hrun : { cr with offset := 0 }.readChunk signer fails = (none, cr')) :
    cr.read signer fails size =
      ({ bytes := cr.unread ++ cr'.buffer.take (size - cr.unread.length) },
        { cr' with offset := (cr'.buffer.take (size - cr.unread.length)).length }) := by
  obtain ⟨htake, hguard⟩ := read_of_short hshort
  unfold read
  rw [if_neg hguard, htake, hrun]

theorem unread_add (hoffset : 0 < cr.offset) (size : Nat) :
    ({ cr with offset := cr.offset + size } : S3ChunkedReader).unread = cr.unread.drop size := by
  unfold unread
  rw [if_pos hoffset, if_pos (Nat.lt_of_lt_of_le hoffset (Nat.le_add_right _ _)), List.drop_drop]

end S3ChunkedReader

namespace Session

open S3ChunkedReader ChunkSigner

variable {signer : ChunkSigner} {fails : Bool} {seedSignature : String} {stream : Bytes}
  {s : Session} {size : Nat}

theorem Inv.start (signer : ChunkSigner) (seedSignature : String) (stream : Bytes) :
    (start seedSignature stream).Inv signer seedSignature stream where
  authentic :=
    { reading := fun _ => ⟨[], seedSignature, .none _ _, rfl⟩
      ended := fun _ hended => nomatch hended
      nothingLate := rfl }
  chained := fun _ => ⟨[], .none _ _, rfl⟩
  hashed := fun _ => rfl
  offset_le := fun _ => Nat.le_refl 0
  offset_eq := fun hended => absurd rfl hended

section

variable (hinv : s.Inv signer seedSignature stream)
include hinv

theorem Inv.step_enough (hended : s.ended = none) (hoffset : 0 < s.reader.offset)
    (hsize : size ≤ s.reader.unread.length) :
    (s.step signer fails size).Inv signer seedSignature stream := by
  obtain ⟨payloads, hchunks, hflatten⟩ := hinv.chained hended
  have hsame : s.delivered ++ s.reader.unread.take size ++ s.reader.unread.drop size =
      payloads.flatten := by
    rw [List.append_assoc, List.take_append_drop, hflatten]
  rw [step_reading hended, read_of_enough hoffset hsize]
  rw [← unread_add hoffset size] at hsame
  exact
    { authentic :=
        { reading := fun _ => ⟨payloads, _, hchunks, hsame⟩
          ended := fun _ herr => nomatch herr
          nothingLate := hinv.authentic.nothingLate }
      chained := fun _ => ⟨payloads, hchunks, hsame⟩
      hashed := fun _ => hinv.hashed hended
      offset_le := fun _ => by
        rw [unread, if_pos hoffset, List.length_drop] at hsize
        have hle := hinv.offset_le hended
        change s.reader.offset + size ≤ s.reader.buffer.length
        omega
      offset_eq := fun hne => absurd rfl hne }

theorem Inv.step_error (hended : s.ended = none)
    (hshort : s.reader.offset = 0 ∨ s.reader.unread.length < size) {err : Err}
    (herr : ({ s.reader with offset := 0 }.readChunk signer fails).1 = some err) :
    (s.step signer fails size).Inv signer seedSignature stream := by
  obtain ⟨payloads, hchunks, hflatten⟩ := hinv.chained hended
  have hcontinues := @readChunk_eq_none_iff signer fails { s.reader with offset := 0 }
  have hends := @readChunk_eq_eof_iff signer fails { s.reader with offset := 0 }
  have hoffset := @readChunk_offset signer fails { s.reader with offset := 0 }
  rw [herr] at hcontinues hends
  rcases hrun : { s.reader with offset := 0 }.readChunk signer fails with ⟨result, cr'⟩
  rw [hrun] at herr hoffset
  cases herr
  rw [step_reading hended, read_of_error hshort hrun]
  have hhashed := hinv.hashed hended
  exact
    { authentic :=
        { reading := fun hnone => nomatch hnone
          ended := fun err' herr' => by
            cases herr'
            refine ⟨payloads, _, _, hchunks, hflatten, fun hgoes => ?_, ?_⟩
            · have hnone := hcontinues.mpr (hhashed.symm ▸ hgoes)
              cases hnone
            · rw [hhashed] at hends
              rw [← hends, Option.some.injEq]
          nothingLate := hinv.authentic.nothingLate }
      chained := fun hnone => nomatch hnone
      hashed := fun hnone => nomatch hnone
      offset_le := fun hnone => nomatch hnone
      offset_eq := fun _ => hoffset }

/-- A chunk that is taken is handed on or held, unless the caller asks for no bytes. -/
theorem Inv.step_chunk (hended : s.ended = none) (hshort : s.reader.unread.length < size)
    {payload rest : Bytes} (hnonempty : payload ≠ [])
    (hchunk : signer.IsChunk s.reader.seedSignature s.reader.chunkSHA256Writer s.reader.body
      payload rest) : (s.step signer fails size).Inv signer seedSignature stream := by
  obtain ⟨payloads, hchunks, hflatten⟩ := hinv.chained hended
  have hhashed := hinv.hashed hended
  have hrun : { s.reader with offset := 0 }.readChunk signer fails = _ :=
    readChunk_of_isChunk hchunk
  rw [if_neg hnonempty] at hrun
  rw [step_reading hended, read_of_chunk (Or.inr hshort) hrun]
  rw [hhashed] at hchunk
  have hchunks' := hchunks.snoc hnonempty hchunk
  have hseed : signer.signatureOf s.reader.seedSignature
      (s.reader.chunkSHA256Writer ++ payload) =
      signer.signatureOf s.reader.seedSignature payload := by
    rw [hhashed, List.nil_append]
  rw [← hseed] at hchunks'
  have hpositive : 0 < (payload.take (size - s.reader.unread.length)).length := by
    rw [List.length_take]
    have hlength := List.length_pos_iff.mpr hnonempty
    omega
  have hsame : s.delivered ++ (s.reader.unread ++ payload.take (size - s.reader.unread.length)) ++
      payload.drop (payload.take (size - s.reader.unread.length)).length =
        (payloads ++ [payload]).flatten := by
    have hrejoin : payload.take (size - s.reader.unread.length) ++
        payload.drop (payload.take (size - s.reader.unread.length)).length = payload := by
      rw [List.length_take, List.take_eq_take_min, List.take_append_drop]
    rw [← List.append_assoc, hflatten, List.append_assoc, hrejoin, List.flatten_append,
      List.flatten_singleton]
  exact
    { authentic :=
        { reading := fun _ => ⟨_, _, hchunks',
            (congrArg _ (unread_of_pos hpositive)).trans hsame⟩
          ended := fun _ herr => nomatch herr
          nothingLate := hinv.authentic.nothingLate }
      chained := fun _ => ⟨_, hchunks', (congrArg _ (unread_of_pos hpositive)).trans hsame⟩
      hashed := fun _ => rfl
      offset_le := fun _ => List.length_take_le' _ _
      offset_eq := fun hne => absurd rfl hne }

theorem read_of_ended (hended : s.ended ≠ none) (hgood : s.Good signer size) :
    (s.reader.read signer fails size).1.bytes = [] ∧
      (s.reader.read signer fails size).2.offset = 0 := by
  have hoffset := hinv.offset_eq hended
  have hunread := unread_of_offset hoffset
  have hkept := @readChunk_offset signer fails { s.reader with offset := 0 }
  have hcontinues := @readChunk_eq_none_iff signer fails { s.reader with offset := 0 }
  rcases hrun : { s.reader with offset := 0 }.readChunk signer fails with ⟨result, cr'⟩
  rw [hrun] at hkept hcontinues
  cases result with
  | some err =>
    rw [read_of_error (Or.inl hoffset) hrun, hunread]
    exact ⟨rfl, hkept⟩
  | none =>
    rw [read_of_chunk (Or.inl hoffset) hrun, hunread, (hgood (hcontinues.mp rfl)).2 hended]
    exact ⟨rfl, rfl⟩

theorem Inv.step (hgood : s.Good signer size) :
    (s.step signer fails size).Inv signer seedSignature stream := by
  by_cases hended : s.ended = none
  · by_cases henough : 0 < s.reader.offset ∧ size ≤ s.reader.unread.length
    · exact hinv.step_enough hended henough.1 henough.2
    · cases hresult : ({ s.reader with offset := 0 }.readChunk signer fails).1 with
      | some err => exact hinv.step_error hended (by omega) hresult
      | none =>
        obtain ⟨payload, rest, hnonempty, hchunk⟩ := readChunk_eq_none_iff.mp hresult
        refine hinv.step_chunk hended ?_ hnonempty hchunk
        -- A caller that asks for no bytes is one that the reader holds some for.
        have hasks := (hgood ⟨payload, rest, hnonempty, hchunk⟩).1 hended
        rcases Nat.eq_zero_or_pos s.reader.offset with hoffset | hoffset
        · rw [unread_of_offset hoffset]
          exact Nat.pos_iff_ne_zero.mpr fun hsize => by
            have hpositive := hasks hsize
            omega
        · exact Nat.lt_of_not_le fun hle => henough ⟨hoffset, hle⟩
  · obtain ⟨hbytes, hoffset⟩ := @read_of_ended _ fails _ _ _ _ hinv hended hgood
    rw [step_ended hended, hbytes, List.append_nil]
    exact
      { authentic :=
          { reading := fun hnone => absurd hnone hended
            ended := hinv.authentic.ended
            nothingLate := hinv.authentic.nothingLate }
        chained := fun hnone => absurd hnone hended
        hashed := fun hnone => absurd hnone hended
        offset_le := fun hnone => absurd hnone hended
        offset_eq := fun _ => hoffset }

/-- A `Read` that is not good loses a payload, or delivers after an error. -/
theorem Inv.not_authentic_step (hbad : ¬ s.Good signer size) :
    ¬ (s.step signer fails size).Authentic signer seedSignature stream := by
  intro hauthentic
  unfold Good at hbad
  rw [Classical.not_imp, not_and_or] at hbad
  obtain ⟨⟨payload, rest, hnonempty, hchunk⟩, hcases⟩ := hbad
  have hrun : { s.reader with offset := 0 }.readChunk signer fails = _ :=
    readChunk_of_isChunk hchunk
  rw [if_neg hnonempty] at hrun
  rcases hcases with hlost | hlate
  · simp only [Classical.not_imp, Nat.not_lt, Nat.le_zero] at hlost
    obtain ⟨hended, rfl, hoffset⟩ := hlost
    obtain ⟨payloads, hchunks, hflatten⟩ := hinv.chained hended
    rw [hinv.hashed hended] at hchunk
    rw [step_reading hended, read_of_chunk (Or.inl hoffset) hrun] at hauthentic
    obtain ⟨payloads', last, hchunks', hflatten'⟩ := hauthentic.reading rfl
    have hunread := unread_of_offset hoffset
    rw [← (hchunks.snoc hnonempty hchunk).unique hchunks', List.flatten_append, ← hflatten,
      hunread, List.append_nil] at hflatten'
    exact hnonempty (by simpa [S3ChunkedReader.unread] using hflatten')
  · simp only [Classical.not_imp] at hlate
    obtain ⟨hended, hsize⟩ := hlate
    have hoffset := hinv.offset_eq hended
    have hunread := unread_of_offset hoffset
    rw [step_ended hended, read_of_chunk (Or.inl hoffset) hrun, hunread] at hauthentic
    have hempty := (List.append_eq_nil_iff.mp hauthentic.nothingLate).2
    rw [List.nil_append, List.take_eq_nil_iff] at hempty
    rcases hempty with hzero | hempty
    · exact hsize hzero
    · exact hnonempty hempty

end

/-- The reads of a signed upload are what they should be exactly as long as each of them is
good. -/
theorem authentic_iff_guarded (signer : ChunkSigner) (fails : Bool) (seedSignature : String)
    (stream : Bytes) (sizes : List Nat) :
    Always (step signer fails) (Authentic signer seedSignature stream)
        (start seedSignature stream) sizes ↔
      Guarded (step signer fails) (Good signer) (start seedSignature stream) sizes :=
  always_iff_guarded (fun _ _ hinv hgood => hinv.step hgood)
    (fun _ hinv => hinv.authentic) (fun _ _ hinv hbad => hinv.not_authentic_step hbad)
    (Inv.start signer seedSignature stream)

def constantSigner : ChunkSigner where
  date := ""
  scope := ""
  sha256 := fun _ => []
  getSignature := fun _ => "0000000000000000000000000000000000000000000000000000000000000000"
  length_getSignature := fun _ => by decide

def byteChunk : Bytes :=
  0x31 :: 0x3b :: (chunkSignature ++ List.replicate 64 0x30 ++ [0x0d, 0x0a, 0x41, 0x0d, 0x0a])

def finalChunk : Bytes :=
  0x30 :: 0x3b :: (chunkSignature ++ List.replicate 64 0x30 ++ [0x0d, 0x0a, 0x0d, 0x0a])

theorem isChunk_byteChunk (seedSignature : String) (rest : Bytes) :
    constantSigner.IsChunk seedSignature [] (byteChunk ++ rest) [0x41] rest where
  small := by decide
  shape := by
    have hbytes : bytesOf (constantSigner.signatureOf seedSignature ([] ++ [0x41])) =
        List.replicate 64 0x30 :=
      (by decide : bytesOf "0000000000000000000000000000000000000000000000000000000000000000" =
        List.replicate 64 0x30)
    refine ⟨[0x31], by decide, ?_⟩
    rw [hbytes]
    simp [byteChunk]

/-- After a first `Read` of no bytes the payload of a stream is never delivered, and a
payload that follows the end of the stream is. -/
theorem not_authentic_reads :
    ¬ Always (step constantSigner false) (Authentic constantSigner "" (byteChunk ++ finalChunk))
        (start "" (byteChunk ++ finalChunk)) [0, 1] ∧
      ¬ Always (step constantSigner false) (Authentic constantSigner "" (finalChunk ++ byteChunk))
        (start "" (finalChunk ++ byteChunk)) [1, 1] := by
  constructor
  · intro halways
    have hauthentic := halways [0, 1] List.prefix_rfl
    obtain ⟨payloads, last, rest, hchunks, hflatten, hgoes, -⟩ :=
      hauthentic.ended .eof (by decide +kernel)
    have hnothing : payloads.flatten = [] := by
      rw [← hflatten]
      decide +kernel
    cases hchunks with
    | none => exact hgoes ⟨[0x41], finalChunk, by decide, isChunk_byteChunk "" finalChunk⟩
    | one hnonempty => exact hnonempty (List.append_eq_nil_iff.mp hnothing).1
  · intro halways
    have hlate := (halways [1, 1] List.prefix_rfl).nothingLate
    exact absurd hlate (by decide +kernel)

end Session

end Fs3.Streaming
