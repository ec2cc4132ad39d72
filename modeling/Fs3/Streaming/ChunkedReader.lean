import Fs3.Hash.Reader

/-! # The reader of signed chunks

A signed upload comes in chunks, each with its size and a signature of its payload that chains from
the signature before it. -/

namespace Fs3.Streaming

open Foundation

def bytesOf (text : String) : Bytes := text.toUTF8.data.toList

/-- What the signatures of a request are made with: the texts of its date and scope, SHA256,
and `getSignature` with the signing key, the text of an HMAC-SHA256 in hexadecimal. -/
structure ChunkSigner where
  date : String
  scope : String
  sha256 : Bytes → Bytes
  getSignature : String → String
  length_getSignature : ∀ stringToSign, (bytesOf (getSignature stringToSign)).length = 64

def emptySHA256 : String := "e3b0c44298fc1c149afbf4c8996fb92427ae41e4649b934ca495991b7852b855"

def signV4ChunkedAlgorithm : String := "AWS4-HMAC-SHA256-PAYLOAD"

/-- `getChunkSignature`. -/
def ChunkSigner.getChunkSignature (signer : ChunkSigner) (seedSignature hashedChunk : String) :
    String :=
  signer.getSignature (signV4ChunkedAlgorithm ++ "\n" ++ signer.date ++ "\n" ++ signer.scope ++
    "\n" ++ seedSignature ++ "\n" ++ emptySHA256 ++ "\n" ++ hashedChunk)

inductive Err where
  | eof
  | unexpectedEOF
  | errMalformedEncoding
  | errSignatureMismatch
  /-- Any other error of the body. -/
  | failed
  deriving DecidableEq

/-! ## Reading the body -/

/-- A step that takes bytes from the body, and gives an error or a value. -/
abbrev Reads := ExceptT Err (StateM Bytes)

/-- How a read ends at a body with no more bytes, that may fail with an error of its own. -/
def endErr (fails : Bool) : Err := if fails then .failed else .unexpectedEOF

section Body

variable (fails : Bool)

def readByte : Reads UInt8 := fun body =>
  match body with
  | [] => (.error (endErr fails), [])
  | b :: rest => (.ok b, rest)

/-- `ReadByte` with its error dropped. -/
def readByteOrZero : Reads UInt8 := fun body =>
  match body with
  | [] => (.ok 0, [])
  | b :: rest => (.ok b, rest)

/-- `io.ReadFull`. -/
def readFull (size : Nat) : Reads Bytes := fun body =>
  if size ≤ body.length then (.ok (body.take size), body.drop size)
  else (.error (endErr fails), [])

def hexDigit (b : UInt8) : Option Nat :=
  if 0x30 ≤ b ∧ b ≤ 0x39 then some (b.toNat - 0x30)
  else if 0x61 ≤ b ∧ b ≤ 0x66 then some (b.toNat - (0x61 - 10))
  else if 0x41 ≤ b ∧ b ≤ 0x46 then some (b.toNat - (0x41 - 10))
  else none

def MaxSize : Nat := 1 <<< 20

/-- The loop that reads the size of a chunk, up to the separating character. -/
def readSizeFrom (size : Nat) : Bytes → Except Err Nat × Bytes
  | [] => (.error (endErr fails), [])
  | b :: rest =>
    if b = 0x3b then (.ok size, rest)
    else
      match hexDigit b with
      | none => (.error .errMalformedEncoding, rest)
      | some digit =>
        let size := size <<< 4 ||| digit
        if MaxSize < size then (.error .errMalformedEncoding, rest)
        else readSizeFrom size rest

def readSize : Reads Nat := fun body => readSizeFrom fails 0 body

def ensure (ok : Bool) : Reads Unit := fun body =>
  if ok then (.ok (), body) else (.error .errMalformedEncoding, body)

def expect (b : UInt8) : Reads Unit := do
  let b' ← readByte fails
  ensure (b' == b)

def chunkSignature : Bytes := bytesOf "chunk-signature="

def readHeader : Reads (Nat × Bytes) := do
  let size ← readSize fails
  let signature ← readFull fails 80
  ensure (chunkSignature.isPrefixOf signature)
  expect fails 0x0d
  expect fails 0x0a
  return (size, signature.drop 16)

def readPayload (size : Nat) : Reads Bytes := do
  let payload ← readFull fails size
  let b ← readByteOrZero
  ensure (b == 0x0d)
  expect fails 0x0a
  return payload

def readSigned : Reads (Bytes × Bytes) := do
  let (size, signature) ← readHeader fails
  let payload ← readPayload fails size
  return (signature, payload)

end Body

/-- `s3ChunkedReader`: what is left of the body, what the hash of the chunk has been given,
and the payload that was read last. -/
structure S3ChunkedReader where
  body : Bytes
  seedSignature : String
  chunkSHA256Writer : Bytes := []
  buffer : Bytes := []
  offset : Nat := 0
  err : Option Err := none

namespace S3ChunkedReader

variable (signer : ChunkSigner) (fails : Bool) (cr : S3ChunkedReader)

def readChunk : Option Err × S3ChunkedReader :=
  match readSigned fails cr.body with
  | (.error err, body) => (some err, { cr with body })
  | (.ok (signature, payload), body) =>
    let hashed := cr.chunkSHA256Writer ++ payload
    let newSignature := signer.getChunkSignature cr.seedSignature
      (Hash.encodeToString (signer.sha256 hashed))
    if signature ≠ bytesOf newSignature then
      (some .errSignatureMismatch,
        { cr with body, buffer := payload, chunkSHA256Writer := hashed })
    else
      let cr := { cr with
        body, buffer := payload, chunkSHA256Writer := [], seedSignature := newSignature }
      if payload = [] then (some .eof, cr) else (none, cr)

def unread : Bytes := if 0 < cr.offset then cr.buffer.drop cr.offset else []

/-- `Read` into a buffer of some size. -/
def read (size : Nat) : Foundation.ReadResult UInt8 Err × S3ChunkedReader :=
  let left := cr.unread.take size
  if 0 < cr.offset ∧ left.length = size then
    ({ bytes := left }, { cr with offset := cr.offset + left.length })
  else
    match { cr with offset := 0 }.readChunk signer fails with
    | (some err, cr) => ({ bytes := left, err := some err }, { cr with err := some err })
    | (none, cr) =>
      let copied := cr.buffer.take (size - left.length)
      ({ bytes := left ++ copied }, { cr with offset := copied.length })

end S3ChunkedReader

end Fs3.Streaming

/-! ## Signed chunks

A stream that begins with a chunk gives its payload: the size in hexadecimal, the signature
that follows from the one before, and the payload between two ends of line.
-/

namespace Fs3.Streaming

def hexValue (digits : Bytes) : Option Nat :=
  digits.foldlM (fun value b => (hexDigit b).map (16 * value + ·)) 0

namespace ChunkSigner

variable (signer : ChunkSigner)

def signatureOf (seedSignature : String) (payload : Bytes) : String :=
  signer.getChunkSignature seedSignature (Hash.encodeToString (signer.sha256 payload))

/-- A stream begins with a chunk whose signature is right if the hash has been given some
bytes already. -/
structure IsChunk (seedSignature : String) (hashed stream payload rest : Bytes) : Prop where
  small : payload.length ≤ MaxSize
  shape : ∃ digits, hexValue digits = some payload.length ∧
    stream = digits ++ 0x3b :: (chunkSignature ++
      bytesOf (signer.signatureOf seedSignature (hashed ++ payload)) ++ 0x0d :: 0x0a ::
        (payload ++ 0x0d :: 0x0a :: rest))

/-- The payloads of correctly signed chunks with which a stream begins, and what follows
them: the signature that the next one chains from, and the rest of the stream. -/
inductive Chunks : String → Bytes → List Bytes → String → Bytes → Prop
  | none (seedSignature : String) (stream : Bytes) :
      Chunks seedSignature stream [] seedSignature stream
  | one {seedSignature last : String} {stream payload rest stream' : Bytes}
      {payloads : List Bytes} (hnonempty : payload ≠ [])
      (hchunk : signer.IsChunk seedSignature [] stream payload rest)
      (hrest : Chunks (signer.signatureOf seedSignature payload) rest payloads last stream') :
      Chunks seedSignature stream (payload :: payloads) last stream'

/-- The stream goes on with a correctly signed chunk that is not the final one. -/
def Continues (seedSignature : String) (hashed stream : Bytes) : Prop :=
  ∃ payload rest, payload ≠ [] ∧ signer.IsChunk seedSignature hashed stream payload rest

def Ends (seedSignature : String) (hashed stream : Bytes) : Prop :=
  ∃ rest, signer.IsChunk seedSignature hashed stream [] rest

end ChunkSigner

/-! ## The steps of the reader -/

theorem run_bind_eq_ok {α β : Type} {x : Reads α} {f : α → Reads β} {body body' : Bytes} {b : β} :
    (x >>= f) body = (.ok b, body') ↔
      ∃ a rest, x body = (.ok a, rest) ∧ f a rest = (.ok b, body') := by
  change StateT.bind x (ExceptT.bindCont f) body = _ ↔ _
  unfold StateT.bind
  change ExceptT.bindCont f (x body).1 (x body).2 = _ ↔ _
  rcases x body with ⟨_ | a, rest⟩
  · constructor
    · intro hrun
      cases hrun
    · rintro ⟨a, rest', hfirst, -⟩
      cases hfirst
  · constructor
    · exact fun hrun => ⟨a, rest, rfl, hrun⟩
    · rintro ⟨a', rest', hfirst, hrun⟩
      cases hfirst
      exact hrun

theorem run_pure_eq_ok {α : Type} {a b : α} {body body' : Bytes} :
    (pure a : Reads α) body = (.ok b, body') ↔ a = b ∧ body = body' := by
  change ((.ok a : Except Err α), body) = (.ok b, body') ↔ _
  simp

theorem ensure_eq_ok {ok : Bool} {u : Unit} {body body' : Bytes} :
    ensure ok body = (.ok u, body') ↔ ok = true ∧ body = body' := by
  unfold ensure
  split
  next hok =>
    constructor
    · intro hrun
      cases hrun
      exact ⟨hok, rfl⟩
    · rintro ⟨-, rfl⟩
      rfl
  next hok =>
    constructor
    · intro hrun
      cases hrun
    · exact fun htrue => absurd htrue.1 hok

section Body

variable {fails : Bool} {body rest : Bytes}

theorem readByte_eq_ok {b : UInt8} :
    readByte fails body = (.ok b, rest) ↔ body = b :: rest := by
  cases body with
  | nil =>
    constructor
    · intro hrun
      cases hrun
    · intro hnil
      cases hnil
  | cons first body =>
    constructor
    · intro hrun
      cases hrun
      rfl
    · intro hbody
      cases hbody
      rfl

theorem readFull_eq_ok {size : Nat} {bytes : Bytes} :
    readFull fails size body = (.ok bytes, rest) ↔ bytes.length = size ∧ body = bytes ++ rest := by
  unfold readFull
  split
  next hle =>
    constructor
    · intro hrun
      cases hrun
      exact ⟨List.length_take_of_le hle, (List.take_append_drop size body).symm⟩
    · rintro ⟨rfl, rfl⟩
      rw [List.take_left, List.drop_left]
  next hlt =>
    constructor
    · intro hrun
      cases hrun
    · rintro ⟨rfl, rfl⟩
      exact absurd (List.length_append ▸ Nat.le_add_right _ _) hlt

theorem expect_eq_ok {b : UInt8} {u : Unit} :
    expect fails b body = (.ok u, rest) ↔ body = b :: rest := by
  unfold expect
  rw [run_bind_eq_ok]
  constructor
  · rintro ⟨b', rest', hread, hensure⟩
    obtain ⟨heq, rfl⟩ := ensure_eq_ok.mp hensure
    rw [readByte_eq_ok.mp hread, eq_of_beq heq]
  · intro hbody
    exact ⟨b, rest, readByte_eq_ok.mpr hbody, ensure_eq_ok.mpr ⟨beq_self_eq_true b, rfl⟩⟩

theorem readReturn_eq_ok {u : Unit} :
    (readByteOrZero >>= fun b => ensure (b == 0x0d)) body = (.ok u, rest) ↔
      body = 0x0d :: rest := by
  rw [run_bind_eq_ok]
  cases body with
  | nil =>
    constructor
    · rintro ⟨b, rest', hread, hensure⟩
      cases hread
      cases (ensure_eq_ok.mp hensure).1
    · intro hnil
      cases hnil
  | cons first body =>
    constructor
    · rintro ⟨b, rest', hread, hensure⟩
      cases hread
      obtain ⟨heq, rfl⟩ := ensure_eq_ok.mp hensure
      rw [eq_of_beq heq]
    · intro hbody
      cases hbody
      exact ⟨0x0d, rest, rfl, ensure_eq_ok.mpr ⟨rfl, rfl⟩⟩

theorem hexDigit_lt {b : UInt8} {digit : Nat} (hdigit : hexDigit b = some digit) : digit < 16 := by
  unfold hexDigit at hdigit
  simp only [UInt8.le_iff_toNat_le] at hdigit
  split at hdigit
  next hrange =>
    cases hdigit
    have hlast : b.toNat ≤ 0x39 := hrange.2
    omega
  next =>
    split at hdigit
    next hrange =>
      cases hdigit
      have hlast : b.toNat ≤ 0x66 := hrange.2
      omega
    next =>
      split at hdigit
      next hrange =>
        cases hdigit
        have hlast : b.toNat ≤ 0x46 := hrange.2
        omega
      next => cases hdigit

theorem shift_or_eq {size digit : Nat} (hdigit : digit < 16) :
    size <<< 4 ||| digit = 16 * size + digit := by
  rw [← Nat.shiftLeft_add_eq_or_of_lt (by omega : digit < 2 ^ 4), Nat.shiftLeft_eq]
  omega

theorem le_of_foldlM {digits : Bytes} {value size : Nat}
    (hdigits : digits.foldlM (fun value b => (hexDigit b).map (16 * value + ·)) value =
      some size) : value ≤ size := by
  induction digits generalizing value with
  | nil =>
    cases hdigits
    exact Nat.le_refl _
  | cons b digits ih =>
    rw [List.foldlM_cons, Option.bind_eq_bind, Option.bind_eq_some_iff] at hdigits
    obtain ⟨next, hnext, hrest⟩ := hdigits
    obtain ⟨digit, -, rfl⟩ := Option.map_eq_some_iff.mp hnext
    have hle := ih hrest
    omega

theorem readSizeFrom_eq_ok {value size : Nat} (hvalue : value ≤ MaxSize) :
    readSizeFrom fails value body = (.ok size, rest) ↔ size ≤ MaxSize ∧ ∃ digits,
      digits.foldlM (fun value b => (hexDigit b).map (16 * value + ·)) value = some size ∧
        body = digits ++ 0x3b :: rest := by
  induction body generalizing value with
  | nil =>
    constructor
    · intro hread
      cases hread
    · rintro ⟨-, digits, -, hbody⟩
      simp at hbody
  | cons b body ih =>
    rw [readSizeFrom]
    split
    next hsep =>
      subst hsep
      constructor
      · intro hread
        cases hread
        exact ⟨hvalue, [], rfl, rfl⟩
      · rintro ⟨-, digits, hdigits, hbody⟩
        cases digits with
        | nil =>
          cases hdigits
          cases hbody
          rfl
        | cons first digits =>
          cases hbody
          cases hdigits
    next hsep =>
      constructor
      · intro hread
        split at hread
        · cases hread
        next digit hdigit =>
          dsimp only at hread
          split at hread
          · cases hread
          next hsmall =>
            rw [shift_or_eq (hexDigit_lt hdigit)] at hread hsmall
            obtain ⟨hsize, digits, hdigits, rfl⟩ := (ih (Nat.not_lt.mp hsmall)).mp hread
            refine ⟨hsize, b :: digits, ?_, rfl⟩
            rw [List.foldlM_cons, hdigit]
            exact hdigits
      · rintro ⟨hsize, digits, hdigits, hbody⟩
        cases digits with
        | nil =>
          cases hbody
          exact absurd rfl hsep
        | cons first digits =>
          cases hbody
          rw [List.foldlM_cons, Option.bind_eq_bind, Option.bind_eq_some_iff] at hdigits
          obtain ⟨next, hnext, hrest⟩ := hdigits
          obtain ⟨digit, hdigit, rfl⟩ := Option.map_eq_some_iff.mp hnext
          have hsmall : 16 * value + digit ≤ MaxSize := Nat.le_trans (le_of_foldlM hrest) hsize
          simp only [hdigit]
          rw [shift_or_eq (hexDigit_lt hdigit), if_neg (Nat.not_lt.mpr hsmall)]
          exact (ih hsmall).mpr ⟨hsize, digits, hrest, rfl⟩

theorem length_chunkSignature : chunkSignature.length = 16 := by decide

theorem readHeader_eq_ok {size : Nat} {signature : Bytes} :
    readHeader fails body = (.ok (size, signature), rest) ↔
      size ≤ MaxSize ∧ signature.length = 64 ∧ ∃ digits, hexValue digits = some size ∧
        body = digits ++ 0x3b :: (chunkSignature ++ signature ++ 0x0d :: 0x0a :: rest) := by
  unfold readHeader
  constructor
  · intro hrun
    obtain ⟨size', body₁, hsize, hrun⟩ := run_bind_eq_ok.mp hrun
    obtain ⟨full, body₂, hfull, hrun⟩ := run_bind_eq_ok.mp hrun
    obtain ⟨_, body₃, hfront, hrun⟩ := run_bind_eq_ok.mp hrun
    obtain ⟨_, body₄, hreturn, hrun⟩ := run_bind_eq_ok.mp hrun
    obtain ⟨_, body₅, hnewline, hrun⟩ := run_bind_eq_ok.mp hrun
    obtain ⟨hpair, rfl⟩ := run_pure_eq_ok.mp hrun
    cases hpair
    obtain ⟨hsmall, digits, hdigits, rfl⟩ := (readSizeFrom_eq_ok (Nat.zero_le _)).mp hsize
    obtain ⟨hlength, rfl⟩ := readFull_eq_ok.mp hfull
    obtain ⟨hstarts, rfl⟩ := ensure_eq_ok.mp hfront
    obtain ⟨signature, rfl⟩ := List.isPrefixOf_iff_prefix.mp hstarts
    rw [expect_eq_ok] at hreturn hnewline
    have hdrop : (chunkSignature ++ signature).drop 16 = signature := by
      rw [← length_chunkSignature, List.drop_left]
    rw [List.length_append, length_chunkSignature] at hlength
    refine ⟨hsmall, ?_, digits, hdigits, ?_⟩
    · rw [hdrop]
      omega
    · rw [hreturn, hnewline, hdrop]
  · rintro ⟨hsmall, hlength, digits, hdigits, rfl⟩
    have hsize : readSize fails
        (digits ++ 0x3b :: (chunkSignature ++ signature ++ 0x0d :: 0x0a :: rest)) =
        (.ok size, chunkSignature ++ signature ++ 0x0d :: 0x0a :: rest) :=
      (readSizeFrom_eq_ok (Nat.zero_le _)).mpr ⟨hsmall, digits, hdigits, rfl⟩
    have hfull : readFull fails 80 (chunkSignature ++ signature ++ 0x0d :: 0x0a :: rest) =
        (.ok (chunkSignature ++ signature), 0x0d :: 0x0a :: rest) :=
      readFull_eq_ok.mpr ⟨by rw [List.length_append, length_chunkSignature, hlength], rfl⟩
    refine run_bind_eq_ok.mpr ⟨_, _, hsize, run_bind_eq_ok.mpr ⟨_, _, hfull, ?_⟩⟩
    refine run_bind_eq_ok.mpr ⟨(), _, ensure_eq_ok.mpr ⟨?_, rfl⟩, ?_⟩
    · exact List.isPrefixOf_iff_prefix.mpr (List.prefix_append _ _)
    · refine run_bind_eq_ok.mpr ⟨(), _, expect_eq_ok.mpr rfl, ?_⟩
      refine run_bind_eq_ok.mpr ⟨(), _, expect_eq_ok.mpr rfl, run_pure_eq_ok.mpr ⟨?_, rfl⟩⟩
      rw [← length_chunkSignature, List.drop_left]

theorem readPayload_eq_ok {size : Nat} {payload : Bytes} :
    readPayload fails size body = (.ok payload, rest) ↔
      payload.length = size ∧ body = payload ++ 0x0d :: 0x0a :: rest := by
  have hassoc : readPayload fails size = readFull fails size >>= fun payload =>
      (readByteOrZero >>= fun b => ensure (b == 0x0d)) >>= fun _ =>
        expect fails 0x0a >>= fun _ => pure payload := by
    simp only [readPayload, bind_assoc]
  rw [hassoc]
  constructor
  · intro hrun
    obtain ⟨payload', body₁, hfull, hrun⟩ := run_bind_eq_ok.mp hrun
    obtain ⟨_, body₂, hreturn, hrun⟩ := run_bind_eq_ok.mp hrun
    obtain ⟨_, body₃, hnewline, hrun⟩ := run_bind_eq_ok.mp hrun
    obtain ⟨rfl, rfl⟩ := run_pure_eq_ok.mp hrun
    obtain ⟨hlength, rfl⟩ := readFull_eq_ok.mp hfull
    rw [readReturn_eq_ok.mp hreturn, expect_eq_ok.mp hnewline]
    exact ⟨hlength, rfl⟩
  · rintro ⟨hlength, rfl⟩
    refine run_bind_eq_ok.mpr ⟨_, _, readFull_eq_ok.mpr ⟨hlength, rfl⟩, ?_⟩
    refine run_bind_eq_ok.mpr ⟨(), _, readReturn_eq_ok.mpr rfl, ?_⟩
    exact run_bind_eq_ok.mpr ⟨(), _, expect_eq_ok.mpr rfl, run_pure_eq_ok.mpr ⟨rfl, rfl⟩⟩

theorem readSigned_eq_ok {signature payload : Bytes} :
    readSigned fails body = (.ok (signature, payload), rest) ↔
      payload.length ≤ MaxSize ∧ signature.length = 64 ∧ ∃ digits,
        hexValue digits = some payload.length ∧
          body = digits ++ 0x3b :: (chunkSignature ++ signature ++ 0x0d :: 0x0a ::
            (payload ++ 0x0d :: 0x0a :: rest)) := by
  unfold readSigned
  constructor
  · intro hrun
    obtain ⟨⟨size, signature'⟩, body₁, hheader, hrun⟩ := run_bind_eq_ok.mp hrun
    obtain ⟨payload', body₂, hpayload, hrun⟩ := run_bind_eq_ok.mp hrun
    obtain ⟨hpair, rfl⟩ := run_pure_eq_ok.mp hrun
    cases hpair
    obtain ⟨hsmall, hlength, digits, hdigits, rfl⟩ := readHeader_eq_ok.mp hheader
    obtain ⟨rfl, rfl⟩ := readPayload_eq_ok.mp hpayload
    exact ⟨hsmall, hlength, digits, hdigits, rfl⟩
  · rintro ⟨hsmall, hlength, digits, hdigits, rfl⟩
    refine run_bind_eq_ok.mpr ⟨(payload.length, signature), _,
      readHeader_eq_ok.mpr ⟨hsmall, hlength, digits, hdigits, rfl⟩, ?_⟩
    exact run_bind_eq_ok.mpr ⟨payload, _, readPayload_eq_ok.mpr ⟨rfl, rfl⟩,
      run_pure_eq_ok.mpr ⟨rfl, rfl⟩⟩

end Body

end Fs3.Streaming
