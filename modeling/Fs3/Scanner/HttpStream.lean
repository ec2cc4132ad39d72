import Fs3.Foundation.Msgp
import Fs3.Runtime.Text

/-! # Streamed responses

A response that takes long is sent as a stream of blocks with fillers in between and an end that
says whether there was an error. A body that ends early ends like any other for a reader that asks
for the next bytes. -/

namespace Fs3.Scanner

/-- The errors of a response stream. -/
inductive StreamErr where
  | eof
  | unexpectedEOF
  | remote (text : Bytes)
  | unexpectedFiller (byte : UInt8)
  | broken (text : Bytes)
  deriving DecidableEq

/-- `binary.LittleEndian.PutUint32` of `uint32(n)`. -/
def putUint32 (n : Nat) : Bytes := (Msgp.bigEndian 4 n).reverse

/-- `binary.LittleEndian.Uint32`. -/
def uint32 (bytes : Bytes) : Nat := Msgp.ofBigEndian bytes.reverse

theorem putUint32_length (n : Nat) : (putUint32 n).length = 4 := by
  rw [putUint32, List.length_reverse, Msgp.bigEndian_length]

theorem uint32_putUint32 {n : Nat} (hn : n < 2 ^ 32) : uint32 (putUint32 n) = n := by
  rw [uint32, putUint32, List.reverse_reverse, Msgp.ofBigEndian_bigEndian]
  exact Nat.mod_eq_of_lt (hn.trans_eq (by norm_num))

/-- What `streamHTTPResponse` writes at a time. -/
inductive Frame where
  | filler
  | block (data : Bytes)
  | done (err : Option Bytes)
  deriving DecidableEq

def Frame.bytes : Frame → Bytes
  | filler => [32]
  | block data => 2 :: (putUint32 data.length ++ data)
  | done none => [0]
  | done (some text) => 1 :: text

def body (frames : List Frame) : Bytes := frames.flatMap Frame.bytes

/-- What the receiver takes from a body, which ends with `io.EOF` or a failure: the bytes that it
writes to the pipe, and the error that it closes it with. -/
def waitForHTTPStream (failure : Option StreamErr) : Bytes → Bytes × Option StreamErr
  | [] => ([], some (failure.getD .eof))
  | tag :: rest =>
    if tag = 0 then (rest, failure)
    else if tag = 1 then ([], some (failure.getD (.remote rest)))
    else if tag = 2 then
      if rest.length < 4 then
        ([], some (failure.getD (if rest = [] then .eof else .unexpectedEOF)))
      else
        let length := uint32 (rest.take 4)
        let data := rest.drop 4
        if data.length < length ∧ failure.isSome then (data, failure)
        else
          let after := waitForHTTPStream failure (data.drop length)
          (data.take length ++ after.1, after.2)
    else if tag = 32 then waitForHTTPStream failure rest
    else ([], some (.unexpectedFiller tag))
termination_by bytes => bytes.length
decreasing_by
  all_goals simp only [List.length_cons, List.length_drop]; omega

def payload : List Frame → Bytes
  | [] => []
  | .block data :: frames => data ++ payload frames
  | _ :: frames => payload frames

def Frame.isBlock : Frame → Bool
  | block _ => true
  | _ => false

def dataEnd : List Frame → Nat
  | [] => 0
  | frame :: frames =>
    if 0 < dataEnd frames ∨ frame.isBlock = true then frame.bytes.length + dataEnd frames else 0

/-- A frame that is sent before the end: `httpStreamResponse.Write` passes over empty blocks, and
the length of a block is sent in 32 bits. -/
def Frame.Sent : Frame → Prop
  | filler => True
  | block data => data ≠ [] ∧ data.length < 2 ^ 32
  | done _ => False

variable {failure : Option StreamErr}

theorem waitForHTTPStream_filler (rest : Bytes) :
    waitForHTTPStream failure (32 :: rest) = waitForHTTPStream failure rest := by
  rw [waitForHTTPStream]
  simp

theorem waitForHTTPStream_block {length : Nat} (hlength : length < 2 ^ 32) (data : Bytes) :
    waitForHTTPStream failure (2 :: (putUint32 length ++ data)) =
      if data.length < length ∧ failure.isSome then (data, failure)
      else
        (data.take length ++ (waitForHTTPStream failure (data.drop length)).1,
          (waitForHTTPStream failure (data.drop length)).2) := by
  rw [waitForHTTPStream, List.take_left' (putUint32_length length),
    List.drop_left' (putUint32_length length), uint32_putUint32 hlength]
  simp [putUint32_length]

theorem waitForHTTPStream_frame {frame : Frame} (hsent : frame.Sent) (rest : Bytes) :
    waitForHTTPStream failure (frame.bytes ++ rest) =
      (payload [frame] ++ (waitForHTTPStream failure rest).1,
        (waitForHTTPStream failure rest).2) := by
  cases frame with
  | filler =>
    rw [Frame.bytes, List.singleton_append, waitForHTTPStream_filler]
    rfl
  | block data =>
    rw [Frame.bytes, List.cons_append, List.append_assoc, waitForHTTPStream_block hsent.2,
      if_neg (by simp), List.take_left, List.drop_left]
    simp [payload]
  | done err => exact hsent.elim

/-- A block that is cut gives what came of it, and the read for the byte after it fails. -/
theorem waitForHTTPStream_cut {data : Bytes} (hlength : data.length < 2 ^ 32) {n : Nat}
    (hcut : n < (Frame.block data).bytes.length) :
    (waitForHTTPStream failure ((Frame.block data).bytes.take n)).1 = data.take (n - 5) ∧
      (waitForHTTPStream failure ((Frame.block data).bytes.take n)).2 ≠ none := by
  have hhead := putUint32_length data.length
  cases n with
  | zero =>
    rw [List.take_zero, waitForHTTPStream]
    simp
  | succ n =>
    rw [Frame.bytes, List.take_succ_cons]
    by_cases hshort : n < 4
    · have htake : ((putUint32 data.length ++ data).take n).length < 4 := by
        rw [List.length_take]
        omega
      have hzero : n + 1 - 5 = 0 := by omega
      rw [waitForHTTPStream, hzero, List.take_zero]
      dsimp only
      rw [if_neg (by decide), if_neg (by decide), if_pos rfl, if_pos htake]
      simp
    · have hsplit : (putUint32 data.length ++ data).take n =
          putUint32 data.length ++ data.take (n - 4) := by
        rw [List.take_append, hhead, List.take_of_length_le (by omega)]
      have hwithin : (data.take (n - 4)).length < data.length := by
        rw [Frame.bytes, List.length_cons, List.length_append, hhead] at hcut
        rw [List.length_take]
        omega
      have hindex : n + 1 - 5 = n - 4 := by omega
      rw [hsplit, waitForHTTPStream_block hlength, hindex]
      split
      next hfailed => exact ⟨rfl, Option.isSome_iff_ne_none.mp hfailed.2⟩
      next =>
        rw [List.take_of_length_le hwithin.le, List.drop_eq_nil_of_le hwithin.le,
          waitForHTTPStream]
        simp

/-! ## What arrives of a body that is cut -/

theorem body_cons (frame : Frame) (frames : List Frame) :
    body (frame :: frames) = frame.bytes ++ body frames := by
  rw [body, List.flatMap_cons]
  rfl

theorem payload_cons (frame : Frame) (frames : List Frame) :
    payload (frame :: frames) = payload [frame] ++ payload frames := by
  cases frame with
  | filler => rfl
  | block data => simp [payload]
  | done err => rfl

theorem payload_append (frames frames' : List Frame) :
    payload (frames ++ frames') = payload frames ++ payload frames' := by
  induction frames with
  | nil => rfl
  | cons frame frames ih =>
    rw [List.cons_append, payload_cons, ih, payload_cons frame frames, List.append_assoc]

theorem waitForHTTPStream_done (err : Option Bytes) (n : Nat) :
    (waitForHTTPStream failure ((Frame.done err).bytes.take n)).1 = [] := by
  cases n with
  | zero =>
    rw [List.take_zero, waitForHTTPStream]
  | succ n =>
    cases err with
    | none =>
      rw [Frame.bytes, List.take_succ_cons, List.take_nil, waitForHTTPStream]
      rfl
    | some text =>
      rw [Frame.bytes, List.take_succ_cons, waitForHTTPStream]
      simp

theorem dataEnd_pos_iff (frames : List Frame) (hsent : ∀ frame ∈ frames, frame.Sent) :
    0 < dataEnd frames ↔ payload frames ≠ [] := by
  induction frames with
  | nil => simp [dataEnd, payload]
  | cons frame frames ih =>
    have ih := ih fun f hf => hsent f (List.mem_cons_of_mem frame hf)
    rw [dataEnd, payload_cons]
    cases frame with
    | filler =>
      rw [show payload [Frame.filler] = [] from rfl, List.nil_append, ← ih]
      split <;> simp_all [Frame.isBlock, Frame.bytes]
    | block data =>
      have hdata : data ≠ [] := (hsent _ List.mem_cons_self).1
      simp [Frame.isBlock, Frame.bytes, payload, hdata]
    | done err => exact (hsent _ List.mem_cons_self).elim

/-- A cut in or after the last block's end lets all data through, and one before it does not. -/
theorem written_take {frames : List Frame} (hsent : ∀ frame ∈ frames, frame.Sent)
    (err : Option Bytes) (n : Nat) :
    ∃ missing, (waitForHTTPStream failure ((body (frames ++ [.done err])).take n)).1 ++ missing =
        payload frames ∧ (missing = [] ↔ dataEnd frames ≤ n) := by
  induction frames generalizing n with
  | nil =>
    refine ⟨[], ?_, by simp [dataEnd]⟩
    rw [List.nil_append, body, List.flatMap_singleton, waitForHTTPStream_done]
    rfl
  | cons frame frames ih =>
    have hframe := hsent frame List.mem_cons_self
    have hrest := fun f hf => hsent f (List.mem_cons_of_mem frame hf)
    rw [List.cons_append, body_cons, payload_cons, dataEnd]
    by_cases hwhole : frame.bytes.length ≤ n
    · obtain ⟨missing, hpayload, hmissing⟩ := ih hrest (n - frame.bytes.length)
      refine ⟨missing, ?_, ?_⟩
      · rw [List.take_append, List.take_of_length_le hwhole, waitForHTTPStream_frame hframe,
          List.append_assoc, hpayload]
      · rw [hmissing]
        split
        next => omega
        next hneither =>
          have hend : dataEnd frames = 0 := by
            by_contra h
            exact hneither (Or.inl (Nat.pos_of_ne_zero h))
          rw [hend]
          simp
    · have hcut : n < frame.bytes.length := Nat.lt_of_not_le hwhole
      rw [List.take_append_of_le_length hcut.le]
      cases frame with
      | filler =>
        have hzero : n = 0 := by
          rw [Frame.bytes, List.length_singleton] at hcut
          omega
        refine ⟨payload frames, ?_, ?_⟩
        · rw [hzero, List.take_zero, waitForHTTPStream]
          rfl
        · have hiff := (dataEnd_pos_iff frames hrest).not
          rw [not_not] at hiff
          rw [← hiff]
          simp only [Frame.isBlock, Frame.bytes, Bool.false_eq_true, or_false,
            List.length_singleton]
          split
          next => omega
          next => omega
      | block data =>
        have hlength : (Frame.block data).bytes.length = 5 + data.length := by
          rw [Frame.bytes, List.length_cons, List.length_append, putUint32_length]
          omega
        refine ⟨data.drop (n - 5) ++ payload frames, ?_, ?_⟩
        · rw [(waitForHTTPStream_cut hframe.2 hcut).1, ← List.append_assoc, List.take_append_drop]
          simp [payload]
        · have hpos : 0 < data.length := List.length_pos_iff.mpr hframe.1
          have hleft : data.drop (n - 5) ≠ [] := by
            intro hnil
            have := List.drop_eq_nil_iff.mp hnil
            omega
          refine ⟨fun hnil => absurd (List.append_eq_nil_iff.mp hnil).1 hleft, fun hle => ?_⟩
          have hblock : (Frame.block data).isBlock = true := rfl
          rw [if_pos (Or.inr hblock)] at hle
          omega
      | done err => exact hframe.elim

end Fs3.Scanner
