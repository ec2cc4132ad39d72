import Fs3.Scanner.HttpStream

/-! # A response stream from the first call to the last byte

The handler writes blocks and closes the stream once; the goroutine between it and the connection
adds a filler at each tick. -/

namespace Fs3.Scanner

/-- `httpStreamResponse`, with the frames that its goroutine has written. -/
structure HttpStreamResponse where
  frames : List Frame
  done : Bool
  err : Option Bytes
  deriving DecidableEq

namespace HttpStreamResponse

/-- `streamHTTPResponse` -/
def start : HttpStreamResponse := ⟨[], false, none⟩

def tick (h : HttpStreamResponse) : HttpStreamResponse :=
  if h.done then h else { h with frames := h.frames ++ [.filler] }

def write (h : HttpStreamResponse) (b : Bytes) : HttpStreamResponse × Nat × Option Bytes :=
  if b = [] ∨ h.err.isSome then (h, 0, h.err)
  else ({ h with frames := h.frames ++ [.block b] }, b.length, h.err)

def closeWithError (h : HttpStreamResponse) (err : Option Bytes) : HttpStreamResponse :=
  if h.done then h else ⟨h.frames ++ [.done err], true, err⟩

/-- What happens to an open stream: `none` is a tick, `some b` a call of `Write`. -/
def turn (h : HttpStreamResponse) : Option Bytes → HttpStreamResponse
  | none => h.tick
  | some b => (h.write b).1

def run (turns : List (Option Bytes)) : HttpStreamResponse := turns.foldl turn start

/-- A stream that has not been closed. -/
structure Open (h : HttpStreamResponse) : Prop where
  sent : ∀ frame ∈ h.frames, frame.Sent
  not_done : h.done = false
  no_err : h.err = none

/-- The bytes of the calls of `Write`, one after the other. -/
def written (turns : List (Option Bytes)) : Bytes := turns.flatMap fun turn => turn.getD []

theorem Open.turn {h : HttpStreamResponse} (hopen : h.Open) {t : Option Bytes}
    (hlength : ∀ b, t = some b → b.length < 2 ^ 32) :
    (h.turn t).Open ∧ payload (h.turn t).frames = payload h.frames ++ t.getD [] := by
  obtain ⟨hsent, hdone, herr⟩ := hopen
  have hadd : ∀ frame : Frame, frame.Sent → ∀ f ∈ h.frames ++ [frame], f.Sent := by
    intro frame hframe f hf
    rcases List.mem_append.mp hf with hf | hf
    · exact hsent f hf
    · exact List.mem_singleton.mp hf ▸ hframe
  cases t with
  | none =>
    simp only [HttpStreamResponse.turn, tick, hdone, Bool.false_eq_true, if_false]
    exact ⟨⟨hadd .filler trivial, rfl, herr⟩, payload_append h.frames [.filler]⟩
  | some b =>
    by_cases hempty : b = []
    · simp only [HttpStreamResponse.turn, write, hempty, true_or, if_true, Option.getD_some,
        List.append_nil]
      exact ⟨⟨hsent, hdone, herr⟩, trivial⟩
    · simp only [HttpStreamResponse.turn, write, hempty, herr, Option.isSome_none,
        Bool.false_eq_true, or_self, if_false, Option.getD_some]
      refine ⟨⟨hadd (.block b) ⟨hempty, hlength b rfl⟩, hdone, rfl⟩, ?_⟩
      rw [payload_append]
      simp [payload]

/-- Fillers and empty blocks leave no trace in the payload. -/
theorem run_open (turns : List (Option Bytes))
    (hlengths : ∀ b, some b ∈ turns → b.length < 2 ^ 32) :
    (run turns).Open ∧ payload (run turns).frames = written turns := by
  induction turns using List.reverseRecOn with
  | nil => exact ⟨⟨by simp [run, start], rfl, rfl⟩, rfl⟩
  | append_singleton turns t ih =>
    obtain ⟨hopen, hpayload⟩ := ih fun b hb => hlengths b (List.mem_append_left _ hb)
    have hnext := hopen.turn (t := t) fun b hb =>
      hlengths b (List.mem_append_right _ (List.mem_singleton.mpr hb.symm))
    rw [run, List.foldl_append]
    refine ⟨hnext.1, hnext.2.trans ?_⟩
    rw [hpayload, written, written, List.flatMap_append, List.flatMap_singleton]

end HttpStreamResponse

/-! ## The error at the end -/

theorem waitForHTTPStream_end (err : Option Bytes) :
    waitForHTTPStream none (Frame.done err).bytes = ([], err.map .remote) := by
  cases err with
  | none =>
    rw [Frame.bytes, waitForHTTPStream]
    rfl
  | some text =>
    rw [Frame.bytes, waitForHTTPStream]
    rfl

theorem waitForHTTPStream_body {frames : List Frame} (hsent : ∀ frame ∈ frames, frame.Sent)
    (err : Option Bytes) :
    waitForHTTPStream none (body (frames ++ [.done err])) = (payload frames, err.map .remote) := by
  induction frames with
  | nil =>
    rw [List.nil_append, body, List.flatMap_singleton, waitForHTTPStream_end]
    rfl
  | cons frame frames ih =>
    have hframe := hsent frame List.mem_cons_self
    have ih := ih fun f hf => hsent f (List.mem_cons_of_mem frame hf)
    rw [List.cons_append, body_cons, payload_cons, waitForHTTPStream_frame hframe, ih]

/-- Every cut before the last byte is noticed. -/
theorem waitForHTTPStream_take_err {frames : List Frame} (hsent : ∀ frame ∈ frames, frame.Sent)
    (err : Option Bytes) {n : Nat} (hcut : n < (body (frames ++ [.done err])).length) :
    (waitForHTTPStream none ((body (frames ++ [.done err])).take n)).2 ≠ none := by
  induction frames generalizing n with
  | nil =>
    rw [List.nil_append, body, List.flatMap_singleton] at hcut ⊢
    cases n with
    | zero =>
      rw [List.take_zero, waitForHTTPStream]
      simp
    | succ n =>
      cases err with
      | none => exact absurd hcut (by simp [Frame.bytes])
      | some text =>
        -- the mark of an error has come, and what there is of its text is the error
        rw [Frame.bytes, List.take_succ_cons, waitForHTTPStream]
        simp
  | cons frame frames ih =>
    have hframe := hsent frame List.mem_cons_self
    rw [List.cons_append, body_cons] at hcut ⊢
    by_cases hwhole : frame.bytes.length ≤ n
    · rw [List.take_append, List.take_of_length_le hwhole, waitForHTTPStream_frame hframe]
      refine ih (fun f hf => hsent f (List.mem_cons_of_mem frame hf)) ?_
      rw [List.length_append] at hcut
      omega
    · have hwithin : n < frame.bytes.length := Nat.lt_of_not_le hwhole
      rw [List.take_append_of_le_length hwithin.le]
      cases frame with
      | filler =>
        have hzero : n = 0 := by
          rw [Frame.bytes, List.length_singleton] at hwithin
          omega
        rw [hzero, List.take_zero, waitForHTTPStream]
        simp
      | block data => exact (waitForHTTPStream_cut hframe.2 hwithin).2
      | done err => exact hframe.elim

open HttpStreamResponse

/-- Whatever the blocks hold and wherever the fillers fall, the receiver writes the blocks and
ends as the stream was closed; of a body that is cut it writes a beginning, and fails. -/
theorem waitForHTTPStream_streamHTTPResponse (turns : List (Option Bytes)) (err : Option Bytes)
    (hlengths : ∀ b, some b ∈ turns → b.length < 2 ^ 32) :
    waitForHTTPStream none (body ((run turns).closeWithError err).frames) =
        (written turns, err.map .remote) ∧
      ∀ cut, cut <+: body ((run turns).closeWithError err).frames →
        cut ≠ body ((run turns).closeWithError err).frames →
        (waitForHTTPStream none cut).1 <+: written turns ∧ (waitForHTTPStream none cut).2 ≠ none := by
  obtain ⟨⟨hsent, hdone, -⟩, hpayload⟩ := run_open turns hlengths
  have hframes : ((run turns).closeWithError err).frames = (run turns).frames ++ [.done err] := by
    rw [closeWithError, hdone]
    rfl
  rw [hframes]
  refine ⟨by rw [waitForHTTPStream_body hsent, hpayload], fun cut hcut hne => ?_⟩
  have htake := List.prefix_iff_eq_take.mp hcut
  have hshort : cut.length < (body ((run turns).frames ++ [.done err])).length :=
    lt_of_le_of_ne hcut.length_le fun h => hne (hcut.eq_of_length h)
  rw [htake]
  obtain ⟨missing, hmissing, -⟩ := @written_take none _ hsent err cut.length
  exact ⟨⟨missing, hmissing.trans hpayload⟩, waitForHTTPStream_take_err hsent err hshort⟩

/-- Blocks that hold the marks of a stream, and an error whose text is a mark. -/
theorem waitForHTTPStream_marks :
    waitForHTTPStream none
        (body ((run [none, some [2, 0], some [], none, some [1]]).closeWithError (some [0])).frames) =
        ([2, 0, 1], some (.remote [0])) ∧
      ∀ cut, cut <+: body ((run [none, some [2, 0], some [], none, some [1]]).closeWithError
          (some [0])).frames →
        cut ≠ body ((run [none, some [2, 0], some [], none, some [1]]).closeWithError
          (some [0])).frames →
        (waitForHTTPStream none cut).1 <+: [2, 0, 1] ∧ (waitForHTTPStream none cut).2 ≠ none :=
  waitForHTTPStream_streamHTTPResponse [none, some [2, 0], some [], none, some [1]] (some [0])
    (by simp)

end Fs3.Scanner
