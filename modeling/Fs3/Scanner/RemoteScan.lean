import Fs3.Foundation.Histories
import Fs3.Scanner.RemoteClient

/-! # A remote scan and the local one

A response that is complete holds the whole scan or, where the scanner's error was sent, less.
Between the return of the scanner and the handler's look at `err` the other goroutine may store its
own outcome there, and then the error of the scan is lost. -/

namespace Fs3.Scanner

open Foundation

variable {Entry Cache : Type} {wire : Wire Entry Cache}

def WriterPc.inflight : WriterPc Entry → List Entry
  | received update => [update]
  | flagged update => [update]
  | _ => []

def WriterPc.begun : WriterPc Entry → Bytes
  | flagged _ => [mtrue]
  | _ => []

def MainPc.ending (wire : Wire Entry Cache) (usage : Cache) : MainPc → Bytes
  | flagged => [mfalse]
  | encoded => mfalse :: wire.caches.encode usage
  | _ => []

namespace HandlerState

variable {s : HandlerState Entry Cache}

/-- What holds while the stream is open: after the updates that are written come the one being
written, the channel and those still to be sent, and what is written and what is passed on are the
same bytes. -/
structure Open (wire : Wire Entry Cache) (s : HandlerState Entry Cache) : Prop where
  streamDone : s.streamDone = false
  sent : ∀ frame ∈ s.frames, frame.Sent
  stream : ∃ written, s.scan.updates = written ++ (s.writer.inflight ++ (s.channel ++ s.toSend)) ∧
    payload s.frames ++ s.buffered =
      written.flatMap (updateBytes wire) ++ (s.writer.begun ++ s.main.ending wire s.scan.usage)
  scanning : s.main = .scanning → s.closed = false ∧ s.err = none
  scanned : s.main ≠ .scanning → s.closed = true ∧ s.toSend = []
  writerDone : s.writer = .done → s.closed = true ∧ s.channel = []
  ended : s.main = .flagged ∨ s.main = .encoded → s.writer = .done
  running : s.main ≠ .finished

/-- What holds when the stream is closed: the blocks hold the scan, but for what is missing. -/
structure Ended (wire : Wire Entry Cache) (missing : Bytes) (s : HandlerState Entry Cache) :
    Prop where
  streamDone : s.streamDone = true
  stream : ∃ frames err, s.frames = frames ++ [.done err] ∧ (∀ frame ∈ frames, frame.Sent) ∧
    payload frames ++ missing = scanBytes wire s.scan.updates s.scan.usage
  stopped : s.writer = .done ∨ s.main = .finished

def Succeeds (wire : Wire Entry Cache) (s : HandlerState Entry Cache) : Prop :=
  (s.Open wire ∧ s.err = none ∧
    (s.main = .returned ∨ s.main = .waiting ∨ s.main = .flagged ∨ s.main = .encoded)) ∨
  s.Ended wire []

def Fails (wire : Wire Entry Cache) (s : HandlerState Entry Cache) : Prop :=
  (s.Open wire ∧ (s.main = .returned ∧ s.err ≠ none ∨ s.main = .failing)) ∨
  ∃ missing, missing ≠ [] ∧ s.Ended wire missing

/-- What an event does to a handler, where it does anything. -/
inductive Turn (wire : Wire Entry Cache) (s : HandlerState Entry Cache) :
    HandlerEvent → HandlerState Entry Cache → Prop
  | tick (hdone : s.streamDone = false) :
    Turn wire s .tick { s with frames := s.frames ++ [.filler] }
  | pass {n : Nat} (hpass : s.streamDone = false ∧ 0 < n ∧ n ≤ s.buffered.length ∧ n < 2 ^ 32) :
    Turn wire s (.pass n)
      { s with frames := s.frames ++ [.block (s.buffered.take n)], buffered := s.buffered.drop n }
  | send {update : Entry} {rest : List Entry} (hmain : s.main = .scanning)
      (htoSend : s.toSend = update :: rest) (hchannel : s.channel = []) :
    Turn wire s .send { s with toSend := rest, channel := [update] }
  | finishScan (hmain : s.main = .scanning) (htoSend : s.toSend = []) :
    Turn wire s .finishScan { s with closed := true, err := s.scan.err, main := .returned }
  | receive {update : Entry} {rest : List Entry} (hwriter : s.writer = .idle)
      (hchannel : s.channel = update :: rest) :
    Turn wire s .receive { s with channel := rest, writer := .received update }
  | receiveEnd (hwriter : s.writer = .idle) (hchannel : s.channel = []) (hclosed : s.closed = true) :
    Turn wire s .receive { s with writer := .done }
  | writeBool {update : Entry} (hwriter : s.writer = .received update) :
    Turn wire s .writeBool
      { s with buffered := s.buffered ++ [mtrue], err := none, writer := .flagged update }
  | encodeUpdate {update : Entry} (hwriter : s.writer = .flagged update) :
    Turn wire s .encodeUpdate
      { s with buffered := s.buffered ++ wire.entries.encode update, err := none, writer := .encoded }
  | flush (hwriter : s.writer = .encoded) : Turn wire s .flush { s with writer := .flushed }
  | checkUpdate (hwriter : s.writer = .flushed) (herr : s.err = none) :
    Turn wire s .checkUpdate { s with writer := .idle }
  | failUpdate (hwriter : s.writer = .flushed) (herr : s.err ≠ none) :
    Turn wire s .checkUpdate { s.closeWithError s.err with writer := .done }
  | checkScan (hmain : s.main = .returned) :
    Turn wire s .checkScan { s with main := if s.err = none then .waiting else .failing }
  | fail (hmain : s.main = .failing) :
    Turn wire s .fail { s.closeWithError s.err with main := .finished }
  | writeEnd (hmain : s.main = .waiting) (hwriter : s.writer = .done) :
    Turn wire s .writeEnd { s with buffered := s.buffered ++ [mfalse], main := .flagged }
  | encodeUsage (hmain : s.main = .flagged) :
    Turn wire s .encodeUsage
      { s with buffered := s.buffered ++ wire.caches.encode s.scan.usage, main := .encoded }
  | close (hmain : s.main = .encoded) (hbuffered : s.buffered = []) :
    Turn wire s .close { s.closeWithError none with main := .finished }

theorem turn_after (event : HandlerEvent) :
    s.after wire event = s ∨ Turn wire s event (s.after wire event) := by
  cases event with
  | tick =>
    rw [after, HandlerState.tick]
    split
    · exact Or.inl rfl
    · exact Or.inr (.tick (Bool.eq_false_of_not_eq_true ‹_›))
  | pass n =>
    rw [after, HandlerState.pass]
    split
    · exact Or.inr (.pass ‹_›)
    · exact Or.inl rfl
  | send =>
    rw [after, HandlerState.send]
    split
    · exact Or.inr (.send ‹_› ‹_› ‹_›)
    · exact Or.inl rfl
  | finishScan =>
    rw [after, HandlerState.finishScan]
    split
    · exact Or.inr (.finishScan ‹_› ‹_›)
    · exact Or.inl rfl
  | receive =>
    rw [after, HandlerState.receive]
    split
    · exact Or.inr (.receive ‹_› ‹_›)
    · split
      · exact Or.inr (.receiveEnd ‹_› ‹_› ‹_›)
      · exact Or.inl rfl
    · exact Or.inl rfl
  | writeBool =>
    rw [after, HandlerState.writeBool]
    split
    · exact Or.inr (.writeBool ‹_›)
    · exact Or.inl rfl
  | encodeUpdate =>
    rw [after, HandlerState.encodeUpdate]
    split
    · exact Or.inr (.encodeUpdate ‹_›)
    · exact Or.inl rfl
  | flush =>
    rw [after, HandlerState.flush]
    split
    · split
      · exact Or.inr (.flush ‹_›)
      · exact Or.inl rfl
    · exact Or.inl rfl
  | checkUpdate =>
    rw [after, HandlerState.checkUpdate]
    split
    · split
      · exact Or.inr (.checkUpdate ‹_› ‹_›)
      · exact Or.inr (.failUpdate ‹_› ‹_›)
    · exact Or.inl rfl
  | checkScan =>
    rw [after, HandlerState.checkScan]
    split
    · exact Or.inr (.checkScan ‹_›)
    · exact Or.inl rfl
  | fail =>
    rw [after, HandlerState.fail]
    split
    · exact Or.inr (.fail ‹_›)
    · exact Or.inl rfl
  | writeEnd =>
    rw [after, HandlerState.writeEnd]
    split
    · exact Or.inr (.writeEnd ‹_› ‹_›)
    · exact Or.inl rfl
  | encodeUsage =>
    rw [after, HandlerState.encodeUsage]
    split
    · exact Or.inr (.encodeUsage ‹_›)
    · exact Or.inl rfl
  | close =>
    rw [after, HandlerState.close]
    split
    · split
      · exact Or.inr (.close ‹_› ‹_›)
      · exact Or.inl rfl
    · exact Or.inl rfl

theorem scan_closeWithError (err : Option Bytes) : (s.closeWithError err).scan = s.scan := by
  unfold closeWithError
  split <;> rfl

theorem scan_after (event : HandlerEvent) : (s.after wire event).scan = s.scan := by
  obtain hsame | hturn := @turn_after _ _ wire s event
  · rw [hsame]
  · generalize s.after wire event = s' at hturn
    cases hturn with
    | failUpdate | fail | close => exact scan_closeWithError _
    | _ => rfl

/-! ## While the stream is open -/

section

variable (hopen : s.Open wire)
include hopen

theorem Open.sent_append {frame : Frame} (hsent : frame.Sent) :
    ∀ f ∈ s.frames ++ [frame], f.Sent :=
  List.forall_mem_append.mpr ⟨hopen.sent, List.forall_mem_singleton.mpr hsent⟩

theorem Open.not_ended (hwriter : s.writer ≠ .done) : ¬ (s.main = .flagged ∨ s.main = .encoded) :=
  mt hopen.ended hwriter

theorem Open.ending_eq_nil (hwriter : s.writer ≠ .done) : s.main.ending wire s.scan.usage = [] := by
  have hnot := hopen.not_ended hwriter
  cases hmain : s.main <;> first | rfl | simp [hmain] at hnot

theorem Open.closeWithError_done (err : Option Bytes) : (s.closeWithError err).streamDone = true := by
  rw [HandlerState.closeWithError, if_neg (by rw [hopen.streamDone]; decide)]

theorem Open.turn {event : HandlerEvent} {s' : HandlerState Entry Cache}
    (hturn : Turn wire s event s') (hdone : s'.streamDone = false) : s'.Open wire := by
  obtain ⟨written, hupdates, hstream⟩ := hopen.stream
  cases hturn with
  | tick =>
    refine { hopen with sent := hopen.sent_append trivial, stream := ⟨written, hupdates, ?_⟩ }
    dsimp only
    rw [payload_append, show payload [Frame.filler] = [] from rfl, List.append_nil]
    exact hstream
  | @pass n hpass =>
    obtain ⟨-, hpos, hlength, hsmall⟩ := hpass
    have htake : (s.buffered.take n).length = n := by
      rw [List.length_take]
      exact min_eq_left hlength
    have hsent : (Frame.block (s.buffered.take n)).Sent :=
      ⟨List.ne_nil_of_length_pos (hpos.trans_eq htake.symm), htake.trans_lt hsmall⟩
    refine { hopen with sent := hopen.sent_append hsent, stream := ⟨written, hupdates, ?_⟩ }
    dsimp only
    rw [payload_append, ← hstream]
    simp [payload]
  | send hmain htoSend hchannel =>
    refine { hopen with stream := ⟨written, ?_, hstream⟩, scanned := fun h => absurd hmain h,
                        writerDone := fun h => ?_ }
    · rw [hupdates, htoSend, hchannel]
      rfl
    · have hclosed := (hopen.writerDone h).1
      rw [(hopen.scanning hmain).1] at hclosed
      cases hclosed
  | finishScan hmain htoSend =>
    refine { hopen with stream := ⟨written, hupdates, ?_⟩, scanning := by rintro ⟨⟩,
                        scanned := fun _ => ⟨rfl, htoSend⟩, writerDone := fun h => ?_,
                        ended := by simp, running := by rintro ⟨⟩ }
    · rw [hmain] at hstream
      exact hstream
    · exact ⟨rfl, (hopen.writerDone h).2⟩
  | receive hwriter hchannel =>
    rw [hwriter] at hupdates hstream
    rw [hchannel] at hupdates
    exact { hopen with stream := ⟨written, hupdates, hstream⟩, writerDone := by rintro ⟨⟩,
                       ended := fun h => absurd h (hopen.not_ended (by rw [hwriter]; rintro ⟨⟩)) }
  | receiveEnd hwriter hchannel hclosed =>
    rw [hwriter] at hupdates hstream
    exact { hopen with stream := ⟨written, hupdates, hstream⟩,
                       writerDone := fun _ => ⟨hclosed, hchannel⟩, ended := fun _ => rfl }
  | writeBool hwriter =>
    have hnot : s.writer ≠ .done := by rw [hwriter]; rintro ⟨⟩
    have hending := hopen.ending_eq_nil hnot
    rw [hwriter] at hupdates hstream
    refine { hopen with stream := ⟨written, hupdates, ?_⟩, scanning := fun h => ?_,
                        writerDone := by rintro ⟨⟩, ended := fun h => absurd h (hopen.not_ended hnot) }
    · dsimp only
      rw [← List.append_assoc, hstream, hending]
      simp [WriterPc.begun]
    · exact ⟨(hopen.scanning h).1, rfl⟩
  | @encodeUpdate update hwriter =>
    have hnot : s.writer ≠ .done := by rw [hwriter]; rintro ⟨⟩
    have hending := hopen.ending_eq_nil hnot
    rw [hwriter] at hupdates hstream
    refine { hopen with stream := ⟨written ++ [update], ?_, ?_⟩, scanning := fun h => ?_,
                        writerDone := by rintro ⟨⟩, ended := fun h => absurd h (hopen.not_ended hnot) }
    · rw [hupdates]
      simp [WriterPc.inflight]
    · dsimp only
      rw [← List.append_assoc, hstream, hending]
      simp [WriterPc.begun, updateBytes]
    · exact ⟨(hopen.scanning h).1, rfl⟩
  | flush hwriter | checkUpdate hwriter =>
    rw [hwriter] at hupdates hstream
    exact { hopen with stream := ⟨written, hupdates, hstream⟩, writerDone := by rintro ⟨⟩,
                       ended := fun h => absurd h (hopen.not_ended (by rw [hwriter]; rintro ⟨⟩)) }
  | checkScan hmain =>
    rw [hmain] at hstream
    have hscanned := hopen.scanned (by rw [hmain]; rintro ⟨⟩)
    by_cases herr : s.err = none
    all_goals
      simp only [herr, if_true, if_false]
      exact { hopen with stream := ⟨written, hupdates, hstream⟩, scanning := by rintro ⟨⟩,
                         scanned := fun _ => hscanned, ended := by simp, running := by rintro ⟨⟩ }
  | writeEnd hmain hwriter =>
    rw [hmain] at hstream
    have hscanned := hopen.scanned (by rw [hmain]; rintro ⟨⟩)
    refine { hopen with stream := ⟨written, hupdates, ?_⟩, scanning := by rintro ⟨⟩,
                        scanned := fun _ => hscanned, ended := fun _ => hwriter, running := by rintro ⟨⟩ }
    dsimp only
    rw [← List.append_assoc, hstream]
    simp [MainPc.ending]
  | encodeUsage hmain =>
    rw [hmain] at hstream
    have hscanned := hopen.scanned (by rw [hmain]; rintro ⟨⟩)
    refine { hopen with stream := ⟨written, hupdates, ?_⟩, scanning := by rintro ⟨⟩,
                        scanned := fun _ => hscanned,
                        ended := fun _ => hopen.ended (Or.inl hmain), running := by rintro ⟨⟩ }
    dsimp only
    rw [← List.append_assoc, hstream]
    simp [MainPc.ending]
  | failUpdate | fail | close =>
    exact absurd (hopen.closeWithError_done _) (ne_true_of_eq_false hdone)

/-! ## Closing the stream -/

theorem Open.less (hending : s.main.ending wire s.scan.usage = []) :
    ∃ missing, missing ≠ [] ∧
      payload s.frames ++ missing = scanBytes wire s.scan.updates s.scan.usage := by
  obtain ⟨written, hupdates, hstream⟩ := hopen.stream
  rw [hending, List.append_nil] at hstream
  -- what is still to come, after the begun part of an update
  have hrest : ∃ rest, rest ≠ [] ∧ s.writer.begun ++ rest =
      scanBytes wire (s.writer.inflight ++ (s.channel ++ s.toSend)) s.scan.usage := by
    have hne : scanBytes wire (s.channel ++ s.toSend) s.scan.usage ≠ [] := by simp [scanBytes]
    cases hwriter : s.writer with
    | flagged update =>
      refine ⟨wire.entries.encode update ++ scanBytes wire (s.channel ++ s.toSend) s.scan.usage,
        by simp [hne], ?_⟩
      exact (scanBytes_cons update _ _).symm
    | _ =>
      refine ⟨_, ?_, rfl⟩
      simp
  obtain ⟨rest, hne, hrest⟩ := hrest
  refine ⟨s.buffered ++ rest, by simp [hne], ?_⟩
  rw [← List.append_assoc, hstream, List.append_assoc, hrest, hupdates]
  exact (scanBytes_append written _ _).symm

theorem Open.whole (hmain : s.main = .encoded) (hbuffered : s.buffered = []) :
    payload s.frames = scanBytes wire s.scan.updates s.scan.usage := by
  obtain ⟨written, hupdates, hstream⟩ := hopen.stream
  have hwriter := hopen.ended (Or.inr hmain)
  have hchannel := (hopen.writerDone hwriter).2
  have htoSend := (hopen.scanned (by rw [hmain]; nofun)).2
  rw [hwriter, hchannel, htoSend] at hupdates
  have hwritten : s.scan.updates = written := by
    rw [hupdates]
    exact List.append_nil written
  rw [hbuffered, List.append_nil, hwriter, hmain] at hstream
  rw [hstream, hwritten]
  rfl

theorem Open.ended_closeWithError (err : Option Bytes) {missing : Bytes}
    (hmissing : payload s.frames ++ missing = scanBytes wire s.scan.updates s.scan.usage) :
    (s.closeWithError err).streamDone = true ∧
      ∃ frames err', (s.closeWithError err).frames = frames ++ [.done err'] ∧
        (∀ frame ∈ frames, frame.Sent) ∧
        payload frames ++ missing =
          scanBytes wire (s.closeWithError err).scan.updates (s.closeWithError err).scan.usage := by
  unfold HandlerState.closeWithError
  rw [if_neg (by rw [hopen.streamDone]; decide)]
  exact ⟨rfl, s.frames, err, rfl, hopen.sent, hmissing⟩

end

/-- A stream that is closed stays as it is: only where the two goroutines stand can change. -/
theorem Ended.after {missing : Bytes} (hended : s.Ended wire missing) (event : HandlerEvent) :
    (s.after wire event).Ended wire missing := by
  obtain hsame | hturn := @turn_after _ _ wire s event
  · rwa [hsame]
  have hdone := hended.streamDone
  have hclose : ∀ err, s.closeWithError err = s := fun err => if_pos hdone
  have hleft : ∀ {pc}, s.writer = pc → pc ≠ .done → s.main = .finished := fun hwriter hne =>
    hended.stopped.resolve_left (hwriter ▸ hne)
  generalize s.after wire event = s' at hturn
  cases hturn with
  | tick hopen => exact absurd hdone (ne_true_of_eq_false hopen)
  | pass hpass => exact absurd hdone (ne_true_of_eq_false hpass.1)
  | send => exact ⟨hdone, hended.stream, hended.stopped⟩
  | finishScan hmain | checkScan hmain | writeEnd hmain | encodeUsage hmain =>
    exact ⟨hdone, hended.stream, Or.inl (hended.stopped.resolve_right (by rw [hmain]; nofun))⟩
  | receive hwriter | writeBool hwriter | encodeUpdate hwriter | flush hwriter
  | checkUpdate hwriter => exact ⟨hdone, hended.stream, Or.inr (hleft hwriter nofun)⟩
  | receiveEnd => exact ⟨hdone, hended.stream, Or.inl rfl⟩
  | failUpdate =>
    rw [hclose]
    exact ⟨hdone, hended.stream, Or.inl rfl⟩
  | fail | close =>
    rw [hclose]
    exact ⟨hdone, hended.stream, Or.inr rfl⟩

end HandlerState

end Fs3.Scanner
