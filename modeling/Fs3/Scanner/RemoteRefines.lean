import Fs3.Scanner.RemoteScan

/-! # When the remote scan gives what the local one does

The client returns the cache that it sent in place of the new one, accepts a response that is cut
behind its last block, and hears nothing of an error that is overwritten before the handler looks
at it. -/

namespace Fs3.Scanner

open Foundation

variable {Entry Cache : Type} {wire : Wire Entry Cache}

namespace HandlerState

variable {s : HandlerState Entry Cache}

/-- Where the scanner has returned with no error, or its error is lost, nothing stops the scan. -/
theorem Succeeds.after (hsucceeds : s.Succeeds wire) (event : HandlerEvent) :
    (s.after wire event).Succeeds wire := by
  rcases hsucceeds with ⟨hopen, herr, hmain⟩ | hended
  · obtain hsame | hturn := @turn_after _ _ wire s event
    · rw [hsame]
      exact Or.inl ⟨hopen, herr, hmain⟩
    have hopen' := hopen.turn hturn
    generalize s.after wire event = s' at hturn hopen' ⊢
    cases hturn with
    | finishScan hbefore | fail hbefore =>
      rw [hbefore] at hmain
      simp at hmain
    | writeBool | encodeUpdate => exact Or.inl ⟨hopen' hopen.streamDone, rfl, hmain⟩
    | failUpdate _ hne => exact absurd herr hne
    | checkScan =>
      exact Or.inl ⟨hopen' hopen.streamDone, herr, Or.inr (Or.inl (if_pos herr))⟩
    | writeEnd => exact Or.inl ⟨hopen' hopen.streamDone, herr, Or.inr (Or.inr (Or.inl rfl))⟩
    | encodeUsage => exact Or.inl ⟨hopen' hopen.streamDone, herr, Or.inr (Or.inr (Or.inr rfl))⟩
    | close hencoded hbuffered =>
      have hwhole := hopen.whole hencoded hbuffered
      obtain ⟨hdone, hstream⟩ :=
        hopen.ended_closeWithError none ((List.append_nil _).trans hwhole)
      exact Or.inr ⟨hdone, hstream, Or.inr rfl⟩
    | _ => exact Or.inl ⟨hopen' hopen.streamDone, herr, hmain⟩
  · exact Or.inr (hended.after event)

/-- What must not happen for an error of the scan to be sent: an update is written, and its
outcome stored, between the scanner's return and the handler's look at `err`. -/
def KeepsErr (s : HandlerState Entry Cache) : HandlerEvent → Prop
  | .writeBool => s.main = .returned → ∀ update, s.writer ≠ .received update
  | .encodeUpdate => s.main = .returned → ∀ update, s.writer ≠ .flagged update
  | _ => True

/-- An error that is kept is sent. -/
theorem Fails.after (hfails : s.Fails wire) {event : HandlerEvent} (hkeeps : s.KeepsErr event) :
    (s.after wire event).Fails wire := by
  rcases hfails with ⟨hopen, hmain⟩ | ⟨missing, hne, hended⟩
  · obtain hsame | hturn := @turn_after _ _ wire s event
    · rw [hsame]
      exact Or.inl ⟨hopen, hmain⟩
    have hopen' := hopen.turn hturn
    have hfailing : (s.main = .returned → False) → s.main = .failing := fun hnot =>
      hmain.resolve_left fun h => hnot h.1
    have hending : s.main.ending wire s.scan.usage = [] := by
      rcases hmain with ⟨hmain, -⟩ | hmain
      all_goals
        rw [hmain]
        rfl
    obtain ⟨missing, hne, hmissing⟩ := hopen.less hending
    obtain ⟨hdone, hstream⟩ := hopen.ended_closeWithError s.err hmissing
    generalize s.after wire event = s' at hturn hopen' ⊢
    cases hturn with
    | finishScan hbefore | writeEnd hbefore | encodeUsage hbefore | close hbefore =>
      rw [hbefore] at hmain
      simp at hmain
    | writeBool hwriter | encodeUpdate hwriter =>
      exact Or.inl ⟨hopen' hopen.streamDone,
        Or.inr (hfailing fun hreturned => hkeeps hreturned _ hwriter)⟩
    | checkUpdate _ herr =>
      exact Or.inl ⟨hopen' hopen.streamDone, Or.inr (hmain.resolve_left fun h => h.2 herr)⟩
    | failUpdate => exact Or.inr ⟨missing, hne, hdone, hstream, Or.inl rfl⟩
    | checkScan hbefore =>
      rcases hmain with ⟨-, herr⟩ | hmain
      · exact Or.inl ⟨hopen' hopen.streamDone, Or.inr (if_neg herr)⟩
      · cases hbefore.symm.trans hmain
    | fail => exact Or.inr ⟨missing, hne, hdone, hstream, Or.inr rfl⟩
    | _ => exact Or.inl ⟨hopen' hopen.streamDone, hmain⟩
  · exact Or.inr ⟨missing, hne, hended.after event⟩

/-- While the scanner runs, the only way on is that it returns. -/
theorem Open.after_scanning (hopen : s.Open wire) (hmain : s.main = .scanning)
    (event : HandlerEvent) :
    ((s.after wire event).Open wire ∧ (s.after wire event).main = .scanning) ∨
      (s.scan.err = none ∧ (s.after wire event).Succeeds wire) ∨
      (s.scan.err ≠ none ∧ (s.after wire event).Fails wire) := by
  obtain hsame | hturn := @turn_after _ _ wire s event
  · rw [hsame]
    exact Or.inl ⟨hopen, hmain⟩
  have hopen' := hopen.turn hturn
  generalize s.after wire event = s' at hturn hopen' ⊢
  cases hturn with
  | finishScan =>
    by_cases herr : s.scan.err = none
    · exact Or.inr (Or.inl ⟨herr, Or.inl ⟨hopen' hopen.streamDone, herr, Or.inl rfl⟩⟩)
    · exact Or.inr (Or.inr ⟨herr, Or.inl ⟨hopen' hopen.streamDone, Or.inl ⟨rfl, herr⟩⟩⟩)
  | checkScan hbefore | fail hbefore | writeEnd hbefore | encodeUsage hbefore | close hbefore =>
    cases hmain.symm.trans hbefore
  | failUpdate _ hne => exact absurd (hopen.scanning hmain).2 hne
  | _ => exact Or.inl ⟨hopen' hopen.streamDone, hmain⟩

end HandlerState

end Fs3.Scanner

/-! ## Runs of the remote scanner

What a client makes of the complete response of a handler, or of what is left of it where the
body is cut, for every order of the handler's steps.
-/

namespace Fs3.Scanner

open Foundation

variable {Entry Cache : Type} {wire : Wire Entry Cache}

namespace HandlerState

variable {s : HandlerState Entry Cache}

def start (scan : Scan Entry Cache) : HandlerState Entry Cache where
  scan := scan
  toSend := scan.updates

theorem open_start (scan : Scan Entry Cache) : (start scan).Open wire where
  streamDone := rfl
  sent := fun _ hframe => absurd hframe List.not_mem_nil
  stream := ⟨[], rfl, rfl⟩
  scanning := fun _ => ⟨rfl, rfl⟩
  scanned := fun h => absurd rfl h
  writerDone := nofun
  ended := by simp [start]
  running := nofun

/-- An error that is not kept is overwritten. -/
theorem lost_after {event : HandlerEvent} (hlost : ¬ s.KeepsErr event) :
    s.main = .returned ∧ s.writer ≠ .done ∧ (s.Open wire →
      (s.after wire event).Open wire ∧ (s.after wire event).err = none ∧
        (s.after wire event).main = s.main) := by
  cases event with
  | writeBool =>
    unfold KeepsErr at hlost
    push Not at hlost
    obtain ⟨hmain, update, hwriter⟩ := hlost
    refine ⟨hmain, by simp [hwriter], fun hopen => ?_⟩
    rw [HandlerState.after, writeBool, hwriter]
    exact ⟨hopen.turn (.writeBool hwriter) hopen.streamDone, rfl, rfl⟩
  | encodeUpdate =>
    unfold KeepsErr at hlost
    push Not at hlost
    obtain ⟨hmain, update, hwriter⟩ := hlost
    refine ⟨hmain, by simp [hwriter], fun hopen => ?_⟩
    rw [HandlerState.after, encodeUpdate, hwriter]
    exact ⟨hopen.turn (.encodeUpdate hwriter) hopen.streamDone, rfl, rfl⟩
  | _ => exact absurd trivial hlost

theorem Fails.lost (hfails : s.Fails wire) {event : HandlerEvent} (hlost : ¬ s.KeepsErr event) :
    (s.after wire event).Succeeds wire := by
  obtain ⟨hmain, hwriter, hafter⟩ := @lost_after _ _ wire s event hlost
  rcases hfails with ⟨hopen, -⟩ | ⟨missing, -, hended⟩
  · obtain ⟨hopen', herr, hmain'⟩ := hafter hopen
    exact Or.inl ⟨hopen', herr, Or.inl (hmain'.trans hmain)⟩
  · rcases hended.stopped with hdone | hfinished
    · exact absurd hdone hwriter
    · cases hmain.symm.trans hfinished

/-! ## Whole runs -/

variable {scan : Scan Entry Cache} {events : List HandlerEvent}

theorem always_of_step {inv : HandlerState Entry Cache → Prop}
    (hstep : ∀ s event, inv s → inv (s.after wire event)) (hs : inv s)
    (events : List HandlerEvent) : inv (events.foldl (after wire) s) := by
  have hguarded : Guarded (after wire) (fun _ _ => True) s events := fun _ _ _ => trivial
  exact hguarded.always (fun s event hinv _ => hstep s event hinv) hs events List.prefix_rfl

theorem scan_run (s : HandlerState Entry Cache) (events : List HandlerEvent) :
    (events.foldl (after wire) s).scan = s.scan :=
  @always_of_step _ _ wire s (fun s' => s'.scan = s.scan)
    (fun _ event h => (scan_after event).trans h) rfl events

theorem Succeeds.run (hsucceeds : s.Succeeds wire) (events : List HandlerEvent) :
    (events.foldl (HandlerState.after wire) s).Succeeds wire :=
  always_of_step (fun _ event h => h.after event) hsucceeds events

theorem run_of_ok (herr : scan.err = none) (events : List HandlerEvent) :
    let s := events.foldl (after wire) (start scan)
    (s.Open wire ∧ s.main = .scanning) ∨ s.Succeeds wire := by
  have hinv := @always_of_step _ _ wire (start scan) (fun s => s.scan = scan ∧
    ((s.Open wire ∧ s.main = .scanning) ∨ s.Succeeds wire)) ?_
    ⟨rfl, Or.inl ⟨open_start scan, rfl⟩⟩ events
  · exact hinv.2
  · rintro s event ⟨hscan, ⟨hopen, hmain⟩ | hsucceeds⟩
    · refine ⟨(scan_after event).trans hscan, ?_⟩
      rcases hopen.after_scanning hmain event with hscanning | ⟨-, hsucceeds⟩ | ⟨hne, -⟩
      · exact Or.inl hscanning
      · exact Or.inr hsucceeds
      · exact absurd (hscan ▸ herr) hne
    · exact ⟨(scan_after event).trans hscan, Or.inr (hsucceeds.after event)⟩

theorem run_of_kept (herr : scan.err ≠ none)
    (hkeeps : Guarded (after wire) KeepsErr (start scan) events) :
    let s := events.foldl (after wire) (start scan)
    (s.Open wire ∧ s.main = .scanning) ∨ s.Fails wire := by
  have hinv := @Guarded.always _ _ (after wire) (fun s => s.scan = scan ∧
    ((s.Open wire ∧ s.main = .scanning) ∨ s.Fails wire)) KeepsErr (start scan) ?_ events hkeeps
    ⟨rfl, Or.inl ⟨open_start scan, rfl⟩⟩
  · exact (hinv events List.prefix_rfl).2
  · rintro s event ⟨hscan, ⟨hopen, hmain⟩ | hfails⟩ hgood
    · refine ⟨(scan_after event).trans hscan, ?_⟩
      rcases hopen.after_scanning hmain event with hscanning | ⟨hnone, -⟩ | ⟨-, hfails⟩
      · exact Or.inl hscanning
      · exact absurd (hscan ▸ hnone) herr
      · exact Or.inr hfails
    · exact ⟨(scan_after event).trans hscan, Or.inr (hfails.after hgood)⟩

theorem run_of_lost (hlost : ¬ Guarded (after wire) KeepsErr (start scan) events) :
    (events.foldl (after wire) (start scan)).Succeeds wire := by
  unfold Guarded at hlost
  push Not at hlost
  obtain ⟨before, event, ⟨rest, hevents⟩, hbad⟩ := hlost
  have hcourse := @always_of_step _ _ wire (start scan) (fun s =>
    (s.Open wire ∧ s.main = .scanning) ∨ s.Succeeds wire ∨ s.Fails wire) ?_
    (Or.inl ⟨open_start scan, rfl⟩) before
  · have hsucceeds : ((before.foldl (after wire) (start scan)).after wire event).Succeeds wire := by
      rcases hcourse with ⟨-, hmain⟩ | hsucceeds | hfails
      · exact nomatch hmain.symm.trans (@lost_after _ _ wire _ _ hbad).1
      · exact hsucceeds.after event
      · exact hfails.lost hbad
    rw [← hevents, List.foldl_append, List.foldl_append]
    exact hsucceeds.run rest
  · rintro s event (⟨hopen, hmain⟩ | hsucceeds | hfails)
    · exact (hopen.after_scanning hmain event).imp_right fun h =>
        h.imp And.right And.right
    · exact Or.inr (Or.inl (hsucceeds.after event))
    · by_cases hkeeps : s.KeepsErr event
      · exact Or.inr (Or.inr (hfails.after hkeeps))
      · exact Or.inr (Or.inl (hfails.lost hkeeps))

def ErrSent (wire : Wire Entry Cache) (scan : Scan Entry Cache) (events : List HandlerEvent) :
    Prop :=
  scan.err ≠ none ∧ Guarded (after wire) KeepsErr (start scan) events

theorem ended_run (hdone : (events.foldl (after wire) (start scan)).streamDone = true) :
    ∃ missing, (events.foldl (after wire) (start scan)).Ended wire missing ∧
      (missing ≠ [] ↔ ErrSent wire scan events) := by
  have hclosed : ∀ {P : Prop}, (events.foldl (after wire) (start scan)).Open wire ∧ P → False :=
    fun h => nomatch h.1.streamDone.symm.trans hdone
  have hok : ∀ hsucceeds : (events.foldl (after wire) (start scan)).Succeeds wire,
      (events.foldl (after wire) (start scan)).Ended wire [] :=
    fun hsucceeds => hsucceeds.resolve_left hclosed
  by_cases hsent : ErrSent wire scan events
  · have hfails := (run_of_kept hsent.1 hsent.2).resolve_left hclosed
    obtain ⟨missing, hne, hended⟩ := hfails.resolve_left hclosed
    exact ⟨missing, hended, fun _ => hsent, fun _ => hne⟩
  · refine ⟨[], ?_, fun h => absurd rfl h, fun h => absurd h hsent⟩
    by_cases herr : scan.err = none
    · exact hok ((run_of_ok herr events).resolve_left hclosed)
    · exact hok (run_of_lost fun hkeeps => hsent ⟨herr, hkeeps⟩)

end HandlerState

/-! ## The client -/

theorem dataEnd_done (frames : List Frame) (err : Option Bytes) :
    dataEnd (frames ++ [.done err]) = dataEnd frames := by
  induction frames with
  | nil => simp [dataEnd, Frame.isBlock]
  | cons frame frames ih => rw [List.cons_append, dataEnd, ih, dataEnd]

theorem dataEnd_le (frames : List Frame) : dataEnd frames ≤ (body frames).length := by
  induction frames with
  | nil => exact Nat.zero_le _
  | cons frame frames ih =>
    have hbody : (body (frame :: frames)).length = frame.bytes.length + (body frames).length := by
      rw [body, List.flatMap_cons, List.length_append]
      rfl
    rw [dataEnd, hbody]
    split
    next => exact Nat.add_le_add_left ih _
    next => exact Nat.zero_le _

variable {s : HandlerState Entry Cache} {cache : Cache} {missing : Bytes}

theorem nsScanner_ended (hended : s.Ended wire missing) (failure : Option StreamErr) (n : Nat) :
    (missing = [] ∧ dataEnd s.frames ≤ n ∧
      nsScanner wire cache (.ok ((body s.frames).take n, failure)) =
        { updates := s.scan.updates, cache := cache, err := none }) ∨
    ((missing ≠ [] ∨ n < dataEnd s.frames) ∧
      (nsScanner wire cache (.ok ((body s.frames).take n, failure))).err ≠ none) := by
  obtain ⟨frames, err, hframes, hsent, hscan⟩ := hended.stream
  obtain ⟨late, hpayload, hlate⟩ := @written_take failure frames hsent err n
  rw [hframes, dataEnd_done]
  rw [← hpayload, List.append_assoc] at hscan
  by_cases hwhole : late ++ missing = []
  · obtain ⟨hlate', hmissing⟩ := List.append_eq_nil_iff.mp hwhole
    refine Or.inl ⟨hmissing, hlate.mp hlate', ?_⟩
    rw [hwhole, List.append_nil] at hscan
    rw [nsScanner, hscan]
    exact readScan_scanBytes _ _ _
  · refine Or.inr ⟨?_, readScan_cut _ hscan hwhole⟩
    by_cases hmissing : missing = []
    · refine Or.inr (Nat.lt_of_not_le fun hle => hwhole ?_)
      rw [hlate.mpr hle, hmissing]
      rfl
    · exact Or.inl hmissing

/-- What the remote scan should give: from the whole response the updates and the final cache of
the local scan, or an error if that failed; from a response that is cut, and ends with `io.EOF`
or a failure, an error. -/
def Agrees (wire : Wire Entry Cache) (cache : Cache) (scan : Scan Entry Cache)
    (response : List Frame) : Option (Nat × Option StreamErr) → Prop
  | none =>
    match scan.err with
    | none => nsScanner wire cache (.ok (body response, none)) =
        { updates := scan.updates, cache := scan.usage, err := none }
    | some _ => (nsScanner wire cache (.ok (body response, none))).err ≠ none
  | some (n, failure) =>
    (nsScanner wire cache (.ok ((body response).take n, failure))).err ≠ none

/-- When it does: the final cache is the one that was sent, or the error of the scan is kept; and
a cut is within the data, or the error of the scan is kept. -/
def Answers (wire : Wire Entry Cache) (cache : Cache) (scan : Scan Entry Cache)
    (events : List HandlerEvent) (response : List Frame) :
    Option (Nat × Option StreamErr) → Prop
  | none => (scan.err = none → scan.usage = cache) ∧
      (scan.err ≠ none → HandlerState.ErrSent wire scan events)
  | some (n, _) => n < dataEnd response ∨ HandlerState.ErrSent wire scan events

/-- For every cache, scan and order of the steps, and every response that is complete and maybe
cut then, the remote scan agrees with the local one exactly under this condition. -/
theorem nsScanner_agrees_iff (wire : Wire Entry Cache) (scanner : Cache → Scan Entry Cache)
    (cache : Cache) (events : List HandlerEvent) {s₀ : HandlerState Entry Cache}
    (hstart : handlerStart wire scanner (serialize wire cache) = some s₀)
    (hdone : (events.foldl (HandlerState.after wire) s₀).streamDone = true)
    (cut : Option (Nat × Option StreamErr)) :
    Agrees wire cache (scanner cache) (events.foldl (HandlerState.after wire) s₀).frames cut ↔
      Answers wire cache (scanner cache) events
        (events.foldl (HandlerState.after wire) s₀).frames cut := by
  rw [handlerStart, deserialize_serialize] at hstart
  obtain rfl : HandlerState.start (scanner cache) = s₀ := Option.some.inj hstart
  obtain ⟨missing, hended, hmissing⟩ := HandlerState.ended_run hdone
  have hscan := @HandlerState.scan_run _ _ wire (HandlerState.start (scanner cache)) events
  cases cut with
  | none =>
    have hread := @nsScanner_ended _ _ wire _ cache missing hended none (body (events.foldl
      (HandlerState.after wire) (HandlerState.start (scanner cache))).frames).length
    rw [List.take_length, hscan] at hread
    have hend := dataEnd_le (events.foldl (HandlerState.after wire)
      (HandlerState.start (scanner cache))).frames
    unfold Agrees Answers
    dsimp only
    rcases hread with ⟨hnil, -, hresult⟩ | ⟨hne, herror⟩
    · have hnot : ¬ HandlerState.ErrSent wire (scanner cache) events :=
        fun hsent => hmissing.mpr hsent hnil
      rw [hresult]
      cases herr : (scanner cache).err with
      | none => simp [HandlerState.start, eq_comm]
      | some text => simp [hnot]
    · have hsent : HandlerState.ErrSent wire (scanner cache) events :=
        hmissing.mp (hne.resolve_right (Nat.not_lt.mpr hend))
      cases herr : (scanner cache).err with
      | none => exact absurd herr hsent.1
      | some text => simp [herror, hsent]
  | some cut =>
    obtain ⟨n, failure⟩ := cut
    have hread := @nsScanner_ended _ _ wire _ cache missing hended failure n
    unfold Agrees Answers
    rw [← hmissing]
    dsimp only
    rcases hread with ⟨hnil, hle, hresult⟩ | ⟨hne, herror⟩
    · rw [hresult]
      simp [hnil, hle]
    · exact iff_of_true herror hne.symm

def emptyEntry : Bytes :=
  [0x97, 0x90, 0, 0, 0, 0x97, 0, 0, 0, 0, 0, 0, 0, 0xc0, 0xc2]

/-- The encoding of a usage cache without entries, of a given cycle below 128. -/
def emptyCache (nextCycle : UInt8) : Bytes :=
  [0x83, 0xa4, 0x49, 0x6e, 0x66, 0x6f, 0x84, 0xa4, 0x4e, 0x61, 0x6d, 0x65, 0xa0,
    0xa9, 0x4e, 0x65, 0x78, 0x74, 0x43, 0x79, 0x63, 0x6c, 0x65, nextCycle,
    0xaa, 0x4c, 0x61, 0x73, 0x74, 0x55, 0x70, 0x64, 0x61, 0x74, 0x65,
    0xc7, 0x0c, 0x05, 0xff, 0xff, 0xff, 0xf1, 0x88, 0x6e, 0x09, 0x00, 0, 0, 0, 0,
    0xab, 0x53, 0x6b, 0x69, 0x70, 0x48, 0x65, 0x61, 0x6c, 0x69, 0x6e, 0x67, 0xc2,
    0xa5, 0x43, 0x61, 0x63, 0x68, 0x65, 0x80, 0xa5, 0x44, 0x69, 0x73, 0x6b, 0x73, 0x90]

def rawFrame (length : Nat) : Bytes :=
  [0x28, 0xb5, 0x2f, 0xfd, 0x20, UInt8.ofNat length, UInt8.ofNat (1 + 8 * length),
    UInt8.ofNat (length / 32), UInt8.ofNat (length / 8192)]

def emptyWire : Wire Unit Bool where
  entries := .ofTable [()] (fun _ => emptyEntry) 15 (by simp) (fun _ => rfl) (by decide)
    fun _ _ _ => rfl
  caches := .ofTable [false, true] (fun scanned => emptyCache (if scanned then 1 else 0)) 77
    (by simp) (fun _ => rfl) (by decide) fun a b hab => by
      cases a <;> cases b <;> first | rfl | exact absurd hab (by decide)
  compress bytes := rawFrame bytes.length ++ bytes
  decompress bytes := some (bytes.drop 9)
  decompress_compress _ := rfl
  older _ _ := none

def countCycle (_ : Bool) : Scan Unit Bool := ⟨[], true, none⟩

def oneScan : List HandlerEvent :=
  [.tick, .finishScan, .receive, .checkScan, .writeEnd, .encodeUsage, .pass 78, .close]

/-- The new cycle is lost on the way to the client. -/
theorem countCycle_not_agrees :
    ¬ Agrees emptyWire false (countCycle false)
      (oneScan.foldl (HandlerState.after emptyWire) (HandlerState.start (countCycle false))).frames
      none := by
  intro hagrees
  obtain ⟨missing, hended, -⟩ :=
    @HandlerState.ended_run _ _ emptyWire (countCycle false) oneScan rfl
  have hread := @nsScanner_ended _ _ emptyWire _ false missing hended none (body (oneScan.foldl
    (HandlerState.after emptyWire) (HandlerState.start (countCycle false))).frames).length
  rw [List.take_length] at hread
  rcases hread with ⟨-, -, hresult⟩ | ⟨-, herror⟩
  · cases hresult.symm.trans hagrees
  · exact herror (congrArg ScanResult.err hagrees)

/-- A cache of the new cycle comes back as it is. -/
theorem countCycle_agrees :
    Agrees emptyWire true (countCycle true)
      (oneScan.foldl (HandlerState.after emptyWire) (HandlerState.start (countCycle true))).frames
      none :=
  (nsScanner_agrees_iff emptyWire countCycle true oneScan
    (by rw [handlerStart, deserialize_serialize]; rfl) rfl none).mpr
    ⟨fun _ => rfl, fun h => absurd rfl h⟩

end Fs3.Scanner
