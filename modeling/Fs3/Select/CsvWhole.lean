import Fs3.Select.CsvRecords

/-! # The CSV reader against one parser for the whole input

Where no cut is within a record, the reader delivers what one parser reads of the whole input,
without the header. -/

namespace Fs3.Select.Csv

open Foundation

variable {ε : Type} {parser : RecordReader UInt8 Fields ε} {mode : FileHeaderInfo}
  {input line rest body : Bytes}

def bodyOf (mode : FileHeaderInfo) (input : Bytes) : Bytes :=
  if mode = .none then input else (nextSplit 0 input).2.1

/-- The line of a header is ended, has a record, and that does not go on behind it. -/
def HeaderClosed (parser : RecordReader UInt8 Fields ε) (mode : FileHeaderInfo) (input : Bytes) :
    Prop :=
  mode ≠ .none → (nextSplit 0 input).2.2 = false ∧ parser (nextSplit 0 input).1 ≠ .eof ∧
    parser.Closed (nextSplit 0 input).1

/-- The records of the whole input without the header, which may name their columns. -/
def wanted : FileHeaderInfo → List Fields → List Record
  | .none, records => named none records
  | .used, records => named records.head? records.tail
  | .ignored, records => named none records.tail

theorem nextSplit_zero (hended : (nextSplit 0 input).2.2 = false) :
    ∃ before, newline ∉ before ∧ (nextSplit 0 input).1 = before ++ [newline] :=
  (@readBytes_spec input (nextSplit 0 input).1 (nextSplit 0 input).2.1 (nextSplit 0 input).2.2
    rfl).2.2 hended

theorem valid_nextSplit {skip : Nat} (hvalid : Utf8.valid input = true) :
    Utf8.valid (nextSplit skip input).1 = true ∧ Utf8.valid (nextSplit skip input).2.1 = true := by
  obtain ⟨happend, hended, hnext⟩ := nextSplit_append skip input
  cases hlast : (nextSplit skip input).2.2 with
  | true =>
    rw [hended hlast, List.append_nil] at happend
    rw [happend, hended hlast]
    exact ⟨hvalid, by rw [Utf8.valid]⟩
  | false =>
    obtain ⟨hterminated, hne⟩ := hnext hlast
    rcases hterminated with hnil | ⟨before, hbefore⟩
    · exact absurd hnil hne
    · rw [← happend, hbefore, List.append_assoc] at hvalid
      rw [hbefore]
      exact Utf8.valid_cut (by decide) before _ hvalid

theorem readHeader_none : readHeader parser .none input = .ok (none, input) := rfl

theorem readHeader_eq (parser : RecordReader UInt8 Fields ε) (hmode : mode ≠ .none) (hvalid : Utf8.valid input = true)
    (hended : (nextSplit 0 input).2.2 = false) :
    readHeader parser mode input =
      match parser (nextSplit 0 input).1 with
      | .eof => .error .eof
      | .fault err => .error (.csvParsing err)
      | .record fields _ _ =>
        .ok (if mode = .used then some fields else none, (nextSplit 0 input).2.1) := by
  rw [readHeader, if_pos hmode]
  dsimp only
  rw [hended, if_neg Bool.false_ne_true, (valid_nextSplit hvalid).1]
  rfl

theorem exists_onTheWay (hlawful : parser.Lawful newline) {columnNames : Option (List String)}
    (hheader : readHeader parser mode input = .ok (columnNames, body))
    (hvalid : Utf8.valid body = true) (hcuts : CutsClosed parser body) :
    ∃ r, newReader parser mode input = .ok r ∧
      OnTheWay parser (named columnNames (parser.all body).1) (finalErr (parser.all body).2)
        (r, []) := by
  obtain ⟨happend, hended, hnext⟩ := nextSplit_append csvSplitSize body
  refine ⟨⟨columnNames, some ((nextSplit csvSplitSize body).1, (nextSplit csvSplitSize body).2.2),
    (nextSplit csvSplitSize body).2.1, [], [], none⟩, ?_, ?_⟩
  · rw [newReader, hheader]
    dsimp only
    rw [(valid_nextSplit hvalid).1]
    rfl
  · have hdelivers := delivers_blocks hlawful hended (fun h => (hnext h).1) hcuts
    rw [happend] at hdelivers
    have hparts : delivers (parts parser (⟨columnNames,
        some ((nextSplit csvSplitSize body).1, (nextSplit csvSplitSize body).2.2),
        (nextSplit csvSplitSize body).2.1, [], [], none⟩ : Reader ε)) =
        ((parser.all body).1, finalErr (parser.all body).2) := hdelivers
    refine ⟨by rw [hparts], [], 0, rfl, ?_, fun h => absurd h (Nat.lt_irrefl 0)⟩
    dsimp only
    rw [hparts]
    rfl

/-- What the line of a header is for the parser of the whole input. -/
theorem all_header (hlawful : parser.Lawful newline) (hended : (nextSplit 0 input).2.2 = false)
    (hclosed : parser.Closed (nextSplit 0 input).1) :
    match parser (nextSplit 0 input).1 with
    | .eof => True
    | .fault err => parser.all input = ([], some err)
    | .record fields _ _ =>
      parser.all input = (fields :: (parser.all (nextSplit 0 input).2.1).1,
        (parser.all (nextSplit 0 input).2.1).2) := by
  obtain ⟨happend, -, hnext⟩ := nextSplit_append 0 input
  obtain ⟨before, hbefore, hline⟩ := nextSplit_zero hended
  have hall := hlawful.all_append hclosed (hnext hended).1 (nextSplit 0 input).2.1
  rw [happend] at hall
  cases hclosed with
  | eof hread => rw [hread]; trivial
  | fault hread =>
    rw [hread]
    rw [hall, RecordReader.all_fault hread]
    rfl
  | @record _ fields behind hread hrest =>
    -- A record that is ended leaves nothing of its line.
    have hbehind : behind = [] := by
      obtain ⟨start, hstart⟩ := hlawful.separated hread
      rw [hline] at hstart
      rcases List.eq_nil_or_concat behind with hnil | ⟨init, last, hlast⟩
      · exact hnil
      · rw [hlast, List.concat_eq_append, ← List.cons_append, ← List.append_assoc] at hstart
        have hinit := (List.append_inj' hstart rfl).1
        rw [hinit] at hbefore
        exact absurd (List.mem_append_right start List.mem_cons_self) hbefore
    rw [hread]
    dsimp only
    rw [hall, hlawful.all_record hread, hbehind, hlawful.all_nil]
    rfl

/-- Every session is on the way to the records that one parser has for the whole input,
without the header, and to its end. -/
def DeliversWhole (parser : RecordReader UInt8 Fields ε) (mode : FileHeaderInfo)
    (input : Bytes) : Prop :=
  match newReader parser mode input with
  | .error err => ∃ fault, parser.all input = ([], some fault) ∧ err = .csvParsing fault
  | .ok r => ∀ events,
      (∃ complete, Complete (wanted mode (parser.all input).1) (finalErr (parser.all input).2)
        complete ∧ (after parser (r, []) events).2 <+: complete) ∧
      ∃ more, Complete (wanted mode (parser.all input).1) (finalErr (parser.all input).2)
        (after parser (after parser (r, []) events) more).2

/-- So it is where no cut is within a record. -/
theorem newReader_delivers (hlawful : parser.Lawful newline) (mode : FileHeaderInfo)
    (input : Bytes) (hvalid : Utf8.valid input = true)
    (hheader : HeaderClosed parser mode input)
    (hcuts : CutsClosed parser (bodyOf mode input)) : DeliversWhole parser mode input := by
  have hsessions : ∀ {columnNames}, readHeader parser mode input =
      .ok (columnNames, bodyOf mode input) → Utf8.valid (bodyOf mode input) = true →
      named columnNames (parser.all (bodyOf mode input)).1 = wanted mode (parser.all input).1 →
      (parser.all (bodyOf mode input)).2 = (parser.all input).2 →
      ∃ r, newReader parser mode input = .ok r ∧
        OnTheWay parser (wanted mode (parser.all input).1) (finalErr (parser.all input).2)
          (r, []) := by
    intro columnNames hread hbody hnamed hfault
    obtain ⟨r, hnew, hway⟩ := exists_onTheWay hlawful hread hbody hcuts
    rw [hnamed, hfault] at hway
    exact ⟨r, hnew, hway⟩
  have hends : (∃ fault, newReader parser mode input = .error (.csvParsing fault) ∧
      parser.all input = ([], some fault)) ∨
      ∃ r, newReader parser mode input = .ok r ∧
        OnTheWay parser (wanted mode (parser.all input).1) (finalErr (parser.all input).2)
          (r, []) := by
    by_cases hmode : mode = .none
    · subst hmode
      exact Or.inr (hsessions readHeader_none hvalid rfl rfl)
    · obtain ⟨hended, hne, hclosed⟩ := hheader hmode
      have hread := readHeader_eq parser hmode hvalid hended
      have hall := all_header hlawful hended hclosed
      have hbody : bodyOf mode input = (nextSplit 0 input).2.1 := if_neg hmode
      cases hline : parser (nextSplit 0 input).1 with
      | eof => exact absurd hline hne
      | fault err =>
        rw [hline] at hread hall
        refine Or.inl ⟨err, ?_, hall⟩
        rw [newReader, hread]
      | record fields rest ended =>
        rw [hline] at hread hall
        dsimp only at hread hall
        rw [← hbody] at hread hall
        refine Or.inr (hsessions hread ?_ ?_ ?_)
        · rw [hbody]
          exact (valid_nextSplit hvalid).2
        · rw [hall]
          cases mode with
          | none => exact absurd rfl hmode
          | used => rfl
          | ignored => rfl
        · rw [hall]
  unfold DeliversWhole
  rcases hends with ⟨fault, hnew, hall⟩ | ⟨r, hnew, hway⟩
  · rw [hnew]
    exact ⟨fault, hall, rfl⟩
  · rw [hnew]
    intro events
    exact ⟨(hway.after events).isPrefix, (hway.after events).complete⟩

/-! ## A field with a newline -/

/-- Where a parser is in a field. -/
inductive FieldPlace where
  | start
  | plain
  | quoted
  | quoteSeen

/-- What a parser does with a byte. -/
inductive FieldStep where
  | stay (place : FieldPlace) (more : Bytes)
  | nextField
  | nextRecord

def fieldStep : FieldPlace → UInt8 → FieldStep
  | .quoted, b => if b = 34 then .stay .quoteSeen [] else .stay .quoted [b]
  | place, b =>
    if b = 44 then .nextField
    else if b = newline then .nextRecord
    else
      match place with
      | .start => if b = 34 then .stay .quoted [] else .stay .plain [b]
      | .quoteSeen => if b = 34 then .stay .quoted [34] else .stay .quoted [34, b]
      | _ => .stay .plain [b]

def fieldText (field : Bytes) : String := String.ofList (field.map fun b => Char.ofNat b.toNat)

def readFields (place : FieldPlace) (field : Bytes) (fields : Fields) :
    Bytes → Taken UInt8 Fields Unit
  | [] => .record (fields ++ [fieldText field]) [] false
  | b :: rest =>
    match fieldStep place b with
    | .stay place more => readFields place (field ++ more) fields rest
    | .nextField => readFields .start [] (fields ++ [fieldText field]) rest
    | .nextRecord => .record (fields ++ [fieldText field]) rest true

def commaParser : RecordReader UInt8 Fields Unit := fun text =>
  match text.dropWhile (· = newline) with
  | [] => .eof
  | b :: rest => readFields .start [] [] (b :: rest)

theorem eq_newline_of_fieldStep {place : FieldPlace} {b : UInt8}
    (hstep : fieldStep place b = .nextRecord) : b = newline := by
  unfold fieldStep at hstep
  split at hstep
  next => split at hstep <;> cases hstep
  next =>
    split at hstep
    next => cases hstep
    next =>
      split at hstep
      next hb => exact hb
      next =>
        split at hstep
        next => split at hstep <;> cases hstep
        next => split at hstep <;> cases hstep
        next => cases hstep

theorem readFields_taken {place : FieldPlace} {field text rest : Bytes} {fields record : Fields}
    {ended : Bool} (hread : readFields place field fields text = .record record rest ended) :
    (∃ before, text = before ++ rest ∧ (text ≠ [] → before ≠ [])) ∧
      (ended = true → ∃ before, text = before ++ newline :: rest) := by
  induction text generalizing place field fields with
  | nil =>
    cases hread
    exact ⟨⟨[], rfl, id⟩, fun hended => by cases hended⟩
  | cons b text ih =>
    have hgoes : ∀ {place field fields},
        readFields place field fields text = .record record rest ended →
        (∃ before, b :: text = before ++ rest ∧ (b :: text ≠ [] → before ≠ [])) ∧
          (ended = true → ∃ before, b :: text = before ++ newline :: rest) := by
      intro place field fields hread
      obtain ⟨⟨before, hbefore, -⟩, hended⟩ := ih hread
      refine ⟨⟨b :: before, by rw [hbefore]; rfl, fun _ => List.cons_ne_nil b before⟩,
        fun h => ?_⟩
      obtain ⟨before', hbefore'⟩ := hended h
      exact ⟨b :: before', by rw [hbefore']; rfl⟩
    rw [readFields] at hread
    split at hread
    next => exact hgoes hread
    next => exact hgoes hread
    next hstep =>
      cases hread
      rw [eq_newline_of_fieldStep hstep]
      exact ⟨⟨[newline], rfl, fun _ => List.cons_ne_nil _ _⟩, fun _ => ⟨[], rfl⟩⟩

theorem readFields_append {place : FieldPlace} {field text rest : Bytes}
    {fields record : Fields} (more : Bytes)
    (hread : readFields place field fields text = .record record rest true) :
    readFields place field fields (text ++ more) = .record record (rest ++ more) true := by
  induction text generalizing place field fields with
  | nil => cases hread
  | cons b text ih =>
    rw [List.cons_append, readFields]
    rw [readFields] at hread
    split at hread
    next => exact ih hread
    next => exact ih hread
    next =>
      cases hread
      rfl

theorem exists_readFields (place : FieldPlace) (field : Bytes) (fields : Fields) (text : Bytes) :
    ∃ record rest ended, readFields place field fields text = .record record rest ended := by
  induction text generalizing place field fields with
  | nil => exact ⟨_, _, _, rfl⟩
  | cons b text ih =>
    rw [readFields]
    split
    next => exact ih _ _ _
    next => exact ih _ _ _
    next => exact ⟨_, _, _, rfl⟩

theorem commaParser_eof {text : Bytes} :
    commaParser text = .eof ↔ text.dropWhile (· = newline) = [] := by
  unfold commaParser
  cases text.dropWhile (· = newline) with
  | nil => exact iff_of_true rfl rfl
  | cons b rest =>
    obtain ⟨record, behind, ended, hread⟩ := exists_readFields .start [] [] (b :: rest)
    dsimp only
    rw [hread]
    exact iff_of_false (fun heq => by cases heq) (List.cons_ne_nil b rest)

theorem commaParser_record {text rest : Bytes} {record : Fields} {ended : Bool}
    (hread : commaParser text = .record record rest ended) :
    text.dropWhile (· = newline) ≠ [] ∧
      readFields .start [] [] (text.dropWhile (· = newline)) = .record record rest ended := by
  unfold commaParser at hread
  cases hdrop : text.dropWhile (· = newline) with
  | nil =>
    rw [hdrop] at hread
    cases hread
  | cons b behind =>
    rw [hdrop] at hread
    exact ⟨List.cons_ne_nil b behind, hread⟩

theorem lawful_commaParser : commaParser.Lawful newline where
  nil := rfl
  taken := by
    intro text record rest ended hread
    obtain ⟨hne, hfields⟩ := commaParser_record hread
    obtain ⟨⟨before, hbefore, hpos⟩, -⟩ := readFields_taken hfields
    refine ⟨text.takeWhile (· = newline) ++ before, List.append_ne_nil_of_right_ne_nil _ (hpos hne),
      ?_⟩
    rw [List.append_assoc, ← hbefore, List.takeWhile_append_dropWhile]
  separated := by
    intro text record rest hread
    obtain ⟨-, hfields⟩ := commaParser_record hread
    obtain ⟨before, hbefore⟩ := (readFields_taken hfields).2 rfl
    refine ⟨text.takeWhile (· = newline) ++ before, ?_⟩
    rw [List.append_assoc, ← hbefore, List.takeWhile_append_dropWhile]
  ended := by
    intro text record rest hread more
    obtain ⟨hne, hfields⟩ := commaParser_record hread
    have hdrop : (text ++ more).dropWhile (· = newline) =
        text.dropWhile (· = newline) ++ more := by
      rw [List.dropWhile_append, if_neg (by rwa [List.isEmpty_iff])]
    have happend := readFields_append more hfields
    unfold commaParser
    rw [hdrop]
    cases hfirst : text.dropWhile (· = newline) with
    | nil => exact absurd hfirst hne
    | cons b behind =>
      rw [hfirst] at happend
      exact happend
  skipped := by
    intro text hread more
    have hdrop : (text ++ [newline] ++ more).dropWhile (· = newline) =
        more.dropWhile (· = newline) := by
      rw [List.dropWhile_append, if_pos (by rw [List.isEmpty_iff]; exact commaParser_eof.mp hread)]
    unfold commaParser
    rw [hdrop]
  fault := by
    intro text err hread
    unfold commaParser at hread
    split at hread
    next => cases hread
    next b rest _ =>
      obtain ⟨record, behind, ended, hfields⟩ := exists_readFields .start [] [] (b :: rest)
      rw [hfields] at hread
      cases hread

def plainHeader : Bytes := [34, 97, 98, 34, 10, 49, 10]

/-- The record is delivered under the header. -/
theorem plainHeader_delivers : DeliversWhole commaParser .used plainHeader := by
  refine newReader_delivers lawful_commaParser .used plainHeader
    (Utf8.valid_of_all_lt (by decide)) (fun _ => ⟨by decide, ?_, ?_⟩)
    (cutsClosed_small (by decide))
  · exact fun heq => by cases heq
  · exact .record rfl (.eof rfl)

def quotedHeader : Bytes := [34, 97, 10, 98, 34, 10, 49, 10]

/-- The header is cut off at the newline in it, and what is behind that is delivered. -/
theorem quotedHeader_cut : commaParser.Lawful newline ∧ Utf8.valid quotedHeader = true ∧
    ¬ DeliversWhole commaParser .ignored quotedHeader := by
  have hvalid : Utf8.valid quotedHeader = true := Utf8.valid_of_all_lt (by decide)
  refine ⟨lawful_commaParser, hvalid, fun hwhole => ?_⟩
  have hone : commaParser.all [49, 10] = ([["1"]], none) := by
    rw [@RecordReader.Lawful.all_record _ _ _ _ _ _ [] ["1"] true lawful_commaParser rfl,
      lawful_commaParser.all_nil]
  have hall : commaParser.all quotedHeader = ([["a\nb"], ["1"]], none) := by
    rw [@RecordReader.Lawful.all_record _ _ _ _ _ _ [49, 10] ["a\nb"] true lawful_commaParser rfl,
      hone]
  have hbody : commaParser.all [98, 34, 10, 49, 10] = ([["b\""], ["1"]], none) := by
    rw [@RecordReader.Lawful.all_record _ _ _ _ _ _ [49, 10] ["b\""] true lawful_commaParser rfl,
      hone]
  have hheader : readHeader commaParser .ignored quotedHeader =
      .ok (none, [98, 34, 10, 49, 10]) :=
    (readHeader_eq commaParser (by decide) hvalid (by decide)).trans rfl
  obtain ⟨r, hnew, hway⟩ := exists_onTheWay lawful_commaParser hheader
    (Utf8.valid_of_all_lt (by decide)) (cutsClosed_small (by decide))
  unfold DeliversWhole at hwhole
  rw [hnew, hall] at hwhole
  rw [hbody] at hway
  obtain ⟨events, m, -, hanswers⟩ := hway.complete
  obtain ⟨⟨complete, ⟨m', -, hcomplete⟩, more, hprefix⟩, -⟩ := hwhole events
  rw [hanswers, hcomplete] at hprefix
  -- The first records differ.
  have hfirst := Except.ok.inj (List.cons.inj hprefix).1
  exact absurd (congrArg Record.csvRecord hfirst) (by decide)

end Fs3.Select.Csv
