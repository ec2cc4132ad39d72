import Fs3.Select.CsvReader

/-! # The records that the CSV reader delivers

What is still to be delivered is in the block that is being read, in the queue, parsed or not, and
in the blocks that the splitter has not sent. -/

namespace Fs3.Select.Csv

open Foundation

variable {ε : Type} (parser : RecordReader UInt8 Fields ε)

/-- Records with what is answered after them, if that is the end. -/
abbrev Part (ε : Type) := List Fields × Option (CsvErr ε)

def outcome (item : QueueItem ε) : Part ε :=
  if item.dst.isSome then (item.dst.getD [], item.err)
  else ((item.parse parser).dst.getD [], (item.parse parser).err)

def unsent (r : Reader ε) : List (Part ε) :=
  match r.splitter with
  | none => []
  | some (next, ended) =>
    (blocks next ended r.input).map fun block => outcome parser (sent block.1 block.2)

def parts (r : Reader ε) : List (Part ε) :=
  (r.current, r.err) :: (r.queue.map (outcome parser) ++ unsent parser r)

def delivers : List (Part ε) → List Fields × CsvErr ε
  | [] => ([], .eof)
  | (records, some err) :: _ => (records, err)
  | (records, none) :: rest => (records ++ (delivers rest).1, (delivers rest).2)

/-- The records with names for their columns, those of the first where there are none. -/
def named : Option (List String) → List Fields → List Record
  | some columnNames, records => records.map (Record.mk columnNames)
  | none, [] => []
  | none, first :: rest => (first :: rest).map (Record.mk (Reader.numbered first))

variable {parser} {r r' : Reader ε} {item : QueueItem ε}

theorem outcome_of_isSome (hdst : item.dst.isSome = true) :
    outcome parser item = (item.dst.getD [], item.err) := if_pos hdst

theorem parse_dst_isSome : (item.parse parser).dst.isSome = true := by
  unfold QueueItem.parse
  split
  next => rfl
  next => split <;> rfl

theorem outcome_parse (hdst : item.dst.isSome = false) :
    outcome parser (item.parse parser) = outcome parser item := by
  rw [outcome_of_isSome parse_dst_isSome, outcome, if_neg (by rw [hdst]; exact Bool.false_ne_true)]

def partOf (records : List Fields × Option ε) (ended : Bool) : Part ε :=
  (records.1, match records.2 with
    | some err => some (.csvParsing err)
    | none => if ended then some .eof else none)

theorem outcome_sent (hlawful : parser.Lawful newline) (next : Bytes) (ended : Bool) :
    outcome parser (sent next ended) = partOf (parser.all next) ended := by
  rw [outcome, if_neg (by exact Bool.false_ne_true), QueueItem.parse, partOf]
  split
  next hnil =>
    have hnext : next = [] := hnil
    rw [hnext, hlawful.all_nil]
    rfl
  next =>
    rw [show (sent next ended : QueueItem ε).input = next from rfl]
    split
    next records err hall =>
      rw [hall]
      rfl
    next records hall =>
      rw [hall]
      rfl

theorem unsent_split (next : Bytes) (ended : Bool) (hsplitter : r.splitter = some (next, ended)) :
    unsent parser r = outcome parser (sent next ended) :: unsent parser r.split := by
  rw [unsent, hsplitter, Reader.split, hsplitter]
  dsimp only
  cases ended with
  | true =>
    rw [blocks]
    rfl
  | false =>
    rw [blocks]
    rfl

theorem parts_split : parts parser r.split = parts parser r := by
  cases hsplitter : r.splitter with
  | none => rw [Reader.split, hsplitter]
  | some block =>
    obtain ⟨next, ended⟩ := block
    have hkept : r.split.current = r.current ∧ r.split.err = r.err ∧
        r.split.queue = r.queue ++ [sent next ended] := by
      rw [Reader.split, hsplitter]
      dsimp only
      split
      next => exact ⟨rfl, rfl, rfl⟩
      next => exact ⟨rfl, rfl, rfl⟩
    rw [parts, parts, unsent_split next ended hsplitter, hkept.1, hkept.2.1, hkept.2.2,
      List.map_append, List.append_assoc]
    rfl

theorem parts_work (k : Nat) : parts parser (r.work parser k) = parts parser r := by
  rw [Reader.work]
  split
  next => rfl
  next item hitem =>
    split
    next => rfl
    next hdst =>
      have hmap : (r.queue.set k (item.parse parser)).map (outcome parser) =
          r.queue.map (outcome parser) := by
        obtain ⟨hk, hget⟩ := List.getElem?_eq_some_iff.mp hitem
        have hk' : k < (r.queue.map (outcome parser)).length := by rwa [List.length_map]
        have hsame : (r.queue.map (outcome parser))[k] = outcome parser item := by
          rw [List.getElem_map, hget]
        rw [List.map_set, outcome_parse (Bool.eq_false_iff.mpr hdst), ← hsame,
          List.set_getElem_self]
      exact congrArg (fun queue => (r.current, r.err) :: (queue ++ unsent parser r)) hmap

theorem delivers_cons (csvRecord : Fields) (current : List Fields) (err : Option (CsvErr ε))
    (rest : List (Part ε)) :
    delivers ((csvRecord :: current, err) :: rest) =
      (csvRecord :: (delivers ((current, err) :: rest)).1,
        (delivers ((current, err) :: rest)).2) := by
  cases err with
  | none => rfl
  | some err => rfl

/-- What a read answers is the first of what is still to be delivered. -/
structure Answered (parser : RecordReader UInt8 Fields ε) (r r' : Reader ε)
    (due : List Fields × CsvErr ε) (answer : Except (CsvErr ε) Record) : Prop where
  splitter_eq : r'.splitter = r.splitter
  record : ∀ record, answer = .ok record →
    record.columnNames = r.columnNames.getD (Reader.numbered record.csvRecord) ∧
      r'.columnNames = some record.columnNames ∧
      due = (record.csvRecord :: (delivers (parts parser r')).1, (delivers (parts parser r')).2)
  error : ∀ err, answer = .error err →
    r'.columnNames = r.columnNames ∧ due = ([], err) ∧ delivers (parts parser r') = ([], err)

theorem answered_readLoop (parser : RecordReader UInt8 Fields ε) {current : List Fields} {err : Option (CsvErr ε)}
    {queue : List (QueueItem ε)} {answer : Except (CsvErr ε) Record}
    (hread : r.readLoop current err queue = some (answer, r')) :
    Answered parser r r'
        (delivers ((current, err) :: (queue.map (outcome parser) ++ unsent parser r))) answer ∧
      r'.queue <:+ queue := by
  induction current, err, queue using Reader.readLoop.induct with
  | r => exact r
  | case1 csvRecord current err queue =>
    rw [Reader.readLoop] at hread
    cases hread
    refine ⟨⟨rfl, fun record hrecord => ?_, fun e he => by cases he⟩, List.suffix_rfl⟩
    cases hrecord
    exact ⟨rfl, rfl, delivers_cons csvRecord current err _⟩
  | case2 err queue =>
    rw [Reader.readLoop] at hread
    cases hread
    refine ⟨⟨rfl, (fun record hrecord => by cases hrecord), fun e he => ?_⟩, List.suffix_rfl⟩
    cases he
    exact ⟨rfl, rfl, rfl⟩
  | case3 hsplitter =>
    rw [Reader.readLoop, hsplitter] at hread
    cases hread
    refine ⟨⟨hsplitter.symm, (fun record hrecord => by cases hrecord), fun e he => ?_⟩,
      List.suffix_rfl⟩
    cases he
    refine ⟨rfl, ?_, rfl⟩
    rw [unsent, hsplitter]
    rfl
  | case4 block hsplitter =>
    rw [Reader.readLoop, hsplitter] at hread
    cases hread
  | case5 item queue hdst =>
    rw [Reader.readLoop, hdst] at hread
    cases hread
  | case6 item queue current hdst ih =>
    rw [Reader.readLoop, hdst] at hread
    obtain ⟨hanswered, hsuffix⟩ := ih hread
    refine ⟨?_, hsuffix.trans (List.suffix_cons item queue)⟩
    have hitem : outcome parser item = (current, item.err) := by
      rw [outcome_of_isSome (by rw [hdst]; rfl), hdst]
      rfl
    rw [List.map_cons, hitem]
    exact hanswered

/-! ## Whole sessions -/

/-- What a session answers in the end: some records with names, and then only errors. -/
def Complete (records : List Record) (err : CsvErr ε) (answers : List (Except (CsvErr ε) Record)) :
    Prop := ∃ m, 0 < m ∧ answers = records.map .ok ++ List.replicate m (.error err)

/-- A session is on its way: what was answered and what is to be delivered are the records. -/
structure OnTheWay (parser : RecordReader UInt8 Fields ε) (records : List Record)
    (err : CsvErr ε) (s : Session ε) : Prop where
  ends : (delivers (parts parser s.1)).2 = err
  answers : ∃ before m, s.2 = before.map .ok ++ List.replicate m (.error err) ∧
    before ++ named s.1.columnNames (delivers (parts parser s.1)).1 = records ∧
    (0 < m → (delivers (parts parser s.1)).1 = [])

variable {records : List Record} {err : CsvErr ε} {s : Session ε}

theorem named_cons (columnNames : Option (List String)) (first : Fields) (rest : List Fields) :
    named columnNames (first :: rest) =
      ⟨columnNames.getD (Reader.numbered first), first⟩ ::
        named (some (columnNames.getD (Reader.numbered first))) rest := by
  cases columnNames with
  | none => rfl
  | some names => rfl

theorem named_nil (columnNames : Option (List String)) : named columnNames [] = [] := by
  cases columnNames <;> rfl

theorem OnTheWay.step (hway : OnTheWay parser records err s) (event : Event) :
    OnTheWay parser records err (step parser s event) := by
  cases event with
  | split =>
    have hnames : s.1.split.columnNames = s.1.columnNames := by
      unfold Reader.split
      split
      next => rfl
      next => split <;> rfl
    refine ⟨?_, ?_⟩
    · exact (congrArg (fun p => (delivers p).2) parts_split).trans hway.ends
    · simp only [Csv.step, parts_split, hnames]
      exact hway.answers
  | work k =>
    have hnames : (s.1.work parser k).columnNames = s.1.columnNames := by
      unfold Reader.work
      split
      next => rfl
      next => split <;> rfl
    refine ⟨?_, ?_⟩
    · exact (congrArg (fun p => (delivers p).2) (parts_work k)).trans hway.ends
    · simp only [Csv.step, parts_work, hnames]
      exact hway.answers
  | read =>
    rw [Csv.step]
    cases hread : s.1.read with
    | none => exact hway
    | some out =>
      obtain ⟨answer, r'⟩ := out
      obtain ⟨hanswered, -⟩ := answered_readLoop parser hread
      obtain ⟨before, m, hanswers, hrecords, hdone⟩ := hway.answers
      cases answer with
      | ok record =>
        obtain ⟨hnames, hnames', hdue⟩ := hanswered.record record rfl
        have hdue' : delivers (parts parser s.1) = _ := hdue
        have hm : m = 0 := by
          by_contra hpos
          have hnil := hdone (Nat.pos_of_ne_zero hpos)
          rw [hdue'] at hnil
          cases hnil
        refine ⟨?_, before ++ [record], 0, ?_, ?_, fun h => absurd h (Nat.lt_irrefl 0)⟩
        · rw [← hway.ends, hdue']
        · dsimp only
          rw [hanswers, hm, List.map_append, List.replicate_zero, List.append_nil,
            List.append_nil]
          rfl
        · have hrecord : record =
              ⟨s.1.columnNames.getD (Reader.numbered record.csvRecord), record.csvRecord⟩ := by
            rw [← hnames]
          rw [hdue', named_cons, ← hrecord, ← hnames, ← hnames'] at hrecords
          rw [List.append_assoc]
          exact hrecords
      | error e =>
        obtain ⟨hnames, hdue, hafter⟩ := hanswered.error e rfl
        have hdue' : delivers (parts parser s.1) = ([], e) := hdue
        have he : e = err := by rw [← hway.ends, hdue']
        subst he
        refine ⟨by rw [hafter], before, m + 1, ?_, ?_, fun _ => by rw [hafter]⟩
        · dsimp only
          rw [hanswers, List.append_assoc, List.replicate_succ']
        · dsimp only
          rw [hdue', named_nil] at hrecords
          rw [hafter, named_nil, hrecords]

theorem OnTheWay.after (hway : OnTheWay parser records err s) (events : List Event) :
    OnTheWay parser records err (after parser s events) := by
  induction events generalizing s with
  | nil => exact hway
  | cons event events ih => exact ih (hway.step event)

theorem OnTheWay.isPrefix (hway : OnTheWay parser records err s) :
    ∃ complete, Complete records err complete ∧ s.2 <+: complete := by
  obtain ⟨before, m, hanswers, hrecords, hdone⟩ := hway.answers
  cases m with
  | zero =>
    refine ⟨_, ⟨1, Nat.one_pos, rfl⟩, ?_⟩
    rw [hanswers, ← hrecords, List.map_append, List.replicate_zero, List.append_nil,
      List.append_assoc]
    exact List.prefix_append _ _
  | succ m =>
    refine ⟨s.2, ⟨m + 1, Nat.succ_pos m, ?_⟩, List.prefix_rfl⟩
    rw [hdone (Nat.succ_pos m), named_nil, List.append_nil] at hrecords
    rw [hanswers, hrecords]

/-! ### Sessions come to their end -/

/-- Nothing is left for the splitter or a worker to do. -/
structure Settled (r : Reader ε) : Prop where
  exited : r.splitter = none
  parsed : ∀ item ∈ r.queue, item.dst.isSome = true

theorem after_append (s : Session ε) (events events' : List Event) :
    after parser s (events ++ events') = after parser (after parser s events) events' :=
  List.foldl_append

theorem exists_exited (parser : RecordReader UInt8 Fields ε) (s : Session ε) :
    ∃ events, (after parser s events).1.splitter = none := by
  induction hlength : (unsent parser s.1).length generalizing s with
  | zero =>
    refine ⟨[], ?_⟩
    cases hsplitter : s.1.splitter with
    | none => exact hsplitter
    | some block =>
      rw [unsent_split block.1 block.2 hsplitter] at hlength
      cases hlength
  | succ n ih =>
    cases hsplitter : s.1.splitter with
    | none => exact ⟨[], hsplitter⟩
    | some block =>
      rw [unsent_split block.1 block.2 hsplitter, List.length_cons,
        Nat.add_right_cancel_iff] at hlength
      obtain ⟨events, hexited⟩ := ih (step parser s .split) hlength
      exact ⟨.split :: events, hexited⟩

theorem exists_settled (parser : RecordReader UInt8 Fields ε) (s : Session ε) (hexited : s.1.splitter = none) :
    ∃ events, Settled (after parser s events).1 := by
  induction hcount : s.1.queue.countP (fun item => item.dst.isNone) generalizing s with
  | zero =>
    refine ⟨[], hexited, fun item hitem => ?_⟩
    have hparsed := List.countP_eq_zero.mp hcount item hitem
    exact Option.isNone_eq_false_iff.mp (Bool.eq_false_iff.mpr hparsed)
  | succ n ih =>
    have hpos : 0 < s.1.queue.countP (fun item => item.dst.isNone) := by omega
    obtain ⟨item, hitem, hnone⟩ := List.countP_pos_iff.mp hpos
    obtain ⟨k, hk, hget⟩ := List.getElem_of_mem hitem
    have hdst : ¬ item.dst.isSome = true := by rw [Option.isNone_iff_eq_none.mp hnone]; simp
    have hwork : s.1.work parser k = { s.1 with queue := s.1.queue.set k (item.parse parser) } := by
      rw [Reader.work, List.getElem?_eq_some_iff.mpr ⟨hk, hget⟩]
      exact if_neg hdst
    obtain ⟨events, hsettled⟩ := ih (step parser s (.work k)) (by
      rw [step, hwork]
      exact hexited) (by
      rw [step, hwork]
      dsimp only
      rw [List.countP_set hk, hget, if_pos hnone, hcount, if_neg]
      · rfl
      · exact Bool.eq_false_iff.mp (Option.isNone_eq_false_iff.mpr parse_dst_isSome))
    exact ⟨.work k :: events, hsettled⟩

theorem readLoop_ne_none (hexited : r.splitter = none) {current : List Fields}
    {err : Option (CsvErr ε)} {queue : List (QueueItem ε)}
    (hparsed : ∀ item ∈ queue, item.dst.isSome = true) :
    r.readLoop current err queue ≠ none := by
  induction current, err, queue using Reader.readLoop.induct with
  | r => exact r
  | case1 => rw [Reader.readLoop]; exact Option.some_ne_none _
  | case2 => rw [Reader.readLoop]; exact Option.some_ne_none _
  | case3 => rw [Reader.readLoop, hexited]; exact Option.some_ne_none _
  | case4 block hsplitter =>
    rw [hexited] at hsplitter
    cases hsplitter
  | case5 item queue hdst =>
    have hsome := hparsed item List.mem_cons_self
    rw [hdst] at hsome
    cases hsome
  | case6 item queue current hdst ih =>
    rw [Reader.readLoop, hdst]
    exact ih fun other hother => hparsed other (List.mem_cons_of_mem item hother)

/-- Then reads deliver what is left, and the end. -/
theorem exists_complete (hway : OnTheWay parser records err s) (hsettled : Settled s.1) :
    ∃ events, Complete records err (after parser s events).2 := by
  induction hlength : (delivers (parts parser s.1)).1.length using Nat.strongRecOn
    generalizing s with
  | _ length ih =>
    subst hlength
    obtain ⟨⟨answer, r'⟩, hread⟩ :=
      Option.ne_none_iff_exists'.mp (readLoop_ne_none hsettled.exited hsettled.parsed)
    obtain ⟨hanswered, hsuffix⟩ := answered_readLoop parser hread
    have hstep : step parser s .read = (r', s.2 ++ [answer]) := by
      rw [step, Reader.read, hread]
    have hway' := hway.step .read
    have hsettled' : Settled (step parser s .read).1 := by
      rw [hstep]
      exact ⟨hanswered.splitter_eq.trans hsettled.exited,
        fun item hitem => hsettled.parsed item (hsuffix.subset hitem)⟩
    cases answer with
    | ok record =>
      obtain ⟨-, -, hdue⟩ := hanswered.record record rfl
      have hdue' : delivers (parts parser s.1) = _ := hdue
      obtain ⟨events, hcomplete⟩ := ih _ (by
        rw [hstep, hdue']
        exact Nat.lt_succ_self _) hway' hsettled' rfl
      exact ⟨.read :: events, hcomplete⟩
    | error e =>
      refine ⟨[.read], ?_⟩
      obtain ⟨-, hdue, -⟩ := hanswered.error e rfl
      have hdue' : delivers (parts parser s.1) = ([], e) := hdue
      have he : e = err := by rw [← hway.ends, hdue']
      obtain ⟨before, m, hanswers, hrecords, -⟩ := hway.answers
      rw [hdue', named_nil, List.append_nil] at hrecords
      refine ⟨m + 1, Nat.succ_pos m, ?_⟩
      rw [after, List.foldl_cons, List.foldl_nil, hstep]
      dsimp only
      rw [hanswers, hrecords, he, List.append_assoc, List.replicate_succ']

theorem OnTheWay.complete (hway : OnTheWay parser records err s) :
    ∃ events, Complete records err (Csv.after parser s events).2 := by
  obtain ⟨sends, hexited⟩ := exists_exited parser s
  obtain ⟨works, hsettled⟩ := exists_settled parser (Csv.after parser s sends) hexited
  obtain ⟨reads, hcomplete⟩ := exists_complete ((hway.after sends).after works) hsettled
  refine ⟨sends ++ works ++ reads, ?_⟩
  rw [after_append, after_append]
  exact hcomplete

def finalErr : Option ε → CsvErr ε
  | some err => .csvParsing err
  | none => .eof

def blocksOf (input : Bytes) : List (Bytes × Bool) :=
  blocks (nextSplit csvSplitSize input).1 (nextSplit csvSplitSize input).2.2
    (nextSplit csvSplitSize input).2.1

theorem blocksOf_small {input : Bytes} (hsmall : input.length < csvSplitSize) :
    blocksOf input = [(input, true)] := by
  have hsplit : nextSplit csvSplitSize input = (input, [], true) := by
    rw [nextSplit, if_pos (by decide)]
    by_cases hnil : input = []
    · rw [if_pos hnil, hnil]
    · rw [if_neg hnil, if_pos hsmall]
  rw [blocksOf, hsplit, blocks]
  rfl

def CutsClosed (parser : RecordReader UInt8 Fields ε) (input : Bytes) : Prop :=
  ∀ block ∈ blocksOf input, block.2 = false → parser.Closed block.1

theorem cutsClosed_small {input : Bytes} (hsmall : input.length < csvSplitSize) :
    CutsClosed parser input := by
  intro block hblock hlast
  rw [blocksOf_small hsmall, List.mem_singleton] at hblock
  rw [hblock] at hlast
  cases hlast

theorem delivers_blocks (hlawful : parser.Lawful newline) {next input : Bytes} {ended : Bool}
    (hended : ended = true → input = []) (hnext : ended = false → Terminated newline next)
    (hclosed : ∀ block ∈ blocks next ended input, block.2 = false → parser.Closed block.1) :
    delivers ((blocks next ended input).map fun block => outcome parser (sent block.1 block.2)) =
      ((parser.all (next ++ input)).1, finalErr (parser.all (next ++ input)).2) := by
  induction next, ended, input using blocks.induct with
  | case1 next input =>
    rw [blocks, if_pos rfl, hended rfl, List.append_nil, List.map_singleton,
      outcome_sent hlawful, partOf]
    cases (parser.all next).2 with
    | some err => rfl
    | none => rfl
  | case2 next ended input hlast ih =>
    rw [Bool.not_eq_true] at hlast
    subst hlast
    rw [blocks, if_neg Bool.false_ne_true] at hclosed ⊢
    obtain ⟨happend, hended', hnext'⟩ := nextSplit_append csvSplitSize input
    have hrest := ih hended' (fun h => (hnext' h).1) fun block hblock =>
      hclosed block (List.mem_cons_of_mem _ hblock)
    rw [happend] at hrest
    rw [List.map_cons, outcome_sent hlawful,
      hlawful.all_append (hclosed _ List.mem_cons_self rfl) (hnext rfl) input, partOf,
      RecordReader.joined]
    cases (parser.all next).2 with
    | some err => rfl
    | none =>
      dsimp only
      rw [if_neg Bool.false_ne_true, delivers, hrest]

end Fs3.Select.Csv
