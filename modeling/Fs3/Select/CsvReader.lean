import Fs3.Foundation.Reading
import Fs3.Foundation.Utf8
import Fs3.Runtime.Text

/-! # The CSV reader of a query

The input is cut behind the first newline after so many bytes. -/

namespace Fs3.Select.Csv

open Foundation

def newline : UInt8 := 10

/-- `FileHeaderInfo` of the arguments. -/
inductive FileHeaderInfo where
  | none
  | used
  | ignored
  deriving DecidableEq

/-- What a read ends with; `ε` is what the parser finds fault with. -/
inductive CsvErr (ε : Type) where
  | eof
  | invalidTextEncoding
  | csvParsing (err : ε)

/-- The fields of a record as the parser has them. -/
abbrev Fields := List String

/-- A record with the names of its columns. -/
structure Record where
  columnNames : List String
  csvRecord : Fields
  deriving DecidableEq

/-- `ReadBytes` up to a newline, with what is left and whether the input ended before it. -/
def readBytes : Bytes → Bytes × Bytes × Bool
  | [] => ([], [], true)
  | b :: input =>
    if b = newline then ([b], input, false)
    else
      match readBytes input with
      | (line, rest, ended) => (b :: line, rest, ended)

/-- `nextSplit`: so many bytes and what is before the next newline, with what is left, and
whether the input ended. -/
def nextSplit (skip : Nat) (input : Bytes) : Bytes × Bytes × Bool :=
  if 0 < skip then
    if input = [] then ([], [], true)
    else if input.length < skip then (input, [], true)
    else
      match readBytes (input.drop skip) with
      | (line, rest, ended) => (input.take skip ++ line, rest, ended)
  else readBytes input

def csvSplitSize : Nat := 128 * 1024

/-- A block in the queue, with its records once a worker has parsed it. -/
structure QueueItem (ε : Type) where
  input : Bytes
  dst : Option (List Fields)
  err : Option (CsvErr ε)

/-- `Reader`. -/
structure Reader (ε : Type) where
  columnNames : Option (List String)
  splitter : Option (Bytes × Bool)
  input : Bytes
  queue : List (QueueItem ε)
  current : List Fields
  err : Option (CsvErr ε)

variable {ε : Type} (parser : RecordReader UInt8 Fields ε)

/-- The header of `startReaders`: the names of the columns, and the input behind it. -/
def readHeader (mode : FileHeaderInfo) (input : Bytes) :
    Except (CsvErr ε) (Option (List String) × Bytes) :=
  if mode ≠ .none then
    match nextSplit 0 input with
    | (line, rest, ended) =>
      if ended then .error .eof
      else if !Utf8.valid line then .error .invalidTextEncoding
      else
        match parser line with
        | .eof => .error .eof
        | .fault err => .error (.csvParsing err)
        | .record fields _ _ => .ok (if mode = .used then some fields else none, rest)
  else .ok (none, input)

/-- `NewReader`, up to where the splitter and the workers are started. -/
def newReader (mode : FileHeaderInfo) (input : Bytes) : Except (CsvErr ε) (Reader ε) :=
  match readHeader parser mode input with
  | .error err => .error err
  | .ok (columnNames, input) =>
    match nextSplit csvSplitSize input with
    | (next, rest, ended) =>
      if !Utf8.valid next then .error .invalidTextEncoding
      else .ok ⟨columnNames, some (next, ended), rest, [], [], none⟩

def QueueItem.parse (item : QueueItem ε) : QueueItem ε :=
  if item.input = [] then { item with dst := some [] }
  else
    match parser.all item.input with
    | (all, some err) => { item with dst := some all, err := some (.csvParsing err) }
    | (all, none) => { item with dst := some all }

def sent (next : Bytes) (ended : Bool) : QueueItem ε :=
  ⟨next, none, if ended then some .eof else none⟩

namespace Reader

def split (r : Reader ε) : Reader ε :=
  match r.splitter with
  | none => r
  | some (next, ended) =>
    if ended then { r with splitter := none, queue := r.queue ++ [sent next ended] }
    else
      match nextSplit csvSplitSize r.input with
      | (next', rest, ended') =>
        { r with
          splitter := some (next', ended')
          input := rest
          queue := r.queue ++ [sent next ended] }

def work (r : Reader ε) (k : Nat) : Reader ε :=
  match r.queue[k]? with
  | none => r
  | some item =>
    if item.dst.isSome then r else { r with queue := r.queue.set k (item.parse parser) }

def numbered (fields : Fields) : List String :=
  (List.range fields.length).map fun i => "_" ++ toString (i + 1)

/-- The loop of `Read`: the next record, or the next block in the queue. -/
def readLoop (r : Reader ε) : List Fields → Option (CsvErr ε) → List (QueueItem ε) →
    Option (Except (CsvErr ε) Record × Reader ε)
  | csvRecord :: current, err, queue =>
    let columnNames := r.columnNames.getD (numbered csvRecord)
    some (.ok ⟨columnNames, csvRecord⟩,
      { r with columnNames := some columnNames, current := current, err := err, queue := queue })
  | [], some err, queue =>
    some (.error err, { r with current := [], err := some err, queue := queue })
  | [], none, [] =>
    match r.splitter with
    | none => some (.error .eof, { r with current := [], err := some .eof, queue := [] })
    | some _ => none
  | [], none, item :: queue =>
    match item.dst with
    | none => none
    | some current => readLoop r current item.err queue

def read (r : Reader ε) : Option (Except (CsvErr ε) Record × Reader ε) :=
  r.readLoop r.current r.err r.queue

end Reader

/-- What can happen next: the splitter sends, a worker is done, or a record is asked for. -/
inductive Event where
  | split
  | work (k : Nat)
  | read

/-- A reader with the answers that were given so far. -/
abbrev Session (ε : Type) := Reader ε × List (Except (CsvErr ε) Record)

def step (s : Session ε) : Event → Session ε
  | .split => (s.1.split, s.2)
  | .work k => (s.1.work parser k, s.2)
  | .read =>
    match s.1.read with
    | none => s
    | some (answer, r) => (r, s.2 ++ [answer])

def after (s : Session ε) (events : List Event) : Session ε := events.foldl (step parser) s

/-! ## The blocks of the input -/

variable {parser} {input line rest next : Bytes} {skip : Nat} {ended : Bool}

theorem readBytes_spec (hread : readBytes input = (line, rest, ended)) :
    line ++ rest = input ∧ (ended = true → rest = []) ∧
      (ended = false → ∃ before, newline ∉ before ∧ line = before ++ [newline]) := by
  induction input generalizing line with
  | nil =>
    cases hread
    exact ⟨rfl, fun _ => rfl, fun hended => by cases hended⟩
  | cons b input ih =>
    rw [readBytes] at hread
    split at hread
    next hb =>
      cases hread
      refine ⟨rfl, (fun hended => by cases hended), fun _ => ⟨[], List.not_mem_nil, ?_⟩⟩
      rw [hb]
      rfl
    next hb =>
      cases hrest : readBytes input with
      | mk line' out =>
        rw [hrest] at hread
        cases hread
        obtain ⟨happend, hdone, hline⟩ := ih hrest
        refine ⟨by rw [List.cons_append, happend], hdone, fun hended => ?_⟩
        obtain ⟨before, hbefore, rfl⟩ := hline hended
        refine ⟨b :: before, ?_, rfl⟩
        rw [List.mem_cons, not_or]
        exact ⟨Ne.symm hb, hbefore⟩

theorem nextSplit_spec (hsplit : nextSplit skip input = (next, rest, ended)) :
    next ++ rest = input ∧ (ended = true → rest = []) ∧
      (ended = false → Terminated newline next ∧ next ≠ []) := by
  unfold nextSplit at hsplit
  split at hsplit
  next =>
    split at hsplit
    next hnil =>
      cases hsplit
      exact ⟨hnil.symm, fun _ => rfl, fun hended => by cases hended⟩
    next =>
      split at hsplit
      next =>
        cases hsplit
        exact ⟨List.append_nil _, fun _ => rfl, fun hended => by cases hended⟩
      next =>
        cases hread : readBytes (input.drop skip) with
        | mk line out =>
          rw [hread] at hsplit
          cases hsplit
          obtain ⟨happend, hdone, hline⟩ := readBytes_spec hread
          refine ⟨?_, hdone, fun hended => ?_⟩
          · rw [List.append_assoc, happend, List.take_append_drop]
          · obtain ⟨before, -, rfl⟩ := hline hended
            rw [← List.append_assoc]
            exact ⟨Or.inr ⟨_, rfl⟩, List.append_ne_nil_of_right_ne_nil _ (List.cons_ne_nil _ _)⟩
  next =>
    obtain ⟨happend, hdone, hline⟩ := readBytes_spec hsplit
    refine ⟨happend, hdone, fun hended => ?_⟩
    obtain ⟨before, -, rfl⟩ := hline hended
    exact ⟨Or.inr ⟨_, rfl⟩, List.append_ne_nil_of_right_ne_nil _ (List.cons_ne_nil _ _)⟩

theorem nextSplit_append (skip : Nat) (input : Bytes) :
    (nextSplit skip input).1 ++ (nextSplit skip input).2.1 = input ∧
      ((nextSplit skip input).2.2 = true → (nextSplit skip input).2.1 = []) ∧
      ((nextSplit skip input).2.2 = false →
        Terminated newline (nextSplit skip input).1 ∧ (nextSplit skip input).1 ≠ []) :=
  @nextSplit_spec input (nextSplit skip input).2.1 (nextSplit skip input).1 skip
    (nextSplit skip input).2.2 rfl

theorem length_nextSplit (hsplit : nextSplit skip input = (next, rest, false)) :
    rest.length < input.length := by
  obtain ⟨rfl, -, hnext⟩ := nextSplit_spec hsplit
  rw [List.length_append]
  have := List.length_pos_of_ne_nil (hnext rfl).2
  omega

def blocks (next : Bytes) (ended : Bool) (input : Bytes) : List (Bytes × Bool) :=
  if ended then [(next, true)]
  else (next, false) :: blocks (nextSplit csvSplitSize input).1
    (nextSplit csvSplitSize input).2.2 (nextSplit csvSplitSize input).2.1
termination_by if ended then 0 else input.length + 1
decreasing_by
  rename_i hended
  rw [if_neg hended]
  split
  next => exact Nat.succ_pos _
  next hnext =>
    rw [Bool.not_eq_true] at hnext
    exact Nat.succ_lt_succ (length_nextSplit (Prod.ext rfl (Prod.ext rfl hnext)))

end Fs3.Select.Csv
