import Mathlib.Data.List.Basic

/-! # Records and SELECT statements

A record is read, maybe taken apart by the path of the FROM clause, and evaluated into an output
record that may have been used before. Values are what the expressions compute; only what a record
makes of them is modelled. -/

namespace Fs3.Select

/-- What is read from JSON, and what a JSON record keeps. -/
inductive Json where
  | null
  | bool (b : Bool)
  | number (text : String)
  | str (text : String)
  | raw (text : String)
  | arr (elems : List Json)
  | obj (kvs : List (String × Json))

/-- The errors that end the evaluation. -/
inductive Err where
  | errKeyLookup
  | errIndexLookup
  | errWildcardObjectLookup
  | errWildcardArrayLookup
  | errWilcardObjectUsageInvalid
  /-- path not supported -/
  | pathNotSupported
  /-- unexpected non JSON input -/
  | nonJSONInput
  /-- cannot replace internal data -/
  | cannotReplace
  /-- Replace is not supported for CSV -/
  | replaceCSV
  /-- unsupported sql value -/
  | unsupportedValue
  /-- WHERE expression did not return bool -/
  | whereNotBool
  /-- Any other error: of an expression, of the input or of the output. -/
  | other (text : String)
  deriving DecidableEq

/-- `JSONPathElement`. -/
inductive PathElement where
  | key (key : String)
  | index (idx : Nat)
  | objectWildcard
  | arrayWildcard

/-- `jsonpathEval`: the value at a path, and whether an array is to be taken apart. -/
def jsonpathEval : List PathElement → Json → Except Err (Json × Bool)
  | [], v => .ok (v, false)
  | _ :: _, .null => .ok (.null, false)
  | .key key :: p, .obj kvs =>
    match kvs.find? fun kv => kv.1 = key with
    | some kv => jsonpathEval p kv.2
    | none => .ok (.null, false)
  | .key _ :: _, _ => .error .errKeyLookup
  | .index idx :: p, .arr elems =>
    match elems[idx]? with
    | some v => jsonpathEval p v
    | none => .ok (.null, false)
  | .index _ :: _, _ => .error .errIndexLookup
  | .objectWildcard :: p, .obj kvs =>
    if 0 < p.length then .error .errWilcardObjectUsageInvalid else .ok (.obj kvs, false)
  | .objectWildcard :: _, _ => .error .errWildcardObjectLookup
  | .arrayWildcard :: p, .arr elems => do
      let results ← elems.mapM (jsonpathEval p)
      .ok (.arr (results.flatMap fun result =>
        match result with
        | (.arr inner, true) => inner
        | (rval, _) => [rval]), true)
  | .arrayWildcard :: _, _ => .error .errWildcardArrayLookup

inductive SelectObjectFormat where
  | unknown
  | csv
  | json
  | simdjson
  | parquet
  deriving DecidableEq

/-- `csv.Record`, `json.Record` and `simdj.Record`. -/
inductive Record where
  | csv (columnNames csvRecord : List String) (nameIndexMap : List (String × Nat))
  | json (kvs : List (String × Json)) (selectFormat : SelectObjectFormat)
  | simdj (object : List (String × Json))

/-- What a record is written from. -/
inductive Content where
  | csv (columnNames csvRecord : List String)
  | json (kvs : List (String × Json))
  | simdj (object : List (String × Json))

/-- What values are turned into. -/
structure Values (V : Type) where
  /-- `Value.CSVString`. -/
  csvString : V → String
  /-- What `json.Record.Set` keeps, if it can. -/
  jsonValue : V → Option Json
  /-- `Value.ToBool`. -/
  toBool : V → Option Bool
  /-- The value that wraps what a path leads to. -/
  ofJson : Json → V

namespace Record

/-- `Record.WriteCSV` and `Record.WriteJSON` look at nothing else. -/
def content : Record → Content
  | csv columnNames csvRecord _ => .csv columnNames csvRecord
  | json kvs _ => .json kvs
  | simdj object => .simdj object

def reset : Record → Record
  | csv _ _ _ => csv [] [] []
  | json _ selectFormat => json [] selectFormat
  | simdj _ => simdj []

/-- `Record.Clone`: the destination is used if it has the type of the record. -/
def clone : Record → Option Record → Record
  | csv columnNames csvRecord _, some (csv _ _ nameIndexMap) =>
    csv columnNames csvRecord nameIndexMap
  | csv columnNames csvRecord _, _ => csv columnNames csvRecord []
  | json kvs _, some (json _ selectFormat) => json kvs selectFormat
  | json kvs _, _ => json kvs .unknown
  | simdj object, _ => simdj object

/-- `Record.Replace`. -/
def replace : Record → Json → Except Err Record
  | csv _ _ _, _ => .error .replaceCSV
  | json _ selectFormat, .obj kvs => .ok (json kvs selectFormat)
  | simdj _, .obj kvs => .ok (simdj kvs)
  | _, _ => .error .cannotReplace

variable {V : Type} (values : Values V)

/-- `json.Record.Set`. -/
def setJson (kvs : List (String × Json)) (selectFormat : SelectObjectFormat) (name : String)
    (value : V) : Except Err Record :=
  match values.jsonValue value with
  | none => .error .unsupportedValue
  | some v => .ok (json (kvs ++ [(name.replace "*" "__ALL__", v)]) selectFormat)

/-- `Record.Set`. -/
def set : Record → String → V → Except Err Record
  | csv columnNames csvRecord nameIndexMap, name, value =>
    .ok (csv (columnNames ++ [name]) (csvRecord ++ [values.csvString value]) nameIndexMap)
  | json kvs selectFormat, name, value => setJson values kvs selectFormat name value
  | simdj object, name, value => setJson values object .json name value

end Record

/-! ## Statements -/

/-- An expression of the select list: `As`, the last component if it is a path, and how
it evaluates. -/
structure SelectExpr (V : Type) where
  as_ : String := ""
  lastKeypathComponent : Option String := none
  evalNode : Record → Except Err V

/-- `SelectStatement`, of a query that is no aggregation. -/
structure SelectStatement (V : Type) where
  /-- `From.Table.PathExpr`. -/
  pathExpr : List PathElement := []
  where_ : Option (Record → Except Err V) := none
  /-- `Expression.All`. -/
  all : Bool := false
  expressions : List (SelectExpr V) := []
  /-- What `parseLimit` returns, `none` for -1. -/
  limitValue : Option Nat := none

namespace SelectStatement

variable {V : Type} (values : Values V) (e : SelectStatement V)

/-- What `EvalFrom` makes of the elements of an array, for each a clone of the input. -/
def evalElems (input : Record) (elems : List Json) : Except Err (List Record) :=
  elems.mapM fun val => (input.clone none).replace val

/-- `EvalFrom`; `isJSON` is whether the format is that of JSON. -/
def evalFrom (isJSON : Bool) (input : Record) : Except Err (List Record) :=
  if ¬ 1 < e.pathExpr.length then .ok [input]
  else if ¬ isJSON then .error .pathNotSupported
  else
    match input with
    | .csv _ _ _ => .error .nonJSONInput
    | .json kvs _ => do
        let (txedRec, _) ← jsonpathEval (e.pathExpr.drop 1) (.obj kvs)
        match txedRec with
        | .obj kvs => .ok [← input.replace (.obj kvs)]
        | .arr elems => evalElems input elems
        | v => .ok [← input.replace (.obj [("_1", v)])]
    | .simdj object => do
        let (txedRec, _) ← jsonpathEval (e.pathExpr.drop 1) (.obj object)
        match txedRec with
        | .obj kvs => .ok [← input.replace (.obj kvs)]
        | .arr elems => evalElems input elems
        | v => .ok [← input.reset.set values "_1" (values.ofJson v)]

/-- `isPassingWhereClause`. -/
def isPassingWhereClause (input : Record) : Except Err Bool :=
  match e.where_ with
  | none => .ok true
  | some evalNode =>
    match evalNode input with
    | .error err => .error err
    | .ok value =>
      match values.toBool value with
      | none => .error .whereNotBool
      | some b => .ok b

def columnName (i : Nat) (expr : SelectExpr V) : String :=
  if expr.as_ ≠ "" then expr.as_
  else
    match expr.lastKeypathComponent with
    | some comp => comp
    | none => "_" ++ toString (i + 1)

/-- The loop of `Eval` over the expressions. -/
def evalExpressions (input : Record) : Nat → List (SelectExpr V) → Record → Except Err Record
  | _, [], output => .ok output
  | i, expr :: rest, output =>
    match expr.evalNode input with
    | .error err => .error err
    | .ok v =>
      match output.set values (columnName i expr) v with
      | .error err => .error err
      | .ok output => evalExpressions input (i + 1) rest output

/-- `Eval`: no record if the input does not pass the WHERE clause. -/
def eval (input output : Record) : Except Err (Option Record) :=
  match e.isPassingWhereClause values input with
  | .error err => .error err
  | .ok false => .ok none
  | .ok true =>
    if e.all then .ok (some (input.clone (some output)))
    else
      match evalExpressions values input 0 e.expressions output with
      | .error err => .error err
      | .ok output => .ok (some output)

/-- `LimitReached`. -/
def limitReached (outputCount : Nat) : Bool :=
  match e.limitValue with
  | none => false
  | some n => n ≤ outputCount

end SelectStatement

end Fs3.Select

/-! ## The loop over the input records

`Evaluate` reads records, evaluates them into a queue whose slots are used again and
again, and sends the queue when it is full and at the end.
-/

namespace Fs3.Select

inductive OutputFormat where
  | csv
  | json
  deriving DecidableEq

/-- `S3Select.outputRecord`. -/
def outputRecord : OutputFormat → Record
  | .csv => .csv [] [] []
  | .json => .json [] .json

def maxRecordSize : Nat := 1024 * 1024

def queueCapacity : Nat := 100

/-- How the evaluation ends. -/
inductive Ending where
  /-- `writer.Finish` has been called. -/
  | finished
  /-- InternalError -/
  | internalError (err : Err)
  | overMaxRecordSize
  /-- A message could not be sent. -/
  | sendFailed
  /-- An index out of range. -/
  | panicked
  deriving DecidableEq

/-- What `Evaluate` is given: the statement, the formats, the writing of a record, which
messages can be sent, and the error after the last input record, if it is not `io.EOF`. -/
structure S3Select (V : Type) where
  values : Values V
  statement : SelectStatement V
  isJSON : Bool := false
  outputFormat : OutputFormat
  readErr : Option Err := none
  /-- How long a record gets. -/
  marshal : Content → Except Err Nat
  sendRecord : Nat → Bool

/-- The state of the loop: the slots up to the capacity of the queue, how many are in
use, the count of the statement, and the messages that have been sent. -/
structure LoopState where
  slots : List (Option Record)
  used : Nat := 0
  outputCount : Nat := 0
  messages : List (List Content) := []

namespace S3Select

variable {V : Type} (s3Select : S3Select V)

/-- The loop of `sendRecord` over the queue. -/
def marshalQueue : List (Option Record) → Except Ending (List Content)
  | [] => .ok []
  | none :: rest => marshalQueue rest
  | some outputRecord :: rest =>
    match s3Select.marshal outputRecord.content with
    | .error err => .error (.internalError err)
    | .ok length =>
      if maxRecordSize < length then .error .overMaxRecordSize
      else
        match marshalQueue rest with
        | .error ending => .error ending
        | .ok contents => .ok (outputRecord.content :: contents)

/-- `sendRecord` -/
def sendQueue (state : LoopState) : Except Ending LoopState :=
  match s3Select.marshalQueue (state.slots.take state.used) with
  | .error ending => .error ending
  | .ok contents =>
    if s3Select.sendRecord state.messages.length then
      .ok { state with used := 0, messages := state.messages ++ [contents] }
    else .error .sendFailed

def slotRecord : Option Record → Record
  | some t => t.reset
  | none => outputRecord s3Select.outputFormat

/-- A record that `Eval` has returned is in the queue, and counted if there is a limit. -/
def queued (state : LoopState) (output : Record) : LoopState :=
  { state with
    slots := state.slots.set state.used (some output), used := state.used + 1
    outputCount :=
      if s3Select.statement.limitValue.isSome then state.outputCount + 1 else state.outputCount }

def sendFull (state : LoopState) : Except (Ending × LoopState) LoopState :=
  if state.used < state.slots.length then .ok state
  else
    match s3Select.sendQueue state with
    | .error ending => .error (ending, state)
    | .ok state => .ok state

def evalRow (state : LoopState) (inputRecord : Record) : Except (Ending × LoopState) LoopState :=
  match state.slots[state.used]? with
  | none => .error (.panicked, state)
  | some slot =>
    let output := s3Select.slotRecord slot
    let state := { state with slots := state.slots.set state.used (some output) }
    match s3Select.statement.eval s3Select.values inputRecord output with
    | .error err => .error (.internalError err, state)
    | .ok none => .ok state
    | .ok (some output) => s3Select.sendFull (s3Select.queued state output)

def evalRows : LoopState → List Record → Except (Ending × LoopState) LoopState
  | state, [] => .ok state
  | state, inputRecord :: rest =>
    match s3Select.evalRow state inputRecord with
    | .error ending => .error ending
    | .ok state => evalRows state rest

def finish (state : LoopState) : Ending × LoopState :=
  match s3Select.sendQueue state with
  | .error ending => (ending, state)
  | .ok state => (.finished, state)

def loop : LoopState → List Record → Ending × LoopState
  | state, records =>
    if s3Select.statement.limitReached state.outputCount then s3Select.finish state
    else
      match records with
      | [] =>
        match s3Select.readErr with
        | some err => (.internalError err, state)
        | none => s3Select.finish state
      | rec :: rest =>
        match s3Select.statement.evalFrom s3Select.values s3Select.isJSON rec with
        | .error err => (.internalError err, state)
        | .ok inputRecords =>
          match s3Select.evalRows state inputRecords with
          | .error ending => ending
          | .ok state => loop state rest
  termination_by structural _ records => records

/-- `Evaluate`: how it ends, and what has been sent. -/
def evaluate (records : List Record) : Ending × List Content :=
  let (ending, state) := s3Select.loop { slots := List.replicate queueCapacity none } records
  (ending, state.messages.flatten)

end S3Select

end Fs3.Select
