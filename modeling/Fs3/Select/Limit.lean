import Fs3.Select.Rows

/-! # What a query with a limit sends

Every record is evaluated from its own input, whatever slot of the queue it is put in. -/

namespace Fs3.Select

variable {V : Type}

namespace S3Select

variable (s3Select : S3Select V)

def rowOf (inputRecord : Record) : Row :=
  match
    s3Select.statement.eval s3Select.values inputRecord (outputRecord s3Select.outputFormat) with
  | .error err => .error err
  | .ok output => .ok (output.map Record.content)

def rowsOf (rec : Record) : List Row :=
  match s3Select.statement.evalFrom s3Select.values s3Select.isJSON rec with
  | .error err => [.error err]
  | .ok inputRecords => inputRecords.map s3Select.rowOf

def lastRows : List Row :=
  match s3Select.readErr with
  | some err => [.error err]
  | none => []

/-- What the query has to send: the first rows of all input records, in their order. -/
def wanted (records : List Record) : Except Err (List Content) :=
  firstRows s3Select.statement.limitValue
    ((records.map s3Select.rowsOf).flatten ++ s3Select.lastRows)

def Writes (contents : List Content) : Prop :=
  (∀ content ∈ contents, ∃ length, s3Select.marshal content = .ok length ∧
    length ≤ maxRecordSize) ∧ ∀ i, s3Select.sendRecord i = true

/-- The query sends what it has to, if that can be written, and nothing else. -/
def SendsWanted (records : List Record) : Prop :=
  (∀ contents, s3Select.evaluate records = (.finished, contents) →
      s3Select.wanted records = .ok contents) ∧
    ∀ contents, s3Select.wanted records = .ok contents → s3Select.Writes contents →
      s3Select.evaluate records = (.finished, contents)

end S3Select

/-! ## Output records that are used again -/

section Reuse

variable {values : Values V}

/-- A record that is used again is one of the output format when it has been reset. -/
def Fits (format : OutputFormat) (record : Record) : Prop :=
  record.reset.content = (outputRecord format).content

theorem fits_outputRecord (format : OutputFormat) : Fits format (outputRecord format) := by
  cases format <;> rfl

variable {format : OutputFormat}

theorem fits_reset {record : Record} (hfits : Fits format record) : Fits format record.reset := by
  cases record <;> exact hfits

theorem fits_set {record record' : Record} {name : String} {value : V} (hfits : Fits format record)
    (hset : record.set values name value = .ok record') : Fits format record' := by
  cases record with
  | csv columnNames csvRecord nameIndexMap =>
    cases hset
    exact hfits
  | json kvs selectFormat =>
    rw [Record.set, Record.setJson] at hset
    split at hset
    next => cases hset
    next =>
      cases hset
      exact hfits
  | simdj object => cases format <;> cases hfits

theorem fits_evalExpressions {input output output' : Record} {i : Nat}
    {expressions : List (SelectExpr V)} (hfits : Fits format output)
    (heval : SelectStatement.evalExpressions values input i expressions output = .ok output') :
    Fits format output' := by
  induction expressions generalizing i output with
  | nil =>
    cases heval
    exact hfits
  | cons expr rest ih =>
    rw [SelectStatement.evalExpressions] at heval
    split at heval
    next => cases heval
    next =>
      split at heval
      next => cases heval
      next hset => exact ih (fits_set hfits hset) heval

theorem map_eq_map_cases {α β : Type} {f : α → β} {a b : Except Err α} (h : a.map f = b.map f) :
    (∃ err, a = .error err ∧ b = .error err) ∨ ∃ x y, a = .ok x ∧ b = .ok y ∧ f x = f y := by
  cases a with
  | error err =>
    cases b with
    | error err' =>
      cases h
      exact Or.inl ⟨err, rfl, rfl⟩
    | ok y => cases h
  | ok x =>
    cases b with
    | error err' => cases h
    | ok y => exact Or.inr ⟨x, y, rfl, rfl, Except.ok.inj h⟩

theorem set_content {record record' : Record} (hcontent : record.content = record'.content)
    (name : String) (value : V) :
    (record.set values name value).map Record.content =
      (record'.set values name value).map Record.content := by
  cases record <;> cases record' <;> cases hcontent
  · rfl
  · rw [Record.set, Record.set, Record.setJson, Record.setJson]
    split <;> rfl
  · rfl

theorem evalExpressions_content {output output' : Record}
    (hcontent : output.content = output'.content) (input : Record) (i : Nat)
    (expressions : List (SelectExpr V)) :
    (SelectStatement.evalExpressions values input i expressions output).map Record.content =
      (SelectStatement.evalExpressions values input i expressions output').map Record.content := by
  induction expressions generalizing i output output' with
  | nil => exact congrArg Except.ok hcontent
  | cons expr rest ih =>
    rw [SelectStatement.evalExpressions, SelectStatement.evalExpressions]
    split
    next => rfl
    next v _ =>
      rcases map_eq_map_cases
          (@set_content _ values _ _ hcontent (SelectStatement.columnName i expr) v) with
        ⟨err, herr, herr'⟩ | ⟨record, record', hok, hok', hsame⟩
      · rw [herr, herr']
      · rw [hok, hok']
        exact ih hsame (i + 1)

theorem content_clone (input : Record) (dst : Option Record) :
    (input.clone dst).content = input.content := by
  cases input with
  | csv | json =>
    cases dst with
    | none => rfl
    | some dst => cases dst <;> rfl
  | simdj => rfl

theorem eval_content (e : SelectStatement V) (input : Record) {output output' : Record}
    (hcontent : e.all = true ∨ output.content = output'.content) :
    (e.eval values input output).map (Option.map Record.content) =
      (e.eval values input output').map (Option.map Record.content) := by
  rw [SelectStatement.eval, SelectStatement.eval]
  split
  next => rfl
  next => rfl
  next =>
    by_cases hall : e.all = true
    · rw [if_pos hall, if_pos hall]
      exact congrArg (Except.ok ∘ some)
        ((content_clone input (some output)).trans (content_clone input (some output')).symm)
    · rw [if_neg hall, if_neg hall]
      rcases map_eq_map_cases (@evalExpressions_content _ values _ _ (hcontent.resolve_left hall)
          input 0 e.expressions) with ⟨err, herr, herr'⟩ | ⟨record, record', hok, hok', hsame⟩
      · rw [herr, herr']
      · rw [hok, hok']
        exact congrArg (Except.ok ∘ some) hsame

theorem fits_eval (e : SelectStatement V) (input : Record) {output output' : Record}
    (hall : e.all = false) (hfits : Fits format output)
    (heval : e.eval values input output = .ok (some output')) : Fits format output' := by
  rw [SelectStatement.eval] at heval
  split at heval
  next => cases heval
  next => cases heval
  next =>
    rw [hall] at heval
    split at heval
    next h => cases h
    next =>
      split at heval
      next => cases heval
      next hoks =>
        cases heval
        exact fits_evalExpressions hfits hoks

end Reuse

/-! ## The queue -/

section Queue

variable {s3Select : S3Select V}

def LoopState.pending (state : LoopState) : List Content :=
  ((state.slots.take state.used).filterMap id).map Record.content

/-- Between the rows: there is room in the queue, its records can be used again, and with
what has been sent already it holds the rows so far. -/
structure LoopState.Holds (s3Select : S3Select V) (state : LoopState) (sent : List Content) :
    Prop where
  length : state.slots.length = queueCapacity
  room : state.used < queueCapacity
  fits : s3Select.statement.all = false →
    ∀ record, some record ∈ state.slots → Fits s3Select.outputFormat record
  rows : state.messages.flatten ++ state.pending = sent
  count : state.outputCount = if s3Select.statement.limitValue.isSome then sent.length else 0

theorem writes_of_append {contents more : List Content}
    (hwrites : s3Select.Writes (contents ++ more)) : s3Select.Writes contents :=
  ⟨fun content hmem => hwrites.1 content (List.mem_append_left _ hmem), hwrites.2⟩

/-- The queue is written as it is, or something in it cannot be. -/
theorem marshalQueue_cases (queue : List (Option Record)) :
    s3Select.marshalQueue queue = .ok ((queue.filterMap id).map Record.content) ∨
      ∃ ending, s3Select.marshalQueue queue = .error ending ∧ ending ≠ .finished ∧
        ∃ content ∈ (queue.filterMap id).map Record.content, ¬ ∃ length,
          s3Select.marshal content = .ok length ∧ length ≤ maxRecordSize := by
  induction queue with
  | nil => exact Or.inl rfl
  | cons slot rest ih =>
    cases slot with
    | none => exact ih
    | some record =>
      have hcons : ((some record :: rest).filterMap id).map Record.content =
          record.content :: (rest.filterMap id).map Record.content := rfl
      rw [S3Select.marshalQueue, hcons]
      cases hmarshal : s3Select.marshal record.content with
      | error err =>
        refine Or.inr ⟨_, rfl, fun h => (nomatch h), _, List.mem_cons_self, ?_⟩
        rintro ⟨length, hok, -⟩
        rw [hmarshal] at hok
        cases hok
      | ok length =>
        by_cases hsize : maxRecordSize < length
        · refine Or.inr ⟨_, if_pos hsize, fun h => (nomatch h), _, List.mem_cons_self, ?_⟩
          rintro ⟨length', hok, hle⟩
          rw [hmarshal] at hok
          cases hok
          exact absurd hsize (Nat.not_lt.mpr hle)
        · simp only [if_neg hsize]
          rcases ih with hok | ⟨ending, herr, hne, content, hmem, hnot⟩
          · rw [hok]
            exact Or.inl rfl
          · rw [herr]
            exact Or.inr ⟨ending, rfl, hne, content, List.mem_cons_of_mem _ hmem, hnot⟩

theorem sendQueue_cases (state : LoopState) :
    s3Select.sendQueue state =
        .ok { state with used := 0, messages := state.messages ++ [state.pending] } ∨
      ∃ ending, s3Select.sendQueue state = .error ending ∧ ending ≠ .finished ∧
        ¬ s3Select.Writes (state.messages.flatten ++ state.pending) := by
  rw [S3Select.sendQueue]
  rcases @marshalQueue_cases _ s3Select (state.slots.take state.used) with
    hok | ⟨ending, herr, hne, content, hmem, hnot⟩
  · rw [hok]
    by_cases hsend : s3Select.sendRecord state.messages.length = true
    · simp only [if_pos hsend]
      exact Or.inl rfl
    · simp only [if_neg hsend]
      exact Or.inr ⟨_, rfl, fun h => (nomatch h), fun hwrites => hsend (hwrites.2 _)⟩
  · rw [herr]
    exact Or.inr ⟨ending, rfl, hne, fun hwrites =>
      hnot (hwrites.1 content (List.mem_append_right _ hmem))⟩

variable {state : LoopState}

theorem pending_set {output : Record} (hroom : state.used < state.slots.length) :
    LoopState.pending { state with
      slots := state.slots.set state.used (some output), used := state.used + 1 } =
        state.pending ++ [output.content] := by
  have hlength : state.used < (state.slots.set state.used (some output)).length := by
    rw [List.length_set]
    exact hroom
  rw [LoopState.pending, LoopState.pending]
  simp only
  rw [List.take_add_one, List.getElem?_set_self hroom, List.take_set_of_le (Nat.le_refl _)]
  rw [List.filterMap_append, List.map_append]
  rfl

variable {sent : List Content}

section

variable (hstate : state.Holds s3Select sent)
include hstate

theorem fits_of_mem_set {record record' : Record}
    (hfits : s3Select.statement.all = false → Fits s3Select.outputFormat record)
    (hall : s3Select.statement.all = false)
    (hmem : some record' ∈ state.slots.set state.used (some record)) :
    Fits s3Select.outputFormat record' := by
  rcases List.mem_or_eq_of_mem_set hmem with hmem | heq
  · exact hstate.fits hall record' hmem
  · cases heq
    exact hfits hall

theorem holds_set {output : Record}
    (hfits : s3Select.statement.all = false → Fits s3Select.outputFormat output) :
    LoopState.Holds s3Select { state with slots := state.slots.set state.used (some output) }
      sent := by
  refine ⟨?_, hstate.room, fun hall _ hmem => fits_of_mem_set hstate hfits hall hmem, ?_,
    hstate.count⟩
  · rw [List.length_set]
    exact hstate.length
  · rw [← hstate.rows, LoopState.pending, LoopState.pending]
    simp only
    rw [List.take_set_of_le (Nat.le_refl _)]

/-- A row in the queue is there, or has been sent, unless what has to be sent cannot be
written. -/
theorem sendFull_cases {output : Record}
    (hfits : s3Select.statement.all = false → Fits s3Select.outputFormat output) :
    (∃ state', s3Select.sendFull (s3Select.queued state output) = .ok state' ∧
        state'.Holds s3Select (sent ++ [output.content])) ∨
      ∃ ending, s3Select.sendFull (s3Select.queued state output) =
          .error (ending, s3Select.queued state output) ∧
        ending ≠ .finished ∧ ¬ s3Select.Writes (sent ++ [output.content]) := by
  have hused : state.used < state.slots.length := by
    rw [hstate.length]
    exact hstate.room
  have hlength : (s3Select.queued state output).slots.length = queueCapacity := by
    rw [S3Select.queued, List.length_set]
    exact hstate.length
  have hpending : (s3Select.queued state output).messages.flatten ++
      (s3Select.queued state output).pending = sent ++ [output.content] := by
    have hsame : (s3Select.queued state output).pending = state.pending ++ [output.content] :=
      pending_set hused
    rw [hsame, ← List.append_assoc]
    exact congrArg (· ++ [output.content]) hstate.rows
  have hcount : (s3Select.queued state output).outputCount =
      if s3Select.statement.limitValue.isSome then (sent ++ [output.content]).length else 0 := by
    rw [S3Select.queued]
    simp only
    rw [hstate.count, List.length_append]
    split <;> rfl
  have hfits' : s3Select.statement.all = false → ∀ record,
      some record ∈ (s3Select.queued state output).slots → Fits s3Select.outputFormat record :=
    fun hall _ hmem => fits_of_mem_set hstate hfits hall hmem
  rw [S3Select.sendFull]
  split
  next hroom =>
    refine Or.inl ⟨_, rfl, hlength, ?_, hfits', hpending, hcount⟩
    rw [← hlength]
    exact hroom
  next =>
    rcases @sendQueue_cases _ s3Select (s3Select.queued state output) with
      hok | ⟨ending, herr, hne, hnot⟩
    · rw [hok]
      refine Or.inl ⟨_, rfl, hlength, Nat.succ_pos 99, hfits', ?_, hcount⟩
      rw [← hpending]
      simp [LoopState.pending]
    · rw [herr]
      rw [hpending] at hnot
      exact Or.inr ⟨ending, rfl, hne, hnot⟩

/-- One turn of the loop over the rows: it fails where the row fails, or where what has to
be sent cannot be written, and otherwise the queue holds one row more, if it passes. -/
theorem evalRow_cases (inputRecord : Record) :
    match s3Select.rowOf inputRecord with
    | .error err => ∃ state', s3Select.evalRow state inputRecord =
        .error (.internalError err, state')
    | .ok content =>
      (∃ state', s3Select.evalRow state inputRecord = .ok state' ∧
        state'.Holds s3Select (sent ++ content.toList)) ∨
      ∃ ending state', s3Select.evalRow state inputRecord = .error (ending, state') ∧
        ending ≠ .finished ∧ ¬ s3Select.Writes (sent ++ content.toList) := by
  have hused : state.used < state.slots.length := by
    rw [hstate.length]
    exact hstate.room
  -- The output record is a new one, or one that has been reset.
  generalize hslot : state.slots.get ⟨state.used, hused⟩ = slot
  have hget : state.slots[state.used]? = some slot := by
    rw [List.getElem?_eq_getElem hused, ← hslot]
    rfl
  have hmem : slot ∈ state.slots := List.mem_of_getElem? hget
  generalize houtput : s3Select.slotRecord slot = output
  have hfits : s3Select.statement.all = false → Fits s3Select.outputFormat output := by
    intro hall
    rw [← houtput]
    cases slot with
    | none => exact fits_outputRecord _
    | some t => exact fits_reset (hstate.fits hall t hmem)
  have hcontent : s3Select.statement.all = true ∨
      output.content = (outputRecord s3Select.outputFormat).content := by
    cases hall : s3Select.statement.all with
    | true => exact Or.inl rfl
    | false =>
      refine Or.inr ?_
      rw [← houtput]
      cases slot with
      | none => rfl
      | some t => exact hstate.fits hall t hmem
  have hstate' := holds_set hstate hfits
  have heval := @eval_content _ s3Select.values s3Select.statement inputRecord _ _ hcontent
  rw [S3Select.evalRow, hget, S3Select.rowOf]
  simp only [houtput]
  rcases map_eq_map_cases heval with ⟨err, herr, herr'⟩ | ⟨record, record', hok, hok', hsame⟩
  · rw [herr, herr']
    exact ⟨_, rfl⟩
  · rw [hok, hok']
    cases record with
    | none =>
      cases record' with
      | some record' => cases hsame
      | none =>
        refine Or.inl ⟨_, rfl, ?_⟩
        rw [Option.map_none, Option.toList_none, List.append_nil]
        exact hstate'
    | some record =>
      cases record' with
      | none => cases hsame
      | some record' =>
        have hsame' : record.content = record'.content := Option.some.inj hsame
        simp only [Option.map_some, Option.toList_some, ← hsame']
        rcases sendFull_cases hstate' fun hall =>
            fits_eval _ inputRecord hall (hfits hall) hok with hsent | ⟨ending, herr, hne, hnot⟩
        · exact Or.inl hsent
        · exact Or.inr ⟨ending, _, herr, hne, hnot⟩

/-- The loop over the rows of an input record puts all of them in the queue, unless one
fails or what has to be sent cannot be written. -/
theorem evalRows_cases (inputRecords : List Record) :
    match firstRows none (inputRecords.map s3Select.rowOf) with
    | .error _ => ∃ ending state', s3Select.evalRows state inputRecords =
        .error (ending, state') ∧ ending ≠ .finished
    | .ok contents =>
      (∃ state', s3Select.evalRows state inputRecords = .ok state' ∧
        state'.Holds s3Select (sent ++ contents)) ∨
      ∃ ending state', s3Select.evalRows state inputRecords = .error (ending, state') ∧
        ending ≠ .finished ∧ ¬ s3Select.Writes (sent ++ contents) := by
  induction inputRecords generalizing state sent with
  | nil =>
    refine Or.inl ⟨state, rfl, ?_⟩
    rw [List.append_nil]
    exact hstate
  | cons inputRecord rest ih =>
    have hlimit : (none : Option Nat) ≠ some 0 := fun h => nomatch h
    have hturn := evalRow_cases hstate inputRecord
    rw [List.map_cons, S3Select.evalRows]
    cases hrow : s3Select.rowOf inputRecord with
    | error err =>
      rw [hrow] at hturn
      obtain ⟨state', herr⟩ := hturn
      rw [firstRows_error hlimit, herr]
      exact ⟨_, _, rfl, fun h => nomatch h⟩
    | ok content =>
      have hfirst : firstRows none (.ok content :: rest.map s3Select.rowOf) =
          prepend content.toList (firstRows none (rest.map s3Select.rowOf)) := by
        cases content with
        | none =>
          rw [firstRows_skip hlimit]
          cases firstRows none (rest.map s3Select.rowOf) <;> rfl
        | some content => exact firstRows_take hlimit content _
      rw [hrow] at hturn
      rw [hfirst]
      rcases hturn with ⟨state', hok, hstate'⟩ | ⟨ending, state', herr, hne, hnot⟩
      · have hrest := ih hstate'
        rw [hok]
        cases hrows : firstRows none (rest.map s3Select.rowOf) with
        | error err =>
          rw [hrows] at hrest
          exact hrest
        | ok contents =>
          simp only [hrows, List.append_assoc] at hrest
          exact hrest
      · rw [herr]
        cases hrows : firstRows none (rest.map s3Select.rowOf) with
        | error err => exact ⟨ending, state', rfl, hne⟩
        | ok contents =>
          refine Or.inr ⟨ending, state', rfl, hne, fun hwrites => hnot ?_⟩
          rw [← List.append_assoc] at hwrites
          exact writes_of_append hwrites

theorem finish_cases :
    ((s3Select.finish state).1 = .finished ∧ (s3Select.finish state).2.messages.flatten = sent) ∨
      ((s3Select.finish state).1 ≠ .finished ∧ ¬ s3Select.Writes sent) := by
  rw [S3Select.finish]
  rcases @sendQueue_cases _ s3Select state with hok | ⟨ending, herr, hne, hnot⟩
  · rw [hok]
    refine Or.inl ⟨rfl, ?_⟩
    rw [← hstate.rows]
    simp
  · rw [herr]
    rw [hstate.rows] at hnot
    exact Or.inr ⟨hne, hnot⟩

theorem limitReached_iff :
    s3Select.statement.limitReached state.outputCount = true ↔
      s3Select.statement.limitValue.map (· - sent.length) = some 0 := by
  rw [SelectStatement.limitReached, hstate.count]
  cases s3Select.statement.limitValue with
  | none => simp
  | some n => simp [Nat.sub_eq_zero_iff_le]

/-- The loop sends what a loop sends that tests the limit between the input records. -/
theorem loop_cases (records : List Record) :
    match groupedRows s3Select.lastRows (s3Select.statement.limitValue.map (· - sent.length))
        (records.map s3Select.rowsOf) with
    | .error _ => (s3Select.loop state records).1 ≠ .finished
    | .ok contents =>
      ((s3Select.loop state records).1 = .finished ∧
        (s3Select.loop state records).2.messages.flatten = sent ++ contents) ∨
      ((s3Select.loop state records).1 ≠ .finished ∧ ¬ s3Select.Writes (sent ++ contents)) := by
  induction records generalizing state sent with
  | nil =>
    rw [List.map_nil, groupedRows, S3Select.loop]
    by_cases hlimit : s3Select.statement.limitReached state.outputCount = true
    · rw [if_pos hlimit, (limitReached_iff hstate).mp hlimit, firstRows_zero]
      simp only [List.append_nil]
      exact finish_cases hstate
    · have hzero := mt (limitReached_iff hstate).mpr hlimit
      rw [if_neg hlimit, S3Select.lastRows]
      cases s3Select.readErr with
      | some err =>
        simp only
        rw [firstRows_error hzero]
        simp
      | none =>
        simp only [firstRows, List.append_nil]
        exact finish_cases hstate
  | cons rec rest ih =>
    rw [List.map_cons, S3Select.loop]
    by_cases hlimit : s3Select.statement.limitReached state.outputCount = true
    · rw [if_pos hlimit, (limitReached_iff hstate).mp hlimit, groupedRows_zero]
      simp only [List.append_nil]
      exact finish_cases hstate
    · have hzero := mt (limitReached_iff hstate).mpr hlimit
      rw [if_neg hlimit]
      cases hfrom : s3Select.statement.evalFrom s3Select.values s3Select.isJSON rec with
      | error err =>
        have hrows : firstRows none (s3Select.rowsOf rec) = .error err := by
          rw [S3Select.rowsOf, hfrom]
          rfl
        rw [groupedRows_failed hzero _ hrows]
        simp
      | ok inputRecords =>
        have hrowsOf : s3Select.rowsOf rec = inputRecords.map s3Select.rowOf := by
          rw [S3Select.rowsOf, hfrom]
        have hrows := evalRows_cases hstate inputRecords
        cases hfirst : firstRows none (inputRecords.map s3Select.rowOf) with
        | error err =>
          rw [hfirst] at hrows
          obtain ⟨ending, state', herr, hne⟩ := hrows
          rw [hrowsOf, groupedRows_failed hzero _ hfirst]
          simp only [herr]
          exact hne
        | ok contents =>
          have hleft : (s3Select.statement.limitValue.map (· - sent.length)).map
              (· - contents.length) =
                s3Select.statement.limitValue.map (· - (sent ++ contents).length) := by
            rw [Option.map_map, List.length_append]
            congr 1
            funext n
            exact Nat.sub_sub n sent.length contents.length
          rw [hfirst] at hrows
          rw [hrowsOf, groupedRows_sent hzero _ hfirst, hleft]
          rcases hrows with ⟨state', hok, hstate'⟩ | ⟨ending, state', herr, hne, hnot⟩
          · have hrest := ih hstate'
            simp only [hok]
            cases hmore : groupedRows s3Select.lastRows
                (s3Select.statement.limitValue.map (· - (sent ++ contents).length))
                (rest.map s3Select.rowsOf) with
            | error err =>
              rw [hmore] at hrest
              exact hrest
            | ok more =>
              rw [hmore] at hrest
              simp only [List.append_assoc] at hrest
              exact hrest
          · simp only [herr]
            cases hmore : groupedRows s3Select.lastRows
                (s3Select.statement.limitValue.map (· - (sent ++ contents).length))
                (rest.map s3Select.rowsOf) with
            | error err => exact hne
            | ok more =>
              refine Or.inr ⟨hne, fun hwrites => hnot ?_⟩
              rw [← List.append_assoc] at hwrites
              exact writes_of_append hwrites

end

end Queue

/-! ## The query -/

section Query

variable (s3Select : S3Select V)

def S3Select.writingWith (marshal : Content → Except Err Nat) (sendRecord : Nat → Bool) :
    S3Select V :=
  { s3Select with marshal := marshal, sendRecord := sendRecord }

theorem evaluate_cases (records : List Record) :
    match groupedRows s3Select.lastRows s3Select.statement.limitValue
        (records.map s3Select.rowsOf) with
    | .error _ => (s3Select.evaluate records).1 ≠ .finished
    | .ok contents =>
      s3Select.evaluate records = (.finished, contents) ∨
      ((s3Select.evaluate records).1 ≠ .finished ∧ ¬ s3Select.Writes contents) := by
  have hstart : LoopState.Holds s3Select { slots := List.replicate queueCapacity none } [] := by
    refine ⟨List.length_replicate, Nat.succ_pos 99, fun _ record hmem => ?_, rfl, ?_⟩
    · cases List.eq_of_mem_replicate hmem
    · split <;> rfl
  have hloop := loop_cases hstart records
  have hlimit : s3Select.statement.limitValue.map (· - ([] : List Content).length) =
      s3Select.statement.limitValue := by
    cases s3Select.statement.limitValue <;> rfl
  rw [hlimit] at hloop
  cases hgroups : groupedRows s3Select.lastRows s3Select.statement.limitValue
      (records.map s3Select.rowsOf) with
  | error err =>
    rw [hgroups] at hloop
    exact hloop
  | ok contents =>
    rw [hgroups] at hloop
    rcases hloop with ⟨hfinished, hsent⟩ | hfailed
    · exact Or.inl (Prod.ext hfinished hsent)
    · exact Or.inr hfailed

/-- What a query sends, however records are written and sent, is what it has to send if
and only if the limit is not reached among the rows of one input record. -/
theorem sendsWanted_iff (records : List Record) :
    (∀ marshal sendRecord, (s3Select.writingWith marshal sendRecord).SendsWanted records) ↔
      ∀ n, s3Select.statement.limitValue = some n →
        LimitEndsGroup n (records.map s3Select.rowsOf) := by
  rw [← groupedRows_iff s3Select.lastRows]
  have hwanted : ∀ marshal sendRecord,
      (s3Select.writingWith marshal sendRecord).wanted records =
        firstRows s3Select.statement.limitValue
          ((records.map s3Select.rowsOf).flatten ++ s3Select.lastRows) := fun _ _ => rfl
  have hcases := fun marshal sendRecord =>
    evaluate_cases (s3Select.writingWith marshal sendRecord) records
  have hgroups : ∀ marshal sendRecord,
      groupedRows (s3Select.writingWith marshal sendRecord).lastRows
          (s3Select.writingWith marshal sendRecord).statement.limitValue
          (records.map (s3Select.writingWith marshal sendRecord).rowsOf) =
        groupedRows s3Select.lastRows s3Select.statement.limitValue
          (records.map s3Select.rowsOf) := fun _ _ => rfl
  have hsent : ∀ marshal sendRecord contents,
      (s3Select.writingWith marshal sendRecord).evaluate records = (.finished, contents) →
        groupedRows s3Select.lastRows s3Select.statement.limitValue
          (records.map s3Select.rowsOf) = .ok contents := by
    intro marshal sendRecord contents hevaluate
    have hcase := hcases marshal sendRecord
    rw [hgroups, hevaluate] at hcase
    cases hrows : groupedRows s3Select.lastRows s3Select.statement.limitValue
        (records.map s3Select.rowsOf) with
    | error err =>
      rw [hrows] at hcase
      exact absurd rfl hcase
    | ok contents' =>
      rw [hrows] at hcase
      rcases hcase with hevaluate' | ⟨hne, -⟩
      · rw [(Prod.mk.inj hevaluate').2]
      · exact absurd rfl hne
  constructor
  · intro hsends contents
    -- Everything can be written.
    obtain ⟨hfinished, hwrites⟩ := hsends (fun _ => .ok 0) fun _ => true
    have hcan : ∀ contents, (s3Select.writingWith (fun _ => .ok 0) fun _ => true).Writes contents :=
      fun contents => ⟨fun _ _ => ⟨0, rfl, Nat.zero_le _⟩, fun _ => rfl⟩
    have hcase := hcases (fun _ => .ok 0) fun _ => true
    rw [hgroups] at hcase
    constructor
    · intro hok
      rw [hok] at hcase
      exact hfinished contents (hcase.resolve_right fun h => h.2 (hcan contents))
    · intro hok
      exact hsent _ _ contents (hwrites contents hok (hcan contents))
  · intro hsame marshal sendRecord
    have hcase := hcases marshal sendRecord
    rw [hgroups] at hcase
    refine ⟨fun contents hevaluate => ?_, fun contents hok hwrites => ?_⟩
    · rw [hwanted, ← hsame]
      exact hsent marshal sendRecord contents hevaluate
    · rw [hwanted, ← hsame] at hok
      rw [hok] at hcase
      exact hcase.resolve_right fun h => h.2 hwrites

end Query

/-- `SELECT * FROM S3Object[*].items[*] LIMIT 2`, with JSON in and out. -/
def limitedItems : S3Select Unit where
  values := ⟨fun _ => "", fun _ => none, fun _ => none, fun _ => ()⟩
  statement :=
    { pathExpr := [.arrayWildcard, .key "items", .arrayWildcard], all := true
      limitValue := some 2 }
  isJSON := true
  outputFormat := .json
  marshal _ := .ok 0
  sendRecord _ := true

def threeItems : Record :=
  .json [("items", .arr [.obj [("a", .number "1")], .obj [("a", .number "2")],
    .obj [("a", .number "3")]])] .json

/-- All three items are sent, though the limit is two. -/
theorem limitedItems_sends_three :
    limitedItems.wanted [threeItems] =
        .ok [.json [("a", .number "1")], .json [("a", .number "2")]] ∧
      limitedItems.evaluate [threeItems] = (.finished, [.json [("a", .number "1")],
        .json [("a", .number "2")], .json [("a", .number "3")]]) ∧
      ¬ limitedItems.SendsWanted [threeItems] := by
  have hwanted : limitedItems.wanted [threeItems] =
      .ok [.json [("a", .number "1")], .json [("a", .number "2")]] := rfl
  have hevaluate : limitedItems.evaluate [threeItems] = (.finished, [.json [("a", .number "1")],
      .json [("a", .number "2")], .json [("a", .number "3")]]) := rfl
  refine ⟨hwanted, hevaluate, fun hsends => ?_⟩
  have hsent := hsends.2 _ hwanted ⟨fun _ _ => ⟨0, rfl, Nat.zero_le _⟩, fun _ => rfl⟩
  rw [hevaluate] at hsent
  exact absurd (congrArg List.length (Prod.mk.inj hsent).2) (by decide)

end Fs3.Select
