import Fs3.Select.Statement

/-! # The rows of a query

What a query with a limit has to send: the first rows that pass the WHERE clause. -/

namespace Fs3.Select

/-- What becomes of a row: an error, nothing, or what is written for it. -/
abbrev Row := Except Err (Option Content)

def passing (rows : List Row) : List Content :=
  rows.filterMap fun row =>
    match row with
    | .ok content => content
    | .error _ => none

def prepend (contents : List Content) : Except Err (List Content) → Except Err (List Content)
  | .error err => .error err
  | .ok more => .ok (contents ++ more)

/-- The first rows that are written, where no row before the last of them fails. -/
def firstRows : Option Nat → List Row → Except Err (List Content)
  | _, [] => .ok []
  | limit, row :: rest =>
    if limit = some 0 then .ok []
    else
      match row with
      | .error err => .error err
      | .ok none => firstRows limit rest
      | .ok (some content) => prepend [content] (firstRows (limit.map (· - 1)) rest)

def NoError (rows : List Row) : Prop := ∀ row ∈ rows, ∃ content, row = .ok content

def groupedRows (last : List Row) : Option Nat → List (List Row) → Except Err (List Content)
  | limit, [] => firstRows limit last
  | limit, rows :: rest =>
    if limit = some 0 then .ok []
    else
      match firstRows none rows with
      | .error err => .error err
      | .ok contents => prepend contents (groupedRows last (limit.map (· - contents.length)) rest)

/-- The limit is not reached within a group: after the row with which it is reached, no
row of its group is written or fails. -/
def LimitEndsGroup (n : Nat) (groups : List (List Row)) : Prop :=
  ∀ before after earlier content later,
    groups = before ++ (earlier ++ .ok (some content) :: later) :: after →
    NoError (before.flatten ++ earlier) →
    (passing (before.flatten ++ earlier)).length + 1 = n → ∀ row ∈ later, row = .ok none

/-! ## The first rows -/

@[simp]
theorem firstRows_zero (rows : List Row) : firstRows (some 0) rows = .ok [] := by
  cases rows with
  | nil => rfl
  | cons row rest => simp only [firstRows, if_true]

variable {limit : Option Nat}

theorem firstRows_error (hlimit : limit ≠ some 0) (err : Err) (rest : List Row) :
    firstRows limit (.error err :: rest) = .error err := by
  simp only [firstRows, hlimit, if_false]

theorem firstRows_skip (hlimit : limit ≠ some 0) (rest : List Row) :
    firstRows limit (.ok none :: rest) = firstRows limit rest := by
  simp only [firstRows, hlimit, if_false]

theorem firstRows_take (hlimit : limit ≠ some 0) (content : Content) (rest : List Row) :
    firstRows limit (.ok (some content) :: rest) =
      prepend [content] (firstRows (limit.map (· - 1)) rest) := by
  simp only [firstRows, hlimit, if_false]

theorem passing_append (rows rows' : List Row) :
    passing (rows ++ rows') = passing rows ++ passing rows' := List.filterMap_append

theorem noError_nil : NoError [] := List.forall_mem_nil _

theorem noError_append {rows rows' : List Row} :
    NoError (rows ++ rows') ↔ NoError rows ∧ NoError rows' := List.forall_mem_append

/-- The rows with which the limit is not reached are followed by the others. -/
theorem firstRows_append {limit : Option Nat} {rows : List Row} (hno : NoError rows)
    (hlimit : ∀ n, limit = some n → (passing rows).length ≤ n) (rest : List Row) :
    firstRows limit (rows ++ rest) =
      prepend (passing rows) (firstRows (limit.map (· - (passing rows).length)) rest) := by
  induction rows generalizing limit with
  | nil =>
    have hsame : limit.map (· - (passing []).length) = limit := by cases limit <;> rfl
    rw [hsame, List.nil_append]
    cases firstRows limit rest <;> rfl
  | cons row rows ih =>
    obtain ⟨⟨content, rfl⟩, hrest⟩ := List.forall_mem_cons.mp hno
    cases content with
    | none =>
      by_cases hzero : limit = some 0
      · subst hzero
        have hnone : passing rows = [] :=
          List.eq_nil_of_length_eq_zero (Nat.le_zero.mp (hlimit 0 rfl))
        have hpassing : passing (.ok none :: rows) = [] := hnone
        simp [hpassing, prepend]
      · rw [List.cons_append, firstRows_skip hzero]
        exact ih hrest hlimit
    | some content =>
      have hpassing : passing (.ok (some content) :: rows) = content :: passing rows := rfl
      have hzero : limit ≠ some 0 := by
        rintro rfl
        have hle := hlimit 0 rfl
        rw [hpassing] at hle
        cases hle
      have hmap : (limit.map (· - 1)).map (· - (passing rows).length) =
          limit.map (· - (content :: passing rows).length) := by
        rw [Option.map_map, List.length_cons]
        congr 1
        funext n
        simp only [Function.comp]
        omega
      have hlimit' : ∀ n, limit.map (· - 1) = some n → (passing rows).length ≤ n := by
        intro n hn
        obtain ⟨m, hm, rfl⟩ := Option.map_eq_some_iff.mp hn
        have hle := hlimit m hm
        rw [hpassing, List.length_cons] at hle
        omega
      rw [List.cons_append, firstRows_take hzero, ih hrest hlimit', hpassing, hmap]
      cases firstRows (limit.map (· - (content :: passing rows).length)) rest <;> rfl

variable {contents : List Content}

/-- Without a limit all rows are sent, if none of them fails. -/
theorem firstRows_none_eq_ok {rows : List Row} :
    firstRows none rows = .ok contents ↔ NoError rows ∧ contents = passing rows := by
  constructor
  · intro hok
    have hno : NoError rows := by
      induction rows generalizing contents with
      | nil => exact noError_nil
      | cons row rest ih =>
        have hlimit : (none : Option Nat) ≠ some 0 := fun h => nomatch h
        cases row with
        | error err =>
          rw [firstRows_error hlimit] at hok
          cases hok
        | ok content =>
          refine List.forall_mem_cons.mpr ⟨⟨content, rfl⟩, ?_⟩
          cases content with
          | none =>
            rw [firstRows_skip hlimit] at hok
            exact ih hok
          | some content =>
            rw [firstRows_take hlimit, Option.map_none] at hok
            cases hrest : firstRows none rest with
            | error err =>
              rw [hrest] at hok
              cases hok
            | ok contents => exact ih hrest
    have happend := @firstRows_append none rows hno (fun _ h => nomatch h) []
    rw [List.append_nil, hok, Option.map_none, firstRows] at happend
    simp only [prepend, List.append_nil, Except.ok.injEq] at happend
    exact ⟨hno, happend⟩
  · rintro ⟨hno, rfl⟩
    have happend := @firstRows_append none rows hno (fun _ h => nomatch h) []
    rw [List.append_nil, Option.map_none, firstRows] at happend
    simpa only [prepend, List.append_nil] using happend

/-! ## The limit within a group -/

/-- Where a number of rows is reached that are written: after a row, not before a failing
one, or not at all. -/
theorem reaches_cases (rows : List Row) (n : Nat) :
    (NoError rows ∧ (passing rows).length < n + 1) ∨
      (∃ earlier content later, rows = earlier ++ .ok (some content) :: later ∧
        NoError earlier ∧ (passing earlier).length = n) ∨
      ∃ earlier err later, rows = earlier ++ .error err :: later ∧ NoError earlier ∧
        (passing earlier).length < n + 1 := by
  induction rows generalizing n with
  | nil => exact Or.inl ⟨noError_nil, Nat.succ_pos n⟩
  | cons row rest ih =>
    have hcons : ∀ {content} {rows : List Row}, NoError rows → NoError (.ok content :: rows) :=
      fun hno => List.forall_mem_cons.mpr ⟨⟨_, rfl⟩, hno⟩
    cases row with
    | error err =>
      exact Or.inr (Or.inr ⟨[], err, rest, rfl, noError_nil, Nat.succ_pos n⟩)
    | ok content =>
      cases content with
      | none =>
        rcases ih n with ⟨hno, hlt⟩ | ⟨earlier, content, later, rfl, hno, hlength⟩ |
          ⟨earlier, err, later, rfl, hno, hlt⟩
        · exact Or.inl ⟨hcons hno, hlt⟩
        · exact Or.inr (Or.inl ⟨.ok none :: earlier, content, later, rfl, hcons hno, hlength⟩)
        · exact Or.inr (Or.inr ⟨.ok none :: earlier, err, later, rfl, hcons hno, hlt⟩)
      | some content =>
        cases n with
        | zero =>
          exact Or.inr (Or.inl ⟨[], content, rest, rfl, noError_nil, rfl⟩)
        | succ n =>
          rcases ih n with ⟨hno, hlt⟩ | ⟨earlier, content', later, rfl, hno, hlength⟩ |
            ⟨earlier, err, later, rfl, hno, hlt⟩
          · exact Or.inl ⟨hcons hno, Nat.succ_lt_succ hlt⟩
          · exact Or.inr (Or.inl ⟨.ok (some content) :: earlier, content', later, rfl,
              hcons hno, congrArg Nat.succ hlength⟩)
          · exact Or.inr (Or.inr ⟨.ok (some content) :: earlier, err, later, rfl,
              hcons hno, Nat.succ_lt_succ hlt⟩)

theorem eq_of_reaches {earlier earlier' later later' : List Row} {content content' : Content}
    (heq : earlier ++ .ok (some content) :: later = earlier' ++ .ok (some content') :: later')
    (hlength : (passing earlier).length = (passing earlier').length) :
    earlier = earlier' ∧ later = later' := by
  -- Between the two there is no row that is written.
  have hbetween : ∀ {before between rest tail : List Row} {content : Content},
      (passing before).length = (passing (before ++ between)).length →
      .ok (some content) :: rest = between ++ tail → between = [] := by
    intro before between rest tail content hcount hrest
    cases between with
    | nil => rfl
    | cons row between =>
      obtain ⟨rfl, -⟩ := List.cons.inj hrest
      rw [passing_append, List.length_append] at hcount
      have hpos : 0 < (passing (.ok (some content) :: between)).length := Nat.succ_pos _
      omega
  rcases List.append_eq_append_iff.mp heq with ⟨between, rfl, hrest⟩ | ⟨between, rfl, hrest⟩
  · obtain rfl := hbetween hlength hrest
    rw [List.nil_append] at hrest
    exact ⟨(List.append_nil _).symm, (List.cons.inj hrest).2⟩
  · obtain rfl := hbetween hlength.symm hrest
    rw [List.nil_append] at hrest
    exact ⟨List.append_nil _, (List.cons.inj hrest).2.symm⟩

section Limit

variable {n : Nat} {rows earlier later : List Row} {content : Content} {groups : List (List Row)}

theorem limitEndsGroup_of_not_reached (hno : NoError rows) (hlt : (passing rows).length < n) :
    LimitEndsGroup n (rows :: groups) ↔
      LimitEndsGroup (n - (passing rows).length) groups := by
  constructor
  · rintro hends before after earlier content later rfl hnoError hlength
    refine hends (rows :: before) after earlier content later rfl ?_ ?_
    · rw [List.flatten_cons, List.append_assoc, noError_append]
      exact ⟨hno, hnoError⟩
    · rw [List.flatten_cons, List.append_assoc, passing_append, List.length_append]
      omega
  · rintro hends before after earlier content later heq hnoError hlength
    cases before with
    | nil =>
      obtain ⟨rfl, -⟩ := List.cons.inj heq
      rw [passing_append, List.length_append] at hlt
      have hpos : 0 < (passing (.ok (some content) :: later)).length := Nat.succ_pos _
      simp only [List.flatten_nil, List.nil_append] at hlength
      omega
    | cons group before =>
      obtain ⟨rfl, rfl⟩ := List.cons.inj heq
      rw [List.flatten_cons, List.append_assoc] at hnoError hlength
      rw [passing_append, List.length_append] at hlength
      exact hends before after earlier content later rfl (noError_append.mp hnoError).2
        (by omega)

theorem limitEndsGroup_of_reached (hno : NoError earlier) (hlength : (passing earlier).length = n) :
    LimitEndsGroup (n + 1) ((earlier ++ .ok (some content) :: later) :: groups) ↔
      ∀ row ∈ later, row = .ok none := by
  constructor
  · intro hends
    exact hends [] groups earlier content later rfl hno (congrArg Nat.succ hlength)
  · rintro hlater before after earlier' content' later' heq hnoError hlength'
    cases before with
    | nil =>
      obtain ⟨hsame, -⟩ := List.cons.inj heq
      simp only [List.flatten_nil, List.nil_append] at hlength'
      obtain ⟨-, rfl⟩ := eq_of_reaches hsame (hlength.trans (Nat.succ.inj hlength').symm)
      exact hlater
    | cons group before =>
      obtain ⟨rfl, -⟩ := List.cons.inj heq
      have hpos : 0 < (passing (.ok (some content) :: later)).length := Nat.succ_pos _
      simp only [List.flatten_cons, passing_append, List.length_append] at hlength'
      omega

theorem limitEndsGroup_of_error {err : Err} (hlt : (passing earlier).length < n) :
    LimitEndsGroup n ((earlier ++ .error err :: later) :: groups) := by
  intro before after earlier' content' later' heq hnoError hlength'
  have hfails : ∀ {rows : List Row}, .error err ∈ rows → ¬ NoError rows := by
    intro rows hmem hno
    obtain ⟨content, h⟩ := hno _ hmem
    cases h
  cases before with
  | nil =>
    obtain ⟨hsame, -⟩ := List.cons.inj heq
    simp only [List.flatten_nil, List.nil_append] at hlength' hnoError
    rcases List.append_eq_append_iff.mp hsame with ⟨between, rfl, hrest⟩ | ⟨between, rfl, hrest⟩
    · cases between with
      | nil => cases (List.cons.inj hrest).1
      | cons row between =>
        obtain ⟨rfl, -⟩ := List.cons.inj hrest
        exact absurd hnoError (hfails (List.mem_append_right _ List.mem_cons_self))
    · cases between with
      | nil => cases (List.cons.inj hrest).1
      | cons row between =>
        obtain ⟨rfl, -⟩ := List.cons.inj hrest
        have hpos : 0 < (passing (.ok (some content') :: between)).length := Nat.succ_pos _
        rw [passing_append, List.length_append] at hlt
        omega
  | cons group before =>
    obtain ⟨rfl, -⟩ := List.cons.inj heq
    refine absurd hnoError (hfails ?_)
    rw [List.flatten_cons]
    exact List.mem_append_left _ (List.mem_append_left _
      (List.mem_append_right _ List.mem_cons_self))

end Limit

def SameRows (sent sent' : Except Err (List Content)) : Prop :=
  ∀ contents, sent = .ok contents ↔ sent' = .ok contents

theorem prepend_eq_ok {contents more : List Content} {sent : Except Err (List Content)} :
    prepend contents sent = .ok (contents ++ more) ↔ sent = .ok more := by
  cases sent with
  | error err => exact ⟨fun h => (nomatch h), fun h => (nomatch h)⟩
  | ok more' =>
    rw [prepend, Except.ok.injEq, Except.ok.injEq]
    exact List.append_right_inj contents

theorem sameRows_prepend {sent sent' : Except Err (List Content)} :
    SameRows (prepend contents sent) (prepend contents sent') ↔ SameRows sent sent' := by
  constructor
  · intro hsame more
    rw [← @prepend_eq_ok contents, hsame, prepend_eq_ok]
  · intro hsame more
    cases sent with
    | error err =>
      cases sent' with
      | error err => exact ⟨fun h => (nomatch h), fun h => (nomatch h)⟩
      | ok more' => cases (hsame more').mpr rfl
    | ok more' => rw [(hsame more').mp rfl]

theorem groupedRows_sent (hlimit : limit ≠ some 0) (last : List Row) {rows : List Row}
    (hrows : firstRows none rows = .ok contents) (groups : List (List Row)) :
    groupedRows last limit (rows :: groups) =
      prepend contents (groupedRows last (limit.map (· - contents.length)) groups) := by
  rw [groupedRows, if_neg hlimit, hrows]

theorem groupedRows_failed (hlimit : limit ≠ some 0) (last : List Row) {rows : List Row} {err : Err}
    (hrows : firstRows none rows = .error err) (groups : List (List Row)) :
    groupedRows last limit (rows :: groups) = .error err := by
  rw [groupedRows, if_neg hlimit, hrows]

theorem groupedRows_zero (last : List Row) (groups : List (List Row)) :
    groupedRows last (some 0) groups = .ok [] := by
  cases groups with
  | nil => rw [groupedRows, firstRows_zero]
  | cons rows groups => rw [groupedRows, if_pos rfl]

theorem passing_eq_nil {rows : List Row} (hno : NoError rows) :
    passing rows = [] ↔ ∀ row ∈ rows, row = .ok none := by
  rw [passing, List.filterMap_eq_nil_iff]
  constructor
  · intro hnone row hrow
    obtain ⟨content, rfl⟩ := hno row hrow
    rw [show content = none from hnone _ hrow]
  · intro hnone row hrow
    rw [hnone row hrow]

/-- A group in which the limit is reached is sent in full. -/
theorem sameRows_of_reached (last : List Row) {n : Nat} {earlier later : List Row}
    {content : Content} {groups : List (List Row)} (hno : NoError earlier)
    (hlength : (passing earlier).length = n) :
    SameRows (groupedRows last (some (n + 1)) ((earlier ++ .ok (some content) :: later) :: groups))
        (firstRows (some (n + 1))
          (earlier ++ .ok (some content) :: later ++ (groups.flatten ++ last))) ↔
      ∀ row ∈ later, row = .ok none := by
  have hsplit : ∀ rest : List Row, earlier ++ .ok (some content) :: rest =
      (earlier ++ [.ok (some content)]) ++ rest := fun rest => by
    rw [List.append_assoc]
    rfl
  have hreached : NoError (earlier ++ [.ok (some content)]) :=
    noError_append.mpr ⟨hno, List.forall_mem_singleton.mpr ⟨_, rfl⟩⟩
  have hcount : (passing (earlier ++ [.ok (some content)])).length = n + 1 := by
    rw [passing_append, List.length_append, hlength]
    rfl
  have hfirst : firstRows (some (n + 1))
      (earlier ++ .ok (some content) :: later ++ (groups.flatten ++ last)) =
        .ok (passing (earlier ++ [.ok (some content)])) := by
    rw [List.append_assoc, List.cons_append, hsplit, firstRows_append hreached
      fun m hm => Option.some.inj hm ▸ Nat.le_of_eq hcount, hcount, Option.map_some, Nat.sub_self,
      firstRows_zero, prepend, List.append_nil]
  rw [hfirst, groupedRows, if_neg (by intro h; cases h), hsplit]
  cases hrows : firstRows none ((earlier ++ [.ok (some content)]) ++ later) with
  | ok sent =>
    obtain ⟨hall, rfl⟩ := firstRows_none_eq_ok.mp hrows
    obtain ⟨-, hlater⟩ := noError_append.mp hall
    have hzero : (some (n + 1)).map
        (· - (passing ((earlier ++ [.ok (some content)]) ++ later)).length) = some 0 := by
      rw [passing_append, List.length_append, hcount, Option.map_some, Option.some.injEq]
      omega
    simp only [hzero]
    rw [groupedRows_zero, prepend, List.append_nil, passing_append, ← passing_eq_nil hlater]
    constructor
    · intro hsame
      exact List.append_right_eq_self.mp (Except.ok.inj ((hsame _).mp rfl)).symm
    · intro hnil contents
      rw [hnil, List.append_nil]
  | error err =>
    constructor
    · intro hsame
      cases (hsame _).mpr rfl
    · intro hlater
      have hall : NoError ((earlier ++ [.ok (some content)]) ++ later) :=
        noError_append.mpr ⟨hreached, fun row hrow => ⟨none, hlater row hrow⟩⟩
      rw [firstRows_none_eq_ok.mpr ⟨hall, rfl⟩] at hrows
      cases hrows

/-- A loop that tests the limit between the groups sends the first rows if and only if the
limit is not reached within a group. -/
theorem groupedRows_iff (last : List Row) (limit : Option Nat) (groups : List (List Row)) :
    SameRows (groupedRows last limit groups) (firstRows limit (groups.flatten ++ last)) ↔
      ∀ n, limit = some n → LimitEndsGroup n groups := by
  induction groups generalizing limit with
  | nil =>
    rw [groupedRows, List.flatten_nil, List.nil_append]
    refine ⟨fun _ n _ before after earlier content later heq => ?_, fun _ _ => Iff.rfl⟩
    cases (List.append_eq_nil_iff.mp heq.symm).2
  | cons rows groups ih =>
    rw [List.flatten_cons, List.append_assoc]
    -- A group that is sent in full leaves both with the same limit.
    have hsent : NoError rows → (∀ n, limit = some n → (passing rows).length < n) →
        (SameRows (groupedRows last limit (rows :: groups))
            (firstRows limit (rows ++ (groups.flatten ++ last))) ↔
          ∀ n, limit.map (· - (passing rows).length) = some n → LimitEndsGroup n groups) := by
      intro hno hlt
      have hzero : limit ≠ some 0 := fun h => absurd (hlt 0 h) (Nat.not_lt_zero _)
      rw [groupedRows, if_neg hzero, firstRows_none_eq_ok.mpr ⟨hno, rfl⟩,
        firstRows_append hno fun n hn => Nat.le_of_lt (hlt n hn)]
      exact sameRows_prepend.trans (ih _)
    cases limit with
    | none =>
      have htrivial : ∀ n, (none : Option Nat) = some n → LimitEndsGroup n (rows :: groups) :=
        fun n hn => nomatch hn
      refine iff_of_true (fun contents => ?_) htrivial
      cases hrows : firstRows none rows with
      | ok sent =>
        obtain ⟨hno, -⟩ := firstRows_none_eq_ok.mp hrows
        exact (hsent hno fun _ hn => nomatch hn).mpr (fun _ hn => nomatch hn) contents
      | error err =>
        rw [groupedRows, if_neg (by intro h; cases h), hrows]
        refine iff_of_false (fun h => nomatch h) fun hok => ?_
        obtain ⟨hno, -⟩ := firstRows_none_eq_ok.mp hok
        have hok' := firstRows_none_eq_ok.mpr ⟨(noError_append.mp hno).1, rfl⟩
        rw [hrows] at hok'
        cases hok'
    | some n =>
      have hforall : (∀ m, some n = some m → LimitEndsGroup m (rows :: groups)) ↔
          LimitEndsGroup n (rows :: groups) :=
        ⟨fun h => h n rfl, fun h m hm => Option.some.inj hm ▸ h⟩
      rw [hforall]
      cases n with
      | zero =>
        rw [groupedRows, if_pos rfl, firstRows_zero]
        refine iff_of_true (fun _ => Iff.rfl) fun _ _ _ _ _ _ _ hlength => ?_
        exact absurd hlength (Nat.succ_ne_zero _)
      | succ n =>
        rcases reaches_cases rows n with ⟨hno, hlt⟩ |
          ⟨earlier, content, later, rfl, hno, hlength⟩ | ⟨earlier, err, later, rfl, hno, hlt⟩
        · rw [hsent hno fun m hm => Option.some.inj hm ▸ hlt,
            limitEndsGroup_of_not_reached hno hlt]
          exact ⟨fun h => h _ rfl, fun h m hm => Option.some.inj hm ▸ h⟩
        · rw [limitEndsGroup_of_reached hno hlength]
          exact sameRows_of_reached last hno hlength
        · refine iff_of_true (fun contents => ?_) (limitEndsGroup_of_error hlt)
          have hfails : ¬ NoError (earlier ++ .error err :: later) := fun hno' => by
            obtain ⟨content, h⟩ := hno' _ (List.mem_append_right _ List.mem_cons_self)
            cases h
          have hzero : (some (n + 1)).map (· - (passing earlier).length) ≠ some 0 := by
            rw [Option.map_some, ne_eq, Option.some.injEq]
            omega
          rw [List.append_assoc, List.cons_append, firstRows_append hno
            fun m hm => Option.some.inj hm ▸ Nat.le_of_lt hlt, firstRows_error hzero,
              groupedRows,
            if_neg (by intro h; cases h)]
          cases hrows : firstRows none (earlier ++ .error err :: later) with
          | ok sent => exact absurd (firstRows_none_eq_ok.mp hrows).1 hfails
          | error err' => exact ⟨fun h => (nomatch h), fun h => (nomatch h)⟩

end Fs3.Select
