import Fs3.Foundation.Histories
import Fs3.Select.CsvReader

/-! # Record delimiters as newlines

A reader that hands on a stream with each record delimiter replaced by a newline. -/

namespace Fs3.Select.Csv

open Foundation

/-- A record delimiter of one byte or two. -/
inductive RecordDelimiter where
  | one (d : UInt8)
  | two (d₀ d₁ : UInt8)

section Two

variable (d₀ d₁ : UInt8)

def replaceTwo : List UInt8 → List UInt8
  | a :: b :: rest =>
    if a = d₀ ∧ b = d₁ then newline :: replaceTwo rest else a :: replaceTwo (b :: rest)
  | rest => rest

def squeeze : Nat → List UInt8 → List UInt8
  | fuel + 1, a :: b :: rest =>
    if a = d₀ ∧ b = d₁ then squeeze fuel (newline :: rest) else a :: squeeze fuel (b :: rest)
  | _, p => p

end Two

def replaceAll : RecordDelimiter → List UInt8 → List UInt8
  | .one d, stream => stream.map fun b => if b = d then newline else b
  | .two d₀ d₁, stream => replaceTwo d₀ d₁ stream

/-! ## Reading -/

/-- The byte that was read ahead, and whether it is still to be handed on. -/
structure RecordTransform where
  oneByte : UInt8 := 0
  useOneByte : Bool := false

namespace RecordTransform

/-- What the source answers to a read. -/
structure SourceRead where
  data : List UInt8
  eof : Bool := false

/-- A call: the contents of its buffer, and the answers of the source to the read and to
the look ahead. -/
structure Call where
  p : List UInt8
  main : SourceRead
  ahead : SourceRead := ⟨[], true⟩

/-- The bytes that a call returns, whether it reports the end, and what it took. -/
structure Returned where
  bytes : List UInt8
  eof : Bool
  taken : List UInt8
  next : RecordTransform

variable (rr : RecordTransform)

def pending : List UInt8 := if rr.useOneByte then [rr.oneByte] else []

/-- `Read`; nothing is returned where it indexes before its buffer. -/
def read (recordDelimiter : RecordDelimiter) (call : Call) : Option Returned :=
  let chunk := rr.pending ++ call.main.data
  let p := chunk ++ call.p.drop chunk.length
  let taken := call.main.data
  let next := { rr with useOneByte := false }
  if call.main.eof then some { bytes := chunk, eof := true, taken, next }
  else
    match recordDelimiter with
    | .one d =>
      if d = newline then some { bytes := chunk, eof := false, taken, next }
      else
        let p := p.map fun b => if b = d then newline else b
        some { bytes := p.take chunk.length, eof := false, taken, next }
    | .two d₀ d₁ =>
      let squeezed := squeeze d₀ d₁ p.length p
      let n := chunk.length + squeezed.length - p.length
      if n = 0 then none
      else
        let bytes := squeezed.take n
        if bytes.getLast? ≠ some d₀ then some { bytes, eof := false, taken, next }
        else
          let taken := taken ++ call.ahead.data
          let oneByte := call.ahead.data.headD rr.oneByte
          if call.ahead.eof then some { bytes, eof := true, taken, next := { next with oneByte } }
          else if oneByte = d₁ then
            some { bytes := bytes.dropLast ++ [newline], eof := false, taken,
                   next := { next with oneByte } }
          else some { bytes, eof := false, taken, next := { oneByte, useOneByte := true } }

/-- The reader in use: what it has taken from the source and what it has returned. -/
structure Session where
  rr : RecordTransform := {}
  delivered : List UInt8 := []
  out : List UInt8 := []
  ended : Bool := false
  panicked : Bool := false

variable (recordDelimiter : RecordDelimiter)

def Session.step (s : Session) (call : Call) : Session :=
  match s.rr.read recordDelimiter call with
  | none => { s with panicked := true }
  | some returned =>
    { s with
      rr := returned.next
      delivered := s.delivered ++ returned.taken
      out := s.out ++ returned.bytes
      ended := s.ended || returned.eof }

/-- What was returned is the stream with its delimiters replaced, as far as it goes. -/
structure Session.Faithful (s : Session) : Prop where
  panicked : s.panicked = false
  running : s.ended = false →
    ∀ rest, s.out <+: replaceAll recordDelimiter (s.delivered ++ rest)
  ended : s.ended = true → s.out = replaceAll recordDelimiter s.delivered

/-- A source that has ended stays so, a read with which it ends brings no delimiter; for a
delimiter of two bytes, every read brings something, none begins with the last byte in the
old contents of the buffer, a newline put for one does not begin another, and a look ahead
brings a byte or the end, not both. -/
def Session.Good (s : Session) (call : Call) : Prop :=
  let chunk := s.rr.pending ++ call.main.data
  (s.ended = true → call.main.data = [] ∧ call.main.eof = true) ∧
  (call.main.eof = true → replaceAll recordDelimiter chunk = chunk) ∧
  (call.main.eof = false →
    match recordDelimiter with
    | .one _ => True
    | .two d₀ d₁ =>
      chunk ≠ [] ∧
      ¬ [d₀, d₁] <:+: (replaceTwo d₀ d₁ chunk).getLast?.toList ++ call.p.drop chunk.length ∧
      (d₀ = newline → ¬ [d₀, d₁, d₁] <:+: chunk ++ call.ahead.data) ∧
      ((replaceTwo d₀ d₁ chunk).getLast? = some d₀ →
        call.ahead.data = [] ∧ call.ahead.eof = true ∨
          ∃ b, call.ahead.data = [b] ∧ call.ahead.eof = false))

end RecordTransform

/-! ## Replacing in pieces -/

section Pieces

variable {d₀ d₁ : UInt8}

theorem replaceTwo_ne_nil {xs : List UInt8} (hxs : xs ≠ []) : replaceTwo d₀ d₁ xs ≠ [] := by
  cases xs with
  | nil => exact absurd rfl hxs
  | cons a xs =>
    cases xs with
    | nil => exact List.cons_ne_nil _ _
    | cons b xs =>
      rw [replaceTwo]
      split
      · exact List.cons_ne_nil _ _
      · exact List.cons_ne_nil _ _

theorem getLast?_cons_replaceTwo (a : UInt8) {xs : List UInt8} (hxs : xs ≠ []) :
    (a :: replaceTwo d₀ d₁ xs).getLast? = (replaceTwo d₀ d₁ xs).getLast? := by
  rw [List.getLast?_cons, List.getLast?_eq_some_getLast (replaceTwo_ne_nil hxs)]
  rfl

/-- A stream is replaced in two pieces unless the cut may be in a delimiter. -/
theorem replaceTwo_append (xs : List UInt8) {ys : List UInt8}
    (hcut : (replaceTwo d₀ d₁ xs).getLast? = some d₀ → ys.head? ≠ some d₁) :
    replaceTwo d₀ d₁ (xs ++ ys) = replaceTwo d₀ d₁ xs ++ replaceTwo d₀ d₁ ys := by
  induction xs using replaceTwo.induct d₀ d₁ with
  | case1 a b rest hmatch ih =>
    simp only [List.cons_append, replaceTwo, if_pos hmatch] at hcut ⊢
    cases rest with
    | nil => rfl
    | cons c rest =>
      rw [ih (by rwa [getLast?_cons_replaceTwo _ (List.cons_ne_nil _ _)] at hcut)]
  | case2 a b rest hmatch ih =>
    simp only [List.cons_append, replaceTwo, if_neg hmatch] at hcut ih ⊢
    rw [ih (by rwa [getLast?_cons_replaceTwo _ (List.cons_ne_nil _ _)] at hcut)]
  | case3 xs hshort =>
    cases xs with
    | nil => rfl
    | cons a xs =>
      cases xs with
      | cons b xs => exact absurd rfl (hshort a b xs)
      | nil =>
        cases ys with
        | nil => rfl
        | cons y ys =>
          have hne : ¬ (a = d₀ ∧ y = d₁) := by
            rintro ⟨rfl, rfl⟩
            exact hcut rfl rfl
          simp only [List.cons_append, List.nil_append, replaceTwo, if_neg hne]

/-- A delimiter in the cut is replaced once its second byte is there. -/
theorem replaceTwo_append_cut (xs : List UInt8) (ys : List UInt8)
    (hlast : (replaceTwo d₀ d₁ xs).getLast? = some d₀)
    (hagain : d₀ = newline → ¬ [d₀, d₁, d₁] <:+: xs ++ [d₁]) :
    replaceTwo d₀ d₁ (xs ++ d₁ :: ys) =
      (replaceTwo d₀ d₁ xs).dropLast ++ newline :: replaceTwo d₀ d₁ ys := by
  induction xs using replaceTwo.induct d₀ d₁ with
  | case1 a b rest hmatch ih =>
    simp only [List.cons_append, replaceTwo, if_pos hmatch] at hlast ⊢
    cases rest with
    | nil =>
      obtain ⟨rfl, rfl⟩ := hmatch
      exact absurd List.infix_rfl (hagain (Option.some.inj hlast).symm)
    | cons c rest =>
      rw [getLast?_cons_replaceTwo _ (List.cons_ne_nil _ _)] at hlast
      rw [ih hlast fun hnewline hinside => hagain hnewline
        (hinside.trans (List.suffix_append [a, b] _).isInfix),
        List.dropLast_cons_of_ne_nil (replaceTwo_ne_nil (List.cons_ne_nil _ _)),
        List.cons_append]
  | case2 a b rest hmatch ih =>
    simp only [List.cons_append, replaceTwo, if_neg hmatch] at hlast ih ⊢
    rw [getLast?_cons_replaceTwo _ (List.cons_ne_nil _ _)] at hlast
    rw [ih hlast fun hnewline hinside => hagain hnewline
      (hinside.trans (List.suffix_append [a] _).isInfix),
      List.dropLast_cons_of_ne_nil (replaceTwo_ne_nil (List.cons_ne_nil _ _)),
      List.cons_append]
  | case3 xs hshort =>
    cases xs with
    | nil => cases hlast
    | cons a xs =>
      cases xs with
      | cons b xs => exact absurd rfl (hshort a b xs)
      | nil =>
        obtain rfl : a = d₀ := Option.some.inj hlast
        simp only [List.cons_append, List.nil_append, replaceTwo, and_self, if_true]
        rfl

theorem squeeze_self {fuel : Nat} {p : List UInt8} (hnone : ¬ [d₀, d₁] <:+: p) :
    squeeze d₀ d₁ fuel p = p := by
  induction fuel, p using squeeze.induct d₀ d₁ with
  | case1 fuel a b rest hmatch =>
    obtain ⟨rfl, rfl⟩ := hmatch
    exact absurd (List.prefix_append [a, b] rest).isInfix hnone
  | case2 fuel a b rest hmatch ih =>
    rw [squeeze, if_neg hmatch, ih fun hinside => hnone (List.infix_cons hinside)]
  | case3 fuel p hshort =>
    rw [squeeze]
    exact hshort

/-- The loop replaces in what was read, and leaves the rest of the buffer. -/
theorem squeeze_append (xs : List UInt8) {stale : List UInt8} {fuel : Nat}
    (hfuel : (xs ++ stale).length ≤ fuel)
    (hstale : ¬ [d₀, d₁] <:+: (replaceTwo d₀ d₁ xs).getLast?.toList ++ stale)
    (hagain : d₀ = newline → ¬ [d₀, d₁, d₁] <:+: xs) :
    squeeze d₀ d₁ fuel (xs ++ stale) = replaceTwo d₀ d₁ xs ++ stale := by
  induction xs using replaceTwo.induct d₀ d₁ generalizing fuel with
  | case1 a b rest hmatch ih =>
    obtain ⟨fuel, rfl⟩ : ∃ f, fuel = f + 1 := Nat.exists_eq_succ_of_ne_zero (by simp at hfuel; omega)
    simp only [List.cons_append, replaceTwo, squeeze, if_pos hmatch] at hstale ⊢
    cases rest with
    | nil => exact squeeze_self hstale
    | cons c rest =>
      have hnext : ¬ (newline = d₀ ∧ c = d₁) := by
        rintro ⟨hnewline, rfl⟩
        obtain ⟨rfl, rfl⟩ := hmatch
        exact hagain hnewline.symm (List.prefix_append [_, _, _] rest).isInfix
      obtain ⟨fuel, rfl⟩ : ∃ f, fuel = f + 1 :=
        Nat.exists_eq_succ_of_ne_zero (by simp at hfuel; omega)
      rw [getLast?_cons_replaceTwo _ (List.cons_ne_nil _ _)] at hstale
      have hrest := @ih fuel (by simp at hfuel ⊢; omega) hstale fun hnewline hinside =>
        hagain hnewline (hinside.trans (List.suffix_append [a, b] _).isInfix)
      rw [List.cons_append] at hrest ⊢
      rw [squeeze, if_neg hnext, hrest]
  | case2 a b rest hmatch ih =>
    obtain ⟨fuel, rfl⟩ : ∃ f, fuel = f + 1 := Nat.exists_eq_succ_of_ne_zero (by simp at hfuel; omega)
    simp only [List.cons_append, replaceTwo, squeeze, if_neg hmatch] at hstale ih ⊢
    rw [getLast?_cons_replaceTwo _ (List.cons_ne_nil _ _)] at hstale
    rw [ih (by simp at hfuel ⊢; omega) hstale fun hnewline hinside =>
      hagain hnewline (List.infix_cons hinside)]
  | case3 xs hshort =>
    cases xs with
    | nil => exact squeeze_self hstale
    | cons a xs =>
      cases xs with
      | nil => exact squeeze_self hstale
      | cons b xs => exact absurd rfl (hshort a b xs)

end Pieces

/-! ## Runs -/

namespace RecordTransform

section Reads

variable {rr : RecordTransform} {call : Call}

theorem read_eof (recordDelimiter : RecordDelimiter) (heof : call.main.eof = true) :
    rr.read recordDelimiter call =
      some { bytes := rr.pending ++ call.main.data, eof := true, taken := call.main.data,
             next := { rr with useOneByte := false } } := by
  unfold read
  rw [if_pos heof]

theorem read_one (d : UInt8) (heof : call.main.eof = false) :
    rr.read (.one d) call =
      some { bytes := replaceAll (.one d) (rr.pending ++ call.main.data), eof := false,
             taken := call.main.data, next := { rr with useOneByte := false } } := by
  unfold read
  simp only [heof, Bool.false_eq_true, if_false, replaceAll]
  by_cases hnewline : d = newline
  · have hsame : ∀ b : UInt8, (if b = d then newline else b) = b := by
      intro b
      split
      next heq => rw [heq, hnewline]
      next => rfl
    simp only [if_pos hnewline, hsame, List.map_id']
  · rw [if_neg hnewline, List.map_append, List.take_left' (List.length_map _)]

/-- A read replaces in what it got, if the old contents of the buffer do not interfere. -/
theorem read_two {d₀ d₁ : UInt8} (heof : call.main.eof = false) {chunk : List UInt8}
    (hchunk : rr.pending ++ call.main.data = chunk) (hne : chunk ≠ [])
    (hstale : ¬ [d₀, d₁] <:+:
      (replaceTwo d₀ d₁ chunk).getLast?.toList ++ call.p.drop chunk.length)
    (hagain : d₀ = newline → ¬ [d₀, d₁, d₁] <:+: chunk) :
    rr.read (.two d₀ d₁) call =
      let bytes := replaceTwo d₀ d₁ chunk
      let next := { rr with useOneByte := false }
      let oneByte := call.ahead.data.headD rr.oneByte
      let taken := call.main.data ++ call.ahead.data
      if bytes.getLast? ≠ some d₀ then some { bytes, eof := false, taken := call.main.data, next }
      else if call.ahead.eof then some { bytes, eof := true, taken, next := { next with oneByte } }
      else if oneByte = d₁ then
        some { bytes := bytes.dropLast ++ [newline], eof := false, taken,
               next := { next with oneByte } }
      else some { bytes, eof := false, taken, next := { oneByte, useOneByte := true } } := by
  have hcount : chunk.length + (replaceTwo d₀ d₁ chunk ++ call.p.drop chunk.length).length -
      (chunk ++ call.p.drop chunk.length).length = (replaceTwo d₀ d₁ chunk).length := by
    simp only [List.length_append]
    omega
  have hpos : (replaceTwo d₀ d₁ chunk).length ≠ 0 :=
    fun hzero => replaceTwo_ne_nil hne (List.length_eq_zero_iff.mp hzero)
  unfold read
  simp only [heof, Bool.false_eq_true, if_false, hchunk, squeeze_append chunk le_rfl hstale hagain,
    hcount, if_neg hpos, List.take_left]

end Reads

/-- What carries over from call to call. -/
structure Session.Inv (recordDelimiter : RecordDelimiter) (s : Session) : Prop where
  panicked : s.panicked = false
  running : s.ended = false → ∀ rest, replaceAll recordDelimiter (s.delivered ++ rest) =
    s.out ++ replaceAll recordDelimiter (s.rr.pending ++ rest)
  ended : s.ended = true → s.out = replaceAll recordDelimiter s.delivered ∧ s.rr.pending = []

variable {recordDelimiter : RecordDelimiter} {s : Session} {call : Call}

theorem Session.Inv.faithful (hinv : s.Inv recordDelimiter) : s.Faithful recordDelimiter where
  panicked := hinv.panicked
  running hrunning rest := ⟨_, (hinv.running hrunning rest).symm⟩
  ended hended := (hinv.ended hended).1

/-- What is left to replace, once a call has returned its part. -/
theorem Session.Inv.goOn (hinv : s.Inv recordDelimiter) (hrunning : s.ended = false)
    {returned : Returned} (hread : s.rr.read recordDelimiter call = some returned)
    (hmore : returned.eof = false → ∀ rest,
      replaceAll recordDelimiter (s.rr.pending ++ (returned.taken ++ rest)) =
        returned.bytes ++ replaceAll recordDelimiter (returned.next.pending ++ rest))
    (hlast : returned.eof = true → returned.next.pending = [] ∧
      replaceAll recordDelimiter (s.rr.pending ++ returned.taken) = returned.bytes) :
    (s.step recordDelimiter call).Inv recordDelimiter := by
  have hall := hinv.running hrunning
  unfold Session.step
  rw [hread]
  refine ⟨hinv.panicked, ?_, ?_⟩
  · intro hgoes rest
    dsimp only at hgoes ⊢
    rw [hrunning, Bool.false_or] at hgoes
    rw [List.append_assoc, hall, hmore hgoes, List.append_assoc]
  · intro hends
    dsimp only at hends ⊢
    rw [hrunning, Bool.false_or] at hends
    obtain ⟨hpending, hbytes⟩ := hlast hends
    exact ⟨by rw [hall, hbytes], hpending⟩

theorem Session.Inv.step (hinv : s.Inv recordDelimiter) (hgood : s.Good recordDelimiter call) :
    (s.step recordDelimiter call).Inv recordDelimiter := by
  obtain ⟨hstays, hfinal, hmore⟩ := hgood
  cases hended : s.ended with
  | true =>
    obtain ⟨hdata, heof⟩ := hstays hended
    obtain ⟨hout, hpending⟩ := hinv.ended hended
    unfold Session.step
    rw [read_eof recordDelimiter heof]
    refine ⟨hinv.panicked, fun hrunning => ?_, fun _ => ⟨?_, rfl⟩⟩
    · simp [hended] at hrunning
    · simpa [hdata, hpending] using hout
  | false =>
    cases heof : call.main.eof with
    | true =>
      apply hinv.goOn hended (read_eof recordDelimiter heof)
      · exact fun hgoes => absurd hgoes.symm Bool.false_ne_true
      · exact fun _ => ⟨rfl, hfinal heof⟩
    | false =>
      have hmore := hmore heof
      cases recordDelimiter with
      | one d =>
        apply hinv.goOn hended (read_one d heof)
        · intro _ rest
          simp [replaceAll, pending]
        · exact fun hends => absurd hends Bool.false_ne_true
      | two d₀ d₁ =>
        generalize hchunk : s.rr.pending ++ call.main.data = chunk at hmore
        obtain ⟨hne, hstale, hagain, hahead⟩ := hmore
        have hread := read_two heof hchunk hne hstale fun hnewline hinside =>
          hagain hnewline (hinside.trans (List.prefix_append _ _).isInfix)
        dsimp only at hread
        by_cases hlook : (replaceTwo d₀ d₁ chunk).getLast? = some d₀
        · rw [if_neg (not_not.mpr hlook)] at hread
          obtain ⟨hdata, hends⟩ | ⟨b, hdata, hgoes⟩ := hahead hlook
          · rw [if_pos hends] at hread
            apply hinv.goOn hended hread
            · exact fun hgoes => absurd hgoes.symm Bool.false_ne_true
            · refine fun _ => ⟨rfl, ?_⟩
              rw [hdata, List.append_nil, hchunk]
              rfl
          · rw [hgoes, if_neg Bool.false_ne_true, hdata, List.headD_cons] at hread
            rw [hdata] at hagain
            by_cases hsecond : b = d₁
            · subst hsecond
              rw [if_pos rfl] at hread
              apply hinv.goOn hended hread
              · intro _ rest
                have hcut := replaceTwo_append_cut chunk rest hlook hagain
                simp only [replaceAll, pending, ← hchunk] at hcut ⊢
                simpa using hcut
              · exact fun hends => absurd hends Bool.false_ne_true
            · rw [if_neg hsecond] at hread
              apply hinv.goOn hended hread
              · intro _ rest
                have hpieces := @replaceTwo_append d₀ d₁ chunk (b :: rest)
                  fun _ hhead => hsecond (Option.some.inj hhead)
                simp only [replaceAll, pending, ← hchunk] at hpieces ⊢
                simpa using hpieces
              · exact fun hends => absurd hends Bool.false_ne_true
        · rw [if_pos hlook] at hread
          apply hinv.goOn hended hread
          · intro _ rest
            have hpieces := @replaceTwo_append d₀ d₁ chunk rest fun hlast => absurd hlast hlook
            simp only [replaceAll, pending, ← hchunk] at hpieces ⊢
            simpa using hpieces
          · exact fun hends => absurd hends Bool.false_ne_true

/-- As long as every call is a good one, the reader returns the stream with its delimiters
replaced. -/
theorem reads_faithful (recordDelimiter : RecordDelimiter) (calls : List Call)
    (hgood : Guarded (Session.step recordDelimiter) (Session.Good recordDelimiter) {} calls) :
    Always (Session.step recordDelimiter) (Session.Faithful recordDelimiter) {} calls := by
  refine (hgood.always (fun s call hinv hgood => Session.Inv.step hinv hgood) ?_).imp
    fun s hinv => hinv.faithful
  exact ⟨rfl, fun _ _ => rfl, fun hended => absurd hended Bool.false_ne_true⟩

/-- A delimiter that is cut between two reads. -/
theorem cutDelimiter_faithful :
    Always (Session.step (.two 13 10)) (Session.Faithful (.two 13 10)) {}
      [{ p := [0, 0], main := ⟨[97, 13], false⟩, ahead := ⟨[10], false⟩ },
        { p := [0, 0], main := ⟨[], true⟩ }] := by
  apply reads_faithful
  rw [guarded_cons, guarded_cons]
  refine ⟨⟨by decide, by decide, fun _ => ⟨by decide, by decide, by decide, fun _ => Or.inr ?_⟩⟩,
    ⟨by decide, by decide, fun heof => absurd heof.symm Bool.false_ne_true⟩, guarded_nil⟩
  exact ⟨10, rfl, rfl⟩

/-- A delimiter that comes with the end of the stream is not replaced. -/
theorem finalRead_not_replaced :
    ¬ Always (Session.step (.two 13 10)) (Session.Faithful (.two 13 10)) {}
      [{ p := [0, 0, 0], main := ⟨[97, 13, 10], true⟩ }] := by
  intro halways
  have hout := (halways _ List.prefix_rfl).ended rfl
  exact absurd hout (by decide)

end RecordTransform

end Fs3.Select.Csv
