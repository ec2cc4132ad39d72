import Mathlib.Data.List.Basic

/-! # Reading in pieces

A reader is asked for up to so many elements at a time. -/

namespace Fs3.Foundation

/-- What a call returns. -/
structure ReadResult (α ε : Type*) where
  bytes : List α
  err : Option ε := none
  deriving DecidableEq

namespace Reading

variable {σ α ε : Type*} (read : σ → Nat → ReadResult α ε × σ)

def run : σ → List Nat → List α × σ
  | s, [] => ([], s)
  | s, size :: sizes =>
    let rest := run (read s size).2 sizes
    ((read s size).1.bytes ++ rest.1, rest.2)

def resultAfter (s : σ) (sizes : List Nat) (size : Nat) : ReadResult α ε :=
  (read (run read s sizes).2 size).1

def deliveredAfter (s : σ) (sizes : List Nat) (size : Nat) : List α :=
  (run read s sizes).1 ++ (resultAfter read s sizes size).bytes

variable {read}

section

variable {inv : List α → σ → Prop}
  (hstep : ∀ delivered s size, inv delivered s → inv (delivered ++ (read s size).1.bytes) (read s size).2)
include hstep

theorem run_invariant {delivered : List α} {s : σ} (hs : inv delivered s) (sizes : List Nat) :
    inv (delivered ++ (run read s sizes).1) (run read s sizes).2 := by
  induction sizes generalizing delivered s with
  | nil =>
    rw [run, List.append_nil]
    exact hs
  | cons size sizes ih =>
    rw [run, ← List.append_assoc]
    exact ih (hstep _ _ size hs)

theorem resultAfter_of_invariant {s : σ} (hs : inv [] s) (sizes : List Nat) (size : Nat) :
    ∃ s', inv (run read s sizes).1 s' ∧ resultAfter read s sizes size = (read s' size).1 :=
  ⟨_, run_invariant hstep hs sizes, rfl⟩

end

end Reading

end Fs3.Foundation

/-! ## Texts that are read record by record

A reader takes records from the start of a text, one after the other. Where a text is
cut behind a separator, and no record of what is before the cut goes on behind it, the
parts can be read by themselves.
-/

namespace Fs3.Foundation

/-- What a reader takes from the start of a text: a record with what is behind it, and
whether a separator ended it rather than the end of the text. -/
inductive Taken (α ρ ε : Type) where
  | eof
  | record (fields : ρ) (rest : List α) (ended : Bool)
  | fault (err : ε)

abbrev RecordReader (α ρ ε : Type) := List α → Taken α ρ ε

def Terminated {α : Type} (separator : α) (text : List α) : Prop :=
  text = [] ∨ ∃ before, text = before ++ [separator]

theorem Terminated.of_append {α : Type} {separator : α} {before text : List α}
    (h : Terminated separator (before ++ text)) : Terminated separator text := by
  rcases List.eq_nil_or_concat text with rfl | ⟨init, last, rfl⟩
  · exact Or.inl rfl
  · rw [List.concat_eq_append, ← List.append_assoc] at h
    rw [List.concat_eq_append]
    rcases h with hnil | ⟨whole, hwhole⟩
    · cases List.append_eq_nil_iff.mp hnil with
      | intro _ hlast => cases hlast
    · obtain ⟨-, hlast⟩ := List.append_inj' hwhole rfl
      cases hlast
      exact Or.inr ⟨init, rfl⟩

namespace RecordReader

variable {α ρ ε : Type} (read : RecordReader α ρ ε)

/-- What a reader promises: it takes something for each record, a record that is ended by a
separator does not depend on what follows, and neither do lines that it skips or finds
fault with. -/
structure Lawful (separator : α) : Prop where
  nil : read [] = .eof
  taken : ∀ {text fields rest ended}, read text = .record fields rest ended →
    ∃ before, before ≠ [] ∧ text = before ++ rest
  separated : ∀ {text fields rest}, read text = .record fields rest true →
    ∃ before, text = before ++ separator :: rest
  ended : ∀ {text fields rest}, read text = .record fields rest true →
    ∀ more, read (text ++ more) = .record fields (rest ++ more) true
  skipped : ∀ {text}, read (text ++ [separator]) = .eof →
    ∀ more, read (text ++ [separator] ++ more) = read more
  fault : ∀ {text err}, read (text ++ [separator]) = .fault err →
    ∀ more, read (text ++ [separator] ++ more) = .fault err

def all (text : List α) : List ρ × Option ε :=
  match read text with
  | .eof => ([], none)
  | .fault err => ([], some err)
  | .record fields rest _ =>
    if rest.length < text.length then (fields :: (all rest).1, (all rest).2)
    else ([fields], none)
termination_by text.length

/-- No record of the text goes on where the text ends. -/
inductive Closed : List α → Prop
  | eof {text} (hread : read text = .eof) : Closed text
  | fault {text err} (hread : read text = .fault err) : Closed text
  | record {text fields rest} (hread : read text = .record fields rest true)
      (hrest : Closed rest) : Closed text

def joined (first second : List ρ × Option ε) : List ρ × Option ε :=
  match first.2 with
  | some err => (first.1, some err)
  | none => (first.1 ++ second.1, second.2)

variable {read} {separator : α} {text more rest : List α} {fields : ρ} {err : ε} {ended : Bool}

theorem all_eof (hread : read text = .eof) : all read text = ([], none) := by
  rw [all, hread]

theorem all_fault (hread : read text = .fault err) : all read text = ([], some err) := by
  rw [all, hread]

namespace Lawful

variable (hlawful : read.Lawful separator)

include hlawful

theorem length_lt (hread : read text = .record fields rest ended) :
    rest.length < text.length := by
  obtain ⟨before, hbefore, rfl⟩ := hlawful.taken hread
  rw [List.length_append]
  have := List.length_pos_of_ne_nil hbefore
  omega

theorem all_record (hread : read text = .record fields rest ended) :
    all read text = (fields :: (all read rest).1, (all read rest).2) := by
  rw [all, hread]
  exact if_pos (hlawful.length_lt hread)

theorem all_nil : all read [] = ([], none) := all_eof hlawful.nil

theorem all_congr (hread : read text = read more) : all read text = all read more := by
  cases hmore : read more with
  | eof => rw [all_eof hmore, all_eof (hread.trans hmore)]
  | fault err => rw [all_fault hmore, all_fault (hread.trans hmore)]
  | record fields rest ended =>
    rw [hlawful.all_record hmore, hlawful.all_record (hread.trans hmore)]

theorem all_append (hclosed : Closed read text) (hterminated : Terminated separator text)
    (more : List α) : all read (text ++ more) = joined (all read text) (all read more) := by
  induction hclosed with
  | eof hread =>
    rw [all_eof hread]
    rcases hterminated with rfl | ⟨before, rfl⟩
    · rfl
    · exact hlawful.all_congr (hlawful.skipped hread more)
  | fault hread =>
    rcases hterminated with rfl | ⟨before, rfl⟩
    · rw [hlawful.nil] at hread
      cases hread
    · rw [all_fault hread, all_fault (hlawful.fault hread more)]
      rfl
  | record hread _ ih =>
    obtain ⟨before, -, rfl⟩ := hlawful.taken hread
    rw [hlawful.all_record (hlawful.ended hread more), hlawful.all_record hread,
      ih hterminated.of_append]
    unfold joined
    split
    next hfault => simp only [hfault]
    next hnone => simp only [hnone, List.cons_append]

end Lawful

end RecordReader

end Fs3.Foundation
