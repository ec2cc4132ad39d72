import Fs3.Foundation.Histories
import Fs3.Tier.Journal

/-! # No pending delete is lost

An entry that was added is kept in the active journal, in the read-only journal or as deleted, as
long as entries are appended to whole journals only, a walk can add again what it could not delete,
no journal is renamed over another one, and a walk removes the journal it has read. -/

namespace Fs3.Tier

open Foundation

def Has (bytes : Bytes) (entry : Jentry) : Prop :=
  ∃ (before : List Jentry) (after : Bytes),
    bytes = before.flatMap Jentry.marshalMsg ++ entry.marshalMsg ++ after

def Holds (file : Option Bytes) (entry : Jentry) : Prop :=
  ∃ body, file = some (header ++ body) ∧ Has body entry

def Whole (file : Option Bytes) : Prop :=
  ∃ entries : List Jentry, file = some (header ++ entries.flatMap Jentry.marshalMsg)

theorem marshalMsg_ne_nil (entry : Jentry) : entry.marshalMsg ≠ [] := by
  intro hnil
  rw [Jentry.marshalMsg, List.append_assoc, List.append_assoc, List.append_assoc,
    List.append_assoc] at hnil
  cases hnil

theorem not_has_nil (entry : Jentry) : ¬ Has [] entry := by
  rintro ⟨before, after, heq⟩
  have hparts := List.append_eq_nil_iff.mp heq.symm
  exact marshalMsg_ne_nil entry (List.append_eq_nil_iff.mp hparts.1).2

theorem Has.append {bytes : Bytes} {entry : Jentry} (hhas : Has bytes entry) (more : Bytes) :
    Has (bytes ++ more) entry := by
  obtain ⟨before, after, rfl⟩ := hhas
  exact ⟨before, after ++ more, by rw [List.append_assoc]⟩

theorem Holds.append {file : Option Bytes} {entry : Jentry} (hholds : Holds file entry)
    (more : Bytes) : Holds (file.map (· ++ more)) entry := by
  obtain ⟨body, rfl, hhas⟩ := hholds
  exact ⟨body ++ more, by rw [Option.map_some, List.append_assoc], hhas.append more⟩

theorem not_holds_none (entry : Jentry) : ¬ Holds none entry := by
  rintro ⟨body, hnone, -⟩
  cases hnone

theorem Whole.holds_append {file : Option Bytes} (hwhole : Whole file) (entry : Jentry) :
    Holds (file.map (· ++ entry.marshalMsg)) entry := by
  obtain ⟨entries, rfl⟩ := hwhole
  exact ⟨entries.flatMap Jentry.marshalMsg ++ entry.marshalMsg,
    by rw [Option.map_some, List.append_assoc], entries, [], by rw [List.append_nil]⟩

theorem Has.decodeMsg {dc : MsgpReader} {bytes rest : Bytes} {entry next : Jentry}
    (hhas : Has bytes entry) (hdecode : dc.decodeMsg bytes = some (next, rest)) :
    entry = next ∨ Has rest entry := by
  obtain ⟨before, after, rfl⟩ := hhas
  cases before with
  | nil =>
    rw [List.flatMap_nil, List.nil_append, dc.decodeMsg_append, Option.some.injEq,
      Prod.mk.injEq] at hdecode
    exact Or.inl hdecode.1
  | cons first before =>
    rw [List.flatMap_cons, List.append_assoc, List.append_assoc, dc.decodeMsg_append,
      Option.some.injEq, Prod.mk.injEq] at hdecode
    exact Or.inr ⟨before, after, by rw [← hdecode.2, List.append_assoc]⟩

theorem Has.decodeMsg_ne_none {dc : MsgpReader} {bytes : Bytes} {entry : Jentry}
    (hhas : Has bytes entry) : dc.decodeMsg bytes ≠ none := by
  obtain ⟨before, after, rfl⟩ := hhas
  cases before with
  | nil =>
    rw [List.flatMap_nil, List.nil_append, dc.decodeMsg_append]
    exact Option.some_ne_none _
  | cons first before =>
    rw [List.flatMap_cons, List.append_assoc, List.append_assoc, dc.decodeMsg_append]
    exact Option.some_ne_none _

/-! ## The operations on the files -/

namespace Journal

variable {j : Journal} {chance : Chance}

theorem open'_ro (j : Journal) (chance : Chance) :
    (j.open' chance).1.ro = j.ro ∧ (j.open' chance).1.roFile = j.roFile := by
  unfold open'
  split
  · exact ⟨rfl, rfl⟩
  · split
    · exact ⟨rfl, rfl⟩
    · dsimp only
      split
      · exact ⟨rfl, rfl⟩
      · split
        · split <;> exact ⟨rfl, rfl⟩
        · exact ⟨rfl, rfl⟩

theorem holds_open' {entry : Jentry} (hholds : Holds j.active entry) (chance : Chance) :
    Holds (j.open' chance).1.active entry := by
  obtain ⟨body, hactive, hhas⟩ := hholds
  have hsome : some (j.active.getD []) = j.active := by rw [hactive, Option.getD_some]
  have hsize : (j.active.getD []).length ≠ 0 := by
    rw [hactive, Option.getD_some, List.length_append]
    exact Nat.ne_of_gt (Nat.lt_of_lt_of_le Nat.two_pos (Nat.le_add_right _ _))
  have hkept : (j.open' chance).1.active = j.active := by
    unfold open'
    dsimp only
    split
    · rfl
    · split
      · rfl
      · split
        · exact hsome
        · exact hsome
  rw [hkept]
  exact ⟨body, hactive, hhas⟩

theorem write_ro (j : Journal) (entry : Jentry) (chance : Chance) :
    (j.write entry chance).1.ro = j.ro ∧ (j.write entry chance).1.roFile = j.roFile := by
  unfold write
  split
  · split <;> exact ⟨rfl, rfl⟩
  · exact ⟨rfl, rfl⟩

theorem holds_write {entry : Jentry} (hholds : Holds j.active entry) (added : Jentry)
    (chance : Chance) : Holds (j.write added chance).1.active entry := by
  unfold write
  split
  · split
    · exact hholds.append _
    · exact hholds.append _
  · exact hholds

theorem write_succeeds {entry : Jentry} (hok : (j.write entry chance).2 = true) :
    j.file = true ∧ chance.writeFails = false ∧
      (j.write entry chance).1.active = j.active.map (· ++ entry.marshalMsg) := by
  unfold write at hok ⊢
  split at hok
  next hfile =>
    rw [if_pos hfile]
    split at hok
    next => cases hok
    next hwritten =>
      rw [if_neg hwritten]
      exact ⟨hfile, Bool.eq_false_iff.mpr hwritten, rfl⟩
  next => cases hok

def Renames (j : Journal) (chance : Chance) : Prop :=
  j.file = true ∧ chance.statFails = false ∧
    (j.active.getD []).length ≠ tierJournalHdrLen ∧ chance.renameFails = false

theorem close_cases (j : Journal) (chance : Chance) :
    (j.Renames chance ∧ j.close chance =
      { active := none, file := false, ro := j.active, roFile := j.roFile + 1 }) ∨
    ((j.close chance).active = j.active ∧ (j.close chance).ro = j.ro ∧
      (j.close chance).roFile = j.roFile) := by
  unfold close
  split
  next => exact Or.inr ⟨rfl, rfl, rfl⟩
  next hfile =>
    split
    next => exact Or.inr ⟨rfl, rfl, rfl⟩
    next hstat =>
      split
      next => exact Or.inr ⟨rfl, rfl, rfl⟩
      next hsize =>
        split
        next => exact Or.inr ⟨rfl, rfl, rfl⟩
        next hrename =>
          refine Or.inl ⟨⟨by simpa using hfile, ?_, hsize, ?_⟩, rfl⟩
          · exact Bool.eq_false_iff.mpr hstat
          · exact Bool.eq_false_iff.mpr hrename

theorem openRO_eq_some {rest : Bytes} (hopen : j.openRO chance = some rest) :
    j.ro = some (header ++ rest) := by
  unfold openRO at hopen
  split at hopen
  next => cases hopen
  next =>
    split at hopen
    next => cases hopen
    next bytes hro =>
      split at hopen
      next => cases hopen
      next =>
        split at hopen
        next htake =>
          obtain rfl := Option.some.inj hopen
          rw [hro, ← htake, List.take_append_drop]
        next => cases hopen

end Journal

namespace System

variable {ι : Type*}

def Kept (s : System ι) (entry : Jentry) : Prop :=
  Holds s.journal.active entry ∨ Holds s.journal.ro entry ∨ entry ∈ s.deleted

def KeepsAdded (s : System ι) : Prop := ∀ entry ∈ s.added, s.Kept entry

def Safe (s : System ι) (entry : Jentry) : Prop :=
  Holds s.journal.active entry ∨ entry ∈ s.deleted

def Removes (s : System ι) (event : ι × Chance) : Prop :=
  (∃ file, s.pcs event.1 = .removing file) ∧ event.2.removeFails = false

/-- No goroutine has begun yet, and what earlier ones have added is kept. -/
structure Start (s : System ι) : Prop where
  idle : ∀ t, s.pcs t = .idle
  kept : s.KeepsAdded

def Good (s : System ι) (event : ι × Chance) : Prop :=
  match s.pcs event.1 with
  | .opening _ walk =>
    -- A walk can open the journal, to add an entry again.
    walk.isSome = true → s.journal.file = true ∨
      event.2.openFails = false ∧ event.2.statFails = false ∧
        (s.journal.active.getD [] = [] → event.2.writeFails = false)
  | .writing _ walk =>
    -- A walk can write the entry, and no entry is put behind the part of another one.
    (walk.isSome = true → s.journal.file = true ∧ event.2.writeFails = false) ∧
      (s.journal.file = true → event.2.writeFails = false → Whole s.journal.active)
  | .closing => s.journal.Renames event.2 → s.journal.ro = none
  | .rotating => s.journal.Renames event.2 → s.journal.ro = none
  | .removing file =>
    event.2.removeFails = false → s.journal.ro ≠ none → file = s.journal.roFile
  | _ => True

end System

/-! ## What a walk has left to do -/

def Pc.reader : Pc → Option Reader
  | .opening _ walk => walk
  | .writing _ walk => walk
  | .reading ro => some ro
  | .deleting _ ro => some ro
  | .removing file => some ⟨file, []⟩
  | _ => none

def Pc.entry : Pc → Option Jentry
  | .opening entry _ => some entry
  | .writing entry _ => some entry
  | .deleting entry _ => some entry
  | _ => none

namespace System

variable {ι : Type*}

/-- A walk of the present read-only journal still has before it the entries that are not
safe. -/
def Walks (s : System ι) (pc : Pc) : Prop :=
  ∀ ro, pc.reader = some ro → ro.file ≤ s.journal.roFile ∧
    (ro.file = s.journal.roFile → ∀ entry, Holds s.journal.ro entry →
      s.Safe entry ∨ Has ro.rest entry ∨ pc.entry = some entry)

structure Sound (s : System ι) : Prop where
  kept : s.KeepsAdded
  walks : ∀ t, s.Walks (s.pcs t)

/-- The files and the deleted entries have what they had before. -/
structure Grows (s s' : System ι) : Prop where
  active : ∀ entry, Holds s.journal.active entry → Holds s'.journal.active entry
  ro : s'.journal.ro = s.journal.ro
  roFile : s'.journal.roFile = s.journal.roFile
  deleted : ∀ entry ∈ s.deleted, entry ∈ s'.deleted

variable {s s' : System ι} {t : ι} {pc : Pc}

theorem Grows.of_open' (s : System ι) (chance : Chance) :
    Grows s { s with journal := (s.journal.open' chance).1 } where
  active _ hholds := Journal.holds_open' hholds chance
  ro := (s.journal.open'_ro chance).1
  roFile := (s.journal.open'_ro chance).2
  deleted _ hmem := hmem

theorem Grows.safe (hgrows : Grows s s') {entry : Jentry} (hsafe : s.Safe entry) :
    s'.Safe entry :=
  hsafe.imp (hgrows.active entry) (hgrows.deleted entry)

theorem Grows.kept (hgrows : Grows s s') {entry : Jentry} (hkept : s.Kept entry) :
    s'.Kept entry :=
  hkept.imp (hgrows.active entry)
    (Or.imp (fun hholds => by rw [hgrows.ro]; exact hholds) (hgrows.deleted entry))

theorem Grows.walks (hgrows : Grows s s') (hwalks : s.Walks pc) : s'.Walks pc := by
  intro ro hreader
  obtain ⟨hle, hleft⟩ := hwalks ro hreader
  rw [hgrows.roFile, hgrows.ro]
  exact ⟨hle, fun heq entry hholds => (hleft heq entry hholds).imp_left hgrows.safe⟩

theorem walks_of_reader_none (hnone : pc.reader = none) : s.Walks pc := by
  intro ro hreader
  rw [hnone] at hreader
  cases hreader

theorem Grows.refl (s : System ι) : Grows s s := ⟨fun _ h => h, rfl, rfl, fun _ h => h⟩

theorem Sound.safe_of_removing (hsound : Sound s) {file : Nat} (hpc : s.pcs t = .removing file)
    (hfile : file = s.journal.roFile) {entry : Jentry} (hholds : Holds s.journal.ro entry) :
    s.Safe entry := by
  have hwalks := hsound.walks t
  rw [hpc] at hwalks
  rcases (hwalks ⟨file, []⟩ rfl).2 hfile entry hholds with hsafe | hhas | hnone
  · exact hsafe
  · exact absurd hhas (not_has_nil entry)
  · cases hnone

theorem walks_readNext {dc : MsgpReader} {chance : Chance} {ro : Reader}
    (hwalks : s.Walks (.reading ro)) : s.Walks (readNext dc chance ro) := by
  obtain ⟨hle, hleft⟩ := hwalks ro rfl
  unfold readNext
  split
  next => exact walks_of_reader_none rfl
  next =>
    split
    next entry rest hdecode =>
      intro ro' hreader
      obtain rfl := Option.some.inj hreader
      refine ⟨hle, fun heq other hholds => ?_⟩
      rcases hleft heq other hholds with hsafe | hhas | hnone
      · exact Or.inl hsafe
      · rcases hhas.decodeMsg hdecode with hnow | hlater
        · exact Or.inr (Or.inr (congrArg some hnow.symm))
        · exact Or.inr (Or.inl hlater)
      · cases hnone
    next hdecode =>
      split
      next =>
        intro ro' hreader
        obtain rfl := Option.some.inj hreader
        refine ⟨hle, fun heq other hholds => ?_⟩
        rcases hleft heq other hholds with hsafe | hhas | hnone
        · exact Or.inl hsafe
        · exact absurd hdecode hhas.decodeMsg_ne_none
        · cases hnone
      next => exact walks_of_reader_none rfl

theorem walks_reading {ro : Reader} {entry : Jentry} (hgrows : Grows s s')
    (hwalks : s.Walks pc) (hreader : pc.reader = some ro) (hentry : pc.entry = some entry)
    (hsafe : s'.Safe entry) : s'.Walks (.reading ro) := by
  intro ro' hro'
  obtain rfl := Option.some.inj hro'
  obtain ⟨hle, hleft⟩ := hgrows.walks hwalks ro hreader
  refine ⟨hle, fun heq other hholds => ?_⟩
  rcases hleft heq other hholds with hother | hhas | hnow
  · exact Or.inl hother
  · exact Or.inr (Or.inl hhas)
  · obtain rfl := Option.some.inj (hentry.symm.trans hnow)
    exact Or.inl hsafe

theorem Start.sound (hstart : Start s) : Sound s where
  kept := hstart.kept
  walks t := by
    rw [hstart.idle t]
    exact walks_of_reader_none rfl

variable [DecidableEq ι]

theorem Sound.goto (hsound : Sound s) (hgrows : Grows s s') (hpcs : s'.pcs = s.pcs)
    (hadded : ∀ entry ∈ s'.added, entry ∈ s.added ∨ s'.Kept entry) (hwalks : s'.Walks pc) :
    Sound (s'.goto t pc) := by
  refine ⟨fun entry hmem => ?_, fun u => ?_⟩
  · exact (hadded entry hmem).elim (fun hbefore => hgrows.kept (hsound.kept entry hbefore)) id
  · refine (Function.forall_update_iff s'.pcs fun _ => s'.Walks).mpr ⟨hwalks, fun u _ => ?_⟩ u
    rw [hpcs]
    exact hgrows.walks (hsound.walks u)

theorem Sound.stay (hsound : Sound s) (hwalks : s.Walks pc) : Sound (s.goto t pc) :=
  hsound.goto (Grows.refl s) rfl (fun _ => Or.inl) hwalks

theorem Sound.close (hsound : Sound s) {chance : Chance}
    (hgood : s.journal.Renames chance → s.journal.ro = none) (hreader : pc.reader = none) :
    Sound ({ s with journal := s.journal.close chance }.goto t pc) := by
  rcases s.journal.close_cases chance with ⟨hrenames, hclose⟩ | ⟨hactive, hro, hroFile⟩
  · rw [hclose]
    refine ⟨fun entry hmem => ?_, fun u ro hu => ?_⟩
    · rcases hsound.kept entry hmem with hholds | hholds | hdeleted
      · exact Or.inr (Or.inl hholds)
      · rw [hgood hrenames] at hholds
        exact absurd hholds (not_holds_none entry)
      · exact Or.inr (Or.inr hdeleted)
    · have hle : ro.file ≤ s.journal.roFile := by
        change (Function.update s.pcs t pc u).reader = some ro at hu
        by_cases heq : u = t
        · rw [heq, Function.update_self, hreader] at hu
          cases hu
        · rw [Function.update_of_ne heq] at hu
          exact (hsound.walks u ro hu).1
      exact ⟨Nat.le_succ_of_le hle, fun heq => absurd heq (Nat.ne_of_lt (Nat.lt_succ_of_le hle))⟩
  · refine hsound.goto ⟨fun entry hholds => ?_, hro, hroFile, fun _ hmem => hmem⟩ rfl
      (fun _ => Or.inl) (walks_of_reader_none hreader)
    change Holds (s.journal.close chance).active entry
    rw [hactive]
    exact hholds

theorem Sound.remove (hsound : Sound s) {file : Nat} (hpc : s.pcs t = .removing file)
    (hgood : s.journal.ro ≠ none → file = s.journal.roFile) :
    Sound ({ s with journal := { s.journal with ro := none } }.goto t .idle) := by
  refine ⟨fun entry hmem => ?_, fun u ro hu => ?_⟩
  · rcases hsound.kept entry hmem with hholds | hholds | hdeleted
    · exact Or.inl hholds
    · have hsome : s.journal.ro ≠ none := by
        intro hnone
        rw [hnone] at hholds
        exact not_holds_none entry hholds
      exact (hsound.safe_of_removing hpc (hgood hsome) hholds).imp_right Or.inr
    · exact Or.inr (Or.inr hdeleted)
  · refine ⟨?_, fun _ entry hholds => absurd hholds (not_holds_none entry)⟩
    change (Function.update s.pcs t .idle u).reader = some ro at hu
    by_cases heq : u = t
    · rw [heq, Function.update_self] at hu
      cases hu
    · rw [Function.update_of_ne heq] at hu
      exact (hsound.walks u ro hu).1

theorem open'_succeeds {j : Journal} {chance : Chance} (hgood : j.file = true ∨
    chance.openFails = false ∧ chance.statFails = false ∧
      (j.active.getD [] = [] → chance.writeFails = false)) : (j.open' chance).2 = true := by
  unfold Journal.open'
  dsimp only
  rcases hgood with hfile | ⟨hopen, hstat, hwrite⟩
  · rw [if_pos hfile]
  · split
    · rfl
    · rw [hopen, hstat, if_neg Bool.false_ne_true, if_neg Bool.false_ne_true]
      split
      next hsize =>
        rw [hwrite (List.length_eq_zero_iff.mp hsize), if_neg Bool.false_ne_true]
      next => rfl

theorem write_of_good {j : Journal} {entry : Jentry} {chance : Chance}
    (hgood : j.file = true ∧ chance.writeFails = false) : (j.write entry chance).2 = true := by
  rw [Journal.write, if_pos hgood.1, hgood.2, if_neg Bool.false_ne_true]

theorem sound_step (dc : MsgpReader) (s : System ι) (event : ι × Chance) (hsound : Sound s)
    (hgood : s.Good event) : Sound (s.step dc event) := by
  obtain ⟨t, chance⟩ := event
  have hwalks := hsound.walks t
  unfold Good at hgood
  unfold step
  cases hpc : s.pcs t with
  | idle =>
    simp only [hpc]
    refine hsound.stay (walks_of_reader_none ?_)
    cases chance.op <;> rfl
  | opening entry walk =>
    simp only [hpc] at hgood hwalks ⊢
    have hgrows := Grows.of_open' s chance
    refine hsound.goto hgrows rfl (fun _ => Or.inl) ?_
    cases walk with
    | none => split <;> exact walks_of_reader_none rfl
    | some ro =>
      rw [if_pos (open'_succeeds (hgood rfl))]
      exact fun ro' hreader => hgrows.walks hwalks ro' hreader
  | writing entry walk =>
    simp only [hpc] at hgood hwalks ⊢
    have hgrows : Grows s { s with
        journal := (s.journal.write entry chance).1
        added := if (s.journal.write entry chance).2 then entry :: s.added else s.added } :=
      ⟨fun other hholds => Journal.holds_write hholds entry chance,
        (s.journal.write_ro entry chance).1, (s.journal.write_ro entry chance).2,
        fun _ hmem => hmem⟩
    have hwritten : (s.journal.write entry chance).2 = true →
        Holds (s.journal.write entry chance).1.active entry := by
      intro hok
      obtain ⟨hfile, hwrite, hactive⟩ := Journal.write_succeeds hok
      rw [hactive]
      exact (hgood.2 hfile hwrite).holds_append entry
    refine hsound.goto hgrows rfl (fun other hmem => ?_) ?_
    · dsimp only at hmem
      split at hmem
      next hok =>
        rcases List.mem_cons.mp hmem with rfl | hbefore
        · exact Or.inr (Or.inl (hwritten hok))
        · exact Or.inl hbefore
      next => exact Or.inl hmem
    · cases walk with
      | none => exact walks_of_reader_none rfl
      | some ro =>
        exact walks_reading hgrows hwalks rfl rfl
          (Or.inl (hwritten (write_of_good (hgood.1 rfl))))
  | closing | rotating =>
    simp only [hpc] at hgood ⊢
    exact hsound.close hgood rfl
  | statting =>
    simp only [hpc]
    refine hsound.stay (walks_of_reader_none ?_)
    split <;> rfl
  | reopening =>
    simp only [hpc]
    refine hsound.goto (Grows.of_open' s chance) rfl (fun _ => Or.inl) (walks_of_reader_none ?_)
    split <;> rfl
  | openingRO =>
    simp only [hpc]
    cases hopen : s.journal.openRO chance with
    | none => exact hsound.stay (walks_of_reader_none rfl)
    | some rest =>
      refine hsound.stay fun ro hreader => ?_
      obtain rfl := Option.some.inj hreader
      refine ⟨Nat.le_refl _, fun _ entry ⟨body, hbody, hhas⟩ => Or.inr (Or.inl ?_)⟩
      rw [Journal.openRO_eq_some hopen, Option.some.injEq] at hbody
      rw [List.append_cancel_left hbody]
      exact hhas
  | reading ro =>
    simp only [hpc] at hwalks ⊢
    exact hsound.stay (walks_readNext hwalks)
  | deleting entry ro =>
    simp only [hpc] at hwalks ⊢
    have hgrows : Grows s { s with deleted := entry :: s.deleted } :=
      ⟨fun _ hholds => hholds, rfl, rfl, fun _ hmem => List.mem_cons_of_mem _ hmem⟩
    have hgone : Sound ({ s with deleted := entry :: s.deleted }.goto t (.reading ro)) :=
      hsound.goto hgrows rfl (fun _ => Or.inl)
        (walks_reading hgrows hwalks rfl rfl (Or.inr List.mem_cons_self))
    cases chance.remote with
    | deleted => exact hgone
    | objectNotFound => exact hgone
    | failed => exact hsound.stay fun ro' hreader => hwalks ro' hreader
  | removing file =>
    simp only [hpc] at hgood ⊢
    split
    next => exact hsound.stay (walks_of_reader_none rfl)
    next hremoved => exact hsound.remove hpc (hgood (Bool.eq_false_iff.mpr hremoved))

/-- Along a run of good steps every entry that was added is kept, and the read-only
journal is removed only where every entry of it is safe. -/
theorem keepsAdded_of_good (dc : MsgpReader) {s : System ι} (hstart : Start s)
    {events : List (ι × Chance)} (hgood : Guarded (step dc) Good s events) :
    Always (step dc) KeepsAdded s events ∧
      ∀ before event, before ++ [event] <+: events →
        (before.foldl (step dc) s).Removes event →
          ∀ entry, Holds (before.foldl (step dc) s).journal.ro entry →
            (before.foldl (step dc) s).Safe entry := by
  have halways : Always (step dc) Sound s events :=
    hgood.always (sound_step dc) hstart.sound
  refine ⟨halways.imp fun _ hsound => hsound.kept,
    fun before event hfront hremoves entry hholds => ?_⟩
  obtain ⟨⟨file, hpc⟩, hremoved⟩ := hremoves
  have hsound := halways before ((List.prefix_append before [event]).trans hfront)
  have hnext := hgood before event hfront
  unfold Good at hnext
  rw [hpc] at hnext
  refine hsound.safe_of_removing hpc (hnext hremoved fun hnone => ?_) hholds
  rw [hnone] at hholds
  exact not_holds_none entry hholds

/-- A library that skips nothing, and finds the end of a journal where no bytes are left. -/
def plainReader : MsgpReader where
  skip _ := none
  atEOF input := input.isEmpty

def entryOf (name : UInt8) : Jentry :=
  { Jentry.zero with objName := ⟨[name], by rw [List.length_singleton]; decide⟩ }

def fresh : System Unit where
  journal := {}
  pcs _ := .idle

theorem fresh_start : Start fresh := ⟨fun _ => rfl, fun _ hmem => nomatch hmem⟩

def adding (name : UInt8) : List (Unit × Chance) :=
  [((), { op := .addEntry (entryOf name) }), ((), {}), ((), {})]

/-- An entry that is added to a new journal is kept. -/
theorem keepsAdded_adding : Always (step plainReader) KeepsAdded fresh (adding 97) := by
  have hgood : Guarded (step plainReader) Good fresh (adding 97) :=
    guarded_cons.mpr ⟨trivial, guarded_cons.mpr ⟨fun hwalk => (nomatch hwalk), guarded_cons.mpr
      ⟨⟨fun hwalk => (nomatch hwalk), fun _ _ => ⟨[], rfl⟩⟩, guarded_nil⟩⟩⟩
  exact (keepsAdded_of_good plainReader fresh_start hgood).1

/-- The steps of a `Close`. -/
def closing : List (Unit × Chance) := [((), {}), ((), {})]

/-- Two entries, with a `Close` after each. -/
def closedTwice : List (Unit × Chance) := adding 97 ++ closing ++ adding 98 ++ closing

/-- The second `Close` renames its journal over that of the first entry, which is lost. -/
theorem not_keepsAdded_closedTwice :
    ¬ Always (step plainReader) KeepsAdded fresh closedTwice := by
  intro halways
  have hkept := halways closedTwice List.prefix_rfl (entryOf 97)
    (show entryOf 97 ∈ [entryOf 98, entryOf 97] from List.mem_cons_of_mem _ List.mem_cons_self)
  rcases hkept with hactive | ⟨body, hro, hhas⟩ | hdeleted
  · exact not_holds_none _ hactive
  · have hbody : (entryOf 98).marshalMsg ++ [] = body :=
      List.append_cancel_left (Option.some.inj hro)
    rw [← hbody] at hhas
    rcases hhas.decodeMsg (plainReader.decodeMsg_append (entryOf 98) []) with heq | hrest
    · exact absurd heq (by decide)
    · exact not_has_nil _ hrest
  · exact absurd hdeleted List.not_mem_nil

end System

end Fs3.Tier
