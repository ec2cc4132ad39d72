import Fs3.Listing.ListPathRaw

/-! # Resolving the entries of one name

Where the drives do not agree on a name, a listing takes what a quorum of them has: an object, or
the directory. -/

namespace Fs3.Listing

variable {μ ε : Type}

/-- `metadataResolutionParams`. -/
structure MetadataResolutionParams where
  dirQuorum : Int
  objQuorum : Int

/-- What a pass over the entries has counted and selected. -/
structure Resolution (μ : Type) where
  dirExists : Nat := 0
  objExists : Nat := 0
  selected : Option (MetaCacheEntry μ) := none
  selFIV : Option LatestVersion := none

namespace MetadataReader

variable (reader : MetadataReader μ ε)

def resolveTurn (s : Resolution μ) : Option (MetaCacheEntry μ) → Resolution μ
  | none => s
  | some entry =>
    if entry.isDir then { s with dirExists := s.dirExists + 1, selected := some entry }
    else
      match reader.fileInfo entry with
      | .error _ => s
      | .ok fiv =>
        let s := { s with objExists := s.objExists + 1 }
        match s.selFIV with
        | none => { s with selected := some entry, selFIV := some fiv }
        -- The loop goes on whether the selected entry matches this one or not.
        | some _ => s

/-- `metaCacheEntries.resolve`, on what each drive has of a name. -/
def resolve (r : MetadataResolutionParams) (entries : List (Option (MetaCacheEntry μ))) :
    Option (MetaCacheEntry μ) :=
  let s := entries.foldl reader.resolveTurn {}
  match s.selected with
  | none => none
  | some selected =>
    if selected.isDir ∧ s.dirExists < r.dirQuorum then none
    else if ¬ selected.isDir ∧ s.objExists < r.objQuorum then none
    else some selected

def decodes (e : MetaCacheEntry μ) : Bool := !e.isDir && (reader.fileInfo e).isOk

variable (r : MetadataResolutionParams) (entries : List (Option (MetaCacheEntry μ)))

def dirs : Nat := entries.countP fun top => top.any MetaCacheEntry.isDir

def objects : Nat := entries.countP fun top => top.any reader.decodes

def agreeing (e : MetaCacheEntry μ) : Nat :=
  entries.countP fun top => top.any fun other => reader.decodes other && reader.matchesEntry e other

def ObjectReaches (e : MetaCacheEntry μ) : Prop :=
  some e ∈ entries ∧ reader.decodes e = true ∧ r.objQuorum ≤ reader.agreeing entries e

def DirReaches (r : MetadataResolutionParams) (entries : List (Option (MetaCacheEntry μ)))
    (e : MetaCacheEntry μ) : Prop :=
  some e ∈ entries ∧ e.isDir = true ∧ r.dirQuorum ≤ dirs entries

/-- What the quorums say that a name is. -/
inductive Resolves : Option (MetaCacheEntry μ) → Prop
  | object {e : MetaCacheEntry μ} (hreaches : reader.ObjectReaches r entries e) :
      Resolves (some e)
  | directory {e : MetaCacheEntry μ} (hobject : ∀ o, ¬ reader.ObjectReaches r entries o)
      (hreaches : DirReaches r entries e) : Resolves (some e)
  | nothing (hobject : ∀ o, ¬ reader.ObjectReaches r entries o)
      (hdir : ∀ e, ¬ DirReaches r entries e) : Resolves none

/-- Two outcomes that say the same: nothing, the directory, or objects that match. -/
def SameOutcome : Option (MetaCacheEntry μ) → Option (MetaCacheEntry μ) → Prop
  | none, none => True
  | some e, some e' => e.isDir = e'.isDir ∧ reader.matchesEntry e e' = true
  | _, _ => False

/-- The name is resolved by its quorums, in whatever order the entries come. -/
def ResolvesByQuorum : Prop :=
  reader.Resolves r entries (reader.resolve r entries) ∧
    ∀ entries', entries'.Perm entries →
      reader.SameOutcome (reader.resolve r entries') (reader.resolve r entries)

def Agreed : Prop :=
  ∀ e e', some e ∈ entries → some e' ∈ entries → reader.decodes e = true →
    reader.decodes e' = true → reader.matchesEntry e e' = true

/-! ## The pass -/

variable {reader} {entries : List (Option (MetaCacheEntry μ))} {e e' e'' : MetaCacheEntry μ}

theorem decodes_iff :
    reader.decodes e = true ↔ e.isDir = false ∧ ∃ fiv, reader.fileInfo e = .ok fiv := by
  rw [decodes, Bool.and_eq_true, Bool.not_eq_true']
  cases reader.fileInfo e with
  | error err => simp [Except.isOk, Except.toBool]
  | ok fiv => simp [Except.isOk, Except.toBool]

theorem matchesEntry_iff (hdecodes : reader.decodes e = true) :
    reader.matchesEntry e e' = true ↔
      reader.metadataLength e = reader.metadataLength e' ∧ e.name = e'.name ∧
        ∃ fiv, reader.fileInfo e = .ok fiv ∧ reader.fileInfo e' = .ok fiv := by
  obtain ⟨-, fiv, hfiv⟩ := decodes_iff.mp hdecodes
  rw [matchesEntry, hfiv]
  split
  next hne =>
    refine iff_of_false Bool.false_ne_true fun ⟨hlength, hname, _⟩ => ?_
    rcases hne with hne | hne
    · exact hne hlength
    · exact hne hname
  next hsame =>
    rw [not_or, not_not, not_not] at hsame
    cases reader.fileInfo e' with
    | error err => simp
    | ok fiv' =>
      refine ⟨fun heq => ⟨hsame.1, hsame.2, fiv, rfl, ?_⟩, fun ⟨_, _, fiv'', hok, hok'⟩ => ?_⟩
      · rw [beq_iff_eq.mp heq]
      · rw [Except.ok.inj hok, Except.ok.inj hok']
        exact beq_self_eq_true fiv''

theorem matchesEntry_symm (hdecodes : reader.decodes e = true)
    (hdecodes' : reader.decodes e' = true) (hmatches : reader.matchesEntry e e' = true) :
    reader.matchesEntry e' e = true := by
  obtain ⟨hlength, hname, fiv, hfiv, hfiv'⟩ := (matchesEntry_iff hdecodes).mp hmatches
  exact (matchesEntry_iff hdecodes').mpr ⟨hlength.symm, hname.symm, fiv, hfiv', hfiv⟩

theorem matchesEntry_trans (hdecodes : reader.decodes e = true)
    (hdecodes' : reader.decodes e' = true) (hmatches : reader.matchesEntry e e' = true)
    (hmatches' : reader.matchesEntry e' e'' = true) : reader.matchesEntry e e'' = true := by
  obtain ⟨hlength, hname, fiv, hfiv, hfiv'⟩ := (matchesEntry_iff hdecodes).mp hmatches
  obtain ⟨hlength', hname', fiv', hsame, hfiv''⟩ := (matchesEntry_iff hdecodes').mp hmatches'
  rw [hfiv', Except.ok.injEq] at hsame
  subst hsame
  exact (matchesEntry_iff hdecodes).mpr
    ⟨hlength.trans hlength', hname.trans hname', fiv, hfiv, hfiv''⟩

theorem matchesEntry_of_dirs (hname : e.name = e'.name) (hdir : e.isDir = true)
    (hdir' : e'.isDir = true) : reader.matchesEntry e e' = true := by
  rw [MetaCacheEntry.isDir, Option.isNone_iff_eq_none] at hdir hdir'
  rw [matchesEntry, metadataLength, metadataLength, fileInfo, fileInfo, hdir, hdir']
  simp [hname]

/-- What the pass knows after the entries it has seen. -/
structure Resolution.Knows (reader : MetadataReader μ ε) (s : Resolution μ)
    (done : List (Option (MetaCacheEntry μ))) : Prop where
  dirExists : s.dirExists = dirs done
  objExists : s.objExists = reader.objects done
  selFIV : s.selFIV = none ↔ reader.objects done = 0
  nothing : s.selected = none → dirs done = 0 ∧ reader.objects done = 0
  selected : ∀ e, s.selected = some e → some e ∈ done ∧ (e.isDir = true ∨ reader.decodes e = true)

theorem dirs_snoc (top : Option (MetaCacheEntry μ)) :
    dirs (entries ++ [top]) = dirs entries + if top.any MetaCacheEntry.isDir then 1 else 0 := by
  rw [dirs, List.countP_append, List.countP_singleton, dirs]

theorem objects_snoc (top : Option (MetaCacheEntry μ)) :
    reader.objects (entries ++ [top]) =
      reader.objects entries + if top.any reader.decodes then 1 else 0 := by
  rw [objects, List.countP_append, List.countP_singleton, objects]

theorem resolveTurn_skip (s : Resolution μ) {top : Option (MetaCacheEntry μ)}
    (hdir : top.any MetaCacheEntry.isDir = false) (hobject : top.any reader.decodes = false) :
    reader.resolveTurn s top = s := by
  cases top with
  | none => rfl
  | some entry =>
    rw [Option.any_some] at hdir hobject
    rw [resolveTurn, if_neg (by simp [hdir])]
    cases hfiv : reader.fileInfo entry with
    | error err => rfl
    | ok fiv =>
      rw [decodes_iff.mpr ⟨hdir, fiv, hfiv⟩] at hobject
      exact absurd hobject.symm Bool.false_ne_true

theorem resolveTurn_dir (s : Resolution μ) (hdir : e.isDir = true) :
    reader.resolveTurn s (some e) =
      { s with dirExists := s.dirExists + 1, selected := some e } := by
  rw [resolveTurn, if_pos hdir]

theorem resolveTurn_object (s : Resolution μ) (hobject : reader.decodes e = true) :
    ∃ fiv, reader.resolveTurn s (some e) =
      { s with
        objExists := s.objExists + 1
        selected := if s.selFIV = none then some e else s.selected
        selFIV := some fiv } := by
  obtain ⟨hdir, fiv, hfiv⟩ := decodes_iff.mp hobject
  rw [resolveTurn, if_neg (by simp [hdir]), hfiv]
  obtain ⟨dirExists, objExists, selected, selFIV⟩ := s
  cases selFIV with
  | none => exact ⟨fiv, rfl⟩
  | some other => exact ⟨other, rfl⟩

theorem decodes_of_dir (hdir : e.isDir = true) : reader.decodes e = false := by
  rw [decodes, hdir]
  rfl

/-- One turn keeps what the pass knows. -/
theorem Resolution.Knows.turn {s : Resolution μ} (hknows : Resolution.Knows reader s entries)
    (top : Option (MetaCacheEntry μ)) :
    Resolution.Knows reader (reader.resolveTurn s top) (entries ++ [top]) := by
  by_cases hdir : top.any MetaCacheEntry.isDir = true
  · obtain ⟨e, rfl, hdir⟩ := (Option.any_eq_true _ _).mp hdir
    have hobject : (some e).any reader.decodes = false := decodes_of_dir hdir
    rw [resolveTurn_dir s hdir]
    refine ⟨?_, ?_, ?_, fun hnone => absurd hnone (by simp), fun found hfound => ?_⟩
    · rw [dirs_snoc, if_pos (by exact hdir), ← hknows.dirExists]
    · rw [objects_snoc, hobject, hknows.objExists]
      rfl
    · rw [objects_snoc, hobject]
      exact hknows.selFIV
    · rw [← Option.some.inj hfound]
      exact ⟨by simp, Or.inl hdir⟩
  · rw [Bool.not_eq_true] at hdir
    by_cases hobject : top.any reader.decodes = true
    · obtain ⟨e, rfl, hdecodes⟩ := (Option.any_eq_true _ _).mp hobject
      obtain ⟨fiv, hturn⟩ := resolveTurn_object s hdecodes
      rw [hturn]
      refine ⟨?_, ?_, ?_, fun hnone => ?_, fun found hfound => ?_⟩
      · rw [dirs_snoc, hdir, hknows.dirExists]
        rfl
      · rw [objects_snoc, if_pos hobject, ← hknows.objExists]
      · rw [objects_snoc, if_pos hobject]
        simp
      · simp only at hnone
        split at hnone
        next => exact absurd hnone (by simp)
        next hsome =>
          exact absurd (hknows.selFIV.mpr (hknows.nothing hnone).2) hsome
      · simp only at hfound
        split at hfound
        next =>
          rw [← Option.some.inj hfound]
          exact ⟨by simp, Or.inr hdecodes⟩
        next =>
          obtain ⟨hmem, hkind⟩ := hknows.selected found hfound
          exact ⟨List.mem_append_left _ hmem, hkind⟩
    · rw [Bool.not_eq_true] at hobject
      rw [resolveTurn_skip s hdir hobject]
      refine ⟨?_, ?_, ?_, fun hnone => ?_, fun found hfound => ?_⟩
      · rw [dirs_snoc, hdir, hknows.dirExists]
        rfl
      · rw [objects_snoc, hobject, hknows.objExists]
        rfl
      · rw [objects_snoc, hobject]
        exact hknows.selFIV
      · rw [dirs_snoc, objects_snoc, hdir, hobject]
        exact hknows.nothing hnone
      · obtain ⟨hmem, hkind⟩ := hknows.selected found hfound
        exact ⟨List.mem_append_left _ hmem, hkind⟩

theorem knows_foldl (entries : List (Option (MetaCacheEntry μ))) :
    Resolution.Knows reader (entries.foldl reader.resolveTurn {}) entries := by
  induction entries using List.reverseRecOn with
  | nil =>
    refine ⟨rfl, rfl, iff_of_true rfl rfl, fun _ => ⟨rfl, rfl⟩, fun e hselected => ?_⟩
    exact absurd hselected (by simp)
  | append_singleton entries top ih =>
    rw [List.foldl_append, List.foldl_cons, List.foldl_nil]
    exact ih.turn top

/-- What is resolved: nothing, where what was selected does not reach its quorum, or an
entry that does by the count of its kind. -/
theorem resolve_cases (r : MetadataResolutionParams) (entries : List (Option (MetaCacheEntry μ))) :
    (reader.resolve r entries = none ∧
      (dirs entries = 0 ∧ reader.objects entries = 0 ∨ 0 < dirs entries ∧
          (dirs entries : Int) < r.dirQuorum ∨
        0 < reader.objects entries ∧ (reader.objects entries : Int) < r.objQuorum)) ∨
    ∃ e, reader.resolve r entries = some e ∧ some e ∈ entries ∧
      (e.isDir = true ∧ r.dirQuorum ≤ dirs entries ∨
        reader.decodes e = true ∧ r.objQuorum ≤ reader.objects entries) := by
  have hknows := @knows_foldl _ _ reader entries
  rw [resolve]
  generalize hs : entries.foldl reader.resolveTurn {} = s at hknows
  cases hselected : s.selected with
  | none => exact Or.inl ⟨by simp, Or.inl (hknows.nothing hselected)⟩
  | some e =>
    obtain ⟨hmem, hkind⟩ := hknows.selected e hselected
    simp only [hknows.dirExists, hknows.objExists]
    rcases hkind with hdir | hdecodes
    · have hpos : 0 < dirs entries :=
        List.countP_pos_iff.mpr ⟨some e, hmem, hdir⟩
      by_cases hless : (dirs entries : Int) < r.dirQuorum
      · exact Or.inl ⟨if_pos ⟨hdir, hless⟩, Or.inr (Or.inl ⟨hpos, hless⟩)⟩
      · refine Or.inr ⟨e, ?_, hmem, Or.inl ⟨hdir, by omega⟩⟩
        rw [if_neg (fun hand => hless hand.2), if_neg (fun hand => hand.1 hdir)]
    · have hdir := (decodes_iff.mp hdecodes).1
      have hpos : 0 < reader.objects entries :=
        List.countP_pos_iff.mpr ⟨some e, hmem, hdecodes⟩
      have hfile : ¬ e.isDir = true := by rw [hdir]; exact Bool.false_ne_true
      rw [if_neg (fun hand => hfile hand.1)]
      by_cases hless : (reader.objects entries : Int) < r.objQuorum
      · exact Or.inl ⟨if_pos ⟨hfile, hless⟩, Or.inr (Or.inr ⟨hpos, hless⟩)⟩
      · refine Or.inr ⟨e, if_neg (fun hand => hless hand.2), hmem, Or.inr ⟨hdecodes, ?_⟩⟩
        omega

def answer (count : Nat) (quorum : Int) (e : MetaCacheEntry μ) : Option (MetaCacheEntry μ) :=
  if (count : Int) < quorum then none else some e

theorem exists_perm_dir (r : MetadataResolutionParams) (hmem : some e ∈ entries)
    (hdir : e.isDir = true) :
    ∃ entries', entries'.Perm entries ∧
      reader.resolve r entries' = answer (dirs entries) r.dirQuorum e := by
  obtain ⟨before, after, rfl⟩ := List.append_of_mem hmem
  have hperm : (before ++ after ++ [some e]).Perm (before ++ some e :: after) := by
    rw [List.append_assoc]
    exact List.Perm.append_left before (List.perm_append_singleton _ _)
  refine ⟨before ++ after ++ [some e], hperm, ?_⟩
  have hcount : dirs (before ++ after ++ [some e]) = dirs (before ++ some e :: after) :=
    hperm.countP_eq _
  have hknows := @knows_foldl _ _ reader (before ++ after ++ [some e])
  rw [← hcount, answer, resolve]
  have hselected : ((before ++ after ++ [some e]).foldl reader.resolveTurn {}).selected =
      some e := by
    rw [List.foldl_append, List.foldl_cons, List.foldl_nil, resolveTurn_dir _ hdir]
  simp only [hselected, hknows.dirExists, hdir, true_and, not_true_eq_false, false_and, if_false]

theorem foldl_resolveTurn_of_none (s : Resolution μ) (hfiv : s.selFIV = none)
    (hnone : ∀ top ∈ entries, top.any reader.decodes = false) :
    (entries.foldl reader.resolveTurn s).selFIV = none := by
  induction entries generalizing s with
  | nil => exact hfiv
  | cons top entries ih =>
    rw [List.foldl_cons]
    have hobject := hnone top List.mem_cons_self
    refine ih _ ?_ fun top hmem => hnone top (List.mem_cons_of_mem _ hmem)
    by_cases hdir : top.any MetaCacheEntry.isDir = true
    · obtain ⟨e, rfl, hdir⟩ := (Option.any_eq_true _ _).mp hdir
      rw [resolveTurn_dir s hdir]
      exact hfiv
    · rw [resolveTurn_skip s (by simpa using hdir) hobject]
      exact hfiv

theorem foldl_resolveTurn_of_objects (s : Resolution μ) (hfiv : s.selFIV ≠ none)
    (hobjects : ∀ top ∈ entries, top.any reader.decodes = true) :
    (entries.foldl reader.resolveTurn s).selected = s.selected := by
  induction entries generalizing s with
  | nil => rfl
  | cons top entries ih =>
    obtain ⟨e, rfl, hdecodes⟩ :=
      (Option.any_eq_true _ _).mp (hobjects top List.mem_cons_self)
    obtain ⟨fiv, hturn⟩ := resolveTurn_object s hdecodes
    rw [List.foldl_cons, hturn, ih _ (by simp) fun top hmem =>
      hobjects top (List.mem_cons_of_mem _ hmem)]
    exact if_neg hfiv

theorem exists_perm_object (r : MetadataResolutionParams) (hmem : some e ∈ entries)
    (hdecodes : reader.decodes e = true) :
    ∃ entries', entries'.Perm entries ∧
      reader.resolve r entries' = answer (reader.objects entries) r.objQuorum e := by
  obtain ⟨before, after, rfl⟩ := List.append_of_mem hmem
  let isObject := fun top : Option (MetaCacheEntry μ) => top.any reader.decodes
  let others := (before ++ after).filter fun top => !isObject top
  let objects' := (before ++ after).filter isObject
  have hperm : (others ++ some e :: objects').Perm (before ++ some e :: after) := by
    refine List.perm_middle.trans (List.Perm.trans ?_ List.perm_middle.symm)
    refine List.Perm.cons _ ((List.perm_append_comm).trans ?_)
    exact List.filter_append_perm isObject (before ++ after)
  refine ⟨others ++ some e :: objects', hperm, ?_⟩
  have hcount : reader.objects (others ++ some e :: objects') =
      reader.objects (before ++ some e :: after) := hperm.countP_eq _
  have hknows := @knows_foldl _ _ reader (others ++ some e :: objects')
  have hselected : ((others ++ some e :: objects').foldl reader.resolveTurn {}).selected =
      some e := by
    have hnone := @foldl_resolveTurn_of_none _ _ reader others {} rfl fun top htop => by
      simpa [isObject] using (List.mem_filter.mp htop).2
    obtain ⟨fiv, hturn⟩ :=
      resolveTurn_object (others.foldl reader.resolveTurn {}) hdecodes
    rw [List.foldl_append, List.foldl_cons, hturn, foldl_resolveTurn_of_objects _ (by simp)
      fun top htop => (List.mem_filter.mp htop).2]
    exact if_pos hnone
  rw [← hcount, answer, resolve]
  simp only [hselected, hknows.objExists, (decodes_iff.mp hdecodes).1, Bool.false_eq_true,
    false_and, if_false, not_false_eq_true, true_and]

/-! ## When the quorums decide -/

variable {r : MetadataResolutionParams}

theorem agreeing_le (e : MetaCacheEntry μ) :
    reader.agreeing entries e ≤ reader.objects entries := by
  refine List.countP_mono_left fun top _ htop => ?_
  obtain ⟨other, rfl, hboth⟩ := (Option.any_eq_true _ _).mp htop
  rw [Bool.and_eq_true] at hboth
  exact hboth.1

theorem agreeing_of_agreed (hagreed : reader.Agreed entries) (hmem : some e ∈ entries)
    (hdecodes : reader.decodes e = true) : reader.agreeing entries e = reader.objects entries := by
  refine List.countP_congr fun top htop => ?_
  cases top with
  | none => rfl
  | some other =>
    rw [Option.any_some, Option.any_some, Bool.and_eq_true]
    refine ⟨fun hboth => hboth.1, fun hother => ⟨hother, ?_⟩⟩
    exact hagreed e other hmem htop hdecodes hother

theorem objects_pos_iff :
    0 < reader.objects entries ↔ ∃ e, some e ∈ entries ∧ reader.decodes e = true := by
  rw [objects, List.countP_pos_iff]
  constructor
  · intro ⟨top, hmem, htop⟩
    obtain ⟨e, rfl, hdecodes⟩ := (Option.any_eq_true _ _).mp htop
    exact ⟨e, hmem, hdecodes⟩
  · intro ⟨e, hmem, hdecodes⟩
    exact ⟨some e, hmem, hdecodes⟩

theorem dirs_pos_iff : 0 < dirs entries ↔ ∃ e, some e ∈ entries ∧ e.isDir = true := by
  rw [dirs, List.countP_pos_iff]
  constructor
  · intro ⟨top, hmem, htop⟩
    obtain ⟨e, rfl, hdir⟩ := (Option.any_eq_true _ _).mp htop
    exact ⟨e, hmem, hdir⟩
  · intro ⟨e, hmem, hdir⟩
    exact ⟨some e, hmem, hdir⟩

theorem SameOutcome.decodes {found : Option (MetaCacheEntry μ)}
    (hsame : reader.SameOutcome (some e) found) (hdecodes : reader.decodes e = true) :
    ∃ x, found = some x ∧ reader.decodes x = true ∧ reader.matchesEntry e x = true := by
  cases found with
  | none => exact hsame.elim
  | some x =>
    obtain ⟨hdir, hmatches⟩ := hsame
    obtain ⟨-, -, fiv, -, hfiv⟩ := (matchesEntry_iff hdecodes).mp hmatches
    exact ⟨x, rfl, decodes_iff.mpr ⟨hdir ▸ (decodes_iff.mp hdecodes).1, fiv, hfiv⟩, hmatches⟩

theorem agreed_of_order (hquorum : r.objQuorum ≤ reader.objects entries)
    (horder : ∀ entries', entries'.Perm entries →
      reader.SameOutcome (reader.resolve r entries') (reader.resolve r entries)) :
    reader.Agreed entries := by
  intro e e' hmem hmem' hdecodes hdecodes'
  have hfound : ∀ o, some o ∈ entries → reader.decodes o = true →
      reader.SameOutcome (some o) (reader.resolve r entries) := by
    intro o ho hobject
    obtain ⟨entries', hperm, hresolve⟩ := exists_perm_object r ho hobject
    have hsame := horder entries' hperm
    rwa [hresolve, answer, if_neg (by omega)] at hsame
  obtain ⟨x, hx, hxdecodes, hmatches⟩ := (hfound e hmem hdecodes).decodes hdecodes
  obtain ⟨x', hx', -, hmatches'⟩ := (hfound e' hmem' hdecodes').decodes hdecodes'
  rw [hx, Option.some.injEq] at hx'
  subst hx'
  exact matchesEntry_trans hdecodes hxdecodes hmatches
    (matchesEntry_symm hdecodes' hxdecodes hmatches')

theorem below_of_order (hobject : 0 < reader.objects entries) (hdir : 0 < dirs entries)
    (horder : ∀ entries', entries'.Perm entries →
      reader.SameOutcome (reader.resolve r entries') (reader.resolve r entries)) :
    (reader.objects entries : Int) < r.objQuorum ∧ (dirs entries : Int) < r.dirQuorum := by
  obtain ⟨o, ho, hdecodes⟩ := objects_pos_iff.mp hobject
  obtain ⟨d, hd, hisdir⟩ := dirs_pos_iff.mp hdir
  obtain ⟨objectFirst, hperm, hresolve⟩ := exists_perm_object r ho hdecodes
  obtain ⟨dirLast, hperm', hresolve'⟩ := @exists_perm_dir _ _ reader _ _ r hd hisdir
  have hsame := horder objectFirst hperm
  have hsame' := horder dirLast hperm'
  rw [hresolve, answer] at hsame
  rw [hresolve', answer] at hsame'
  split at hsame
  next hless =>
    split at hsame'
    next hless' => exact ⟨hless, hless'⟩
    next =>
      cases hfound : reader.resolve r entries with
      | none => rw [hfound] at hsame'; exact hsame'.elim
      | some x => rw [hfound] at hsame; exact hsame.elim
  next =>
    obtain ⟨x, hx, hxdecodes, -⟩ := hsame.decodes hdecodes
    rw [hx] at hsame'
    split at hsame'
    next => exact hsame'.elim
    next =>
      have hxfile := (decodes_iff.mp hxdecodes).1
      rw [← hsame'.1, hisdir] at hxfile
      exact absurd hxfile (by simp)

theorem not_objectReaches (hless : (reader.objects entries : Int) < r.objQuorum)
    (o : MetaCacheEntry μ) : ¬ reader.ObjectReaches r entries o := by
  intro ⟨_, _, hreaches⟩
  have hle := @agreeing_le _ _ reader entries o
  omega

theorem not_objectReaches_of_none (hnone : reader.objects entries = 0) (o : MetaCacheEntry μ) :
    ¬ reader.ObjectReaches r entries o := fun ⟨hmem, hdecodes, _⟩ =>
  absurd (objects_pos_iff.mpr ⟨o, hmem, hdecodes⟩) (by omega)

theorem not_dirReaches (hless : (dirs entries : Int) < r.dirQuorum) (e : MetaCacheEntry μ) :
    ¬ DirReaches r entries e := fun ⟨_, _, hreaches⟩ => by omega

theorem not_dirReaches_of_none (hnone : dirs entries = 0) (e : MetaCacheEntry μ) :
    ¬ DirReaches r entries e := fun ⟨hmem, hdir, _⟩ =>
  absurd (dirs_pos_iff.mpr ⟨e, hmem, hdir⟩) (by omega)

theorem sameOutcome_none : reader.SameOutcome none none := trivial

theorem resolvesByQuorum_of_orders {found : Option (MetaCacheEntry μ) → Prop}
    (hfound : ∀ entries', entries'.Perm entries → found (reader.resolve r entries'))
    (hresolves : ∀ result, found result → reader.Resolves r entries result)
    (hsame : ∀ result result', found result → found result' →
      reader.SameOutcome result result') : reader.ResolvesByQuorum r entries :=
  ⟨hresolves _ (hfound entries (List.Perm.refl _)), fun entries' hperm =>
    hsame _ _ (hfound entries' hperm) (hfound entries (List.Perm.refl _))⟩

def OneName (entries : List (Option (MetaCacheEntry μ))) : Prop :=
  ∀ e e', some e ∈ entries → some e' ∈ entries → e.name = e'.name

theorem resolve_cases_perm {entries' : List (Option (MetaCacheEntry μ))}
    (hperm : entries'.Perm entries) :
    (reader.resolve r entries' = none ∧
      (dirs entries = 0 ∧ reader.objects entries = 0 ∨ 0 < dirs entries ∧
          (dirs entries : Int) < r.dirQuorum ∨
        0 < reader.objects entries ∧ (reader.objects entries : Int) < r.objQuorum)) ∨
    ∃ e, reader.resolve r entries' = some e ∧ some e ∈ entries ∧
      (e.isDir = true ∧ r.dirQuorum ≤ dirs entries ∨
        reader.decodes e = true ∧ r.objQuorum ≤ reader.objects entries) := by
  have hdirs : dirs entries' = dirs entries := hperm.countP_eq _
  have hobjects : reader.objects entries' = reader.objects entries := hperm.countP_eq _
  have hcases := @resolve_cases _ _ reader r entries'
  rw [hdirs, hobjects] at hcases
  rcases hcases with hnone | ⟨e, hresolve, hmem, hkind⟩
  · exact Or.inl hnone
  · exact Or.inr ⟨e, hresolve, hperm.mem_iff.mp hmem, hkind⟩

theorem resolvesByQuorum_of_dirs (hname : OneName entries)
    (hnone : reader.objects entries = 0) : reader.ResolvesByQuorum r entries := by
  have hobject : ∀ o, ¬ reader.ObjectReaches r entries o := not_objectReaches_of_none hnone
  refine @resolvesByQuorum_of_orders _ _ reader _ r
    (fun result => (result = none ∧ ∀ e, ¬ DirReaches r entries e) ∨
      ∃ e, result = some e ∧ DirReaches r entries e)
    (fun entries' hperm => ?_) (fun result hresult => ?_) fun result result' hresult hresult' => ?_
  · rcases @resolve_cases_perm _ _ reader _ r _ hperm with
      ⟨hresolve, hbelow⟩ | ⟨e, hresolve, hmem, hkind⟩
    · refine Or.inl ⟨hresolve, ?_⟩
      rcases hbelow with hempty | hless | hless
      · exact not_dirReaches_of_none hempty.1
      · exact not_dirReaches hless.2
      · omega
    · rcases hkind with hdir | hdecodes
      · exact Or.inr ⟨e, hresolve, hmem, hdir⟩
      · exact absurd (objects_pos_iff.mpr ⟨e, hmem, hdecodes.1⟩) (by omega)
  · rcases hresult with ⟨rfl, hdir⟩ | ⟨e, rfl, hreaches⟩
    · exact .nothing hobject hdir
    · exact .directory hobject hreaches
  · rcases hresult with ⟨rfl, hdir⟩ | ⟨e, rfl, hmem, hdir, hquorum⟩
    · rcases hresult' with ⟨rfl, -⟩ | ⟨e', rfl, hreaches⟩
      · exact sameOutcome_none
      · exact absurd hreaches (hdir e')
    · rcases hresult' with ⟨rfl, hnot⟩ | ⟨e', rfl, hmem', hdir', -⟩
      · exact absurd ⟨hmem, hdir, hquorum⟩ (hnot e)
      · exact ⟨hdir.trans hdir'.symm, matchesEntry_of_dirs (hname e e' hmem hmem') hdir hdir'⟩

theorem resolvesByQuorum_of_agreed (hagreed : reader.Agreed entries) (hdirs : dirs entries = 0)
    (hpos : 0 < reader.objects entries) (hquorum : r.objQuorum ≤ reader.objects entries) :
    reader.ResolvesByQuorum r entries := by
  refine @resolvesByQuorum_of_orders _ _ reader _ r
    (fun result => ∃ e, result = some e ∧ some e ∈ entries ∧ reader.decodes e = true)
    (fun entries' hperm => ?_) (fun result hresult => ?_) fun result result' hresult hresult' => ?_
  · rcases @resolve_cases_perm _ _ reader _ r _ hperm with ⟨-, hbelow⟩ | ⟨e, hresolve, hmem, hkind⟩
    · omega
    · rcases hkind with hdir | hdecodes
      · exact absurd (dirs_pos_iff.mpr ⟨e, hmem, hdir.1⟩) (by omega)
      · exact ⟨e, hresolve, hmem, hdecodes.1⟩
  · obtain ⟨e, rfl, hmem, hdecodes⟩ := hresult
    refine .object ⟨hmem, hdecodes, ?_⟩
    rw [agreeing_of_agreed hagreed hmem hdecodes]
    exact hquorum
  · obtain ⟨e, rfl, hmem, hdecodes⟩ := hresult
    obtain ⟨e', rfl, hmem', hdecodes'⟩ := hresult'
    refine ⟨?_, hagreed e e' hmem hmem' hdecodes hdecodes'⟩
    rw [(decodes_iff.mp hdecodes).1, (decodes_iff.mp hdecodes').1]

theorem resolvesByQuorum_of_below (hobject : (reader.objects entries : Int) < r.objQuorum)
    (hdir : dirs entries = 0 ∨ (dirs entries : Int) < r.dirQuorum) :
    reader.ResolvesByQuorum r entries := by
  refine @resolvesByQuorum_of_orders _ _ reader _ r (fun result => result = none)
    (fun entries' hperm => ?_) (fun result hresult => ?_) fun result result' hresult hresult' => ?_
  · rcases @resolve_cases_perm _ _ reader _ r _ hperm with ⟨hresolve, -⟩ | ⟨e, -, hmem, hkind⟩
    · exact hresolve
    · rcases hkind with hisdir | hdecodes
      · have hpos := dirs_pos_iff.mpr ⟨e, hmem, hisdir.1⟩
        omega
      · have hreached := hdecodes.2
        omega
  · rw [hresult]
    refine .nothing (not_objectReaches hobject) ?_
    rcases hdir with hnone | hless
    · exact not_dirReaches_of_none hnone
    · exact not_dirReaches hless
  · rw [hresult, hresult']
    exact sameOutcome_none

/-- The quorums decide exactly where there are no objects, or no directories and objects
that agree if they are many enough, or too few of either kind. -/
theorem resolvesByQuorum_iff (reader : MetadataReader μ ε) (r : MetadataResolutionParams)
    (entries : List (Option (MetaCacheEntry μ))) (hname : OneName entries) :
    reader.ResolvesByQuorum r entries ↔
      reader.objects entries = 0 ∨
        (dirs entries = 0 ∧
          ((reader.objects entries : Int) < r.objQuorum ∨ reader.Agreed entries)) ∨
        ((reader.objects entries : Int) < r.objQuorum ∧ (dirs entries : Int) < r.dirQuorum) := by
  constructor
  · intro ⟨_, horder⟩
    by_cases hobject : reader.objects entries = 0
    · exact Or.inl hobject
    · by_cases hdir : dirs entries = 0
      · refine Or.inr (Or.inl ⟨hdir, ?_⟩)
        by_cases hless : (reader.objects entries : Int) < r.objQuorum
        · exact Or.inl hless
        · exact Or.inr (agreed_of_order (by omega) horder)
      · exact Or.inr (Or.inr (below_of_order (by omega) (by omega) horder))
  · intro hcases
    rcases hcases with hnone | ⟨hdirs, hless | hagreed⟩ | ⟨hobject, hdir⟩
    · exact resolvesByQuorum_of_dirs hname hnone
    · exact resolvesByQuorum_of_below hless (Or.inl hdirs)
    · by_cases hless : (reader.objects entries : Int) < r.objQuorum
      · exact resolvesByQuorum_of_below hless (Or.inl hdirs)
      · by_cases hpos : 0 < reader.objects entries
        · exact resolvesByQuorum_of_agreed hagreed hdirs hpos (by omega)
        · exact resolvesByQuorum_of_dirs hname (by omega)
    · exact resolvesByQuorum_of_below hobject (Or.inr hdir)

def timeReader : MetadataReader Int Unit where
  length _ := 1
  getFileInfo _ metadata := .ok { modTime := metadata, size := 1, versionID := "" }
  sameErr _ _ := true

theorem nameX_named : ['x'] ≠ ([] : Name) := List.cons_ne_nil _ _

def nameX (metadata : Option Int) : MetaCacheEntry Int :=
  { name := ['x'], metadata, named := nameX_named }

def twoObjects : List (Option (MetaCacheEntry Int)) :=
  [some (nameX (some 1)), some (nameX (some 1)), none]

/-- Two drives have the object, one has nothing, and the last has a directory. -/
def objectAndDir : List (Option (MetaCacheEntry Int)) := twoObjects ++ [some (nameX none)]

theorem oneName_twoObjects : OneName twoObjects := by
  intro e e' hmem hmem'
  simp only [twoObjects, List.mem_cons, Option.some.injEq, List.not_mem_nil, or_false,
    reduceCtorEq, or_self] at hmem hmem'
  rw [hmem, hmem']

theorem twoObjects_iff :
    timeReader.ResolvesByQuorum ⟨2, 2⟩ twoObjects ↔
      timeReader.objects twoObjects = 0 ∨
        (dirs twoObjects = 0 ∧
          ((timeReader.objects twoObjects : Int) < 2 ∨ timeReader.Agreed twoObjects)) ∨
        ((timeReader.objects twoObjects : Int) < 2 ∧ (dirs twoObjects : Int) < 2) :=
  resolvesByQuorum_iff timeReader ⟨2, 2⟩ twoObjects oneName_twoObjects

/-- Two of four drives have the object and that is the quorum, but a directory comes last. -/
theorem objectAndDir_not_resolved : ¬ timeReader.ResolvesByQuorum ⟨2, 2⟩ objectAndDir := by
  intro ⟨hresolves, _⟩
  have hnone : timeReader.resolve ⟨2, 2⟩ objectAndDir = none := by decide
  rw [hnone] at hresolves
  cases hresolves with
  | nothing hobject _ =>
    refine hobject (nameX (some 1)) ⟨List.mem_cons_self, by decide, by decide⟩

end MetadataReader

end Fs3.Listing
