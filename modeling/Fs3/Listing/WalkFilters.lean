import Mathlib.Data.List.Pairwise
import Fs3.Listing.WalkOrder

/-! # The filters of a walk

The first loop of a scan passes over the entries that the filters do not take, but it leaves them
in the list: the second loop visits them too, under a name with a slash too many. So a walk with
filters puts out what it should only if nothing has to be left out. -/

namespace Fs3.Listing

open Foundation

variable {μ : Type}

def WalkDirOptions.unfiltered (opts : WalkDirOptions) : WalkDirOptions :=
  { opts with filterPrefix := [], forwardTo := [] }

/-- What the filters are to keep: entries at or below a name in the base directory that
starts with the prefix, and not before the name to forward to. -/
def Wanted (opts : WalkDirOptions) (entry : WalkedEntry μ) : Bool :=
  (dirName opts.baseDir ++ opts.filterPrefix).isPrefixOf entry.name &&
    decide (opts.forwardTo ≤ entry.name)

/-- A walk with filters puts out what the filters are to keep of the walk without. -/
def FiltersOnly (opts : WalkDirOptions) (bucket : List (Name × Node μ)) : Prop :=
  walkDir opts bucket = (walkDir opts.unfiltered bucket).map fun l => l.filter (Wanted opts)

def shownName (current name : Name) (children : List (Name × Node μ)) : Name :=
  if (objectMetadata children).isSome then current ++ decodeDirObject name
  else current ++ name ++ slashSeparator

def Shows (children : List (Name × Node μ)) : Prop :=
  (objectMetadata children).isSome = true ∨ children ≠ []

theorem not_shows_iff {children : List (Name × Node μ)} :
    ¬ Shows children ↔ objectMetadata children = none ∧ children = [] := by
  rw [Shows, not_or, not_not, Bool.not_eq_true, Option.isSome_eq_false_iff,
    Option.isNone_iff_eq_none]

theorem Shows.ne_nil {children : List (Name × Node μ)} (hshows : Shows children)
    (hnone : objectMetadata children = none) : children ≠ [] :=
  hshows.resolve_left (by rw [hnone]; exact Bool.false_ne_true)

/-- Nothing has to be left out: every object and every directory that holds something
directly below the base directory starts with the prefix, and neither its path nor its
name on the drive, which the code compares, is before the name to forward to. -/
structure NothingToFilter (opts : WalkDirOptions) (bucket entries : List (Name × Node μ)) :
    Prop where
  base : opts.trailingSlash = true → (baseDirObject opts.baseDir bucket).isSome = true →
    opts.filterPrefix = [] ∧ opts.forwardTo ≤ dirName opts.baseDir
  shown : ∀ name children, (name, .dir children) ∈ entries → Shows children →
    opts.filterPrefix <+: decodeDirObject name ∧
      opts.forwardTo ≤ shownName (dirName opts.baseDir) name children ∧
      opts.forwardTo ≤ name ++ slashSeparator
  twin : ∀ name children children', (name, .dir children) ∈ entries →
    (name ++ globalDirSuffix, .dir children') ∈ entries → opts.forwardTo ≤ name ++ slashSeparator

/-! ## The loops with filters -/

section Loops

variable {current namePrefix forward : Name} {entries : List (Name × Node μ)}

theorem accepts_iff {entry : Name} :
    Accepts namePrefix forward entry ↔ namePrefix <+: entry ∧ forward ≤ entry := by
  constructor
  · rintro ⟨hpre, hforward⟩
    refine ⟨?_, ?_⟩
    · rcases hpre with rfl | hpre
      · exact List.nil_prefix
      · exact hpre
    · rcases hforward with rfl | hforward
      · exact le_of_isPrefix List.nil_prefix
      · exact hforward
  · rintro ⟨hpre, hforward⟩
    exact ⟨Or.inr hpre, Or.inr hforward⟩

def filteredItems (namePrefix forward current : Name) (entries : List (Name × Node μ)) :
    List (WalkItem μ) :=
  WaitingStack.run (current ++ ·) WalkItem.name
    (visit current entries (entries.filterMap (dirObjectName namePrefix forward)))
    ((entries.filterMap (sortName namePrefix forward)).insertionSort (· ≤ ·)) []

theorem scanDir_filtered (hregular : RegularDir entries) (recursive : Bool) (forwardTo : Name)
    (fuel : Nat) :
    scanDir recursive forwardTo (fuel + 1) namePrefix forward current entries =
      (filteredItems namePrefix forward current entries).flatMap
        (WalkItem.putOut fun name path children =>
          if recursive then
            scanDir recursive forwardTo fuel [] (forwardBelow forwardTo name) path children
          else []) := by
  rw [scanDir, classify_eq current (fun entry hmem => (hregular.named entry hmem).2.1)
    hregular.files]
  rfl

theorem filteredItems_perm :
    (filteredItems namePrefix forward current entries).Perm
      (entries.filterMap fun entry => (sortName namePrefix forward entry).bind fun name =>
        (visit current entries (entries.filterMap (dirObjectName namePrefix forward))
          name).output) := by
  have hrun := @WaitingStack.run_perm _ _ _ _ (current ++ ·) WalkItem.name
    (visit current entries (entries.filterMap (dirObjectName namePrefix forward)))
    ((entries.filterMap (sortName namePrefix forward)).insertionSort (· ≤ ·)) []
  rw [List.nil_append] at hrun
  refine hrun.trans (((List.perm_insertionSort _ _).filterMap _).trans (List.Perm.of_eq ?_))
  rw [List.filterMap_filterMap]

theorem exists_of_mem_dirObjects {entry : Name}
    (hmem : entry ∈ entries.filterMap (dirObjectName namePrefix forward)) :
    ∃ plain children, (plain ++ globalDirSuffix, .dir children) ∈ entries ∧
      Accepts namePrefix forward (plain ++ globalDirSuffix ++ slashSeparator) ∧
      entry = plain ++ slashSeparator := by
  obtain ⟨⟨name, node⟩, hentry, hname⟩ := List.mem_filterMap.mp hmem
  cases node with
  | file content => cases hname
  | dir children =>
    rw [dirObjectName] at hname
    split at hname
    next h =>
      obtain ⟨plain, rfl, hdecode⟩ := exists_of_isEncoded h.2
      exact ⟨plain, children, hentry, h.1, by rw [← hdecode, Option.some.inj hname]⟩
    next => cases hname

theorem visit_file (hregular : RegularDir entries) {name : Name} {content : Option μ}
    (hmem : (name, .file content) ∈ entries) :
    visit current entries (entries.filterMap (dirObjectName namePrefix forward)) name = .pass := by
  have hslash := (hregular.named _ hmem).2.1
  have hdir : name ∉ entries.filterMap (dirObjectName namePrefix forward) := by
    intro hdir
    obtain ⟨plain, _, _, _, rfl⟩ := exists_of_mem_dirObjects hdir
    exact hslash (List.mem_append_right _ List.mem_cons_self)
  rw [visit]
  simp only [hdir, if_false, trimSuffix_of_not (not_isSuffixOf_slash hslash),
    lookup_of_mem hregular.nodup hmem, readFile]

theorem visit_passedOver (hregular : RegularDir entries) {name : Name}
    {children : List (Name × Node μ)} (hmem : (name, .dir children) ∈ entries)
    (hdir : name ++ slashSeparator ∉ entries.filterMap (dirObjectName namePrefix forward)) :
    visit current entries (entries.filterMap (dirObjectName namePrefix forward))
        (name ++ slashSeparator) =
      match objectMetadata children with
      | some metadata => .now (.object (current ++ (name ++ slashSeparator)) metadata)
      | none =>
        if children = [] then .pass
        else .wait (.directory (current ++ (name ++ slashSeparator) ++ slashSeparator)
          (current ++ name ++ slashSeparator) children) := by
  rw [visit]
  simp only [hdir, if_false, trimSuffix_append, lookup_of_mem hregular.nodup hmem, false_or]
  rcases readFile_cases hregular hmem with
    ⟨metadata, hok, hobject⟩ | ⟨hnone, metadata, hok, hobject, -⟩ | ⟨hnone, hnot, hobject⟩
  · simp only [hok, hobject]
  · simp only [hnone, hok, hobject]
  · simp only [hnone, hobject]

end Loops

/-! ## Nothing to filter -/

section Sufficient

variable {recursive : Bool} {forwardTo current : Name} {entries : List (Name × Node μ)}

/-- What a visit leads to is an object, or below the directory that is scanned. -/
theorem visit_output {dirObjects : List Name} {entry : Name} {item : WalkItem μ}
    (h : (visit current entries dirObjects entry).output = some item) :
    (∃ name metadata, item = .object name metadata) ∨
      ∃ name path children, item = .directory name path children ∧ current <+: name ∧
        current <+: path := by
  rw [visit] at h
  split at h
  next => cases h
  next =>
    simp only at h
    split at h
    next =>
      refine Or.inl ?_
      split at h
      next =>
        cases h
        exact ⟨_, _, rfl⟩
      next =>
        cases h
        exact ⟨_, _, rfl⟩
    next =>
      split at h
      next =>
        cases h
        exact Or.inl ⟨_, _, rfl⟩
      next =>
        split at h
        next => cases h
        next =>
          cases h
          refine Or.inr ⟨_, _, _, rfl, ?_, ?_⟩
          · rw [List.append_assoc]
            exact List.prefix_append _ _
          · rw [List.append_assoc]
            exact List.prefix_append _ _
      next => cases h
    next => cases h
    next => cases h

theorem forwardBelow_of_le {name : Name} (hle : forwardTo ≤ name) :
    forwardBelow forwardTo name = [] := by
  rw [forwardBelow]
  split
  next h =>
    have hpre := List.isPrefixOf_iff_prefix.mp h.2
    have hsame : name = forwardTo := le_antisymm (le_of_isPrefix hpre) hle
    rw [hsame, trimPrefix, if_pos (List.isPrefixOf_iff_prefix.mpr List.prefix_rfl),
      List.drop_length]
  next => rfl

theorem scanDir_forward {fuel : Nat} {namePrefix forward : Name} (hle : forwardTo ≤ current) :
    scanDir recursive forwardTo fuel namePrefix forward current entries =
      scanDir recursive [] fuel namePrefix forward current entries := by
  induction fuel generalizing namePrefix forward current entries with
  | zero => rfl
  | succ fuel ih =>
    rw [scanDir, scanDir]
    split
    next => rfl
    next kept dirObjects _ =>
      refine List.flatMap_congr fun item hitem => ?_
      rw [(WaitingStack.run_perm _ _).mem_iff, List.nil_append] at hitem
      obtain ⟨entry, -, houtput⟩ := List.mem_filterMap.mp hitem
      rcases visit_output houtput with
        ⟨name, metadata, rfl⟩ | ⟨name, path, children, rfl, hname, hpath⟩
      · rfl
      · have hforward : forwardBelow [] name = [] := rfl
        rw [WalkItem.putOut, WalkItem.putOut,
          forwardBelow_of_le (hle.trans (le_of_isPrefix hname)), hforward,
          ih (hle.trans (le_of_isPrefix hpath))]

theorem prefix_of_prefix_slash {namePrefix name : Name} (hslash : '/' ∉ namePrefix)
    (hpre : namePrefix <+: name ++ slashSeparator) : namePrefix <+: name := by
  rcases List.prefix_concat_iff.mp hpre with rfl | hpre
  · exact absurd (List.mem_append_right _ List.mem_cons_self) hslash
  · exact hpre

theorem prefix_of_prefix_decode {namePrefix name : Name} (hslash : '/' ∉ namePrefix)
    (hpre : namePrefix <+: decodeDirObject name) : namePrefix <+: name := by
  cases hencoded : isEncoded name with
  | true =>
    obtain ⟨plain, rfl, hdecode⟩ := exists_of_isEncoded hencoded
    rw [hdecode] at hpre
    exact (prefix_of_prefix_slash hslash hpre).trans (List.prefix_append _ _)
  | false =>
    rw [decodeDirObject_plain hencoded] at hpre
    exact hpre

/-- Where nothing that is put out is passed over, a loop with filters does the same as
one without. -/
theorem filteredItems_eq {namePrefix forward : Name} (hregular : RegularDir entries)
    (haccepts : ∀ name children, (name, .dir children) ∈ entries → Shows children →
      Accepts namePrefix forward (name ++ slashSeparator))
    (htwin : ∀ name children, (name, .dir children) ∈ entries →
      name ++ slashSeparator ∈ entries.filterMap (dirObjectName namePrefix forward) →
      Accepts namePrefix forward (name ++ slashSeparator)) :
    filteredItems namePrefix forward current entries = items current entries := by
  have hle : ∀ l : List Name, (l.insertionSort (· ≤ ·)).Pairwise (· ≤ ·) := fun l =>
    List.pairwise_insertionSort _ l
  have hkeys : ∀ l : List Name, (l.insertionSort (· ≤ ·)).Pairwise fun name name' =>
      current ++ name ≤ current ++ name' := fun l =>
    (hle l).imp append_le_append_iff.mpr
  generalize hvisit : visit current entries
    (entries.filterMap (dirObjectName namePrefix forward)) = visitF
  generalize hvisit' : visit current entries (entries.filterMap (dirObjectName [] [])) = visit₀
  -- What leads to something has the same name and leads to the same in both loops.
  have hentry : ∀ entry ∈ entries,
      (sortName namePrefix forward entry).filter (fun name => (visitF name).output.isSome) =
        (sortName [] [] entry).filter fun name => (visit₀ name).output.isSome := by
    rintro ⟨name, node⟩ hmem
    cases node with
    | file content =>
      have hpass : visitF name = .pass := by
        rw [← hvisit]
        exact visit_file hregular hmem
      rw [sortName, sortName, if_pos (accepts_nil _)]
      split
      next => rfl
      next => rw [Option.filter_some, hpass]; rfl
    | dir children =>
      have hplain : visit₀ (decodeDirObject name) = outcome current name children := by
        rw [← hvisit']
        exact visit_sortNames hregular hmem
      rw [sortName, sortName, if_pos (accepts_nil _)]
      split
      next haccepted =>
        have hsame : visitF (decodeDirObject name) = outcome current name children := by
          rw [← hvisit]
          exact visit_decoded hregular hmem (mem_dirObjects hregular hmem haccepted)
        rw [Option.filter_some, Option.filter_some, hsame, hplain]
      next hpassed =>
        have hshows := not_shows_iff.mp fun h => hpassed (haccepts name children hmem h)
        have hpass : visitF (name ++ slashSeparator) = .pass := by
          rw [← hvisit, visit_passedOver hregular hmem
            fun hdir => hpassed (htwin name children hmem hdir), hshows.1, hshows.2]
          rfl
        have hnothing : outcome current name children = .pass := by
          rw [outcome, hshows.1, if_pos (Or.inr hshows.2)]
        rw [Option.filter_some, Option.filter_some, hpass, hplain, hnothing]
        rfl
  have hnames : ((entries.filterMap (sortName namePrefix forward)).insertionSort
      (· ≤ ·)).filter (fun name => (visitF name).output.isSome) =
        (sortNames entries).filter fun name => (visit₀ name).output.isSome := by
    refine List.Perm.eq_of_pairwise (fun a b _ _ hab hba => le_antisymm hab hba)
      ((hle _).filter _) ((hle _).filter _) ?_
    have hfilter : (entries.filterMap (sortName namePrefix forward)).filter
        (fun name => (visitF name).output.isSome) =
          (entries.filterMap (sortName [] [])).filter fun name => (visit₀ name).output.isSome := by
      rw [List.filter_filterMap, List.filter_filterMap]
      exact List.filterMap_congr hentry
    exact (((List.perm_insertionSort _ _).filter _).trans (List.Perm.of_eq hfilter)).trans
      ((List.perm_insertionSort _ _).symm.filter _)
  have hpass : ∀ {visit : Name → Response (WalkItem μ)} {name : Name},
      (visit name).output.isSome = false → visit name = .pass := by
    intro visit name hnone
    cases hresponse : visit name with
    | now item | wait item =>
      rw [hresponse] at hnone
      cases hnone
    | pass => rfl
  have hsame : ∀ name ∈ (sortNames entries).filter fun name => (visit₀ name).output.isSome,
      visitF name = visit₀ name := by
    intro name hname
    obtain ⟨hname, houtput⟩ := List.mem_filter.mp hname
    obtain ⟨name, children, hmem, rfl⟩ := mem_sortNames.mp hname
    have hplain : visit₀ (decodeDirObject name) = outcome current name children := by
      rw [← hvisit']
      exact visit_sortNames hregular hmem
    have hshows : Shows children := by
      by_contra hnot
      have hnot := not_shows_iff.mp hnot
      rw [hplain, outcome, hnot.1, if_pos (Or.inr hnot.2)] at houtput
      cases houtput
    rw [hplain, ← hvisit]
    exact visit_decoded hregular hmem
      (mem_dirObjects hregular hmem (haccepts name children hmem hshows))
  have hskip : ∀ (visit : Name → Response (WalkItem μ)) (l : List Name),
      WaitingStack.run (current ++ ·) WalkItem.name visit
          ((l.insertionSort (· ≤ ·)).filter fun name => (visit name).output.isSome) [] =
        WaitingStack.run (current ++ ·) WalkItem.name visit (l.insertionSort (· ≤ ·)) [] :=
    fun visit l => WaitingStack.run_filter (hkeys l) (fun name _ hnone => hpass hnone) []
  calc filteredItems namePrefix forward current entries
      = WaitingStack.run (current ++ ·) WalkItem.name visitF
          ((entries.filterMap (sortName namePrefix forward)).insertionSort (· ≤ ·)) [] := by
        rw [filteredItems, hvisit]
    _ = WaitingStack.run (current ++ ·) WalkItem.name visitF
          ((sortNames entries).filter fun name => (visit₀ name).output.isSome) [] := by
        rw [← hskip, hnames]
    _ = WaitingStack.run (current ++ ·) WalkItem.name visit₀
          ((sortNames entries).filter fun name => (visit₀ name).output.isSome) [] :=
        WaitingStack.run_congr hsame []
    _ = items current entries := by
        rw [sortNames, hskip, items, hvisit', sortNames]

theorem Emitted.exists_shownName (hregular : Regular entries) {entry : WalkedEntry μ}
    (hemitted : Emitted recursive current entries entry) :
    ∃ name children, (name, .dir children) ∈ entries ∧ Shows children ∧
      shownName current name children <+: entry.name ∧
      (objectMetadata children = none → isEncoded name = false) := by
  obtain ⟨hhere, hbelow⟩ := hregular
  cases hemitted with
  | @object _ name _ children metadata hmem hobject =>
    refine ⟨name, children, hmem, Or.inl (by rw [hobject]; rfl), ?_, fun hnone => ?_⟩
    · rw [shownName, hobject]
      exact List.prefix_rfl
    · rw [hobject] at hnone
      cases hnone
  | @directory _ name _ children hmem hplain hobject hne =>
    refine ⟨name, children, hmem, Or.inr hne, ?_, fun _ => hplain⟩
    rw [shownName, hobject]
    exact List.prefix_rfl
  | @inside _ name _ children _ hrecursive hmem hplain hobject hbelow' =>
    have hname := hbelow'.nameBelow (hbelow name children hmem hplain hobject)
    obtain ⟨rest, -, hrest⟩ := hname.exists_rest
    have hne : children ≠ [] := by
      rintro rfl
      cases hbelow' with
      | object hmem | directory hmem | inside _ hmem => cases hmem
    refine ⟨name, children, hmem, Or.inr hne, ?_, fun _ => hplain⟩
    rw [shownName, hobject, hrest]
    exact List.prefix_append _ _

end Sufficient

/-! ## Something to filter -/

section Necessary

variable {current namePrefix forward : Name} {entries : List (Name × Node μ)}
variable {name : Name}

theorem eq_of_nodup_filteredItems
    (hnodup : (filteredItems namePrefix forward current entries).Nodup)
    {entry entry' : Name × Node μ} (hentry : entry ∈ entries) (hentry' : entry' ∈ entries)
    (hname : sortName namePrefix forward entry = some name)
    (hname' : sortName namePrefix forward entry' = some name) {item : WalkItem μ}
    (hitem : (visit current entries (entries.filterMap (dirObjectName namePrefix forward))
      name).output = some item) : entry = entry' := by
  by_contra hne
  rw [filteredItems_perm.nodup_iff, List.Nodup, List.pairwise_filterMap] at hnodup
  have hdiffer := @List.Pairwise.forall _ _ _
    ⟨fun _ _ h b hb b' hb' heq => h b' hb' b hb heq.symm⟩ hnodup _ hentry _ hentry' hne
  exact hdiffer item (by rw [hname]; exact hitem) item (by rw [hname']; exact hitem) rfl

def WalkItem.first : WalkItem μ → WalkedEntry μ
  | object name metadata => ⟨name, some metadata⟩
  | directory name _ _ => ⟨name, none⟩

theorem first_mem_putOut (scan : Name → Name → List (Name × Node μ) → List (WalkedEntry μ))
    (item : WalkItem μ) : item.first ∈ item.putOut scan := by
  cases item with
  | object name metadata => exact List.mem_cons_self
  | directory name path children => exact List.mem_cons_self

theorem nodup_of_flatMap {scan : Name → Name → List (Name × Node μ) → List (WalkedEntry μ)}
    {l : List (WalkItem μ)} (hnodup : (l.flatMap (WalkItem.putOut scan)).Nodup) : l.Nodup := by
  obtain ⟨-, hdisjoint⟩ := List.nodup_flatMap.mp hnodup
  refine hdisjoint.imp fun {item item'} hdisj heq => ?_
  subst heq
  exact hdisj (first_mem_putOut scan item) (first_mem_putOut scan item)

theorem first_mem_of_visit {entry : Name × Node μ} (hentry : entry ∈ entries)
    (hname : sortName namePrefix forward entry = some name) {item : WalkItem μ}
    (hitem : (visit current entries (entries.filterMap (dirObjectName namePrefix forward))
      name).output = some item) : item ∈ filteredItems namePrefix forward current entries := by
  rw [filteredItems_perm.mem_iff, List.mem_filterMap]
  exact ⟨entry, hentry, by rw [hname]; exact hitem⟩

theorem outcome_output_of_shows {name : Name} {children : List (Name × Node μ)}
    (hshows : Shows children) (hplain : objectMetadata children = none → isEncoded name = false) :
    ∃ item, (outcome current name children).output = some item ∧
      item.first.name = shownName current name children := by
  cases hobject : objectMetadata children with
  | some metadata =>
    rw [outcome, shownName, hobject]
    exact ⟨_, rfl, rfl⟩
  | none =>
    rw [outcome, shownName, hobject, hplain hobject,
      if_neg fun h => h.elim Bool.false_ne_true (hshows.ne_nil hobject)]
    exact ⟨_, rfl, rfl⟩

theorem eq_of_slash_append {name name' rest rest' : Name} (hslash : '/' ∉ name)
    (hslash' : '/' ∉ name')
    (heq : name ++ (slashSeparator ++ rest) = name' ++ (slashSeparator ++ rest')) :
    name = name' ∧ rest = rest' := by
  have hpart : ∀ {name rest : Name}, '/' ∉ name →
      (name ++ (slashSeparator ++ rest)).takeWhile (· ≠ '/') = name := by
    intro name rest hnot
    have hall : ∀ c ∈ name, decide (c ≠ '/') = true := fun c hc =>
      decide_eq_true (by rintro rfl; exact hnot hc)
    rw [List.takeWhile_append_of_pos hall]
    exact List.append_right_eq_self.mpr rfl
  have hname : name = name' := by
    rw [← hpart hslash, ← hpart hslash', heq]
  rw [hname] at heq
  exact ⟨hname, List.append_cancel_left (List.append_cancel_left heq)⟩

theorem not_emitted_double {recursive : Bool} (hregular : Regular entries) (hslash : '/' ∉ name) :
    ¬ Emitted recursive current entries
      ⟨current ++ (name ++ slashSeparator) ++ slashSeparator, none⟩ := by
  obtain ⟨hhere, hbelow⟩ := hregular
  generalize hentry : (⟨current ++ (name ++ slashSeparator) ++ slashSeparator, none⟩ :
    WalkedEntry μ) = entry
  intro hemitted
  cases hemitted with
  | object hmem hobject => cases (WalkedEntry.mk.inj hentry).2
  | @directory _ name' _ children hmem hplain hobject hne =>
    have heq := (WalkedEntry.mk.inj hentry).1
    rw [List.append_assoc, List.append_assoc current name', List.append_cancel_left_eq] at heq
    obtain rfl : name ++ slashSeparator = name' := List.append_cancel_right heq
    exact (hhere.named _ hmem).2.1 (List.mem_append_right _ List.mem_cons_self)
  | @inside _ name' _ children _ hrecursive hmem hplain hobject hinside =>
    obtain ⟨part, rest, hpart, hpartSlash, hname⟩ :=
      hinside.nameBelow (hbelow _ _ hmem hplain hobject)
    simp only [← hentry, List.append_assoc, List.append_cancel_left_eq] at hname
    obtain ⟨-, hrest⟩ := eq_of_slash_append hslash (hhere.named _ hmem).2.1 hname
    obtain ⟨c, part, rfl⟩ := List.exists_cons_of_ne_nil hpart
    obtain rfl : '/' = c := (List.cons.inj hrest).1
    exact hpartSlash List.mem_cons_self

/-- An object that has to be put out under a name with a slash behind it is kept in the
encoded directory. -/
theorem Emitted.exists_encoded {recursive : Bool} (hregular : Regular entries) (hslash : '/' ∉ name)
    {metadata : μ} (hemitted : Emitted recursive current entries
      ⟨current ++ (name ++ slashSeparator), some metadata⟩) :
    ∃ children, (name ++ globalDirSuffix, .dir children) ∈ entries ∧
      objectMetadata children = some metadata := by
  obtain ⟨hhere, hbelow⟩ := hregular
  generalize hentry : (⟨current ++ (name ++ slashSeparator), some metadata⟩ : WalkedEntry μ) =
    entry at hemitted
  cases hemitted with
  | @object _ name' _ children metadata' hmem hobject =>
    obtain ⟨hname, hmetadata⟩ := WalkedEntry.mk.inj hentry
    obtain rfl := Option.some.inj hmetadata
    have hdecode := List.append_cancel_left hname
    have hsame : name ++ globalDirSuffix = name' := by
      refine decodeDirObject_inj (fun hmem' => ?_) (hhere.named _ hmem).2.1
        ((decodeDirObject_append name).trans hdecode)
      rcases List.mem_append.mp hmem' with hmem' | hmem'
      · exact hslash hmem'
      · exact absurd hmem' (by decide)
    exact ⟨children, hsame ▸ hmem, hobject⟩
  | directory => cases (WalkedEntry.mk.inj hentry).2
  | @inside _ name' _ children _ hrecursive hmem hplain hobject hinside =>
    obtain ⟨part, rest, hpart, -, hname⟩ :=
      hinside.nameBelow (hbelow _ _ hmem hplain hobject)
    simp only [← hentry, List.append_assoc, List.append_cancel_left_eq] at hname
    have hname' : name ++ (slashSeparator ++ []) =
        name' ++ (slashSeparator ++ (part ++ rest)) := by
      rw [List.append_nil]
      exact hname
    obtain ⟨-, hrest⟩ := eq_of_slash_append hslash (hhere.named _ hmem).2.1 hname'
    exact absurd (List.append_eq_nil_iff.mp hrest.symm).1 hpart

theorem accepts_of_dirObject (hregular : RegularDir entries)
    (hencoded : ∀ name children, (name, .dir children) ∈ entries → isEncoded name = true →
      (objectMetadata children).isSome = true)
    (hnodup : (filteredItems namePrefix forward current entries).Nodup)
    {children : List (Name × Node μ)} (hmem : (name, .dir children) ∈ entries)
    (hdir : name ++ slashSeparator ∈ entries.filterMap (dirObjectName namePrefix forward)) :
    Accepts namePrefix forward (name ++ slashSeparator) := by
  by_contra hpassed
  obtain ⟨plain, children', hmem', haccepts, hname⟩ := exists_of_mem_dirObjects hdir
  obtain rfl : name = plain := List.append_cancel_right hname
  obtain ⟨metadata, hobject⟩ := Option.isSome_iff_exists.mp
    (hencoded _ _ hmem' (isEncoded_append name))
  have hvisit : visit current entries (entries.filterMap (dirObjectName namePrefix forward))
      (name ++ slashSeparator) = outcome current (name ++ globalDirSuffix) children' := by
    rw [← decodeDirObject_append]
    exact visit_decoded hregular hmem' (mem_dirObjects hregular hmem' haccepts)
  have hsort : sortName namePrefix forward (name, .dir children) =
      some (name ++ slashSeparator) := by
    rw [sortName, if_neg hpassed]
  have hsort' : sortName namePrefix forward (name ++ globalDirSuffix, .dir children') =
      some (name ++ slashSeparator) := by
    rw [sortName, if_pos haccepts, decodeDirObject_append]
  have hsame := eq_of_nodup_filteredItems hnodup hmem hmem' hsort hsort'
    (by rw [hvisit, outcome, hobject]; rfl)
  exact absurd (List.self_eq_append_right.mp (Prod.mk.inj hsame).1) (by decide)

/-- Where the loop puts out nothing but what has to be put out, and that once, it takes
every directory that is shown. -/
theorem accepts_of_shows {recursive : Bool} (hregular : Regular entries)
    (hencoded : ∀ name children, (name, .dir children) ∈ entries → isEncoded name = true →
      (objectMetadata children).isSome = true)
    (hnodup : (filteredItems namePrefix forward current entries).Nodup)
    (hemitted : ∀ item ∈ filteredItems namePrefix forward current entries,
      Emitted recursive current entries item.first) {children : List (Name × Node μ)}
    (hmem : (name, .dir children) ∈ entries) (hshows : Shows children) :
    Accepts namePrefix forward (name ++ slashSeparator) := by
  obtain ⟨hhere, -⟩ := id hregular
  -- A directory that is passed over has an encoded one beside it that is passed over too.
  obtain ⟨bound, hbound⟩ : ∃ bound, ∀ entry ∈ entries, entry.1.length ≤ bound :=
    ⟨(entries.map Prod.fst).flatten.length, fun entry hentry =>
      (List.sublist_flatten_of_mem (List.mem_map_of_mem hentry)).length_le⟩
  induction hlength : bound - name.length using Nat.strong_induction_on generalizing name children
  next k ih =>
  by_contra hpassed
  have hdir : name ++ slashSeparator ∉ entries.filterMap (dirObjectName namePrefix forward) :=
    fun hdir => hpassed (accepts_of_dirObject hhere hencoded hnodup hmem hdir)
  have hslash := (hhere.named _ hmem).2.1
  have hsort : sortName namePrefix forward (name, .dir children) =
      some (name ++ slashSeparator) := by
    rw [sortName, if_neg hpassed]
  have hvisit := @visit_passedOver _ current namePrefix forward _ hhere _ _ hmem hdir
  cases hobject : objectMetadata children with
  | some metadata =>
    simp only [hobject] at hvisit
    have hfirst := hemitted _ (first_mem_of_visit hmem hsort (by rw [hvisit]; rfl))
    obtain ⟨children', hmem', hobject'⟩ := Emitted.exists_encoded hregular hslash hfirst
    have hlong : bound - (name ++ globalDirSuffix).length < k := by
      have hle := hbound _ hmem'
      have hpos : 0 < globalDirSuffix.length := by decide
      simp only [List.length_append] at hle ⊢
      omega
    have haccepts := ih _ hlong hmem' (Or.inl (by rw [hobject']; rfl)) rfl
    rw [← decodeDirObject_append, mem_dirObjects hhere hmem' haccepts] at hdir
    exact hdir (isEncoded_append name)
  | none =>
    simp only [hobject, hshows.ne_nil hobject, if_false] at hvisit
    exact not_emitted_double hregular hslash
      (hemitted _ (first_mem_of_visit hmem hsort (by rw [hvisit]; rfl)))

end Necessary

theorem prefix_shownName_iff {current pre name : Name} {children : List (Name × Node μ)}
    (hslash : '/' ∉ pre) (hplain : objectMetadata children = none → isEncoded name = false) :
    current ++ pre <+: shownName current name children ↔ pre <+: decodeDirObject name := by
  rw [shownName]
  split
  next => exact List.prefix_append_right_inj _
  next hobject =>
    rw [Bool.not_eq_true, Option.isSome_eq_false_iff, Option.isNone_iff_eq_none] at hobject
    rw [decodeDirObject_plain (hplain hobject), List.append_assoc, List.prefix_append_right_inj]
    exact ⟨prefix_of_prefix_slash hslash, fun hpre => hpre.trans (List.prefix_append _ _)⟩

section Filters

variable (opts : WalkDirOptions) (bucket entries : List (Name × Node μ))
  (hslash : '/' ∉ opts.filterPrefix) (hbase : findDir opts.baseDir bucket = some entries)
  (hregular : Regular entries)
  (hencoded : ∀ name children, (name, .dir children) ∈ entries → isEncoded name = true →
    (objectMetadata children).isSome = true)
include hslash hbase hregular hencoded

/-- A walk that has nothing to filter is the walk without filters, and all of that is
wanted. -/
theorem filtersOnly_of_nothing (hnothing : NothingToFilter opts bucket entries) :
    FiltersOnly opts bucket := by
  have hhere : RegularDir entries := by
    cases hregular
    assumption
  have haccepts : ∀ name children, (name, .dir children) ∈ entries → Shows children →
      Accepts opts.filterPrefix opts.forwardTo (name ++ slashSeparator) := by
    intro name children hmem hshows
    obtain ⟨hpre, -, hforward⟩ := hnothing.shown name children hmem hshows
    exact accepts_iff.mpr
      ⟨(prefix_of_prefix_decode hslash hpre).trans (List.prefix_append _ _), hforward⟩
  have htwin : ∀ name children, (name, .dir children) ∈ entries →
      name ++ slashSeparator ∈
        entries.filterMap (dirObjectName opts.filterPrefix opts.forwardTo) →
      Accepts opts.filterPrefix opts.forwardTo (name ++ slashSeparator) := by
    intro name children hmem hdir
    obtain ⟨plain, children', hmem', -, hname⟩ := exists_of_mem_dirObjects hdir
    obtain rfl : name = plain := List.append_cancel_right hname
    obtain ⟨hpre, -⟩ := hnothing.shown _ _ hmem'
      (Or.inl (hencoded _ _ hmem' (isEncoded_append name)))
    refine accepts_iff.mpr ⟨?_, hnothing.twin name children children' hmem hmem'⟩
    rw [decodeDirObject_append] at hpre
    exact hpre
  obtain ⟨l, hwalk, hall⟩ := walkDir_walksAll opts.unfiltered bucket entries rfl rfl hbase hregular
  have hsame : walkDir opts bucket = walkDir opts.unfiltered bucket := by
    have hunfiltered := @walkDir_eq _ opts.unfiltered bucket entries hbase hhere
    rw [walkDir_eq hbase hhere, hunfiltered, Node.depth, scanDir_filtered hhere,
      filteredItems_eq hhere haccepts htwin]
    have hscan := @scanDir_succ _ entries (dirName opts.baseDir) hhere opts.recursive []
      (Node.entriesDepth entries)
    have hitems : (items (dirName opts.baseDir) entries).flatMap
        (WalkItem.putOut fun name path children =>
          if opts.recursive then
            scanDir opts.recursive opts.forwardTo (Node.entriesDepth entries) []
              (forwardBelow opts.forwardTo name) path children
          else []) =
        scanDir opts.recursive [] (Node.entriesDepth entries + 1) [] []
          (dirName opts.baseDir) entries := by
      rw [hscan]
      refine List.flatMap_congr fun item hitem => ?_
      rcases mem_items_cases hhere hitem with ⟨name, children, metadata, -, -, rfl⟩ |
        ⟨name, children, hmem, hplain, hobject, hne, rfl⟩
      · rfl
      · obtain ⟨-, hle, -⟩ := hnothing.shown name children hmem (Or.inr hne)
        simp only [shownName, hobject, Option.isSome_none, Bool.false_eq_true, if_false] at hle
        have hforward : ∀ name : Name, forwardBelow [] name = [] := fun _ => rfl
        rw [WalkItem.putOut, WalkItem.putOut, forwardBelow_of_le hle, hforward,
          scanDir_forward hle]
    rw [hitems]
    rfl
  have hwanted : l.filter (Wanted opts) = l := by
    refine List.filter_eq_self.mpr fun entry hentry => ?_
    rw [Wanted, Bool.and_eq_true, List.isPrefixOf_iff_prefix, decide_eq_true_iff]
    rcases (hall.mem_iff entry).mp hentry with ⟨hslash', metadata, hobject, rfl⟩ | hemitted
    · have hobject' : (baseDirObject opts.baseDir bucket).isSome = true := by
        change baseDirObject opts.baseDir bucket = some metadata at hobject
        rw [hobject]
        rfl
      obtain ⟨hnil, hle⟩ := hnothing.base hslash' hobject'
      rw [hnil, List.append_nil]
      exact ⟨List.prefix_rfl, hle⟩
    · obtain ⟨name, children, hmem, hshows, hname, hplain⟩ := hemitted.exists_shownName hregular
      obtain ⟨hpre, hle, -⟩ := hnothing.shown name children hmem hshows
      exact ⟨((prefix_shownName_iff hslash hplain).mpr hpre).trans hname,
        hle.trans (le_of_isPrefix hname)⟩
  rw [FiltersOnly, hsame, hwalk]
  change Except.ok l = Except.ok (l.filter (Wanted opts))
  rw [hwanted]

/-- A walk with filters that puts out what it should has nothing to filter. -/
theorem nothing_of_filtersOnly (honly : FiltersOnly opts bucket) :
    NothingToFilter opts bucket entries := by
  obtain ⟨hhere, -⟩ := id hregular
  obtain ⟨l, hwalk, hall⟩ := walkDir_walksAll opts.unfiltered bucket entries rfl rfl hbase hregular
  rw [FiltersOnly, hwalk, walkDir_eq hbase hhere, Node.depth, scanDir_filtered hhere] at honly
  obtain ⟨scan, hlist⟩ : ∃ scan, (if opts.trailingSlash then baseDirObject opts.baseDir bucket
        else none).toList.map (fun metadata => ⟨dirName opts.baseDir, some metadata⟩) ++
      (filteredItems opts.filterPrefix opts.forwardTo (dirName opts.baseDir) entries).flatMap
        (WalkItem.putOut scan) = l.filter (Wanted opts) := ⟨_, Except.ok.inj honly⟩
  have hput : ∀ item ∈
      filteredItems opts.filterPrefix opts.forwardTo (dirName opts.baseDir) entries,
      item.first ∈ l.filter (Wanted opts) := by
    intro item hitem
    rw [← hlist]
    exact List.mem_append_right _ (List.mem_flatMap.mpr ⟨item, hitem, first_mem_putOut _ _⟩)
  have honce := hall.once.filter (Wanted opts)
  rw [← hlist] at honce
  have hnodup : (filteredItems opts.filterPrefix opts.forwardTo (dirName opts.baseDir)
      entries).Nodup := nodup_of_flatMap (honce.sublist (List.sublist_append_right _ _))
  have hemitted : ∀ item ∈
      filteredItems opts.filterPrefix opts.forwardTo (dirName opts.baseDir) entries,
      Emitted opts.recursive (dirName opts.baseDir) entries item.first := by
    intro item hitem
    have hmem := (List.mem_filter.mp (hput item hitem)).1
    rcases (hall.mem_iff _).mp hmem with ⟨htrailing, metadata, hobject, hfirst⟩ | hemitted
    · -- The object that the base directory is itself has been put out before.
      change opts.trailingSlash = true at htrailing
      change baseDirObject opts.baseDir bucket = some metadata at hobject
      rw [if_pos htrailing, hobject] at honce
      refine absurd (List.mem_flatMap.mpr ⟨item, hitem, ?_⟩) (List.nodup_cons.mp honce).1
      change (⟨dirName opts.baseDir, some metadata⟩ : WalkedEntry μ) ∈ item.putOut scan
      have hsame : item.first = ⟨dirName opts.baseDir, some metadata⟩ := hfirst
      rw [← hsame]
      exact first_mem_putOut scan item
    · exact hemitted
  have haccepts : ∀ name children, (name, .dir children) ∈ entries → Shows children →
      Accepts opts.filterPrefix opts.forwardTo (name ++ slashSeparator) := fun _ _ =>
    accepts_of_shows hregular hencoded hnodup hemitted
  refine ⟨fun htrailing hobject => ?_, fun name children hmem hshows => ?_,
    fun name children children' hmem hmem' => ?_⟩
  · obtain ⟨metadata, hobject⟩ := Option.isSome_iff_exists.mp hobject
    rw [if_pos htrailing, hobject] at hlist
    have hmem : (⟨dirName opts.baseDir, some metadata⟩ : WalkedEntry μ) ∈
        l.filter (Wanted opts) := by
      rw [← hlist]
      exact List.mem_cons_self
    have hwanted := (List.mem_filter.mp hmem).2
    rw [Wanted, Bool.and_eq_true, List.isPrefixOf_iff_prefix, decide_eq_true_iff] at hwanted
    refine ⟨?_, hwanted.2⟩
    have hlength := hwanted.1.length_le
    rw [List.length_append] at hlength
    exact List.eq_nil_of_length_eq_zero (Nat.le_zero.mp (Nat.le_of_add_le_add_left hlength))
  · have hplain : objectMetadata children = none → isEncoded name = false := by
      intro hnone
      by_contra hnot
      have hsome := hencoded name children hmem (Bool.not_eq_false _ ▸ hnot)
      rw [hnone] at hsome
      cases hsome
    have haccepted := haccepts name children hmem hshows
    obtain ⟨item, hitem, hname⟩ :=
      @outcome_output_of_shows _ (dirName opts.baseDir) _ _ hshows hplain
    rw [← visit_decoded hhere hmem (mem_dirObjects hhere hmem haccepted)] at hitem
    have hfirst := hput item (first_mem_of_visit hmem (by rw [sortName, if_pos haccepted]) hitem)
    have hwanted := (List.mem_filter.mp hfirst).2
    rw [Wanted, Bool.and_eq_true, List.isPrefixOf_iff_prefix, decide_eq_true_iff, hname] at hwanted
    exact ⟨(prefix_shownName_iff hslash hplain).mp hwanted.1, hwanted.2,
      (accepts_iff.mp haccepted).2⟩
  · have hshows : Shows children' := Or.inl (hencoded _ _ hmem' (isEncoded_append name))
    refine (accepts_iff.mp (accepts_of_dirObject hhere hencoded hnodup hmem ?_)).2
    rw [← decodeDirObject_append, mem_dirObjects hhere hmem' (haccepts _ _ hmem' hshows)]
    exact isEncoded_append name

/-- A walk with filters puts out what the filters are to keep of the walk without if and
only if that is all of it. -/
theorem filtersOnly_iff : FiltersOnly opts bucket ↔ NothingToFilter opts bucket entries :=
  ⟨nothing_of_filtersOnly opts bucket entries hslash hbase hregular hencoded,
    filtersOnly_of_nothing opts bucket entries hslash hbase hregular hencoded⟩

end Filters

theorem sharedName_filtersOnly : FiltersOnly { filterPrefix := ['a'] } sharedName := by
  have hcases : ∀ {name : Name} {children : List (Name × Node Nat)},
      (name, .dir children) ∈ sharedName →
        name = ['a'] ∧ children = [(['b'], objectDir 1)] ∨
          name = 'a' :: globalDirSuffix ∧ .dir children = objectDir 2 := by
    intro name children hmem
    rcases List.mem_cons.mp hmem with h | hmem
    · cases h
      exact Or.inl ⟨rfl, rfl⟩
    · cases List.mem_singleton.mp hmem
      exact Or.inr ⟨rfl, rfl⟩
  refine (filtersOnly_iff { filterPrefix := ['a'] } sharedName sharedName (by decide) rfl
    sharedName_regular fun name children hmem hencoded => ?_).mpr ⟨?_, ?_, ?_⟩
  · rcases hcases hmem with ⟨rfl, -⟩ | ⟨-, hnode⟩
    · exact absurd hencoded (by decide)
    · cases hnode
      rfl
  · intro htrailing
    cases htrailing
  · intro name children hmem _
    refine ⟨?_, le_of_isPrefix List.nil_prefix, le_of_isPrefix List.nil_prefix⟩
    rcases hcases hmem with ⟨rfl, -⟩ | ⟨rfl, -⟩
    · decide
    · decide
  · intro _ _ _ _ _
    exact le_of_isPrefix List.nil_prefix

def twoDirectories : List (Name × Node Nat) :=
  [(['a'], .dir [(['b'], objectDir 1)]), (['a', '-'], .dir [(['x'], objectDir 3)])]

/-- The directory that the prefix does not take is put out all the same, with a slash too
many. -/
theorem twoDirectories_passedOver :
    walkDir { filterPrefix := ['a', '-'] } twoDirectories = .ok
        [⟨"a-/".toList, none⟩, ⟨"a-/x".toList, some 3⟩, ⟨"a//".toList, none⟩,
          ⟨"a/b".toList, some 1⟩] ∧
      ¬ FiltersOnly { filterPrefix := ['a', '-'] } twoDirectories := by
  constructor
  · decide
  · rw [FiltersOnly]
    decide

end Fs3.Listing
