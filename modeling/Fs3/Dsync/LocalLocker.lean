import Mathlib.Data.List.Count

/-! # The lock table of one locker

A locker keeps, for every resource it has granted a lock on, a write lock or any number of read
locks. -/

namespace Fs3

/-- What a lock request or a release says. -/
structure LockArgs where
  uid : String
  owner : String
  resources : List String
  deriving DecidableEq

/-- One granted lock. -/
structure LockRequesterInfo where
  name : String
  writer : Bool
  uid : String
  owner : String
  deriving DecidableEq

/-- The granted locks of every resource that has some. -/
abbrev LockMap := String → Option (List LockRequesterInfo)

def isWriteLock : List LockRequesterInfo → Bool
  | [entry] => entry.writer
  | _ => false

def LockArgs.owns (args : LockArgs) (entry : LockRequesterInfo) : Bool :=
  entry.uid == args.uid && entry.owner == args.owner

namespace LockMap

def canTakeUnlock (lockMap : LockMap) (resources : List String) : Bool :=
  (resources.countP fun resource => isWriteLock ((lockMap resource).getD [])) == resources.length

def canTakeLock (lockMap : LockMap) (resources : List String) : Bool :=
  (resources.countP fun resource => (lockMap resource).isNone) == resources.length

def lock (lockMap : LockMap) (args : LockArgs) : Bool × LockMap :=
  if lockMap.canTakeLock args.resources then
    (true, args.resources.foldl (fun lockMap resource =>
      Function.update lockMap resource (some [{
        name := resource
        writer := true
        uid := args.uid
        owner := args.owner }])) lockMap)
  else (false, lockMap)

def removeEntry (lockMap : LockMap) (name : String) (args : LockArgs)
    (lri : List LockRequesterInfo) : LockMap :=
  if lri.any args.owns then
    if lri.length = 1 then Function.update lockMap name none
    else Function.update lockMap name (some (lri.eraseP args.owns))
  else lockMap

def unlock (lockMap : LockMap) (args : LockArgs) : Except String Bool × LockMap :=
  if lockMap.canTakeUnlock args.resources then
    (.ok true, args.resources.foldl (fun lockMap resource =>
      match lockMap resource with
      | some lri => lockMap.removeEntry resource args lri
      | none => lockMap) lockMap)
  else
    (.error ("Unlock attempted on a read locked entity: [" ++
      " ".intercalate args.resources ++ "]"), lockMap)

def rLock (lockMap : LockMap) (args : LockArgs) : Bool × LockMap :=
  match args.resources with
  -- The source takes the first resource without a check.
  | [] => (false, lockMap)
  | resource :: _ =>
    let lrInfo : LockRequesterInfo := {
      name := resource
      writer := false
      uid := args.uid
      owner := args.owner }
    match lockMap resource with
    | some lri =>
      if isWriteLock lri then (false, lockMap)
      else (true, Function.update lockMap resource (some (lri ++ [lrInfo])))
    | none => (true, Function.update lockMap resource (some [lrInfo]))

def rUnlock (lockMap : LockMap) (args : LockArgs) : Except String Bool × LockMap :=
  match args.resources with
  | [] => (.error "index out of range [0] with length 0", lockMap)
  | resource :: _ =>
    match lockMap resource with
    | none => (.ok true, lockMap)
    | some lri =>
      if isWriteLock lri then
        (.error ("RUnlock attempted on a write locked entity: " ++ resource), lockMap)
      else (.ok true, lockMap.removeEntry resource args lri)

def grant (lockMap : LockMap) (isReadLock : Bool) (args : LockArgs) : Bool × LockMap :=
  if isReadLock then lockMap.rLock args else lockMap.lock args

def release (lockMap : LockMap) (isReadLock : Bool) (args : LockArgs) :
    Except String Bool × LockMap :=
  if isReadLock then lockMap.rUnlock args else lockMap.unlock args

def Sound (lockMap : LockMap) : Prop :=
  ∀ resource lri, lockMap resource = some lri →
    (∃ entry, lri = [entry] ∧ entry.writer = true) ∨ lri ≠ [] ∧ ∀ entry ∈ lri, entry.writer = false

def isOf (owner uid : String) (writer : Bool) (entry : LockRequesterInfo) : Bool :=
  entry.owner == owner && entry.uid == uid && entry.writer == writer

def granted (lockMap : LockMap) (owner uid : String) (writer : Bool) (resource : String) : Nat :=
  ((lockMap resource).getD []).countP (isOf owner uid writer)

/-- The resources that a request locks: all of them for writing, the first one
for reading. -/
def locked (isReadLock : Bool) (args : LockArgs) : List String :=
  if isReadLock then args.resources.head?.toList else args.resources

section Tables

variable {lockMap lockMap' : LockMap} {args : LockArgs} {resource owner uid : String}
  {writer : Bool}

theorem isWriteLock_iff {lri : List LockRequesterInfo} :
    isWriteLock lri = true ↔ ∃ entry, lri = [entry] ∧ entry.writer = true := by
  match lri with
  | [] => exact ⟨fun h => Bool.noConfusion h, fun ⟨_, h, _⟩ => nomatch h⟩
  | [entry] =>
    exact ⟨fun h => ⟨entry, rfl, h⟩, fun ⟨_, h, hwriter⟩ => by
      obtain rfl := (List.cons.inj h).1
      exact hwriter⟩
  | _ :: _ :: _ => exact ⟨fun h => Bool.noConfusion h, fun ⟨_, h, _⟩ => nomatch h⟩

theorem Sound.alone (hsound : lockMap.Sound) {owner' uid' : String} {writer' : Bool}
    (hwrite : 0 < lockMap.granted owner uid true resource)
    (hother : 0 < lockMap.granted owner' uid' writer' resource) :
    writer' = true ∧ owner' = owner ∧ uid' = uid := by
  unfold granted at hwrite hother
  cases hlocks : lockMap resource with
  | none =>
    rw [hlocks] at hwrite
    exact absurd hwrite (Nat.lt_irrefl 0)
  | some lri =>
    rw [hlocks, Option.getD_some] at hwrite hother
    obtain ⟨entry, hentry, hof⟩ := List.countP_pos_iff.mp hwrite
    obtain ⟨entry', hentry', hof'⟩ := List.countP_pos_iff.mp hother
    unfold isOf at hof hof'
    rw [Bool.and_eq_true, Bool.and_eq_true, beq_iff_eq, beq_iff_eq, beq_iff_eq] at hof hof'
    obtain ⟨⟨howner, huid⟩, hwriter⟩ := hof
    obtain ⟨⟨howner', huid'⟩, hwriter'⟩ := hof'
    rcases hsound resource lri hlocks with ⟨only, rfl, _⟩ | ⟨_, hreaders⟩
    · rw [List.mem_singleton] at hentry hentry'
      subst hentry hentry'
      exact ⟨hwriter'.symm.trans hwriter, howner'.symm.trans howner, huid'.symm.trans huid⟩
    · rw [hreaders entry hentry] at hwriter
      exact Bool.noConfusion hwriter

/-! ## Granting -/

theorem foldl_update {resources : List String} {value : String → List LockRequesterInfo} :
    resources.foldl (fun lockMap resource =>
        Function.update lockMap resource (some (value resource))) lockMap resource =
      if resource ∈ resources then some (value resource) else lockMap resource := by
  induction resources generalizing lockMap with
  | nil => rfl
  | cons first resources ih =>
    rw [List.foldl_cons, ih]
    by_cases hrest : resource ∈ resources
    · rw [if_pos hrest, if_pos (List.mem_cons_of_mem _ hrest)]
    · rw [if_neg hrest]
      by_cases hfirst : resource = first
      · subst hfirst
        rw [Function.update_self, if_pos List.mem_cons_self]
      · rw [Function.update_of_ne hfirst, if_neg (by
          rw [List.mem_cons, not_or]
          exact ⟨hfirst, hrest⟩)]

/-- What a request does: it is rejected and nothing changes, or each resource it
locks gets one more lock, which for writing has none before. -/
theorem grant_cases (lockMap : LockMap) (isReadLock : Bool) (args : LockArgs) :
    lockMap.grant isReadLock args = (false, lockMap) ∨
      (lockMap.grant isReadLock args).1 = true ∧
        ∀ resource,
          (resource ∉ locked isReadLock args ∧
            (lockMap.grant isReadLock args).2 resource = lockMap resource) ∨
          resource ∈ locked isReadLock args ∧
            (isReadLock = false → lockMap resource = none) ∧
            isWriteLock ((lockMap resource).getD []) = false ∧
            (lockMap.grant isReadLock args).2 resource =
              some ((lockMap resource).getD [] ++ [⟨resource, !isReadLock, args.uid, args.owner⟩])
                := by
  unfold grant locked
  cases isReadLock with
  | false =>
    simp only [Bool.false_eq_true, if_false]
    unfold lock
    by_cases htake : lockMap.canTakeLock args.resources = true
    · right
      rw [if_pos htake]
      refine ⟨rfl, fun resource => ?_⟩
      have hfree : ∀ r ∈ args.resources, lockMap r = none := by
        intro r hr
        unfold canTakeLock at htake
        rw [beq_iff_eq, List.countP_eq_length] at htake
        exact Option.isNone_iff_eq_none.mp (htake r hr)
      simp only [foldl_update]
      by_cases hmem : resource ∈ args.resources
      · right
        rw [hfree resource hmem, if_pos hmem]
        exact ⟨hmem, fun _ => rfl, rfl, rfl⟩
      · left
        exact ⟨hmem, if_neg hmem⟩
    · left
      rw [if_neg htake]
  | true =>
    simp only [if_true]
    unfold rLock
    cases hresources : args.resources with
    | nil => exact Or.inl rfl
    | cons first resources =>
      simp only [List.head?_cons, Option.toList_some, List.mem_singleton]
      cases hlocks : lockMap first with
      | some lri =>
        simp only
        by_cases hwrite : isWriteLock lri = true
        · left
          rw [if_pos hwrite]
        · right
          rw [if_neg hwrite]
          refine ⟨rfl, fun resource => ?_⟩
          by_cases hsame : resource = first
          · subst hsame
            right
            rw [hlocks]
            exact ⟨rfl, fun h => Bool.noConfusion h, by simpa using hwrite,
              Function.update_self _ _ _⟩
          · exact Or.inl ⟨hsame, Function.update_of_ne hsame _ _⟩
      | none =>
        right
        refine ⟨rfl, fun resource => ?_⟩
        by_cases hsame : resource = first
        · subst hsame
          right
          rw [hlocks]
          exact ⟨rfl, fun h => Bool.noConfusion h, rfl, Function.update_self _ _ _⟩
        · exact Or.inl ⟨hsame, Function.update_of_ne hsame _ _⟩

theorem Sound.grant (hsound : lockMap.Sound) (isReadLock : Bool) (args : LockArgs) :
    (lockMap.grant isReadLock args).2.Sound := by
  intro resource lri hlocks
  rcases grant_cases lockMap isReadLock args with hno | ⟨_, hall⟩
  · rw [hno] at hlocks
    exact hsound resource lri hlocks
  · rcases hall resource with ⟨_, hsame⟩ | ⟨_, hfree, hread, hnew⟩
    · rw [hsame] at hlocks
      exact hsound resource lri hlocks
    · obtain rfl := Option.some.inj (hnew.symm.trans hlocks)
      cases isReadLock with
      | false =>
        rw [hfree rfl]
        exact Or.inl ⟨_, rfl, rfl⟩
      | true =>
        refine Or.inr ⟨List.append_ne_nil_of_right_ne_nil _ (List.cons_ne_nil _ _),
          fun entry hentry => ?_⟩
        rcases List.mem_append.mp hentry with hold | hnew
        · cases hbefore : lockMap resource with
          | none =>
            rw [hbefore] at hold
            exact absurd hold List.not_mem_nil
          | some before =>
            rw [hbefore, Option.getD_some] at hold hread
            rcases hsound resource before hbefore with hwrite | ⟨_, hreaders⟩
            · rw [isWriteLock_iff.mpr hwrite] at hread
              exact Bool.noConfusion hread
            · exact hreaders entry hold
        · rw [List.mem_singleton] at hnew
          rw [hnew]
          rfl

variable (lockMap args owner uid writer resource) in
theorem granted_le_grant (isReadLock : Bool) :
    lockMap.granted owner uid writer resource ≤
      (lockMap.grant isReadLock args).2.granted owner uid writer resource := by
  rcases grant_cases lockMap isReadLock args with hno | ⟨_, hall⟩
  · exact Nat.le_of_eq (by rw [hno])
  · unfold granted
    rcases hall resource with ⟨_, hsame⟩ | ⟨_, _, _, hnew⟩
    · exact Nat.le_of_eq (by rw [hsame])
    · rw [hnew, Option.getD_some, List.countP_append]
      exact Nat.le_add_right _ _

theorem granted_grant {isReadLock : Bool} (hyes : (lockMap.grant isReadLock args).1 = true)
    (hmem : resource ∈ locked isReadLock args) :
    (lockMap.grant isReadLock args).2.granted args.owner args.uid (!isReadLock) resource =
      lockMap.granted args.owner args.uid (!isReadLock) resource + 1 := by
  rcases grant_cases lockMap isReadLock args with hno | ⟨_, hall⟩
  · rw [hno] at hyes
    exact Bool.noConfusion hyes
  · unfold granted
    rcases hall resource with ⟨hnot, _⟩ | ⟨_, _, _, hnew⟩
    · exact absurd hmem hnot
    · rw [hnew, Option.getD_some, List.countP_append, List.countP_singleton]
      simp [isOf]

/-! ## Releasing -/

theorem removeEntry_cases {lri : List LockRequesterInfo} (name : String) (args : LockArgs)
    (hlocks : lockMap name = some lri) :
    lockMap.removeEntry name args lri = lockMap ∨
      (∃ entry, lri = [entry] ∧ args.owns entry = true ∧
        lockMap.removeEntry name args lri = Function.update lockMap name none) ∨
      1 < lri.length ∧ lri.any args.owns = true ∧
        lockMap.removeEntry name args lri =
          Function.update lockMap name (some (lri.eraseP args.owns)) := by
  unfold removeEntry
  by_cases hany : lri.any args.owns = true
  · rw [if_pos hany]
    by_cases hone : lri.length = 1
    · rw [if_pos hone]
      obtain ⟨entry, rfl⟩ := List.length_eq_one_iff.mp hone
      right
      left
      exact ⟨entry, rfl, by simpa using hany, rfl⟩
    · rw [if_neg hone]
      right
      right
      have hpos : 0 < lri.length := by
        cases lri with
        | nil => exact Bool.noConfusion hany
        | cons _ _ => exact Nat.succ_pos _
      exact ⟨by omega, hany, rfl⟩
  · left
    rw [if_neg hany]

/-- What a release does to each resource: nothing, or it removes one lock of the
one who asks. -/
theorem release_cases (lockMap : LockMap) (isReadLock : Bool) (args : LockArgs)
    (resource : String) :
    (lockMap.release isReadLock args).2 resource = lockMap resource ∨
      (∃ entry, lockMap resource = some [entry] ∧ args.owns entry = true ∧
        (lockMap.release isReadLock args).2 resource = none) ∨
      ∃ lri, lockMap resource = some lri ∧ 1 < lri.length ∧ lri.any args.owns = true ∧
        (lockMap.release isReadLock args).2 resource = some (lri.eraseP args.owns) := by
  unfold release
  cases isReadLock with
  | false =>
    simp only [Bool.false_eq_true, if_false]
    unfold unlock
    split
    next htake =>
      have hwrites : ∀ r ∈ args.resources, isWriteLock ((lockMap r).getD []) = true := by
        unfold canTakeUnlock at htake
        rw [beq_iff_eq, List.countP_eq_length] at htake
        exact htake
      -- Each resource is as it was, or it had one write lock that is gone.
      have hgone : ∀ (resources : List String) (now : LockMap),
          (∀ r ∈ resources, isWriteLock ((lockMap r).getD []) = true) →
          (∀ r, now r = lockMap r ∨
            ∃ entry, lockMap r = some [entry] ∧ args.owns entry = true ∧ now r = none) →
          ∀ r, resources.foldl (fun lockMap resource =>
              match lockMap resource with
              | some lri => lockMap.removeEntry resource args lri
              | none => lockMap) now r = lockMap r ∨
            ∃ entry, lockMap r = some [entry] ∧ args.owns entry = true ∧
              resources.foldl (fun lockMap resource =>
                match lockMap resource with
                | some lri => lockMap.removeEntry resource args lri
                | none => lockMap) now r = none := by
        intro resources
        induction resources with
        | nil => exact fun now _ hnow => hnow
        | cons first resources ih =>
          intro now hwrites hnow
          rw [List.foldl_cons]
          refine ih _ (fun r hr => hwrites r (List.mem_cons_of_mem _ hr)) fun r => ?_
          cases hlocks : now first with
          | none => exact hnow r
          | some lri =>
            simp only
            have hbefore : lockMap first = some lri := by
              rcases hnow first with hsame | ⟨_, _, _, hnone⟩
              · rw [← hsame, hlocks]
              · rw [hnone] at hlocks
                exact nomatch hlocks
            have hwrite := hwrites first List.mem_cons_self
            rw [hbefore, Option.getD_some] at hwrite
            obtain ⟨only, rfl, _⟩ := isWriteLock_iff.mp hwrite
            rcases removeEntry_cases first args hlocks with
              hsame | ⟨entry, hentry, howns, hgone⟩ | ⟨hlong, _⟩
            · rw [hsame]
              exact hnow r
            · rw [hgone]
              by_cases hr : r = first
              · subst hr
                rw [Function.update_self]
                exact Or.inr ⟨entry, by rw [hbefore, hentry], howns, rfl⟩
              · rw [Function.update_of_ne hr]
                exact hnow r
            · exact absurd hlong (Nat.lt_irrefl 1)
      rcases hgone args.resources lockMap hwrites (fun _ => Or.inl rfl) resource with
        hsame | hnone
      · exact Or.inl hsame
      · exact Or.inr (Or.inl hnone)
    next => exact Or.inl rfl
  | true =>
    simp only [if_true]
    unfold rUnlock
    split
    next => exact Or.inl rfl
    next first _ _ =>
      split
      next => exact Or.inl rfl
      next lri hlocks =>
        split
        next => exact Or.inl rfl
        next =>
          simp only
          by_cases hsame : resource = first
          · subst hsame
            rcases removeEntry_cases resource args hlocks with
              hno | ⟨entry, rfl, howns, hgone⟩ | ⟨hlong, hany, hless⟩
            · rw [hno]
              exact Or.inl rfl
            · rw [hgone, Function.update_self]
              exact Or.inr (Or.inl ⟨entry, hlocks, howns, rfl⟩)
            · rw [hless, Function.update_self]
              exact Or.inr (Or.inr ⟨lri, hlocks, hlong, hany, rfl⟩)
          · left
            rcases removeEntry_cases first args hlocks with hno | ⟨_, _, _, hgone⟩ | ⟨_, _, hless⟩
            · rw [hno]
            · rw [hgone, Function.update_of_ne hsame]
            · rw [hless, Function.update_of_ne hsame]

theorem Sound.release (hsound : lockMap.Sound) (isReadLock : Bool) (args : LockArgs) :
    (lockMap.release isReadLock args).2.Sound := by
  intro resource lri hlocks
  rcases release_cases lockMap isReadLock args resource with
    hsame | ⟨_, _, _, hnone⟩ | ⟨before, hbefore, hlong, hany, hless⟩
  · rw [hsame] at hlocks
    exact hsound resource lri hlocks
  · rw [hnone] at hlocks
    exact nomatch hlocks
  · obtain rfl := Option.some.inj (hless.symm.trans hlocks)
    rcases hsound resource before hbefore with ⟨_, rfl, _⟩ | ⟨_, hreaders⟩
    · exact absurd hlong (Nat.lt_irrefl 1)
    · refine Or.inr ⟨?_, fun entry hentry => hreaders entry (List.mem_of_mem_eraseP hentry)⟩
      obtain ⟨entry, hmem, howns⟩ := List.any_eq_true.mp hany
      rw [← List.length_pos_iff, List.length_eraseP_of_mem hmem howns]
      omega

theorem granted_le_release_succ (isReadLock : Bool) :
    lockMap.granted owner uid writer resource ≤
      (lockMap.release isReadLock args).2.granted owner uid writer resource + 1 := by
  unfold granted
  rcases release_cases lockMap isReadLock args resource with
    hsame | ⟨entry, hone, _, hnone⟩ | ⟨lri, hbefore, _, hany, hless⟩
  · rw [hsame]
    exact Nat.le_succ _
  · rw [hone, hnone, Option.getD_some, Option.getD_none, List.countP_singleton]
    split <;> omega
  · rw [hbefore, hless, Option.getD_some, Option.getD_some]
    obtain ⟨entry, hmem, howns⟩ := List.any_eq_true.mp hany
    obtain ⟨found, before, after, _, _, hsplit, herase⟩ := List.exists_of_eraseP hmem howns
    rw [herase, hsplit, List.countP_append, List.countP_append, List.countP_cons]
    split <;> omega

theorem granted_release_of_ne (isReadLock : Bool)
    (hne : ¬ (owner = args.owner ∧ uid = args.uid)) :
    (lockMap.release isReadLock args).2.granted owner uid writer resource =
      lockMap.granted owner uid writer resource := by
  have hother : ∀ entry, args.owns entry = true → isOf owner uid writer entry = false := by
    intro entry howns
    unfold LockArgs.owns at howns
    rw [Bool.and_eq_true, beq_iff_eq, beq_iff_eq] at howns
    by_contra hof
    rw [Bool.not_eq_false] at hof
    unfold isOf at hof
    rw [Bool.and_eq_true, Bool.and_eq_true, beq_iff_eq, beq_iff_eq] at hof
    exact hne ⟨hof.1.1.symm.trans howns.2, hof.1.2.symm.trans howns.1⟩
  unfold granted
  rcases release_cases lockMap isReadLock args resource with
    hsame | ⟨entry, hone, howns, hnone⟩ | ⟨lri, hbefore, _, hany, hless⟩
  · rw [hsame]
  · rw [hone, hnone, Option.getD_some, Option.getD_none, List.countP_singleton, hother entry howns]
    rfl
  · rw [hbefore, hless, Option.getD_some, Option.getD_some]
    obtain ⟨entry, hmem, howns⟩ := List.any_eq_true.mp hany
    obtain ⟨found, before, after, _, hfound, hsplit, herase⟩ := List.exists_of_eraseP hmem howns
    rw [herase, hsplit, List.countP_append, List.countP_append, List.countP_cons,
      hother found hfound]
    rfl

end Tables

end LockMap

end Fs3
