import Fs3.Hash.Reader

/-! # Chains of checking readers

Which reference values of a chain are compared with what is read depends on the order in which they
are given: the MD5 is that of the first call, and it is not compared when a later call limits the
size; the SHA256 is computed if the first call has one and compared with the one of the last call.
-/

namespace Fs3.Hash

open Foundation

def Call.md5 (call : Call) : Bytes := (decodeString call.md5Hex).getD []

def Call.contentSHA256 (call : Call) : Bytes := (decodeString call.sha256Hex).getD []

def Call.SatisfiedBy (sums : Sums) (call : Call) (content : Bytes) : Prop :=
  (call.md5 ≠ [] → sums.md5 content = call.md5) ∧
    (call.contentSHA256 ≠ [] → sums.sha256 content = call.contentSHA256)

def knownSize (calls : List Call) : Option Int := (calls.map Call.size).find? (0 ≤ ·)

def cutAt (size : Option Int) (content : Bytes) : Bytes :=
  match size with
  | some n => content.take n.toNat
  | none => content

/-- A source that delivers content, and fails with no error. -/
structure Source.Serves (source : Source) (content : source.State → Bytes) : Prop where
  bytes : ∀ s size, content s = (source.read s size).1.bytes ++ content (source.read s size).2
  length : ∀ s size, (source.read s size).1.bytes.length ≤ size
  err : ∀ s size, (source.read s size).1.err = none ∨
    (source.read s size).1.err = some .eof ∧ content (source.read s size).2 = []

/-- Where a reader reports the end of the content, what it has delivered has all the
reference values that were given. -/
def Verifies (isTagger : Bool) (first : Call) (rest : List Call) : Prop :=
  ∀ (sums : Sums) (source : Source) (s : source.State) (r : Reader source.State),
    source.isTagger = isTagger → newReaders source s first rest = .ok r →
    ∀ (sizes : List Nat) (size : Nat),
      (Reading.resultAfter (Reader.read sums source) r sizes size).err = some .eof →
      ∀ call ∈ first :: rest,
        call.SatisfiedBy sums (Reading.deliveredAfter (Reader.read sums source) r sizes size)

/-- Content that has all the reference values is delivered without an error. -/
def Delivers (isTagger : Bool) (first : Call) (rest : List Call) : Prop :=
  ∀ (sums : Sums) (source : Source) (content : source.State → Bytes) (s : source.State)
    (r : Reader source.State), source.isTagger = isTagger → source.Serves content →
    newReaders source s first rest = .ok r →
    (∀ call ∈ first :: rest,
      call.SatisfiedBy sums (cutAt (knownSize (first :: rest)) (content s))) →
    ∀ (sizes : List Nat) (size : Nat),
      let result := Reading.resultAfter (Reader.read sums source) r sizes size
      let delivered := Reading.deliveredAfter (Reader.read sums source) r sizes size
      delivered <+: cutAt (knownSize (first :: rest)) (content s) ∧
        (result.err = none ∨
          result.err = some .eof ∧ delivered = cutAt (knownSize (first :: rest)) (content s))

/-- The chains that compare all that they are given. -/
structure ChecksAll (isTagger : Bool) (first : Call) (rest : List Call) : Prop where
  md5 : (∀ call ∈ first :: rest, call.md5 = []) ∨
    isTagger = false ∧ first.md5 ≠ [] ∧ (∀ call ∈ rest, call.md5 = [] ∨ call.md5 = first.md5) ∧
      (0 ≤ first.size ∨ ∀ call ∈ rest, call.size < 0)
  sha256 : (∀ call ∈ first :: rest, call.contentSHA256 = []) ∨
    first.contentSHA256 ≠ [] ∧ (rest.getLastD first).contentSHA256 ≠ [] ∧
      ∀ call ∈ rest, call.contentSHA256 = [] ∨ call.contentSHA256 = first.contentSHA256

/-- `NewReader` refuses some call of a chain. -/
def Refused (isTagger : Bool) (first : Call) (rest : List Call) : Prop :=
  ∀ (source : Source) (s : source.State), source.isTagger = isTagger →
    ∃ err, newReaders source s first rest = .error err

/-! ## What a chain builds -/

section Build

def firstStack (source : Source) (s : source.State) (first : Call) : Stack source.State :=
  if 0 ≤ first.size then
    if source.isTagger = true then .wrap (.limit (.source s) first.size)
    else .etagReader (.limit (.source s) first.size) first.md5 []
  else if source.isTagger = true then .source s
  else .etagReader (.source s) first.md5 []

def chainStack (source : Source) (s : source.State) (first : Call) (rest : List Call) :
    Stack source.State :=
  if first.size < 0 then
    match knownSize rest with
    | some n => .wrap (.limit (firstStack source s first) n)
    | none => firstStack source s first
  else firstStack source s first

theorem newReader_eq {source : Source} {s : source.State} {call : Call} {r : Reader source.State}
    (hnew : newReader source (.source s) call = .ok r) :
    r = { src := firstStack source s call, size := call.size, actualSize := call.actualSize
          checksum := call.md5, contentSHA256 := call.contentSHA256
          sha256 := if call.contentSHA256 ≠ [] then some [] else none } := by
  rw [newReader] at hnew
  split at hnew
  next => cases hnew
  next MD5 hMD5 =>
    split at hnew
    next => cases hnew
    next SHA256 hSHA256 =>
      have hmd5 : call.md5 = MD5 := by rw [Call.md5, hMD5]; rfl
      have hsha256 : call.contentSHA256 = SHA256 := by rw [Call.contentSHA256, hSHA256]; rfl
      cases hnew
      rw [firstStack, hmd5, hsha256]
      cases hsource : source.isTagger with
      | true => simp [Stack.isTagger, hsource]
      | false => simp [Stack.isTagger, hsource, Stack.newEtagReader]

/-- A further call is accepted unless its values contradict those of the call before. -/
theorem mergeReader_ok_iff {σ : Type} {r r' : Reader σ} {call : Call} :
    mergeReader r call = .ok r' ↔ ∃ MD5 SHA256, decodeString call.md5Hex = some MD5 ∧
      decodeString call.sha256Hex = some SHA256 ∧ ¬ 0 < r.bytesRead ∧
      ¬ (r.checksum.length ≠ 0 ∧ MD5.length ≠ 0 ∧ r.checksum ≠ MD5) ∧
      ¬ (r.contentSHA256.length ≠ 0 ∧ SHA256.length ≠ 0 ∧ r.contentSHA256 ≠ SHA256) ∧
      ¬ (0 ≤ r.size ∧ 0 ≤ call.size ∧ r.size ≠ call.size) ∧ r' = r.merge call MD5 SHA256 := by
  constructor
  · intro hmerge
    rw [mergeReader] at hmerge
    split at hmerge
    next => cases hmerge
    next MD5 hMD5 =>
      split at hmerge
      next => cases hmerge
      next SHA256 hSHA256 =>
        refine ⟨MD5, SHA256, hMD5, hSHA256, ?_⟩
        split at hmerge
        next => cases hmerge
        next hread =>
          split at hmerge
          next => cases hmerge
          next hmd5 =>
            split at hmerge
            next => cases hmerge
            next hsha256 =>
              split at hmerge
              next => cases hmerge
              next hsize => exact ⟨hread, hmd5, hsha256, hsize, (Except.ok.inj hmerge).symm⟩
  · rintro ⟨MD5, SHA256, hMD5, hSHA256, hread, hmd5, hsha256, hsize, rfl⟩
    rw [mergeReader, hMD5]
    simp only [hSHA256]
    rw [if_neg hread, if_neg hmd5, if_neg hsha256, if_neg hsize]

section Merge

variable {σ : Type} (r : Reader σ) (call : Call) (MD5 SHA256 : Bytes)

theorem merge_fields :
    (r.merge call MD5 SHA256).bytesRead = r.bytesRead ∧
      (r.merge call MD5 SHA256).sha256 = r.sha256 ∧
      (r.merge call MD5 SHA256).checksum = MD5 ∧
      (r.merge call MD5 SHA256).contentSHA256 = SHA256 := by
  rw [Reader.merge]
  split <;> split <;> exact ⟨rfl, rfl, rfl, rfl⟩

theorem merge_size :
    (r.merge call MD5 SHA256).size =
      if r.size < 0 ∧ 0 ≤ call.size then call.size else r.size := by
  rw [Reader.merge]
  split <;> split <;> rfl

theorem merge_src :
    (r.merge call MD5 SHA256).src =
      if r.size < 0 ∧ 0 ≤ call.size then .wrap (.limit r.src call.size) else r.src := by
  rw [Reader.merge]
  split <;> split <;> rfl

end Merge

theorem knownSize_cons (call : Call) (calls : List Call) :
    knownSize (call :: calls) = if 0 ≤ call.size then some call.size else knownSize calls := by
  rw [knownSize, List.map_cons, List.find?_cons]
  split
  next h => rw [if_pos (of_decide_eq_true h)]
  next h => rw [if_neg (of_decide_eq_false h), knownSize]

/-- The calls after the first one change the reference values, and the first of them that
has a size may limit what is read. -/
theorem foldlM_mergeReader {σ : Type} {rest : List Call} {r r' : Reader σ}
    (hmerge : rest.foldlM mergeReader r = .ok r') {last : Call}
    (hlast : r.contentSHA256 = last.contentSHA256) :
    r'.sha256 = r.sha256 ∧ r'.contentSHA256 = (rest.getLastD last).contentSHA256 ∧
      r'.src = if r.size < 0 then
          match knownSize rest with
          | some n => .wrap (.limit r.src n)
          | none => r.src
        else r.src := by
  induction rest generalizing r last with
  | nil =>
    cases hmerge
    refine ⟨rfl, hlast, ?_⟩
    split <;> rfl
  | cons call rest ih =>
    rw [List.foldlM_cons] at hmerge
    cases hcall : mergeReader r call with
    | error err =>
      rw [hcall] at hmerge
      cases hmerge
    | ok middle =>
      rw [hcall] at hmerge
      obtain ⟨MD5, SHA256, -, hSHA256, -, -, -, -, rfl⟩ := mergeReader_ok_iff.mp hcall
      obtain ⟨-, hsha256, -, hcontent⟩ := merge_fields r call MD5 SHA256
      have hlast' : (r.merge call MD5 SHA256).contentSHA256 = call.contentSHA256 := by
        rw [hcontent, Call.contentSHA256, hSHA256]
        rfl
      obtain ⟨hsum, hreference, hsrc⟩ := ih hmerge hlast'
      refine ⟨hsum.trans hsha256, by rw [List.getLastD_cons, hreference], ?_⟩
      rw [hsrc, merge_size, merge_src, knownSize_cons]
      by_cases hneg : r.size < 0
      · by_cases hsize : 0 ≤ call.size
        · have hknown : ¬ call.size < 0 := Int.not_lt.mpr hsize
          simp only [hneg, hsize, hknown, and_self, if_true, if_false]
        · simp only [hneg, hsize, and_false, if_true, if_false]
      · simp only [hneg, false_and, if_false]

theorem newReaders_eq {source : Source} {s : source.State} {first : Call} {rest : List Call}
    {r : Reader source.State} (hnew : newReaders source s first rest = .ok r) :
    r.src = chainStack source s first rest ∧
      r.contentSHA256 = (rest.getLastD first).contentSHA256 ∧
      r.sha256 = if first.contentSHA256 ≠ [] then some [] else none := by
  rw [newReaders] at hnew
  cases hfirst : newReader source (.source s) first with
  | error err =>
    rw [hfirst] at hnew
    cases hnew
  | ok r₀ =>
    rw [hfirst] at hnew
    obtain rfl := newReader_eq hfirst
    have hmerge : rest.foldlM mergeReader _ = .ok r := hnew
    obtain ⟨hsum, hreference, hsrc⟩ := @foldlM_mergeReader _ _ _ _ hmerge first rfl
    exact ⟨hsrc, hreference, hsum⟩

def SameValues {σ τ : Type} (r : Reader σ) (r' : Reader τ) : Prop :=
  r.bytesRead = r'.bytesRead ∧ r.size = r'.size ∧ r.checksum = r'.checksum ∧
    r.contentSHA256 = r'.contentSHA256

theorem foldlM_sameValues {σ τ : Type} {rest : List Call} {r m : Reader σ} {r' : Reader τ}
    (hsame : SameValues r r') (hmerge : rest.foldlM mergeReader r = .ok m) :
    ∃ m', rest.foldlM mergeReader r' = .ok m' := by
  induction rest generalizing r r' with
  | nil => exact ⟨r', rfl⟩
  | cons call rest ih =>
    rw [List.foldlM_cons] at hmerge ⊢
    cases hcall : mergeReader r call with
    | error err =>
      rw [hcall] at hmerge
      cases hmerge
    | ok middle =>
      rw [hcall] at hmerge
      obtain ⟨MD5, SHA256, hMD5, hSHA256, hread, hmd5, hsha256, hsize, rfl⟩ :=
        mergeReader_ok_iff.mp hcall
      obtain ⟨hsameRead, hsameSize, hsameMd5, hsameSha256⟩ := hsame
      have hcall' : mergeReader r' call = .ok (r'.merge call MD5 SHA256) := by
        refine mergeReader_ok_iff.mpr ⟨MD5, SHA256, hMD5, hSHA256, ?_, ?_, ?_, ?_, rfl⟩
        · rw [← hsameRead]
          exact hread
        · rw [← hsameMd5]
          exact hmd5
        · rw [← hsameSha256]
          exact hsha256
        · rw [← hsameSize]
          exact hsize
      rw [hcall']
      refine ih ⟨?_, ?_, ?_, ?_⟩ hmerge
      · rw [(merge_fields r call MD5 SHA256).1, (merge_fields r' call MD5 SHA256).1, hsameRead]
      · rw [merge_size, merge_size, hsameSize]
      · rw [(merge_fields r call MD5 SHA256).2.2.1, (merge_fields r' call MD5 SHA256).2.2.1]
      · rw [(merge_fields r call MD5 SHA256).2.2.2, (merge_fields r' call MD5 SHA256).2.2.2]

theorem exists_newReaders {source source' : Source} {s : source.State} {first : Call}
    {rest : List Call} {r : Reader source.State}
    (hnew : newReaders source s first rest = .ok r) (s' : source'.State) :
    ∃ r', newReaders source' s' first rest = .ok r' := by
  rw [newReaders] at hnew
  cases hfirst : newReader source (.source s) first with
  | error err =>
    rw [hfirst] at hnew
    cases hnew
  | ok r₀ =>
    rw [hfirst] at hnew
    cases hfirst' : newReader source' (.source s') first with
    | error err =>
      rw [newReader] at hfirst hfirst'
      split at hfirst
      next => cases hfirst
      next MD5 hMD5 =>
        split at hfirst
        next => cases hfirst
        next SHA256 hSHA256 =>
          simp only [hMD5, hSHA256] at hfirst'
          cases hfirst'
    | ok r₁ =>
      obtain rfl := newReader_eq hfirst
      obtain rfl := newReader_eq hfirst'
      rw [newReaders, hfirst']
      have hmerge : rest.foldlM mergeReader _ = .ok r := hnew
      refine foldlM_sameValues ?_ hmerge
      exact ⟨rfl, rfl, rfl, rfl⟩

end Build

/-! ## What a stack delivers -/

section StackReads

variable {sums : Sums} {source : Source} {content : source.State → Bytes}

def Stack.left (content : source.State → Bytes) : Stack source.State → Bytes
  | .source s => content s
  | limit r n => (r.left content).take n.toNat
  | etagReader r _ _ => r.left content
  | wrap r => r.left content

def Stack.Intact (sums : Sums) (content : source.State → Bytes) : Stack source.State → Prop
  | .source _ => True
  | limit r _ => r.Intact sums content
  | etagReader r checksum hashed =>
    r.Intact sums content ∧
      (checksum ≠ [] → sums.md5 (hashed ++ r.left content) = checksum)
  | wrap r => r.Intact sums content

/-- What a call of `Read` does to a stack that delivers content. -/
structure Stack.ReadsOn (sums : Sums) (content : source.State → Bytes) (r : Stack source.State)
    (size : Nat) : Prop where
  bytes : r.left content =
    (r.read sums source size).1.bytes ++ (r.read sums source size).2.left content
  length : (r.read sums source size).1.bytes.length ≤ size
  err : (r.read sums source size).1.err = none ∨
    (r.read sums source size).1.err = some .eof ∧ (r.read sums source size).2.left content = []
  intact : (r.read sums source size).2.Intact sums content

theorem Stack.readsOn (hserves : source.Serves content) (r : Stack source.State) (size : Nat)
    (hintact : r.Intact sums content) : r.ReadsOn sums content size := by
  induction r generalizing size with
  | source s => exact ⟨hserves.bytes s size, hserves.length s size, hserves.err s size, trivial⟩
  | limit r n ih =>
    by_cases hn : n ≤ 0
    · have hnone : (limit r n).left content = [] := by
        rw [Stack.left, Int.toNat_of_nonpos hn, List.take_zero]
      have hread : (limit r n).read sums source size =
          ({ bytes := [], err := some .eof }, limit r n) := by
        rw [Stack.read, if_pos hn]
      refine ⟨?_, ?_, Or.inr ⟨?_, ?_⟩, ?_⟩
      · rw [hread, hnone]
        rfl
      · rw [hread]
        exact Nat.zero_le _
      · rw [hread]
      · rw [hread]
        exact hnone
      · rw [hread]
        exact hintact
    · obtain ⟨hbytes, hlength, herr, hintact'⟩ :=
        ih (if n < size then n.toNat else size) hintact
      have hread : (limit r n).read sums source size =
          ((r.read sums source (if n < size then n.toNat else size)).1,
            limit (r.read sums source (if n < size then n.toNat else size)).2
              (n - (r.read sums source
                (if n < size then n.toNat else size)).1.bytes.length)) := by
        rw [Stack.read, if_neg hn]
      generalize r.read sums source (if n < size then n.toNat else size) = next at *
      have hle : next.1.bytes.length ≤ n.toNat ∧ next.1.bytes.length ≤ size := by
        split at hlength <;> omega
      refine ⟨?_, ?_, ?_, ?_⟩
      · rw [hread, Stack.left, Stack.left, hbytes, List.take_append,
          List.take_of_length_le hle.1]
        congr 2
        omega
      · rw [hread]
        exact hle.2
      · rw [hread]
        rcases herr with hnone | ⟨heof, hnil⟩
        · exact Or.inl hnone
        · refine Or.inr ⟨heof, ?_⟩
          rw [Stack.left, hnil, List.take_nil]
      · rw [hread]
        exact hintact'
  | etagReader r checksum hashed ih =>
    obtain ⟨hinner, hchecksum⟩ := hintact
    obtain ⟨hbytes, hlength, herr, hintact'⟩ := ih size hinner
    have hread : (etagReader r checksum hashed).read sums source size =
        ((r.read sums source size).1, etagReader (r.read sums source size).2 checksum
          (hashed ++ (r.read sums source size).1.bytes)) := by
      rw [Stack.read]
      refine if_neg ?_
      rintro ⟨heof, hne, hdiffer⟩
      rcases herr with hnone | ⟨-, hnil⟩
      · rw [hnone] at heof
        cases heof
      · rw [hbytes, hnil, List.append_nil] at hchecksum
        exact hdiffer (hchecksum hne)
    refine ⟨?_, ?_, ?_, ?_⟩
    · rw [hread]
      exact hbytes
    · rw [hread]
      exact hlength
    · rw [hread]
      exact herr
    · rw [hread]
      refine ⟨hintact', fun hne => ?_⟩
      rw [List.append_assoc, ← hbytes]
      exact hchecksum hne
  | wrap r ih =>
    obtain ⟨hbytes, hlength, herr, hintact'⟩ := ih size hintact
    have hread : (wrap r).read sums source size =
        ((r.read sums source size).1, wrap (r.read sums source size).2) := by
      rw [Stack.read]
    refine ⟨?_, ?_, ?_, ?_⟩
    · rw [hread]
      exact hbytes
    · rw [hread]
      exact hlength
    · rw [hread]
      exact herr
    · rw [hread]
      exact hintact'

end StackReads

section ReaderReads

variable {sums : Sums} {source : Source} (r : Reader source.State) (size : Nat)

theorem Reader.read_snd :
    (r.read sums source size).2 =
      { r with
        src := (r.src.read sums source size).2
        bytesRead := r.bytesRead + (r.src.read sums source size).1.bytes.length
        sha256 := r.sha256.map (· ++ (r.src.read sums source size).1.bytes) } := by
  rw [Reader.read]
  simp only
  split
  next =>
    split
    next => split <;> rfl
    next => rfl
  next => rfl
  next => rfl

theorem Reader.read_bytes :
    (r.read sums source size).1.bytes = (r.src.read sums source size).1.bytes := by
  rw [Reader.read]
  simp only
  split
  next =>
    split
    next => split <;> rfl
    next => rfl
  next => rfl
  next => rfl

variable {r size}

theorem Reader.read_eof_iff :
    (r.read sums source size).1.err = some .eof ↔
      (r.src.read sums source size).1.err = some .eof ∧
        ∀ written, r.sha256 = some written →
          sums.sha256 (written ++ (r.src.read sums source size).1.bytes) = r.contentSHA256 := by
  rw [Reader.read]
  simp only
  generalize r.src.read sums source size = next
  cases herr : next.1.err with
  | none => simp [herr]
  | some err =>
    cases err with
    | eof =>
      cases hsha256 : r.sha256 with
      | none => simp [herr]
      | some written =>
        simp only [Option.map_some, Option.some.injEq, true_and, forall_eq']
        split
        next hdiffer => simp [Ne.symm hdiffer]
        next hsame =>
          rw [ne_eq, not_not] at hsame
          simp [herr, hsame]
    | verifyError | badDigest | sha256Mismatch | errSizeMismatch | alreadyRead | failed =>
      simp [herr]

theorem Reader.read_none (hnone : (r.src.read sums source size).1.err = none) :
    (r.read sums source size).1.err = none := by
  rw [Reader.read]
  simp only
  generalize r.src.read sums source size = next at *
  simp [hnone]

end ReaderReads

/-! ## The chains that compare all that they are given -/

section Enough

variable {sums : Sums} {source : Source} {s : source.State} {first : Call} {rest : List Call}
  {r : Reader source.State}

theorem knownSize_eq_none {calls : List Call} :
    knownSize calls = none ↔ ∀ call ∈ calls, call.size < 0 := by
  rw [knownSize, List.find?_eq_none]
  simp

def ComparesMD5 (md5 delivered : Bytes) (r : Reader source.State) : Prop :=
  ∃ inner, r.src = .etagReader inner md5 delivered

theorem comparesMD5_read (sums : Sums) {md5 delivered : Bytes}
    (hr : ComparesMD5 md5 delivered r) (size : Nat) :
    ComparesMD5 md5 (delivered ++ (r.read sums source size).1.bytes) (r.read sums source size).2 ∧
      (md5 ≠ [] → (r.read sums source size).1.err = some .eof →
        sums.md5 (delivered ++ (r.read sums source size).1.bytes) = md5) := by
  obtain ⟨inner, hsrc⟩ := hr
  have hinner : ∀ {result : Foundation.ReadResult UInt8 Err × Stack source.State},
      inner.read sums source size = result →
      (r.src.read sums source size).1.bytes = result.1.bytes ∧
        (r.src.read sums source size).2 =
          .etagReader result.2 md5 (delivered ++ result.1.bytes) ∧
        (md5 ≠ [] → (r.src.read sums source size).1.err = some .eof →
          sums.md5 (delivered ++ result.1.bytes) = md5) := by
    intro result hresult
    rw [hsrc, Stack.read, hresult]
    simp only
    split
    next => exact ⟨rfl, rfl, fun _ heof => by cases heof⟩
    next hnot =>
      refine ⟨rfl, rfl, fun hne heof => ?_⟩
      by_contra hdiffer
      exact hnot ⟨heof, hne, hdiffer⟩
  obtain ⟨hbytes, hstate, heof⟩ := hinner rfl
  rw [Reader.read_bytes]
  refine ⟨⟨(inner.read sums source size).2, ?_⟩, fun hne herr => ?_⟩
  · rw [Reader.read_snd, hstate, hbytes]
  · rw [hbytes]
    exact heof hne (Reader.read_eof_iff.mp herr).1

def WritesSHA256 (reference delivered : Bytes) (r : Reader source.State) : Prop :=
  r.contentSHA256 = reference ∧ ∀ written, r.sha256 = some written → written = delivered

theorem writesSHA256_read {reference delivered : Bytes} (hr : WritesSHA256 reference delivered r)
    (size : Nat) :
    WritesSHA256 reference (delivered ++ (r.read sums source size).1.bytes)
      (r.read sums source size).2 := by
  obtain ⟨hreference, hwritten⟩ := hr
  rw [Reader.read_snd, Reader.read_bytes]
  refine ⟨hreference, fun written hsome => ?_⟩
  obtain ⟨before, hbefore, rfl⟩ := Option.map_eq_some_iff.mp hsome
  rw [hwritten before hbefore]

theorem sha256_isSome_read (size : Nat) :
    (r.read sums source size).2.sha256.isSome = r.sha256.isSome := by
  rw [Reader.read_snd, Option.isSome_map]

theorem chainStack_of_md5 (hsource : source.isTagger = false)
    (hsize : 0 ≤ first.size ∨ ∀ call ∈ rest, call.size < 0) :
    ∃ inner : Stack source.State,
      chainStack source s first rest = .etagReader inner first.md5 [] ∧
        inner = if 0 ≤ first.size then .limit (.source s) first.size else .source s := by
  have hchain : chainStack source s first rest = firstStack source s first := by
    rw [chainStack]
    split
    next hneg =>
      rcases hsize with hnonneg | hnone
      · exact absurd hneg (Int.not_lt.mpr hnonneg)
      · rw [knownSize_eq_none.mpr hnone]
    next => rfl
  rw [hchain, firstStack]
  simp only [hsource, Bool.false_eq_true, if_false]
  split
  next => exact ⟨_, rfl, rfl⟩
  next => exact ⟨_, rfl, rfl⟩

/-- A chain that compares all that it is given verifies what it delivers. -/
theorem verifies_of_checksAll {isTagger : Bool} (hchecks : ChecksAll isTagger first rest) :
    Verifies isTagger first rest := by
  intro sums source s r hsource hnew sizes size heof call hcall
  obtain ⟨hsrc, hreference, hsha256⟩ := newReaders_eq hnew
  have hdelivered : Reading.deliveredAfter (Reader.read sums source) r sizes size =
      (Reading.run (Reader.read sums source) r sizes).1 ++
        (Reading.resultAfter (Reader.read sums source) r sizes size).bytes := rfl
  refine ⟨fun hmd5 => ?_, fun hcontent => ?_⟩
  · rcases hchecks.md5 with hnone | ⟨htagger, hne, hall, hsize⟩
    · exact absurd (hnone call hcall) hmd5
    · have hsame : call.md5 = first.md5 := by
        rcases List.mem_cons.mp hcall with rfl | hcall
        · rfl
        · exact (hall call hcall).resolve_left hmd5
      obtain ⟨inner, hstack, -⟩ := @chainStack_of_md5 source s _ _ (hsource.trans htagger) hsize
      have hstart : ComparesMD5 first.md5 [] r := ⟨inner, hsrc.trans hstack⟩
      have hkeep : ∀ delivered (r : Reader source.State) size,
          ComparesMD5 first.md5 delivered r →
          ComparesMD5 first.md5 (delivered ++ (r.read sums source size).1.bytes)
            (r.read sums source size).2 := fun _ _ size hr => (comparesMD5_read sums hr size).1
      obtain ⟨r', hr', hresult⟩ := Reading.resultAfter_of_invariant hkeep hstart sizes size
      rw [hresult] at heof
      rw [hsame, hdelivered, hresult]
      exact (comparesMD5_read sums hr' size).2 hne heof
  · rcases hchecks.sha256 with hnone | ⟨hne, hlast, hall⟩
    · exact absurd (hnone call hcall) hcontent
    · have hsame : ∀ call ∈ first :: rest, call.contentSHA256 ≠ [] →
          call.contentSHA256 = first.contentSHA256 := by
        intro call hcall hcontent
        rcases List.mem_cons.mp hcall with rfl | hcall
        · rfl
        · exact (hall call hcall).resolve_left hcontent
      have hlastSame := hsame (rest.getLastD first) List.getLastD_mem_cons hlast
      rw [if_pos hne] at hsha256
      have hstart : WritesSHA256 first.contentSHA256 [] r ∧ r.sha256.isSome = true := by
        refine ⟨⟨hreference.trans hlastSame, fun written hsome => ?_⟩, by rw [hsha256]; rfl⟩
        rw [hsha256] at hsome
        exact (Option.some.inj hsome).symm
      have hkeep : ∀ delivered (r : Reader source.State) size,
          WritesSHA256 first.contentSHA256 delivered r ∧ r.sha256.isSome = true →
          WritesSHA256 first.contentSHA256 (delivered ++ (r.read sums source size).1.bytes)
            (r.read sums source size).2 ∧ (r.read sums source size).2.sha256.isSome = true :=
        fun _ _ size hr => ⟨writesSHA256_read hr.1 size, (sha256_isSome_read size).trans hr.2⟩
      obtain ⟨r', ⟨hr', hsome⟩, hresult⟩ :=
        Reading.resultAfter_of_invariant hkeep hstart sizes size
      rw [hresult] at heof
      rw [hsame call hcall hcontent, hdelivered, hresult, Reader.read_bytes]
      obtain ⟨written, hwritten⟩ := Option.isSome_iff_exists.mp hsome
      rw [← hr'.2 written hwritten, ← hr'.1]
      exact (Reader.read_eof_iff.mp heof).2 written hwritten

theorem left_chainStack (content : source.State → Bytes) :
    (chainStack source s first rest).left content =
      cutAt (knownSize (first :: rest)) (content s) := by
  rw [chainStack, firstStack, knownSize_cons]
  by_cases hsize : 0 ≤ first.size
  · have hknown : ¬ first.size < 0 := Int.not_lt.mpr hsize
    simp only [hsize, hknown, if_true, if_false, cutAt]
    split
    next => rfl
    next => rfl
  · have hneg : first.size < 0 := Int.not_le.mp hsize
    simp only [hsize, hneg, if_true, if_false, cutAt]
    split
    next =>
      split
      next => rfl
      next => rfl
    next =>
      split
      next => rfl
      next => rfl

theorem intact_chainStack {content : source.State → Bytes}
    (hmd5 : source.isTagger = false → first.md5 ≠ [] →
      sums.md5 (cutAt (knownSize [first]) (content s)) = first.md5) :
    (chainStack source s first rest).Intact sums content := by
  have hfirst : (firstStack source s first).Intact sums content := by
    rw [knownSize_cons] at hmd5
    rw [firstStack]
    split
    next hnonneg =>
      split
      next => trivial
      next hsource =>
        rw [if_pos hnonneg] at hmd5
        exact ⟨trivial, hmd5 (Bool.not_eq_true _ ▸ hsource)⟩
    next hneg =>
      split
      next => trivial
      next hsource =>
        rw [if_neg hneg] at hmd5
        exact ⟨trivial, hmd5 (Bool.not_eq_true _ ▸ hsource)⟩
  rw [chainStack]
  split
  next =>
    split
    next => exact hfirst
    next => exact hfirst
  next => exact hfirst

/-- A chain that compares all that it is given delivers content that has it. -/
theorem delivers_of_checksAll {isTagger : Bool} (hchecks : ChecksAll isTagger first rest) :
    Delivers isTagger first rest := by
  intro sums source content s r hsource hserves hnew hsatisfied sizes size result delivered
  obtain ⟨hsrc, hreference, hsha256⟩ := newReaders_eq hnew
  generalize htotal : cutAt (knownSize (first :: rest)) (content s) = total at *
  -- Of the total, what has been delivered is followed by what is left.
  let inv : Bytes → Reader source.State → Prop := fun delivered r =>
    r.src.Intact sums content ∧ delivered ++ r.src.left content = total ∧
      ∀ written, r.sha256 = some written →
        written = delivered ∧ sums.sha256 total = r.contentSHA256
  have hstart : inv [] r := by
    refine ⟨?_, ?_, fun written hwritten => ?_⟩
    · rw [hsrc]
      refine intact_chainStack fun _ hne => ?_
      have hcut : knownSize [first] = knownSize (first :: rest) := by
        rcases hchecks.md5 with hnone | ⟨-, -, -, hsize⟩
        · exact absurd (hnone first List.mem_cons_self) hne
        · rw [knownSize_cons, knownSize_cons]
          rcases hsize with hnonneg | hneg
          · rw [if_pos hnonneg, if_pos hnonneg]
          · rw [knownSize_eq_none.mpr hneg]
            rfl
      rw [hcut, htotal]
      exact (hsatisfied first List.mem_cons_self).1 hne
    · rw [hsrc, left_chainStack, htotal, List.nil_append]
    · rw [hsha256] at hwritten
      split at hwritten
      next hne =>
        refine ⟨(Option.some.inj hwritten).symm, ?_⟩
        rcases hchecks.sha256 with hnone | ⟨-, hlast, -⟩
        · exact absurd (hnone first List.mem_cons_self) hne
        · rw [hreference]
          exact (hsatisfied _ List.getLastD_mem_cons).2 hlast
      next => cases hwritten
  have hstep : ∀ delivered r size, inv delivered r →
      inv (delivered ++ (r.read sums source size).1.bytes) (r.read sums source size).2 := by
    rintro delivered r size ⟨hintact, hleft, hsum⟩
    have hreads := r.src.readsOn hserves size hintact
    refine ⟨?_, ?_, fun written hwritten => ?_⟩
    · rw [Reader.read_snd]
      exact hreads.intact
    · rw [Reader.read_snd, Reader.read_bytes, List.append_assoc, ← hreads.bytes]
      exact hleft
    · rw [Reader.read_snd] at hwritten ⊢
      obtain ⟨before, hbefore, rfl⟩ := Option.map_eq_some_iff.mp hwritten
      rw [Reader.read_bytes, (hsum before hbefore).1]
      exact ⟨rfl, (hsum before hbefore).2⟩
  obtain ⟨r', hr', hresult⟩ := Reading.resultAfter_of_invariant hstep hstart sizes size
  obtain ⟨-, hleft, -⟩ := hstep _ _ size hr'
  obtain ⟨hintact, hbefore, hsum⟩ := hr'
  have hreads := r'.src.readsOn hserves size hintact
  have hdelivered : delivered = (Reading.run (Reader.read sums source) r sizes).1 ++
      (r'.read sums source size).1.bytes := by
    rw [← hresult]
    rfl
  rw [hdelivered]
  refine ⟨⟨_, hleft⟩, ?_⟩
  change (Reading.resultAfter (Reader.read sums source) r sizes size).err = none ∨ _
  rw [show result = (r'.read sums source size).1 from hresult, hresult]
  rcases hreads.err with hnone | ⟨heof, hnil⟩
  · exact Or.inl (Reader.read_none hnone)
  · refine Or.inr ⟨Reader.read_eof_iff.mpr ⟨heof, fun written hwritten => ?_⟩, ?_⟩
    · obtain ⟨rfl, hsha256⟩ := hsum written hwritten
      rw [← hsha256, ← hbefore, hreads.bytes, hnil, List.append_nil]
    · rw [Reader.read_snd] at hleft
      rw [← hleft, hnil, List.append_nil]

end Enough

/-! ## The others -/

section Needed

variable {first : Call} {rest : List Call} {isTagger : Bool}

def emptySource (isTagger : Bool) : Source where
  State := Unit
  read _ _ := ({ bytes := [], err := some .eof }, ())
  isTagger := isTagger

def endlessSource : Source where
  State := Unit
  read _ size := ({ bytes := List.replicate size 0 }, ())
  isTagger := false

def constantSums (md5 sha256 : Bytes) : Sums := ⟨fun _ => md5, fun _ => sha256⟩

theorem read_emptySource {sums : Sums} {r : Stack (emptySource isTagger).State} (size : Nat)
    (hintact : r.Intact sums fun _ => []) :
    (r.read sums (emptySource isTagger) size).1 = { bytes := [], err := some .eof } := by
  induction r generalizing size with
  | source s => rfl
  | limit r n ih =>
    rw [Stack.read]
    split
    next => rfl
    next => exact ih _ hintact
  | etagReader r checksum hashed ih =>
    have hleft : ∀ r : Stack (emptySource isTagger).State, r.left (fun _ => []) = [] := by
      intro r
      induction r with
      | source s => rfl
      | limit r n ih => rw [Stack.left, ih, List.take_nil]
      | etagReader r checksum hashed ih => exact ih
      | wrap r ih => exact ih
    obtain ⟨hinner, hchecksum⟩ := hintact
    rw [hleft] at hchecksum
    rw [Stack.read]
    simp only [ih size hinner]
    rw [if_neg fun hdiffer => hdiffer.2.2 (hchecksum hdiffer.2.1)]
  | wrap r ih => exact ih size hintact

theorem compared_of_verifies (hverifies : Verifies isTagger first rest)
    {r : Reader (emptySource isTagger).State}
    (hnew : newReaders (emptySource isTagger) () first rest = .ok r)
    (md5 sha256 : Bytes) (hmd5 : isTagger = false → first.md5 ≠ [] → md5 = first.md5)
    (hsha256 : first.contentSHA256 ≠ [] → sha256 = (rest.getLastD first).contentSHA256) :
    ∀ call ∈ first :: rest, (call.md5 ≠ [] → md5 = call.md5) ∧
      (call.contentSHA256 ≠ [] → sha256 = call.contentSHA256) := by
  refine fun call hcall => hverifies (constantSums md5 sha256) (emptySource isTagger) () r rfl hnew
    [] 0 ?_ call hcall
  obtain ⟨hsrc, hreference, hsum⟩ := newReaders_eq hnew
  have hintact : r.src.Intact (constantSums md5 sha256) fun _ => [] := by
    rw [hsrc]
    exact intact_chainStack hmd5
  have hread : (r.read (constantSums md5 sha256) (emptySource isTagger) 0).1.err = some .eof := by
    refine Reader.read_eof_iff.mpr ⟨by rw [read_emptySource 0 hintact], fun written hwritten => ?_⟩
    rw [hsum] at hwritten
    split at hwritten
    next hne =>
      rw [hreference]
      exact hsha256 hne
    next => cases hwritten
  exact hread

/-- A chain that verifies what it delivers gives no size after the first call, if that one
gives an MD5. -/
theorem size_of_verifies (hverifies : Verifies false first rest)
    {r : Reader endlessSource.State} (hnew : newReaders endlessSource () first rest = .ok r)
    (hne : first.md5 ≠ []) : 0 ≤ first.size ∨ ∀ call ∈ rest, call.size < 0 := by
  by_contra hnot
  rw [not_or, ← knownSize_eq_none, Int.not_le] at hnot
  obtain ⟨hneg, hknown⟩ := hnot
  obtain ⟨n, hn⟩ := Option.ne_none_iff_exists'.mp hknown
  obtain ⟨hsrc, hreference, hsum⟩ := newReaders_eq hnew
  have hstack : r.src = .wrap (.limit (.etagReader (.source ()) first.md5 []) n) := by
    rw [hsrc]
    unfold chainStack firstStack
    rw [if_pos hneg, hn, if_neg (Int.not_le.mpr hneg)]
    rfl
  generalize hsums : constantSums [] (rest.getLastD first).contentSHA256 = sums
  -- A first call takes all that the limit allows, so that the hash is not asked for its sum.
  obtain ⟨inner, k, hk, hnext⟩ : ∃ inner k, k ≤ 0 ∧
      (r.read sums endlessSource n.toNat).2.src = .wrap (.limit inner k) := by
    rw [Reader.read_snd, hstack]
    by_cases hn : n ≤ 0
    · refine ⟨.etagReader (.source ()) first.md5 [], n, hn, ?_⟩
      simp only [Stack.read, if_pos hn]
    · refine
        ⟨.etagReader (.source ()) first.md5 (List.replicate n.toNat 0), n - n.toNat, by omega, ?_⟩
      have hsize : ¬ n < (n.toNat : Int) := by omega
      simp only [Stack.read, if_neg hn, if_neg hsize, endlessSource, reduceCtorEq, false_and,
        if_false, List.length_replicate, List.nil_append]
  have heof : (Reading.resultAfter (Reader.read sums endlessSource) r [n.toNat] 0).err =
      some .eof := by
    refine Reader.read_eof_iff.mpr ⟨?_, fun written hwritten => ?_⟩
    · change ((r.read sums endlessSource n.toNat).2.src.read sums endlessSource 0).1.err = _
      rw [hnext, Stack.read, Stack.read, if_pos hk]
    · change _ = (r.read sums endlessSource n.toNat).2.contentSHA256
      rw [Reader.read_snd, ← hsums]
      exact hreference.symm
  have hsatisfied := hverifies sums endlessSource () r rfl hnew [n.toNat] 0 heof first
    List.mem_cons_self
  have hmd5 := hsatisfied.1 hne
  rw [← hsums] at hmd5
  exact hne hmd5.symm

/-- A chain that verifies what it delivers compares all that it is given. -/
theorem checksAll_of_verifies (hverifies : Verifies isTagger first rest)
    {source : Source} {s : source.State} {r : Reader source.State}
    (hnew : newReaders source s first rest = .ok r) : ChecksAll isTagger first rest := by
  obtain ⟨r', hnew'⟩ := @exists_newReaders _ (emptySource isTagger) _ _ _ _ hnew ()
  refine ⟨?_, ?_⟩
  · by_cases hnone : isTagger = false ∧ first.md5 ≠ []
    · obtain ⟨rfl, hne⟩ := hnone
      obtain ⟨r'', hnew''⟩ := @exists_newReaders _ endlessSource _ _ _ _ hnew ()
      refine Or.inr ⟨rfl, hne, fun call hcall => ?_, size_of_verifies hverifies hnew'' hne⟩
      have hcompared := compared_of_verifies hverifies hnew' _ _ (fun _ _ => rfl)
        (fun _ => rfl) call
        (List.mem_cons_of_mem _ hcall)
      by_contra hother
      rw [not_or] at hother
      exact hother.2 (hcompared.1 hother.1).symm
    · refine Or.inl fun call hcall => ?_
      have hcompared := compared_of_verifies hverifies hnew' [] _
        (fun htagger hne => absurd ⟨htagger, hne⟩ hnone) (fun _ => rfl) call hcall
      by_contra hother
      exact hother (hcompared.1 hother).symm
  · by_cases hfirst : first.contentSHA256 = []
    · refine Or.inl fun call hcall => ?_
      have hcompared := compared_of_verifies hverifies hnew' _ [] (fun _ _ => rfl)
        (fun hne => absurd hfirst hne) call hcall
      by_contra hother
      exact hother (hcompared.2 hother).symm
    · have hcompared := fun call hcall => (compared_of_verifies hverifies hnew' _ _ (fun _ _ => rfl)
        (fun _ => rfl) call hcall).2
      have hlast := hcompared first List.mem_cons_self hfirst
      refine Or.inr ⟨hfirst, by rw [hlast]; exact hfirst, fun call hcall => ?_⟩
      by_contra hother
      rw [not_or] at hother
      rw [hcompared call (List.mem_cons_of_mem _ hcall) hother.1] at hlast
      exact hother.2 hlast

end Needed

/-- A chain that is not refused verifies what it delivers, and delivers all that has the
reference values, if and only if it compares all that it is given. -/
theorem verifies_and_delivers_iff (isTagger : Bool) (first : Call) (rest : List Call) :
    (Verifies isTagger first rest ∧ Delivers isTagger first rest) ↔
      Refused isTagger first rest ∨ ChecksAll isTagger first rest := by
  constructor
  · rintro ⟨hverifies, -⟩
    by_cases hrefused : Refused isTagger first rest
    · exact Or.inl hrefused
    · unfold Refused at hrefused
      push Not at hrefused
      obtain ⟨source, s, hsource, hok⟩ := hrefused
      cases hnew : newReaders source s first rest with
      | error err => exact absurd hnew (hok err)
      | ok r => exact Or.inr (checksAll_of_verifies hverifies hnew)
  · rintro (hrefused | hchecks)
    · refine ⟨fun sums source s r hsource hnew => ?_,
        fun sums source content s r hsource _ hnew => ?_⟩
      · obtain ⟨err, herr⟩ := hrefused source s hsource
        rw [hnew] at herr
        cases herr
      · obtain ⟨err, herr⟩ := hrefused source s hsource
        rw [hnew] at herr
        cases herr
    · exact ⟨verifies_of_checksAll hchecks, delivers_of_checksAll hchecks⟩

/-- An MD5 that only the second call gives is not compared, and a SHA256 that only the
first call gives is compared with none. -/
theorem not_verifies_second_md5 :
    ¬ Verifies false ⟨4, "", "", 4⟩ [⟨4, "0773da587b322af3a8718cb418a715ce", "", 4⟩] ∧
      ¬ Delivers false
        ⟨4, "", "88d4266fd4e6338d13b845fcf289579d209c897823b9217da3e161936f031589", 4⟩
        [⟨4, "", "", 4⟩] := by
  constructor
  · intro hverifies
    have hsatisfied := hverifies (constantSums (List.replicate 16 0) (List.replicate 32 0))
      (emptySource false) () _ rfl rfl [] 0 rfl _ (List.mem_cons_of_mem _ List.mem_cons_self)
    exact absurd (hsatisfied.1 (by decide)) (by decide)
  · intro hdelivers
    have hserves : (emptySource false).Serves fun _ => [] :=
      ⟨fun _ _ => rfl, fun _ _ => Nat.zero_le _, fun _ _ => Or.inr ⟨rfl, rfl⟩⟩
    have hdelivered := hdelivers
      (constantSums [] (Call.contentSHA256
        ⟨4, "", "88d4266fd4e6338d13b845fcf289579d209c897823b9217da3e161936f031589", 4⟩))
      (emptySource false) (fun _ => []) () _ rfl hserves rfl (fun call hcall => ?_) [] 0
    · rcases hdelivered.2 with hnone | ⟨heof, -⟩
      · exact absurd hnone (by decide)
      · exact absurd heof (by decide)
    · rcases List.mem_cons.mp hcall with rfl | hcall
      · exact ⟨fun hne => absurd (by decide) hne, fun _ => rfl⟩
      · rw [List.mem_singleton.mp hcall]
        exact ⟨fun hne => absurd (by decide) hne, fun hne => absurd (by decide) hne⟩

end Fs3.Hash
