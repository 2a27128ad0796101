import FsCore.Layout
import Mathlib.Logic.Function.Basic

namespace FsCore

abbrev Disk := Text → Option (List UInt8)

/-- `root / name` of std::filesystem, with the separator that it puts in. -/
def joinPath (root name : Text) : Text :=
  if name.head? = some '/' ∨ root = [] then name
  else if root.getLast? = some '/' then root ++ name
  else root ++ '/' :: name

structure StorageToken where
  token : Text
  root : Text
  tempRoot : Text
  appRoot : Text
deriving DecidableEq

namespace StorageToken

def makeSqlitePath (t : StorageToken) (root : Text) : Text :=
  joinPath root (t.token ++ ".index.sqlite".toList)

def makeMmapPath (t : StorageToken) (root : Text) : Text :=
  joinPath root (t.token ++ ".mmap".toList)

def makeMetaPath (t : StorageToken) (root : Text) : Text :=
  joinPath root (t.token ++ ".meta".toList)

/-- The constructor prefers committed storage if it already exists. -/
def new (token appRoot tempRoot : Text) (disk : Disk) : StorageToken :=
  let t : StorageToken := ⟨token, tempRoot, tempRoot, appRoot⟩
  if appRoot ≠ [] ∧ (disk (t.makeSqlitePath appRoot)).isSome then { t with root := appRoot } else t

end StorageToken

/-- `.%03u` -/
def segmentSuffix (segIdx : Nat) : Text :=
  let digits := Nat.toDigits 10 segIdx
  '.' :: (List.replicate (3 - digits.length) '0' ++ digits)

/-- The files that a store creates for its token. -/
inductive StoreFile where
  | index
  | header
  | segment (segIdx : Nat)
deriving DecidableEq

/-- Where a store over a root keeps a file: the mmap files are named after mmap_path. -/
def StorageToken.path (t : StorageToken) (root : Text) : StoreFile → Text
  | .index => t.makeSqlitePath root
  | .header => t.makeMmapPath root ++ ".header".toList
  | .segment segIdx => t.makeMmapPath root ++ segmentSuffix segIdx

/-- What fails during a commit. A copy that fails may leave something at its destination. -/
structure CommitFaults where
  directories : Bool
  copies : Text → Option (Option (List UInt8))

/-- copy_file with overwrite_existing; it refuses to copy a file onto itself. -/
def copyIfExists (faults : CommitFaults) (src dst : Text) (disk : Disk) : Bool × Disk :=
  match disk src with
  | none => (false, disk)
  | some bytes =>
    if src = dst then (false, disk)
    else
      match faults.copies dst with
      | none => (true, Function.update disk dst (some bytes))
      | some leftover => (false, Function.update disk dst leftover)

def StorageToken.commit (faults : CommitFaults) (t : StorageToken) (disk : Disk) :
    Bool × StorageToken × Disk :=
  if t.appRoot = [] then (false, t, disk)
  else if t.root = t.appRoot then (true, t, disk)
  else if faults.directories then (false, t, disk)
  else
    let sqlite := copyIfExists faults (t.makeSqlitePath t.tempRoot) (t.makeSqlitePath t.appRoot) disk
    let mmap := copyIfExists faults (t.makeMmapPath t.tempRoot) (t.makeMmapPath t.appRoot) sqlite.2
    let meta' := copyIfExists faults (t.makeMetaPath t.tempRoot) (t.makeMetaPath t.appRoot) mmap.2
    if sqlite.1 || mmap.1 || meta'.1 then (true, { t with root := t.appRoot }, meta'.2)
    else (false, t, meta'.2)

/-- A commit that reports success has moved the whole store; one that reports failure
has not moved the root. -/
def StorageToken.CommitKeeps (faults : CommitFaults) (t : StorageToken) (disk : Disk) : Prop :=
  ((t.commit faults disk).1 = true → ∀ f bytes, disk (t.path t.tempRoot f) = some bytes →
    (t.commit faults disk).2.2 (t.path t.appRoot f) = some bytes) ∧
  ((t.commit faults disk).1 = false → (t.commit faults disk).2.1.root = t.root)

/-- A copy for which there is a source and which does not fail. -/
def Copied (faults : CommitFaults) (disk : Disk) (src dst : Text) : Prop :=
  disk src ≠ none ∧ src ≠ dst ∧ faults.copies dst = none

theorem copyIfExists_fst {faults : CommitFaults} {src dst : Text} {disk : Disk} :
    (copyIfExists faults src dst disk).1 = true ↔ Copied faults disk src dst := by
  unfold copyIfExists Copied
  cases hs : disk src with
  | none => simp
  | some bytes =>
    by_cases same : src = dst
    · simp [same]
    · cases hf : faults.copies dst <;> simp [same]

theorem copyIfExists_other {faults : CommitFaults} {src dst path : Text} {disk : Disk}
    (h : path ≠ dst) : (copyIfExists faults src dst disk).2 path = disk path := by
  unfold copyIfExists
  cases hs : disk src with
  | none => rfl
  | some bytes =>
    by_cases same : src = dst
    · simp [same]
    · cases hf : faults.copies dst <;> simp [same, Function.update_of_ne h]

/-- What is at the destination of a copy afterwards. -/
theorem copyIfExists_arrives {faults : CommitFaults} {src dst : Text} {disk : Disk}
    {bytes : List UInt8} (hs : disk src = some bytes) (ne : src ≠ dst) :
    (copyIfExists faults src dst disk).2 dst = some bytes ↔
      faults.copies dst = none ∨ faults.copies dst = some (some bytes) := by
  unfold copyIfExists
  cases hf : faults.copies dst <;> simp [hs, ne]

theorem joinPath_append (root : Text) {name : Text} (later : Text) (h : name ≠ []) :
    joinPath root (name ++ later) = joinPath root name ++ later := by
  have head : (name ++ later).head? = name.head? := by
    cases name with
    | nil => exact absurd rfl h
    | cons c rest => rfl
  simp only [joinPath, head]
  split
  next => rfl
  next => split <;> simp

namespace StorageToken

/-- The common beginning of a token's paths under a root. -/
def base (t : StorageToken) (root : Text) : Text := joinPath root (t.token ++ ['.'])

theorem joinPath_base (t : StorageToken) (root tail : Text) :
    joinPath root (t.token ++ '.' :: tail) = t.base root ++ tail := by
  rw [base, ← joinPath_append root tail (by simp), List.append_assoc]
  rfl

/-- The rest of a file's name. -/
def tail : StoreFile → Text
  | .index => "index.sqlite".toList
  | .header => "mmap.header".toList
  | .segment segIdx => "mmap".toList ++ segmentSuffix segIdx

theorem path_eq (t : StorageToken) (root : Text) (f : StoreFile) :
    t.path root f = t.base root ++ tail f := by
  have mmap : t.makeMmapPath root = t.base root ++ "mmap".toList := t.joinPath_base root "mmap".toList
  cases f with
  | index => exact t.joinPath_base root "index.sqlite".toList
  | header => rw [path, mmap, List.append_assoc]; rfl
  | segment segIdx => rw [path, mmap, List.append_assoc]; rfl

/-- Files that have one path under a root have one under every root. -/
theorem path_congr {t : StorageToken} {root : Text} {f g : StoreFile}
    (h : t.path root f = t.path root g) (root' : Text) : t.path root' f = t.path root' g := by
  rw [path_eq, path_eq] at h
  rw [path_eq, path_eq, List.append_cancel_left h]

theorem makeSqlitePath_eq (t : StorageToken) (root : Text) :
    t.makeSqlitePath root = t.base root ++ "index.sqlite".toList :=
  t.joinPath_base root "index.sqlite".toList

theorem makeMmapPath_eq (t : StorageToken) (root : Text) :
    t.makeMmapPath root = t.base root ++ "mmap".toList := t.joinPath_base root "mmap".toList

theorem makeMetaPath_eq (t : StorageToken) (root : Text) :
    t.makeMetaPath root = t.base root ++ "meta".toList := t.joinPath_base root "meta".toList

/-- Names that end in different characters are different wherever they are. -/
theorem append_ne_of_getLast {a b x y : Text} {c d : Char} (hx : x.getLast? = some c)
    (hy : y.getLast? = some d) (ne : c ≠ d) : a ++ x ≠ b ++ y := by
  intro eq
  have := congrArg List.getLast? eq
  rw [List.getLast?_append, List.getLast?_append, hx, hy] at this
  exact ne (by simpa using this)

theorem segmentSuffix_getLast (segIdx : Nat) :
    ∃ c : Char, (tail (.segment segIdx)).getLast? = some c ∧ c.isDigit = true := by
  have digits : Nat.toDigits 10 segIdx ≠ [] := Nat.toDigits_ne_nil
  have split : tail (.segment segIdx) = ("mmap".toList ++ '.' ::
      List.replicate (3 - (Nat.toDigits 10 segIdx).length) '0') ++ Nat.toDigits 10 segIdx := by
    rw [List.append_assoc]
    rfl
  refine ⟨(Nat.toDigits 10 segIdx).getLast digits, ?_,
    Nat.isDigit_of_mem_toDigits (by decide) (by decide) (List.getLast_mem digits)⟩
  rw [split, List.getLast?_append, List.getLast?_eq_some_getLast digits]
  rfl

/-- A copy of the commit changes only the file it copies to. -/
theorem path_ne (t : StorageToken) {f : StoreFile} (h : f ≠ .index) {root root' name : Text} {c : Char}
    (hname : name.getLast? = some c) (hc : c ≠ 'r' ∧ c.isDigit = false) :
    t.path root f ≠ t.base root' ++ name := by
  rw [path_eq]
  cases f with
  | index => exact absurd rfl h
  | header =>
    exact append_ne_of_getLast (show (tail .header).getLast? = some 'r' by decide) hname hc.1.symm
  | segment segIdx =>
    obtain ⟨d, hd, digit⟩ := segmentSuffix_getLast segIdx
    refine append_ne_of_getLast hd hname ?_
    rintro rfl
    rw [hc.2] at digit
    cases digit

end StorageToken

section Commit

variable (faults : CommitFaults) (t : StorageToken) (disk : Disk)

/-- The commit gets as far as copying and copies one of the three files it knows. -/
def StorageToken.CopiesOne : Prop :=
  t.appRoot ≠ [] ∧ faults.directories = false ∧
    (Copied faults disk (t.makeSqlitePath t.tempRoot) (t.makeSqlitePath t.appRoot) ∨
      Copied faults disk (t.makeMmapPath t.tempRoot) (t.makeMmapPath t.appRoot) ∨
      Copied faults disk (t.makeMetaPath t.tempRoot) (t.makeMetaPath t.appRoot))

/-- The copy of the index succeeds, or fails with all bytes in place. -/
def StorageToken.IndexArrives : Prop :=
  ∀ bytes, disk (t.path t.tempRoot .index) = some bytes →
    faults.copies (t.path t.appRoot .index) = none ∨
      faults.copies (t.path t.appRoot .index) = some (some bytes)

/-- The header and all segments are under the new root already. -/
def StorageToken.MmapArrived : Prop :=
  ∀ f, f ≠ .index → ∀ bytes, disk (t.path t.tempRoot f) = some bytes →
    disk (t.path t.appRoot f) = some bytes

variable {faults t disk}

theorem Copied.congr {disk' : Disk} {src dst : Text} (h : disk' src = disk src) :
    Copied faults disk' src dst ↔ Copied faults disk src dst := by
  rw [Copied, Copied, h]

/-- No copy writes where a later one reads, so the result tells whether there was a copy. -/
theorem StorageToken.commit_fst (nowhere : t.appRoot ≠ []) (moves : t.root ≠ t.appRoot)
    (hd : faults.directories = false) : (t.commit faults disk).1 = true ↔ t.CopiesOne faults disk := by
  have mmap : t.makeMmapPath t.tempRoot ≠ t.makeSqlitePath t.appRoot := by
    rw [t.makeMmapPath_eq, t.makeSqlitePath_eq]
    exact append_ne_of_getLast (c := 'p') (d := 'e') (by decide) (by decide) (by decide)
  have meta_index : t.makeMetaPath t.tempRoot ≠ t.makeSqlitePath t.appRoot := by
    rw [t.makeMetaPath_eq, t.makeSqlitePath_eq]
    exact append_ne_of_getLast (c := 'a') (d := 'e') (by decide) (by decide) (by decide)
  have meta_mmap : t.makeMetaPath t.tempRoot ≠ t.makeMmapPath t.appRoot := by
    rw [t.makeMetaPath_eq, t.makeMmapPath_eq]
    exact append_ne_of_getLast (c := 'a') (d := 'p') (by decide) (by decide) (by decide)
  have fst : (t.commit faults disk).1 = true ↔
      (copyIfExists faults (t.makeSqlitePath t.tempRoot) (t.makeSqlitePath t.appRoot) disk).1 = true ∨
      (copyIfExists faults (t.makeMmapPath t.tempRoot) (t.makeMmapPath t.appRoot)
        (copyIfExists faults (t.makeSqlitePath t.tempRoot) (t.makeSqlitePath t.appRoot) disk).2).1
        = true ∨
      (copyIfExists faults (t.makeMetaPath t.tempRoot) (t.makeMetaPath t.appRoot)
        (copyIfExists faults (t.makeMmapPath t.tempRoot) (t.makeMmapPath t.appRoot)
          (copyIfExists faults (t.makeSqlitePath t.tempRoot) (t.makeSqlitePath t.appRoot) disk).2).2).1
        = true := by
    unfold StorageToken.commit
    rw [if_neg nowhere, if_neg moves, hd]
    simp only [Bool.false_eq_true, if_false]
    split
    next any => simpa [or_assoc] using any
    next any => simpa [or_assoc] using any
  rw [fst, copyIfExists_fst, copyIfExists_fst, copyIfExists_fst, Copied.congr (copyIfExists_other mmap),
    Copied.congr ((copyIfExists_other meta_mmap).trans (copyIfExists_other meta_index)), CopiesOne, hd]
  simp [nowhere]

/-- After the copies every file of the store but the index is what it was. -/
theorem StorageToken.commit_files (nowhere : t.appRoot ≠ []) (moves : t.root ≠ t.appRoot)
    (hd : faults.directories = false) {f : StoreFile} (h : f ≠ .index) (root : Text) :
    (t.commit faults disk).2.2 (t.path root f) = disk (t.path root f) := by
  have index : t.path root f ≠ t.makeSqlitePath t.appRoot := by
    rw [t.makeSqlitePath_eq]
    exact t.path_ne (c := 'e') h (by decide) (by decide)
  have mmap : t.path root f ≠ t.makeMmapPath t.appRoot := by
    rw [t.makeMmapPath_eq]
    exact t.path_ne (c := 'p') h (by decide) (by decide)
  have meta_path : t.path root f ≠ t.makeMetaPath t.appRoot := by
    rw [t.makeMetaPath_eq]
    exact t.path_ne (c := 'a') h (by decide) (by decide)
  unfold StorageToken.commit
  rw [if_neg nowhere, if_neg moves, hd]
  simp only [Bool.false_eq_true, if_false]
  split <;> rw [copyIfExists_other meta_path, copyIfExists_other mmap, copyIfExists_other index]

/-- After the copies the index is what its own copy left. -/
theorem StorageToken.commit_index (nowhere : t.appRoot ≠ []) (moves : t.root ≠ t.appRoot)
    (hd : faults.directories = false) : (t.commit faults disk).2.2 (t.path t.appRoot .index) =
      (copyIfExists faults (t.path t.tempRoot .index) (t.path t.appRoot .index) disk).2
        (t.path t.appRoot .index) := by
  have mmap : t.makeSqlitePath t.appRoot ≠ t.makeMmapPath t.appRoot := by
    rw [t.makeMmapPath_eq, t.makeSqlitePath_eq]
    exact append_ne_of_getLast (c := 'e') (d := 'p') (by decide) (by decide) (by decide)
  have meta_path : t.makeSqlitePath t.appRoot ≠ t.makeMetaPath t.appRoot := by
    rw [t.makeMetaPath_eq, t.makeSqlitePath_eq]
    exact append_ne_of_getLast (c := 'e') (d := 'a') (by decide) (by decide) (by decide)
  unfold StorageToken.commit
  rw [if_neg nowhere, if_neg moves, hd]
  simp only [Bool.false_eq_true, if_false]
  split <;> simp only [StorageToken.path, copyIfExists_other meta_path, copyIfExists_other mmap]

theorem StorageToken.commit_root (failed : (t.commit faults disk).1 = false) :
    (t.commit faults disk).2.1 = t := by
  unfold StorageToken.commit at failed ⊢
  split
  next => rfl
  next h =>
    rw [if_neg h] at failed
    split
    next => rfl
    next h' =>
      rw [if_neg h'] at failed
      split
      next => rfl
      next h'' =>
        rw [if_neg h''] at failed
        dsimp only at failed ⊢
        split
        next any => rw [if_pos any] at failed; cases failed
        next => rfl

/-- A copy that is made has two paths, and then so has every other file of the token. -/
theorem StorageToken.CopiesOne.paths_ne (h : t.CopiesOne faults disk) (f : StoreFile) :
    t.path t.tempRoot f ≠ t.path t.appRoot f := by
  intro same
  have base : t.base t.tempRoot = t.base t.appRoot := by
    rw [t.path_eq, t.path_eq] at same
    exact List.append_cancel_right same
  obtain ⟨-, -, ⟨-, ne, -⟩ | ⟨-, ne, -⟩ | ⟨-, ne, -⟩⟩ := h
  · rw [t.makeSqlitePath_eq, t.makeSqlitePath_eq, base] at ne
    exact ne rfl
  · rw [t.makeMmapPath_eq, t.makeMmapPath_eq, base] at ne
    exact ne rfl
  · rw [t.makeMetaPath_eq, t.makeMetaPath_eq, base] at ne
    exact ne rfl

/-- A token that is made again after the index has moved takes the new root. -/
theorem StorageToken.new_follows_commit (moves : t.root ≠ t.appRoot) (one : t.CopiesOne faults disk)
    (arrives : t.IndexArrives faults disk) {bytes : List UInt8}
    (hs : disk (t.path t.tempRoot .index) = some bytes) :
    (StorageToken.new t.token t.appRoot t.tempRoot (t.commit faults disk).2.2).root = t.appRoot := by
  have index : (t.commit faults disk).2.2 (t.path t.appRoot .index) = some bytes := by
    rw [t.commit_index one.1 moves one.2.1]
    exact (copyIfExists_arrives hs (one.paths_ne .index)).mpr (arrives bytes hs)
  have found : t.appRoot ≠ [] ∧ ((t.commit faults disk).2.2 (t.path t.appRoot .index)).isSome :=
    ⟨one.1, Option.isSome_of_eq_some index⟩
  unfold StorageToken.new
  dsimp only
  exact congrArg StorageToken.root (if_pos found)

end Commit

theorem commit_keeps_iff {faults : CommitFaults} {t : StorageToken} {disk : Disk}
    (temporary : t.root = t.tempRoot) : t.CommitKeeps faults disk ↔
      ¬ t.CopiesOne faults disk ∨ t.tempRoot = t.appRoot ∨
        t.IndexArrives faults disk ∧ t.MmapArrived disk := by
  by_cases nowhere : t.appRoot = []
  · have run : t.commit faults disk = (false, t, disk) := by simp [StorageToken.commit, nowhere]
    simp [StorageToken.CommitKeeps, run, StorageToken.CopiesOne, nowhere]
  by_cases there : t.tempRoot = t.appRoot
  · have run : t.commit faults disk = (true, t, disk) := by
      simp [StorageToken.commit, nowhere, temporary, there]
    simp [StorageToken.CommitKeeps, run, there]
  have moves : t.root ≠ t.appRoot := temporary ▸ there
  cases hd : faults.directories with
  | true =>
    have run : t.commit faults disk = (false, t, disk) := by
      simp [StorageToken.commit, nowhere, temporary, there, hd]
    simp [StorageToken.CommitKeeps, run, StorageToken.CopiesOne, hd]
  | false =>
    by_cases one : t.CopiesOne faults disk
    · have done : (t.commit faults disk).1 = true := (t.commit_fst nowhere moves hd).mpr one
      have arrives : (∀ bytes, disk (t.path t.tempRoot .index) = some bytes →
          (t.commit faults disk).2.2 (t.path t.appRoot .index) = some bytes) ↔
            t.IndexArrives faults disk := by
        refine forall_congr' fun bytes => imp_congr_right fun hs => ?_
        rw [t.commit_index nowhere moves hd]
        exact copyIfExists_arrives hs (one.paths_ne .index)
      constructor
      · intro h
        obtain ⟨keeps, _⟩ := h
        refine .inr (.inr ⟨arrives.mp (keeps done .index), fun f hf bytes hs => ?_⟩)
        exact (t.commit_files nowhere moves hd hf _).symm.trans (keeps done f bytes hs)
      · rintro (none | same | ⟨index, rest⟩)
        · exact absurd one none
        · exact absurd same there
        · refine ⟨fun _ f bytes hs => ?_, fun failed => by rw [done] at failed; cases failed⟩
          by_cases hf : f = .index
          · subst hf
            exact arrives.mpr index bytes hs
          · rw [t.commit_files nowhere moves hd hf]
            exact rest f hf bytes hs
    · have failed : (t.commit faults disk).1 = false :=
        Bool.eq_false_iff.mpr fun done => one ((t.commit_fst nowhere moves hd).mp done)
      have keeps : t.CommitKeeps faults disk :=
        ⟨fun done => absurd done (by simp [failed]), fun _ => by rw [StorageToken.commit_root failed]⟩
      simp [keeps, one]

/-- A store of one segment under the temp root. -/
def tokenSample : StorageToken := ⟨"t".toList, "tmp".toList, "tmp".toList, "app".toList⟩

def diskSample : Disk := fun path =>
  if path = tokenSample.path tokenSample.tempRoot .index then some [1]
  else if path = tokenSample.path tokenSample.tempRoot .header then some [2]
  else if path = tokenSample.path tokenSample.tempRoot (.segment 0) then some [3]
  else none

/-- The header and the segment have been put under the other root before the commit. -/
def arrivedSample : Disk :=
  Function.update (Function.update diskSample (tokenSample.path tokenSample.appRoot .header) (some [2]))
    (tokenSample.path tokenSample.appRoot (.segment 0)) (some [3])

theorem arrivedSample_mmapArrived : tokenSample.MmapArrived arrivedSample := by
  intro f hf bytes h
  have roots (g : StoreFile) : tokenSample.path tokenSample.tempRoot f ≠
    tokenSample.path tokenSample.appRoot g := by
    intro same
    rw [StorageToken.path_eq, StorageToken.path_eq] at same
    have first : some 't' = some 'a' := congrArg List.head? same
    exact absurd first (by decide)
  rw [arrivedSample, Function.update_of_ne (roots _), Function.update_of_ne (roots _), diskSample] at h
  split at h
  next index =>
    rw [tokenSample.path_eq _ .index] at index
    exact absurd index (tokenSample.path_ne hf (show _ = some 'e' by decide) (by decide))
  next =>
    split at h
    next header =>
      rw [StorageToken.path_congr header, ← h]
      decide +kernel
    next =>
      split at h
      next segment =>
        rw [StorageToken.path_congr segment, ← h]
        decide +kernel
      next => cases h

theorem commit_keeps_sample : tokenSample.root = tokenSample.tempRoot ∧
    (tokenSample.CommitKeeps ⟨false, fun _ => none⟩ arrivedSample ↔
      ¬ tokenSample.CopiesOne ⟨false, fun _ => none⟩ arrivedSample ∨
      tokenSample.tempRoot = tokenSample.appRoot ∨
        tokenSample.IndexArrives ⟨false, fun _ => none⟩ arrivedSample ∧
          tokenSample.MmapArrived arrivedSample) ∧
    tokenSample.CopiesOne ⟨false, fun _ => none⟩ arrivedSample ∧
    tokenSample.CommitKeeps ⟨false, fun _ => none⟩ arrivedSample := by
  refine ⟨rfl, commit_keeps_iff rfl, ?_,
    (commit_keeps_iff rfl).mpr (.inr (.inr ⟨?_, arrivedSample_mmapArrived⟩))⟩
  · exact ⟨by decide, rfl, .inl ⟨by decide +kernel, by decide, rfl⟩⟩
  · exact fun _ _ => .inl rfl

/-- All copies succeed and the header stays behind. -/
theorem commit_leaves_mmap : ¬ ∀ (faults : CommitFaults) (t : StorageToken) (disk : Disk),
    t.root = t.tempRoot → t.CommitKeeps faults disk := by
  intro h
  have keeps := h ⟨false, fun _ => none⟩ tokenSample diskSample rfl
  have header := keeps.1 (by decide +kernel) .header [2] (by decide +kernel)
  revert header
  decide +kernel

end FsCore
