import Mathlib
import CodeScout.Util.GoStrconv
import CodeScout.Util.Outcome

/-!
# Commits from a raw git log

`ParseLogReverseEach` reads the output of `git log --raw -z` and passes each commit,
with the paths that it changed and their statuses, to a callback. A commit is its
hash, its parents and a NUL. If it changed paths, a newline and one record for each
path follow; a commit without changes is followed by the hash of the next one.

What follows the NUL decides how the parser goes on. At the end of the input it
passes the commit to the callback without paths, and at a newline it does so with
the paths that it reads. At any other byte, which is the next hash, it goes on with
the next commit and does not call the callback at all. So exactly the commits that
changed paths, and the last one, are passed on (`parseLogLoop_logBytes`).
-/

namespace Gitdomain

open List

/-- What happened to a path. -/
inductive StatusAMD
  | added
  | modified
  | deleted
  deriving DecidableEq

/-- `PathStatus`. -/
structure PathStatus where
  path : GoString
  status : StatusAMD
deriving DecidableEq

/-- `LogEntry`. -/
structure LogEntry where
  commit : GoString
  pathStatuses : List PathStatus
deriving DecidableEq

/-! ## The parser

The buffered reader is the list of the bytes that were not yet read. -/

/-- `ReadBytes`: what stands before the first `delim`, and what is left behind it. The
result is `none` if there is none, which is the error `io.EOF`. -/
def readBytes (delim : UInt8) (input : GoString) : Option (GoString × GoString) :=
  match input.dropWhile (· != delim) with
  | [] => none
  | _ :: rest => some (input.takeWhile (· != delim), rest)

def isSubmodule (mode : GoString) : Bool :=
  mode == lit "160000"

/-- The switch on the status byte of a record: the status, or `none` if the record is
skipped. -/
def statusOf (buf : GoString) : Except GoString (Option StatusAMD) :=
  match Char.ofNat (buf.getD 97 0).toNat with
  | 'A' => .ok (some .added)
  | 'M' => .ok (some .modified)
  | 'D' => .ok (some .deleted)
  | 'T' =>
    let oldMode := (buf.drop 1).take 6
    let newMode := (buf.drop 8).take 6
    if isSubmodule oldMode && !isSubmodule newMode then .ok (some .added)
    else if !isSubmodule oldMode && isSubmodule newMode then .ok (some .deleted)
    else .ok none
  | 'C' => .error (lit "unexpected status 'C' given --no-renames was specified")
  | 'R' => .error (lit "unexpected status 'R' given --no-renames was specified")
  | 'X' => .error (lit "unexpected status 'X' indicates a bug in git")
  | _ => .ok none

/-- The inner loop of `ParseLogReverseEach`: the records up to the end of the input or
to a byte other than a colon. -/
def pathsLoop : ℕ → GoString → List PathStatus →
    Outcome GoString (List PathStatus × GoString)
  | 0, _, _ => .outOfFuel
  | fuel + 1, input, pathStatuses =>
    if input.head? ≠ some 58 then .ok (pathStatuses, input)
    else if input.length < 99 then
      .error (lit "read " ++ formatNat input.length ++ lit " bytes, expected 99")
    else match readBytes 0 (input.drop 99) with
      | none => .error (lit "EOF")
      | some (path, rest) => do
        let status ← Outcome.ofExcept (statusOf (input.take 99))
        match status with
        | none => pathsLoop fuel rest pathStatuses
        | some status => pathsLoop fuel rest (pathStatuses ++ [⟨path, status⟩])

variable {σ : Type}

/-- The outer loop of `ParseLogReverseEach`. The state is the one of the callback. -/
def parseLogLoop (onLogEntry : σ → LogEntry → Except GoString σ) :
    ℕ → GoString → σ → Outcome GoString σ
  | 0, _, _ => .outOfFuel
  | fuel + 1, input, s =>
    if input.length < 40 then .ok s
    else
      let commit := input.take 40
      match readBytes 0 input with
      | none => .error (lit "EOF")
      | some (_, []) => Outcome.ofExcept (onLogEntry s ⟨commit, []⟩)
      | some (_, byte :: rest) =>
        if byte = 10 then do
          let (pathStatuses, rest) ← pathsLoop (rest.length + 1) rest []
          let s ← Outcome.ofExcept (onLogEntry s ⟨commit, pathStatuses⟩)
          parseLogLoop onLogEntry fuel rest s
        else parseLogLoop onLogEntry fuel (byte :: rest) s

/-- **`ParseLogReverseEach`.** -/
def parseLogReverseEach (input : GoString) (onLogEntry : σ → LogEntry → Except GoString σ)
    (s : σ) : Outcome GoString σ :=
  parseLogLoop onLogEntry (input.length + 1) input s

/-! ## The format -/

/-- The letter of a status. -/
def statusByte : StatusAMD → UInt8
  | .added => 65
  | .modified => 77
  | .deleted => 68

/-- A changed path: the modes and hashes of its record, its status and its name. -/
structure LogPath where
  header : GoString
  status : StatusAMD
  path : GoString
  length_header : header.length = 96
  path_ne_nil : path ≠ []
  zero_notMem_path : 0 ∉ path

/-- A commit of a log. -/
structure LogCommit where
  hash : GoString
  parents : GoString
  paths : List LogPath
  length_hash : hash.length = 40
  hash_hex : ∀ b ∈ hash, 48 ≤ b ∧ b ≤ 57 ∨ 97 ≤ b ∧ b ≤ 102
  zero_notMem_parents : 0 ∉ parents

/-- The record of a path: a colon, the modes and the hashes, the status at index 97,
and the path at index 99. -/
def LogPath.bytes (p : LogPath) : GoString :=
  58 :: p.header ++ [statusByte p.status, 0] ++ p.path ++ [0]

/-- The newline and the records behind a commit that changed paths. -/
def LogCommit.changes (c : LogCommit) : GoString :=
  if c.paths = [] then [] else 10 :: c.paths.flatMap LogPath.bytes

def LogCommit.bytes (c : LogCommit) : GoString :=
  c.hash ++ 32 :: c.parents ++ [0] ++ c.changes

/-- The output of `git log` for the commits. -/
def logBytes (commits : List LogCommit) : GoString :=
  commits.flatMap LogCommit.bytes

/-- What the parser is to read from a commit. -/
def LogCommit.entry (c : LogCommit) : LogEntry :=
  ⟨c.hash, c.paths.map fun p => ⟨p.path, p.status⟩⟩

/-! ## Reading a record -/

theorem readBytes_append {delim : UInt8} {l rest : GoString} (h : delim ∉ l) :
    readBytes delim (l ++ delim :: rest) = some (l, rest) := by
  have hl : ∀ b ∈ l, (b != delim) = true := by
    intro b hb
    exact bne_iff_ne.mpr fun hbd => h (hbd ▸ hb)
  simp [readBytes, dropWhile_append_of_pos hl, takeWhile_append_of_pos hl]

theorem statusOf_header {p : LogPath} {l : GoString} :
    statusOf ((58 :: p.header ++ [statusByte p.status, 0] ++ l).take 99)
      = .ok (some p.status) := by
  have hget : ((58 :: p.header ++ [statusByte p.status, 0] ++ l).take 99).getD 97 0
      = statusByte p.status := by
    have hlen := p.length_header
    rw [getD_eq_getElem?_getD, getElem?_take_of_lt (by decide), append_assoc,
      getElem?_append_right (by simp [hlen])]
    simp [hlen]
  rw [statusOf, hget]
  cases p.status <;> rfl

/-- **A record is read back.** -/
theorem pathsLoop_bytes (p : LogPath) (fuel : ℕ) (rest : GoString) (acc : List PathStatus) :
    pathsLoop (fuel + 1) (p.bytes ++ rest) acc
      = pathsLoop fuel rest (acc ++ [⟨p.path, p.status⟩]) := by
  have hbytes : p.bytes ++ rest
      = (58 :: p.header ++ [statusByte p.status, 0]) ++ (p.path ++ 0 :: rest) := by
    simp [LogPath.bytes]
  have hlen : (58 :: p.header ++ [statusByte p.status, 0]).length = 99 := by
    simp [p.length_header]
  have hdrop : (p.bytes ++ rest).drop 99 = p.path ++ 0 :: rest := by
    rw [hbytes, ← hlen, drop_left]
  have hstatus : statusOf ((p.bytes ++ rest).take 99) = .ok (some p.status) := by
    rw [hbytes]
    exact statusOf_header
  have hhead : (p.bytes ++ rest).head? = some 58 := rfl
  have hlong : ¬ (p.bytes ++ rest).length < 99 := by
    rw [hbytes, length_append, hlen]
    exact Nat.not_lt.mpr (Nat.le_add_right _ _)
  rw [pathsLoop, if_neg (not_not.mpr hhead), if_neg hlong, hdrop,
    readBytes_append p.zero_notMem_path]
  simp [hstatus, Outcome.ofExcept]

/-- The records of a commit are read back, if no other record follows them. -/
theorem pathsLoop_flatMap_bytes {rest : GoString} (hrest : rest.head? ≠ some 58)
    (paths : List LogPath) : ∀ (fuel : ℕ) (acc : List PathStatus), paths.length < fuel →
    pathsLoop fuel (paths.flatMap LogPath.bytes ++ rest) acc
      = .ok (acc ++ paths.map (fun p => ⟨p.path, p.status⟩), rest) := by
  induction paths with
  | nil =>
    intro fuel acc hfuel
    obtain ⟨fuel, rfl⟩ := Nat.exists_eq_succ_of_ne_zero (Nat.ne_of_gt hfuel)
    rw [flatMap_nil, nil_append, pathsLoop, if_pos hrest, map_nil, append_nil]
  | cons p paths ih =>
    intro fuel acc hfuel
    obtain ⟨fuel, rfl⟩ := Nat.exists_eq_succ_of_ne_zero (Nat.ne_zero_of_lt hfuel)
    rw [flatMap_cons, append_assoc, pathsLoop_bytes, ih fuel _ (by simpa using hfuel)]
    simp

/-! ## Reading a commit -/

theorem LogCommit.zero_notMem (c : LogCommit) : (0 : UInt8) ∉ c.hash ++ 32 :: c.parents := by
  intro h
  rcases mem_append.mp h with h | h
  · exact absurd (c.hash_hex 0 h) (by decide)
  · exact c.zero_notMem_parents ((mem_cons.mp h).resolve_left (by decide))

open LogCommit

/-- The first byte of a log is a digit of a hash, not a newline or a colon. -/
theorem head?_logBytes {commits : List LogCommit} {b : UInt8}
    (h : (logBytes commits).head? = some b) : b ≠ 10 ∧ b ≠ 58 := by
  cases commits with
  | nil => cases h
  | cons c commits =>
    obtain ⟨d, l, hd⟩ := exists_cons_of_length_pos
      (show 0 < c.hash.length by rw [c.length_hash]; decide)
    have hb : d = b := by
      simpa [logBytes, bytes, hd] using h
    have hhex := c.hash_hex b (by rw [hd, hb]; exact mem_cons_self)
    constructor
    · rintro rfl
      revert hhex
      decide
    · rintro rfl
      revert hhex
      decide

theorem length_flatMap_bytes (paths : List LogPath) :
    paths.length ≤ (paths.flatMap LogPath.bytes).length := by
  induction paths with
  | nil => exact Nat.le_refl _
  | cons p paths ih =>
    have hp : 1 ≤ p.bytes.length := Nat.le_add_left 1 _
    rw [flatMap_cons, length_append, length_cons]
    linarith

/-- The commits that are passed to the callback: those with paths, and the last one. -/
def passedOn : List LogCommit → List LogCommit
  | [] => []
  | c :: commits =>
    if c.paths = [] ∧ commits ≠ [] then passedOn commits else c :: passedOn commits

variable (onLogEntry : σ → LogEntry → Except GoString σ)

/-- **A step of the parser.** Behind a commit with paths the callback has been called,
and so it has at the end of the log; otherwise the commit is dropped. -/
theorem parseLogLoop_bytes (c : LogCommit) (commits : List LogCommit) (fuel : ℕ) (s : σ) :
    parseLogLoop onLogEntry (fuel + 1) (logBytes (c :: commits)) s
      = if c.paths = [] then
          if logBytes commits = [] then Outcome.ofExcept (onLogEntry s c.entry)
          else parseLogLoop onLogEntry fuel (logBytes commits) s
        else Outcome.ofExcept (onLogEntry s c.entry) >>=
          parseLogLoop onLogEntry fuel (logBytes commits) := by
  have hbytes : logBytes (c :: commits) = (c.hash ++ 32 :: c.parents) ++ 0 ::
      (c.changes ++ logBytes commits) := by
    simp [logBytes, bytes]
  have hlong : ¬ (logBytes (c :: commits)).length < 40 := by
    rw [hbytes, length_append, length_append, c.length_hash, Nat.add_assoc]
    exact Nat.not_lt.mpr (Nat.le_add_right _ _)
  have htake : (logBytes (c :: commits)).take 40 = c.hash := by
    rw [hbytes, append_assoc, ← c.length_hash, take_left]
  rw [parseLogLoop, if_neg hlong, htake, hbytes, readBytes_append c.zero_notMem]
  by_cases hpaths : c.paths = []
  · have hentry : c.entry = ⟨c.hash, []⟩ := by
      rw [entry, hpaths]
      rfl
    rw [changes, if_pos hpaths, if_pos hpaths, hentry, nil_append]
    cases hlog : logBytes commits with
    | nil => rfl
    | cons b rest =>
      -- the next byte is of the next hash
      have hb : b ≠ 10 := (head?_logBytes (by rw [hlog]; rfl)).1
      simp [hb]
  · have hrest : (logBytes commits).head? ≠ some 58 := fun h => (head?_logBytes h).2 rfl
    have hloop := pathsLoop_flatMap_bytes hrest c.paths
      ((c.paths.flatMap LogPath.bytes ++ logBytes commits).length + 1) []
      (Nat.lt_succ_of_le ((length_flatMap_bytes c.paths).trans
        (by rw [length_append]; exact Nat.le_add_right _ _)))
    rw [changes, if_neg hpaths, if_neg hpaths]
    simp only [cons_append, if_true, hloop, Outcome.ok_bind, nil_append]
    rfl

theorem logBytes_eq_nil {commits : List LogCommit} : logBytes commits = [] ↔ commits = [] := by
  cases commits with
  | nil => simp [logBytes]
  | cons c commits => simp [logBytes, bytes]

/-! ## Reading a log -/

/-- **What the parser does with a log.** It passes on the commits with paths and the
last one, and returns what the callback returns. -/
theorem parseLogLoop_logBytes (commits : List LogCommit) :
    ∀ (fuel : ℕ) (s : σ), commits.length < fuel →
      parseLogLoop onLogEntry fuel (logBytes commits) s
        = Outcome.ofExcept (((passedOn commits).map LogCommit.entry).foldlM onLogEntry s) := by
  induction commits with
  | nil =>
    intro fuel s hfuel
    obtain ⟨fuel, rfl⟩ := Nat.exists_eq_succ_of_ne_zero (Nat.ne_zero_of_lt hfuel)
    rfl
  | cons c commits ih =>
    intro fuel s hfuel
    obtain ⟨fuel, rfl⟩ := Nat.exists_eq_succ_of_ne_zero (Nat.ne_zero_of_lt hfuel)
    have ih := fun s => ih fuel s (by simpa using hfuel)
    rw [parseLogLoop_bytes, passedOn]
    by_cases hpaths : c.paths = []
    · by_cases hcommits : commits = []
      · subst hcommits
        rw [if_pos hpaths, if_pos (logBytes_eq_nil.mpr rfl), if_neg fun h => h.2 rfl]
        show Outcome.ofExcept (onLogEntry s c.entry)
          = Outcome.ofExcept ([c.entry].foldlM onLogEntry s)
        rw [foldlM_cons]
        exact congrArg Outcome.ofExcept (bind_pure _).symm
      · rw [if_pos hpaths, if_neg (mt logBytes_eq_nil.mp hcommits), if_pos ⟨hpaths, hcommits⟩, ih]
    · rw [if_neg hpaths, if_neg fun h => hpaths h.1, map_cons, foldlM_cons]
      cases hcall : onLogEntry s c.entry with
      | error e => rfl
      | ok s => exact ih s

theorem length_le_logBytes (commits : List LogCommit) :
    commits.length ≤ (logBytes commits).length := by
  induction commits with
  | nil => exact Nat.le_refl _
  | cons c commits ih =>
    have hc : 40 ≤ c.bytes.length := by
      rw [bytes, length_append, length_append, length_append,
        c.length_hash, Nat.add_assoc, Nat.add_assoc]
      exact Nat.le_add_right _ _
    have hsplit : (logBytes (c :: commits)).length =
        c.bytes.length + (logBytes commits).length := by
      rw [logBytes, flatMap_cons, length_append, logBytes]
    rw [hsplit, length_cons]
    linarith

theorem parseLogReverseEach_logBytes (commits : List LogCommit) (s : σ) :
    parseLogReverseEach (logBytes commits) onLogEntry s
      = Outcome.ofExcept (((passedOn commits).map LogCommit.entry).foldlM onLogEntry s) :=
  parseLogLoop_logBytes onLogEntry commits _ s
    (Nat.lt_succ_of_le (length_le_logBytes commits))

theorem passedOn_sublist (commits : List LogCommit) : (passedOn commits).Sublist commits := by
  induction commits with
  | nil => exact List.Sublist.refl _
  | cons c commits ih =>
    rw [passedOn]
    split
    · exact ih.cons c
    · exact ih.cons_cons c

theorem passedOn_eq_self_iff (commits : List LogCommit) :
    passedOn commits = commits ↔ ∀ c ∈ commits.dropLast, c.paths ≠ [] := by
  induction commits with
  | nil => simp [passedOn]
  | cons c commits ih =>
    rw [passedOn]
    by_cases hcommits : commits = []
    · subst hcommits
      simp [passedOn]
    · rw [dropLast_cons_of_ne_nil hcommits, forall_mem_cons, ← ih]
      by_cases hpaths : c.paths = []
      · rw [if_pos ⟨hpaths, hcommits⟩]
        -- one commit fewer is passed on
        have hlt : (passedOn commits).length < (c :: commits).length :=
          Nat.lt_succ_of_le (passedOn_sublist commits).length_le
        exact iff_of_false (fun h => hlt.ne (by rw [h])) fun h => h.1 hpaths
      · rw [if_neg fun h => hpaths h.1, cons_inj_right]
        exact (and_iff_right hpaths).symm

/-- A callback that keeps what it is passed. -/
def keepEntry (entries : List LogEntry) (entry : LogEntry) : Except GoString (List LogEntry) :=
  .ok (entries ++ [entry])

theorem foldlM_keepEntry (l : List LogEntry) :
    ∀ entries, l.foldlM keepEntry entries = .ok (entries ++ l) := by
  induction l with
  | nil =>
    intro entries
    rw [append_nil]
    rfl
  | cons entry l ih =>
    intro entries
    rw [foldlM_cons]
    show l.foldlM keepEntry (entries ++ [entry]) = _
    rw [ih, append_assoc, singleton_append]

/-- **The parser inverts the format** – it calls any callback once for each commit, in
order and with its paths, and returns `nil` if the callback always does – if and only
if every commit but the last one has changed a path. -/
theorem parseLogReverseEach_eq_iff (commits : List LogCommit) :
    (∀ (σ : Type) (onLogEntry : σ → LogEntry → Except GoString σ) (s : σ),
        parseLogReverseEach (logBytes commits) onLogEntry s
          = Outcome.ofExcept ((commits.map LogCommit.entry).foldlM onLogEntry s))
      ↔ ∀ c ∈ commits.dropLast, c.paths ≠ [] := by
  rw [← passedOn_eq_self_iff]
  constructor
  · intro h
    have hkeep := h _ keepEntry []
    rw [parseLogReverseEach_logBytes, foldlM_keepEntry, foldlM_keepEntry] at hkeep
    have hentries : (passedOn commits).map entry = commits.map entry :=
      Outcome.ok.inj hkeep
    refine (passedOn_sublist commits).eq_of_length ?_
    simpa using congrArg length hentries
  · intro h σ onLogEntry s
    rw [parseLogReverseEach_logBytes, h]

/-- A root that was made with `--allow-empty`. -/
def emptyRoot : LogCommit where
  hash := lit "60303ae22b998861bce3b28f33eec1be758a213c"
  parents := []
  paths := []
  length_hash := by decide +kernel
  hash_hex := by decide +kernel
  zero_notMem_parents := List.not_mem_nil

/-- Its child, which adds a file. -/
def addsFile : LogCommit where
  hash := lit "1b4f0e9851971998e732078544c96b36c3d01ced"
  parents := emptyRoot.hash
  paths := [{
    header := lit ("000000 100644 0000000000000000000000000000000000000000 " ++
      "e69de29bb2d1d6434b8b29ae775ad8c2e48c5391 ")
    status := .added
    path := lit "README.md"
    length_header := by decide +kernel
    path_ne_nil := by decide +kernel
    zero_notMem_path := by decide +kernel }]
  length_hash := by decide +kernel
  hash_hex := by decide +kernel
  zero_notMem_parents := by decide +kernel

/-- The empty commit is dropped when another commit follows it. -/
theorem parseLogReverseEach_drops_empty :
    parseLogReverseEach (logBytes [emptyRoot, addsFile]) keepEntry []
        = .ok [addsFile.entry]
      ∧ ¬ ∀ (commits : List LogCommit) (σ : Type)
          (onLogEntry : σ → LogEntry → Except GoString σ) (s : σ),
        parseLogReverseEach (logBytes commits) onLogEntry s
          = Outcome.ofExcept ((commits.map LogCommit.entry).foldlM onLogEntry s) := by
  have hparse : parseLogReverseEach (logBytes [emptyRoot, addsFile]) keepEntry []
      = .ok [addsFile.entry] := by
    decide +kernel
  refine ⟨hparse, fun h => ?_⟩
  have hall := h [emptyRoot, addsFile] _ keepEntry []
  rw [hparse, foldlM_keepEntry] at hall
  exact absurd (congrArg length (Outcome.ok.inj hall)) (by decide)

end Gitdomain
