import GarbageCollector.TextScan
import Mathlib.Data.UInt

/-!
# The log of a run

`log.c` in a build with `LOG`: what each call of `log`, `check_the_space`, `log_mark_alive` and
`set_memory_limit` does to the counters, to `log_buffer` and to the log file. `fl` says whether
`FL` is defined too. The values of `log_time()` are given with the calls, in microseconds; below
2^52 their `%010.6lf` is exact. Counters of type `int` are natural numbers.
-/

namespace GarbageCollector.Logger

open TextScan

def bufferSize : Nat := 2000000

def bufferDeadNumber : Nat := 333

/-- The size of `log_file_name`. -/
def fileNameSize : Nat := 25

inductive LogType where
  | initAllocator
  | destroyAllocator
  | allocateNewObject
  | mark
  | sweep
  | other
  deriving DecidableEq, Repr

inductive LogResult where
  | oEmptyBlock
  | oHeader
  | bHeapError
  | heapError
  | bError
  | error
  | ok
  | start
  | alive
  deriving DecidableEq, Repr

/-- The directory of the log files: the number in `build_count.log`, unless that file is empty,
and the contents of each log file. -/
structure Disk where
  buildCount : Option Nat
  files : Text → Text

structure State where
  disk : Disk
  /-- Whether `fopen` succeeds for the log file. -/
  writable : Bool
  /-- The name behind `log_file`, unless it is `NULL`. -/
  logFile : Option Text
  /-- `log_buffer` up to `buf_pos`. -/
  buffer : Text
  prevObjectSize : UInt64
  lastObjectSize : UInt64
  memoryLimit : UInt64
  memoryUsed : UInt64
  objectCount : UInt64
  markedObjects : UInt64
  mSize : UInt64
  markStageCount : Nat
  sweepStageCount : Nat
  newObjectsCount : Nat
  extraLog : Bool

/-- Before the constructors run. -/
def boot (disk : Disk) (writable : Bool) : State where
  disk := disk
  writable := writable
  logFile := none
  buffer := []
  prevObjectSize := -1
  lastObjectSize := 0
  memoryLimit := 0
  memoryUsed := 0
  objectCount := 0
  markedObjects := 0
  mSize := 0
  markStageCount := 0
  sweepStageCount := 0
  newObjectsCount := 0
  extraLog := false

/-- `fprintf(log_file, "%s", log_buffer)`. Without a log file the buffer stays as it is. -/
def printfInFile (s : State) : State :=
  match s.logFile with
  | some name =>
    { s with
      disk := { s.disk with
        files := Function.update s.disk.files name (s.disk.files name ++ s.buffer) }
      buffer := [] }
  | none => s

/-- `sprintf(buf_pos, ..)`; text that does not fit with its final zero is written past the end
of `log_buffer`. -/
def sprintf (s : State) (message : List Text) : Option State :=
  let text := unlines message
  if s.buffer.length + text.length < bufferSize then some { s with buffer := s.buffer ++ text }
  else none

def printfIfFull (s : State) : State :=
  if bufferSize - s.buffer.length ≤ bufferDeadNumber then printfInFile s else s

/-- `%010.6lf` -/
def showTime (t : Nat) : Text :=
  (decimal (t / 10 ^ 6) ++ '.' :: (decimal (t % 10 ^ 6)).leftpad 6 '0').leftpad 10 '0'

def stamp (t : Nat) (text : Text) : Text := "[".toList ++ showTime t ++ "] ".toList ++ text

/-- `%lu` -/
def lu (x : UInt64) : Text := decimal x.toNat

/-- A message is a list of lines; `\n` ends each of them. -/
def usedSpace (used limit : UInt64) : List Text :=
  ["\tUsed space: ".toList ++ lu used ++ "/".toList ++ lu limit ++ " bytes.".toList]

def usage (s : State) : List Text :=
  usedSpace s.memoryUsed s.memoryLimit ++
  ["\tNumber of objects: ".toList ++ lu s.objectCount ++ ".".toList,
    "\tFree space: ".toList ++ lu (s.memoryLimit - s.memoryUsed) ++ "/".toList ++
      lu s.memoryLimit ++ " bytes.".toList]

/-- The message for the objects that have been counted: their size is taken to be the last one. -/
def newObjects (s : State) (t : Nat) : List Text :=
  stamp t ("OK. New objects with total size ".toList ++
    lu (s.lastObjectSize * UInt64.ofNat s.newObjectsCount) ++ " bytes (count: ".toList ++
    decimal s.newObjectsCount ++ ", size of one object: ".toList ++ lu s.lastObjectSize ++
    ").".toList) :: usage s

def newObject (s : State) (t : Nat) : List Text :=
  stamp t ("OK. New object of size ".toList ++ lu s.lastObjectSize ++ " bytes.".toList) :: usage s

def memoryLimitSet (s : State) (t : Nat) : List Text :=
  [stamp t ("User memory limit set: ".toList ++ lu s.memoryLimit ++ " bytes.".toList)]

def limitExceeded (s : State) (t : Nat) : List Text :=
  [stamp t ("Denied: memory limit exceeded. Free space: ".toList ++
    lu (s.memoryLimit - s.memoryUsed) ++ "/".toList ++ lu s.memoryLimit ++ " bytes.".toList)]

/-- `kind` is `Mark` or `Sweep`. -/
def stageStarted (kind : Text) (t stage : Nat) : List Text :=
  [stamp t (kind ++ " stage ".toList ++ decimal stage ++ " started.".toList)]

def markCompleted (s : State) (t : Nat) : List Text :=
  [stamp t ("Mark stage ".toList ++ decimal s.markStageCount ++
      " completed. Objects collected: ".toList ++ lu (s.objectCount - s.markedObjects) ++
      ".".toList),
    "\t".toList ++ lu (s.memoryUsed - s.mSize) ++ " bytes of memory were freed.".toList] ++
  usedSpace s.mSize s.memoryLimit

def sweepCompleted (s : State) (t : Nat) : List Text :=
  [stamp t ("Sweep stage ".toList ++ decimal s.sweepStageCount ++ " completed.".toList)]

/-- `now` is the time in a message's own arguments, `later` that of the message on counted objects
that may have to come before it. -/
structure Times where
  now : Nat
  later : Nat

/-- The first half of `add_log_line`. -/
def printCounted (s : State) (later : Nat) : Option State :=
  if s.newObjectsCount ≠ 0 ∧ s.extraLog = false then
    (sprintf s (newObjects s later)).map fun s =>
      { printfIfFull s with prevObjectSize := -1, newObjectsCount := 0 }
  else some s

def addLogLine (s : State) (later : Nat) (message : List Text) : Option State := do
  let s ← printCounted s later
  let s ← sprintf s message
  some (printfIfFull { s with extraLog := false })

def logNewObject (s : State) (t : Times) : Option State :=
  (if s.lastObjectSize ≠ s.prevObjectSize ∧ s.prevObjectSize ≠ -1 then
    (addLogLine { s with extraLog := true } t.later (newObjects s t.now)).map fun s =>
      { s with newObjectsCount := 0 }
  else some s).map fun s =>
    { s with newObjectsCount := s.newObjectsCount + 1, prevObjectSize := s.lastObjectSize }

def setMemoryLimit (s : State) (t : Times) (heapSize percent : UInt64) : Option State :=
  let s := { s with memoryLimit := heapSize * percent / 100 }
  addLogLine s t.later (memoryLimitSet s t.now)

def checkTheSpace (s : State) (t : Times) (objectSize : UInt64) : Option (State × LogResult) :=
  let s := { s with lastObjectSize := objectSize }
  if s.memoryUsed + objectSize > s.memoryLimit then
    (addLogLine s t.later (limitExceeded s t.now)).map fun s => (s, .error)
  else some (s, .ok)

/-- The two loops over the digits of the build number. -/
def digitsBefore : Nat → Nat → Text → Text
  | 0, _, name => name
  | fuel + 1, n, name =>
    if n = 0 then name else digitsBefore fuel (n / 10) (Nat.digitChar (n % 10) :: name)

/-- The number of this build: what `build_count.log` says afterwards. -/
def Disk.nextBuild (d : Disk) : Nat :=
  match d.buildCount with
  | none => 1
  | some last => last + 1

/-- The log file gets the number of the build as its name. There is no result when
`last_build_number` overflows or the name does not fit into `log_file_name` with its final zero. -/
def openLogFile (s : State) : Option State :=
  let build := s.disk.nextBuild
  let name := digitsBefore build build ".log".toList
  if build < 2 ^ 31 ∧ name.length < fileNameSize then
    some { s with
      disk := { s.disk with buildCount := some build }
      logFile := if s.writable = true then some name else none }
  else none

def log (fl : Bool) (s : State) (t : Times) : LogType → LogResult → Option State
  | .initAllocator, .start =>
    (openLogFile s).bind fun s =>
      addLogLine s t.later ["[000.000000] Start of allocator initialization.".toList]
  | .initAllocator, .bError =>
    addLogLine s t.later [stamp t.now "Can't allocate BIG_allocator's heap!".toList]
  | .initAllocator, .error =>
    addLogLine s t.later [stamp t.now "Can't allocate allocator's heap!".toList]
  | .initAllocator, .ok =>
    addLogLine s t.later [stamp t.now "Allocator initialized.".toList]
  | .destroyAllocator, .bError =>
    addLogLine s t.later [stamp t.now "Can't unmap BIG_heap!".toList]
  | .destroyAllocator, .error =>
    addLogLine s t.later [stamp t.now "Can't unmap heap!".toList]
  | .destroyAllocator, .ok =>
    -- `buf_pos` is compared with `log_file` and not with `log_buffer`: always different
    (addLogLine s t.later [stamp t.now "Allocator destroyed.".toList]).map printfInFile
  | .allocateNewObject, .error =>
    addLogLine s t.later [stamp t.now "Denied: size of object is too large.".toList]
  | .allocateNewObject, .bHeapError =>
    addLogLine s t.later [stamp t.now "No memory in BIG heap!".toList]
  | .allocateNewObject, .heapError =>
    addLogLine s t.later [stamp t.now "No memory in small heap!".toList]
  | .allocateNewObject, .ok =>
    let s := { s with
      objectCount := s.objectCount + 1
      memoryUsed := s.memoryUsed + s.lastObjectSize }
    if fl = true then addLogLine s t.later (newObject s t.now) else logNewObject s t
  | .mark, .start =>
    let s := { s with markStageCount := s.markStageCount + 1 }
    (addLogLine s t.later (stageStarted "Mark".toList t.now s.markStageCount)).map fun s =>
      { s with markedObjects := 0 }
  | .mark, .alive => some { s with markedObjects := s.markedObjects + 1 }
  | .mark, .ok =>
    (addLogLine s t.later (markCompleted s t.now)).map fun s =>
      { s with objectCount := s.markedObjects, memoryUsed := s.mSize, mSize := 0 }
  | .sweep, .start =>
    let s := { s with sweepStageCount := s.sweepStageCount + 1 }
    addLogLine s t.later (stageStarted "Sweep".toList t.now s.sweepStageCount)
  | .sweep, .ok => addLogLine s t.later (sweepCompleted s t.now)
  | .other, .oEmptyBlock =>
    addLogLine s t.later [stamp t.now "No empty blocks in garbage collector!".toList]
  | .other, .oHeader =>
    addLogLine s t.later [stamp t.now "No empty headers in garbage collector!".toList]
  | _, _ => some s

def logMarkAlive (fl : Bool) (s : State) (t : Times) (objectSize : UInt64) : Option State :=
  log fl { s with mSize := s.mSize + objectSize } t .mark .alive

inductive Call where
  | log (type : LogType) (result : LogResult)
  | setMemoryLimit (heapSize percent : UInt64)
  | checkTheSpace (objectSize : UInt64)
  | logMarkAlive (objectSize : UInt64)

/-- A call of the logger by the collector. -/
def step (fl : Bool) (s : State) : Call × Times → Option State
  | (.log type result, t) => log fl s t type result
  | (.setMemoryLimit heapSize percent, t) => setMemoryLimit s t heapSize percent
  | (.checkTheSpace objectSize, t) => (checkTheSpace s t objectSize).map Prod.fst
  | (.logMarkAlive objectSize, t) => logMarkAlive fl s t objectSize

/-- What has been written to the log file or is about to be. -/
def State.written (s : State) (name : Text) : Text := s.disk.files name ++ s.buffer

/-- `s'` has gone on from `s` by writing `text` to the log file `name`. -/
structure Wrote (name : Text) (s s' : State) (text : Text) : Prop where
  written : s'.written name = s.written name ++ text
  others : ∀ other, other ≠ name → s'.disk.files other = s.disk.files other
  buildCount : s'.disk.buildCount = s.disk.buildCount
  logFile : s'.logFile = s.logFile
  stages : s'.markStageCount = s.markStageCount ∧ s'.sweepStageCount = s.sweepStageCount
  objects : s'.objectCount = s.objectCount ∧ s'.markedObjects = s.markedObjects
  counted : s'.newObjectsCount ≤ s.newObjectsCount

/-- The log file is open and there is room for a message. -/
structure Ready (name : Text) (s : State) : Prop where
  logFile : s.logFile = some name
  room : s.buffer.length + bufferDeadNumber < bufferSize

/-- The message on counted objects that comes before the next one. -/
def pending (s : State) (later : Nat) : List Text :=
  if s.newObjectsCount ≠ 0 ∧ s.extraLog = false then newObjects s later else []

section Writing

variable {name : Text} {s s' s'' : State} {text text' : Text}

theorem Wrote.trans (h : Wrote name s s' text) (h' : Wrote name s' s'' text') :
    Wrote name s s'' (text ++ text') where
  written := by rw [h'.written, h.written, List.append_assoc]
  others := fun other ho => (h'.others other ho).trans (h.others other ho)
  buildCount := h'.buildCount.trans h.buildCount
  logFile := h'.logFile.trans h.logFile
  stages := ⟨h'.stages.1.trans h.stages.1, h'.stages.2.trans h.stages.2⟩
  objects := ⟨h'.objects.1.trans h.objects.1, h'.objects.2.trans h.objects.2⟩
  counted := h'.counted.trans h.counted

theorem printfInFile_wrote (h : s.logFile = some name) : Wrote name s (printfInFile s) [] := by
  simp only [printfInFile, h]
  constructor
  · simp [State.written]
  · intro other ho
    exact Function.update_of_ne ho _ _
  · rfl
  · exact h.symm
  · exact ⟨rfl, rfl⟩
  · exact ⟨rfl, rfl⟩
  · exact le_refl _

theorem printfIfFull_wrote (h : s.logFile = some name) :
    Wrote name s (printfIfFull s) [] ∧ Ready name (printfIfFull s) := by
  rw [printfIfFull]
  split
  · have hprint := printfInFile_wrote h
    refine ⟨hprint, hprint.logFile.trans h, ?_⟩
    simp [printfInFile, h, bufferDeadNumber, bufferSize]
  · rename_i hfree
    refine ⟨⟨by simp, fun _ _ => rfl, rfl, rfl, ⟨rfl, rfl⟩, ⟨rfl, rfl⟩, le_refl _⟩, h, ?_⟩
    omega

/-- A message is put behind the text in the buffer. -/
theorem sprintf_wrote (h : Ready name s) {message : List Text}
    (hfits : (unlines message).length ≤ bufferDeadNumber) :
    ∃ s', sprintf s message = some s' ∧ Wrote name s s' (unlines message) := by
  have hroom := h.room
  refine ⟨{ s with buffer := s.buffer ++ unlines message }, if_pos (by omega), ?_⟩
  exact ⟨by simp [State.written], fun _ _ => rfl, rfl, rfl, ⟨rfl, rfl⟩, ⟨rfl, rfl⟩, le_refl _⟩

/-- What `Wrote` speaks of does not depend on the last sizes and on the flag. -/
theorem Wrote.uncounted (h : Wrote name s s' text) (prev : UInt64) (count : Nat) (extra : Bool)
    (hcount : count ≤ s.newObjectsCount) :
    Wrote name s { s' with
      prevObjectSize := prev, newObjectsCount := count, extraLog := extra } text :=
  ⟨h.written, h.others, h.buildCount, h.logFile, h.stages, h.objects, hcount⟩

theorem printCounted_wrote (h : Ready name s) {later : Nat}
    (hfits : (unlines (pending s later)).length ≤ bufferDeadNumber) :
    ∃ s', printCounted s later = some s' ∧ Ready name s' ∧
      Wrote name s s' (unlines (pending s later)) := by
  rw [printCounted]
  by_cases hcount : s.newObjectsCount ≠ 0 ∧ s.extraLog = false
  · rw [pending, if_pos hcount] at hfits ⊢
    obtain ⟨t, ht, hwrote⟩ := sprintf_wrote h hfits
    obtain ⟨hprint, hready⟩ := printfIfFull_wrote (hwrote.logFile.trans h.logFile)
    have hboth := (hwrote.trans hprint).uncounted (-1) 0 (printfIfFull t).extraLog (Nat.zero_le _)
    rw [List.append_nil] at hboth
    rw [if_pos hcount, ht]
    exact ⟨_, rfl, ⟨hready.logFile, hready.room⟩, hboth⟩
  · rw [pending, if_neg hcount, if_neg hcount]
    exact ⟨s, rfl, h, by simp, fun _ _ => rfl, rfl, rfl, ⟨rfl, rfl⟩, ⟨rfl, rfl⟩, le_refl _⟩

/-- After every message there is room for the next one. -/
theorem addLogLine_wrote (h : Ready name s) {later : Nat} {message : List Text}
    (hpending : (unlines (pending s later)).length ≤ bufferDeadNumber)
    (hfits : (unlines message).length ≤ bufferDeadNumber) :
    ∃ s', addLogLine s later message = some s' ∧ Ready name s' ∧
      Wrote name s s' (unlines (pending s later ++ message)) := by
  obtain ⟨t, ht, hready, hfirst⟩ := printCounted_wrote h hpending
  obtain ⟨u, hu, hsecond⟩ := sprintf_wrote hready hfits
  have hwrote := hfirst.trans
    (hsecond.uncounted u.prevObjectSize u.newObjectsCount false hsecond.counted)
  obtain ⟨hprint, hlast⟩ := printfIfFull_wrote (hwrote.logFile.trans h.logFile)
  have hall := hwrote.trans hprint
  rw [List.append_nil, ← unlines_append] at hall
  refine ⟨_, ?_, hlast, hall⟩
  rw [addLogLine, ht, Option.bind_eq_bind, Option.bind_some, hu]
  rfl

end Writing

theorem length_lu (x : UInt64) : (lu x).length ≤ 20 :=
  length_decimal_le (by decide) (x.toNat_lt.trans (by decide))

/-- The digits of an `int`. -/
theorem length_int {k : Nat} (h : k < 2 ^ 31) : (decimal k).length ≤ 10 :=
  length_decimal_le (by decide) (h.trans (by decide))

theorem length_showTime {t : Nat} (h : t < 2 ^ 52) : (showTime t).length ≤ 17 := by
  have hwhole : (decimal (t / 10 ^ 6)).length ≤ 10 := length_decimal_le (by decide) (by omega)
  have hfraction : (decimal (t % 10 ^ 6)).length ≤ 6 := length_decimal_le (by decide) (by omega)
  simp only [showTime, List.length_leftpad, List.length_append, List.length_cons]
  omega

theorem length_stamp {t : Nat} (h : t < 2 ^ 52) (text : Text) :
    (stamp t text).length ≤ 20 + text.length := by
  have htime := length_showTime h
  simp [stamp]
  omega

theorem length_usedSpace (used limit : UInt64) : (unlines (usedSpace used limit)).length ≤ 62 := by
  have hused := length_lu used
  have hlimit := length_lu limit
  simp [usedSpace]
  omega

theorem length_usage (s : State) : (unlines (usage s)).length ≤ 166 := by
  have hspace := length_usedSpace s.memoryUsed s.memoryLimit
  have hobjects := length_lu s.objectCount
  have hfree := length_lu (s.memoryLimit - s.memoryUsed)
  have hlimit := length_lu s.memoryLimit
  simp [usage, unlines_append]
  omega

section Fits

variable (s : State) {t : Nat}

theorem fits_stamp (ht : t < 2 ^ 52) {text : Text} (h : text.length ≤ 312) :
    (unlines [stamp t text]).length ≤ bufferDeadNumber := by
  have hstamp := length_stamp ht text
  simp [bufferDeadNumber]
  omega

theorem fits_newObjects (ht : t < 2 ^ 52) (hc : s.newObjectsCount < 2 ^ 31) :
    (unlines (newObjects s t)).length ≤ bufferDeadNumber := by
  have hcount := length_int hc
  have htotal := length_lu (s.lastObjectSize * UInt64.ofNat s.newObjectsCount)
  have hsize := length_lu s.lastObjectSize
  have husage := length_usage s
  have htime := length_showTime ht
  simp [newObjects, stamp, bufferDeadNumber]
  omega

theorem fits_newObject (ht : t < 2 ^ 52) :
    (unlines (newObject s t)).length ≤ bufferDeadNumber := by
  have hsize := length_lu s.lastObjectSize
  have husage := length_usage s
  have htime := length_showTime ht
  simp [newObject, stamp, bufferDeadNumber]
  omega

theorem fits_memoryLimitSet (ht : t < 2 ^ 52) :
    (unlines (memoryLimitSet s t)).length ≤ bufferDeadNumber := by
  have hlimit := length_lu s.memoryLimit
  exact fits_stamp ht (by simp; omega)

theorem fits_limitExceeded (ht : t < 2 ^ 52) :
    (unlines (limitExceeded s t)).length ≤ bufferDeadNumber := by
  have hfree := length_lu (s.memoryLimit - s.memoryUsed)
  have hlimit := length_lu s.memoryLimit
  exact fits_stamp ht (by simp; omega)

theorem fits_stageStarted {kind : Text} (hkind : kind.length ≤ 5) (ht : t < 2 ^ 52) {stage : Nat}
    (hs : stage < 2 ^ 31) : (unlines (stageStarted kind t stage)).length ≤ bufferDeadNumber := by
  have hstage := length_int hs
  exact fits_stamp ht (by simp; omega)

theorem fits_markCompleted (ht : t < 2 ^ 52) (hs : s.markStageCount < 2 ^ 31) :
    (unlines (markCompleted s t)).length ≤ bufferDeadNumber := by
  have hstage := length_int hs
  have hobjects := length_lu (s.objectCount - s.markedObjects)
  have hfreed := length_lu (s.memoryUsed - s.mSize)
  have hspace := length_usedSpace s.mSize s.memoryLimit
  have htime := length_showTime ht
  simp [markCompleted, stamp, bufferDeadNumber]
  omega

theorem fits_sweepCompleted (ht : t < 2 ^ 52) (hs : s.sweepStageCount < 2 ^ 31) :
    (unlines (sweepCompleted s t)).length ≤ bufferDeadNumber := by
  have hstage := length_int hs
  exact fits_stamp ht (by simp; omega)

theorem fits_pending (ht : t < 2 ^ 52) (hc : s.newObjectsCount < 2 ^ 31) :
    (unlines (pending s t)).length ≤ bufferDeadNumber := by
  rw [pending]
  split
  · exact fits_newObjects s ht hc
  · exact Nat.zero_le _

end Fits

end GarbageCollector.Logger
