import GarbageCollector.Logger

/-!
# The graph of a run

`parse_file` of `graph.py` reads a log file back: the time that each mark and each sweep stage
took, and the number of objects that each mark stage found dead. `float` is a parameter.
-/

namespace GarbageCollector.LogGraph

open TextScan Logger

/-- `\w` in a text of ASCII characters. -/
def isWord (c : Char) : Bool := c.isAlphanum || c = '_'

inductive Status where
  | started
  | completed
  deriving DecidableEq, Repr

/-- `.` -/
def anyChar : Text → Option Text
  | [] => none
  | _ :: cs => some cs

/-- `\[(\d+\.\d+)\] ` -/
def timePrefix (line : Text) : Option (Text × Text) := do
  let cs ← literal "[".toList line
  let (whole, cs) ← run Char.isDigit cs
  let cs ← literal ".".toList cs
  let (fraction, cs) ← run Char.isDigit cs
  let cs ← literal "] ".toList cs
  some (whole ++ '.' :: fraction, cs)

/-- `(started|completed).` -/
def statusPattern (cs : Text) : Option Status :=
  match literal "started".toList cs with
  | some cs => (anyChar cs).map fun _ => .started
  | none => ((literal "completed".toList cs).bind anyChar).map fun _ => .completed

/-- `(\w+) stage (\d+) (started|completed).` -/
def stagePattern (cs : Text) : Option (Text × Nat × Status) := do
  let (kind, cs) ← run isWord cs
  let cs ← literal " stage ".toList cs
  let (stage, cs) ← run Char.isDigit cs
  let cs ← literal " ".toList cs
  let status ← statusPattern cs
  some (kind, number stage, status)

/-- `(\d+).`: where no character follows, the last digit stands for it. -/
def numberAndAny (cs : Text) : Option Nat := do
  let (digits, cs) ← run Char.isDigit cs
  if cs ≠ [] then some (number digits)
  else if digits.dropLast ≠ [] then some (number digits.dropLast)
  else none

/-- `Mark stage (\d+) completed. Objects collected: (\d+).` -/
def objectsPattern (cs : Text) : Option (Nat × Nat) := do
  let cs ← literal "Mark stage ".toList cs
  let (stage, cs) ← run Char.isDigit cs
  let cs ← literal " completed".toList cs
  let cs ← anyChar cs
  let cs ← literal " Objects collected: ".toList cs
  let objects ← numberAndAny cs
  some (number stage, objects)

/-- The lists and dictionaries of `parse_file`. -/
structure Parsed (F : Type*) where
  markDurations : List (Nat × F)
  sweepDurations : List (Nat × F)
  markObjectsCollected : Nat → Option Nat
  markStartTimes : Nat → Option F
  sweepStartTimes : Nat → Option F

variable {F : Type*} [Sub F]

def Parsed.empty : Parsed F where
  markDurations := []
  sweepDurations := []
  markObjectsCollected := fun _ => none
  markStartTimes := fun _ => none
  sweepStartTimes := fun _ => none

def recordMark (p : Parsed F) (time : F) (stage : Nat) : Status → Parsed F
  | .started => { p with markStartTimes := Function.update p.markStartTimes stage (some time) }
  | .completed =>
    match p.markStartTimes stage with
    | some start => { p with markDurations := p.markDurations ++ [(stage, time - start)] }
    | none => p

def recordSweep (p : Parsed F) (time : F) (stage : Nat) : Status → Parsed F
  | .started => { p with sweepStartTimes := Function.update p.sweepStartTimes stage (some time) }
  | .completed =>
    match p.sweepStartTimes stage with
    | some start => { p with sweepDurations := p.sweepDurations ++ [(stage, time - start)] }
    | none => p

def recordStage (p : Parsed F) (time : F) (kind : Text) (stage : Nat) (status : Status) :
    Parsed F :=
  if kind = "Mark".toList then recordMark p time stage status
  else if kind = "Sweep".toList then recordSweep p time stage status
  else p

def recordObjects (p : Parsed F) (stage objects : Nat) : Parsed F :=
  { p with
    markObjectsCollected := Function.update p.markObjectsCollected stage (some objects) }

/-- The body of the loop over the lines: each pattern is tried. -/
def parseLine (float : Text → F) (p : Parsed F) (line : Text) : Parsed F :=
  match timePrefix line with
  | none => p
  | some (time, cs) =>
    let p := match stagePattern cs with
      | some (kind, stage, status) => recordStage p (float time) kind stage status
      | none => p
    match objectsPattern cs with
    | some (stage, objects) => recordObjects p stage objects
    | none => p

def parseFile (float : Text → F) (file : Text) : Parsed F :=
  (lines file).foldl (parseLine float) .empty

theorem newline_decimal (n : Nat) : '\n' ∉ decimal n := fun h => by
  have hdigit := isDigit_of_mem_decimal h
  simp at hdigit

theorem isDigit_of_mem_leftpad {w n : Nat} {c : Char} (h : c ∈ (decimal n).leftpad w '0') :
    c.isDigit = true := by
  rw [List.leftpad, List.mem_append] at h
  rcases h with hzero | hdigit
  · rw [List.eq_of_mem_replicate hzero]
    rfl
  · exact isDigit_of_mem_decimal hdigit

theorem showTime_digits (t : Nat) : ∃ whole fraction, showTime t = whole ++ '.' :: fraction ∧
    whole ≠ [] ∧ fraction ≠ [] ∧ (∀ c ∈ whole, c.isDigit = true) ∧
    ∀ c ∈ fraction, c.isDigit = true := by
  let fraction := (decimal (t % 10 ^ 6)).leftpad 6 '0'
  let zeros := List.replicate (10 - (decimal (t / 10 ^ 6) ++ '.' :: fraction).length) '0'
  refine ⟨zeros ++ decimal (t / 10 ^ 6), fraction, ?_, ?_, ?_, ?_, ?_⟩
  · rw [showTime, List.leftpad, List.append_assoc]
  · simp [decimal_ne_nil]
  · simp [fraction, List.leftpad, decimal_ne_nil]
  · intro c hc
    rw [List.mem_append] at hc
    rcases hc with hzero | hdigit
    · rw [List.eq_of_mem_replicate hzero]
      rfl
    · exact isDigit_of_mem_decimal hdigit
  · intro c hc
    exact isDigit_of_mem_leftpad hc

theorem newline_showTime (t : Nat) : '\n' ∉ showTime t := by
  obtain ⟨whole, fraction, he, -, -, hwhole, hfraction⟩ := showTime_digits t
  intro hmem
  rw [he, List.mem_append, List.mem_cons] at hmem
  rcases hmem with hc | hc | hc
  · have hdigit := hwhole _ hc
    simp at hdigit
  · simp at hc
  · have hdigit := hfraction _ hc
    simp at hdigit

theorem timePrefix_stamp (t : Nat) (text : Text) :
    timePrefix (stamp t text) = some (showTime t, text) := by
  obtain ⟨whole, fraction, he, hne, hne', hwhole, hfraction⟩ := showTime_digits t
  have hfirst : run Char.isDigit (whole ++ ('.' :: (fraction ++ ("] ".toList ++ text)))) =
      some (whole, '.' :: (fraction ++ ("] ".toList ++ text))) :=
    run_append hne hwhole (by simp)
  have hsecond : run Char.isDigit (fraction ++ ("] ".toList ++ text)) =
      some (fraction, "] ".toList ++ text) :=
    run_append hne' hfraction (by simp)
  have hstamp : stamp t text =
      "[".toList ++ (whole ++ ('.' :: (fraction ++ ("] ".toList ++ text)))) := by
    simp [stamp, he]
  rw [timePrefix, hstamp, literal_append, Option.bind_eq_bind, Option.bind_some, hfirst,
    Option.bind_eq_bind, Option.bind_some]
  show (literal ".".toList (".".toList ++ (fraction ++ ("] ".toList ++ text)))).bind _ = _
  rw [literal_append, Option.bind_some, hsecond, Option.bind_some, he]
  show (literal "] ".toList ("] ".toList ++ text)).bind _ = _
  rw [literal_append, Option.bind_some]

/-- A line that neither pattern matches. -/
def Ignored (line : Text) : Prop :=
  '\n' ∉ line ∧ ∀ time cs, timePrefix line = some (time, cs) →
    stagePattern cs = none ∧ objectsPattern cs = none

theorem ignored_stamp {t : Nat} {text : Text} (hnewline : '\n' ∉ text)
    (hstage : stagePattern text = none) (hobjects : objectsPattern text = none) :
    Ignored (stamp t text) := by
  constructor
  · simp [stamp, newline_showTime, hnewline]
  · intro time cs htime
    rw [timePrefix_stamp] at htime
    cases htime
    exact ⟨hstage, hobjects⟩

theorem ignored_tab {text : Text} (htab : text.head? = some '\t') (hnewline : '\n' ∉ text) :
    Ignored text := by
  refine ⟨hnewline, fun time cs htime => ?_⟩
  cases text with
  | nil => cases htab
  | cons c text =>
    cases htab
    simp [timePrefix, literal] at htime

theorem Ignored.parse {float : Text → F} {line : Text} (h : Ignored line) (p : Parsed F) :
    parseLine float p line = p := by
  rw [parseLine]
  cases htime : timePrefix line with
  | none => rfl
  | some m =>
    obtain ⟨hstage, hobjects⟩ := h.2 m.1 m.2 htime
    simp only [hstage, hobjects]

section Messages

variable (s : State) (t : Nat)

theorem ignored_usedSpace (used limit : UInt64) :
    ∀ line ∈ usedSpace used limit, Ignored line := by
  intro line hline
  rw [List.mem_singleton.mp hline]
  exact ignored_tab (by simp) (by simp [lu, newline_decimal])

theorem ignored_usage : ∀ line ∈ usage s, Ignored line := by
  intro line hline
  simp only [usage, List.mem_append, List.mem_cons, List.not_mem_nil, or_false] at hline
  rcases hline with hline | rfl | rfl
  · exact ignored_usedSpace _ _ line hline
  · exact ignored_tab (by simp) (by simp [lu, newline_decimal])
  · exact ignored_tab (by simp) (by simp [lu, newline_decimal])

theorem ignored_newObjects : ∀ line ∈ newObjects s t, Ignored line := by
  intro line hline
  rcases List.mem_cons.mp hline with rfl | hline
  · exact ignored_stamp (by simp [lu, newline_decimal]) rfl rfl
  · exact ignored_usage s line hline

theorem ignored_newObject : ∀ line ∈ newObject s t, Ignored line := by
  intro line hline
  rcases List.mem_cons.mp hline with rfl | hline
  · exact ignored_stamp (by simp [lu, newline_decimal]) rfl rfl
  · exact ignored_usage s line hline

theorem ignored_memoryLimitSet : ∀ line ∈ memoryLimitSet s t, Ignored line := by
  intro line hline
  rw [memoryLimitSet, List.mem_singleton] at hline
  rw [hline]
  exact ignored_stamp (by simp [lu, newline_decimal]) rfl rfl

theorem ignored_limitExceeded : ∀ line ∈ limitExceeded s t, Ignored line := by
  intro line hline
  rw [limitExceeded, List.mem_singleton] at hline
  rw [hline]
  exact ignored_stamp (by simp [lu, newline_decimal]) rfl rfl

end Messages

section Patterns

theorem stagePattern_append {kind rest : Text} {status : Status} (hne : kind ≠ [])
    (hword : kind.all isWord = true) (k : Nat) (hstatus : statusPattern rest = some status) :
    stagePattern (kind ++ (" stage ".toList ++ (decimal k ++ (" ".toList ++ rest)))) =
      some (kind, k, status) := by
  have hblank : isWord ' ' = false := by decide
  have hkind : run isWord (kind ++ (" stage ".toList ++ (decimal k ++ (" ".toList ++ rest)))) =
      some (kind, " stage ".toList ++ (decimal k ++ (" ".toList ++ rest))) :=
    run_append hne (List.all_eq_true.mp hword) (by simpa using hblank)
  have hstage : run Char.isDigit (decimal k ++ (" ".toList ++ rest)) =
      some (decimal k, " ".toList ++ rest) :=
    run_decimal k (by simp)
  simp only [stagePattern, hkind, hstage, literal_append, hstatus, number_decimal,
    Option.bind_eq_bind, Option.bind_some]

theorem objectsPattern_completed (k n : Nat) :
    objectsPattern ("Mark stage ".toList ++ (decimal k ++
      (" completed. Objects collected: ".toList ++ (decimal n ++ ".".toList)))) = some (k, n) := by
  have hobjects : numberAndAny (decimal n ++ ".".toList) = some n := by
    rw [numberAndAny, run_decimal n (by simp)]
    simp [number_decimal]
  have hsplit : " completed. Objects collected: ".toList ++ (decimal n ++ ".".toList) =
      " completed".toList ++
        ('.' :: (" Objects collected: ".toList ++ (decimal n ++ ".".toList))) := by
    simp
  have hstage : run Char.isDigit (decimal k ++ (" completed".toList ++
      ('.' :: (" Objects collected: ".toList ++ (decimal n ++ ".".toList))))) = some (decimal k,
      " completed".toList ++
        ('.' :: (" Objects collected: ".toList ++ (decimal n ++ ".".toList)))) :=
    run_decimal k (by simp)
  simp only [hsplit, objectsPattern, literal_append, hstage, Option.bind_eq_bind, Option.bind_some,
    anyChar, hobjects, number_decimal]

theorem objectsPattern_started (k : Nat) (rest : Text) :
    objectsPattern ("Mark stage ".toList ++ (decimal k ++ (" started.".toList ++ rest))) =
      none := by
  have hstage : run Char.isDigit (decimal k ++ (" started.".toList ++ rest)) =
      some (decimal k, " started.".toList ++ rest) :=
    run_decimal k (by simp)
  simp only [objectsPattern, literal_append, hstage, Option.bind_eq_bind, Option.bind_some]
  rfl

theorem stagePattern_started {kind : Text} (hne : kind ≠ [])
    (hword : kind.all isWord = true) (k : Nat) :
    stagePattern (kind ++ " stage ".toList ++ decimal k ++ " started.".toList) =
      some (kind, k, .started) := by
  have hsplit : kind ++ " stage ".toList ++ decimal k ++ " started.".toList =
      kind ++ (" stage ".toList ++ (decimal k ++ (" ".toList ++ "started.".toList))) := by simp
  have hstatus : statusPattern "started.".toList = some .started := by decide
  rw [hsplit, stagePattern_append hne hword k hstatus]

end Patterns

section Messages

variable (float : Text → F) (s : State) (t k : Nat) (p : Parsed F)

/-- A message without a stage in it. -/
theorem reads_ignored {message : List Text} (h : ∀ line ∈ message, Ignored line) :
    Reads (parseLine float) p (unlines message) p := by
  have hreads : Reads (parseLine float) p (unlines message) (message.foldl (parseLine float) p) :=
    Reads.unlines fun line hline => (h line hline).1
  have hsame : message.foldl (parseLine float) p = p := by
    induction message with
    | nil => rfl
    | cons line message ih =>
      rw [List.foldl_cons, (h line List.mem_cons_self).parse]
      exact ih (fun l hl => h l (List.mem_cons_of_mem line hl))
        (Reads.unlines fun l hl => (h l (List.mem_cons_of_mem line hl)).1)
  rwa [hsame] at hreads

theorem reads_single {line : Text} {p' : Parsed F} (hnewline : '\n' ∉ line)
    (hparse : parseLine float p line = p') : Reads (parseLine float) p (unlines [line]) p' := by
  have hreads : Reads (parseLine float) p (unlines [line]) ([line].foldl (parseLine float) p) :=
    Reads.unlines (by simpa using hnewline)
  rwa [List.foldl_cons, List.foldl_nil, hparse] at hreads

theorem parse_stamp (text : Text) : parseLine float p (stamp t text) =
    (let p := match stagePattern text with
      | some (kind, stage, status) => recordStage p (float (showTime t)) kind stage status
      | none => p
    match objectsPattern text with
    | some (stage, objects) => recordObjects p stage objects
    | none => p) := by
  rw [parseLine, timePrefix_stamp]

theorem reads_markStarted : Reads (parseLine float) p (unlines (stageStarted "Mark".toList t k))
    (recordMark p (float (showTime t)) k .started) := by
  have hobjects : objectsPattern ("Mark".toList ++ " stage ".toList ++ decimal k ++
      " started.".toList) = none := by
    have hsplit : "Mark".toList ++ " stage ".toList ++ decimal k ++ " started.".toList =
        "Mark stage ".toList ++ (decimal k ++ (" started.".toList ++ [])) := by simp
    rw [hsplit, objectsPattern_started]
  refine reads_single float p (by simp [stamp, newline_showTime, newline_decimal]) ?_
  rw [parse_stamp, stagePattern_started (by simp) (by decide), hobjects]
  rfl

theorem reads_sweepStarted : Reads (parseLine float) p (unlines (stageStarted "Sweep".toList t k))
    (recordSweep p (float (showTime t)) k .started) := by
  have hobjects : objectsPattern ("Sweep".toList ++ " stage ".toList ++ decimal k ++
      " started.".toList) = none := rfl
  refine reads_single float p (by simp [stamp, newline_showTime, newline_decimal]) ?_
  rw [parse_stamp, stagePattern_started (by simp) (by decide), hobjects]
  rfl

theorem reads_sweepCompleted : Reads (parseLine float) p (unlines (sweepCompleted s t))
    (recordSweep p (float (showTime t)) s.sweepStageCount .completed) := by
  have hstage : stagePattern ("Sweep stage ".toList ++ decimal s.sweepStageCount ++
      " completed.".toList) = some ("Sweep".toList, s.sweepStageCount, .completed) := by
    have hsplit : "Sweep stage ".toList ++ decimal s.sweepStageCount ++ " completed.".toList =
        "Sweep".toList ++ (" stage ".toList ++ (decimal s.sweepStageCount ++
          (" ".toList ++ "completed.".toList))) := by simp
    have hstatus : statusPattern "completed.".toList = some .completed := by decide
    rw [hsplit, stagePattern_append (by simp) (by decide) _ hstatus]
  have hobjects : objectsPattern ("Sweep stage ".toList ++ decimal s.sweepStageCount ++
      " completed.".toList) = none := rfl
  refine reads_single float p (by simp [stamp, newline_showTime, newline_decimal]) ?_
  rw [parse_stamp, hstage, hobjects]
  rfl

theorem reads_markCompleted : Reads (parseLine float) p (unlines (markCompleted s t))
    (recordObjects (recordMark p (float (showTime t)) s.markStageCount .completed)
      s.markStageCount (s.objectCount - s.markedObjects).toNat) := by
  have hstage : stagePattern ("Mark stage ".toList ++ decimal s.markStageCount ++
      " completed. Objects collected: ".toList ++ lu (s.objectCount - s.markedObjects) ++
      ".".toList) = some ("Mark".toList, s.markStageCount, .completed) := by
    have hsplit : "Mark stage ".toList ++ decimal s.markStageCount ++
        " completed. Objects collected: ".toList ++ lu (s.objectCount - s.markedObjects) ++
        ".".toList = "Mark".toList ++ (" stage ".toList ++ (decimal s.markStageCount ++
          (" ".toList ++ ("completed. Objects collected: ".toList ++
            (lu (s.objectCount - s.markedObjects) ++ ".".toList))))) := by simp
    rw [hsplit, stagePattern_append (by simp) (by decide) _ rfl]
  have hobjects : objectsPattern ("Mark stage ".toList ++ decimal s.markStageCount ++
      " completed. Objects collected: ".toList ++ lu (s.objectCount - s.markedObjects) ++
      ".".toList) = some (s.markStageCount, (s.objectCount - s.markedObjects).toNat) := by
    rw [List.append_assoc, List.append_assoc, List.append_assoc]
    exact objectsPattern_completed _ _
  have hrest : ∀ line ∈ ["\t".toList ++ lu (s.memoryUsed - s.mSize) ++
      " bytes of memory were freed.".toList] ++ usedSpace s.mSize s.memoryLimit, Ignored line := by
    intro line hline
    rcases List.mem_cons.mp hline with rfl | hline
    · exact ignored_tab (by simp) (by simp [lu, newline_decimal])
    · exact ignored_usedSpace _ _ line hline
  rw [markCompleted, List.cons_append, ← List.singleton_append, unlines_append]
  refine Reads.append (reads_single float p
    (by simp [stamp, newline_showTime, newline_decimal, lu]) ?_) (reads_ignored float _ hrest)
  rw [parse_stamp, hstage, hobjects]
  rfl

end Messages

end GarbageCollector.LogGraph
