import GarbageCollector.LogGraph

/-!
# What is logged is what is drawn

Every call of the logger finds room in `log_buffer`, and the reader of the log file follows the
run call by call: it skips what is not about a stage and gets the times and the counts of the
stages right. So the graph of each run of the program shows what happened in it.
-/

namespace GarbageCollector.LogGraph

open TextScan Logger

variable {F : Type*} [Sub F]

/-- The values that the time's text and the counters' digits are exact for. -/
def Exact (t : Times) : Prop := t.now < 2 ^ 52 ∧ t.later < 2 ^ 52

/-- The reader of what has been written to `name` is in state `p`. -/
structure Follows (name : Text) (float : Text → F) (s : State) (p : Parsed F) : Prop where
  ready : Ready name s
  reads : Reads (parseLine float) .empty (s.written name) p

/-- Every call but those of `mark` and `sweep` and the first of all. -/
def between : Call → Bool
  | .log .initAllocator .start => false
  | .log .mark _ => false
  | .log .sweep _ => false
  | .logMarkAlive _ => false
  | _ => true

/-- The number of objects that a call reports. -/
def allocated : Call → UInt64
  | .log .allocateNewObject .ok => 1
  | _ => 0

/-- No file but `name` has been touched. -/
structure Beside (name : Text) (d d' : Disk) : Prop where
  others : ∀ other, other ≠ name → d'.files other = d.files other
  buildCount : d'.buildCount = d.buildCount

/-- The counters after a call that is none of a stage; `news` objects have been reported. -/
structure Went (name : Text) (s s' : State) (news : UInt64) : Prop where
  beside : Beside name s.disk s'.disk
  stages : s'.markStageCount = s.markStageCount ∧ s'.sweepStageCount = s.sweepStageCount
  objects : s'.objectCount = s.objectCount + news
  counted : s'.newObjectsCount ≤ s.newObjectsCount + 1

section Calls

variable {name : Text} {float : Text → F} {s : State} {p p' : Parsed F} {t : Times}

theorem ignored_pending (s : State) (later : Nat) : ∀ line ∈ pending s later, Ignored line := by
  rw [pending]
  split
  · exact ignored_newObjects s later
  · simp

theorem addLogLine_follows (h : Follows name float s p) (hc : s.newObjectsCount < 2 ^ 31)
    {later : Nat} (ht : later < 2 ^ 52) {message : List Text}
    (hfits : (unlines message).length ≤ bufferDeadNumber)
    (hreads : Reads (parseLine float) p (unlines message) p') :
    ∃ s' text, addLogLine s later message = some s' ∧ Follows name float s' p' ∧
      Wrote name s s' text := by
  obtain ⟨s', hs', hready, hwrote⟩ := addLogLine_wrote h.ready (fits_pending s ht hc) hfits
  refine ⟨s', _, hs', ⟨hready, ?_⟩, hwrote⟩
  rw [hwrote.written, unlines_append]
  exact h.reads.append ((reads_ignored float p (ignored_pending s later)).append hreads)

theorem Beside.refl (d : Disk) : Beside name d d := ⟨fun _ _ => rfl, rfl⟩

theorem Beside.trans {d d' d'' : Disk} (h : Beside name d d') (h' : Beside name d' d'') :
    Beside name d d'' :=
  ⟨fun other ho => (h'.others other ho).trans (h.others other ho),
    h'.buildCount.trans h.buildCount⟩

theorem Beside.of_wrote {s s' : State} {text : Text} (h : Wrote name s s' text) :
    Beside name s.disk s'.disk :=
  ⟨h.others, h.buildCount⟩

theorem Went.of_wrote {s s' : State} {text : Text} (h : Wrote name s s' text) :
    Went name s s' 0 :=
  ⟨.of_wrote h, h.stages, by rw [h.objects.1, UInt64.add_zero],
    h.counted.trans (Nat.le_succ _)⟩

theorem Went.wrote {s s' s'' : State} {news : UInt64} {text : Text} (h : Went name s s' news)
    (h' : Wrote name s' s'' text) : Went name s s'' news where
  beside := h.beside.trans (.of_wrote h')
  stages := ⟨h'.stages.1.trans h.stages.1, h'.stages.2.trans h.stages.2⟩
  objects := h'.objects.1.trans h.objects
  counted := h'.counted.trans h.counted

/-- A message that the reader skips. -/
theorem remark_follows (h : Follows name float s p) (hc : s.newObjectsCount < 2 ^ 31)
    {later : Nat} (ht : later < 2 ^ 52) {message : List Text}
    (hfits : (unlines message).length ≤ bufferDeadNumber) (hskip : ∀ line ∈ message, Ignored line) :
    ∃ s', addLogLine s later message = some s' ∧ Follows name float s' p ∧ Went name s s' 0 := by
  obtain ⟨s', text, hs', hfollows, hwrote⟩ :=
    addLogLine_follows h hc ht hfits (reads_ignored float p hskip)
  exact ⟨s', hs', hfollows, .of_wrote hwrote⟩

theorem literal_follows (h : Follows name float s p) (hc : s.newObjectsCount < 2 ^ 31)
    (ht : Exact t) {text : Text} (hlen : text.length ≤ 312) (hnewline : '\n' ∉ text)
    (hstage : stagePattern text = none) (hobjects : objectsPattern text = none) :
    ∃ s', addLogLine s t.later [stamp t.now text] = some s' ∧ Follows name float s' p ∧
      Went name s s' 0 := by
  refine remark_follows h hc ht.2 (fits_stamp ht.1 hlen) fun line hline => ?_
  rw [List.mem_singleton.mp hline]
  exact ignored_stamp hnewline hstage hobjects

theorem printfInFile_follows (h : Follows name float s p) :
    Follows name float (printfInFile s) p ∧
      (printfInFile s).disk.files name = (printfInFile s).written name := by
  have hwrote := printfInFile_wrote h.ready.logFile
  have hempty : (printfInFile s).buffer = [] := by simp [printfInFile, h.ready.logFile]
  refine ⟨⟨⟨hwrote.logFile.trans h.ready.logFile, ?_⟩, ?_⟩, ?_⟩
  · simp [hempty, bufferDeadNumber, bufferSize]
  · rw [hwrote.written, List.append_nil]
    exact h.reads
  · rw [State.written, hempty, List.append_nil]

theorem logNewObject_follows (h : Follows name float s p) (hc : s.newObjectsCount < 2 ^ 31)
    (ht : Exact t) :
    ∃ s', logNewObject s t = some s' ∧ Follows name float s' p ∧ Went name s s' 0 := by
  rw [logNewObject]
  split
  · obtain ⟨u, hu, hfollows, hwent⟩ := remark_follows (s := { s with extraLog := true })
      ⟨⟨h.ready.logFile, h.ready.room⟩, h.reads⟩ hc ht.2 (fits_newObjects s ht.1 hc)
      (ignored_newObjects s t.now)
    rw [hu]
    exact ⟨_, rfl, ⟨⟨hfollows.ready.logFile, hfollows.ready.room⟩, hfollows.reads⟩, hwent.beside,
      hwent.stages, hwent.objects, by simp⟩
  · exact ⟨_, rfl, ⟨⟨h.ready.logFile, h.ready.room⟩, h.reads⟩, .refl _, ⟨rfl, rfl⟩,
      by simp, le_refl _⟩

theorem log_follows (fl : Bool) (h : Follows name float s p) (hc : s.newObjectsCount < 2 ^ 31)
    (ht : Exact t) {type : LogType} {result : LogResult}
    (hcall : between (.log type result) = true) :
    ∃ s', log fl s t type result = some s' ∧ Follows name float s' p ∧
      Went name s s' (allocated (.log type result)) := by
  have hsilent : ∃ s', some s = some s' ∧ Follows name float s' p ∧ Went name s s' 0 :=
    ⟨s, rfl, h, .refl _, ⟨rfl, rfl⟩, by simp, Nat.le_succ _⟩
  cases type with
  | mark | sweep => cases hcall
  | initAllocator =>
    cases result with
    | start => cases hcall
    | bError | error | ok => exact literal_follows h hc ht (by decide) (by decide) rfl rfl
    | _ => exact hsilent
  | destroyAllocator =>
    cases result with
    | bError | error => exact literal_follows h hc ht (by decide) (by decide) rfl rfl
    | ok =>
      obtain ⟨u, hu, hfollows, hwent⟩ : ∃ u, addLogLine s t.later
          [stamp t.now "Allocator destroyed.".toList] = some u ∧ Follows name float u p ∧
          Went name s u 0 :=
        literal_follows h hc ht (by decide) (by decide) rfl rfl
      refine ⟨printfInFile u, ?_, (printfInFile_follows hfollows).1,
        hwent.wrote (printfInFile_wrote hfollows.ready.logFile)⟩
      rw [log, hu]
      rfl
    | _ => exact hsilent
  | other =>
    cases result with
    | oEmptyBlock | oHeader => exact literal_follows h hc ht (by decide) (by decide) rfl rfl
    | _ => exact hsilent
  | allocateNewObject =>
    cases result with
    | error | bHeapError | heapError =>
      exact literal_follows h hc ht (by decide) (by decide) rfl rfl
    | ok =>
      let u : State := { s with
        objectCount := s.objectCount + 1, memoryUsed := s.memoryUsed + s.lastObjectSize }
      have hu : Follows name float u p := ⟨⟨h.ready.logFile, h.ready.room⟩, h.reads⟩
      have hreport : ∃ s', log fl s t .allocateNewObject .ok = some s' ∧ Follows name float s' p ∧
          Went name u s' 0 := by
        cases fl with
        | true =>
          exact remark_follows hu hc ht.2 (fits_newObject u ht.1) (ignored_newObject u t.now)
        | false => exact logNewObject_follows hu hc ht
      obtain ⟨s', hs', hfollows, hwent⟩ := hreport
      refine ⟨s', hs', hfollows, hwent.beside, hwent.stages, ?_, hwent.counted⟩
      rw [hwent.objects, UInt64.add_zero]
      rfl
    | _ => exact hsilent

theorem call_follows (fl : Bool) (h : Follows name float s p) (hc : s.newObjectsCount < 2 ^ 31)
    (ht : Exact t) {call : Call} (hcall : between call = true) :
    ∃ s', step fl s (call, t) = some s' ∧ Follows name float s' p ∧
      Went name s s' (allocated call) := by
  cases call with
  | logMarkAlive size => cases hcall
  | log type result => exact log_follows fl h hc ht hcall
  | setMemoryLimit heapSize percent =>
    let u : State := { s with memoryLimit := heapSize * percent / 100 }
    obtain ⟨s', hs', hfollows, hwent⟩ := remark_follows (s := u)
      ⟨⟨h.ready.logFile, h.ready.room⟩, h.reads⟩ hc ht.2 (fits_memoryLimitSet u ht.1)
      (ignored_memoryLimitSet u t.now)
    exact ⟨s', hs', hfollows, hwent.beside, hwent.stages, hwent.objects,
      hwent.counted⟩
  | checkTheSpace size =>
    simp only [step, checkTheSpace]
    split
    · let u : State := { s with lastObjectSize := size }
      obtain ⟨s', hs', hfollows, hwent⟩ := remark_follows (s := u)
        ⟨⟨h.ready.logFile, h.ready.room⟩, h.reads⟩ hc ht.2 (fits_limitExceeded u ht.1)
        (ignored_limitExceeded u t.now)
      rw [hs']
      exact ⟨s', rfl, hfollows, hwent.beside, hwent.stages, hwent.objects,
        hwent.counted⟩
    · exact ⟨_, rfl, ⟨⟨h.ready.logFile, h.ready.room⟩, h.reads⟩, .refl _, ⟨rfl, rfl⟩,
        by simp [allocated], Nat.le_succ _⟩

end Calls

/-- The calls of one `mark` and one `sweep`; `alive` are the sizes of the objects marked. -/
structure Round where
  markStart : Times
  alive : List (UInt64 × Times)
  markEnd : Times
  sweepStart : Times
  sweepEnd : Times

structure Round.Timely (r : Round) : Prop where
  markStart : Exact r.markStart
  markEnd : Exact r.markEnd
  sweepStart : Exact r.sweepStart
  sweepEnd : Exact r.sweepEnd

def Round.calls (r : Round) : List (Call × Times) :=
  (.log .mark .start, r.markStart) :: (r.alive.map fun a => (.logMarkAlive a.1, a.2)) ++
    [(.log .mark .ok, r.markEnd), (.log .sweep .start, r.sweepStart), (.log .sweep .ok, r.sweepEnd)]

section Stages

variable {name : Text} {float : Text → F} {s : State} {p : Parsed F} {t : Times}

theorem markStart_follows (fl : Bool) (h : Follows name float s p) (hc : s.newObjectsCount < 2 ^ 31)
    (hstage : s.markStageCount + 1 < 2 ^ 31) (ht : Exact t) :
    ∃ s', step fl s (.log .mark .start, t) = some s' ∧
      Follows name float s'
        (recordMark p (float (showTime t.now)) (s.markStageCount + 1) .started) ∧
      Beside name s.disk s'.disk ∧ s'.newObjectsCount ≤ s.newObjectsCount ∧
      s'.markStageCount = s.markStageCount + 1 ∧ s'.sweepStageCount = s.sweepStageCount ∧
      s'.objectCount = s.objectCount ∧ s'.markedObjects = 0 := by
  let u : State := { s with markStageCount := s.markStageCount + 1 }
  have hu : Follows name float u p := ⟨⟨h.ready.logFile, h.ready.room⟩, h.reads⟩
  obtain ⟨s', text, hs', hfollows, hwrote⟩ := addLogLine_follows hu hc ht.2
    (fits_stageStarted (by decide) ht.1 hstage)
    (reads_markStarted float t.now (s.markStageCount + 1) p)
  refine ⟨{ s' with markedObjects := 0 }, ?_, ⟨⟨hfollows.ready.logFile, hfollows.ready.room⟩,
    hfollows.reads⟩, ⟨hwrote.others, hwrote.buildCount⟩, hwrote.counted, hwrote.stages.1,
    hwrote.stages.2, hwrote.objects.1, rfl⟩
  simp only [step, log]
  rw [hs']
  rfl

theorem alive_follows (fl : Bool) (h : Follows name float s p) (alive : List (UInt64 × Times)) :
    ∃ s', (alive.map fun a => (Call.logMarkAlive a.1, a.2)).foldlM (step fl) s = some s' ∧
      Follows name float s' p ∧ Beside name s.disk s'.disk ∧
      s'.newObjectsCount = s.newObjectsCount ∧ s'.markStageCount = s.markStageCount ∧
      s'.sweepStageCount = s.sweepStageCount ∧ s'.objectCount = s.objectCount ∧
      s'.markedObjects = s.markedObjects + UInt64.ofNat alive.length := by
  induction alive generalizing s with
  | nil => exact ⟨s, rfl, h, .refl _, rfl, rfl, rfl, rfl, by simp⟩
  | cons a alive ih =>
    let u : State := { s with mSize := s.mSize + a.1, markedObjects := s.markedObjects + 1 }
    have hu : Follows name float u p := ⟨⟨h.ready.logFile, h.ready.room⟩, h.reads⟩
    obtain ⟨s', hs', hfollows, hbeside, hcount, hmarks, hsweeps, hobjects, hmarked⟩ := ih hu
    refine ⟨s', hs', hfollows, hbeside, hcount, hmarks, hsweeps, hobjects, ?_⟩
    rw [hmarked, List.length_cons, UInt64.ofNat_add]
    show s.markedObjects + 1 + UInt64.ofNat alive.length = _
    rw [UInt64.add_assoc, UInt64.add_comm 1]
    rfl

theorem markEnd_follows (fl : Bool) (h : Follows name float s p) (hc : s.newObjectsCount < 2 ^ 31)
    (hstage : s.markStageCount < 2 ^ 31) (ht : Exact t) :
    ∃ s', step fl s (.log .mark .ok, t) = some s' ∧
      Follows name float s'
        (recordObjects (recordMark p (float (showTime t.now)) s.markStageCount .completed)
          s.markStageCount (s.objectCount - s.markedObjects).toNat) ∧
      Beside name s.disk s'.disk ∧ s'.newObjectsCount ≤ s.newObjectsCount ∧
      s'.markStageCount = s.markStageCount ∧ s'.sweepStageCount = s.sweepStageCount ∧
      s'.objectCount = s.markedObjects := by
  obtain ⟨s', text, hs', hfollows, hwrote⟩ := addLogLine_follows h hc ht.2
    (fits_markCompleted s ht.1 hstage) (reads_markCompleted float s t.now p)
  refine ⟨{ s' with objectCount := s'.markedObjects, memoryUsed := s'.mSize, mSize := 0 }, ?_,
    ⟨⟨hfollows.ready.logFile, hfollows.ready.room⟩, hfollows.reads⟩,
    ⟨hwrote.others, hwrote.buildCount⟩, hwrote.counted, hwrote.stages.1,
    hwrote.stages.2, hwrote.objects.2⟩
  simp only [step, log]
  rw [hs']
  rfl

theorem sweepStart_follows (fl : Bool) (h : Follows name float s p)
    (hc : s.newObjectsCount < 2 ^ 31) (hstage : s.sweepStageCount + 1 < 2 ^ 31) (ht : Exact t) :
    ∃ s', step fl s (.log .sweep .start, t) = some s' ∧
      Follows name float s'
        (recordSweep p (float (showTime t.now)) (s.sweepStageCount + 1) .started) ∧
      Beside name s.disk s'.disk ∧ s'.newObjectsCount ≤ s.newObjectsCount ∧
      s'.markStageCount = s.markStageCount ∧ s'.sweepStageCount = s.sweepStageCount + 1 ∧
      s'.objectCount = s.objectCount := by
  let u : State := { s with sweepStageCount := s.sweepStageCount + 1 }
  have hu : Follows name float u p := ⟨⟨h.ready.logFile, h.ready.room⟩, h.reads⟩
  obtain ⟨s', text, hs', hfollows, hwrote⟩ := addLogLine_follows hu hc ht.2
    (fits_stageStarted (by decide) ht.1 hstage)
    (reads_sweepStarted float t.now (s.sweepStageCount + 1) p)
  exact ⟨s', hs', hfollows, ⟨hwrote.others, hwrote.buildCount⟩, hwrote.counted, hwrote.stages.1,
    hwrote.stages.2, hwrote.objects.1⟩

theorem sweepEnd_follows (fl : Bool) (h : Follows name float s p)
    (hc : s.newObjectsCount < 2 ^ 31) (hstage : s.sweepStageCount < 2 ^ 31) (ht : Exact t) :
    ∃ s', step fl s (.log .sweep .ok, t) = some s' ∧
      Follows name float s'
        (recordSweep p (float (showTime t.now)) s.sweepStageCount .completed) ∧
      Beside name s.disk s'.disk ∧ s'.newObjectsCount ≤ s.newObjectsCount ∧
      s'.markStageCount = s.markStageCount ∧ s'.sweepStageCount = s.sweepStageCount ∧
      s'.objectCount = s.objectCount := by
  obtain ⟨s', text, hs', hfollows, hwrote⟩ := addLogLine_follows h hc ht.2
    (fits_sweepCompleted s ht.1 hstage) (reads_sweepCompleted float s t.now p)
  exact ⟨s', hs', hfollows, ⟨hwrote.others, hwrote.buildCount⟩, hwrote.counted, hwrote.stages.1,
    hwrote.stages.2, hwrote.objects.1⟩

end Stages

/-- The contents of the graph by the collector's own account: `objects` have been reported or
found alive since the last collection. -/
structure Chart (F : Type*) where
  rounds : Nat
  objects : UInt64
  marks : List (Nat × F)
  sweeps : List (Nat × F)
  collected : Nat → Option Nat

def Chart.empty : Chart F where
  rounds := 0
  objects := 0
  marks := []
  sweeps := []
  collected := fun _ => none

/-- The time between two messages, as far as their texts tell. -/
def duration (float : Text → F) (t t' : Times) : F :=
  float (showTime t'.now) - float (showTime t.now)

def Chart.round (float : Text → F) (c : Chart F) (r : Round) : Chart F where
  rounds := c.rounds + 1
  objects := UInt64.ofNat r.alive.length
  marks := c.marks ++ [(c.rounds + 1, duration float r.markStart r.markEnd)]
  sweeps := c.sweeps ++ [(c.rounds + 1, duration float r.sweepStart r.sweepEnd)]
  collected := Function.update c.collected (c.rounds + 1)
    (some (c.objects - UInt64.ofNat r.alive.length).toNat)

/-- What the collector does between its start and its end, one call or one collection at a time. -/
inductive Item where
  | call (call : Call) (t : Times)
  | round (r : Round)

def Item.calls : Item → List (Call × Times)
  | .call made t => [(made, t)]
  | .round r => r.calls

def Chart.item (float : Text → F) (c : Chart F) : Item → Chart F
  | .call made _ => { c with objects := c.objects + allocated made }
  | .round r => c.round float r

/-- The reader's lists and dictionary are those of the chart. -/
structure Shows (p : Parsed F) (c : Chart F) : Prop where
  marks : p.markDurations = c.marks
  sweeps : p.sweepDurations = c.sweeps
  collected : p.markObjectsCollected = c.collected

/-- After at most `n` calls. -/
structure Tracks (name : Text) (float : Text → F) (n : Nat) (s : State) (c : Chart F) : Prop where
  follows : ∃ p, Follows name float s p ∧ Shows p c
  marks : s.markStageCount = c.rounds
  sweeps : s.sweepStageCount = c.rounds
  objects : s.objectCount = c.objects
  counted : s.newObjectsCount ≤ n
  rounds : c.rounds ≤ n

/-- What may stand between the start and the end. -/
def Item.Allowed : Item → Prop
  | .call made t => between made = true ∧ Exact t
  | .round r => r.Timely

section Tracks

variable {name : Text} {float : Text → F} {s : State} {c : Chart F} {n : Nat}

theorem Tracks.call (fl : Bool) (h : Tracks name float n s c) (hn : n < 2 ^ 31) {t : Times}
    (ht : Exact t) {call : Call} (hcall : between call = true) :
    ∃ s', step fl s (call, t) = some s' ∧ Beside name s.disk s'.disk ∧
      Tracks name float (n + 1) s' (c.item float (.call call t)) := by
  obtain ⟨p, hp, hshows⟩ := h.follows
  obtain ⟨s', hs', hfollows, hwent⟩ := call_follows fl hp (h.counted.trans_lt hn) ht hcall
  refine ⟨s', hs', hwent.beside, ⟨p, hfollows, hshows.marks, hshows.sweeps, hshows.collected⟩,
    hwent.stages.1.trans h.marks, hwent.stages.2.trans h.sweeps, ?_,
    hwent.counted.trans (Nat.succ_le_succ h.counted), Nat.le_succ_of_le h.rounds⟩
  rw [hwent.objects, h.objects]
  rfl

theorem Tracks.round (fl : Bool) (h : Tracks name float n s c) {r : Round}
    (hn : n + r.calls.length < 2 ^ 31) (ht : r.Timely) :
    ∃ s', r.calls.foldlM (step fl) s = some s' ∧ Beside name s.disk s'.disk ∧
      Tracks name float (n + r.calls.length) s' (c.round float r) := by
  obtain ⟨p, hp, hshows⟩ := h.follows
  have hlen : r.calls.length = r.alive.length + 4 := by simp [Round.calls]
  have hcount := h.counted
  have hrounds := h.rounds
  have hmarks := h.marks
  have hsweeps := h.sweeps
  obtain ⟨s₁, hs₁, hf₁, hb₁, hc₁, hm₁, hw₁, ho₁, hz₁⟩ :=
    markStart_follows fl hp (by omega) (by omega) ht.markStart
  obtain ⟨s₂, hs₂, hf₂, hb₂, hc₂, hm₂, hw₂, ho₂, hz₂⟩ := alive_follows fl hf₁ r.alive
  obtain ⟨s₃, hs₃, hf₃, hb₃, hc₃, hm₃, hw₃, ho₃⟩ :=
    markEnd_follows fl hf₂ (by omega) (by omega) ht.markEnd
  obtain ⟨s₄, hs₄, hf₄, hb₄, hc₄, hm₄, hw₄, ho₄⟩ :=
    sweepStart_follows fl hf₃ (by omega) (by omega) ht.sweepStart
  obtain ⟨s₅, hs₅, hf₅, hb₅, hc₅, hm₅, hw₅, ho₅⟩ :=
    sweepEnd_follows fl hf₄ (by omega) (by omega) ht.sweepEnd
  have hmark : s₂.markStageCount = c.rounds + 1 := by rw [hm₂, hm₁, hmarks]
  have hsweep : s₃.sweepStageCount = c.rounds := by rw [hw₃, hw₂, hw₁, hsweeps]
  have hmarked : s₂.markedObjects = UInt64.ofNat r.alive.length := by
    rw [hz₂, hz₁, UInt64.zero_add]
  have hheld : s₂.objectCount = c.objects := by rw [ho₂, ho₁, h.objects]
  rw [hmark, hmarks, hheld, hmarked, hw₄, hsweep] at hf₅
  refine ⟨s₅, ?_, hb₁.trans (hb₂.trans (hb₃.trans (hb₄.trans hb₅))), ⟨_, hf₅, ?_⟩, ?_, ?_, ?_, ?_,
    ?_⟩
  · rw [Round.calls, List.cons_append, List.foldlM_cons, hs₁, Option.bind_eq_bind, Option.bind_some,
      List.foldlM_append, hs₂]
    simp [hs₃, hs₄, hs₅]
  · constructor <;>
      simp [recordSweep, recordObjects, recordMark, Chart.round, duration, hshows.marks,
        hshows.sweeps, hshows.collected]
  · show s₅.markStageCount = c.rounds + 1
    omega
  · show s₅.sweepStageCount = c.rounds + 1
    omega
  · show s₅.objectCount = UInt64.ofNat r.alive.length
    rw [ho₅, ho₄, ho₃, hmarked]
  · omega
  · show c.rounds + 1 ≤ n + r.calls.length
    omega

theorem Tracks.items (fl : Bool) {items : List Item} (h : Tracks name float n s c)
    (hn : n + (items.flatMap Item.calls).length < 2 ^ 31) (hallowed : ∀ i ∈ items, i.Allowed) :
    ∃ s', (items.flatMap Item.calls).foldlM (step fl) s = some s' ∧ Beside name s.disk s'.disk ∧
      Tracks name float (n + (items.flatMap Item.calls).length) s'
        (items.foldl (Chart.item float) c) := by
  induction items generalizing n s c with
  | nil => exact ⟨s, rfl, .refl _, h⟩
  | cons i items ih =>
    rw [List.flatMap_cons, List.length_append] at hn ⊢
    have hone : ∃ u, i.calls.foldlM (step fl) s = some u ∧ Beside name s.disk u.disk ∧
        Tracks name float (n + i.calls.length) u (c.item float i) := by
      have hi := hallowed i List.mem_cons_self
      cases i with
      | call made t =>
        obtain ⟨u, hu, hbeside, htracks⟩ := h.call fl (by omega) hi.2 hi.1
        exact ⟨u, by simp [Item.calls, hu], hbeside, htracks⟩
      | round r => exact h.round fl (by simp only [Item.calls] at hn; omega) hi
    obtain ⟨u, hu, hbeside, htracks⟩ := hone
    obtain ⟨s', hs', hbeside', htracks'⟩ :=
      ih htracks (by omega) fun j hj => hallowed j (List.mem_cons_of_mem i hj)
    refine ⟨s', ?_, hbeside.trans hbeside', by rwa [← Nat.add_assoc]⟩
    rw [List.foldlM_append, hu]
    exact hs'

/-- At its end the run leaves nothing in the buffer. -/
theorem Tracks.stop (fl : Bool) (h : Tracks name float n s c) (hn : n < 2 ^ 31) {t : Times}
    (ht : Exact t) : ∃ s', step fl s (.log .destroyAllocator .ok, t) = some s' ∧
      Beside name s.disk s'.disk ∧ Shows (parseFile float (s'.disk.files name)) c := by
  obtain ⟨p, hp, hshows⟩ := h.follows
  obtain ⟨u, hu, hfollows, hwent⟩ : ∃ u, addLogLine s t.later
      [stamp t.now "Allocator destroyed.".toList] = some u ∧ Follows name float u p ∧
      Went name s u 0 :=
    literal_follows hp (h.counted.trans_lt hn) ht (by decide) (by decide) rfl rfl
  obtain ⟨hclosed, hfile⟩ := printfInFile_follows hfollows
  have hprint := printfInFile_wrote hfollows.ready.logFile
  refine ⟨printfInFile u, ?_, hwent.beside.trans (.of_wrote hprint), ?_⟩
  · simp only [step, log]
    rw [hu]
    rfl
  · rw [hfile, parseFile, hclosed.reads.whole]
    exact hshows

end Tracks

def fileName (build : Nat) : Text := decimal build ++ ".log".toList

theorem digitsBefore_eq {fuel n : Nat} (name : Text) (hn : n ≠ 0) (hfuel : n ≤ fuel) :
    digitsBefore fuel n name = decimal n ++ name := by
  induction fuel generalizing n name with
  | zero => omega
  | succ fuel ih =>
    rw [digitsBefore, if_neg hn]
    by_cases hsmall : n < 10
    · have hdigit : decimal n = [Nat.digitChar n] := Nat.toDigits_of_lt_base hsmall
      rw [Nat.div_eq_of_lt hsmall, Nat.mod_eq_of_lt hsmall, hdigit]
      cases fuel <;> simp [digitsBefore]
    · have hsplit : decimal n = decimal (n / 10) ++ [Nat.digitChar (n % 10)] :=
        Nat.toDigits_of_base_le (by decide) (by omega)
      rw [ih _ (by omega) (by omega), hsplit, List.append_assoc, List.singleton_append]

theorem fileName_injective : Function.Injective fileName := fun _ _ h =>
  decimal_injective (List.append_cancel_right h)

/-- No file has the number of a later build. -/
def Fresh (d : Disk) : Prop := ∀ build, d.nextBuild ≤ build → d.files (fileName build) = []

/-- One run of the program, from its constructors to its destructors. -/
structure Session where
  start : Times
  items : List Item
  stop : Times

def Session.calls (se : Session) : List (Call × Times) :=
  (.log .initAllocator .start, se.start) ::
    (se.items.flatMap Item.calls ++ [(.log .destroyAllocator .ok, se.stop)])

def Session.chart (float : Text → F) (se : Session) : Chart F :=
  se.items.foldl (Chart.item float) .empty

/-- The times are exact and the counters of type `int` do not overflow. -/
structure Session.Regular (se : Session) : Prop where
  start : Exact se.start
  items : ∀ i ∈ se.items, i.Allowed
  stop : Exact se.stop
  length : se.calls.length < 2 ^ 31

/-- What a run leaves on the disk. -/
def runSession (fl : Bool) (d : Disk) (se : Session) : Option Disk :=
  (se.calls.foldlM (step fl) (boot d true)).map State.disk

section Sessions

variable (float : Text → F) {d d' : Disk}

theorem nextBuild_ne_zero (d : Disk) : d.nextBuild ≠ 0 := by
  rw [Disk.nextBuild]
  split
  · exact one_ne_zero
  · exact Nat.succ_ne_zero _

/-- The first `INIT_ALLOCATOR` of a run opens the file of the run's own number. -/
def opened (d : Disk) : State :=
  { boot d true with
    disk := { d with buildCount := some d.nextBuild }
    logFile := some (fileName d.nextBuild) }

theorem openLogFile_boot (hcount : d.nextBuild < 2 ^ 31) :
    openLogFile (boot d true) = some (opened d) := by
  have hdigits : digitsBefore d.nextBuild d.nextBuild ".log".toList = fileName d.nextBuild :=
    digitsBefore_eq ".log".toList (nextBuild_ne_zero d) (le_refl _)
  have hlength : (fileName d.nextBuild).length < fileNameSize := by
    have hdecimal := length_int hcount
    simp only [fileName, List.length_append, fileNameSize]
    exact Nat.lt_of_le_of_lt (Nat.add_le_add_right hdecimal _) (by decide)
  simp only [openLogFile, boot, hdigits, hcount, hlength, and_self, if_true, opened]

theorem start_tracks (fl : Bool) (hcount : d.nextBuild < 2 ^ 31)
    (hfresh : d.files (fileName d.nextBuild) = []) {t : Times} (ht : Exact t) :
    ∃ s, step fl (boot d true) (.log .initAllocator .start, t) = some s ∧
      Tracks (fileName d.nextBuild) float 1 s .empty ∧ s.disk.buildCount = some d.nextBuild ∧
      ∀ other, other ≠ fileName d.nextBuild → s.disk.files other = d.files other := by
  have hopen : Follows (fileName d.nextBuild) float (opened d) .empty := by
    refine ⟨⟨rfl, by simp [opened, boot, bufferSize, bufferDeadNumber]⟩, ?_⟩
    have hempty : (opened d).written (fileName d.nextBuild) = [] := by
      simpa [State.written, opened, boot] using hfresh
    rw [hempty]
    exact Reads.nil
  have hfits : (unlines ["[000.000000] Start of allocator initialization.".toList]).length ≤
      bufferDeadNumber := by decide
  have hskip : ∀ line ∈ ["[000.000000] Start of allocator initialization.".toList],
      Ignored line := by
    intro line hline
    rw [List.mem_singleton.mp hline]
    refine ⟨by decide, fun time cs htime => ?_⟩
    have htext : timePrefix "[000.000000] Start of allocator initialization.".toList =
        some ("000.000000".toList, "Start of allocator initialization.".toList) := by decide
    rw [htext] at htime
    cases htime
    exact ⟨by decide, by decide⟩
  obtain ⟨s, hs, hfollows, hwent⟩ :=
    remark_follows hopen (by simp [opened, boot]) ht.2 hfits hskip
  have hcounted := hwent.counted
  simp only [opened, boot] at hcounted
  have hstart : step fl (boot d true) (.log .initAllocator .start, t) = some s := by
    simp only [step, log, openLogFile_boot hcount, Option.bind_some]
    exact hs
  refine ⟨s, hstart, ⟨⟨_, hfollows, rfl, rfl, rfl⟩, hwent.stages.1, hwent.stages.2, ?_, hcounted,
    Nat.zero_le _⟩, hwent.beside.buildCount, hwent.beside.others⟩
  rw [hwent.objects]
  rfl

/-- A run writes the file of its own number and nothing else, and the graph of that file is the
chart of the run. -/
theorem session_charted (fl : Bool) (hcount : d.nextBuild < 2 ^ 31) (hfresh : Fresh d)
    {se : Session} (hse : se.Regular) :
    ∃ d', runSession fl d se = some d' ∧ d'.buildCount = some d.nextBuild ∧
      (∀ other, other ≠ fileName d.nextBuild → d'.files other = d.files other) ∧
      Shows (parseFile float (d'.files (fileName d.nextBuild))) (se.chart float) := by
  have hlen := hse.length
  have hcalls : se.calls.length = 1 + (se.items.flatMap Item.calls).length + 1 := by
    simp [Session.calls]
    omega
  obtain ⟨s, hs, htracks, hbuild, hothers⟩ :=
    start_tracks float fl hcount (hfresh _ (le_refl _)) hse.start
  obtain ⟨u, hu, hbeside, htracks'⟩ := htracks.items fl (by omega) hse.items
  obtain ⟨v, hv, hlast, hshows⟩ := htracks'.stop fl (by omega) hse.stop
  refine ⟨v.disk, ?_, ?_, fun other ho => ?_, hshows⟩
  · rw [runSession, Session.calls, List.foldlM_cons, hs, Option.bind_eq_bind, Option.bind_some,
      List.foldlM_append, hu]
    simp [hv]
  · rw [hlast.buildCount, hbeside.buildCount, hbuild]
  · rw [hlast.others other ho, hbeside.others other ho, hothers other ho]

theorem Fresh.next (hfresh : Fresh d) (hbuild : d'.buildCount = some d.nextBuild)
    (hothers : ∀ other, other ≠ fileName d.nextBuild → d'.files other = d.files other) :
    d'.nextBuild = d.nextBuild + 1 ∧ Fresh d' := by
  have hnext : d'.nextBuild = d.nextBuild + 1 := by rw [Disk.nextBuild, hbuild]
  refine ⟨hnext, fun build hle => ?_⟩
  rw [hnext] at hle
  have hne : fileName build ≠ fileName d.nextBuild := fun he => by
    have hsame := fileName_injective he
    omega
  rw [hothers _ hne]
  exact hfresh build (by omega)

/-- The first run finds an empty directory. -/
def Disk.clean : Disk where
  buildCount := none
  files := fun _ => []

/-- The `i`th run from `d` on: the disks before and after it differ in the number of the build and
in the file called `name`. -/
def WritesOnly (fl : Bool) (d : Disk) (ses : List Session) (i : Nat) (h : i < ses.length)
    (name : Text) : Prop :=
  ∃ before after, (ses.take i).foldlM (runSession fl) d = some before ∧
    runSession fl before ses[i] = some after ∧
    ∀ other, other ≠ name → after.files other = before.files other

theorem sessions_charted (fl : Bool) {ses : List Session}
    (hcount : d.nextBuild + ses.length ≤ 2 ^ 31) (hfresh : Fresh d)
    (hses : ∀ se ∈ ses, se.Regular) :
    ∃ d', ses.foldlM (runSession fl) d = some d' ∧
      (∀ build, build < d.nextBuild → d'.files (fileName build) = d.files (fileName build)) ∧
      ∀ i (h : i < ses.length), WritesOnly fl d ses i h (fileName (d.nextBuild + i)) ∧
        Shows (parseFile float (d'.files (fileName (d.nextBuild + i)))) (ses[i].chart float) := by
  induction ses generalizing d with
  | nil => exact ⟨d, rfl, fun _ _ => rfl, fun i h => absurd h (Nat.not_lt_zero i)⟩
  | cons se ses ih =>
    rw [List.length_cons] at hcount
    obtain ⟨u, hu, hbuild, hothers, hshows⟩ :=
      session_charted float fl (by omega) hfresh (hses se List.mem_cons_self)
    obtain ⟨hnext, hfresh'⟩ := hfresh.next hbuild hothers
    obtain ⟨d', hd', hearlier, hlater⟩ :=
      ih (by omega) hfresh' fun se' hse' => hses se' (List.mem_cons_of_mem se hse')
    have hkeep : ∀ build, build < d.nextBuild →
        d'.files (fileName build) = d.files (fileName build) := by
      intro build hlt
      rw [hearlier build (by omega)]
      refine hothers _ fun he => ?_
      have hsame := fileName_injective he
      omega
    refine ⟨d', by rw [List.foldlM_cons, hu]; exact hd', hkeep, fun i hi => ?_⟩
    cases i with
    | zero =>
      rw [Nat.add_zero, hearlier _ (by omega)]
      exact ⟨⟨d, u, rfl, hu, hothers⟩, hshows⟩
    | succ i =>
      obtain ⟨⟨before, after, hbefore, hafter, hframe⟩, hrest⟩ := hlater i (by simpa using hi)
      have hnumber : u.nextBuild + i = d.nextBuild + (i + 1) := by omega
      rw [hnumber] at hframe hrest
      refine ⟨⟨before, after, ?_, hafter, hframe⟩, hrest⟩
      rw [List.take_succ_cons, List.foldlM_cons, hu]
      exact hbefore

end Sessions

/-- As long as the number of the build is an `int`, the file of each run parses to what happened in
that run: the duration of every mark and every sweep stage and the number of objects that every
mark stage found dead. No run writes past the end of the buffer or of the file's name, and each
changes its own log file only. -/
theorem graph_of_every_run (fl : Bool) (float : Text → F) (ses : List Session)
    (hcount : ses.length < 2 ^ 31) (hses : ∀ se ∈ ses, se.Regular) :
    ∃ d, ses.foldlM (runSession fl) Disk.clean = some d ∧
      ∀ i (h : i < ses.length), WritesOnly fl Disk.clean ses i h (fileName (i + 1)) ∧
        Shows (parseFile float (d.files (fileName (i + 1)))) (ses[i].chart float) := by
  have hclean : Disk.clean.nextBuild = 1 := rfl
  obtain ⟨d, hd, -, hshows⟩ := sessions_charted float fl (by omega)
    (fun _ _ => rfl : Fresh Disk.clean) hses
  refine ⟨d, hd, fun i h => ?_⟩
  have hi := hshows i h
  rwa [show Disk.clean.nextBuild + i = i + 1 from Nat.add_comm 1 i] at hi

/-- The digits of a time are its microseconds. -/
def micros (cs : Text) : Int := number (cs.filter Char.isDigit)

/-- Two objects are allocated and one of them survives the collection. -/
def shortRun (markEnd : Nat) : Session where
  start := ⟨0, 0⟩
  items := [.call (.setMemoryLimit 100 100) ⟨10, 10⟩, .call (.checkTheSpace 16) ⟨20, 20⟩,
    .call (.log .allocateNewObject .ok) ⟨30, 30⟩, .call (.checkTheSpace 24) ⟨40, 40⟩,
    .call (.log .allocateNewObject .ok) ⟨50, 50⟩,
    .round ⟨⟨60, 60⟩, [(16, ⟨70, 70⟩)], ⟨markEnd, 0⟩, ⟨2000100, 0⟩, ⟨2000150, 0⟩⟩]
  stop := ⟨3000000, 0⟩

theorem graph_of_every_run_twice :
    ∃ d, [shortRun 1000, shortRun 2000].foldlM (runSession false) Disk.clean = some d ∧
      (parseFile micros (d.files "2.log".toList)).markDurations = [(1, 1940)] ∧
      (parseFile micros (d.files "2.log".toList)).sweepDurations = [(1, 50)] ∧
      (parseFile micros (d.files "1.log".toList)).markObjectsCollected 1 = some 1 := by
  have hregular : ∀ markEnd < 2 ^ 52, (shortRun markEnd).Regular := by
    intro markEnd hlt
    refine ⟨by simp [shortRun, Exact], ?_, by simp [shortRun, Exact], ?_⟩
    · intro i hi
      simp only [shortRun, List.mem_cons, List.not_mem_nil, or_false] at hi
      rcases hi with rfl | rfl | rfl | rfl | rfl | rfl
      · simp [Item.Allowed, between, Exact]
      · simp [Item.Allowed, between, Exact]
      · simp [Item.Allowed, between, Exact]
      · simp [Item.Allowed, between, Exact]
      · simp [Item.Allowed, between, Exact]
      · constructor <;> simp only [Exact] <;> omega
    · simp [Session.calls, shortRun, Item.calls, Round.calls]
  obtain ⟨d, hd, hruns⟩ := graph_of_every_run false micros [shortRun 1000, shortRun 2000]
    (by decide) (by
    simp only [List.mem_cons, List.not_mem_nil, or_false, forall_eq_or_imp, forall_eq]
    exact ⟨hregular 1000 (by decide), hregular 2000 (by decide)⟩)
  have hsecond := (hruns 1 (by decide)).2
  have hfirst := (hruns 0 (by decide)).2
  refine ⟨d, hd, hsecond.marks.trans ?_, hsecond.sweeps.trans ?_, ?_⟩
  · decide
  · decide
  · exact (congrFun hfirst.collected 1).trans (by decide)

end GarbageCollector.LogGraph
