/- Module: Epilog/Node/Sync
   source: src/src/node/sync.cpp (the database phase of the program in setup_sync_impl)
   digest: Synchronisation of the databases range by range, and the keys that can be left out. -/

import Mathlib.Data.List.Sort

set_option autoImplicit false

namespace Epilog.Node.Sync

inductive Db
  | symbols | program | closure | heap
  deriving DecidableEq

/-- `sync:mode/1` from the database phase on -/
inductive Mode
  | db (d : Db) | catchup
  deriving DecidableEq

/-- `sync:get(Key,Root,DB,Span)`; the root is agreed before this phase and does not change in it. -/
structure Job where
  key : ℕ
  db : Db
  span : ℕ
  deriving DecidableEq

def Job.keyEnd (job : Job) : ℕ := job.key + job.span

/-- `tmp:scan(Root,DB,Key,KeyEnd)` -/
structure Scan where
  db : Db
  key : ℕ
  keyEnd : ℕ
  deriving DecidableEq

/-- `tmp:fail(Key,DB,Root,Span,FailCount)` -/
structure Failure where
  job : Job
  failCount : ℕ

/-- The facts of the program, the requests that have no answer yet, and the ranges that `db_put` has
stored. -/
structure Facts where
  mode : Mode
  step : Option ℕ
  lookahead : ℕ
  lowDb : Db → ℕ
  get : List Job
  /-- `tmp:run(get(Key,Root,DB))` -/
  run : List (ℕ × Db)
  scan : List Scan
  runscan : Bool
  /-- `tmp:end(DB,Root)` -/
  ended : List Db
  fail : List Failure
  numkeys : Option ℕ
  asked : List Job
  scanning : Option Scan
  stored : List (Db × ℕ × ℕ)

/-- How a request ends: without a branch of the expected root, with one that `db_put` rejects, or
with one that it stores. -/
inductive Answer
  | missing | rejected | accepted
  deriving DecidableEq

section Program

def dbDone : Db → Mode
  | .symbols => .db .program
  | .program => .db .closure
  | .closure => .db .heap
  | .heap => .catchup

def dbDefaultStep : Mode → ℕ
  | .db .symbols => 10000
  | .db .closure => 10000
  | .db .program => 10000
  | .db .heap => 16
  | .catchup => 10

/-- `db_add_gets(N, Key, Root, DB, Step)` -/
def dbAddGets (f : Facts) : ℕ → ℕ → Db → ℕ → Facts
  | 0, _, _, _ => f
  | n + 1, key, d, step =>
    let job : Job := ⟨key, d, step⟩
    let f := if (key, d) ∉ f.run ∧ job ∈ f.get then f else { f with get := f.get ++ [job] }
    dbAddGets f n (key + step) d step

/-- `db_schedule_gets(DB,Root)`, with what it leaves behind when it fails -/
def dbScheduleGets (f : Facts) (d : Db) : Facts :=
  if d ∈ f.ended then f
  else
    match f.step with
    | none => f
    | some step =>
      let low := f.lowDb d
      if f.get = [] then dbAddGets f f.lookahead low d step
      else
        let n := (f.get.filter (·.db = d)).length
        if n < f.lookahead then dbAddGets f (f.lookahead - n) low d step else f

/-- The standard order of `get(Key,Root,DB,Span)` for one root and database -/
def Job.Before (a b : Job) : Prop := a.key < b.key ∨ a.key = b.key ∧ a.span ≤ b.span

instance : DecidableRel Job.Before := fun _ _ => inferInstanceAs (Decidable (_ ∨ _))

/-- `db_next(DB,Root,Key,Span)` -/
def dbNext (f : Facts) (d : Db) : Option Job :=
  ((f.get.filter (·.db = d)).insertionSort Job.Before).find? fun job => (job.key, d) ∉ f.run

/-- `db_process_one_get`, once a connection is ready -/
def dbProcessOneGet (f : Facts) (d : Db) : Option Facts := do
  let job ← dbNext f d
  return { f with run := f.run ++ [(job.key, d)], asked := f.asked ++ [job] }

/-- `db_process_gets(N,UsedConn,DB,Root)`, as far as the connections reach -/
def dbProcessGets (f : Facts) : ℕ → Db → Facts
  | 0, _ => f
  | n + 1, d =>
    match dbProcessOneGet f d with
    | none => f
    | some f => dbProcessGets f n d

/-- `db_update_low(DB, Root, Key, KeyEnd)` -/
def dbUpdateLow (f : Facts) (d : Db) (key keyEnd : ℕ) : Facts :=
  if key ≤ f.lowDb d ∧ f.lowDb d < keyEnd then
    { f with lowDb := Function.update f.lowDb d keyEnd }
  else f

/-- `db_push_scan(DB,Root,Key,KeyEnd)` -/
def dbPushScan (f : Facts) (d : Db) (key keyEnd : ℕ) : Facts :=
  if f.scan ≠ [] then f
  else if f.lowDb d < keyEnd then { f with scan := f.scan ++ [⟨d, key, keyEnd⟩] }
  else f

/-- The failure count that `db_get_fail` comes to. It fails when there are counts, but none for this
job. -/
def failCount (f : Facts) (job : Job) : Option ℕ :=
  if f.fail.isEmpty then some 1
  else (f.fail.find? (·.job = job)).map (·.failCount + 1)

/-- `db_get_fail(DB,Root,Key,Span)` -/
def dbGetFail (f : Facts) (job : Job) : Facts :=
  match failCount f job with
  | none => f
  | some n =>
    let f := { f with fail := f.fail.eraseP (·.job = job) }
    if n > 5 then { f with get := f.get.erase job }
    else { f with fail := f.fail ++ [⟨job, n⟩] }

/-- `db_num(Result, Key, KeyEnd, NumKeys)` of an honest answer -/
def dbNum (keys : List ℕ) (key keyEnd : ℕ) : ℕ :=
  (keys.filter fun k => key ≤ k ∧ k ≤ keyEnd).length

/-- The goal that waits for the answer of a request, with what it leaves behind when it fails -/
def dbGot (keys : Db → List ℕ) (f : Facts) (job : Job) (answer : Answer) : Facts :=
  let f := { f with asked := f.asked.erase job }
  if (job.key, job.db) ∉ f.run then f
  else
    let f := { f with run := f.run.erase (job.key, job.db) }
    match answer with
    | .missing => f
    | .rejected => dbGetFail f job
    | .accepted =>
      let f := { f with stored := (job.db, job.key, job.keyEnd) :: f.stored }
      let numKeys := dbNum (keys job.db) job.key job.keyEnd
      let f :=
        if numKeys = 0 then dbPushScan f job.db job.key job.keyEnd
        else { f with numkeys := some numKeys }
      if job ∉ f.get then f
      else dbUpdateLow { f with get := f.get.erase job } job.db job.key job.keyEnd

/-- `db_schedule_scan`, once a connection is ready -/
def dbScheduleScan (f : Facts) : Facts :=
  if f.runscan then f
  else
    match f.scan with
    | [] => f
    | scan :: _ => { f with runscan := true, scanning := some scan }

/-- `db_drop(DB,Root,KeyEnd)` -/
def dbDrop (f : Facts) (d : Db) (keyEnd : ℕ) : Facts :=
  { f with get := f.get.filter fun job => ¬(job.db = d ∧ keyEnd < job.key) }

def diffList : List ℕ → Option (List ℕ)
  | [] => none
  | [_] => some []
  | x₁ :: x₂ :: rest => (diffList (x₂ :: rest)).map ((x₂ - x₁) :: ·)

def averageList : List ℕ → Option ℕ
  | [] => none
  | x :: xs => some ((x :: xs).foldl (fun acc y => (y + acc) / 2) x)

/-- `db_process_scan(DB,Root,Key,KeyEnd,Result)`, with what it leaves behind when it fails -/
def dbProcessScan (f : Facts) (scan : Scan) (result : Option (List ℕ)) : Facts :=
  let f := { f with scanning := none }
  if ¬f.runscan then f
  else
    let f := { f with runscan := false }
    match result with
    | none => f
    | some keys =>
      if scan ∉ f.scan then f
      else
        let f := { f with scan := f.scan.erase scan }
        if keys = [] then dbDrop { f with ended := f.ended ++ [scan.db] } scan.db scan.keyEnd
        else
          match (diffList keys).bind averageList, f.step with
          | none, _ => f
          | some _, none => f
          | some avgDist, some _ =>
            let f := { f with step := none }
            match f.numkeys with
            | none => f
            | some lastNumKeys =>
              let f := { f with step := some (lastNumKeys * avgDist) }
              dbAddGets (dbUpdateLow f scan.db scan.key scan.keyEnd) 1 scan.keyEnd scan.db 0

/-- The second part of `sync_run(DB)` -/
def schedule (f : Facts) (d : Db) (connections : ℕ) (scanReady : Bool) : Facts :=
  let f := if scanReady then dbScheduleScan f else f
  if f.runscan then f
  else dbProcessGets (dbScheduleGets f d) (min 10 connections) d

/-- `sync_run(DB)`. Without a step size the first part fails after it has changed the mode. -/
def syncRun (f : Facts) (d : Db) (connections : ℕ) (scanReady : Bool) : Facts :=
  if f.get = [] ∧ d ∈ f.ended then
    match f.step with
    | some _ =>
      { f with
        ended := f.ended.erase d, mode := dbDone d, step := some (dbDefaultStep (dbDone d)) }
    | none =>
      schedule { f with ended := f.ended.filter (· ≠ d), mode := dbDone d } d connections scanReady
  else schedule f d connections scanReady

end Program

section Runs

/-- A turn of `sync` with so many ready connections, the answer of a request, or that of a scan -/
inductive Event
  | sync (connections : ℕ) (scanReady : Bool)
  | got (job : Job) (answer : Answer)
  | scanned (result : Option (List ℕ))

variable (keys : Db → List ℕ)

def step (f : Facts) : Event → Facts
  | .sync connections scanReady =>
    match f.mode with
    | .db d => syncRun f d connections scanReady
    | .catchup => f
  | .got job answer => if job ∈ f.asked then dbGot keys f job answer else f
  | .scanned result =>
    match f.scanning with
    | some scan => dbProcessScan f scan result
    | none => f

/-- A validated scan gives keys from the end of the range on, and some if there are any. -/
def Honest (f : Facts) : Event → Prop
  | .scanned (some result) => ∀ scan, f.scanning = some scan →
      (∀ k ∈ result, k ∈ keys scan.db ∧ scan.keyEnd ≤ k) ∧
        (result = [] → ∀ k ∈ keys scan.db, k < scan.keyEnd)
  | _ => True

/-- The start of the database phase -/
structure Started (f : Facts) : Prop where
  mode : f.mode = .db .symbols
  lowDb : ∀ d, f.lowDb d = 0
  get : f.get = []
  run : f.run = []
  scan : f.scan = []
  runscan : f.runscan = false
  ended : f.ended = []
  fail : f.fail = []
  asked : f.asked = []
  scanning : f.scanning = none
  stored : f.stored = []

/-- The key lies in a range that was received, validated and stored. -/
def Facts.Stored (f : Facts) (d : Db) (k : ℕ) : Prop :=
  ∃ key keyEnd, (d, key, keyEnd) ∈ f.stored ∧ key ≤ k ∧ k ≤ keyEnd

def Job.Holds (job : Job) (d : Db) (k : ℕ) : Prop := job.db = d ∧ job.key ≤ k ∧ k < job.keyEnd

/-- The key lies in a range that is to be requested. -/
def Facts.Pending (f : Facts) (d : Db) (k : ℕ) : Prop := ∃ job ∈ f.get, job.Holds d k

/-- Nothing is given up that is still needed: at the sixth rejection of a job every key of its range
is stored, or lies in the range of another one. -/
def Spared (f : Facts) : Event → Prop
  | .got job .rejected => job ∈ f.asked → (job.key, job.db) ∈ f.run → job ∈ f.get →
      (∃ n, failCount f job = some n ∧ 5 < n) → ∀ k ∈ keys job.db, job.Holds job.db k →
        f.Stored job.db k ∨ ∃ other ∈ f.get.erase job, other.Holds job.db k
  | _ => True

/-- The states of all runs -/
inductive Reach (start : Facts) : Facts → Prop
  | start : Reach start start
  | step {f : Facts} {e : Event} (before : Reach start f) (honest : Honest keys f e) :
      Reach start (step keys f e)

/-- The states of the runs in which nothing is given up that is still needed -/
inductive Kept (start : Facts) : Facts → Prop
  | start : Kept start start
  | step {f : Facts} {e : Event} (before : Kept start f) (honest : Honest keys f e)
      (spared : Spared keys f e) : Kept start (step keys f e)

end Runs

section Keeps

variable (keys : Db → List ℕ) (f f' : Facts)

/-- No key that is stored or pending gets lost. -/
def Keeps : Prop := ∀ d, ∀ k ∈ keys d, f.Stored d k ∨ f.Pending d k → f'.Stored d k ∨ f'.Pending d k

variable {keys f f'}

theorem Keeps.refl (keys : Db → List ℕ) (f : Facts) : Keeps keys f f := fun _ _ _ kept => kept

theorem Keeps.of_jobs (stored : f.stored ⊆ f'.stored)
    (jobs : ∀ job ∈ f.get, ∀ k ∈ keys job.db, job.Holds job.db k →
      f'.Stored job.db k ∨ f'.Pending job.db k) : Keeps keys f f' := by
  rintro d k mem (⟨key, keyEnd, range, inside⟩ | ⟨job, listed, rfl, inside⟩)
  · exact .inl ⟨key, keyEnd, stored range, inside⟩
  · exact jobs job listed k mem ⟨rfl, inside⟩

theorem Keeps.of_subset (stored : f.stored ⊆ f'.stored) (get : f.get ⊆ f'.get) :
    Keeps keys f f' :=
  .of_jobs stored fun job listed _ _ holds => .inr ⟨job, get listed, holds⟩

theorem dbAddGets_frame (f : Facts) (n key : ℕ) (d : Db) (step : ℕ) :
    ∃ more, dbAddGets f n key d step = { f with get := f.get ++ more } := by
  induction n generalizing f key with
  | zero => exact ⟨[], by rw [List.append_nil]; rfl⟩
  | succ n ih =>
    unfold dbAddGets
    dsimp only
    split_ifs
    · exact ih f (key + step)
    · obtain ⟨more, same⟩ := ih { f with get := f.get ++ [⟨key, d, step⟩] } (key + step)
      exact ⟨[⟨key, d, step⟩] ++ more, by rw [same, List.append_assoc]⟩

theorem dbScheduleGets_cases (f : Facts) (d : Db) : dbScheduleGets f d = f ∨
    ∃ n step, dbScheduleGets f d = dbAddGets f n (f.lowDb d) d step := by
  unfold dbScheduleGets
  by_cases ended : d ∈ f.ended
  · rw [if_pos ended]
    exact .inl rfl
  rw [if_neg ended]
  cases f.step with
  | none => exact .inl rfl
  | some step =>
    dsimp only
    split_ifs
    · exact .inr ⟨_, step, rfl⟩
    · exact .inr ⟨_, step, rfl⟩
    · exact .inl rfl

theorem dbScheduleGets_frame (f : Facts) (d : Db) :
    ∃ more, dbScheduleGets f d = { f with get := f.get ++ more } := by
  rcases dbScheduleGets_cases f d with same | ⟨n, step, same⟩
  · exact ⟨[], by rw [same, List.append_nil]⟩
  · rw [same]
    exact dbAddGets_frame ..

theorem dbNext_mem {d : Db} {job : Job} (next : dbNext f d = some job) :
    job ∈ f.get ∧ job.db = d := by
  have mem := List.mem_of_find?_eq_some next
  rw [List.mem_insertionSort, List.mem_filter, decide_eq_true_eq] at mem
  exact mem

theorem dbProcessGets_frame (f : Facts) (n : ℕ) (d : Db) :
    ∃ run asked, dbProcessGets f n d = { f with run := run, asked := f.asked ++ asked } ∧
      asked ⊆ f.get := by
  induction n generalizing f with
  | zero => exact ⟨f.run, [], by rw [List.append_nil]; rfl, List.nil_subset _⟩
  | succ n ih =>
    unfold dbProcessGets dbProcessOneGet
    cases next : dbNext f d with
    | none => exact ⟨f.run, [], by rw [List.append_nil]; rfl, List.nil_subset _⟩
    | some job =>
      obtain ⟨run, asked, same, listed⟩ :=
        ih { f with run := f.run ++ [(job.key, d)], asked := f.asked ++ [job] }
      refine ⟨run, job :: asked, ?_, List.cons_subset.2 ⟨(dbNext_mem next).1, listed⟩⟩
      dsimp only [Option.bind_eq_bind, Option.bind_some, Option.pure_def]
      rw [same, List.append_assoc]
      rfl

theorem dbScheduleScan_frame (f : Facts) :
    ∃ runscan scanning, dbScheduleScan f =
      { f with runscan := runscan, scanning := scanning } := by
  unfold dbScheduleScan
  split_ifs
  · exact ⟨f.runscan, f.scanning, rfl⟩
  · split
    · exact ⟨f.runscan, f.scanning, rfl⟩
    · exact ⟨true, _, rfl⟩

theorem dbUpdateLow_frame (f : Facts) (d : Db) (key keyEnd : ℕ) :
    ∃ lowDb, dbUpdateLow f d key keyEnd = { f with lowDb := lowDb } := by
  unfold dbUpdateLow
  split_ifs
  · exact ⟨_, rfl⟩
  · exact ⟨f.lowDb, rfl⟩

theorem dbPushScan_frame (f : Facts) (d : Db) (key keyEnd : ℕ) :
    dbPushScan f d key keyEnd = f ∨
      dbPushScan f d key keyEnd = { f with scan := f.scan ++ [⟨d, key, keyEnd⟩] } := by
  unfold dbPushScan
  split_ifs
  · exact .inl rfl
  · exact .inr rfl
  · exact .inl rfl

theorem dbGetFail_frame (f : Facts) (job : Job) :
    ∃ fail, (¬∃ n, failCount f job = some n ∧ 5 < n) ∧ dbGetFail f job = { f with fail := fail } ∨
      (∃ n, failCount f job = some n ∧ 5 < n) ∧
        dbGetFail f job = { f with fail := fail, get := f.get.erase job } := by
  unfold dbGetFail
  cases count : failCount f job with
  | none => exact ⟨f.fail, .inl ⟨nofun, rfl⟩⟩
  | some n =>
    dsimp only
    split_ifs with many
    · exact ⟨_, .inr ⟨⟨n, rfl, many⟩, rfl⟩⟩
    · refine ⟨_, .inl ⟨?_, rfl⟩⟩
      rintro ⟨m, same, more⟩
      exact many (Option.some.inj same ▸ more)

theorem schedule_frame (f : Facts) (d : Db) (connections : ℕ) (scanReady : Bool) :
    ∃ runscan scanning more run asked,
      schedule f d connections scanReady = { f with
        runscan := runscan, scanning := scanning, get := f.get ++ more, run := run,
        asked := f.asked ++ asked } ∧ asked ⊆ f.get ++ more := by
  have ⟨runscan, scanning, scanned⟩ : ∃ runscan scanning,
      (if scanReady then dbScheduleScan f else f) =
        { f with runscan := runscan, scanning := scanning } := by
    split_ifs
    · exact dbScheduleScan_frame f
    · exact ⟨f.runscan, f.scanning, rfl⟩
  unfold schedule
  dsimp only
  rw [scanned]
  split_ifs
  · exact ⟨runscan, scanning, [], f.run, [], by rw [List.append_nil, List.append_nil],
      List.nil_subset _⟩
  · obtain ⟨more, scheduled⟩ :=
      dbScheduleGets_frame { f with runscan := runscan, scanning := scanning } d
    rw [scheduled]
    obtain ⟨run, asked, processed, listed⟩ := dbProcessGets_frame
      { f with runscan := runscan, scanning := scanning, get := f.get ++ more }
      (min 10 connections) d
    exact ⟨runscan, scanning, more, run, asked, processed, listed⟩

theorem dbProcessScan_cases (f : Facts) (scan : Scan) (result : Option (List ℕ)) :
    (∃ scans step runscan, scans ⊆ f.scan ∧ dbProcessScan f scan result =
      { f with scanning := none, runscan := runscan, scan := scans, step := step }) ∨
    (scan ∈ f.scan ∧ result = some [] ∧ dbProcessScan f scan result =
      dbDrop { f with
        scanning := none, runscan := false, scan := f.scan.erase scan,
        ended := f.ended ++ [scan.db] } scan.db scan.keyEnd) ∨
    (scan ∈ f.scan ∧ ∃ step, dbProcessScan f scan result =
      dbAddGets (dbUpdateLow { f with
        scanning := none, runscan := false, scan := f.scan.erase scan, step := step }
        scan.db scan.key scan.keyEnd) 1 scan.keyEnd scan.db 0) := by
  have shorter : f.scan.erase scan ⊆ f.scan := List.erase_subset
  unfold dbProcessScan
  dsimp only
  by_cases running : f.runscan = true
  swap
  · rw [if_pos running]
    exact .inl ⟨f.scan, f.step, f.runscan, List.Subset.refl _, rfl⟩
  rw [if_neg (not_not.2 running)]
  cases result with
  | none => exact .inl ⟨f.scan, f.step, false, List.Subset.refl _, rfl⟩
  | some ks =>
    dsimp only
    by_cases listed : scan ∈ f.scan
    swap
    · rw [if_pos listed]
      exact .inl ⟨f.scan, f.step, false, List.Subset.refl _, rfl⟩
    rw [if_neg (not_not.2 listed)]
    by_cases last : ks = []
    · subst last
      rw [if_pos rfl]
      exact .inr (.inl ⟨listed, rfl, rfl⟩)
    rw [if_neg last]
    cases (diffList ks).bind averageList with
    | none => exact .inl ⟨_, f.step, false, shorter, rfl⟩
    | some avgDist =>
      cases before : f.step with
      | none => exact .inl ⟨_, none, false, shorter, rfl⟩
      | some old =>
        dsimp only
        cases f.numkeys with
        | none => exact .inl ⟨_, none, false, shorter, rfl⟩
        | some lastNumKeys => exact .inr (.inr ⟨listed, _, rfl⟩)

theorem dbProcessScan_keeps (scan : Scan) (result : Option (List ℕ))
    (honest : result = some [] → ∀ k ∈ keys scan.db, k < scan.keyEnd) :
    Keeps keys f (dbProcessScan f scan result) := by
  rcases dbProcessScan_cases f scan result with
    ⟨scans, step, runscan, _, same⟩ | ⟨_, last, same⟩ | ⟨_, step, same⟩
  · rw [same]
    exact .of_subset (List.Subset.refl _) (List.Subset.refl _)
  · -- the jobs that are dropped have no keys
    rw [same]
    refine .of_jobs (List.Subset.refl _) fun job listed k mem holds => .inr ⟨job, ?_, holds⟩
    refine List.mem_filter.2 ⟨listed, decide_eq_true ?_⟩
    rintro ⟨here, beyond⟩
    rw [here] at mem
    have inside := honest last k mem
    have := holds.2.1
    omega
  · obtain ⟨lowDb, low⟩ := dbUpdateLow_frame { f with
      scanning := none, runscan := false, scan := f.scan.erase scan, step := step }
      scan.db scan.key scan.keyEnd
    obtain ⟨more, added⟩ := dbAddGets_frame { f with
      scanning := none, runscan := false, scan := f.scan.erase scan, step := step,
      lowDb := lowDb } 1 scan.keyEnd scan.db 0
    rw [same, low, added]
    exact .of_subset (List.Subset.refl _) (List.subset_append_left _ _)

theorem dbGot_cases (keys : Db → List ℕ) (f : Facts) (job : Job) (answer : Answer) :
    ((answer = .rejected → (job.key, job.db) ∉ f.run) ∧
      ∃ run, dbGot keys f job answer = { f with asked := f.asked.erase job, run := run }) ∨
    (answer = .rejected ∧ (job.key, job.db) ∈ f.run ∧ ∃ run, dbGot keys f job answer =
      dbGetFail { f with asked := f.asked.erase job, run := run } job) ∨
    (∃ run numkeys scan, answer = .accepted ∧
      (scan = f.scan ∨ scan = f.scan ++ [⟨job.db, job.key, job.keyEnd⟩]) ∧
      ((job ∉ f.get ∧ dbGot keys f job answer =
        { f with
          asked := f.asked.erase job, run := run, numkeys := numkeys, scan := scan,
          stored := (job.db, job.key, job.keyEnd) :: f.stored }) ∨
      (job ∈ f.get ∧ dbGot keys f job answer =
        dbUpdateLow { f with
          asked := f.asked.erase job, run := run, numkeys := numkeys, scan := scan,
          stored := (job.db, job.key, job.keyEnd) :: f.stored, get := f.get.erase job }
          job.db job.key job.keyEnd))) := by
  unfold dbGot
  dsimp only
  by_cases running : (job.key, job.db) ∈ f.run
  swap
  · rw [if_pos running]
    exact .inl ⟨fun _ => running, f.run, rfl⟩
  rw [if_neg (not_not.2 running)]
  cases answer with
  | missing => exact .inl ⟨nofun, _, rfl⟩
  | rejected => exact .inr (.inl ⟨rfl, running, _, rfl⟩)
  | accepted =>
    have ⟨numkeys, scan, pushed, same⟩ : ∃ numkeys scan,
        (scan = f.scan ∨ scan = f.scan ++ [⟨job.db, job.key, job.keyEnd⟩]) ∧
        (if dbNum (keys job.db) job.key job.keyEnd = 0 then
          dbPushScan { f with
            asked := f.asked.erase job, run := f.run.erase (job.key, job.db),
            stored := (job.db, job.key, job.keyEnd) :: f.stored } job.db job.key job.keyEnd
        else
          { f with
            asked := f.asked.erase job, run := f.run.erase (job.key, job.db),
            stored := (job.db, job.key, job.keyEnd) :: f.stored,
            numkeys := some (dbNum (keys job.db) job.key job.keyEnd) }) =
        { f with
          asked := f.asked.erase job, run := f.run.erase (job.key, job.db), numkeys := numkeys,
          scan := scan, stored := (job.db, job.key, job.keyEnd) :: f.stored } := by
      split_ifs
      · rcases dbPushScan_frame { f with
            asked := f.asked.erase job, run := f.run.erase (job.key, job.db),
            stored := (job.db, job.key, job.keyEnd) :: f.stored } job.db job.key job.keyEnd with
          same | same
        · exact ⟨f.numkeys, f.scan, .inl rfl, same⟩
        · exact ⟨f.numkeys, _, .inr rfl, same⟩
      · exact ⟨_, f.scan, .inl rfl, rfl⟩
    dsimp only
    rw [same]
    refine .inr (.inr ⟨f.run.erase (job.key, job.db), numkeys, scan, rfl, pushed, ?_⟩)
    by_cases listed : job ∈ f.get
    · exact .inr ⟨listed, if_neg (not_not.2 listed)⟩
    · exact .inl ⟨listed, if_pos listed⟩

theorem stored_here (job : Job) {k : ℕ} (holds : job.Holds job.db k)
    (stored : (job.db, job.key, job.keyEnd) ∈ f.stored) : f.Stored job.db k :=
  ⟨job.key, job.keyEnd, stored, holds.2.1, holds.2.2.le⟩

theorem dbGot_keeps (job : Job) (answer : Answer) (accepted : answer ≠ .rejected) :
    Keeps keys f (dbGot keys f job answer) := by
  rcases dbGot_cases keys f job answer with ⟨_, run, same⟩ | ⟨rejected, _⟩ |
    ⟨run, numkeys, scan, _, _, ⟨_, same⟩ | ⟨_, same⟩⟩
  · rw [same]
    exact .of_subset (List.Subset.refl _) (List.Subset.refl _)
  · exact absurd rejected accepted
  · rw [same]
    exact .of_subset (List.subset_cons_self _ _) (List.Subset.refl _)
  · obtain ⟨lowDb, low⟩ := dbUpdateLow_frame { f with
      asked := f.asked.erase job, run := run, numkeys := numkeys, scan := scan,
      stored := (job.db, job.key, job.keyEnd) :: f.stored, get := f.get.erase job }
      job.db job.key job.keyEnd
    rw [same, low]
    refine .of_jobs (List.subset_cons_self _ _) fun other listed k mem holds => ?_
    by_cases here : other = job
    · subst here
      exact .inl (stored_here other holds List.mem_cons_self)
    · exact .inr ⟨other, (List.mem_erase_of_ne here).2 listed, holds⟩

theorem dbGot_rejected_keeps_iff (job : Job) (asked : job ∈ f.asked) :
    Keeps keys f (dbGot keys f job .rejected) ↔ Spared keys f (.got job .rejected) := by
  rcases dbGot_cases keys f job .rejected with ⟨idle, run, same⟩ | ⟨_, running, run, same⟩ |
    ⟨_, _, _, accepted, _⟩
  · rw [same]
    exact ⟨fun _ _ running => absurd running (idle rfl),
      fun _ => .of_subset (List.Subset.refl _) (List.Subset.refl _)⟩
  · rw [same]
    obtain ⟨fail, ⟨early, kept⟩ | ⟨sixth, dropped⟩⟩ :=
      dbGetFail_frame { f with asked := f.asked.erase job, run := run } job
    · rw [kept]
      exact ⟨fun _ _ _ _ sixth => absurd sixth early,
        fun _ => .of_subset (List.Subset.refl _) (List.Subset.refl _)⟩
    · rw [dropped]
      constructor
      · intro keeps _ _ listed _ k mem holds
        exact keeps job.db k mem (.inr ⟨job, listed, holds⟩)
      · intro spared
        refine .of_jobs (List.Subset.refl _) fun other listed k mem holds => ?_
        by_cases here : other = job
        · subst here
          exact spared asked running listed sixth k mem holds
        · exact .inr ⟨other, (List.mem_erase_of_ne here).2 listed, holds⟩
  · exact nomatch accepted

theorem syncRun_cases (f : Facts) (d : Db) (connections : ℕ) (scanReady : Bool) :
    (∃ ended step, f.get = [] ∧ d ∈ f.ended ∧ ended ⊆ f.ended ∧
      syncRun f d connections scanReady =
        { f with ended := ended, mode := dbDone d, step := step }) ∨
    ∃ ended mode step, ended ⊆ f.ended ∧ (mode = f.mode ∨ f.get = [] ∧ d ∈ f.ended) ∧
      syncRun f d connections scanReady =
        schedule { f with ended := ended, mode := mode, step := step } d connections scanReady := by
  unfold syncRun
  split_ifs with finished
  · cases f.step with
    | some _ => exact .inl ⟨_, _, finished.1, finished.2, List.erase_subset, rfl⟩
    | none => exact .inr ⟨_, _, none, fun _ listed => List.mem_of_mem_filter listed, .inr finished, rfl⟩
  · exact .inr ⟨f.ended, f.mode, f.step, List.Subset.refl _, .inl rfl, rfl⟩

theorem syncRun_keeps (d : Db) (connections : ℕ) (scanReady : Bool) :
    Keeps keys f (syncRun f d connections scanReady) := by
  rcases syncRun_cases f d connections scanReady with
    ⟨ended, step, _, _, _, same⟩ | ⟨ended, mode, step, _, _, same⟩
  · rw [same]
    exact .of_subset (List.Subset.refl _) (List.Subset.refl _)
  · obtain ⟨runscan, scanning, more, run, asked, scheduled, _⟩ := schedule_frame
      { f with ended := ended, mode := mode, step := step } d connections scanReady
    rw [same, scheduled]
    exact .of_subset (List.Subset.refl _) (List.subset_append_left _ _)

theorem step_keeps_iff {e : Event} (honest : Honest keys f e) :
    Keeps keys f (step keys f e) ↔ Spared keys f e := by
  cases e with
  | sync connections scanReady =>
    refine ⟨fun _ => trivial, fun _ => ?_⟩
    dsimp only [step]
    split
    · exact syncRun_keeps _ connections scanReady
    · exact .refl keys f
  | got job answer =>
    dsimp only [step]
    by_cases asked : job ∈ f.asked
    · rw [if_pos asked]
      cases answer with
      | missing => exact ⟨fun _ => trivial, fun _ => dbGot_keeps job .missing nofun⟩
      | accepted => exact ⟨fun _ => trivial, fun _ => dbGot_keeps job .accepted nofun⟩
      | rejected => exact dbGot_rejected_keeps_iff job asked
    · rw [if_neg asked]
      refine ⟨fun _ => ?_, fun _ => .refl keys f⟩
      cases answer with
      | missing | accepted => trivial
      | rejected => exact fun asked' => absurd asked' asked
  | scanned result =>
    refine ⟨fun _ => trivial, fun _ => ?_⟩
    dsimp only [step]
    cases running : f.scanning with
    | none => exact .refl keys f
    | some scan =>
      apply dbProcessScan_keeps
      rintro rfl
      exact (honest scan running).2 rfl

end Keeps

section Covered

variable {keys : Db → List ℕ} {f f' : Facts}

/-- The keys below the low watermark, and those of the ranges that the scans come after, are
stored. -/
structure Stocked (keys : Db → List ℕ) (f : Facts) : Prop where
  low : ∀ d, ∀ k ∈ keys d, k < f.lowDb d → f.Stored d k
  scan : ∀ scan ∈ f.scan, ∀ k ∈ keys scan.db, scan.key ≤ k → k < scan.keyEnd → f.Stored scan.db k

/-- The keys below `x` are stored or pending. -/
def UpTo (keys : Db → List ℕ) (f : Facts) (d : Db) (x : ℕ) : Prop :=
  ∀ k ∈ keys d, k < x → f.Stored d k ∨ f.Pending d k

/-- No gap lies before a range that is requested or scanned, or before the end. -/
structure Covered (keys : Db → List ℕ) (f : Facts) : Prop where
  get : ∀ job ∈ f.get, UpTo keys f job.db job.key
  asked : ∀ job ∈ f.asked, UpTo keys f job.db job.key
  scan : ∀ scan ∈ f.scan, UpTo keys f scan.db scan.keyEnd
  ended : ∀ d ∈ f.ended, ∀ k ∈ keys d, f.Stored d k ∨ f.Pending d k

theorem Stored.mono {d : Db} {k : ℕ} (stored : f.Stored d k) (more : f.stored ⊆ f'.stored) :
    f'.Stored d k := by
  obtain ⟨key, keyEnd, range, inside⟩ := stored
  exact ⟨key, keyEnd, more range, inside⟩

theorem UpTo.keeps {d : Db} {x : ℕ} (upTo : UpTo keys f d x) (keeps : Keeps keys f f') :
    UpTo keys f' d x := fun k mem below => keeps d k mem (upTo k mem below)

theorem Covered.keeps (covered : Covered keys f) (keeps : Keeps keys f f')
    (get : ∀ job ∈ f'.get, job ∈ f.get ∨ UpTo keys f' job.db job.key)
    (asked : ∀ job ∈ f'.asked, job ∈ f.asked ∨ job ∈ f'.get)
    (scan : ∀ scan ∈ f'.scan, scan ∈ f.scan ∨ UpTo keys f' scan.db scan.keyEnd)
    (ended : ∀ d ∈ f'.ended, d ∈ f.ended ∨ ∀ k ∈ keys d, f'.Stored d k ∨ f'.Pending d k) :
    Covered keys f' := by
  have jobs : ∀ job ∈ f'.get, UpTo keys f' job.db job.key := by
    intro job listed
    rcases get job listed with before | upTo
    · exact (covered.get job before).keeps keeps
    · exact upTo
  refine ⟨jobs, fun job listed => ?_, fun scan' listed => ?_, fun d listed => ?_⟩
  · rcases asked job listed with before | now
    · exact (covered.asked job before).keeps keeps
    · exact jobs job now
  · rcases scan scan' listed with before | upTo
    · exact (covered.scan scan' before).keeps keeps
    · exact upTo
  · rcases ended d listed with before | all
    · exact fun k mem => keeps d k mem (covered.ended d before k mem)
    · exact all

theorem Covered.dbAddGets (covered : Covered keys f) {n key step : ℕ} {d : Db}
    (upTo : UpTo keys f d key) : Covered keys (dbAddGets f n key d step) := by
  induction n generalizing f key with
  | zero => exact covered
  | succ n ih =>
    unfold Sync.dbAddGets
    dsimp only
    have next {f' : Facts} (keeps : Keeps keys f f') (listed : ⟨key, d, step⟩ ∈ f'.get) :
        UpTo keys f' d (key + step) := by
      intro k mem below
      by_cases before : k < key
      · exact keeps d k mem (upTo k mem before)
      · exact .inr ⟨⟨key, d, step⟩, listed, rfl, not_lt.1 before, below⟩
    split_ifs with present
    · exact ih covered (next (.refl keys f) present.2)
    · have keeps : Keeps keys f { f with get := f.get ++ [⟨key, d, step⟩] } :=
        .of_subset (List.Subset.refl _) (List.subset_append_left _ _)
      refine ih (covered.keeps keeps ?_ (fun _ => .inl) (fun _ => .inl) (fun _ => .inl))
        (next keeps (List.mem_append_right _ (List.mem_singleton_self _)))
      intro job listed
      rcases List.mem_append.1 listed with before | new
      · exact .inl before
      · obtain rfl := List.mem_singleton.1 new
        exact .inr (upTo.keeps keeps)

theorem Stocked.mono (stocked : Stocked keys f) (low : f'.lowDb = f.lowDb)
    (stored : f.stored ⊆ f'.stored)
    (scan : ∀ scan ∈ f'.scan, scan ∈ f.scan ∨
      ∀ k ∈ keys scan.db, scan.key ≤ k → k < scan.keyEnd → f'.Stored scan.db k) :
    Stocked keys f' := by
  refine ⟨fun d k mem below => ?_, fun scan' listed => ?_⟩
  · rw [low] at below
    exact Stored.mono (stocked.low d k mem below) stored
  · rcases scan scan' listed with before | range
    · exact fun k mem from' below => Stored.mono (stocked.scan scan' before k mem from' below) stored
    · exact range

theorem Stocked.dbUpdateLow (stocked : Stocked keys f) {d : Db} {key keyEnd : ℕ}
    (range : ∀ k ∈ keys d, key ≤ k → k < keyEnd → f.Stored d k) :
    Stocked keys (dbUpdateLow f d key keyEnd) := by
  unfold Sync.dbUpdateLow
  split_ifs with inside
  · refine ⟨fun d' k mem below => ?_, stocked.scan⟩
    by_cases here : d' = d
    · subst here
      dsimp only at below
      rw [Function.update_self] at below
      by_cases low : k < f.lowDb d'
      · exact stocked.low d' k mem low
      · exact range k mem (inside.1.trans (not_lt.1 low)) below
    · dsimp only at below
      rw [Function.update_of_ne here] at below
      exact stocked.low d' k mem below
  · exact stocked

theorem Stocked.dbAddGets (stocked : Stocked keys f) (n key : ℕ) (d : Db) (step : ℕ) :
    Stocked keys (dbAddGets f n key d step) := by
  obtain ⟨more, same⟩ := dbAddGets_frame f n key d step
  rw [same]
  exact stocked.mono rfl (List.Subset.refl _) fun _ => .inl

theorem Stocked.dbGot (stocked : Stocked keys f) (job : Job) (answer : Answer) :
    Stocked keys (dbGot keys f job answer) := by
  rcases dbGot_cases keys f job answer with ⟨_, run, same⟩ | ⟨_, _, run, same⟩ |
    ⟨run, numkeys, scan, _, pushed, done⟩
  · rw [same]
    exact stocked.mono rfl (List.Subset.refl _) fun _ => .inl
  · rw [same]
    obtain ⟨fail, ⟨_, kept⟩ | ⟨_, dropped⟩⟩ :=
      dbGetFail_frame { f with asked := f.asked.erase job, run := run } job
    · rw [kept]
      exact stocked.mono rfl (List.Subset.refl _) fun _ => .inl
    · rw [dropped]
      exact stocked.mono rfl (List.Subset.refl _) fun _ => .inl
  · have range {f' : Facts} (stored : f'.stored = (job.db, job.key, job.keyEnd) :: f.stored) :
        ∀ k ∈ keys job.db, job.key ≤ k → k < job.keyEnd → f'.Stored job.db k :=
      fun k _ from' below =>
        stored_here job ⟨rfl, from', below⟩ (stored ▸ List.mem_cons_self)
    have more (get : List Job) : Stocked keys { f with
        asked := f.asked.erase job, run := run, numkeys := numkeys, scan := scan,
        stored := (job.db, job.key, job.keyEnd) :: f.stored, get := get } := by
      refine stocked.mono rfl (List.subset_cons_self _ _) fun scan' listed => ?_
      rcases pushed with rfl | rfl
      · exact .inl listed
      · rcases List.mem_append.1 listed with before | new
        · exact .inl before
        · obtain rfl := List.mem_singleton.1 new
          exact .inr (range rfl)
    rcases done with ⟨_, same⟩ | ⟨_, same⟩
    · rw [same]
      exact more f.get
    · rw [same]
      exact (more (f.get.erase job)).dbUpdateLow (range rfl)

theorem Stocked.dbProcessScan (stocked : Stocked keys f) (scan : Scan)
    (result : Option (List ℕ)) : Stocked keys (dbProcessScan f scan result) := by
  have shorter : f.scan.erase scan ⊆ f.scan := List.erase_subset
  rcases dbProcessScan_cases f scan result with
    ⟨scans, step, runscan, subset, same⟩ | ⟨_, _, same⟩ | ⟨listed, step, same⟩
  · rw [same]
    exact stocked.mono rfl (List.Subset.refl _) fun _ listed => .inl (subset listed)
  · rw [same]
    exact stocked.mono rfl (List.Subset.refl _) fun _ listed => .inl (shorter listed)
  · have less : Stocked keys { f with
        scanning := none, runscan := false, scan := f.scan.erase scan, step := step } :=
      stocked.mono rfl (List.Subset.refl _) fun _ listed => .inl (shorter listed)
    rw [same]
    exact (less.dbUpdateLow (stocked.scan scan listed)).dbAddGets ..

theorem Stocked.step (stocked : Stocked keys f) (e : Event) : Stocked keys (step keys f e) := by
  cases e with
  | sync connections scanReady =>
    dsimp only [Sync.step]
    split
    case h_1 d _ =>
      rcases syncRun_cases f d connections scanReady with
        ⟨ended, step, _, _, _, same⟩ | ⟨ended, mode, step, _, _, same⟩
      · rw [same]
        exact stocked.mono rfl (List.Subset.refl _) fun _ => .inl
      · obtain ⟨runscan, scanning, more, run, asked, scheduled, _⟩ := schedule_frame
          { f with ended := ended, mode := mode, step := step } d connections scanReady
        rw [same, scheduled]
        exact stocked.mono rfl (List.Subset.refl _) fun _ => .inl
    · exact stocked
  | got job answer =>
    dsimp only [Sync.step]
    split_ifs
    · exact stocked.dbGot job answer
    · exact stocked
  | scanned result =>
    dsimp only [Sync.step]
    split
    · exact stocked.dbProcessScan ..
    · exact stocked

theorem Covered.schedule (covered : Covered keys f) (stocked : Stocked keys f) (d : Db)
    (connections : ℕ) (scanReady : Bool) :
    Covered keys (schedule f d connections scanReady) := by
  have ⟨runscan, scanning, scanned⟩ : ∃ runscan scanning,
      (if scanReady then dbScheduleScan f else f) =
        { f with runscan := runscan, scanning := scanning } := by
    split_ifs
    · exact dbScheduleScan_frame f
    · exact ⟨f.runscan, f.scanning, rfl⟩
  have covered : Covered keys { f with runscan := runscan, scanning := scanning } :=
    covered.keeps (.of_subset (List.Subset.refl _) (List.Subset.refl _)) (fun _ => .inl)
      (fun _ => .inl) (fun _ => .inl) fun _ => .inl
  unfold Sync.schedule
  dsimp only
  rw [scanned]
  split_ifs
  · exact covered
  · have listed : Covered keys
        (dbScheduleGets { f with runscan := runscan, scanning := scanning } d) := by
      rcases dbScheduleGets_cases { f with runscan := runscan, scanning := scanning } d with
        same | ⟨n, step, same⟩
      · rw [same]
        exact covered
      · -- the jobs start at the low watermark, below which everything is stored
        rw [same]
        exact covered.dbAddGets fun k mem below => .inl (stocked.low d k mem below)
    obtain ⟨run, asked, same, fromList⟩ := dbProcessGets_frame
      (dbScheduleGets { f with runscan := runscan, scanning := scanning } d) (min 10 connections) d
    rw [same]
    refine listed.keeps (.of_subset (List.Subset.refl _) (List.Subset.refl _)) (fun _ => .inl)
      (fun job member => ?_) (fun _ => .inl) fun _ => .inl
    exact (List.mem_append.1 member).imp_right fun new => fromList new

theorem Covered.dbGot (covered : Covered keys f) {job : Job} (asked : job ∈ f.asked)
    {answer : Answer} (keeps : Keeps keys f (dbGot keys f job answer)) :
    Covered keys (dbGot keys f job answer) := by
  have fewer : f.asked.erase job ⊆ f.asked := List.erase_subset
  have fewerJobs : f.get.erase job ⊆ f.get := List.erase_subset
  rcases dbGot_cases keys f job answer with ⟨_, run, same⟩ | ⟨_, _, run, same⟩ |
    ⟨run, numkeys, scan, _, pushed, done⟩
  · rw [same] at keeps ⊢
    exact covered.keeps keeps (fun _ => .inl) (fun _ listed => .inl (fewer listed)) (fun _ => .inl)
      fun _ => .inl
  · rw [same] at keeps ⊢
    obtain ⟨fail, ⟨_, kept⟩ | ⟨_, dropped⟩⟩ :=
      dbGetFail_frame { f with asked := f.asked.erase job, run := run } job
    · rw [kept] at keeps ⊢
      exact covered.keeps keeps (fun _ => .inl) (fun _ listed => .inl (fewer listed))
        (fun _ => .inl) fun _ => .inl
    · rw [dropped] at keeps ⊢
      exact covered.keeps keeps (fun _ listed => .inl (fewerJobs listed))
        (fun _ listed => .inl (fewer listed)) (fun _ => .inl) fun _ => .inl
  · -- a scan comes after what was covered before the job, and its range
    have scans {f' : Facts} (stored : f'.stored = (job.db, job.key, job.keyEnd) :: f.stored)
        (keeps : Keeps keys f f') :
        ∀ scan' ∈ scan, scan' ∈ f.scan ∨ UpTo keys f' scan'.db scan'.keyEnd := by
      intro scan' listed
      rcases pushed with rfl | rfl
      · exact .inl listed
      · rcases List.mem_append.1 listed with before | new
        · exact .inl before
        · obtain rfl := List.mem_singleton.1 new
          refine .inr fun k mem below => ?_
          by_cases before : k < job.key
          · exact keeps job.db k mem (covered.asked job asked k mem before)
          · exact .inl (stored_here job ⟨rfl, not_lt.1 before, below⟩ (stored ▸ List.mem_cons_self))
    rcases done with ⟨_, same⟩ | ⟨_, same⟩
    · rw [same] at keeps ⊢
      exact covered.keeps keeps (fun _ => .inl) (fun _ listed => .inl (fewer listed))
        (scans rfl keeps) fun _ => .inl
    · obtain ⟨lowDb, low⟩ := dbUpdateLow_frame { f with
        asked := f.asked.erase job, run := run, numkeys := numkeys, scan := scan,
        stored := (job.db, job.key, job.keyEnd) :: f.stored, get := f.get.erase job }
        job.db job.key job.keyEnd
      rw [same, low] at keeps ⊢
      exact covered.keeps keeps (fun _ listed => .inl (fewerJobs listed))
        (fun _ listed => .inl (fewer listed)) (scans rfl keeps) fun _ => .inl

theorem Covered.dbProcessScan (covered : Covered keys f) {scan : Scan} {result : Option (List ℕ)}
    (honest : result = some [] → ∀ k ∈ keys scan.db, k < scan.keyEnd) :
    Covered keys (dbProcessScan f scan result) := by
  have keeps := dbProcessScan_keeps (f := f) scan result honest
  have shorter : f.scan.erase scan ⊆ f.scan := List.erase_subset
  rcases dbProcessScan_cases f scan result with
    ⟨scans, step, runscan, subset, same⟩ | ⟨listed, last, same⟩ | ⟨listed, step, same⟩
  · rw [same] at keeps ⊢
    exact covered.keeps keeps (fun _ => .inl) (fun _ => .inl) (fun _ more => .inl (subset more))
      fun _ => .inl
  · rw [same] at keeps ⊢
    refine covered.keeps keeps (fun _ left => .inl (List.mem_of_mem_filter left)) (fun _ => .inl)
      (fun _ left => .inl (shorter left)) fun d ended => ?_
    rcases List.mem_append.1 ended with before | new
    · exact .inl before
    · obtain rfl := List.mem_singleton.1 new
      exact .inr fun k mem => keeps scan.db k mem (covered.scan scan listed k mem (honest last k mem))
  · obtain ⟨lowDb, low⟩ := dbUpdateLow_frame { f with
      scanning := none, runscan := false, scan := f.scan.erase scan, step := step }
      scan.db scan.key scan.keyEnd
    rw [same, low]
    have same' : Keeps keys f { f with
        scanning := none, runscan := false, scan := f.scan.erase scan, step := step,
        lowDb := lowDb } := .of_subset (List.Subset.refl _) (List.Subset.refl _)
    have less : Covered keys { f with
        scanning := none, runscan := false, scan := f.scan.erase scan, step := step,
        lowDb := lowDb } :=
      covered.keeps same' (fun _ => .inl) (fun _ => .inl) (fun _ left => .inl (shorter left))
        fun _ => .inl
    exact less.dbAddGets ((covered.scan scan listed).keeps same')

theorem Covered.step (covered : Covered keys f) (stocked : Stocked keys f) {e : Event}
    (honest : Honest keys f e) (spared : Spared keys f e) : Covered keys (step keys f e) := by
  have keeps := (step_keeps_iff honest).2 spared
  cases e with
  | sync connections scanReady =>
    dsimp only [Sync.step]
    split
    case h_1 d _ =>
      rcases syncRun_cases f d connections scanReady with
        ⟨ended, step, _, _, subset, same⟩ | ⟨ended, mode, step, subset, _, same⟩
      · rw [same]
        exact covered.keeps (.of_subset (List.Subset.refl _) (List.Subset.refl _)) (fun _ => .inl)
          (fun _ => .inl) (fun _ => .inl) fun _ left => .inl (subset left)
      · rw [same]
        have moved : Covered keys { f with ended := ended, mode := mode, step := step } :=
          covered.keeps (.of_subset (List.Subset.refl _) (List.Subset.refl _)) (fun _ => .inl)
            (fun _ => .inl) (fun _ => .inl) fun _ left => .inl (subset left)
        exact moved.schedule (stocked.mono rfl (List.Subset.refl _) fun _ => .inl) ..
    · exact covered
  | got job answer =>
    dsimp only [Sync.step] at keeps ⊢
    split_ifs at keeps ⊢ with asked
    · exact covered.dbGot asked keeps
    · exact covered
  | scanned result =>
    dsimp only [Sync.step]
    cases running : f.scanning with
    | none => exact covered
    | some scan =>
      apply covered.dbProcessScan
      rintro rfl
      exact (honest scan running).2 rfl

theorem dbGot_mode (job : Job) (answer : Answer) : (dbGot keys f job answer).mode = f.mode := by
  rcases dbGot_cases keys f job answer with ⟨_, run, same⟩ | ⟨_, _, run, same⟩ |
    ⟨run, numkeys, scan, _, _, ⟨_, same⟩ | ⟨_, same⟩⟩
  · rw [same]
  · obtain ⟨fail, ⟨_, kept⟩ | ⟨_, dropped⟩⟩ :=
      dbGetFail_frame { f with asked := f.asked.erase job, run := run } job
    · rw [same, kept]
    · rw [same, dropped]
  · rw [same]
  · obtain ⟨lowDb, low⟩ := dbUpdateLow_frame { f with
      asked := f.asked.erase job, run := run, numkeys := numkeys, scan := scan,
      stored := (job.db, job.key, job.keyEnd) :: f.stored, get := f.get.erase job }
      job.db job.key job.keyEnd
    rw [same, low]

theorem dbProcessScan_mode (scan : Scan) (result : Option (List ℕ)) :
    (dbProcessScan f scan result).mode = f.mode := by
  rcases dbProcessScan_cases f scan result with
    ⟨scans, step, runscan, _, same⟩ | ⟨_, _, same⟩ | ⟨_, step, same⟩
  · rw [same]
  · rw [same]
    rfl
  · obtain ⟨lowDb, low⟩ := dbUpdateLow_frame { f with
      scanning := none, runscan := false, scan := f.scan.erase scan, step := step }
      scan.db scan.key scan.keyEnd
    obtain ⟨more, added⟩ := dbAddGets_frame { f with
      scanning := none, runscan := false, scan := f.scan.erase scan, step := step,
      lowDb := lowDb } 1 scan.keyEnd scan.db 0
    rw [same, low, added]

theorem step_moves {e : Event} {d : Db} (mode : f.mode = .db d)
    (moves : (step keys f e).mode ≠ .db d) : f.get = [] ∧ d ∈ f.ended := by
  cases e with
  | sync connections scanReady =>
    dsimp only [Sync.step] at moves
    rw [mode] at moves
    dsimp only at moves
    rcases syncRun_cases f d connections scanReady with
      ⟨_, _, none', ended, _⟩ | ⟨ended, mode', step, _, kept | finished, same⟩
    · exact ⟨none', ended⟩
    · obtain ⟨runscan, scanning, more, run, asked, scheduled, _⟩ := schedule_frame
        { f with ended := ended, mode := mode', step := step } d connections scanReady
      rw [same, scheduled] at moves
      exact absurd (kept.trans mode) moves
    · exact finished
  | got job answer =>
    dsimp only [Sync.step] at moves
    split_ifs at moves
    · exact absurd ((dbGot_mode job answer).trans mode) moves
    · exact absurd mode moves
  | scanned result =>
    dsimp only [Sync.step] at moves
    split at moves
    · exact absurd ((dbProcessScan_mode _ result).trans mode) moves
    · exact absurd mode moves

theorem Covered.moves (covered : Covered keys f) {e : Event} {d : Db} (mode : f.mode = .db d)
    (moves : (Sync.step keys f e).mode ≠ .db d) : ∀ k ∈ keys d, f.Stored d k := by
  intro k mem
  obtain ⟨empty, ended⟩ := step_moves mode moves
  rcases covered.ended d ended k mem with stored | ⟨job, listed, _⟩
  · exact stored
  · rw [empty] at listed
    exact nomatch listed

theorem Started.stocked (started : Started f) : Stocked keys f where
  low := fun d k _ below => absurd (started.lowDb d ▸ below) (Nat.not_lt_zero k)
  scan := fun scan listed => nomatch (started.scan ▸ listed : scan ∈ [])

theorem Started.covered (started : Started f) : Covered keys f where
  get := fun job listed => nomatch (started.get ▸ listed : job ∈ [])
  asked := fun job listed => nomatch (started.asked ▸ listed : job ∈ [])
  scan := fun scan listed => nomatch (started.scan ▸ listed : scan ∈ [])
  ended := fun d listed => nomatch (started.ended ▸ listed : d ∈ [])

theorem Reach.stocked {start : Facts} (started : Started start) (reach : Reach keys start f) :
    Stocked keys f := by
  induction reach with
  | start => exact started.stocked
  | step _ _ ih => exact ih.step _

theorem Kept.covered {start : Facts} (started : Started start) (kept : Kept keys start f) :
    Stocked keys f ∧ Covered keys f := by
  induction kept with
  | start => exact ⟨started.stocked, started.covered⟩
  | step _ honest spared ih => exact ⟨ih.1.step _, ih.2.step ih.1 honest spared⟩

/-- In every run the keys below the low watermark are stored, and a step loses a key of a range
that is to be requested exactly when it gives up a job that is still needed. Where no step does, the
mode moves on from a database only when all its keys are stored. -/
theorem no_gap_iff (keys : Db → List ℕ) (start : Facts) (started : Started start) :
    (∀ f, Reach keys start f →
      (∀ d, ∀ k ∈ keys d, k < f.lowDb d → f.Stored d k) ∧
      ∀ e, Honest keys f e → (Keeps keys f (step keys f e) ↔ Spared keys f e)) ∧
    ∀ f e d, Kept keys start f → f.mode = .db d → (step keys f e).mode ≠ .db d →
      ∀ k ∈ keys d, f.Stored d k :=
  ⟨fun _ reach => ⟨(reach.stocked started).low, fun _ honest => step_keeps_iff honest⟩,
    fun _ _ _ kept mode moves => (kept.covered started).2.moves mode moves⟩

/-- The database phase with the defaults of `sync_setup` -/
def fresh : Facts where
  mode := .db .symbols
  step := some 10000
  lookahead := 10
  lowDb := fun _ => 0
  get := []
  run := []
  scan := []
  runscan := false
  ended := []
  fail := []
  numkeys := none
  asked := []
  scanning := none
  stored := []

theorem fresh_started : Started fresh where
  mode := rfl
  lowDb := fun _ => rfl
  get := rfl
  run := rfl
  scan := rfl
  runscan := rfl
  ended := rfl
  fail := rfl
  asked := rfl
  scanning := rfl
  stored := rfl

/-- One symbol, with the key 5 -/
def oneSymbol : Db → List ℕ
  | .symbols => [5]
  | _ => []

/-- All events of a list are such when they happen. -/
def Each (keys : Db → List ℕ) (ok : Facts → Event → Prop) : Facts → List Event → Prop
  | _, [] => True
  | f, e :: es => ok f e ∧ Each keys ok (step keys f e) es

theorem Reach.run {start : Facts} (reach : Reach keys start f) {es : List Event}
    (honest : Each keys (Honest keys) f es) :
    Reach keys start (es.foldl (Sync.step keys) f) := by
  induction es generalizing f with
  | nil => exact reach
  | cons e es ih => exact ih (.step reach honest.1) honest.2

theorem Kept.run {start : Facts} (kept : Kept keys start f) {es : List Event}
    (honest : Each keys (fun f e => Honest keys f e ∧ Spared keys f e) f es) :
    Kept keys start (es.foldl (Sync.step keys) f) := by
  induction es generalizing f with
  | nil => exact kept
  | cons e es ih => exact ih (.step kept honest.1.1 honest.1.2) honest.2

/-- All requests up to the end are answered. -/
def complete : List Event :=
  [.sync 10 false, .got ⟨0, .symbols, 10000⟩ .accepted, .got ⟨10000, .symbols, 10000⟩ .accepted,
    .sync 0 true, .scanned (some []), .got ⟨20000, .symbols, 10000⟩ .accepted]

/-- The symbol is stored when the sync moves on to the next database. -/
theorem no_gap_complete :
    (step oneSymbol (complete.foldl (step oneSymbol) fresh) (.sync 0 false)).mode = .db .program ∧
      (complete.foldl (step oneSymbol) fresh).Stored .symbols 5 := by
  have kept : Kept oneSymbol fresh (complete.foldl (step oneSymbol) fresh) := by
    refine .run .start ⟨⟨trivial, trivial⟩, ⟨trivial, trivial⟩, ⟨trivial, trivial⟩,
      ⟨trivial, trivial⟩, ⟨?_, trivial⟩, ⟨trivial, trivial⟩, trivial⟩
    intro scan running
    obtain rfl : ⟨.symbols, 10000, 20000⟩ = scan := Option.some.inj (Eq.trans (by decide) running)
    exact ⟨nofun, fun _ => by decide⟩
  have moved : (step oneSymbol (complete.foldl (step oneSymbol) fresh) (.sync 0 false)).mode =
      .db .program := by decide
  refine ⟨moved, (no_gap_iff oneSymbol fresh fresh_started).2 _ (.sync 0 false) .symbols kept
    (by decide) ?_ 5 (by decide)⟩
  rw [moved]
  decide

/-- The range of the symbol is rejected six times, while the ranges after it turn out to be empty
and to be the last ones. -/
def giveUp : List Event :=
  [.sync 10 false, .got ⟨10000, .symbols, 10000⟩ .accepted, .sync 0 true, .scanned (some []),
    .got ⟨20000, .symbols, 10000⟩ .accepted] ++
  [.got ⟨0, .symbols, 10000⟩ .rejected, .sync 1 false, .got ⟨0, .symbols, 10000⟩ .rejected,
    .sync 1 false, .got ⟨0, .symbols, 10000⟩ .rejected, .sync 1 false,
    .got ⟨0, .symbols, 10000⟩ .rejected, .sync 1 false, .got ⟨0, .symbols, 10000⟩ .rejected,
    .sync 1 false, .got ⟨0, .symbols, 10000⟩ .rejected, .sync 1 false]

theorem giveUp_honest : Each oneSymbol (Honest oneSymbol) fresh giveUp := by
  refine ⟨trivial, trivial, trivial, ?_, trivial, trivial, trivial, trivial, trivial, trivial,
    trivial, trivial, trivial, trivial, trivial, trivial, trivial, trivial⟩
  intro scan running
  obtain rfl : ⟨.symbols, 10000, 20000⟩ = scan := Option.some.inj (Eq.trans (by decide) running)
  exact ⟨nofun, fun _ => by decide⟩

/-- The sync moves on to the next database without the symbol. -/
theorem symbol_skipped :
    ∃ f, Reach oneSymbol fresh f ∧ f.mode = .db .program ∧ ¬f.Stored .symbols 5 := by
  refine ⟨_, .run .start giveUp_honest, by decide, ?_⟩
  rintro ⟨key, keyEnd, range, inside⟩
  have ranges : (giveUp.foldl (step oneSymbol) fresh).stored =
      [(.symbols, 20000, 30000), (.symbols, 10000, 20000)] := by decide
  rw [ranges] at range
  simp at range
  omega

end Covered

end Epilog.Node.Sync
