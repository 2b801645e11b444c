/- module: TaskerRT/Policy/Eligibility
   source: crates/tasker-core/src/policy/eligibility.rs
   digest: The reverse dependency index: registration, completion and the termination cascade. -/

import TaskerRT.Policy.ReadySet

set_option autoImplicit false

namespace TaskerRT.Policy

open Library Domain

inductive Readiness where
  | ready
  | blocked
  | cancelled
  deriving DecidableEq, Repr

structure DependencyError where
  job : JobId
  dependency : JobId
  deriving DecidableEq, Repr

/-- What the three side tables hold at one arena index. No owner is `none`. The code counts in a
`u32`, which is enough for a job that lists fewer than 2^32 dependencies (`Registered.count_lt`). -/
structure TrackerRow where
  owner : Option JobId
  unsatisfied : Nat
  dependents : List JobId
  deriving DecidableEq, Repr

def TrackerRow.vacant : TrackerRow := ⟨none, 0, []⟩

/-- Side tables keyed by `JobId.index`, kept as one table of rows since the three vectors
always grow together. -/
structure DependencyTracker where
  rows : List TrackerRow
  deriving DecidableEq, Repr

namespace DependencyTracker

def new : DependencyTracker := ⟨[]⟩

def rowAt (t : DependencyTracker) (i : Nat) : TrackerRow := Table.read TrackerRow.vacant t.rows i

def reserveSlots (t : DependencyTracker) (slots : Nat) : DependencyTracker :=
  ⟨Table.reserve TrackerRow.vacant slots t.rows⟩

def setRow (t : DependencyTracker) (i : Nat) (row : TrackerRow) : DependencyTracker :=
  ⟨t.rows.set i row⟩

def isTracked (t : DependencyTracker) (id : JobId) : Bool := (t.rowAt id.slot).owner == some id

/-- Unsatisfied-dependency count, or `none` if `id` is not tracked. -/
def unsatisfied (t : DependencyTracker) (id : JobId) : Option Nat :=
  if t.isTracked id then some (t.rowAt id.slot).unsatisfied else none

/-- The reverse edges stored for `id`, none if it is not tracked. -/
def dependentsOf (t : DependencyTracker) (id : JobId) : List JobId :=
  if t.isTracked id then (t.rowAt id.slot).dependents else []

def clearIndex (t : DependencyTracker) (index : Nat) : DependencyTracker :=
  t.setRow index TrackerRow.vacant

/-- The validation loop of `classify`, with `pending` counted so far. -/
def classifyLoop (id : JobId) (jobs : Arena Job) :
    List JobId → Nat → Except DependencyError Readiness
  | [], pending => .ok (if pending = 0 then .ready else .blocked)
  | dep :: deps, pending =>
    if dep = id then .error ⟨id, dep⟩
    else
      match jobs.get dep with
      | none => .error ⟨id, dep⟩
      | some target =>
        match target.state with
        | .completed => classifyLoop id jobs deps pending
        | .failed | .cancelled => .ok .cancelled
        | _ => classifyLoop id jobs deps (pending + 1)

/-- Pass 1 of `register`: validates and classifies without mutating. It reads the arena
only, so the tracker is not an argument. -/
def classify (id : JobId) (job : Job) (jobs : Arena Job) : Except DependencyError Readiness :=
  classifyLoop id jobs job.deps 0

def isPending (jobs : Arena Job) (dep : JobId) : Bool :=
  match jobs.get dep with
  | none => false
  | some target => !target.state.isTerminal

/-- Claims the row of a dependency that was never registered. -/
def adopt (t : DependencyTracker) (dep : JobId) : DependencyTracker :=
  let t := t.reserveSlots (dep.slot + 1)
  if (t.rowAt dep.slot).owner ≠ some dep then
    (t.clearIndex dep.slot).setRow dep.slot { TrackerRow.vacant with owner := some dep }
  else t

def addDependent (t : DependencyTracker) (dep id : JobId) : DependencyTracker :=
  let t := t.adopt dep
  let row := t.rowAt dep.slot
  t.setRow dep.slot { row with dependents := row.dependents ++ [id] }

def linkDeps (id : JobId) (jobs : Arena Job) :
    List JobId → DependencyTracker → Nat → DependencyTracker × Nat
  | [], t, pending => (t, pending)
  | dep :: deps, t, pending =>
    if isPending jobs dep then linkDeps id jobs deps (t.addDependent dep id) (pending + 1)
    else linkDeps id jobs deps t pending

def register (t : DependencyTracker) (id : JobId) (job : Job) (jobs : Arena Job) :
    Except DependencyError (DependencyTracker × Readiness) :=
  match classify id job jobs with
  | .error e => .error e
  | .ok .cancelled => .ok (t, .cancelled)
  | .ok readiness =>
    let t := (t.reserveSlots (id.slot + 1)).clearIndex id.slot
    let t := t.setRow id.slot { TrackerRow.vacant with owner := some id }
    let out := linkDeps id jobs job.deps t 0
    let row := out.1.rowAt id.slot
    .ok (out.1.setRow id.slot { row with unsatisfied := out.2 }, readiness)

/-- One reverse edge of a completed job: counts down its dependent. -/
def countDown (out : DependencyTracker × List JobId) (dependent : JobId) :
    DependencyTracker × List JobId :=
  let row := out.1.rowAt dependent.slot
  if row.owner ≠ some dependent then out
  else if 0 < row.unsatisfied then
    (out.1.setRow dependent.slot { row with unsatisfied := row.unsatisfied - 1 },
      if row.unsatisfied - 1 = 0 then out.2 ++ [dependent] else out.2)
  else out

/-- Counts down every dependent; those reaching zero are returned. Retires `id`. -/
def onCompleted (t : DependencyTracker) (id : JobId) : DependencyTracker × List JobId :=
  if t.isTracked id then
    let out := (t.rowAt id.slot).dependents.foldl countDown (t, [])
    (out.1.clearIndex id.slot, out.2)
  else (t, [])

def edgeCount (t : DependencyTracker) : Nat :=
  Table.volume (t.rows.map TrackerRow.dependents)

/-- The work-stack loop of `onTerminated`; the top of the stack is the head of the list. -/
def cascadeLoop (id : JobId) :
    Nat → DependencyTracker → List JobId → List JobId → DependencyTracker × List JobId
  | 0, t, _, cascade => (t, cascade)
  | _ + 1, t, [], cascade => (t, cascade)
  | fuel + 1, t, current :: stack, cascade =>
    if (t.rowAt current.slot).owner ≠ some current then cascadeLoop id fuel t stack cascade
    else
      cascadeLoop id fuel (t.clearIndex current.slot)
        ((t.rowAt current.slot).dependents.reverse ++ stack)
        (if current ≠ id then cascade ++ [current] else cascade)

/-- Every transitive dependent of `id`, each at most once; retires all of them plus `id`.
Each round pops one entry and every edge is pushed at most once, so the fuel suffices. -/
def onTerminated (t : DependencyTracker) (id : JobId) : DependencyTracker × List JobId :=
  cascadeLoop id (t.edgeCount + 1) t [id] []

/-! Rows under each elementary update. -/

@[simp] theorem rowAt_reserveSlots (t : DependencyTracker) (slots i : Nat) :
    (t.reserveSlots slots).rowAt i = t.rowAt i :=
  Table.read_reserve _ _ _ _

theorem rowAt_setRow {t : DependencyTracker} {i : Nat} (h : i < t.rows.length)
    (row : TrackerRow) (j : Nat) :
    (t.setRow i row).rowAt j = if j = i then row else t.rowAt j :=
  Table.read_set _ _ _ _ _ h

@[simp] theorem rowAt_clearIndex (t : DependencyTracker) (i j : Nat) :
    (t.clearIndex i).rowAt j = if j = i then TrackerRow.vacant else t.rowAt j := by
  by_cases h : i < t.rows.length
  · exact rowAt_setRow h _ _
  · have hset : t.clearIndex i = t := by
      rw [clearIndex, setRow, List.set_eq_of_length_le (by omega)]
    rw [hset]
    split
    · rename_i he
      exact Table.read_of_length_le _ _ _ (by omega)
    · rfl

@[simp] theorem length_setRow (t : DependencyTracker) (i : Nat) (row : TrackerRow) :
    (t.setRow i row).rows.length = t.rows.length := by
  simp [setRow]

@[simp] theorem length_clearIndex (t : DependencyTracker) (i : Nat) :
    (t.clearIndex i).rows.length = t.rows.length :=
  length_setRow _ _ _

@[simp] theorem length_reserveSlots (t : DependencyTracker) (slots : Nat) :
    (t.reserveSlots slots).rows.length = max t.rows.length slots :=
  Table.length_reserve _ _ _

theorem isTracked_iff {t : DependencyTracker} {id : JobId} :
    t.isTracked id = true ↔ (t.rowAt id.slot).owner = some id := by
  rw [isTracked, beq_iff_eq]

theorem slot_lt_of_isTracked {t : DependencyTracker} {id : JobId} (h : t.isTracked id = true) :
    id.slot < t.rows.length := by
  have hne : Table.read TrackerRow.vacant t.rows id.slot ≠ TrackerRow.vacant := by
    intro he
    rw [isTracked_iff, rowAt, he] at h
    cases h
  exact Table.lt_length_of_read_ne hne

end DependencyTracker

end TaskerRT.Policy
