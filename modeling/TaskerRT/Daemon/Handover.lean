/- module: TaskerRT/Daemon/Handover
   source: crates/taskerd/src/journal.rs (Journal, run_writer), crates/taskerd/src/engine.rs
   digest: Batches on their way to the writer: nothing lost, nothing released early. -/

import TaskerRT.Library.Chain
import TaskerRT.Daemon.Engine
import TaskerRT.Daemon.Writer

set_option autoImplicit false

namespace TaskerRT.Daemon

open Library Domain Policy Wal

universe u

/-- A call the engine makes on its journal. -/
inductive JournalCall where
  | record (r : Record)
  | recordSubmitted (id : JobId) (job : Job)
  | defer (ack : Reply)
  | hold (d : Dispatch)
  | attachSnapshot (bytes : Bytes)
  | commit (room : Bool)
  | flush

namespace Commit

/-- The frames of a batch, in the order they were recorded. -/
def content (c : Commit) : Bytes := c.before ++ c.frames

/-- The frames of a batch with its snapshot where it was attached. -/
def stream (c : Commit) : List (Word 8 ⊕ Bytes) :=
  c.before.map .inl ++ c.snapshot.toList.map .inr ++ c.frames.map .inl

def Ordered (c : Commit) : Prop := c.snapshot = none → c.before = []

end Commit

namespace JournalCall

section

variable [Crc32]

def framed : JournalCall → Bytes
  | record r => r.encode.getD []
  | recordSubmitted id job => (encodeSubmitted id job).getD []
  | _ => []

/-- What a call adds to the stream of frames and snapshots. -/
def stream : JournalCall → List (Word 8 ⊕ Bytes)
  | attachSnapshot bytes => [.inr bytes]
  | call => call.framed.map .inl

end

def isFraming : JournalCall → Bool
  | record _ | recordSubmitted _ _ => true
  | _ => false

def isHandover : JournalCall → Bool
  | commit _ | flush => true
  | _ => false

def snapshots : JournalCall → List Bytes
  | attachSnapshot bytes => [bytes]
  | _ => []

def acks : JournalCall → List Reply
  | defer ack => [ack]
  | _ => []

def dispatches : JournalCall → List Dispatch
  | hold d => [d]
  | _ => []

end JournalCall

namespace Journal

/-- Every batch there is: those handed over and the pending one. -/
def batches (j : Journal) : List Commit := j.sent ++ [j.pending]

/-- A snapshot is attached to a journal nothing was asked of yet, or to one that wants it. -/
def Attachable (j : Journal) : JournalCall → Prop
  | .attachSnapshot _ => j.sent = [] ∧ j.pending = Commit.empty ∨ j.wantsSnapshot = true
  | _ => True

instance (j : Journal) (c : JournalCall) : Decidable (j.Attachable c) :=
  match c with
  | .attachSnapshot _ => inferInstanceAs (Decidable (_ ∨ _))
  | .record _ | .recordSubmitted _ _ | .defer _ | .hold _ | .commit _ | .flush =>
    inferInstanceAs (Decidable True)

variable {j j' : Journal} {c : JournalCall}

private theorem commit_cases (j : Journal) (room : Bool) :
    j.commit room = j ∨ (j.commit room).sent = j.sent ++ [j.pending] ∧
      (j.commit room).pending = Commit.empty := by
  unfold commit
  split
  · exact .inl rfl
  · split
    · exact .inr ⟨rfl, rfl⟩
    · exact .inl rfl

private theorem before_of_attachable {bytes : Bytes} (ho : j.pending.Ordered)
    (h : j.Attachable (.attachSnapshot bytes)) :
    j.pending.snapshot = none ∧ j.pending.before = [] := by
  have hnone : j.pending.snapshot = none := by
    rcases h with ⟨_, hempty⟩ | hwants
    · rw [hempty]
      rfl
    · rw [wantsSnapshot, Bool.and_eq_true, Option.isNone_iff_eq_none] at hwants
      exact hwants.1
  exact ⟨hnone, ho hnone⟩

/-- What is appended to the pending batch by growing, and left alone by handing over, adds up
over every batch. -/
private theorem flatMap_batches {α : Type u} (part : Commit → List α) {added : List α}
    (hempty : part Commit.empty = [])
    (h : j'.sent = j.sent ∧ part j'.pending = part j.pending ++ added ∨
      j'.sent = j.sent ++ [j.pending] ∧ j'.pending = Commit.empty ∧ added = []) :
    j'.batches.flatMap part = j.batches.flatMap part ++ added := by
  unfold batches
  rcases h with ⟨hsent, hpart⟩ | ⟨hsent, hpending, rfl⟩
  · simp [hsent, hpart]
  · simp [hsent, hpending, hempty]

section

variable [Crc32]

/-- One call. `none` is the panic of a record too long to frame. -/
def call (j : Journal) : JournalCall → Option Journal
  | .record r => j.record r
  | .recordSubmitted id job => j.recordSubmitted id job
  | .defer ack => some (j.defer ack)
  | .hold d => some (j.hold d)
  | .attachSnapshot bytes => some (j.attachSnapshot bytes)
  | .commit room => some (j.commit room)
  | .flush => some j.flush

/-- One call, made as the engine makes it. -/
def Calls (j : Journal) (c : JournalCall) (j' : Journal) : Prop :=
  j.call c = some j' ∧ j.Attachable c

/-- A call that adds to the pending batch. -/
structure Grows (j : Journal) (c : JournalCall) (j' : Journal) : Prop where
  sent : j'.sent = j.sent
  content : j'.pending.content = j.pending.content ++ c.framed
  stream : j'.pending.stream = j.pending.stream ++ c.stream
  snapshots : j'.pending.snapshot.toList = j.pending.snapshot.toList ++ c.snapshots
  acks : j'.pending.acks = j.pending.acks ++ c.acks
  dispatches : j'.pending.dispatches = j.pending.dispatches ++ c.dispatches

/-- A call that hands the pending batch over and adds nothing. -/
structure HandsOver (j : Journal) (c : JournalCall) (j' : Journal) : Prop where
  sent : j'.sent = j.sent ++ [j.pending]
  pending : j'.pending = Commit.empty
  handover : c.isHandover = true
  silent : c.framed = [] ∧ c.stream = [] ∧ c.snapshots = [] ∧ c.acks = [] ∧ c.dispatches = []

private theorem grows_of_frame {bytes : Bytes} {r : Record} (hc : c.framed = bytes)
    (hstream : c.stream = bytes.map .inl) (hquiet : c.snapshots = [] ∧ c.acks = [] ∧
      c.dispatches = []) (ho : j.pending.Ordered) :
    (j.grow r bytes).pending.Ordered ∧ Grows j c (j.grow r bytes) := by
  obtain ⟨hsnapshots, hacks, hdispatches⟩ := hquiet
  refine ⟨ho, rfl, ?_, ?_, ?_, ?_, ?_⟩
  · rw [hc]
    exact (List.append_assoc _ _ _).symm
  · rw [hstream]
    simp [Journal.grow, Commit.stream]
  · rw [hsnapshots, List.append_nil]
    rfl
  · rw [hacks, List.append_nil]
    rfl
  · rw [hdispatches, List.append_nil]
    rfl

private theorem commit_spec (room : Bool) (ho : j.pending.Ordered) (hover : c.isHandover = true)
    (hc : c.framed = [] ∧ c.stream = [] ∧ c.snapshots = [] ∧ c.acks = [] ∧ c.dispatches = []) :
    (j.commit room).pending.Ordered ∧
      (Grows j c (j.commit room) ∨ HandsOver j c (j.commit room)) := by
  rcases j.commit_cases room with hsame | ⟨hsent, hpending⟩
  · rw [hsame]
    obtain ⟨hframed, hstream, hsnapshots, hacks, hdispatches⟩ := hc
    refine ⟨ho, .inl ⟨rfl, ?_, ?_, ?_, ?_, ?_⟩⟩
    · rw [hframed, List.append_nil]
    · rw [hstream, List.append_nil]
    · rw [hsnapshots, List.append_nil]
    · rw [hacks, List.append_nil]
    · rw [hdispatches, List.append_nil]
  · refine ⟨?_, .inr ⟨hsent, hpending, hover, hc⟩⟩
    rw [hpending]
    exact fun _ => rfl

private theorem Calls.spec (h : j.Calls c j') (ho : j.pending.Ordered) :
    j'.pending.Ordered ∧ (Grows j c j' ∨ HandsOver j c j') := by
  obtain ⟨hcall, hattach⟩ := h
  cases c with
  | record r =>
    obtain ⟨bytes, hbytes, hgrow⟩ := Option.bind_eq_some_iff.mp hcall
    obtain rfl := Option.some.inj hgrow
    have hframed : (JournalCall.record r).framed = bytes := by
      rw [JournalCall.framed, hbytes, Option.getD_some]
    obtain ⟨ho', hgrows⟩ := grows_of_frame (r := r) hframed (by rw [← hframed]; rfl)
      ⟨rfl, rfl, rfl⟩ ho
    exact ⟨ho', .inl hgrows⟩
  | recordSubmitted id job =>
    obtain ⟨bytes, hbytes, hgrow⟩ := Option.bind_eq_some_iff.mp hcall
    obtain rfl := Option.some.inj hgrow
    have hframed : (JournalCall.recordSubmitted id job).framed = bytes := by
      rw [JournalCall.framed, hbytes, Option.getD_some]
    obtain ⟨ho', hgrows⟩ := grows_of_frame (r := .submitted id job) hframed
      (by rw [← hframed]; rfl) ⟨rfl, rfl, rfl⟩ ho
    exact ⟨ho', .inl hgrows⟩
  | defer ack =>
    obtain rfl := Option.some.inj hcall
    refine ⟨ho, .inl ⟨rfl, ?_, ?_, ?_, rfl, ?_⟩⟩ <;> exact (List.append_nil _).symm
  | hold d =>
    obtain rfl := Option.some.inj hcall
    refine ⟨ho, .inl ⟨rfl, ?_, ?_, ?_, ?_, rfl⟩⟩ <;> exact (List.append_nil _).symm
  | attachSnapshot bytes =>
    obtain rfl := Option.some.inj hcall
    obtain ⟨hnone, hbefore⟩ := before_of_attachable ho hattach
    have ho' : (j.attachSnapshot bytes).pending.Ordered := fun hsome => nomatch hsome
    refine ⟨ho', .inl ⟨rfl, ?_, ?_, ?_, ?_, ?_⟩⟩
    · simp [attachSnapshot, Commit.content, hbefore, JournalCall.framed]
    · simp [attachSnapshot, Commit.stream, hnone, hbefore, JournalCall.stream]
    · simp [attachSnapshot, hnone, JournalCall.snapshots]
    · exact (List.append_nil _).symm
    · exact (List.append_nil _).symm
  | commit room =>
    obtain rfl := Option.some.inj hcall
    exact commit_spec room ho rfl ⟨rfl, rfl, rfl, rfl, rfl⟩
  | flush =>
    obtain rfl := Option.some.inj hcall
    exact commit_spec true ho rfl ⟨rfl, rfl, rfl, rfl, rfl⟩

private theorem Calls.grows (h : j.Calls c j') (ho : j.pending.Ordered)
    (hc : c.isHandover = false) :
    j'.pending.Ordered ∧ Grows j c j' := by
  obtain ⟨ho', hgrows | hover⟩ := h.spec ho
  · exact ⟨ho', hgrows⟩
  · rw [hover.handover] at hc
    exact nomatch hc

private theorem Calls.sent (h : j.Calls c j') (ho : j.pending.Ordered) : j.sent <+: j'.sent := by
  rcases (h.spec ho).2 with hgrows | hover
  · rw [hgrows.sent]
  · rw [hover.sent]
    exact List.prefix_append _ _

/-- What the batches of a journal carry, given the calls made on it. -/
structure Carries (j : Journal) (calls : List JournalCall) : Prop where
  ordered : j.pending.Ordered
  content : j.batches.flatMap Commit.content = calls.flatMap JournalCall.framed
  stream : j.batches.flatMap Commit.stream = calls.flatMap JournalCall.stream
  snapshots : j.batches.flatMap (·.snapshot.toList) = calls.flatMap JournalCall.snapshots
  acks : j.batches.flatMap (·.acks) = calls.flatMap JournalCall.acks
  dispatches : j.batches.flatMap (·.dispatches) = calls.flatMap JournalCall.dispatches

private theorem Carries.call {calls : List JournalCall} (hj : Carries j calls) (h : j.Calls c j') :
    Carries j' (calls ++ [c]) := by
  obtain ⟨ho, hstep⟩ := h.spec hj.ordered
  refine ⟨ho, ?_, ?_, ?_, ?_, ?_⟩ <;> rw [List.flatMap_append, List.flatMap_singleton]
  · rw [← hj.content]
    exact flatMap_batches _ rfl (hstep.imp (fun g => ⟨g.sent, g.content⟩)
      fun o => ⟨o.sent, o.pending, o.silent.1⟩)
  · rw [← hj.stream]
    exact flatMap_batches _ rfl (hstep.imp (fun g => ⟨g.sent, g.stream⟩)
      fun o => ⟨o.sent, o.pending, o.silent.2.1⟩)
  · rw [← hj.snapshots]
    exact flatMap_batches (fun c => c.snapshot.toList) rfl
      (hstep.imp (fun g => ⟨g.sent, g.snapshots⟩) fun o => ⟨o.sent, o.pending, o.silent.2.2.1⟩)
  · rw [← hj.acks]
    exact flatMap_batches Commit.acks rfl (hstep.imp (fun g => ⟨g.sent, g.acks⟩)
      fun o => ⟨o.sent, o.pending, o.silent.2.2.2.1⟩)
  · rw [← hj.dispatches]
    exact flatMap_batches Commit.dispatches rfl
      (hstep.imp (fun g => ⟨g.sent, g.dispatches⟩)
        fun o => ⟨o.sent, o.pending, o.silent.2.2.2.2⟩)

private theorem carries_new (rotateBytes : Nat) : Carries (new rotateBytes) [] :=
  ⟨fun _ => rfl, rfl, rfl, rfl, rfl, rfl⟩

private theorem Carries.run {calls more : List JournalCall} (h : Chain Calls j more j') :
    Carries j calls → Carries j' (calls ++ more) := by
  induction h generalizing calls with
  | nil => exact fun hj => by simpa using hj
  | cons head _ ih =>
    intro hj
    have hrest := ih (hj.call head)
    rwa [List.append_assoc] at hrest

/-- Call after call, as long as they are made as the engine makes them. -/
def callEach (j : Journal) (calls : List JournalCall) : Option Journal :=
  calls.foldlM (guarded Attachable call) j

private theorem chain_of_callEach {calls : List JournalCall} {j : Journal}
    (h : j.callEach calls = some j') : Chain Calls j calls j' := Chain.of_guarded h

/-- The journal neither loses, duplicates nor reorders anything: the batches handed over and the
pending one carry every frame, snapshot, ack and dispatch once, in order, with each snapshot
exactly between the frames recorded before and after it. -/
theorem journal_carries_everything {rotateBytes : Nat} {calls : List JournalCall}
    (h : Chain Calls (new rotateBytes) calls j) :
    (j.sent ++ [j.pending]).flatMap (fun c => c.before ++ c.frames) =
        calls.flatMap JournalCall.framed ∧
      (j.sent ++ [j.pending]).flatMap Commit.stream = calls.flatMap JournalCall.stream ∧
      (j.sent ++ [j.pending]).flatMap (·.snapshot.toList) =
        calls.flatMap JournalCall.snapshots ∧
      (j.sent ++ [j.pending]).flatMap (·.acks) = calls.flatMap JournalCall.acks ∧
      (j.sent ++ [j.pending]).flatMap (·.dispatches) = calls.flatMap JournalCall.dispatches := by
  have hcarries := (carries_new rotateBytes).run h
  rw [List.nil_append] at hcarries
  exact ⟨hcarries.content, hcarries.stream, hcarries.snapshots, hcarries.acks,
    hcarries.dispatches⟩

end

/-- A record, an ack waiting for it, a commit refused, a snapshot, a second record and a dispatch
waiting for it. -/
def sampleCalls : List JournalCall :=
  [.record (.forgotten ⟨0⟩), .defer ⟨0, .status none⟩, .commit false, .attachSnapshot [7],
    .record (.forgotten ⟨1⟩), .hold (.kill 0 ⟨1⟩), .commit true]

attribute [local instance] Crc32.ieee

/-- The refused batch keeps everything, on both sides of its snapshot. -/
theorem journal_carries_sample : ∃ j, Chain (Calls) (new 1) sampleCalls j ∧
    (j.sent ++ [j.pending]).flatMap (fun c => c.before ++ c.frames) =
      sampleCalls.flatMap (JournalCall.framed) := by
  have hsome : (callEach (new 1) sampleCalls).isSome = true := by decide +kernel
  obtain ⟨j, hj⟩ := Option.isSome_iff_exists.mp hsome
  have hchain := chain_of_callEach hj
  exact ⟨j, hchain, (journal_carries_everything hchain).1⟩

end Journal

/-- The journal and the writer thread between two of their actions. `taken` is every batch the
writer received with what `persist` said of it; `acked` and `pushed` name what was released, each
by its batch and its place in it. The source keeps none of the three. -/
structure Pipeline where
  journal : Journal
  store : Store
  files : Directory
  taken : List (Commit × Bool)
  acked : List (Nat × Nat)
  pushed : List (Nat × Nat)

/-- One action: a call of the engine, or of the writer the receipt of a batch with the call of
`persist` that fails, one ack, or one dispatch. -/
inductive PipelineStep where
  | call (call : JournalCall)
  | receive (fault : Option Fault)
  | fire
  | push

namespace PipelineStep

def calls : PipelineStep → List JournalCall
  | call c => [c]
  | _ => []

end PipelineStep

namespace Pipeline

def madeFrom (released : List (Nat × Nat)) (batch : Nat) : Nat :=
  released.countP (·.1 = batch)

/-- The number of the newest batch the writer has, and the batch, if it was persisted. -/
def releasing (p : Pipeline) : Option (Nat × Commit) :=
  match p.taken.getLast? with
  | some (c, true) => some (p.taken.length - 1, c)
  | _ => none

/-- The writer has released all it may and waits for a batch. -/
def isIdle (p : Pipeline) : Bool :=
  match p.releasing with
  | none => true
  | some (batch, c) => decide (madeFrom p.acked batch = c.acks.length ∧
      madeFrom p.pushed batch = c.dispatches.length)

def fire (p : Pipeline) : Option Pipeline :=
  match p.releasing with
  | none => none
  | some (batch, c) =>
    if madeFrom p.acked batch < c.acks.length then
      some { p with acked := p.acked ++ [(batch, madeFrom p.acked batch)] }
    else none

/-- The next dispatch of the newest batch, once its acks have run. A full ring only delays it. -/
def push (p : Pipeline) : Option Pipeline :=
  match p.releasing with
  | none => none
  | some (batch, c) =>
    if madeFrom p.acked batch = c.acks.length ∧ madeFrom p.pushed batch < c.dispatches.length then
      some { p with pushed := p.pushed ++ [(batch, madeFrom p.pushed batch)] }
    else none

def receive (policy : SyncPolicy) (p : Pipeline) (fault : Option Fault) : Option Pipeline :=
  if p.isIdle then
    match p.journal.sent[p.taken.length]? with
    | none => none
    | some c =>
      match persist fault policy c p.store p.files with
      | (result, store, files) =>
        some { p with store := store, files := files, taken := p.taken ++ [(c, result.isOk)] }
  else none

section

variable [Crc32]

def step (policy : SyncPolicy) (p : Pipeline) : PipelineStep → Option Pipeline
  | .call c => (p.journal.call c).map fun j => { p with journal := j }
  | .receive fault => p.receive policy fault
  | .fire => p.fire
  | .push => p.push

/-- One action, where the engine's calls are made as it makes them. -/
def Steps (policy : SyncPolicy) (p : Pipeline) (s : PipelineStep) (p' : Pipeline) : Prop :=
  p.step policy s = some p' ∧ ∀ c ∈ s.calls, p.journal.Attachable c

end

end Pipeline

namespace Journal

/-- In batch number `batch` stand the frame `bytes` and, at its place among the items that wait
for the batch, `x`. What comes before the two in all batches is `framed` and `waiting`. -/
def Placed {α : Type u} (j : Journal) (items : Commit → List α) (batch place : Nat) (bytes : Bytes)
    (x : α) (framed : Bytes) (waiting : List α) : Prop :=
  ∃ c front back, j.batches[batch]? = some c ∧ c.content = front ++ bytes ++ back ∧
    (items c)[place]? = some x ∧ (j.batches.take batch).flatMap Commit.content ++ front = framed ∧
    (j.batches.take batch).flatMap items ++ (items c).take place = waiting

section

variable {α : Type u} {j j' : Journal} {items : Commit → List α} {batch place : Nat}
  {bytes framed : Bytes} {x : α} {waiting : List α}

private theorem Placed.grow (h : j.Placed items batch place bytes x framed waiting)
    (hsent : j'.sent = j.sent) {more : Bytes} {added : List α}
    (hcontent : j'.pending.content = j.pending.content ++ more)
    (hitems : items j'.pending = items j.pending ++ added) :
    j'.Placed items batch place bytes x framed waiting := by
  obtain ⟨c, front, back, hc, hfront, hx, hframed, hwaiting⟩ := h
  unfold Placed batches at *
  rw [hsent]
  have hle : batch ≤ j.sent.length := by
    have hlt := (List.getElem?_eq_some_iff.mp hc).1
    rw [List.length_append, List.length_singleton] at hlt
    omega
  rw [List.take_append_of_le_length hle] at hframed hwaiting ⊢
  rcases Nat.lt_or_eq_of_le hle with hlt | rfl
  · rw [List.getElem?_append_left hlt] at hc ⊢
    exact ⟨c, front, back, hc, hfront, hx, hframed, hwaiting⟩
  · rw [List.getElem?_concat_length] at hc ⊢
    obtain rfl := Option.some.inj hc
    have hplace : place < (items j.pending).length := (List.getElem?_eq_some_iff.mp hx).1
    refine ⟨j'.pending, front, back ++ more, rfl, ?_, ?_, hframed, ?_⟩
    · rw [hcontent, hfront, List.append_assoc (front ++ bytes)]
    · rw [hitems, List.getElem?_append_left hplace]
      exact hx
    · rw [hitems, List.take_append_of_le_length hplace.le]
      exact hwaiting

private theorem Placed.handOver (h : j.Placed items batch place bytes x framed waiting)
    (hbatches : j'.batches = j.batches ++ [Commit.empty]) :
    j'.Placed items batch place bytes x framed waiting := by
  obtain ⟨c, front, back, hc, hfront, hx, hframed, hwaiting⟩ := h
  have hlt := (List.getElem?_eq_some_iff.mp hc).1
  unfold Placed
  rw [hbatches, List.take_append_of_le_length hlt.le, List.getElem?_append_left hlt]
  exact ⟨c, front, back, hc, hfront, hx, hframed, hwaiting⟩

variable [Crc32]

private theorem Placed.call {c : JournalCall}
    (h : j.Placed items batch place bytes x framed waiting)
    (hcall : j.Calls c j') (ho : j.pending.Ordered)
    (hitems : Grows j c j' → ∃ added, items j'.pending = items j.pending ++ added) :
    j'.Placed items batch place bytes x framed waiting := by
  rcases (hcall.spec ho).2 with hgrows | hover
  · obtain ⟨added, hadded⟩ := hitems hgrows
    exact h.grow hgrows.sent hgrows.content hadded
  · apply h.handOver
    rw [batches, batches, hover.sent, hover.pending]

private theorem Placed.run {calls : List JournalCall} (hrun : Chain Calls j calls j')
    (hitems : ∀ {j c j'}, Grows j c j' → ∃ added, items j'.pending = items j.pending ++ added) :
    j.pending.Ordered → j.Placed items batch place bytes x framed waiting →
      j'.Placed items batch place bytes x framed waiting := by
  induction hrun with
  | nil => exact fun _ h => h
  | cons head _ ih =>
    intro ho h
    exact ih (head.spec ho).1 (h.call head ho hitems)

/-- A record framed and at once something made to wait for it: the two are in one batch for good. -/
private theorem placed_of_run {rotateBytes : Nat} {earlier later : List JournalCall}
    {frame wait : JournalCall} (waitsFor : JournalCall → List α)
    (hrun : Chain Calls (new rotateBytes) (earlier ++ frame :: wait :: later) j)
    (hframe : frame.isFraming = true) (hwait : wait.isHandover = false)
    (hitems : ∀ {j c j'}, Grows j c j' → items j'.pending = items j.pending ++ waitsFor c)
    (hcarried : ∀ {j calls}, Carries j calls → j.batches.flatMap items = calls.flatMap waitsFor)
    (hquiet : waitsFor frame = []) (hx : waitsFor wait = [x]) :
    ∃ batch place, j.Placed items batch place frame.framed x
      (earlier.flatMap JournalCall.framed) (earlier.flatMap waitsFor) := by
  obtain ⟨j₁, hearlier, hrest⟩ := hrun.split
  obtain ⟨j₂, hframed, hrest⟩ := Chain.cons_iff.mp hrest
  obtain ⟨j₃, hwaited, hlater⟩ := Chain.cons_iff.mp hrest
  have hcarries := (carries_new rotateBytes).run hearlier
  rw [List.nil_append] at hcarries
  have hkeeps : frame.isHandover = false := by
    cases frame with
    | record | recordSubmitted => rfl
    | _ => exact nomatch hframe
  obtain ⟨ho₂, hgrow₂⟩ := hframed.grows hcarries.ordered hkeeps
  obtain ⟨ho₃, hgrow₃⟩ := hwaited.grows ho₂ hwait
  have hsent : j₃.sent = j₁.sent := hgrow₃.sent.trans hgrow₂.sent
  have hlast : items j₃.pending = items j₁.pending ++ [x] := by
    rw [hitems hgrow₃, hitems hgrow₂, hquiet, hx, List.append_nil]
  refine ⟨j₁.sent.length, (items j₁.pending).length,
    Placed.run hlater (fun hgrows => ⟨_, hitems hgrows⟩) ho₃
      ⟨j₃.pending, j₁.pending.content, wait.framed, ?_, ?_, ?_, ?_, ?_⟩⟩
  · rw [batches, hsent, List.getElem?_concat_length]
  · rw [hgrow₃.content, hgrow₂.content]
  · rw [hlast, List.getElem?_concat_length]
  · rw [← hcarries.content, batches, batches, hsent, List.take_left, List.flatMap_append,
      List.flatMap_singleton]
  · rw [← hcarried hcarries, batches, batches, hsent, List.take_left, hlast, List.take_left,
      List.flatMap_append, List.flatMap_singleton]

end

end Journal

namespace Pipeline

/-- What was released was released once, in order, from a batch that was persisted. -/
structure Released (taken : List (Commit × Bool)) (released : List (Nat × Nat)) : Prop where
  once : released.Nodup
  next : ∀ r ∈ released, r.2 < madeFrom released r.1
  persisted : ∀ r ∈ released, ∃ c, taken[r.1]? = some (c, true)

private theorem released_nil (taken : List (Commit × Bool)) : Released taken [] :=
  ⟨List.nodup_nil, by simp, by simp⟩

private theorem Released.receive {taken : List (Commit × Bool)} {released : List (Nat × Nat)}
    (h : Released taken released) (entry : Commit × Bool) :
    Released (taken ++ [entry]) released := by
  refine ⟨h.once, h.next, fun r hr => ?_⟩
  obtain ⟨c, hc⟩ := h.persisted r hr
  have hlt := (List.getElem?_eq_some_iff.mp hc).1
  exact ⟨c, by rw [List.getElem?_append_left hlt, hc]⟩

private theorem Released.release {taken : List (Commit × Bool)} {released : List (Nat × Nat)}
    (h : Released taken released) {batch : Nat} {c : Commit}
    (hbatch : taken[batch]? = some (c, true)) :
    Released taken (released ++ [(batch, madeFrom released batch)]) := by
  have hcount : ∀ b, madeFrom (released ++ [(batch, madeFrom released batch)]) b =
      madeFrom released b + if batch = b then 1 else 0 := by
    intro b
    simp [madeFrom, List.countP_append, List.countP_singleton]
  refine ⟨?_, ?_, ?_⟩
  · rw [List.nodup_append]
    refine ⟨h.once, List.nodup_singleton _, ?_⟩
    intro r hr r' hr' heq
    rw [List.mem_singleton.mp hr'] at heq
    have hlt := h.next r hr
    rw [heq] at hlt
    exact Nat.lt_irrefl _ hlt
  · intro r hr
    rw [hcount]
    rcases List.mem_append.mp hr with hr | hr
    · have := h.next r hr
      omega
    · rw [List.mem_singleton.mp hr, if_pos rfl]
      exact Nat.lt_succ_self _
  · intro r hr
    rcases List.mem_append.mp hr with hr | hr
    · exact h.persisted r hr
    · rw [List.mem_singleton.mp hr]
      exact ⟨c, hbatch⟩

private theorem releasing_eq_some {p : Pipeline} {batch : Nat} {c : Commit}
    (h : p.releasing = some (batch, c)) : p.taken[batch]? = some (c, true) := by
  unfold releasing at h
  split at h
  · rename_i c' hlast
    obtain ⟨rfl, rfl⟩ := Prod.mk.inj (Option.some.inj h)
    rw [List.getLast?_eq_getElem?] at hlast
    exact hlast
  · exact nomatch h

/-- Batches are taken in order, and only persisted ones release anything. -/
structure Ordered (p : Pipeline) : Prop where
  inOrder : p.taken.map Prod.fst <+: p.journal.sent
  acked : Released p.taken p.acked
  pushed : Released p.taken p.pushed

/-- If the item at a place of a batch was released, it was once, after the batch was persisted and
every batch handed over before it was taken. -/
def ReleasedSafely (p : Pipeline) (released : List (Nat × Nat)) (batch place : Nat) : Prop :=
  released.Nodup ∧ ((batch, place) ∈ released →
    ∃ c, p.journal.sent[batch]? = some c ∧ p.taken[batch]? = some (c, true) ∧
      (p.taken.map Prod.fst).take batch = p.journal.sent.take batch)

private theorem Ordered.safely {p : Pipeline} (ho : p.Ordered) {released : List (Nat × Nat)}
    (hr : Released p.taken released) (batch place : Nat) :
    p.ReleasedSafely released batch place := by
  refine ⟨hr.once, fun hmem => ?_⟩
  obtain ⟨c, hc⟩ := hr.persisted _ hmem
  obtain ⟨rest, hrest⟩ := ho.inOrder
  have hlt := (List.getElem?_eq_some_iff.mp hc).1
  refine ⟨c, ?_, hc, ?_⟩
  · rw [← hrest, List.getElem?_append_left (by rw [List.length_map]; exact hlt), List.getElem?_map,
      hc, Option.map_some]
  · rw [← hrest, List.take_append_of_le_length (by rw [List.length_map]; exact hlt.le)]

/-- An empty journal and a writer that has taken nothing. -/
def start (rotateBytes : Nat) (store : Store) (files : Directory) : Pipeline :=
  ⟨Journal.new rotateBytes, store, files, [], [], []⟩

private theorem ordered_start (rotateBytes : Nat) (store : Store) (files : Directory) :
    (start rotateBytes store files).Ordered :=
  ⟨List.prefix_rfl, released_nil _, released_nil _⟩

section

variable [Crc32] {policy : SyncPolicy} {p p' : Pipeline} {s : PipelineStep}

private theorem Steps.cases (h : p.Steps policy s p') :
    (∃ c j, s = .call c ∧ p.journal.Calls c j ∧ p' = { p with journal := j }) ∨
    (∃ fault c, s = .receive fault ∧ p.journal.sent[p.taken.length]? = some c ∧
      p' = { p with
        store := (persist fault policy c p.store p.files).2.1
        files := (persist fault policy c p.store p.files).2.2
        taken := p.taken ++ [(c, (persist fault policy c p.store p.files).1.isOk)] }) ∨
    (∃ batch c, s = .fire ∧ p.releasing = some (batch, c) ∧
      p' = { p with acked := p.acked ++ [(batch, madeFrom p.acked batch)] }) ∨
    (∃ batch c, s = .push ∧ p.releasing = some (batch, c) ∧
      p' = { p with pushed := p.pushed ++ [(batch, madeFrom p.pushed batch)] }) := by
  obtain ⟨hstep, hattach⟩ := h
  cases s with
  | call c =>
    obtain ⟨j, hj, rfl⟩ := Option.map_eq_some_iff.mp hstep
    exact .inl ⟨c, j, rfl, ⟨hj, hattach c (List.mem_singleton.mpr rfl)⟩, rfl⟩
  | receive fault =>
    simp only [step, receive] at hstep
    split at hstep
    · cases hsent : p.journal.sent[p.taken.length]? with
      | none =>
        rw [hsent] at hstep
        exact nomatch hstep
      | some c =>
        rw [hsent] at hstep
        exact .inr (.inl ⟨fault, c, rfl, rfl, (Option.some.inj hstep).symm⟩)
    · exact nomatch hstep
  | fire =>
    simp only [step, fire] at hstep
    cases hreleasing : p.releasing with
    | none =>
      rw [hreleasing] at hstep
      exact nomatch hstep
    | some newest =>
      simp only [hreleasing] at hstep
      split at hstep
      · exact .inr (.inr (.inl ⟨newest.1, newest.2, rfl, rfl, (Option.some.inj hstep).symm⟩))
      · exact nomatch hstep
  | push =>
    simp only [step, push] at hstep
    cases hreleasing : p.releasing with
    | none =>
      rw [hreleasing] at hstep
      exact nomatch hstep
    | some newest =>
      simp only [hreleasing] at hstep
      split at hstep
      · exact .inr (.inr (.inr ⟨newest.1, newest.2, rfl, rfl, (Option.some.inj hstep).symm⟩))
      · exact nomatch hstep

private theorem Steps.journal (h : p.Steps policy s p') :
    Chain Journal.Calls p.journal s.calls p'.journal := by
  rcases h.cases with ⟨c, j, rfl, hcalls, rfl⟩ | ⟨fault, c, rfl, _, rfl⟩ | ⟨batch, c, rfl, _, rfl⟩ |
    ⟨batch, c, rfl, _, rfl⟩
  · exact Chain.single hcalls
  · exact .nil _
  · exact .nil _
  · exact .nil _

private theorem Ordered.step (ho : p.Ordered) (hj : p.journal.pending.Ordered)
    (h : p.Steps policy s p') : p'.Ordered ∧ p'.journal.pending.Ordered := by
  rcases h.cases with ⟨c, j, rfl, hcalls, rfl⟩ | ⟨fault, c, rfl, hnext, rfl⟩ |
    ⟨batch, c, rfl, hreleasing, rfl⟩ | ⟨batch, c, rfl, hreleasing, rfl⟩
  · exact ⟨⟨ho.inOrder.trans (hcalls.sent hj), ho.acked, ho.pushed⟩, (hcalls.spec hj).1⟩
  · refine ⟨⟨?_, ho.acked.receive _, ho.pushed.receive _⟩, hj⟩
    rw [List.map_append, List.map_singleton]
    obtain ⟨rest, hrest⟩ := ho.inOrder
    rw [← hrest, List.getElem?_append_right (by rw [List.length_map]), List.length_map,
      Nat.sub_self] at hnext
    cases rest with
    | nil => exact nomatch hnext
    | cons first rest =>
      obtain rfl := Option.some.inj hnext
      exact ⟨rest, by rw [← hrest, List.append_assoc, List.singleton_append]⟩
  · exact ⟨⟨ho.inOrder, ho.acked.release (releasing_eq_some hreleasing), ho.pushed⟩, hj⟩
  · exact ⟨⟨ho.inOrder, ho.acked, ho.pushed.release (releasing_eq_some hreleasing)⟩, hj⟩

private theorem ordered_of_run {rotateBytes : Nat} {store : Store} {files : Directory}
    {steps : List PipelineStep} (h : Chain (Steps policy) (start rotateBytes store files) steps p) :
    p.Ordered ∧
      Chain Journal.Calls (Journal.new rotateBytes) (steps.flatMap PipelineStep.calls) p.journal := by
  have hsim : ∀ p s p', Steps policy p s p' → p.Ordered ∧ p.journal.pending.Ordered →
      (p'.Ordered ∧ p'.journal.pending.Ordered) ∧
        Chain Journal.Calls p.journal s.calls p'.journal :=
    fun p s p' hstep hp => ⟨hp.1.step hp.2 hstep, hstep.journal⟩
  have hrun := h.simulate hsim ⟨ordered_start rotateBytes store files, fun _ => rfl⟩
  exact ⟨hrun.1.1, hrun.2⟩

/-- Nothing is released before it is durable: an ack deferred or a dispatch held right after a
record was framed stays in one batch with that very frame, and is released at most once, after
that batch was persisted and every earlier batch was taken. -/
theorem nothing_released_early {rotateBytes : Nat} {store : Store} {files : Directory}
    {steps : List PipelineStep} {earlier later : List JournalCall} {frame wait : JournalCall}
    (h : Chain (Steps policy) (start rotateBytes store files) steps p)
    (hcalls : steps.flatMap PipelineStep.calls = earlier ++ frame :: wait :: later)
    (hframe : frame.isFraming = true) :
    (∀ ack, wait = .defer ack → ∃ batch place,
      p.journal.Placed Commit.acks batch place frame.framed ack
        (earlier.flatMap JournalCall.framed) (earlier.flatMap JournalCall.acks) ∧
      p.ReleasedSafely p.acked batch place) ∧
    (∀ d, wait = .hold d → ∃ batch place,
      p.journal.Placed Commit.dispatches batch place frame.framed d
        (earlier.flatMap JournalCall.framed) (earlier.flatMap JournalCall.dispatches) ∧
      p.ReleasedSafely p.pushed batch place) := by
  obtain ⟨ho, hrun⟩ := ordered_of_run h
  rw [hcalls] at hrun
  have hquiet : frame.acks = [] ∧ frame.dispatches = [] := by
    cases frame with
    | record | recordSubmitted => exact ⟨rfl, rfl⟩
    | _ => exact nomatch hframe
  constructor
  · rintro ack rfl
    obtain ⟨batch, place, hplaced⟩ := Journal.placed_of_run JournalCall.acks hrun
      hframe rfl (fun hgrows => hgrows.acks) (fun hcarries => hcarries.acks) hquiet.1 rfl
    exact ⟨batch, place, hplaced, ho.safely ho.acked batch place⟩
  · rintro d rfl
    obtain ⟨batch, place, hplaced⟩ := Journal.placed_of_run JournalCall.dispatches
      hrun hframe rfl (fun hgrows => hgrows.dispatches) (fun hcarries => hcarries.dispatches)
      hquiet.2 rfl
    exact ⟨batch, place, hplaced, ho.safely ho.pushed batch place⟩

def run (policy : SyncPolicy) (p : Pipeline) (steps : List PipelineStep) : Option Pipeline :=
  steps.foldlM (guarded (fun p s => ∀ c ∈ s.calls, p.journal.Attachable c) (step policy)) p

private theorem chain_of_run {steps : List PipelineStep} {p : Pipeline}
    (h : p.run policy steps = some p') : Chain (Steps policy) p steps p' := Chain.of_guarded h

end

/-- A record, an ack and a dispatch for it, handed over, persisted and released. -/
def sampleSteps : List PipelineStep :=
  [.call (.record (.forgotten ⟨0⟩)), .call (.defer ⟨0, .status none⟩), .call (.commit true),
    .receive none, .fire]

attribute [local instance] Crc32.ieee

theorem nothing_released_early_sample :
    ∃ p, Chain (Steps .data) (start 8 freshStore freshFiles) sampleSteps p ∧
      (0, 0) ∈ p.acked ∧ ∃ batch place,
        p.journal.Placed Commit.acks batch place
          (JournalCall.framed (.record (.forgotten ⟨0⟩))) ⟨0, .status none⟩ [] [] ∧
        p.ReleasedSafely p.acked batch place := by
  have hlook : (run .data (start 8 freshStore freshFiles) sampleSteps).any
      (fun p => decide ((0, 0) ∈ p.acked)) = true := by decide +kernel
  obtain ⟨p, hrun, hfired⟩ := (Option.any_eq_true _ _).mp hlook
  have hchain := chain_of_run hrun
  have hsafe := @nothing_released_early Crc32.ieee _ _ _ _ _ _ [] [.commit true] _ _ hchain rfl rfl
  exact ⟨p, hchain, of_decide_eq_true hfired, hsafe.1 _ rfl⟩

end Pipeline

/-! The handlers that make something wait do so right after framing the record it waits for. -/

namespace Host

section

variable {h : Host} {j : Journal}

@[simp] theorem journal_pushDispatch (h : Host) (d : Dispatch) :
    (h.pushDispatch d).engine.journal = h.engine.journal := by
  unfold pushDispatch
  split <;> rfl

private theorem replyDurably_defers (hj : h.engine.journal = some j) (token : Token)
    (answer : Answer) :
    (h.replyDurably token answer).engine.journal = some (j.defer ⟨token, answer⟩) := by
  rw [replyDurably, hj]
  rfl

private theorem pushDurably_holds (hj : h.engine.journal = some j) (d : Dispatch) :
    (h.pushDurably d).engine.journal = some (j.hold d) := by
  rw [pushDurably, hj]
  rfl

theorem journal_classifyNew (e : Engine) (id : JobId) (now : VirtualTime) :
    (e.classifyNew id now).1.journal = e.journal := by
  unfold Engine.classifyNew
  cases hresult : (e.scheduler.submit id e.jobs now e.cycle).result with
  | ok state =>
    simp only [hresult]
    rfl
  | error err =>
    simp only [hresult]
    rfl

end

variable [Crc32] {h h' : Host} {j : Journal} {now : VirtualTime} {id : JobId}

private theorem record_calls {e e' : Engine} {r : Record} (h : e.record r = some e')
    (hj : e.journal = some j) : ∃ j', j.Calls (.record r) j' ∧ e' = e.withLog (some j') := by
  rw [Engine.record, hj] at h
  obtain ⟨j', hrecord, hdone⟩ := Option.bind_eq_some_iff.mp h
  exact ⟨j', ⟨hrecord, trivial⟩, (Option.some.inj hdone).symm⟩

private theorem recordSubmitted_calls {e e' : Engine} {job : Job}
    (h : recordSubmitted e id = some e')
    (hj : e.journal = some j) (hjob : e.jobs.get id = some job) :
    ∃ j', j.Calls (.recordSubmitted id job) j' ∧ e' = e.withLog (some j') := by
  rw [recordSubmitted, hj, hjob] at h
  obtain ⟨j', hrecord, hdone⟩ := Option.bind_eq_some_iff.mp h
  exact ⟨j', ⟨hrecord, trivial⟩, (Option.some.inj hdone).symm⟩

/-- An accepted submission frames the job, then defers its answer; a refused one asks nothing. -/
theorem onSubmit_calls {job : Job} {token : Token} (hj : h.engine.journal = some j)
    (hdone : h.onSubmit job token now = some h') :
    h'.engine.journal = some j ∨ ∃ id answer j',
      Chain Journal.Calls j [.recordSubmitted id job, .defer ⟨token, answer⟩] j' ∧
        h'.engine.journal = some j' := by
  obtain ⟨id, hid, hdone⟩ := Option.bind_eq_some_iff.mp hdone
  cases hcheck : h.engine.scheduler.checkSubmit id job h.engine.jobs with
  | error e =>
    rw [hcheck] at hdone
    obtain rfl := Option.some.inj hdone
    exact .inl hj
  | ok readiness =>
    rw [hcheck] at hdone
    obtain ⟨inserted, hinsert, hdone⟩ := Option.bind_eq_some_iff.mp hdone
    obtain ⟨e, hrecord, hdone⟩ := Option.bind_eq_some_iff.mp hdone
    obtain rfl := Option.some.inj hdone
    obtain rfl : inserted.2 = id :=
      Option.some.inj ((Arena.nextId_of_insert hinsert).symm.trans hid)
    have hget : inserted.1.get inserted.2 = some job := by
      rw [Arena.get_insert hinsert, if_pos rfl]
    obtain ⟨j', hcalls, rfl⟩ := recordSubmitted_calls hrecord hj hget
    have hlog := journal_classifyNew
      ((h.engine.withRoster { h.engine.toRoster with jobs := inserted.1 }).withLog (some j'))
      inserted.2 now
    exact .inr ⟨inserted.2, _, _, .cons hcalls (Chain.single ⟨rfl, trivial⟩),
      replyDurably_defers hlog token _⟩

theorem onCancel_calls {token : Token} (hj : h.engine.journal = some j)
    (hdone : h.onCancel id token now = some h') : ∃ result j',
      Chain Journal.Calls j ((match result with
          | .ok _ => [.record (.cancelled id now)]
          | .error _ => []) ++ [.defer ⟨token, .cancel result⟩]) j' ∧
        h'.engine.journal = some j' := by
  unfold onCancel at hdone
  cases hresult : ((h.engine.unbind id).scheduler.cancel id (h.engine.unbind id).jobs now
      h.engine.cycle).result with
  | error e =>
    simp only [hresult] at hdone
    obtain rfl := Option.some.inj hdone
    refine ⟨.error e, _, Chain.single ⟨rfl, trivial⟩, replyDurably_defers ?_ token _⟩
    exact hj
  | ok cascade =>
    simp only [hresult] at hdone
    obtain ⟨h₂, hinner, hdone⟩ := Option.bind_eq_some_iff.mp hdone
    obtain rfl := Option.some.inj hdone
    obtain ⟨e, hrecord, hinner⟩ := Option.bind_eq_some_iff.mp hinner
    obtain rfl := Option.some.inj hinner
    obtain ⟨j', hcalls, rfl⟩ := record_calls hrecord hj
    refine ⟨.ok cascade, _, .cons hcalls (Chain.single ⟨rfl, trivial⟩),
      replyDurably_defers ?_ token _⟩
    split
    · rw [journal_pushDispatch]
      rfl
    · rfl

private theorem logged_calls {record : Record} {message : Host → Dispatch}
    (hdone : (h.onEngine (·.record record) >>= fun h => pure (h.pushDurably (message h))) =
      some h') (hj : h.engine.journal = some j) :
    ∃ h₂ j', Chain Journal.Calls j [.record record, .hold (message h₂)] j' ∧
      h'.engine.journal = some j' := by
  obtain ⟨h₂, hinner, hdone⟩ := Option.bind_eq_some_iff.mp hdone
  obtain ⟨e, hrecord, hinner⟩ := Option.bind_eq_some_iff.mp hinner
  obtain rfl := Option.some.inj hinner
  obtain rfl := Option.some.inj hdone
  obtain ⟨j', hcalls, rfl⟩ := record_calls hrecord hj
  exact ⟨_, _, .cons hcalls (Chain.single ⟨rfl, trivial⟩), pushDurably_holds rfl _⟩

theorem onDispatched_calls {d : DispatchDecision} (hj : h.engine.journal = some j)
    (hdone : h.onDispatched now d = some h') :
    h'.engine.journal = some j ∨ ∃ payload walltime j',
      Chain Journal.Calls j
        [.record (.dispatched d.job now), .hold (.assign d.slot d.job payload walltime)] j' ∧
        h'.engine.journal = some j' := by
  unfold onDispatched at hdone
  cases hjob : h.engine.jobs.get d.job with
  | none =>
    rw [hjob] at hdone
    obtain rfl := Option.some.inj hdone
    exact .inl hj
  | some job =>
    rw [hjob] at hdone
    obtain ⟨-, hcalls⟩ := logged_calls hdone hj
    exact .inr ⟨_, _, hcalls⟩

theorem evict_calls {v : Eviction} (hj : h.engine.journal = some j)
    (hdone : h.evict now v = some h') :
    h'.engine.journal = some j ∨ ∃ grace j',
      Chain Journal.Calls j
        [.record (.preempted v.job now), .hold (.preempt v.slot v.job grace)] j' ∧
        h'.engine.journal = some j' := by
  unfold evict at hdone
  cases hresult : (h.engine.scheduler.preempt v.job h.engine.jobs).result with
  | error e =>
    simp only [hresult] at hdone
    obtain rfl := Option.some.inj hdone
    exact .inl hj
  | ok u =>
    simp only [hresult] at hdone
    obtain ⟨h₂, hcalls⟩ := logged_calls hdone hj
    exact .inr ⟨_, hcalls⟩

end Host

end TaskerRT.Daemon
