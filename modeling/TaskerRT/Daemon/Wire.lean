/- module: TaskerRT/Daemon/Wire
   source: crates/tasker-proto/src/convert.rs, crates/tasker-proto/proto/tasker/v1/control.proto
   digest: From a submit request on the wire to the job the engine is given. -/

import TaskerRT.Daemon.Command

set_option autoImplicit false

namespace TaskerRT.Daemon

open Library Domain

inductive ConvertError where
  | unspecifiedPriorityClass
  | missingResources
  | gpusOutOfRange (gpus : Word 32)
  | zeroWalltime
  deriving DecidableEq, Repr

/-! The messages of `tasker.v1` that a submission is made of. -/

namespace V1

inductive PriorityClass where
  | unspecified
  | low
  | normal
  | high
  | urgent
  deriving DecidableEq, Repr

def PriorityClass.ofNumber : Int → PriorityClass
  | 1 => low
  | 2 => normal
  | 3 => high
  | 4 => urgent
  | _ => unspecified

structure Resources where
  cpuMillis : Word 32
  memBytes : Word 64
  gpus : Word 32
  deriving DecidableEq, Repr

structure SubmitRequest where
  account : Word 32
  priorityClass : Int
  request : Option Resources
  walltimeNanos : Word 64
  deps : List (Word 64)
  payload : Bytes
  deriving DecidableEq, Repr

end V1

def priorityClassToProto : PriorityClass → V1.PriorityClass
  | .low => .low
  | .normal => .normal
  | .high => .high
  | .urgent => .urgent

def priorityClassFromProto : V1.PriorityClass → Except ConvertError PriorityClass
  | .low => .ok .low
  | .normal => .ok .normal
  | .high => .ok .high
  | .urgent => .ok .urgent
  | .unspecified => .error .unspecifiedPriorityClass

private theorem priorityClassFromProto_eq_ok {wire : V1.PriorityClass} {c : PriorityClass} :
    priorityClassFromProto wire = .ok c ↔ wire = priorityClassToProto c := by
  cases wire <;> cases c <;> simp [priorityClassFromProto, priorityClassToProto]

def resourcesToProto (r : Resources) : V1.Resources :=
  ⟨r.cpuMillis, r.memBytes, Word.clamp 32 r.gpus.val⟩

def resourcesFromProto (r : V1.Resources) : Except ConvertError Resources :=
  if h : r.gpus.val < 2 ^ 8 then .ok ⟨r.cpuMillis, r.memBytes, ⟨r.gpus.val, h⟩⟩
  else .error (.gpusOutOfRange r.gpus)

/-- Nothing but the width of `gpus` is checked: every vector has a wire form that is accepted. -/
theorem resourcesFromProto_toProto (r : Resources) :
    resourcesFromProto (resourcesToProto r) = .ok r := by
  have hlt : r.gpus.val < 2 ^ 8 := r.gpus.isLt
  have hwide : (Word.clamp 32 r.gpus.val).val = r.gpus.val := by
    show min r.gpus.val (2 ^ 32 - 1) = r.gpus.val
    omega
  unfold resourcesFromProto resourcesToProto
  simp only [hwide, dif_pos hlt]

/-- Builds a `submitted` job from a request. `deps` are raw bits; the scheduler validates them
at submit. -/
def jobFromSubmit (req : V1.SubmitRequest) (now : VirtualTime) : Except ConvertError NewJob := do
  let priorityClass ← priorityClassFromProto (.ofNumber req.priorityClass)
  let request ← (match req.request with
    | none => .error .missingResources
    | some request => resourcesFromProto request)
  if req.walltimeNanos = 0 then .error .zeroWalltime
  else .ok ⟨{ Job.new req.account priorityClass now request req.walltimeNanos with
      deps := req.deps.map JobId.mk
      payload := req.payload }, rfl, rfl⟩

/-- What the control API accepts: a class, a request of any size whose `gpus` fit, and a walltime. -/
theorem jobFromSubmit_eq_ok {req : V1.SubmitRequest} {now : VirtualTime} {new : NewJob} :
    jobFromSubmit req now = .ok new ↔ ∃ c wire request,
      V1.PriorityClass.ofNumber req.priorityClass = priorityClassToProto c ∧
      req.request = some wire ∧ resourcesFromProto wire = .ok request ∧ req.walltimeNanos ≠ 0 ∧
      new.job = { Job.new req.account c now request req.walltimeNanos with
        deps := req.deps.map JobId.mk
        payload := req.payload } := by
  unfold jobFromSubmit
  cases hclass : priorityClassFromProto (.ofNumber req.priorityClass) with
  | error err =>
    refine ⟨fun h => (nomatch h), fun ⟨c, _, _, hc, _⟩ => ?_⟩
    rw [priorityClassFromProto_eq_ok.mpr hc] at hclass
    exact nomatch hclass
  | ok c =>
    have hc := priorityClassFromProto_eq_ok.mp hclass
    have hunique : ∀ c', V1.PriorityClass.ofNumber req.priorityClass = priorityClassToProto c' →
        c' = c := by
      intro c' hc'
      exact Except.ok.inj ((priorityClassFromProto_eq_ok.mpr hc').symm.trans hclass)
    constructor
    · intro h
      cases hreq : req.request with
      | none =>
        rw [hreq] at h
        exact nomatch h
      | some wire =>
        rw [hreq] at h
        cases hwire : resourcesFromProto wire with
        | error err =>
          simp only [hwire] at h
          exact nomatch h
        | ok request =>
          simp only [hwire] at h
          by_cases hzero : req.walltimeNanos = 0
          · simp [bind, Except.bind, hzero] at h
          · simp only [bind, Except.bind, if_neg hzero, Except.ok.injEq] at h
            exact ⟨c, wire, request, hc, rfl, hwire, hzero, h ▸ rfl⟩
    · rintro ⟨c', wire, request, hc', hreq, hwire, hzero, hjob⟩
      obtain rfl := hunique c' hc'
      rw [hreq]
      simp only [hwire, bind, Except.bind, if_neg hzero, Except.ok.injEq]
      cases new
      simp only at hjob
      subst hjob
      rfl

end TaskerRT.Daemon
