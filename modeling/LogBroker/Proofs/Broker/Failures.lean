import Mathlib
import LogBroker.Proofs.Broker.View

/-!
# Which commands fail

`Broker.fault` tells from the registries alone whether a command fails, and why. Where several
causes are present it takes the one that counts: a name that is taken before a number of partitions
that is zero, an unknown topic before an unknown group. `failed_iff` says that the answers agree.

A command that fails leaves the broker as it was (`step_of_failed`). So the failing commands of a
run may as well not have been made: without them it gives the same other answers and leads to the
same broker (`failures_leave_no_trace`).
-/
namespace LogBroker.Broker
variable (b : Broker)

/-- Why no topic of that name can be created with so many partitions. -/
def creationFault (name : String) (count : Nat) : Option BrokerError :=
  if name ∈ b.topics then some (.topicAlreadyExists name)
  else if count = 0 then some (.noPartitions name) else none

/-- Why the topic of a name cannot be used. -/
def topicFault (name : String) : Option BrokerError :=
  if name ∈ b.topics then none else some (.topicNotFound name)

/-- Why the group of an id cannot be used. -/
def groupFault (id : String) : Option BrokerError :=
  if id ∈ b.groups then none else some (.groupNotFound id)

/-- Why a command fails. -/
def fault : Command → Option BrokerError
  | .createTopic name count _ => b.creationFault name count
  | .createDefault name => b.creationFault name b.config.defaultPartitions.toNat
  | .subscribe group topic => (b.topicFault topic).or (b.groupFault group)
  | .publish topic _ _ | .publishBatch topic _ _ | .describe topic => b.topicFault topic
  | .publishTimes topic _ _ times => if times = 0 then none else b.topicFault topic
  | .poll group _ => b.groupFault group
  | _ => none

/-- The error in an answer. -/
def Answer.error? : Answer → Option BrokerError
  | .failed e => some e
  | _ => none

/-- The error of a result. -/
def errorOf {α : Type} : Except BrokerError α → Option BrokerError
  | .ok _ => none
  | .error e => some e

theorem creationFault_eq_some {name : String} {count : Nat} {e : BrokerError} :
    b.creationFault name count = some e ↔ (name ∈ b.topics ∧ e = .topicAlreadyExists name) ∨
      (name ∉ b.topics ∧ count = 0 ∧ e = .noPartitions name) := by
  unfold creationFault
  by_cases h : name ∈ b.topics <;> by_cases h0 : count = 0 <;> simp [h, h0, eq_comm]

theorem topicFault_eq_some {name : String} {e : BrokerError} :
    b.topicFault name = some e ↔ name ∉ b.topics ∧ e = .topicNotFound name := by
  unfold topicFault
  by_cases h : name ∈ b.topics <;> simp [h, eq_comm]

theorem topicFault_eq_none {name : String} : b.topicFault name = none ↔ name ∈ b.topics := by
  unfold topicFault
  by_cases h : name ∈ b.topics <;> simp [h]

theorem groupFault_eq_some {id : String} {e : BrokerError} :
    b.groupFault id = some e ↔ id ∉ b.groups ∧ e = .groupNotFound id := by
  unfold groupFault
  by_cases h : id ∈ b.groups <;> simp [h, eq_comm]

theorem Answer.error?_eq_some {a : Answer} {e : BrokerError} :
    a.error? = some e ↔ a = .failed e := by
  cases a <;> simp [error?]

/-! ## The single operations -/

variable {b}

theorem errorOf_findTopic (name : String) : errorOf (b.findTopic name) = b.topicFault name := by
  unfold findTopic topicFault
  cases h : b.topics[name]? with
  | some t =>
    rw [if_pos (Std.ExtTreeMap.mem_iff_isSome_getElem?.2 (Option.isSome_of_eq_some h))]
    rfl
  | none =>
    rw [if_neg (by simp [Std.ExtTreeMap.mem_iff_isSome_getElem?, h])]
    rfl

theorem errorOf_findGroup (id : String) : errorOf (b.findGroup id) = b.groupFault id := by
  unfold findGroup groupFault
  cases h : b.groups[id]? with
  | some g => rw [if_pos (mem_groups h)]; rfl
  | none => rw [if_neg (not_mem_groups h)]; rfl

/-- Of two operations one after the other, the second is only made if the first does not fail. -/
theorem errorOf_bind {α β : Type} {x : Except BrokerError α} {f : α → Except BrokerError β}
    {second : Option BrokerError} (h : ∀ a, errorOf (f a) = second) :
    errorOf (x >>= f) = (errorOf x).or second := by
  cases x with
  | error e => rfl
  | ok a => exact h a

/-- To go on without failing keeps the error. -/
theorem errorOf_bind_ok {α β : Type} {x : Except BrokerError α} {f : α → Except BrokerError β}
    (h : ∀ a, errorOf (f a) = none) : errorOf (x >>= f) = errorOf x := by
  rw [errorOf_bind h, Option.or_none]

theorem errorOf_createTopic (name : String) (count : Nat) (strategy : Strategy) :
    errorOf (b.createTopic name count strategy) = b.creationFault name count := by
  unfold createTopic creationFault
  split
  · rfl
  · rw [errorOf_bind_ok fun _ => rfl, Topic.create]
    split <;> rfl

theorem errorOf_publish (topic key : String) (payload : Payload) :
    errorOf (b.publish topic key payload) = b.topicFault topic := by
  rw [publish, errorOf_bind_ok fun _ => rfl, errorOf_findTopic]

theorem errorOf_publishBatch (topic key : String) (payloads : List Payload) :
    errorOf (b.publishBatch topic key payloads) = b.topicFault topic := by
  rw [publishBatch, errorOf_bind_ok fun _ => rfl, errorOf_findTopic]

theorem errorOf_describe (topic : String) : errorOf (b.describe topic) = b.topicFault topic := by
  rw [← errorOf_findTopic, describe]
  cases b.findTopic topic <;> rfl

theorem errorOf_subscribe (group topic : String) :
    errorOf (b.subscribe group topic) = (b.topicFault topic).or (b.groupFault group) := by
  rw [subscribe, errorOf_bind fun _ => ?_, errorOf_findTopic]
  exact (errorOf_bind_ok fun _ => rfl).trans (b.errorOf_findGroup group)

theorem errorOf_poll (group consumer : String) :
    errorOf (b.poll group consumer) = b.groupFault group := by
  rw [poll, errorOf_bind_ok fun _ => rfl, errorOf_findGroup]

theorem errorOf_publishTimes_of_mem {topic : String} (h : topic ∈ b.topics) (key : String)
    (payload : Payload) (times : Nat) :
    errorOf (b.publishTimes topic key payload times) = none := by
  induction times generalizing b with
  | zero => rfl
  | succ times ih =>
    obtain ⟨t, ht⟩ := Option.isSome_iff_exists.1 (Std.ExtTreeMap.mem_iff_isSome_getElem?.1 h)
    rw [publishTimes, publish_ok ht]
    change errorOf (publishTimes _ topic key payload times >>= _) = none
    rw [errorOf_bind_ok fun _ => rfl]
    exact ih (Std.ExtTreeMap.mem_insert_self)

/-- To publish the same message several times fails at the first, or not at all. -/
theorem errorOf_publishTimes (topic key : String) (payload : Payload) (times : Nat) :
    errorOf (b.publishTimes topic key payload times) =
      if times = 0 then none else b.topicFault topic := by
  cases times with
  | zero => rfl
  | succ times =>
    rw [if_neg (Nat.succ_ne_zero times)]
    by_cases h : topic ∈ b.topics
    · rw [errorOf_publishTimes_of_mem h, topicFault, if_pos h]
    · rw [publishTimes, publish_unknown (Std.ExtTreeMap.getElem?_eq_none h), topicFault, if_neg h]
      rfl

/-! ## Any command -/

/-- An answer tells of the error that the result is. -/
theorem error?_settle {α : Type} {answer : α → Answer} (h : ∀ a, (answer a).error? = none)
    (x : Except BrokerError (α × Broker)) : (b.settle answer x).1.error? = errorOf x := by
  rcases x with e | ⟨a, next⟩
  · rfl
  · exact h a

/-- The answer to a command is a failure just when there is a fault, and tells of it. -/
theorem error?_step (b : Broker) (c : Command) : (b.step c).1.error? = b.fault c := by
  cases c with
  | createTopic name count strategy =>
    exact (error?_settle (fun _ => rfl) _).trans (errorOf_createTopic ..)
  | createDefault name => exact (error?_settle (fun _ => rfl) _).trans (errorOf_createTopic ..)
  | addConsumer group consumer => rfl
  | subscribe group topic =>
    refine (error?_settle (fun _ => rfl) _).trans (Eq.trans ?_ (errorOf_subscribe group topic))
    cases b.subscribe group topic <;> rfl
  | publish topic key payload => exact (error?_settle (fun _ => rfl) _).trans (errorOf_publish ..)
  | publishBatch topic key payloads =>
    exact (error?_settle (fun _ => rfl) _).trans (errorOf_publishBatch ..)
  | publishTimes topic key payload times =>
    exact (error?_settle (fun _ => rfl) _).trans (errorOf_publishTimes ..)
  | poll group consumer => exact (error?_settle (fun _ => rfl) _).trans (errorOf_poll ..)
  | onTopic name c =>
    simp only [step]
    cases b.topics[name]? <;> rfl
  | onGroup id c =>
    simp only [step]
    cases b.groups[id]? <;> rfl
  | describe topic =>
    refine (error?_settle (fun _ => rfl) _).trans (Eq.trans ?_ (errorOf_describe topic))
    cases b.describe topic <;> rfl
  | list => rfl
  | stats => rfl

theorem failed_iff {c : Command} {e : BrokerError} :
    (b.step c).1 = .failed e ↔ b.fault c = some e := by
  rw [← Answer.error?_eq_some, error?_step]

/-- A result that is an error leads nowhere. -/
theorem settle_of_failed {α : Type} {answer : α → Answer} (h : ∀ a, (answer a).error? = none)
    {x : Except BrokerError (α × Broker)} {e : BrokerError}
    (hx : (b.settle answer x).1.error? = some e) : (b.settle answer x).2 = b := by
  rcases x with e' | ⟨a, next⟩
  · rfl
  · rw [settle, h a] at hx
    cases hx

/-- A command that fails leaves the broker as it was. -/
theorem step_of_failed {c : Command} {e : BrokerError} (h : (b.step c).1 = .failed e) :
    (b.step c).2 = b := by
  rw [← Answer.error?_eq_some] at h
  cases c with
  | addConsumer group consumer => cases h
  | onTopic name c =>
    simp only [step] at h ⊢
    cases ht : b.topics[name]? with
    | none => rfl
    | some t => rw [ht] at h; cases h
  | onGroup id c =>
    simp only [step] at h ⊢
    cases hg : b.groups[id]? with
    | none => rfl
    | some g => rw [hg] at h; cases h
  | list => rfl
  | stats => rfl
  | _ => exact settle_of_failed (fun _ => rfl) h

/-- **Failures leave no trace.** For each command, in any broker: it fails for the named causes and
for no others, and if it fails, the broker stays as it was. Hence the failing commands of a run may
be left out: all other answers and the broker in the end are the same. -/
theorem failures_leave_no_trace (b : Broker) :
    (∀ name count strategy e, (b.step (.createTopic name count strategy)).1 = .failed e ↔
      (name ∈ b.topics ∧ e = .topicAlreadyExists name) ∨
        (name ∉ b.topics ∧ count = 0 ∧ e = .noPartitions name)) ∧
    (∀ name e, (b.step (.createDefault name)).1 = .failed e ↔
      (name ∈ b.topics ∧ e = .topicAlreadyExists name) ∨
        (name ∉ b.topics ∧ b.config.defaultPartitions = 0 ∧ e = .noPartitions name)) ∧
    (∀ topic key payload e, (b.step (.publish topic key payload)).1 = .failed e ↔
      topic ∉ b.topics ∧ e = .topicNotFound topic) ∧
    (∀ topic key payloads e, (b.step (.publishBatch topic key payloads)).1 = .failed e ↔
      topic ∉ b.topics ∧ e = .topicNotFound topic) ∧
    (∀ topic e, (b.step (.describe topic)).1 = .failed e ↔
      topic ∉ b.topics ∧ e = .topicNotFound topic) ∧
    (∀ group topic e, (b.step (.subscribe group topic)).1 = .failed e ↔
      (topic ∉ b.topics ∧ e = .topicNotFound topic) ∨
        (topic ∈ b.topics ∧ group ∉ b.groups ∧ e = .groupNotFound group)) ∧
    (∀ group consumer e, (b.step (.poll group consumer)).1 = .failed e ↔
      group ∉ b.groups ∧ e = .groupNotFound group) ∧
    (∀ c e, (b.step c).1 = .failed e → (b.step c).2 = b) ∧
    ∀ cs : List Command,
      let others := (b.transcript cs).filter fun q => q.2.error?.isNone
      b.transcript (others.map Prod.fst) = others ∧
        (b.run (others.map Prod.fst)).2 = (b.run cs).2 := by
  have hdefault : b.config.defaultPartitions.toNat = 0 ↔ b.config.defaultPartitions = 0 :=
    ⟨fun h => UInt64.toNat_inj.1 h, fun h => by rw [h]; rfl⟩
  refine ⟨?_, ?_, ?_, ?_, ?_, ?_, ?_, fun c e h => step_of_failed h, fun cs => ?_⟩
  · intro name count strategy e
    rw [failed_iff, fault, creationFault_eq_some]
  · intro name e
    rw [failed_iff, fault, creationFault_eq_some, hdefault]
  · intro topic key payload e
    rw [failed_iff, fault, topicFault_eq_some]
  · intro topic key payloads e
    rw [failed_iff, fault, topicFault_eq_some]
  · intro topic e
    rw [failed_iff, fault, topicFault_eq_some]
  · intro group topic e
    rw [failed_iff, fault, Option.or_eq_some_iff, topicFault_eq_some, topicFault_eq_none,
      groupFault_eq_some]
  · intro group consumer e
    rw [failed_iff, fault, groupFault_eq_some]
  · simp only [run_eq]
    refine Run.drop_idle (fun a : Answer => a.error?.isNone) (fun b' c h => ?_) b cs
    cases he : (b'.step c).1.error? with
    | none =>
      rw [he] at h
      cases h
    | some e => exact step_of_failed (Answer.error?_eq_some.1 he)

/-- Every kind of failure; where two causes meet in one command, the first one counts. -/
def refused : List Command :=
  [.createTopic "t" 1 .roundRobin, .createTopic "t" 0 .roundRobin, .createTopic "u" 0 .roundRobin,
    .publish "t" "k" [1], .publishBatch "x" "k" [[2]], .describe "x", .subscribe "g" "x",
    .subscribe "g" "t", .poll "g" "c"]

theorem failures_leave_no_trace_refused :
    (({} : Broker).run refused).1.map Answer.error? =
      [none, some (.topicAlreadyExists "t"), some (.noPartitions "u"), none,
        some (.topicNotFound "x"), some (.topicNotFound "x"), some (.topicNotFound "x"),
        some (.groupNotFound "g"), some (.groupNotFound "g")] ∧
    (({} : Broker).run refused).2 =
      (({} : Broker).run [.createTopic "t" 1 .roundRobin, .publish "t" "k" [1]]).2 ∧
    (({} : Broker).step (.subscribe "g" "x")).1 = .failed (.topicNotFound "x") ∧
    (({} : Broker).step (.subscribe "g" "x")).2 = {} := by
  have hothers : ((transcript {} refused).filter fun q => q.2.error?.isNone).map Prod.fst =
      [.createTopic "t" 1 .roundRobin, .publish "t" "k" [1]] := by decide
  obtain ⟨-, -, -, -, -, hsubscribe, -, hstays, hdrop⟩ := failures_leave_no_trace {}
  have hfailed := (hsubscribe "g" "x" (.topicNotFound "x")).2 (Or.inl ⟨by decide, rfl⟩)
  have hsame := (hdrop refused).2
  rw [hothers] at hsame
  exact ⟨by decide, hsame.symm, hfailed, hstays _ _ hfailed⟩

end LogBroker.Broker
