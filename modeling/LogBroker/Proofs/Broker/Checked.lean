import Mathlib
import LogBroker.Proofs.Broker.View
import LogBroker.Proofs.Checked

/-!
# No command goes out of bounds

The checks of topics and groups (`Topic.stepChecked`, `ConsumerGroup.stepChecked`) make up a broker
that stops where something is out of bounds (`Broker.stepChecked`). A request to a topic needs
nothing for its checks to pass. One to a group needs a number for the generation that it starts, if
it starts one.

A step starts a generation of the group in which it deals and of no other (`generation_step`). So if
all deals of a run can be numbered, then at each step those that are still to come can be, and no
check fails on the way (`nothing_out_of_bounds`).
-/
namespace LogBroker

namespace Broker

/-! ## The broker that stops -/

/-- As `Broker.publish`. -/
def publishChecked (b : Broker) (topic key : String) (payload : Payload) :
    Option (Except BrokerError (Placement × Broker)) :=
  match b.findTopic topic with
  | .error e => some (.error e)
  | .ok t => do
    let (placed, t, counters) ← t.addChecked b.counters key payload
    return .ok (placed, ({ b with counters }.setTopic topic t).countPublished 1)

/-- As `Broker.publishBatch`. -/
def publishBatchChecked (b : Broker) (topic key : String) (payloads : List Payload) :
    Option (Except BrokerError (BatchPlacement × Broker)) :=
  match b.findTopic topic with
  | .error e => some (.error e)
  | .ok t => do
    let (placed, t, counters) ← t.addBatchChecked b.counters key payloads
    return .ok (placed, ({ b with counters }.setTopic topic t).countPublished payloads.length)

/-- As `Broker.publishTimes`. -/
def publishTimesChecked (b : Broker) (topic key : String) (payload : Payload) :
    Nat → Option (Except BrokerError (List Placement × Broker))
  | 0 => some (.ok ([], b))
  | n + 1 => do
    match ← b.publishChecked topic key payload with
    | .error e => return .error e
    | .ok (placed, b) =>
      match ← b.publishTimesChecked topic key payload n with
      | .error e => return .error e
      | .ok (more, b) => return .ok (placed :: more, b)

/-- As `Broker.addConsumer`. -/
def addConsumerChecked (b : Broker) (group consumer : String) :
    Option (ConsumerGroup × Broker) := do
  let (_, g) ← (b.groups.getD group (b.newGroup group)).addConsumerChecked consumer
  return (g, b.setGroup group g)

/-- As `Broker.subscribe`. -/
def subscribeChecked (b : Broker) (group topic : String) : Option (Except BrokerError Broker) :=
  match b.findTopic topic, b.findGroup group with
  | .error e, _ => some (.error e)
  | .ok _, .error e => some (.error e)
  | .ok t, .ok g => do
    let (_, g) ← g.subscribeChecked t.name t.refs
    return .ok (b.setGroup group g)

/-- As `Broker.poll`. -/
def pollChecked (b : Broker) (group consumer : String) :
    Option (Except BrokerError (List Delivery × Broker)) :=
  match b.findGroup group with
  | .error e => some (.error e)
  | .ok g => do
    let (ds, g) ← g.pollWithinChecked b.store consumer g.maxPoll
    return .ok (ds, b.setGroup group g)

/-- As `Broker.step`. -/
def stepChecked (b : Broker) : Command → Option (Answer × Broker)
  | .addConsumer group consumer =>
    (b.addConsumerChecked group consumer).map fun (g, next) => (.group g, next)
  | .subscribe group topic =>
    (b.subscribeChecked group topic).map fun r =>
      b.settle (fun _ => .subscribed) (r.map fun next => ((), next))
  | .publish topic key payload => (b.publishChecked topic key payload).map (b.settle .placed)
  | .publishBatch topic key payloads =>
    (b.publishBatchChecked topic key payloads).map (b.settle .placedBatch)
  | .publishTimes topic key payload times =>
    (b.publishTimesChecked topic key payload times).map
      (b.settle fun ps => .placements (ps.mergeSort placementLe))
  | .poll group consumer => (b.pollChecked group consumer).map (b.settle .polled)
  | .onTopic name c =>
    match b.topics[name]? with
    | none => some (.onTopic none, b)
    | some t => do
      let (a, t, counters) ← t.stepChecked b.counters c
      return (.onTopic (some a), { b with counters }.setTopic name t)
  | .onGroup id c =>
    match b.groups[id]? with
    | none => some (.onGroup none, b)
    | some g => do
      let (a, g) ← g.stepChecked b.store c
      return (.onGroup (some a), b.setGroup id g)
  | c => some (b.step c)

/-- As `Broker.run`. -/
def runChecked (b : Broker) : List Command → Option (List Answer × Broker)
  | [] => some ([], b)
  | c :: rest => do
    let (a, next) ← b.stepChecked c
    let (as, last) ← next.runChecked rest
    return (a :: as, last)

/-! ## Requests to topics -/

theorem publishChecked_eq (b : Broker) (topic key : String) (payload : Payload) :
    b.publishChecked topic key payload = some (b.publish topic key payload) := by
  unfold publishChecked publish
  cases b.findTopic topic with
  | error e => rfl
  | ok t =>
    simp only [Topic.addChecked_eq]
    rfl

theorem publishBatchChecked_eq (b : Broker) (topic key : String) (payloads : List Payload) :
    b.publishBatchChecked topic key payloads = some (b.publishBatch topic key payloads) := by
  unfold publishBatchChecked publishBatch
  cases b.findTopic topic with
  | error e => rfl
  | ok t =>
    simp only [Topic.addBatchChecked_eq]
    rfl

theorem publishTimesChecked_eq (b : Broker) (topic key : String) (payload : Payload) (n : Nat) :
    b.publishTimesChecked topic key payload n = some (b.publishTimes topic key payload n) := by
  induction n generalizing b with
  | zero => rfl
  | succ n ih =>
    rw [publishTimesChecked, publishTimes, publishChecked_eq]
    cases b.publish topic key payload with
    | error e => rfl
    | ok placed =>
      simp only [bind, Option.bind_some, ih, Except.bind]
      cases placed.2.publishTimes topic key payload n <;> rfl

/-! ## Any command -/

/-- The command makes a group deal its partitions out. -/
def deals (id : String) (b : Broker) (c : Command) : Bool :=
  match b.asked id c with
  | none => false
  | some q => (b.group id).deals b.store q

/-- A group that deals can number the deal. -/
theorem numbered_of_asked {b : Broker} {c : Command}
    (h : ∀ id, b.deals id c = true → (b.group id).Numbered) (id : String)
    {q : ConsumerGroup.Command} (hq : b.asked id c = some q) :
    (b.group id).deals b.store q = true → (b.group id).Numbered := by
  intro hdeals
  apply h id
  simpa only [deals, hq] using hdeals

theorem stepChecked_eq {b : Broker} {c : Command}
    (h : ∀ id, b.deals id c = true → (b.group id).Numbered) :
    b.stepChecked c = some (b.step c) := by
  cases c with
  | publish topic key payload => rw [stepChecked, publishChecked_eq]; rfl
  | publishBatch topic key payloads => rw [stepChecked, publishBatchChecked_eq]; rfl
  | publishTimes topic key payload times => rw [stepChecked, publishTimesChecked_eq]; rfl
  | onTopic name c =>
    simp only [stepChecked, step, Topic.stepChecked_eq]
    cases b.topics[name]? <;> rfl
  | addConsumer group consumer =>
    have hgroup := ConsumerGroup.addConsumerChecked_eq
      (numbered_of_asked h group (q := .addConsumer consumer) (by simp [asked]))
    unfold Broker.group at hgroup
    rw [stepChecked, addConsumerChecked, hgroup]
    rfl
  | subscribe group topic =>
    simp only [stepChecked, subscribeChecked, step, subscribe, findTopic, findGroup]
    cases ht : b.topics[topic]? with
    | none => rfl
    | some t =>
      cases hg : b.groups[group]? with
      | none => rfl
      | some g =>
        have hgroup := ConsumerGroup.subscribeChecked_eq
          (numbered_of_asked h group (q := .subscribe t.name t.refs)
            (by simp [asked, mem_groups hg, ht]))
        rw [group_of_some hg] at hgroup
        simp only [hgroup]
        rfl
  | poll group consumer =>
    simp only [stepChecked, pollChecked, step, poll, findGroup]
    cases b.groups[group]? with
    | none => rfl
    | some g =>
      simp only [ConsumerGroup.pollWithinChecked_eq]
      rfl
  | onGroup id c =>
    simp only [stepChecked, step]
    cases hg : b.groups[id]? with
    | none => rfl
    | some g =>
      have hgroup := ConsumerGroup.stepChecked_eq
        (numbered_of_asked h id (q := c) (by simp [asked, mem_groups hg]))
      rw [group_of_some hg] at hgroup
      simp only [hgroup]
      rfl
  | _ => rfl

/-- A step starts a generation of the group in which it deals. -/
theorem generation_step {b : Broker} (hn : b.Named) (id : String) (c : Command) :
    ((b.step c).2.group id).generation =
      (b.group id).generation + if b.deals id c then 1 else 0 := by
  rcases answered_step hn id c with ⟨hq, hgroup, -⟩ | ⟨q, hq, hgroup, -⟩
  · simp [deals, hq, hgroup]
  · rw [hgroup, ConsumerGroup.generation_step]
    simp only [deals, hq]

/-! ## Runs -/

/-- Where all deals that are to come can be numbered, no check fails. -/
theorem runChecked_eq {b : Broker} (hn : b.Named) {cs : List Command}
    (h : ∀ id, (b.group id).generation.toNat + Run.countP step (deals id) b cs < 2 ^ 32) :
    b.runChecked cs = some (b.run cs) := by
  induction cs generalizing b with
  | nil => rfl
  | cons c cs ih =>
    have hstep : b.stepChecked c = some (b.step c) := by
      refine stepChecked_eq fun id hdeals => ?_
      have := h id
      rw [Run.countP, if_pos hdeals] at this
      rw [ConsumerGroup.Numbered]
      omega
    have hrest := ih (named_step hn c) fun id => by
      have hid := h id
      rw [Run.countP] at hid
      rw [generation_step hn]
      by_cases hdeals : b.deals id c = true
      · rw [if_pos hdeals] at hid ⊢
        rw [UInt32.toNat_add, UInt32.toNat_one, Nat.mod_eq_of_lt (by omega)]
        omega
      · rw [if_neg hdeals] at hid ⊢
        rwa [UInt32.add_zero, ← Nat.zero_add (Run.countP _ _ _ _)]
    simp only [runChecked, hstep, Option.bind_eq_bind, Option.bind_some, hrest]
    rfl

/-- **Nothing goes out of bounds.** Over every run of a broker in which no group deals `2 ^ 32`
times, with whatever names, keys, payloads, numbers of partitions, caps and offsets, and requests to
its topics, partitions and groups included, no check fails. Every modulus and divisor is positive,
every message is routed to a partition that is there, every turn is that of a member with a row,
every slice is inside the list of partitions, no poll takes more than its limit, and every
generation has its number. The run that checks all this does what the run does that does not. -/
theorem nothing_out_of_bounds (config : Config) {cs : List Command}
    (h : ∀ id, Run.countP step (deals id) ({ config } : Broker) cs < 2 ^ 32) :
    ({ config } : Broker).runChecked cs = some (({ config } : Broker).run cs) := by
  refine runChecked_eq (named_new config) fun id => ?_
  have hzero : ((({ config } : Broker).group id).generation).toNat = 0 := by
    rw [group_new]
    rfl
  rw [hzero, Nat.zero_add]
  exact h id

/-- Five partitions of two topics for two members, one of them with a cap of its own. -/
def dealtFourTimes : List Command :=
  [.createTopic "t" 3 .roundRobin, .createTopic "u" 2 .hashed, .addConsumer "g" "b",
    .subscribe "g" "t", .addConsumer "g" "a", .subscribe "g" "u", .onGroup "g" .rebalance,
    .publishBatch "t" "k" [[1], [2], [3]], .publish "u" "k" [4], .onGroup "g" (.pollMax "a" 2),
    .poll "g" "b"]

/-- In blocks of three and two, by one cap after the other. -/
theorem nothing_out_of_bounds_dealt_four_times :
    let b : Broker := { config := { distribution := .range, maxPollRecords := some 1 } }
    (∀ id, Run.countP step (deals id) b dealtFourTimes < 2 ^ 32) ∧
    b.runChecked dealtFourTimes = some (b.run dealtFourTimes) ∧
    ((b.run dealtFourTimes).2.group "g").generation = 4 ∧
    (((b.run dealtFourTimes).2.group "g").owned "a").length = 3 := by
  intro b
  have h (id : String) : Run.countP step (deals id) b dealtFourTimes < 2 ^ 32 :=
    (Run.countP_le_length ..).trans_lt (by decide)
  exact ⟨h, nothing_out_of_bounds _ h, by decide +kernel, by decide +kernel⟩

end Broker
end LogBroker
