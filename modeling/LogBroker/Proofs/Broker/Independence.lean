import Mathlib
import LogBroker.Proofs.Broker.View

/-!
# Groups do not interfere

All groups of a broker read the same partitions and stand in one registry. Still no group can tell
what the others do: what is asked of them may be taken out of a run, in part or altogether, and
nobody else gets another answer (`groups_do_not_interfere`).

Two brokers are the `SameFor` a group when they differ in other groups only. Two facts about one
command carry the proof.

* A command to another group changes nothing that this group sees (`sameFor_foreign`).
* Any other command finds all that it reads in what the two brokers share. It gives the same answer
  and leaves brokers that are the same for the group (`SameFor.step`). For a command that goes to no
  group this is because it neither reads nor writes groups (`step_withGroups`).

What lists or counts the groups is left out, for it does tell which groups there are. So are
stand-alone partitions that a group was handed: all groups find them empty (`Broker.store`).
-/
namespace LogBroker.Broker

/-- The group that a command names. -/
def Command.group? : Command → Option String
  | .addConsumer group _ | .subscribe group _ | .poll group _ | .onGroup group _ => some group
  | _ => none

/-- The command names another group. -/
def Command.isForeign (id : String) (c : Command) : Bool := c.group?.any (· ≠ id)

/-- The command asks about the groups that there are. -/
def Command.isCensus : Command → Bool
  | .list | .stats => true
  | _ => false

/-- The command goes to the group, or to topics. -/
def Command.concerns (id : String) (c : Command) : Bool := !c.isForeign id && !c.isCensus

/-- From the first list of commands to the second some that name other groups were taken out. -/
inductive Thinned (id : String) : List Command → List Command → Prop
  | nil : Thinned id [] []
  | keep {cs cs' : List Command} (c : Command) (h : Thinned id cs cs') :
    Thinned id (c :: cs) (c :: cs')
  | drop {cs cs' : List Command} {c : Command} (hc : c.isForeign id = true)
    (h : Thinned id cs cs') : Thinned id (c :: cs) cs'

/-- The brokers differ in other groups only. -/
structure SameFor (id : String) (b b' : Broker) : Prop where
  config : b'.config = b.config
  topics : b'.topics = b.topics
  counters : b'.counters = b.counters
  published : b'.published = b.published
  group : b'.groups[id]? = b.groups[id]?

variable {b b' : Broker} {id : String}

theorem SameFor.refl (id : String) (b : Broker) : SameFor id b b := ⟨rfl, rfl, rfl, rfl, rfl⟩

theorem SameFor.symm (h : SameFor id b b') : SameFor id b' b :=
  ⟨h.config.symm, h.topics.symm, h.counters.symm, h.published.symm, h.group.symm⟩

theorem SameFor.trans {b'' : Broker} (h : SameFor id b b') (h' : SameFor id b' b'') :
    SameFor id b b'' :=
  ⟨h'.config.trans h.config, h'.topics.trans h.topics, h'.counters.trans h.counters,
    h'.published.trans h.published, h'.group.trans h.group⟩

/-! ## Commands to other groups -/

theorem sameFor_setGroup (b : Broker) {group : String} (h : group ≠ id) (g : ConsumerGroup) :
    SameFor id b (b.setGroup group g) :=
  ⟨rfl, rfl, rfl, rfl, by simp [setGroup, Std.ExtTreeMap.getElem?_insert, h]⟩

/-- A command to another group changes nothing that the group sees. -/
theorem sameFor_foreign (b : Broker) {c : Command} (hc : c.isForeign id = true) :
    SameFor id b (b.step c).2 := by
  have hne {group : String} (h : c.group? = some group) : group ≠ id := by
    simpa [Command.isForeign, h] using hc
  cases c with
  | addConsumer group consumer => exact sameFor_setGroup b (hne rfl) _
  | subscribe group topic =>
    simp only [step, subscribe, findTopic, findGroup]
    cases b.topics[topic]? with
    | none => exact .refl id b
    | some t =>
      cases b.groups[group]? with
      | none => exact .refl id b
      | some g => exact sameFor_setGroup b (hne rfl) _
  | poll group consumer =>
    simp only [step, poll, findGroup]
    cases b.groups[group]? with
    | none => exact .refl id b
    | some g => exact sameFor_setGroup b (hne rfl) _
  | onGroup group q =>
    simp only [step]
    cases b.groups[group]? with
    | none => exact .refl id b
    | some g => exact sameFor_setGroup b (hne rfl) _
  | _ => cases hc

/-! ## Commands to no group -/

/-- The broker with other groups. -/
def withGroups (b : Broker) (groups : Std.ExtTreeMap String ConsumerGroup) : Broker :=
  { b with groups }

section
variable (b : Broker) (groups : Std.ExtTreeMap String ConsumerGroup)

/-- A result, with other groups in the broker that comes with it. -/
def swapGroups {α : Type} (r : Except BrokerError (α × Broker)) : Except BrokerError (α × Broker) :=
  r.map fun p => (p.1, p.2.withGroups groups)

theorem settle_swapGroups {α : Type} (answer : α → Answer) (r : Except BrokerError (α × Broker)) :
    (b.withGroups groups).settle answer (swapGroups groups r) =
      ((b.settle answer r).1, (b.settle answer r).2.withGroups groups) := by
  cases r <;> rfl

theorem createTopic_withGroups (name : String) (count : Nat) (strategy : Strategy) :
    (b.withGroups groups).createTopic name count strategy =
      swapGroups groups (b.createTopic name count strategy) := by
  unfold createTopic
  by_cases h : name ∈ b.topics
  · rw [if_pos h, if_pos (show name ∈ (b.withGroups groups).topics from h)]
    rfl
  · rw [if_neg h, if_neg (show name ∉ (b.withGroups groups).topics from h)]
    cases Topic.create name count (strategy.routing name) <;> rfl

theorem createDefault_withGroups (name : String) :
    (b.withGroups groups).createDefault name = swapGroups groups (b.createDefault name) :=
  createTopic_withGroups b groups name _ _

theorem publish_withGroups (topic key : String) (payload : Payload) :
    (b.withGroups groups).publish topic key payload =
      swapGroups groups (b.publish topic key payload) := by
  simp only [publish, findTopic, withGroups]
  cases b.topics[topic]? <;> rfl

theorem publishBatch_withGroups (topic key : String) (payloads : List Payload) :
    (b.withGroups groups).publishBatch topic key payloads =
      swapGroups groups (b.publishBatch topic key payloads) := by
  simp only [publishBatch, findTopic, withGroups]
  cases b.topics[topic]? <;> rfl

theorem publishTimes_withGroups (topic key : String) (payload : Payload) (times : Nat) :
    (b.withGroups groups).publishTimes topic key payload times =
      swapGroups groups (b.publishTimes topic key payload times) := by
  induction times generalizing b with
  | zero => rfl
  | succ times ih =>
    simp only [publishTimes, publish_withGroups]
    cases b.publish topic key payload with
    | error e => rfl
    | ok p =>
      simp only [swapGroups, Except.map, bind, Except.bind, ih]
      cases p.2.publishTimes topic key payload times <;> rfl

/-- A command that names no group does the same whatever groups there are, and leaves them alone.
Only if it asks about them is it answered differently. -/
theorem step_withGroups {c : Command} (hc : c.group? = none) :
    ((b.withGroups groups).step c).2 = (b.step c).2.withGroups groups ∧
      (c.isCensus = false → ((b.withGroups groups).step c).1 = (b.step c).1) := by
  cases c with
  | createTopic name count strategy =>
    simp only [step, createTopic_withGroups, settle_swapGroups, implies_true, and_self]
  | createDefault name =>
    simp only [step, createDefault_withGroups, settle_swapGroups, implies_true, and_self]
  | publish topic key payload =>
    simp only [step, publish_withGroups, settle_swapGroups, implies_true, and_self]
  | publishBatch topic key payloads =>
    simp only [step, publishBatch_withGroups, settle_swapGroups, implies_true, and_self]
  | publishTimes topic key payload times =>
    simp only [step, publishTimes_withGroups, settle_swapGroups, implies_true, and_self]
  | onTopic name q =>
    simp only [step, withGroups]
    cases b.topics[name]? <;> exact ⟨rfl, fun _ => rfl⟩
  | describe topic =>
    simp only [step, describe, findTopic, withGroups]
    cases b.topics[topic]? <;> exact ⟨rfl, fun _ => rfl⟩
  | list => exact ⟨rfl, fun hcensus => by cases hcensus⟩
  | stats => exact ⟨rfl, fun hcensus => by cases hcensus⟩
  | _ => cases hc

theorem groups_step {c : Command} (hc : c.group? = none) : (b.step c).2.groups = b.groups := by
  have h := congrArg Broker.groups (step_withGroups b b.groups hc).1
  exact h

end

/-! ## Any command that is not foreign -/

theorem SameFor.eq_withGroups (h : SameFor id b b') : b' = b.withGroups b'.groups := by
  cases b'
  simp only [withGroups, Broker.mk.injEq]
  exact ⟨h.config, h.topics, trivial, h.counters, h.published⟩

theorem SameFor.setGroup (h : SameFor id b b') (g : ConsumerGroup) :
    SameFor id (b.setGroup id g) (b'.setGroup id g) :=
  ⟨h.config, h.topics, h.counters, h.published, by simp [Broker.setGroup]⟩

theorem SameFor.withGroups (b : Broker) {groups : Std.ExtTreeMap String ConsumerGroup}
    (h : groups[id]? = b.groups[id]?) : SameFor id b (b.withGroups groups) :=
  ⟨rfl, rfl, rfl, rfl, h⟩

/-- A command to the group itself is answered and settled by what the two brokers share. -/
theorem SameFor.step_own (h : SameFor id b b') {c : Command} (hc : c.group? = some id) :
    (b'.step c).1 = (b.step c).1 ∧ SameFor id (b.step c).2 (b'.step c).2 := by
  cases c with
  | addConsumer group consumer =>
    obtain rfl : group = id := Option.some.inj hc
    have hg : b'.groups.getD group (b'.newGroup group) = b.groups.getD group (b.newGroup group) := by
      rw [Std.ExtTreeMap.getD_eq_getD_getElem?, Std.ExtTreeMap.getD_eq_getD_getElem?, h.group,
        newGroup, newGroup, h.config]
    simp only [Broker.step, Broker.addConsumer, hg]
    exact ⟨trivial, h.setGroup _⟩
  | subscribe group topic =>
    obtain rfl : group = id := Option.some.inj hc
    simp only [step, subscribe, findTopic, findGroup, h.topics, h.group]
    cases b.topics[topic]? with
    | none => exact ⟨rfl, h⟩
    | some t =>
      cases b.groups[group]? with
      | none => exact ⟨rfl, h⟩
      | some g => exact ⟨rfl, h.setGroup _⟩
  | poll group consumer =>
    obtain rfl : group = id := Option.some.inj hc
    simp only [step, poll, findGroup, h.group, store_eq h.topics]
    cases b.groups[group]? with
    | none => exact ⟨rfl, h⟩
    | some g => exact ⟨rfl, h.setGroup _⟩
  | onGroup group q =>
    obtain rfl : group = id := Option.some.inj hc
    simp only [step, h.group, store_eq h.topics]
    cases b.groups[group]? with
    | none => exact ⟨rfl, h⟩
    | some g => exact ⟨rfl, h.setGroup _⟩
  | _ => cases hc

/-- No command but a foreign one tells the two brokers apart, unless it asks which groups there are;
and none makes them differ. -/
theorem SameFor.step (h : SameFor id b b') {c : Command} (hc : c.isForeign id = false) :
    (c.isCensus = false → (b'.step c).1 = (b.step c).1) ∧
      SameFor id (b.step c).2 (b'.step c).2 := by
  cases hg : c.group? with
  | some group =>
    obtain rfl : group = id := by simpa [Command.isForeign, hg] using hc
    obtain ⟨hanswer, hsame⟩ := h.step_own hg
    exact ⟨fun _ => hanswer, hsame⟩
  | none =>
    obtain ⟨hnext, hanswer⟩ := step_withGroups b b'.groups hg
    rw [← h.eq_withGroups] at hnext hanswer
    refine ⟨hanswer, hnext ▸ .withGroups _ ?_⟩
    rw [h.group, groups_step b hg]

/-! ## A run -/

/-- What a group and the topics see of a run: the commands that concern them, with the answers. -/
def seenBy (id : String) (t : List (Command × Answer)) : List (Command × Answer) :=
  t.filter (·.1.concerns id)

theorem seenBy_cons (id : String) (b : Broker) (c : Command) (cs : List Command) :
    seenBy id (b.transcript (c :: cs)) =
      (if c.concerns id then [(c, (b.step c).1)] else []) ++
        seenBy id ((b.step c).2.transcript cs) := by
  cases h : c.concerns id <;> simp [seenBy, transcript, Run.transcript, h]

theorem SameFor.run (h : SameFor id b b') {cs cs' : List Command} (ht : Thinned id cs cs') :
    seenBy id (b'.transcript cs') = seenBy id (b.transcript cs) ∧
      SameFor id (Run.last Broker.step b cs) (Run.last Broker.step b' cs') := by
  induction ht generalizing b b' with
  | nil => exact ⟨rfl, h⟩
  | @drop cs cs' c hc _ ih =>
    obtain ⟨hseen, hsame⟩ := ih ((sameFor_foreign b hc).symm.trans h)
    refine ⟨?_, hsame⟩
    rw [hseen, seenBy_cons, Command.concerns, hc]
    rfl
  | @keep cs cs' c _ ih =>
    have hnext : SameFor id (b.step c).2 (b'.step c).2 := by
      cases hc : c.isForeign id with
      | true => exact (sameFor_foreign b hc).symm.trans (h.trans (sameFor_foreign b' hc))
      | false => exact (h.step hc).2
    obtain ⟨hseen, hsame⟩ := ih hnext
    refine ⟨?_, hsame⟩
    rw [seenBy_cons, seenBy_cons, hseen]
    congr 1
    split
    · rename_i hc
      obtain ⟨hc, hcensus⟩ : c.isForeign id = false ∧ c.isCensus = false := by
        simpa [Command.concerns] using hc
      rw [(h.step hc).1 hcensus]
    · rfl

/-- **Independence.** However many of the commands to other groups are taken out of a run, a group
and the topics cannot tell: all other commands, but those that ask which groups there are, get the
answers that they got, and the group, the topics, the counters and the number of published messages
end up the same. -/
theorem groups_do_not_interfere (b : Broker) {id : String} {cs cs' : List Command}
    (h : Thinned id cs cs') :
    seenBy id (b.transcript cs') = seenBy id (b.transcript cs) ∧
      SameFor id (b.run cs).2 (b.run cs').2 := by
  rw [run_eq, run_eq]
  exact (SameFor.refl id b).run h

/-- Another group subscribes, polls and deals its partitions out in between. -/
def twoGroups : List Command :=
  [.createTopic "t" 1 .roundRobin, .addConsumer "h" "x", .addConsumer "g" "c", .subscribe "h" "t",
    .subscribe "g" "t", .publish "t" "k" [1], .poll "h" "x", .onGroup "h" .rebalance,
    .poll "g" "c", .stats, .onGroup "g" (.lag "c")]

/-- The other group comes into being and polls, and does nothing else. -/
def oneGroup : List Command :=
  [.createTopic "t" 1 .roundRobin, .addConsumer "h" "x", .addConsumer "g" "c",
    .subscribe "g" "t", .publish "t" "k" [1], .poll "h" "x",
    .poll "g" "c", .stats, .onGroup "g" (.lag "c")]

theorem groups_do_not_interfere_two_groups :
    Thinned "g" twoGroups oneGroup ∧
      (Command.poll "g" "c", Answer.polled [⟨ref "t" 0, [⟨0, some "k", [1]⟩]⟩]) ∈
        seenBy "g" (({} : Broker).transcript oneGroup) ∧
      SameFor "g" (({} : Broker).run twoGroups).2 (({} : Broker).run oneGroup).2 := by
  have hthin : Thinned "g" twoGroups oneGroup :=
    .keep _ <| .keep _ <| .keep _ <| .drop rfl <| .keep _ <| .keep _ <| .keep _ <| .drop rfl <|
      .keep _ <| .keep _ <| .keep _ .nil
  obtain ⟨hseen, hsame⟩ := groups_do_not_interfere {} hthin
  refine ⟨hthin, ?_, hsame⟩
  rw [hseen]
  decide

end LogBroker.Broker
