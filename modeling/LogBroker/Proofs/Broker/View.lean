import Mathlib
import LogBroker.Proofs.Broker.Step

/-!
# A broker as one of its groups sees it

A broker is many groups over one set of partitions. `Broker.view` shows one group beside these
partitions, as a `Bench`. A command to the broker asks something of partitions (`traffic`) or of
one group (`asked`), and for the bench it is the run of these requests (`requests`).

* `view_step`: the broker after the command shows the bench after the requests.
* `view_run`, `deliveries_run`, `writes_run`, `along_run`: a run of the broker is a run of the
  bench, with the same deliveries to the group, the same messages stored, and offsets that fit if
  they fit in the broker.

So all that is true of the runs of a bench is true of every group of a broker. The bench has the
partitions that `Broker.store` shows: one that is in no topic is empty there.
-/
namespace LogBroker.Broker

/-- One group beside the partitions of all topics. -/
def view (id : String) (b : Broker) : Bench := { group := b.group id, store := b.store }

/-- What a command asks of the bench of a group. -/
def requests (id : String) (b : Broker) (c : Command) : List Bench.Command :=
  Bench.ofTraffic (b.traffic c) ++ (b.asked id c).toList.map .group

/-- What all polls of a run delivered to a group. -/
def delivered (id : String) (t : List (Command × Answer)) : List Delivery :=
  t.flatMap (deliveriesTo id)

/-- All messages that were stored during a run, each with its partition. -/
def writes (t : List (Command × Answer)) : List (PartitionRef × Message) := t.flatMap written

/-- The commands of a run, each with its answer. -/
def transcript (b : Broker) (cs : List Command) : List (Command × Answer) :=
  Run.transcript step b cs

theorem run_eq (b : Broker) (cs : List Command) :
    b.run cs = ((b.transcript cs).map Prod.snd, Run.last step b cs) := by
  induction cs generalizing b with
  | nil => rfl
  | cons c cs ih => simp only [run, ih]; rfl

/-- A group was asked something or nothing; it changed accordingly, and this was delivered. -/
def Answered (b : Broker) (id : String) (asked : Option ConsumerGroup.Command) (b' : Broker)
    (ds : List Delivery) : Prop :=
  (asked = none ∧ b'.group id = b.group id ∧ ds = []) ∨
    ∃ q, asked = some q ∧ b'.group id = ((b.group id).step b.store q).2 ∧
      ds = ((b.group id).step b.store q).1.deliveries

/-- What a command does to a group. -/
theorem answered_step {b : Broker} (hn : b.Named) (id : String) (c : Command) :
    Answered b id (b.asked id c) (b.step c).2 (deliveriesTo id (c, (b.step c).1)) := by
  by_cases hc : c.toTopic = true
  · have hs := served_step hn hc
    have hgroup := group_eq hs.groups hs.config id
    cases c <;> first | exact Or.inl ⟨rfl, hgroup, rfl⟩ | cases hc
  rcases step_cases b (Bool.eq_false_iff.2 hc) with ⟨h, hun⟩ |
    ⟨name, count, routing, t, -, -, h, hun⟩ | ⟨group, q, -, h, hask⟩
  · exact Or.inl ⟨(hun id).1, by rw [h], (hun id).2⟩
  · exact Or.inl ⟨(hun id).1, by rw [h]; rfl, (hun id).2⟩
  · obtain ⟨ha, hds⟩ := hask id
    by_cases he : group = id
    · subst he
      rw [if_pos rfl] at ha hds
      exact Or.inr ⟨q, ha, by rw [h, group_setGroup, if_pos rfl], hds⟩
    · rw [if_neg he] at ha hds
      exact Or.inl ⟨ha, by rw [h, group_setGroup, if_neg he], hds⟩

theorem toTopic_of_asked {b : Broker} {id : String} {c : Command} {q : ConsumerGroup.Command}
    (h : b.asked id c = some q) : c.toTopic = false := by
  cases c <;> first | rfl | cases h

/-- A group is asked to add a consumer, which may be what opens it, or one that is there is asked to
subscribe to a topic, to poll, or whatever the command asks of it. -/
theorem asked_cases {b : Broker} {id : String} {c : Command} {q : ConsumerGroup.Command}
    (h : b.asked id c = some q) :
    (∃ consumer, c = .addConsumer id consumer ∧ q = .addConsumer consumer) ∨
    id ∈ b.groups ∧
      ((∃ topic t, c = .subscribe id topic ∧ b.topics[topic]? = some t ∧
          q = .subscribe t.name t.refs) ∨
        (∃ consumer, c = .poll id consumer ∧ q = .poll consumer) ∨ c = .onGroup id q) := by
  cases c with
  | addConsumer group consumer =>
    obtain ⟨rfl, hq⟩ := Option.ite_none_right_eq_some.1 h
    cases hq
    exact Or.inl ⟨consumer, rfl, rfl⟩
  | subscribe group topic =>
    obtain ⟨⟨rfl, hid⟩, hq⟩ := Option.ite_none_right_eq_some.1 h
    obtain ⟨t, ht, rfl⟩ := Option.map_eq_some_iff.1 hq
    exact Or.inr ⟨hid, Or.inl ⟨topic, t, rfl, ht, rfl⟩⟩
  | poll group consumer =>
    obtain ⟨⟨rfl, hid⟩, hq⟩ := Option.ite_none_right_eq_some.1 h
    cases hq
    exact Or.inr ⟨hid, Or.inr (Or.inl ⟨consumer, rfl, rfl⟩)⟩
  | onGroup group q' =>
    obtain ⟨⟨rfl, hid⟩, hq⟩ := Option.ite_none_right_eq_some.1 h
    cases hq
    exact Or.inr ⟨hid, Or.inr (Or.inr rfl)⟩
  | _ => cases h

/-! ## One command -/

variable {b : Broker}

/-- What is asked of a group changes the group and no partition. -/
theorem step_of_asked (hn : b.Named) {id : String} {c : Command} {q : ConsumerGroup.Command}
    (h : b.asked id c = some q) : (b.step c).2.store = b.store ∧
      (b.step c).2.group id = ((b.group id).step b.store q).2 ∧
      deliveriesTo id (c, (b.step c).1) = ((b.group id).step b.store q).1.deliveries := by
  have hstore := (store_step hn c).1
  rw [traffic_of_not_toTopic b (toTopic_of_asked h)] at hstore
  rcases answered_step hn id c with ⟨hnone, -, -⟩ | ⟨q', ha, hgroup, hds⟩
  · rw [h] at hnone
    cases hnone
  · rw [h] at ha
    cases ha
    exact ⟨hstore.symm, hgroup, hds⟩

/-- After a command the broker shows what the bench is after the requests. -/
theorem view_step (hn : b.Named) (id : String) (c : Command) :
    Run.last Bench.step (b.view id) (b.requests id c) = (b.step c).2.view id := by
  have hstore := (store_step hn c).1
  rw [requests, Run.last_append, Bench.last_ofTraffic]
  rcases answered_step hn id c with ⟨ha, hgroup, -⟩ | ⟨q, ha, hgroup, -⟩
  · rw [ha]
    simp only [Option.toList_none, List.map_nil, Run.last, view, hstore, hgroup]
  · rw [ha]
    have ht := traffic_of_not_toTopic b (toTopic_of_asked ha)
    rw [ht] at hstore ⊢
    simp only [Option.toList_some, List.map_cons, List.map_nil, Run.last, view, Bench.step_group]
    rw [← hgroup, ← hstore]
    rfl

theorem deliveries_step (hn : b.Named) (id : String) (c : Command) :
    Bench.deliveries (Run.transcript Bench.step (b.view id) (b.requests id c)) =
      deliveriesTo id (c, (b.step c).1) := by
  rw [requests, Run.transcript_append, Bench.deliveries_append, Bench.deliveries_ofTraffic,
    Bench.last_ofTraffic, List.nil_append]
  rcases answered_step hn id c with ⟨ha, -, hds⟩ | ⟨q, ha, -, hds⟩
  · rw [ha, hds]
    rfl
  · rw [ha, hds]
    simp [traffic_of_not_toTopic b (toTopic_of_asked ha), Run.transcript, Bench.step_group, view,
      Bench.deliveries, Bench.Answer.deliveries, Run.last]

theorem writes_step (hn : b.Named) (id : String) (c : Command) :
    (Bench.writes (Run.transcript Bench.step (b.view id) (b.requests id c))).Perm
      (written (c, (b.step c).1)) := by
  rw [requests, Run.transcript_append, Bench.writes_append, Bench.writes_ofTraffic]
  have hgroup (b' : Bench) (qs : List ConsumerGroup.Command) :
      Bench.writes (Run.transcript Bench.step b' (qs.map .group)) = [] := by
    induction qs generalizing b' with
    | nil => rfl
    | cons q qs ih => exact ih (b'.step (.group q)).2
  rw [hgroup, List.append_nil]
  exact (store_step hn c).2

theorem along_step (id : String) (c : Command) (hf : b.Fits c) :
    Run.Along Bench.step Bench.Fits (b.view id) (b.requests id c) := by
  rw [requests, Run.along_append]
  exact ⟨(Bench.along_ofTraffic _ _).2 hf, Bench.along_group _ _⟩

/-! ## A run -/

theorem store_new (config : Config) : ({ config } : Broker).store = Store.fresh := by
  funext r
  simp [store, Store.fresh]

theorem group_new (config : Config) (id : String) :
    ({ config } : Broker).group id = ({ config } : Broker).newGroup id := by
  simp [group]

theorem view_new (config : Config) (id : String) :
    ({ config } : Broker).view id = Bench.fresh id config.distribution config.maxPoll := by
  rw [view, store_new, group_new]
  rfl

/-- What a run of the broker asks of the bench of a group. -/
def history (config : Config) (cs : List Command) (id : String) : List Bench.Command :=
  Run.expand step (requests id) { config } cs

theorem view_run (config : Config) (cs : List Command) (id : String) :
    Run.last Bench.step (Bench.fresh id config.distribution config.maxPoll)
      (history config cs id) = (Run.last step { config } cs).view id := by
  rw [← view_new]
  exact Run.last_expand (view id) (fun (b : Broker) c hn => named_step hn c)
    (fun (b : Broker) c hn => view_step hn id c) (named_new config) cs

theorem deliveries_run (config : Config) (cs : List Command) (id : String) :
    Bench.deliveries (Run.transcript Bench.step
      (Bench.fresh id config.distribution config.maxPoll) (history config cs id)) =
        delivered id (transcript { config } cs) := by
  rw [← view_new]
  exact Run.flatMap_expand (view id) (R := Eq) rfl (fun _ _ _ _ h₁ h₂ => h₁ ▸ h₂ ▸ rfl)
    (fun (b : Broker) c hn => named_step hn c) (fun (b : Broker) c hn => view_step hn id c)
    (fun (b : Broker) c hn => deliveries_step hn id c) (named_new config) cs

theorem writes_run (config : Config) (cs : List Command) (id : String) :
    (Bench.writes (Run.transcript Bench.step
      (Bench.fresh id config.distribution config.maxPoll) (history config cs id))).Perm
        (writes (transcript { config } cs)) := by
  rw [← view_new]
  exact Run.flatMap_expand (view id) (R := List.Perm) .nil
    (fun _ _ _ _ h₁ h₂ => h₁.append h₂) (fun (b : Broker) c hn => named_step hn c)
    (fun (b : Broker) c hn => view_step hn id c) (fun (b : Broker) c hn => writes_step hn id c)
    (named_new config) cs

theorem along_run {config : Config} {cs : List Command} (hf : Run.Along step Fits { config } cs)
    (id : String) :
    Run.Along Bench.step Bench.Fits (Bench.fresh id config.distribution config.maxPoll)
      (history config cs id) := by
  rw [← view_new]
  exact Run.along_expand (view id) (fun (b : Broker) c hn => named_step hn c)
    (fun (b : Broker) c hn => view_step hn id c) (fun (b : Broker) c _ hf => along_step id c hf)
    (named_new config) hf

end LogBroker.Broker
