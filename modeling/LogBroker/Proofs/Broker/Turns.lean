import Mathlib
import LogBroker.Proofs.Broker.Registry
import LogBroker.Proofs.Distribution.Shares

/-!
# Turns are taken exactly and fairly

Where a topic alone uses a counter, the counter counts the topic's own routings, and so the `j`-th
of them goes to the partition at `j` modulo the number of partitions.

* A command that is routed takes one turn from the counter of its topic, and any other command takes
  none (`turns_cases`). In particular a command that fails takes none.
* `Sole` says that a topic has a counter to itself. What holds of the topics in the end held of them
  all along, as topics keep their shape (`sole_of_step`); so the invariant of the counter
  (`turning_step`) may assume it from the start.
* How often a partition occurs among the first `total` turns is its share of `total` items dealt by
  turns (`count_turns`). A window of turns is what lies between two such numbers.

A command to publish a message several times answers with the places in order and not with the
turns. So it is written out as that many commands (`Command.singly`), which do the same
(`last_singly`).
-/
namespace LogBroker.Broker

/-! ## One command -/

/-- The commands that a command is made of. -/
def Command.singly : Command → List Command
  | .publishTimes topic key payload times => List.replicate times (.publish topic key payload)
  | c => [c]

/-- The topic in which a command was routed, and the partition to which it was. -/
def turn? : Command × Answer → Option (String × Nat)
  | (.publish name _ _, .placed p) | (.onTopic name _, .onTopic (some (.placed p))) =>
    some (name, p.partition)
  | (.publishBatch name _ _, .placedBatch p)
  | (.onTopic name _, .onTopic (some (.placedBatch p))) => some (name, p.partition)
  | _ => none

/-- The partitions to which the commands of a topic were routed, one after the other. -/
def turnsOf (topic : String) (t : List (Command × Answer)) : List Nat :=
  ((t.filterMap turn?).filter (·.1 = topic)).map (·.2)

@[simp] theorem turnsOf_append (topic : String) (t u : List (Command × Answer)) :
    turnsOf topic (t ++ u) = turnsOf topic t ++ turnsOf topic u := by
  simp [turnsOf]

theorem turnsOf_of_none {q : Command × Answer} (h : turn? q = none) (topic : String) :
    turnsOf topic [q] = [] := by
  simp [turnsOf, h]

theorem turnsOf_of_some {q : Command × Answer} {name : String} {place : Nat}
    (h : turn? q = some (name, place)) (topic : String) :
    turnsOf topic [q] = if name = topic then [place] else [] := by
  by_cases hname : name = topic <;> simp [turnsOf, h, hname]

theorem counters_step_of_not_toTopic (b : Broker) {c : Command} (hc : c.toTopic = false) :
    (b.step c).2.counters = b.counters := by
  rcases step_cases b hc with ⟨h, -⟩ | ⟨name, _, _, t, -, -, h, -⟩ | ⟨group, q, -, h, -⟩
  · rw [h]
  · rw [h]; rfl
  · rw [h]; rfl

/-- A command is not routed and takes no turn, or it is routed in one topic and takes one there. -/
theorem turns_cases (b : Broker) {c : Command} (hc : c.singly = [c]) :
    ((b.step c).2.counters = b.counters ∧ turn? (c, (b.step c).1) = none) ∨
    ∃ name t key, b.topics[name]? = some t ∧
      (b.step c).2.counters = t.routing.advance b.counters ∧
      turn? (c, (b.step c).1) = some (name, t.routing.index b.counters key t.count) := by
  cases c with
  | publish name key payload =>
    cases h : b.topics[name]? with
    | none =>
      simp only [step, publish_unknown h]
      exact Or.inl ⟨rfl, rfl⟩
    | some t =>
      simp only [step, publish_ok h]
      exact Or.inr ⟨name, t, key, h, rfl, rfl⟩
  | publishBatch name key payloads =>
    cases h : b.topics[name]? with
    | none =>
      simp only [step, publishBatch_unknown h]
      exact Or.inl ⟨rfl, rfl⟩
    | some t =>
      simp only [step, publishBatch_ok h]
      exact Or.inr ⟨name, t, key, h, rfl, rfl⟩
  | publishTimes name key payload times =>
    have hlen := congrArg List.length hc
    rw [Command.singly, List.length_replicate, List.length_singleton] at hlen
    subst hlen
    cases hc
  | onTopic name c =>
    cases h : b.topics[name]? with
    | none => simp [step, h, turn?]
    | some t =>
      simp only [step, h]
      cases c with
      | add key payload => exact Or.inr ⟨name, t, key, h, rfl, rfl⟩
      | addBatch key payloads => exact Or.inr ⟨name, t, key, h, rfl, rfl⟩
      | onPartition index c =>
        cases hp : t.partitions[index]? <;> simp [Topic.step, hp, setTopic, turn?]
  | _ => exact Or.inl ⟨counters_step_of_not_toTopic b rfl, rfl⟩

theorem singly_of_mem {c d : Command} (h : d ∈ c.singly) : d.singly = [d] := by
  cases c with
  | publishTimes topic key payload times =>
    rw [(List.mem_replicate.1 h).2]
    rfl
  | _ =>
    rw [List.mem_singleton.1 h]
    rfl

theorem publishTimes_unknown {b : Broker} {topic : String} (h : b.topics[topic]? = none)
    (key : String) (payload : Payload) (times : Nat) :
    (b.step (.publishTimes topic key payload times)).2 = b := by
  cases times with
  | zero => rfl
  | succ times =>
    simp only [step, publishTimes, publish_unknown h]
    rfl

/-- A command does what the commands do that it is made of. -/
theorem last_singly {b : Broker} (hn : b.Named) (c : Command) :
    Run.last step b c.singly = (b.step c).2 := by
  cases c with
  | publishTimes topic key payload times =>
    induction times generalizing b with
    | zero => rfl
    | succ times ih =>
      show Run.last step (b.step (.publish topic key payload)).2
        (Command.singly (.publishTimes topic key payload times)) = _
      rw [ih (named_step hn _)]
      cases h : b.topics[topic]? with
      | none =>
        have hstay : (b.step (.publish topic key payload)).2 = b := by
          simp only [step, publish_unknown h]
          rfl
        rw [hstay, publishTimes_unknown h, publishTimes_unknown h]
      | some t =>
        obtain ⟨t', ht', -⟩ := topic_step hn (.publish topic key payload) h
        have hk : topic ∈ (b.step (.publish topic key payload)).2.topics :=
          Std.ExtTreeMap.mem_iff_isSome_getElem?.2 (by rw [ht']; rfl)
        obtain ⟨ps, b', hps, -⟩ := publishTimes_ok (named_step hn _) hk key payload times
        simp only [step, publish_ok h, settle] at hps ⊢
        simp only [publishTimes, publish_ok h, hps, bind, Except.bind]
        rfl
  | _ => rfl

theorem last_flatMap_singly {b : Broker} (hn : b.Named) (cs : List Command) :
    Run.last step b (cs.flatMap Command.singly) = Run.last step b cs := by
  induction cs generalizing b with
  | nil => rfl
  | cons c cs ih =>
    rw [List.flatMap_cons, Run.last_append, last_singly hn, ih (named_step hn c)]
    rfl

/-! ## A counter of one topic -/

/-- A topic is the only one to use a counter, and has a given number of partitions. -/
structure Sole (topic : String) (counter : CounterId) (count : Nat) (b : Broker) : Prop where
  own : ∀ t, b.topics[topic]? = some t → t.routing = .roundRobin counter ∧ t.count = count
  only : ∀ (name : String) (t : Topic), b.topics[name]? = some t →
    t.routing = .roundRobin counter → name = topic

variable {b : Broker} {topic : String} {counter : CounterId} {count : Nat}

/-- As topics keep their shape, what is so after a command was so before. -/
theorem sole_of_step (hn : b.Named) {c : Command} (h : Sole topic counter count (b.step c).2) :
    Sole topic counter count b := by
  constructor
  · intro t ht
    obtain ⟨t', ht', he⟩ := topic_step hn c ht
    have hown := h.own t' ht'
    simp only [Topic.shape, Prod.mk.injEq] at he
    rwa [he.2.2, he.2.1] at hown
  · intro name t ht hr
    obtain ⟨t', ht', he⟩ := topic_step hn c ht
    simp only [Topic.shape, Prod.mk.injEq] at he
    exact h.only name t' ht' (he.2.2.trans hr)

/-- The counter counts the routings in the topic, and each went where the counter stood. -/
structure Turning (topic : String) (counter : CounterId) (count : Nat) (b : Broker)
    (turns : List Nat) : Prop where
  counted : b.counters.get counter = UInt64.ofNat turns.length
  turns : turns = (List.range turns.length).map (· % 2 ^ 64 % count)

theorem get_advance_of_ne {r : Routing} (h : r ≠ .roundRobin counter) (cs : Counters) :
    (r.advance cs).get counter = cs.get counter := by
  cases r with
  | hashed => rfl
  | roundRobin counter' => exact Counters.get_set_of_ne cs _ fun he => h (he ▸ rfl)

theorem turning_step {turns : List Nat} (h : Turning topic counter count b turns)
    (hs : Sole topic counter count b) {c : Command} (hc : c.singly = [c]) :
    Turning topic counter count (b.step c).2 (turns ++ turnsOf topic [(c, (b.step c).1)]) := by
  rcases turns_cases b hc with ⟨hcounters, hnone⟩ | ⟨name, t, key, ht, hcounters, hturn⟩
  · rw [turnsOf_of_none hnone, List.append_nil]
    exact ⟨by rw [hcounters, h.counted], h.turns⟩
  · rw [turnsOf_of_some hturn]
    by_cases hname : name = topic
    · subst hname
      obtain ⟨hr, hcount⟩ := hs.own t ht
      have hindex : t.routing.index b.counters key t.count =
          turns.length % 2 ^ 64 % count := by
        rw [hr, hcount, Routing.index, h.counted, UInt64.toNat_ofNat']
      rw [if_pos rfl, hindex]
      constructor
      · rw [hcounters, hr, Routing.advance, Counters.advance, Counters.get_set_self, h.counted,
          List.length_append, List.length_singleton, UInt64.ofNat_add]
        rfl
      · rw [List.length_append, List.length_singleton, List.range_succ, List.map_append, ← h.turns]
        rfl
    · rw [if_neg hname, List.append_nil]
      have hother : t.routing ≠ .roundRobin counter := fun hr => hname (hs.only name t ht hr)
      exact ⟨by rw [hcounters, get_advance_of_ne hother, h.counted], h.turns⟩

theorem turning_run (config : Config) {cs : List Command} (hcs : ∀ c ∈ cs, c.singly = [c])
    (hs : Sole topic counter count (Run.last step ({ config } : Broker) cs)) :
    Turning topic counter count (Run.last step ({ config } : Broker) cs)
      (turnsOf topic (Run.transcript step ({ config } : Broker) cs)) := by
  refine (Run.invariant (fun (b : Broker) t => b.Named ∧
    (Sole topic counter count b → Turning topic counter count b (turnsOf topic t)))
    (fun b t c hc h => ⟨named_step h.1 c, fun hs => ?_⟩) ⟨named_new config, fun _ => ⟨?_, rfl⟩⟩
    (Run.along_of_forall (fun c hc _ => hcs c hc) _)).2 hs
  · rw [turnsOf_append]
    have hbefore := sole_of_step h.1 hs
    exact turning_step (h.2 hbefore) hbefore hc
  · cases counter <;> rfl

/-! ## Shares of turns -/

/-- How often a place takes one of the first turns. -/
theorem count_turns {count place : Nat} (h : place < count) (total : Nat) :
    ((List.range total).map (· % count)).count place = Distribution.share total count place := by
  induction total with
  | zero => simp [Distribution.share]
  | succ total ih =>
    rw [List.range_succ, List.map_append, List.count_append, ih, Distribution.share_succ _ h]
    simp [List.count_singleton]

theorem eq_turns_of_prefix {count total : Nat} {xs : List Nat}
    (h : xs <+: (List.range total).map (· % count)) :
    xs = (List.range xs.length).map (· % count) := by
  have hlen := h.length_le
  rw [List.length_map, List.length_range] at hlen
  have htake := List.prefix_iff_eq_take.1 h
  rwa [← List.map_take, List.take_range, Nat.min_eq_left hlen] at htake

/-- A window of turns lies between two numbers of first turns. -/
theorem exists_share_of_infix {count total : Nat} {window : List Nat}
    (h : window <:+: (List.range total).map (· % count)) :
    ∃ start, ∀ place < count,
      Distribution.share start count place + window.count place =
        Distribution.share (start + window.length) count place := by
  obtain ⟨before, after, hall⟩ := h
  have hboth := eq_turns_of_prefix ⟨after, hall⟩
  have hbefore := eq_turns_of_prefix ⟨window ++ after, by rw [← List.append_assoc, hall]⟩
  refine ⟨before.length, fun place hplace => ?_⟩
  rw [← List.length_append, ← count_turns hplace, ← count_turns hplace, ← hbefore, ← hboth,
    List.count_append]

/-- Over consecutive turns no place is ahead of another by more than one. -/
theorem count_le_of_infix {count total : Nat} {window : List Nat}
    (h : window <:+: (List.range total).map (· % count)) {p q : Nat} (hp : p < count)
    (hq : q < count) : window.count p ≤ window.count q + 1 := by
  obtain ⟨start, hshare⟩ := exists_share_of_infix h
  have hsp := hshare p hp
  have hsq := hshare q hq
  unfold Distribution.share at hsp hsq
  split_ifs at hsp hsq <;> omega

/-- Whole rounds of turns give every place as many as there are rounds. -/
theorem count_of_infix {count total : Nat} {window : List Nat}
    (h : window <:+: (List.range total).map (· % count)) {rounds place : Nat}
    (hlen : window.length = rounds * count) (hplace : place < count) :
    window.count place = rounds := by
  obtain ⟨start, hshare⟩ := exists_share_of_infix h
  have hs := hshare place hplace
  unfold Distribution.share at hs
  rw [hlen, Nat.add_mul_div_right _ _ (Nat.zero_lt_of_lt hplace), Nat.add_mul_mod_self_right] at hs
  omega

/-! ## Who has a counter to himself -/

/-- A topic has the routing that some strategy gave it. -/
theorem strategy_run (config : Config) (cs : List Command) (name : String) (t : Topic)
    (h : (Run.last step ({ config } : Broker) cs).topics[name]? = some t) :
    ∃ strategy, t.routing = Strategy.routing strategy name := by
  refine (Run.invariant_always (fun (b : Broker) _ => b.Named ∧ ∀ (name : String) (t : Topic),
    b.topics[name]? = some t → ∃ strategy, t.routing = Strategy.routing strategy name)
    (fun b _ c h => ⟨named_step h.1 c, ?_⟩) ⟨named_new config, by simp⟩ cs).2 name t h
  intro name t ht
  have hshape : (b.step c).2.topics[name]?.map Topic.shape = some t.shape := by rw [ht]; rfl
  rcases shape_step h.1 c name with hs | ⟨-, count, strategy, hs⟩
  · rw [hs] at hshape
    obtain ⟨t', ht', he⟩ := Option.map_eq_some_iff.1 hshape
    simp only [Topic.shape, Prod.mk.injEq] at he
    rw [← he.2.2]
    exact h.2 name t' ht'
  · rw [hs] at hshape
    exact ⟨strategy, (congrArg (fun s => s.2.2) (Option.some.inj hshape)).symm⟩

/-- A topic that is created as the configuration says has the routing of its own that the
configuration names. -/
theorem createDefault_created {b : Broker} {name : String} {t : Topic}
    (h : (b.step (.createDefault name)).1 = .created t) :
    (b.step (.createDefault name)).2.topics[name]? = some t ∧
      t.routing = (Strategy.ofKind b.config.routing).routing name := by
  simp only [step, createDefault, createTopic] at h ⊢
  split at h
  · cases h
  · rename_i hfree
    rw [if_neg hfree]
    cases ht : Topic.create name b.config.defaultPartitions.toNat
        ((Strategy.ofKind b.config.routing).routing name) with
    | error e =>
      rw [ht] at h
      cases h
    | ok t' =>
      rw [ht] at h
      cases h
      exact ⟨Std.ExtTreeMap.getElem?_insert_self, congrArg (fun s => s.2.2) (Topic.shape_create ht)⟩

/-- A counter of a topic's own is used by no other topic. -/
theorem ofTopic_only {config : Config} {cs : List Command} {topic name : String} {t : Topic}
    (h : (Run.last step ({ config } : Broker) cs).topics[name]? = some t)
    (hr : t.routing = .roundRobin (.ofTopic topic)) : name = topic := by
  obtain ⟨strategy, hs⟩ := strategy_run config cs name t h
  rw [hr] at hs
  cases strategy <;> simp_all [Strategy.routing]

/-- **Exact and fair.** Let a topic be the only one to use its counter, and let at most `2 ^ 64`
commands have been routed in it. Whatever the keys and payloads were, and whatever else happened in
the broker, the `j`-th of them went to the partition at `j` modulo the number of partitions. So over
consecutive ones no partition gets ahead of another by more than one, and whole rounds give every
partition as many as there are rounds. A topic that is created as the configuration says has a
counter to itself for good, if the configuration asks for turns. -/
theorem turns_exact_and_fair :
    (∀ (config : Config) (cs : List Command) (topic : String) (t : Topic) (counter : CounterId),
      let b := (({ config } : Broker).run cs).2
      let singles := cs.flatMap Command.singly
      let turns := turnsOf topic (transcript { config } singles)
      b.topics[topic]? = some t → t.routing = .roundRobin counter →
      (∀ (name : String) (t' : Topic), b.topics[name]? = some t' →
        t'.routing = .roundRobin counter → name = topic) →
      turns.length ≤ 2 ^ 64 →
      (({ config } : Broker).run singles).2 = b ∧
      (∀ j < turns.length, turns[j]? = some (j % t.count)) ∧
      ∀ window, window <:+: turns →
        (∀ p < t.count, ∀ q < t.count, window.count p ≤ window.count q + 1) ∧
        ∀ k, window.length = k * t.count → ∀ p < t.count, window.count p = k) ∧
    ∀ (config : Config) (before after : List Command) (name : String) (t : Topic),
      config.routing = .roundRobin →
      ((({ config } : Broker).run before).2.step (.createDefault name)).1 = .created t →
      let b := (({ config } : Broker).run (before ++ .createDefault name :: after)).2
      (∃ t', b.topics[name]? = some t' ∧ t'.routing = .roundRobin (.ofTopic name)) ∧
      ∀ (name' : String) (t' : Topic), b.topics[name']? = some t' →
        t'.routing = .roundRobin (.ofTopic name) → name' = name := by
  simp only [run_eq]
  constructor
  · intro config cs topic t counter ht hr honly hlen
    have hlast := last_flatMap_singly (named_new config) cs
    have hsole : Sole topic counter t.count (Run.last step ({ config } : Broker) cs) := by
      refine ⟨fun t' ht' => ?_, honly⟩
      cases ht.symm.trans ht'
      exact ⟨hr, rfl⟩
    have hsingly : ∀ c ∈ cs.flatMap Command.singly, c.singly = [c] := by
      intro c hc
      obtain ⟨c', -, hc'⟩ := List.mem_flatMap.1 hc
      exact singly_of_mem hc'
    have hturns := (turning_run config hsingly (hlast ▸ hsole)).turns
    rw [← transcript] at hturns
    generalize turnsOf topic (transcript { config } (cs.flatMap Command.singly)) = turns
      at hlen hturns ⊢
    -- the counter never came round to zero
    have hexact : turns = (List.range turns.length).map (· % t.count) := by
      rw [hturns, List.length_map, List.length_range]
      refine List.map_congr_left fun j hj => ?_
      rw [Nat.mod_eq_of_lt (Nat.lt_of_lt_of_le (List.mem_range.1 hj) hlen)]
    refine ⟨hlast, fun j hj => ?_, fun window hwindow => ?_⟩
    · rw [hexact]
      simp [hj]
    · rw [hexact] at hwindow
      exact ⟨fun p hp q hq => count_le_of_infix hwindow hp hq,
        fun k hk p hp => count_of_infix hwindow hk hp⟩
  · intro config before after name t hconfig hcreated
    have hn := named_run config before
    obtain ⟨ht, hr⟩ := createDefault_created hcreated
    rw [config_last (named_new config), hconfig] at hr
    obtain ⟨t', ht', he⟩ := topic_last (named_step hn _) ht after
    simp only [Topic.shape, Prod.mk.injEq] at he
    refine ⟨⟨t', ?_, he.2.2.trans hr⟩, fun name' t' h hr => ofTopic_only h hr⟩
    rw [Run.last_append]
    exact ht'

/-- A topic "t" with turns of its own, a topic "u" with others, and what neither of them notices: a
group, a topic that is created again, one that is not there, a batch without messages and a request
to a partition. -/
def busy : List Command :=
  [.createDefault "t", .createTopic "u" 2 (.sharedTurns 0), .publish "t" "k" [1],
    .publish "u" "k" [2], .addConsumer "g" "c", .publishBatch "t" "k" [], .createDefault "t",
    .publish "v" "k" [3], .publishTimes "t" "l" [4] 3, .onTopic "t" (.onPartition 0 .reserveOne),
    .onTopic "t" (.add "k" [5]), .poll "g" "c"]

/-- Topics of two partitions that take turns. -/
def byTurns : Config := { defaultPartitions := 2, routing := .roundRobin }

theorem turns_exact_and_fair_busy :
    (({ config := byTurns } : Broker).step (.createDefault "t")).1 =
      .created ⟨"t", [.new "t" 0, .new "t" 1], .roundRobin (.ofTopic "t"), by decide⟩ ∧
    ∃ t, (({ config := byTurns } : Broker).run busy).2.topics["t"]? = some t ∧
      t.routing = .roundRobin (.ofTopic "t") ∧ t.count = 2 ∧
    (∀ (name : String) (t' : Topic),
      (({ config := byTurns } : Broker).run busy).2.topics[name]? = some t' →
      t'.routing = .roundRobin (.ofTopic "t") → name = "t") ∧
    ∃ turns, turnsOf "t" (transcript { config := byTurns } (busy.flatMap Command.singly)) = turns ∧
      turns = [0, 1, 0, 1, 0, 1] ∧ turns.length ≤ 2 ^ 64 ∧
      turns[5]? = some (5 % t.count) ∧
      [1, 0, 1] <:+: turns ∧ [1, 0, 1].count 1 ≤ [1, 0, 1].count 0 + 1 ∧
      [1, 0, 1, 0] <:+: turns ∧ [1, 0, 1, 0].length = 2 * t.count ∧ [1, 0, 1, 0].count 0 = 2 := by
  have hcreated : (({ config := byTurns } : Broker).step (.createDefault "t")).1 =
      .created ⟨"t", [.new "t" 0, .new "t" 1], .roundRobin (.ofTopic "t"), by decide⟩ := rfl
  obtain ⟨t, ht, hr, hcount⟩ : ∃ t, (({ config := byTurns } : Broker).run busy).2.topics["t"]? =
      some t ∧ t.routing = .roundRobin (.ofTopic "t") ∧ t.count = 2 := ⟨_, rfl, rfl, rfl⟩
  have hsole := (turns_exact_and_fair.2 byTurns [] busy.tail "t" _ rfl hcreated).2
  have hturns : turnsOf "t" (transcript { config := byTurns } (busy.flatMap Command.singly)) =
      [0, 1, 0, 1, 0, 1] := by decide +kernel
  have hall := turns_exact_and_fair.1 byTurns busy "t" t (.ofTopic "t") ht hr hsole
  rw [hturns] at hall
  obtain ⟨-, hplaces, hwindows⟩ := hall (by decide)
  have hodd : [1, 0, 1] <:+: [0, 1, 0, 1, 0, 1] := ⟨[0], [0, 1], rfl⟩
  have heven : [1, 0, 1, 0] <:+: [0, 1, 0, 1, 0, 1] := ⟨[0], [1], rfl⟩
  refine ⟨hcreated, t, ht, hr, hcount, hsole, _, hturns, rfl, by decide, hplaces 5 (by decide),
    hodd, ?_, heven, by rw [hcount]; rfl, ?_⟩
  · exact (hwindows _ hodd).1 1 (by rw [hcount]; decide) 0 (by rw [hcount]; decide)
  · exact (hwindows _ heven).2 2 (by rw [hcount]; rfl) 0 (by rw [hcount]; decide)

end LogBroker.Broker
