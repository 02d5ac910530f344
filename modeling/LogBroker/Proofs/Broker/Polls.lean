import Mathlib
import LogBroker.Proofs.Broker.Identity
import LogBroker.Proofs.Delivery.Pending
import LogBroker.Proofs.Ownership

/-!
# Polls in a row

Between polls of one consumer with nothing else in between, only the cursors of its group change
(`run_polls`). What such polls deliver is therefore cut from what was pending before the first.

* `capped_polls_cut`: polls with caps of their own, in a group that the broker subscribed, deliver
  an uncapped poll in pieces, and leave the cursors it would leave once the caps suffice.
* `empty_poll_caught_up`: under a configuration that lets polls return something, an empty poll
  means that the consumer is caught up. Polls come to an empty one, and by then they delivered what
  an uncapped poll would have.

A configuration may cap polls at no message at all. Then every poll is empty and says nothing
(`not_caught_up_capped_at_zero`).
-/
namespace LogBroker.Broker
open Delivery ConsumerGroup

variable {b : Broker}

/-! ## Polls of one consumer -/

/-- A command polls for a consumer of a group within a limit and is answered in this form; `cap` is
the cap that the group has. -/
inductive Polls (cap : Limit) (id consumer : String) :
    (List Delivery → Answer) → Command → Limit → Prop
  | plain : Polls cap id consumer .polled (.poll id consumer) cap
  | capped (max : Nat) : Polls cap id consumer (fun ds => .onGroup (some (.polled ds)))
      (.onGroup id (.pollMax consumer max)) (some max)

theorem poll_ok {id : String} {g : ConsumerGroup} (hg : b.groups[id]? = some g)
    (consumer : String) :
    b.poll id consumer = .ok ((g.poll b.store consumer).1,
      b.setGroup id (g.poll b.store consumer).2) := by
  simp only [poll, findGroup, hg]
  rfl

theorem groups_of_poll_ok {id consumer : String} {ds : List Delivery} {b' : Broker}
    (h : b.poll id consumer = .ok (ds, b')) : ∃ g, b.groups[id]? = some g := by
  cases hg : b.groups[id]? with
  | none =>
    simp only [poll, findGroup, hg] at h
    cases h
  | some g => exact ⟨g, rfl⟩

theorem groups_setGroup (b : Broker) (id : String) (g : ConsumerGroup) :
    (b.setGroup id g).groups[id]? = some g := by
  simp [setGroup]

/-- A poll moves the cursors of the group and does nothing else. -/
theorem step_polls {id consumer : String} {g : ConsumerGroup} (hg : b.groups[id]? = some g)
    {answer : List Delivery → Answer} {c : Command} {limit : Limit}
    (h : Polls g.maxPoll id consumer answer c limit) :
    b.step c = (answer (g.pollWithin b.store consumer limit).1,
      b.setGroup id (g.pollWithin b.store consumer limit).2) := by
  cases h with
  | plain =>
    simp only [step, poll_ok hg]
    rfl
  | capped max =>
    simp only [step, hg]
    rfl

/-- Polls in a row move the cursors of the group, each from where the last one left them. -/
theorem run_polls {id consumer : String} {g : ConsumerGroup} (hg : b.groups[id]? = some g)
    {cap : Limit} (hcap : g.maxPoll = cap) {answer : List Delivery → Answer} {polls : List Command}
    {limits : List Limit} (h : List.Forall₂ (Polls cap id consumer answer) polls limits) :
    (b.run polls).1 = (pieces b.store (g.owned consumer) g.cursors limits).map answer ∧
      (b.run polls).2.groups[id]? = some
        { g with cursors := Run.last (deliver b.store (g.owned consumer)) g.cursors limits } ∧
      (b.run polls).2.store = b.store := by
  induction h generalizing b g with
  | nil => exact ⟨rfl, hg, rfl⟩
  | @cons c limit polls limits hc _ ih =>
    subst hcap
    simp only [run, step_polls hg hc]
    obtain ⟨hanswers, hgroup, hstore⟩ :=
      ih (groups_setGroup b id (g.pollWithin b.store consumer limit).2) rfl
    refine ⟨?_, hgroup, hstore.trans (store_eq rfl)⟩
    rw [hanswers, pieces_cons, List.map_cons]
    rfl

/-! ## Caps -/

theorem nodup_owned (hn : b.Named) {g : ConsumerGroup} (hsub : Subscribed b g) (hd : g.Dealt)
    (consumer : String) : ((g.owned consumer).map (·.id)).Nodup := by
  by_cases hm : g.members = []
  · rw [owned, hd.none (Or.inl hm)]
    exact List.nodup_nil
  · have hitems := ((hd.items_perm hm).map (·.id)).nodup_iff.2 (hsub.nodup_ids hn)
    exact hitems.sublist ((g.assignment.owned_sublist consumer).map _)

/-- What a consumer owns in a group that the broker subscribed: partitions with different ids, and
the group has a cursor for each of them. -/
theorem owned_run {config : Config} {cs : List Command}
    (hcs : ∀ c ∈ cs, c.handsPartitions = false) {id : String} {g : ConsumerGroup}
    (hg : (Run.last step ({ config } : Broker) cs).groups[id]? = some g) (consumer : String) :
    ((g.owned consumer).map (·.id)).Nodup ∧ ∀ r ∈ g.owned consumer, r.id ∈ g.cursors := by
  have hsub := subscribed_run config hcs id
  have hdealt := dealt_run config cs id
  have htracked := tracked_run config cs id
  rw [group_of_some hg] at hsub hdealt htracked
  exact ⟨nodup_owned (named_run config cs) hsub hdealt consumer,
    fun r hr => htracked r (hdealt.of_owned hr).2⟩

/-- **Capped polls cut.** In a group that the broker subscribed, polls of one consumer with any
caps, one right after the other, deliver as many messages of an uncapped poll as the caps allow
together, in its order, and none delivers more than its cap. As soon as the caps allow all of them,
the group is what the uncapped poll makes of it, cursors included. -/
theorem capped_polls_cut {config : Config} {cs : List Command}
    (hcs : ∀ c ∈ cs, c.handsPartitions = false) {id : String} {g : ConsumerGroup}
    (hg : (({ config } : Broker).run cs).2.groups[id]? = some g) (consumer : String)
    (caps : List Nat) :
    let b := (({ config } : Broker).run cs).2
    let full := g.pollWithin b.store consumer none
    let polls := caps.map fun cap => Command.onGroup id (.pollMax consumer cap)
    ∃ answers : List (List Delivery),
      (b.run polls).1 = answers.map (fun ds => .onGroup (some (.polled ds))) ∧
      List.Forall₂ (fun ds cap => (all ds).length ≤ cap) answers caps ∧
      all answers.flatten = (all full.1).take (min caps.sum (all full.1).length) ∧
      ((all full.1).length ≤ caps.sum → (b.run polls).2.groups[id]? = some full.2) := by
  rw [run_eq] at hg ⊢
  intro b full polls
  have hs : b.store.Stamped := stamped_always config cs
  obtain ⟨hd, hkeys⟩ := owned_run hcs hg consumer
  have hpolls : List.Forall₂ (Polls g.maxPoll id consumer fun ds => .onGroup (some (.polled ds)))
      polls (caps.map some) := by
    rw [List.forall₂_map_left_iff, List.forall₂_map_right_iff]
    exact List.forall₂_same.2 fun cap _ => .capped cap
  obtain ⟨hanswers, hgroup, -⟩ := run_polls hg rfl hpolls
  -- the uncapped poll is one piece, all that is pending
  have hfull : entries full.1 = pending b.store g.cursors (g.owned consumer) :=
    deliver_take hs hd g.cursors none
  have hcut := pieces_caps hs hd g.cursors caps
  rw [← hfull] at hcut
  refine ⟨_, hanswers, length_pieces_le hs hd g.cursors caps, ?_, ?_⟩
  · rw [all_eq_map_entries, hcut, List.map_take, ← all_eq_map_entries, ← List.take_take,
      List.take_length]
  · intro hall
    have hsame : entries (pieces b.store (g.owned consumer) g.cursors (caps.map some)).flatten =
        entries (pieces b.store (g.owned consumer) g.cursors [none]).flatten := by
      rw [hcut, List.take_of_length_le (by rwa [length_entries])]
      exact congrArg entries (List.append_nil full.1).symm
    rw [hgroup, run_eq_of_entries_eq hs hkeys hsame]
    rfl

/-- Of two partitions one holds three messages and the other one. -/
def threeAndOne : List Command :=
  [.createTopic "t" 2 .roundRobin, .addConsumer "g" "c", .subscribe "g" "t",
    .publishBatch "t" "k" [[1], [2], [3]], .publish "t" "k" [4]]

theorem capped_polls_cut_three_and_one :
    let b := (({} : Broker).run threeAndOne).2
    let polls := [2, 0, 1, 7].map fun cap => Command.onGroup "g" (.pollMax "c" cap)
    (∀ c ∈ threeAndOne, c.handsPartitions = false) ∧
    ∃ g : ConsumerGroup, b.groups["g"]? = some g ∧
      (all (g.pollWithin b.store "c" none).1).map (·.payload) = [[1], [2], [3], [4]] ∧
      ∃ answers : List (List Delivery),
        (b.run polls).1 = answers.map (fun ds => .onGroup (some (.polled ds))) ∧
        List.Forall₂ (fun ds cap => (all ds).length ≤ cap) answers [2, 0, 1, 7] ∧
        (all answers.flatten).map (·.payload) = [[1], [2], [3], [4]] ∧
        (b.run polls).2.groups["g"]? = some (g.pollWithin b.store "c" none).2 := by
  have hcs : ∀ c ∈ threeAndOne, c.handsPartitions = false := by decide
  have hg : (({} : Broker).run threeAndOne).2.groups["g"]?.isSome = true := by decide
  have hfull : (all ((Option.get _ hg).pollWithin (({} : Broker).run threeAndOne).2.store "c"
      none).1).map (·.payload) = [[1], [2], [3], [4]] := by decide +revert
  have hlen := congrArg List.length hfull
  rw [List.length_map] at hlen
  obtain ⟨answers, hanswers, hcaps, hall, hgroup⟩ :=
    capped_polls_cut hcs (Option.some_get hg).symm "c" [2, 0, 1, 7]
  refine ⟨hcs, _, (Option.some_get hg).symm, hfull, answers, hanswers, hcaps, ?_, hgroup ?_⟩
  · rw [hall, List.take_of_length_le, hfull]
    rw [hlen]
    decide
  · rw [hlen]
    decide

/-! ## Empty polls -/

/-- No partition that a consumer owns holds a message at the offset after the one consumed last. -/
def CaughtUp (b : Broker) (id consumer : String) : Prop :=
  ∀ r ∈ (b.group id).owned consumer, (b.store r).get? ((b.group id).cursors.consumed r + 1) = none

instance (b : Broker) (id consumer : String) : Decidable (b.CaughtUp id consumer) :=
  inferInstanceAs (Decidable (∀ r ∈ (b.group id).owned consumer,
    (b.store r).get? ((b.group id).cursors.consumed r + 1) = none))

/-- Who is caught up has nothing to poll. -/
theorem poll_of_caughtUp (hs : b.store.Stamped) {id consumer : String}
    (h : b.CaughtUp id consumer) : all ((b.group id).pollWithin b.store consumer none).1 = [] := by
  have hl : ¬ Limit.spent none := nofun
  exact (deliver_empty_iff hs _ _ hl).2 h

theorem not_spent_maxPoll {config : Config} (h : config.maxPollRecords ≠ some 0) :
    ¬ config.maxPoll.spent := by
  intro hspent
  obtain ⟨cap, hcap, hzero⟩ := Option.map_eq_some_iff.1 hspent
  obtain rfl : cap = 0 := UInt64.toNat_inj.1 hzero
  exact h hcap

/-- An empty poll that could have returned something leaves nothing to return. -/
theorem caughtUp_of_empty (hs : b.store.Stamped) {id consumer : String}
    (hl : ¬ (b.group id).maxPoll.spent) {ds : List Delivery} {b' : Broker}
    (h : b.poll id consumer = .ok (ds, b')) (he : all ds = []) :
    b'.CaughtUp id consumer ∧ all ((b'.group id).pollWithin b'.store consumer none).1 = [] := by
  obtain ⟨g, hg⟩ := groups_of_poll_ok h
  rw [group_of_some hg] at hl
  rw [poll_ok hg] at h
  cases h
  have hcaught : CaughtUp (b.setGroup id (g.poll b.store consumer).2) id consumer := by
    rw [CaughtUp, group_of_some (groups_setGroup b id _)]
    intro r hr
    -- the poll moved no cursor
    have hcur := getD_deliver hs (g.owned consumer) g.cursors g.maxPoll r.id
    have hnone : entries (deliver b.store (g.owned consumer) g.cursors g.maxPoll).1 = [] :=
      List.map_eq_nil_iff.1 ((all_eq_map_entries _).symm.trans he)
    rw [hnone] at hcur
    have hstay : (g.poll b.store consumer).2.cursors.consumed r = g.cursors.consumed r :=
      hcur.trans (Int.add_zero _)
    rw [hstay]
    exact (deliver_empty_iff hs _ _ hl).1 he r hr
  refine ⟨hcaught, poll_of_caughtUp ?_ hcaught⟩
  exact hs

theorem polls_replicate (cap : Limit) (id consumer : String) (n : Nat) :
    List.Forall₂ (Polls cap id consumer .polled) (List.replicate n (.poll id consumer))
      (List.replicate n cap) := by
  induction n with
  | zero => exact .nil
  | succ n ih => exact .cons .plain ih

/-- Polls of a consumer come to an empty one. -/
theorem exists_empty_poll (hs : b.store.Stamped) {id : String} (hid : id ∈ b.groups)
    (consumer : String) :
    ∃ n ds b', n ≤ stored b.store ((b.group id).owned consumer) ∧
      (b.run (List.replicate n (.poll id consumer))).2.poll id consumer = .ok (ds, b') ∧
      all ds = [] := by
  obtain ⟨g, hg⟩ := Option.isSome_iff_exists.1 (Std.ExtTreeMap.mem_iff_isSome_getElem?.1 hid)
  rw [group_of_some hg]
  obtain ⟨n, hle, hempty⟩ := exists_deliver_empty hs (g.owned consumer) g.cursors g.maxPoll
  obtain ⟨-, hgroup, hstore⟩ := run_polls hg rfl (polls_replicate g.maxPoll id consumer n)
  refine ⟨n, _, _, hle.trans (ahead_le_stored _ _), poll_ok hgroup consumer, ?_⟩
  rw [hstore]
  exact hempty

/-- Polls up to an empty one deliver all that was pending. -/
theorem polls_drain (hs : b.store.Stamped) {id consumer : String} {g : ConsumerGroup}
    (hg : b.groups[id]? = some g) (hd : ((g.owned consumer).map (·.id)).Nodup)
    (hl : ¬ g.maxPoll.spent) {n : Nat} {ds : List Delivery} {b' : Broker}
    (h : (b.run (List.replicate n (.poll id consumer))).2.poll id consumer = .ok (ds, b'))
    (he : all ds = []) :
    ∃ answers : List (List Delivery),
      (b.run (List.replicate n (.poll id consumer))).1 = answers.map .polled ∧
      all answers.flatten = all (g.pollWithin b.store consumer none).1 := by
  obtain ⟨hanswers, hgroup, hstore⟩ := run_polls hg rfl (polls_replicate g.maxPoll id consumer n)
  refine ⟨_, hanswers, ?_⟩
  rw [poll_ok hgroup, hstore] at h
  cases h
  rw [all_eq_map_entries, List.map_eq_nil_iff] at he
  have hrest : pending b.store (Run.last (deliver b.store (g.owned consumer)) g.cursors
      (List.replicate n g.maxPoll)) (g.owned consumer) = [] :=
    Limit.eq_nil_of_take hl ((deliver_take hs hd _ _).symm.trans he)
  have hsplit := pieces_append_pending hs hd g.cursors (List.replicate n g.maxPoll)
  rw [hrest, List.append_nil] at hsplit
  rw [all_eq_map_entries, hsplit, all_eq_map_entries]
  exact congrArg (List.map Prod.snd) (deliver_take hs hd g.cursors none).symm

/-- **Empty means caught up.** Under a configuration that does not cap polls at no message at all,
after any run: when a poll succeeds and is empty, then no message follows the cursor of any partition
that the consumer owns, and an uncapped poll would be empty as well. Polls of the consumer come to an
empty one, at the latest when there were as many as its partitions hold messages. In a group that the
broker subscribed they have by then delivered, together, what one uncapped poll would have. -/
theorem empty_poll_caught_up {config : Config} (hcap : config.maxPollRecords ≠ some 0)
    (cs : List Command) (id consumer : String) :
    let b := (({ config } : Broker).run cs).2
    (∀ (ds : List Delivery) (b' : Broker), b.poll id consumer = .ok (ds, b') → all ds = [] →
      b'.CaughtUp id consumer ∧ all ((b'.group id).pollWithin b'.store consumer none).1 = []) ∧
    (id ∈ b.groups → ∃ n ds b', n ≤ stored b.store ((b.group id).owned consumer) ∧
      (b.run (List.replicate n (.poll id consumer))).2.poll id consumer = .ok (ds, b') ∧
      all ds = []) ∧
    ((∀ c ∈ cs, c.handsPartitions = false) →
      ∀ (g : ConsumerGroup) (n : Nat) (ds : List Delivery) (b' : Broker),
        b.groups[id]? = some g →
        (b.run (List.replicate n (.poll id consumer))).2.poll id consumer = .ok (ds, b') →
        all ds = [] →
        ∃ answers : List (List Delivery),
          (b.run (List.replicate n (.poll id consumer))).1 = answers.map .polled ∧
          all answers.flatten = all (g.pollWithin b.store consumer none).1) := by
  rw [run_eq]
  intro b
  have hs : b.store.Stamped := stamped_always config cs
  have hmax : (b.group id).maxPoll = config.maxPoll := maxPoll_run config cs id
  have hl : ¬ (b.group id).maxPoll.spent := by
    rw [hmax]
    exact not_spent_maxPoll hcap
  refine ⟨fun ds b' => caughtUp_of_empty hs hl, fun hid => exists_empty_poll hs hid consumer, ?_⟩
  intro hcs g n ds b' hg
  rw [group_of_some hg] at hl
  exact polls_drain hs hg (owned_run hcs hg consumer).1 hl

theorem empty_poll_caught_up_one_at_a_time :
    let config : Config := { maxPollRecords := some 1 }
    let b := (({ config } : Broker).run threeAndOne).2
    let polls := List.replicate 4 (Command.poll "g" "c")
    Config.parse "\x7b\"max_poll_records\":1\x7d" = .ok config ∧ config.maxPollRecords ≠ some 0 ∧
    "g" ∈ b.groups ∧ (∀ c ∈ threeAndOne, c.handsPartitions = false) ∧
    (∃ n ≤ 4, ∃ ds b', (b.run (List.replicate n (.poll "g" "c"))).2.poll "g" "c" = .ok (ds, b') ∧
      all ds = []) ∧
    ∃ ds b', (b.run polls).2.poll "g" "c" = .ok (ds, b') ∧ all ds = [] ∧ b'.CaughtUp "g" "c" ∧
      ∃ answers : List (List Delivery),
        (b.run polls).1 = answers.map .polled ∧
        (all answers.flatten).map (·.payload) = [[1], [2], [3], [4]] := by
  intro config b polls
  have hcap : config.maxPollRecords ≠ some 0 := by decide
  have hcs : ∀ c ∈ threeAndOne, c.handsPartitions = false := by decide
  have hid : "g" ∈ b.groups := by decide
  have hg : b.groups["g"]?.isSome = true := by decide
  have hafter : (b.run polls).2.groups["g"]?.isSome = true := by decide
  have hstored : stored b.store ((b.group "g").owned "c") = 4 := by decide
  have hfull : (all ((Option.get _ hg).pollWithin b.store "c" none).1).map (·.payload) =
      [[1], [2], [3], [4]] := by decide +revert
  have hempty : all ((Option.get _ hafter).poll (b.run polls).2.store "c").1 = [] := by
    decide +revert
  have hpoll := poll_ok (Option.some_get hafter).symm "c"
  -- the state after the polls is that of a longer run
  have hrun : (({ config } : Broker).run (threeAndOne ++ polls)).2 = (b.run polls).2 := by
    simp only [b, run_eq, Run.last_append]
  have hcaught := (empty_poll_caught_up hcap (threeAndOne ++ polls) "g" "c").1
  rw [hrun] at hcaught
  obtain ⟨-, hend, hdrain⟩ := empty_poll_caught_up hcap threeAndOne "g" "c"
  obtain ⟨n, ds, b', hn, hend⟩ := hend hid
  obtain ⟨answers, hanswers, hall⟩ := hdrain hcs _ 4 _ _ (Option.some_get hg).symm hpoll hempty
  exact ⟨by decide, hcap, hid, hcs, ⟨n, hstored ▸ hn, ds, b', hend⟩, _, _, hpoll, hempty,
    (hcaught _ _ hpoll hempty).1, answers, hanswers, by rw [hall, hfull]⟩

/-- A configuration may cap polls at no message at all; a message is there, and the poll is empty. -/
theorem not_caught_up_capped_at_zero :
    ∃ config : Config, Config.parse "\x7b\"max_poll_records\":0\x7d" = .ok config ∧
      ∃ ds b', (({ config } : Broker).run threeAndOne).2.poll "g" "c" = .ok (ds, b') ∧
        all ds = [] ∧ ¬ b'.CaughtUp "g" "c" := by
  have hg : (({ config := { maxPollRecords := some 0 } } : Broker).run
      threeAndOne).2.groups["g"]?.isSome = true := by decide
  exact ⟨{ maxPollRecords := some 0 }, by decide, _, _, poll_ok (Option.some_get hg).symm "c",
    by decide +revert, by decide +revert⟩

end LogBroker.Broker
