import Mathlib
import LogBroker.Proofs.Broker.Polls
import LogBroker.Proofs.Delivery.Frame
import LogBroker.Proofs.Run.Commuting

/-!
# The order of polls

A group polls for its consumers in turn, and all of them move cursors of one map. In a group that
the broker subscribed, two consumers own no partition in common and no two partitions with one id.
So their polls write different cursors, whatever their caps cut off, and which of them comes first
makes no difference (`polls_commute`).
-/
namespace LogBroker.Broker
open Delivery ConsumerGroup

/-- The consumer for whom a command polls a group. -/
def Command.pollsFor (id : String) : Command → Option String
  | .poll group consumer | .onGroup group (.poll consumer)
  | .onGroup group (.pollMax consumer _) => if group = id then some consumer else none
  | _ => none

/-- How much a poll may return in a group with a cap. -/
def Command.limit (cap : Limit) : Command → Limit
  | .onGroup _ (.pollMax _ max) => some max
  | _ => cap

/-- The answer to a poll that makes some deliveries. -/
def Command.reply : Command → List Delivery → Answer
  | .onGroup _ _, ds => .onGroup (some (.polled ds))
  | _, ds => .polled ds

variable {b : Broker} {id consumer : String} {c : Command}

/-- A poll reads within its limit for its consumer, and changes nothing outside the group. -/
theorem step_of_pollsFor (h : c.pollsFor id = some consumer) {g : ConsumerGroup}
    (hg : b.groups[id]? = some g) :
    let polled := g.pollWithin b.store consumer (c.limit g.maxPoll)
    b.step c = (c.reply polled.1, b.setGroup id polled.2) := by
  cases c with
  | poll group consumer' =>
    obtain ⟨rfl, hc⟩ := Option.ite_none_right_eq_some.1 h
    cases hc
    exact step_polls hg .plain
  | onGroup group q =>
    cases q with
    | poll consumer' =>
      obtain ⟨rfl, hc⟩ := Option.ite_none_right_eq_some.1 h
      cases hc
      simp only [step, hg]
      rfl
    | pollMax consumer' max =>
      obtain ⟨rfl, hc⟩ := Option.ite_none_right_eq_some.1 h
      cases hc
      exact step_polls hg (.capped max)
    | _ => cases h
  | _ => cases h

/-- A poll of a group that is not there does nothing. -/
theorem step_of_pollsFor_unknown (h : c.pollsFor id = some consumer)
    (hg : b.groups[id]? = none) : (b.step c).2 = b := by
  cases c with
  | poll group consumer' =>
    obtain ⟨rfl, -⟩ := Option.ite_none_right_eq_some.1 h
    simp only [step, poll, findGroup, hg]
    rfl
  | onGroup group q =>
    have hgroup : group = id := by
      cases q with
      | poll _ => exact (Option.ite_none_right_eq_some.1 h).1
      | pollMax _ _ => exact (Option.ite_none_right_eq_some.1 h).1
      | _ => cases h
    simp only [step, hgroup, hg]
  | _ => cases h

/-- Of two polls the second finds the group as the first one leaves it. -/
theorem step_step_of_pollsFor {d : Command} {consumer' : String}
    (hc : c.pollsFor id = some consumer) (hd : d.pollsFor id = some consumer') {g : ConsumerGroup}
    (hg : b.groups[id]? = some g) :
    let first := g.pollWithin b.store consumer (c.limit g.maxPoll)
    let second := first.2.pollWithin b.store consumer' (d.limit g.maxPoll)
    (b.step c).2.step d = (d.reply second.1, b.setGroup id second.2) := by
  intro first second
  rw [step_of_pollsFor hc hg, step_of_pollsFor hd (groups_setGroup b id first.2),
    setGroup_setGroup]
  rfl

/-- Where no two consumers own partitions with one id, polls for different consumers commute. -/
theorem commutes_pollsFor (id : String) :
    Run.Commutes step (Command.pollsFor id) fun b => (b.group id).OwnsApart where
  keep b c hc h := by
    obtain ⟨consumer, hc⟩ := Option.isSome_iff_exists.1 hc
    cases hg : b.groups[id]? with
    | none => rwa [step_of_pollsFor_unknown hc hg]
    | some g =>
      rw [group_of_some hg] at h
      rw [step_of_pollsFor hc hg, group_of_some (groups_setGroup b id _)]
      exact h.pollWithin b.store consumer _
  comm b c d hc hd hne h := by
    obtain ⟨consumer, hc⟩ := Option.isSome_iff_exists.1 hc
    obtain ⟨consumer', hd⟩ := Option.isSome_iff_exists.1 hd
    rw [hc, hd, Ne, Option.some_inj] at hne
    cases hg : b.groups[id]? with
    | none =>
      rw [step_of_pollsFor_unknown hc hg, step_of_pollsFor_unknown hd hg]
      exact ⟨rfl, (step_of_pollsFor_unknown hc hg).symm⟩
    | some g =>
      rw [group_of_some hg] at h
      obtain ⟨hds, hgroup⟩ := h.pollWithin_comm b.store hne (c.limit g.maxPoll) (d.limit g.maxPoll)
      rw [step_step_of_pollsFor hc hd hg, step_step_of_pollsFor hd hc hg, step_of_pollsFor hd hg]
      exact ⟨congrArg d.reply hds, congrArg (b.setGroup id) hgroup⟩

theorem ownsApart_run {config : Config} {cs : List Command}
    (hcs : ∀ c ∈ cs, c.handsPartitions = false) (id : String) :
    ((Run.last step ({ config } : Broker) cs).group id).OwnsApart :=
  (dealt_run config cs id).ownsApart ((subscribed_run config hcs id).nodup_ids (named_run config cs))

/-- **Polls commute.** After any run in which the broker subscribed the groups: two polls of a group
for different consumers, members or not and under whatever caps, get the same two answers in either
order and leave the same broker, all cursors included. So whoever polls when, with one poll for each
consumer everybody gets what a poll right away would get, and the broker in the end is the same. -/
theorem polls_commute {config : Config} {cs : List Command}
    (hcs : ∀ c ∈ cs, c.handsPartitions = false) (id : String) :
    let b := (({ config } : Broker).run cs).2
    (∀ (p q : Command) (consumer consumer' : String), p.pollsFor id = some consumer →
      q.pollsFor id = some consumer' → consumer ≠ consumer' →
      ∃ a a' b', b.run [p, q] = ([a, a'], b') ∧ b.run [q, p] = ([a', a], b')) ∧
    ∀ polls : List Command, (∀ p ∈ polls, (p.pollsFor id).isSome) →
      (polls.map (Command.pollsFor id)).Nodup →
      ∀ polls' : List Command, polls'.Perm polls →
        b.run polls' = (polls'.map fun p => (b.step p).1, (b.run polls).2) := by
  rw [run_eq]
  intro b
  have h : Run.Commutes step (Command.pollsFor id) fun b => (b.group id).OwnsApart :=
    commutes_pollsFor id
  have hb : (b.group id).OwnsApart := ownsApart_run hcs id
  constructor
  · intro p q consumer consumer' hp hq hne
    have hp' : (p.pollsFor id).isSome := Option.isSome_of_eq_some hp
    have hq' : (q.pollsFor id).isSome := Option.isSome_of_eq_some hq
    have hpq : p.pollsFor id ≠ q.pollsFor id := by
      rw [hp, hq]
      exact fun he => hne (Option.some_inj.1 he)
    obtain ⟨hsecond, hlast⟩ := h.comm b p q hp' hq' hpq hb
    obtain ⟨hfirst, -⟩ := h.comm b q p hq' hp' hpq.symm hb
    refine ⟨(b.step p).1, (b.step q).1, ((b.step p).2.step q).2, ?_, ?_⟩
    · simp only [run, hsecond]
    · simp only [run, hfirst, hlast]
  · intro polls hsome hd polls' hperm
    have hsome' : ∀ p ∈ polls', (p.pollsFor id).isSome :=
      fun p hp => hsome p (hperm.mem_iff.1 hp)
    have hd' : (polls'.map (Command.pollsFor id)).Nodup := (hperm.map _).nodup_iff.2 hd
    rw [run_eq, run_eq, transcript, Run.transcript_of_parties h hb hsome' hd',
      Run.last_perm h hperm hb hsome' hd', List.map_map]
    rfl

/-- Two consumers share two partitions; a third one is no member. -/
def twoSharing : List Command :=
  [.createTopic "t" 2 .roundRobin, .addConsumer "g" "a", .addConsumer "g" "b", .subscribe "g" "t",
    .publish "t" "k" [1], .publish "t" "k" [2], .publish "t" "k" [3], .publish "t" "k" [4]]

theorem polls_commute_two_sharing :
    let b := (({} : Broker).run twoSharing).2
    let pa := Command.onGroup "g" (.pollMax "a" 1)
    let pb := Command.poll "g" "b"
    let pc := Command.onGroup "g" (.poll "c")
    (∀ c ∈ twoSharing, c.handsPartitions = false) ∧
    pa.pollsFor "g" = some "a" ∧ pb.pollsFor "g" = some "b" ∧ pc.pollsFor "g" = some "c" ∧
    (∃ a a' b', b.run [pa, pb] = ([a, a'], b') ∧ b.run [pb, pa] = ([a', a], b')) ∧
    (b.run [pc, pb, pa]).1 =
      [.onGroup (some (.polled [])),
        .polled [⟨⟨"t", "t", 1⟩, [⟨0, some "k", [2]⟩, ⟨1, some "k", [4]⟩]⟩],
        .onGroup (some (.polled [⟨⟨"t", "t", 0⟩, [⟨0, some "k", [1]⟩]⟩]))] ∧
    (b.run [pc, pb, pa]).2 = (b.run [pa, pb, pc]).2 := by
  intro b pa pb pc
  have hcs : ∀ c ∈ twoSharing, c.handsPartitions = false := by decide
  obtain ⟨htwo, hall⟩ := @polls_commute {} _ hcs "g"
  have hthree := hall [pa, pb, pc] (by decide) (by decide) [pc, pb, pa] (by decide)
  refine ⟨hcs, rfl, rfl, rfl, htwo pa pb "a" "b" rfl rfl (by decide), ?_, ?_⟩
  · rw [hthree]
    decide
  · rw [hthree]

end LogBroker.Broker
