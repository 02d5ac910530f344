import Mathlib
import LogBroker.ConsumerGroup.Command
import LogBroker.Proofs.Delivery
import LogBroker.Proofs.Distribution

/-!
# What one request does to a group

A request to a group either polls, and then moves cursors only (`step_poll`), or it does not, and
then moves no cursor but may start some (`cursors_step_of_not_poll`). Members and subscriptions grow
by what the answer says is new (`members_step`, `topics_step`, `partitions_step`).

`Dealt` is the invariant of the assignment: it is the deal of the members and partitions that the
group has now, and there is none while there are no members or no partitions. A request that
changes either deals anew, so it holds after every request (`dealt_step`). Hence each partition has
one owner (`Dealt.exists_owner`). `Tracked` says that each partition has a cursor.
-/
namespace LogBroker.ConsumerGroup

/-- The consumer and the limit of a request to poll. -/
def poll? (g : ConsumerGroup) : Command → Option (String × Limit)
  | .poll consumer => some (consumer, g.maxPoll)
  | .pollMax consumer max => some (consumer, some max)
  | _ => none

/-- Whether a request polls. -/
def Command.isPoll : Command → Bool
  | .poll _ | .pollMax _ _ => true
  | _ => false

/-- The deliveries in an answer. -/
def Answer.deliveries : Answer → List Delivery
  | .polled ds => ds
  | _ => []

/-- The consumer that a request made a member. -/
def joined : Command → Answer → List String
  | .addConsumer consumer, .isNew true => [consumer]
  | _, _ => []

/-- The topic that a request subscribed the group to, with its partitions. -/
def subscription : Command → Answer → List (String × List PartitionRef)
  | .subscribe topic rs, .isNew true => [(topic, rs)]
  | _, _ => []

theorem poll?_isSome (g : ConsumerGroup) (c : Command) : (g.poll? c).isSome = c.isPoll := by
  cases c <;> rfl

/-- A request polls for somebody or is no poll. -/
theorem poll_or_not (g : ConsumerGroup) (c : Command) :
    c.isPoll = false ∨ ∃ consumer limit, g.poll? c = some (consumer, limit) := by
  cases c with
  | poll consumer => exact Or.inr ⟨consumer, g.maxPoll, rfl⟩
  | pollMax consumer max => exact Or.inr ⟨consumer, some max, rfl⟩
  | _ => exact Or.inl rfl

/-- A poll moves cursors and nothing else. -/
theorem step_poll {g : ConsumerGroup} {c : Command} {consumer : String} {limit : Limit}
    (h : g.poll? c = some (consumer, limit)) (s : Store) :
    g.step s c = (.polled (deliver s (g.owned consumer) g.cursors limit).1,
      { g with cursors := (deliver s (g.owned consumer) g.cursors limit).2 }) := by
  cases c with
  | poll consumer' => cases h; rfl
  | pollMax consumer' max => cases h; rfl
  | _ => cases h

theorem deliveries_step_of_not_poll {g : ConsumerGroup} {c : Command} (h : c.isPoll = false)
    (s : Store) : (g.step s c).1.deliveries = [] := by
  cases c with
  | poll consumer => cases h
  | pollMax consumer max => cases h
  | _ => rfl

/-! ## Settings, members and subscriptions -/

theorem rebalance_frame (g : ConsumerGroup) :
    g.rebalance.id = g.id ∧ g.rebalance.distribution = g.distribution ∧
      g.rebalance.maxPoll = g.maxPoll ∧ g.rebalance.members = g.members ∧
      g.rebalance.topics = g.topics ∧ g.rebalance.partitions = g.partitions ∧
      g.rebalance.cursors = g.cursors := by
  unfold rebalance
  split <;> exact ⟨rfl, rfl, rfl, rfl, rfl, rfl, rfl⟩

/-- What a request changes of members, subscriptions and cursors, one case for each request. -/
theorem step_cases (g : ConsumerGroup) (s : Store) (c : Command) :
    (∃ consumer limit, g.poll? c = some (consumer, limit)) ∨
    ((g.step s c).2 = g ∧ joined c (g.step s c).1 = [] ∧ subscription c (g.step s c).1 = []) ∨
    (c = .rebalance ∧ (g.step s c).2 = g.rebalance) ∨
    (∃ consumer, c = .addConsumer consumer ∧ consumer ∉ g.members ∧
      g.step s c = (.isNew true, { g with members := g.members ++ [consumer] }.rebalance)) ∨
    (∃ topic rs, c = .subscribe topic rs ∧ topic ∉ g.topics ∧
      g.step s c = (.isNew true,
        { g with
          topics := g.topics ++ [topic]
          partitions := g.partitions ++ rs
          cursors := g.cursors.start rs }.rebalance)) := by
  cases c with
  | addConsumer consumer =>
    simp only [step, addConsumer]
    by_cases h : consumer ∈ g.members
    · rw [if_pos h]; exact Or.inr (Or.inl ⟨rfl, rfl, rfl⟩)
    · rw [if_neg h]; exact Or.inr (Or.inr (Or.inr (Or.inl ⟨consumer, rfl, h, rfl⟩)))
  | subscribe topic rs =>
    simp only [step, subscribe]
    by_cases h : topic ∈ g.topics
    · rw [if_pos h]; exact Or.inr (Or.inl ⟨rfl, rfl, rfl⟩)
    · rw [if_neg h]; exact Or.inr (Or.inr (Or.inr (Or.inr ⟨topic, rs, rfl, h, rfl⟩)))
  | rebalance => exact Or.inr (Or.inr (Or.inl ⟨rfl, rfl⟩))
  | poll consumer => exact Or.inl ⟨consumer, g.maxPoll, rfl⟩
  | pollMax consumer max => exact Or.inl ⟨consumer, some max, rfl⟩
  | _ => exact Or.inr (Or.inl ⟨rfl, rfl, rfl⟩)

/-- A request subscribes the group to nothing, or to a topic whose name it had not. -/
theorem subscription_cases (g : ConsumerGroup) (s : Store) (c : Command) :
    subscription c (g.step s c).1 = [] ∨ ∃ topic rs, c = .subscribe topic rs ∧ topic ∉ g.topics ∧
      (g.step s c).2.cursors = g.cursors.start rs ∧
      subscription c (g.step s c).1 = [(topic, rs)] := by
  rcases step_cases g s c with ⟨consumer, limit, h⟩ | ⟨-, -, h⟩ | ⟨rfl, -⟩ | ⟨consumer, rfl, -, -⟩ |
    ⟨topic, rs, rfl, hnew, h⟩
  · rw [step_poll h]
    exact Or.inl (by cases c <;> rfl)
  · exact Or.inl h
  · exact Or.inl rfl
  · exact Or.inl rfl
  · rw [h]
    exact Or.inr ⟨topic, rs, rfl, hnew, (rebalance_frame _).2.2.2.2.2.2, rfl⟩

/-- The topic that a request offers to the group, with the partitions that come with it. -/
def offered : Command → List (String × List PartitionRef)
  | .subscribe topic rs => [(topic, rs)]
  | _ => []

/-- A group takes what it is offered, but for topics that it has. -/
theorem subscription_eq_filter (g : ConsumerGroup) (s : Store) (c : Command) :
    subscription c (g.step s c).1 = (offered c).filter (·.1 ∉ g.topics) := by
  cases c with
  | subscribe topic rs =>
    by_cases h : topic ∈ g.topics <;> simp [step, subscribe, h, subscription, offered]
  | _ => rfl

/-- The consumer that a request asks the group to take in. -/
def applicant : Command → List String
  | .addConsumer consumer => [consumer]
  | _ => []

/-- A group takes in who applies, but for its members. -/
theorem joined_eq_filter (g : ConsumerGroup) (s : Store) (c : Command) :
    joined c (g.step s c).1 = (applicant c).filter (· ∉ g.members) := by
  cases c with
  | addConsumer consumer =>
    by_cases h : consumer ∈ g.members <;> simp [step, addConsumer, h, joined, applicant]
  | _ => rfl

theorem settings_step (g : ConsumerGroup) (s : Store) (c : Command) :
    (g.step s c).2.id = g.id ∧ (g.step s c).2.distribution = g.distribution ∧
      (g.step s c).2.maxPoll = g.maxPoll := by
  rcases step_cases g s c with ⟨consumer, limit, h⟩ | ⟨h, -, -⟩ | ⟨-, h⟩ | ⟨consumer, -, -, h⟩ |
    ⟨topic, rs, -, -, h⟩
  · rw [step_poll h]; exact ⟨rfl, rfl, rfl⟩
  · rw [h]; exact ⟨rfl, rfl, rfl⟩
  all_goals
    rw [h]
    obtain ⟨h1, h2, h3, -⟩ := rebalance_frame _
    exact ⟨h1, h2, h3⟩

theorem members_step (g : ConsumerGroup) (s : Store) (c : Command) :
    (g.step s c).2.members = g.members ++ joined c (g.step s c).1 := by
  rcases step_cases g s c with ⟨consumer, limit, h⟩ | ⟨h, hj, -⟩ | ⟨rfl, h⟩ | ⟨consumer, rfl, -, h⟩ |
    ⟨topic, rs, rfl, -, h⟩
  · rw [step_poll h]
    cases c <;> simp [joined]
  · rw [h, hj, List.append_nil]
  · rw [h, (rebalance_frame g).2.2.2.1]; simp [joined]
  all_goals
    rw [h]
    exact (rebalance_frame _).2.2.2.1.trans (by simp [joined])

theorem topics_step (g : ConsumerGroup) (s : Store) (c : Command) :
    (g.step s c).2.topics = g.topics ++ (subscription c (g.step s c).1).map Prod.fst := by
  rcases step_cases g s c with ⟨consumer, limit, h⟩ | ⟨h, -, hs⟩ | ⟨rfl, h⟩ | ⟨consumer, rfl, -, h⟩ |
    ⟨topic, rs, rfl, -, h⟩
  · rw [step_poll h]
    cases c <;> simp [subscription]
  · rw [h, hs, List.map_nil, List.append_nil]
  · rw [h, (rebalance_frame g).2.2.2.2.1]; simp [subscription]
  all_goals
    rw [h]
    exact (rebalance_frame _).2.2.2.2.1.trans (by simp [subscription])

theorem partitions_step (g : ConsumerGroup) (s : Store) (c : Command) :
    (g.step s c).2.partitions =
      g.partitions ++ (subscription c (g.step s c).1).flatMap Prod.snd := by
  rcases step_cases g s c with ⟨consumer, limit, h⟩ | ⟨h, -, hs⟩ | ⟨rfl, h⟩ | ⟨consumer, rfl, -, h⟩ |
    ⟨topic, rs, rfl, -, h⟩
  · rw [step_poll h]
    cases c <;> simp [subscription]
  · rw [h, hs, List.flatMap_nil, List.append_nil]
  · rw [h, (rebalance_frame g).2.2.2.2.2.1]; simp [subscription]
  all_goals
    rw [h]
    exact (rebalance_frame _).2.2.2.2.2.1.trans (by simp [subscription])

/-! ## Cursors -/

/-- New cursors stand where a missing one counts as standing. -/
theorem getD_start (cs : Cursors) (rs : List PartitionRef) (x : String) :
    (cs.start rs).getD x nothingConsumed = cs.getD x nothingConsumed := by
  unfold Cursors.start
  induction rs generalizing cs with
  | nil => rfl
  | cons r rest ih =>
    rw [List.foldl_cons, ih, Std.ExtTreeMap.getD_insertIfNew]
    split
    · rename_i h
      rw [Std.LawfulEqCmp.eq_of_compare h.1] at h
      exact (Std.ExtTreeMap.getD_eq_fallback h.2).symm
    · rfl

/-- The cursors that are started are those of the given partitions. -/
theorem mem_start_iff {cs : Cursors} {rs : List PartitionRef} {x : String} :
    x ∈ cs.start rs ↔ x ∈ cs ∨ x ∈ rs.map (·.id) := by
  unfold Cursors.start
  induction rs generalizing cs with
  | nil => simp
  | cons r rest ih =>
    rw [List.foldl_cons, ih, Std.ExtTreeMap.mem_insertIfNew, Std.LawfulEqCmp.compare_eq_iff_eq,
      List.map_cons, List.mem_cons, eq_comm (a := x), or_comm (a := r.id = x), or_assoc]

/-- A request that does not poll starts cursors for the partitions that it subscribes to. -/
theorem cursors_step_of_not_poll {g : ConsumerGroup} {c : Command} (h : c.isPoll = false)
    (s : Store) :
    (g.step s c).2.cursors =
      g.cursors.start ((subscription c (g.step s c).1).flatMap Prod.snd) := by
  rcases step_cases g s c with ⟨consumer, limit, hp⟩ | ⟨he, -, hs⟩ | ⟨rfl, he⟩ |
    ⟨consumer, rfl, -, he⟩ | ⟨topic, rs, rfl, -, he⟩
  · rw [← poll?_isSome g, hp] at h; cases h
  · rw [he, hs]; rfl
  · rw [he, (rebalance_frame g).2.2.2.2.2.2]; rfl
  · rw [he, (rebalance_frame _).2.2.2.2.2.2]; rfl
  · rw [he, (rebalance_frame _).2.2.2.2.2.2]; simp [subscription]

/-- Whatever is no poll moves no cursor. -/
theorem cursor_step_of_not_poll {g : ConsumerGroup} {c : Command} (h : c.isPoll = false) (s : Store)
    (x : String) :
    (g.step s c).2.cursors.getD x nothingConsumed = g.cursors.getD x nothingConsumed := by
  rw [cursors_step_of_not_poll h]
  exact getD_start g.cursors _ x

/-- No request removes a cursor. -/
theorem mem_cursors_step {g : ConsumerGroup} (s : Store) (c : Command) {x : String}
    (h : x ∈ g.cursors) : x ∈ (g.step s c).2.cursors := by
  rcases g.poll_or_not c with hnot | ⟨consumer, limit, hp⟩
  · rw [cursors_step_of_not_poll hnot]; exact mem_start_iff.2 (Or.inl h)
  · rw [step_poll hp]; exact deliver_keeps _ limit h

/-- Every partition of the group has a cursor. -/
def Tracked (g : ConsumerGroup) : Prop := ∀ r ∈ g.partitions, r.id ∈ g.cursors

theorem tracked_step {g : ConsumerGroup} (h : Tracked g) (s : Store) (c : Command) :
    Tracked (g.step s c).2 := by
  intro r hr
  rw [partitions_step, List.mem_append] at hr
  rcases hr with hr | hr
  · exact mem_cursors_step s c (h r hr)
  · rcases subscription_cases g s c with hs | ⟨topic, rs, -, -, hc, hs⟩
    · rw [hs] at hr
      simp at hr
    · rw [hs, List.flatMap_cons, List.flatMap_nil, List.append_nil] at hr
      rw [hc]
      exact mem_start_iff.2 (Or.inr (List.mem_map_of_mem hr))

/-! ## The assignment -/

/-- The assignment is the deal of the present members and partitions. -/
structure Dealt (g : ConsumerGroup) : Prop where
  members_nodup : g.members.Nodup
  none : g.members = [] ∨ g.partitions = [] → g.assignment = []
  deal : g.members ≠ [] → g.partitions ≠ [] →
    g.assignment = g.distribution.assign g.members g.partitions

theorem dealt_new (id : String) (d : Distribution) (cap : Limit) :
    Dealt { id, distribution := d, maxPoll := cap } :=
  ⟨List.nodup_nil, fun _ => rfl, fun h => absurd rfl h⟩

/-- To deal anew is to have the deal of the present members and partitions. -/
theorem dealt_rebalance {g : ConsumerGroup} (hm : g.members.Nodup)
    (h : g.members = [] ∨ g.partitions = [] → g.assignment = []) : Dealt g.rebalance := by
  unfold rebalance
  split
  · rename_i hnone
    refine ⟨hm, h, ?_⟩
    intro h1 h2
    exact absurd hnone (by simp [h1, h2])
  · rename_i hsome
    exact ⟨hm, fun he => absurd he hsome, fun _ _ => rfl⟩

theorem dealt_step {g : ConsumerGroup} (h : Dealt g) (s : Store) (c : Command) :
    Dealt (g.step s c).2 := by
  rcases step_cases g s c with ⟨consumer, limit, hp⟩ | ⟨he, -, -⟩ | ⟨-, he⟩ |
    ⟨consumer, -, hnew, he⟩ | ⟨topic, rs, -, -, he⟩
  · rw [step_poll hp]; exact ⟨h.members_nodup, h.none, h.deal⟩
  · rwa [he]
  · rw [he]; exact dealt_rebalance h.members_nodup h.none
  · rw [he]
    refine dealt_rebalance ?_ fun hnone => h.none (Or.inr ?_)
    · rw [List.nodup_append]
      refine ⟨h.members_nodup, List.nodup_singleton _, ?_⟩
      intro a ha b hb
      rw [List.mem_singleton.1 hb]; rintro rfl; exact hnew ha
    · simpa using hnone
  · rw [he]
    refine dealt_rebalance h.members_nodup fun hnone => h.none ?_
    rcases hnone with hm | hp
    · exact Or.inl hm
    · exact Or.inr (List.append_eq_nil_iff.1 hp).1

/-- Exactly one row for each member. -/
theorem Dealt.keys_perm {g : ConsumerGroup} (h : Dealt g) (hm : g.members ≠ [])
    (hp : g.partitions ≠ []) : g.assignment.keys.Nodup ∧ g.assignment.keys.Perm g.members := by
  rw [h.deal hm hp, Distribution.keys_assign]
  exact ⟨Distribution.nodup_ranked _, Distribution.ranked_perm h.members_nodup⟩

/-- The rows together are the partitions. -/
theorem Dealt.items_perm {g : ConsumerGroup} (h : Dealt g) (hm : g.members ≠ []) :
    g.assignment.items.Perm g.partitions := by
  by_cases hp : g.partitions = []
  · rw [h.none (Or.inr hp), hp]; exact List.Perm.nil
  · rw [h.deal hm hp]; exact Distribution.items_assign_perm _ hm _

/-- Some member owns a partition that was subscribed. -/
theorem Dealt.exists_owner_of_mem {g : ConsumerGroup} (h : Dealt g) (hm : g.members ≠ [])
    {r : PartitionRef} (hr : r ∈ g.partitions) : ∃ c ∈ g.members, r ∈ g.owned c := by
  obtain ⟨hnd, hperm⟩ := h.keys_perm hm (List.ne_nil_of_mem hr)
  obtain ⟨c, hc, hown⟩ := Assignment.exists_owner_of_mem hnd ((h.items_perm hm).mem_iff.2 hr)
  exact ⟨c, hperm.subset hc, hown⟩

/-- Who owns a partition is a member, and what is owned was subscribed. -/
theorem Dealt.of_owned {g : ConsumerGroup} (h : Dealt g) {consumer : String} {r : PartitionRef}
    (hr : r ∈ g.owned consumer) : consumer ∈ g.members ∧ r ∈ g.partitions := by
  have hne : ¬ (g.members = [] ∨ g.partitions = []) := by
    intro hnone
    rw [owned, h.none hnone] at hr
    cases hr
  rw [not_or] at hne
  have hkey := (h.keys_perm hne.1 hne.2).2.mem_iff.1 (Assignment.mem_keys_of_owned hr)
  exact ⟨hkey, (h.items_perm hne.1).mem_iff.1 (Assignment.mem_items_of_owned hr)⟩

/-- A partition that was subscribed once has one owner, who owns it once. -/
theorem Dealt.exists_owner {g : ConsumerGroup} (h : Dealt g) (hm : g.members ≠ [])
    {r : PartitionRef} (hr : g.partitions.count r = 1) :
    ∃ c ∈ g.members, (g.owned c).count r = 1 ∧ ∀ c', c' ≠ c → r ∉ g.owned c' := by
  have hp : g.partitions ≠ [] := by rintro hp; rw [hp] at hr; cases hr
  obtain ⟨hnd, hperm⟩ := h.keys_perm hm hp
  rw [← (h.items_perm hm).count_eq] at hr
  obtain ⟨c, hc, h1, h2⟩ := Assignment.exists_owner hnd hr
  exact ⟨c, hperm.subset hc, h1, h2⟩

end LogBroker.ConsumerGroup
