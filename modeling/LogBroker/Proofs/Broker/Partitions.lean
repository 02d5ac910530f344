import Mathlib
import LogBroker.Proofs.Broker.Registry
import LogBroker.Proofs.Partition.History
import LogBroker.Proofs.TreeMap

/-!
# A broker as one of its partitions sees it

Of all that a run of the broker asks of partitions, some requests go to one of them
(`Store.addressed`). With the answers they are the partition's own account of the run
(`Broker.account`), and the partition is what these requests made of it. So all that is true of the
runs of a partition is true of every partition of a broker (`history_of_account`).

A partition holds as many messages as were written to it (`size_eq`). All that a broker holds, the
partitions of its topics hold (`mem_refs_of_get?`).
-/
namespace LogBroker

/-- Items are as many as the ones of each kind together. -/
theorem sum_map_count {α : Type} [DecidableEq α] {kinds items : List α} (h : kinds.Nodup)
    (hall : ∀ x ∈ items, x ∈ kinds) : (kinds.map (items.count ·)).sum = items.length := by
  have hsum := Multiset.sum_count_eq_card (s := kinds.toFinset) (m := (items : Multiset α))
    (by simpa using hall)
  rw [List.sum_toFinset _ h] at hsum
  simpa using hsum

namespace Store

/-- The requests that go to one partition. -/
def addressed (r : PartitionRef) (qs : List (PartitionRef × Partition.Command)) :
    List Partition.Command :=
  (qs.filter (·.1 = r)).map Prod.snd

variable {s : Store} {r : PartitionRef}

theorem addressed_cons_self (q : Partition.Command) (qs : List (PartitionRef × Partition.Command)) :
    addressed r ((r, q) :: qs) = q :: addressed r qs := by
  simp [addressed]

theorem addressed_cons_of_ne {q : PartitionRef × Partition.Command} (h : q.1 ≠ r)
    (qs : List (PartitionRef × Partition.Command)) :
    addressed r (q :: qs) = addressed r qs := by
  simp [addressed, h]

/-- Requests to others leave a partition alone. -/
theorem last_addressed (s : Store) (r : PartitionRef)
    (qs : List (PartitionRef × Partition.Command)) :
    Run.last Partition.step (s r) (addressed r qs) = Run.last step s qs r := by
  induction qs generalizing s with
  | nil => rfl
  | cons q qs ih =>
    rw [Run.last, ← ih]
    by_cases h : q.1 = r
    · obtain ⟨r', q⟩ := q
      cases h
      rw [addressed_cons_self, step_self]
      rfl
    · rw [addressed_cons_of_ne h, step_of_ne s (Ne.symm h)]

theorem along_addressed {qs : List (PartitionRef × Partition.Command)}
    (hf : Run.Along step Fits s qs) (r : PartitionRef) :
    Run.Along Partition.step Partition.Fits (s r) (addressed r qs) := by
  induction qs generalizing s with
  | nil => trivial
  | cons q qs ih =>
    have hrest := ih hf.2
    by_cases h : q.1 = r
    · obtain ⟨r', q⟩ := q
      cases h
      rw [step_self] at hrest
      rw [addressed_cons_self]
      exact ⟨hf.1, hrest⟩
    · rw [step_of_ne s (Ne.symm h)] at hrest
      rwa [addressed_cons_of_ne h]

/-- What a partition wrote is what was written under its name. -/
theorem writes_addressed (s : Store) (r : PartitionRef)
    (qs : List (PartitionRef × Partition.Command)) :
    Partition.writes (Run.transcript Partition.step (s r) (addressed r qs)) =
      (((Run.transcript step s qs).flatMap written).filter (·.1 = r)).map Prod.snd := by
  induction qs generalizing s with
  | nil => rfl
  | cons q qs ih =>
    have hrest := ih (s.step q).2
    rw [Run.transcript, List.flatMap_cons, List.filter_append, List.map_append, ← hrest]
    by_cases h : q.1 = r
    · obtain ⟨r', q⟩ := q
      cases h
      rw [addressed_cons_self, step_self]
      simp [Partition.writes, Run.transcript, written, step, List.filter_map, Function.comp_def]
    · rw [addressed_cons_of_ne h, step_of_ne s (Ne.symm h)]
      simp [written, h]

end Store

namespace Broker

/-- What a run asked of one partition, each request with its answer. -/
def account (config : Config) (cs : List Command) (r : PartitionRef) :
    List (Partition.Command × Partition.Answer) :=
  (Partition.new r.topic r.index).transcript
    (Run.expand step (fun b c => Store.addressed r (b.traffic c)) { config } cs)

variable {config : Config} {cs : List Command}

theorem last_addressed {b : Broker} (hn : b.Named) (r : PartitionRef) (c : Command) :
    Run.last Partition.step (b.store r) (Store.addressed r (b.traffic c)) =
      (b.step c).2.store r := by
  rw [Store.last_addressed, (store_step hn c).1]

/-- A partition and its account of the run that led to it. -/
theorem history_of_account (hf : Run.Along step Fits { config } cs) (r : PartitionRef) :
    Partition.History ((Run.last step ({ config } : Broker) cs).store r) (account config cs r) := by
  have hstep (b : Broker) (c : Command) (hn : b.Named) := last_addressed hn r c
  have hlast := Run.last_expand (fun b : Broker => b.store r) (fun _ c hn => named_step hn c) hstep
    (named_new config) cs
  have halong := Run.along_expand (fun b : Broker => b.store r) (fun _ c hn => named_step hn c)
    hstep (fun _ _ _ hf => Store.along_addressed hf r) (named_new config) hf
  simp only [store_new] at hlast halong
  rw [← hlast]
  exact Partition.history_run halong

theorem writes_account (config : Config) (cs : List Command) (r : PartitionRef) :
    (Partition.writes (account config cs r)).Perm
      (((writes (transcript { config } cs)).filter (·.1 = r)).map Prod.snd) := by
  have h := Run.flatMap_expand (fun b : Broker => b.store r) (R := List.Perm) .nil
    (fun _ _ _ _ h₁ h₂ => h₁.append h₂) (fun _ c hn => named_step hn c)
    (fun b c hn => last_addressed hn r c)
    (f := fun q : Command × Answer => ((written q).filter (·.1 = r)).map Prod.snd)
    (g := fun q => Partition.written q.1 q.2) (fun b c hn => ?_) (named_new config) cs
  · simp only [store_new] at h
    rw [writes, List.filter_flatMap, List.map_flatMap]
    exact h
  · have hw := Store.writes_addressed b.store r (b.traffic c)
    exact (List.Perm.of_eq hw).trans (((store_step hn c).2.filter _).map _)

/-- A partition holds as many messages as were written to it. -/
theorem size_eq (hf : Run.Along step Fits { config } cs) (r : PartitionRef) :
    ((Run.last step ({ config } : Broker) cs).store r).size =
      ((writes (transcript { config } cs)).map Prod.fst).count r := by
  have h := history_of_account hf r
  rw [Partition.size, ← Std.ExtTreeMap.length_keys, h.keys_perm.length_eq, List.length_map,
    (writes_account config cs r).length_eq, List.length_map, List.count_eq_countP, List.countP_map,
    List.countP_eq_length_filter]
  rfl

/-- Only partitions of registered topics hold messages. -/
theorem mem_refs_of_get? {b : Broker} (hn : b.Named) {r : PartitionRef} {o : Offset} {m : Message}
    (h : (b.store r).get? o = some m) : r.topic ∈ b.topics ∧ r ∈ b.refs r.topic := by
  obtain ⟨home, topic, index⟩ := r
  unfold store at h
  cases ht : b.topics[home]? with
  | none => simp [ht, Partition.new, Partition.get?] at h
  | some t =>
    have hname := hn home t ht
    by_cases he : home = topic
    · subst he
      by_cases hi : index < t.count
      · refine ⟨mem_topics ht, ?_⟩
        rw [refs_of_some hn ht]
        exact List.mem_map_of_mem (List.mem_range.2 hi)
      · have hp : t.partitions[index]? = none := List.getElem?_eq_none (Nat.le_of_not_lt hi)
        simp [ht, hname, hp, Option.filter, Partition.new, Partition.get?] at h
    · simp [ht, hname, he, Option.filter, Partition.new, Partition.get?] at h

end Broker
end LogBroker
