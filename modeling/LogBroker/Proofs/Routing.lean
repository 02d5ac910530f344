import Mathlib
import LogBroker.Routing

/-!
# Who takes which turn

A routing reads of all counters only where its own stands (`Routing.turn`); a hashed one reads
nothing. So messages that are routed to a number of partitions that stays the same are routed to the
same places whatever their order, each place as often as in any other order (`indices_perm`). Under
round robin the order decides who goes where, under hashing not even that.
-/
namespace LogBroker.Routing

/-- Where the counter of a routing stands; a hashed routing has none. -/
def turn (r : Routing) (cs : Counters) : UInt64 :=
  match r with
  | hashed => 0
  | roundRobin counter => cs.get counter

variable (r : Routing) {cs cs' : Counters}

/-- Nothing but the turn decides where a key goes. -/
theorem index_congr (h : r.turn cs = r.turn cs') (key : String) (count : Nat) :
    r.index cs key count = r.index cs' key count := by
  cases r with
  | hashed => rfl
  | roundRobin counter => simp only [index, show cs.get counter = cs'.get counter from h]

theorem turn_advance_congr (h : r.turn cs = r.turn cs') :
    r.turn (r.advance cs) = r.turn (r.advance cs') := by
  cases r with
  | hashed => rfl
  | roundRobin counter =>
    have hget : cs.get counter = cs'.get counter := h
    simp only [turn, advance, Counters.advance, Counters.get_set_self, hget]

/-! ## Many messages -/

theorem indices_append_singleton (cs : Counters) (xs : List (String × Nat)) (key : String)
    (count : Nat) :
    r.indices cs (xs ++ [(key, count)]) =
      r.indices cs xs ++ [r.index (r.advance^[xs.length] cs) key count] := by
  induction xs generalizing cs with
  | nil => rfl
  | cons x xs ih =>
    obtain ⟨key', count'⟩ := x
    rw [List.cons_append, indices, ih]
    rfl

theorem indices_hashed (cs : Counters) (keys : List String) (count : Nat) :
    hashed.indices cs (keys.map (·, count)) = keys.map (keyHash · % count) := by
  induction keys with
  | nil => rfl
  | cons key keys ih =>
    rw [List.map_cons, List.map_cons, indices]
    exact congrArg _ ih

/-- Round robin does not look at keys. -/
theorem indices_roundRobin_congr (counter : CounterId) (cs : Counters) {keys keys' : List String}
    (h : keys.length = keys'.length) (count : Nat) :
    (roundRobin counter).indices cs (keys.map (·, count)) =
      (roundRobin counter).indices cs (keys'.map (·, count)) := by
  induction keys generalizing keys' cs with
  | nil =>
    rw [List.eq_nil_of_length_eq_zero h.symm]
  | cons key keys ih =>
    cases keys' with
    | nil => cases h
    | cons key' keys' =>
      rw [List.map_cons, List.map_cons, indices, indices, ih _ (Nat.succ.inj h)]
      rfl

/-- In whatever order messages are routed, each place is taken equally often. -/
theorem indices_perm (cs : Counters) {keys keys' : List String} (h : keys.Perm keys')
    (count : Nat) :
    (r.indices cs (keys.map (·, count))).Perm (r.indices cs (keys'.map (·, count))) := by
  cases r with
  | hashed =>
    rw [indices_hashed, indices_hashed]
    exact h.map _
  | roundRobin counter => rw [indices_roundRobin_congr counter cs h.length_eq]

/-- One message more takes one place more, which is where it would go last. -/
theorem indices_cons_perm (cs : Counters) (key : String) (keys : List String) (count : Nat) :
    (r.indices cs ((key :: keys).map (·, count))).Perm
      (r.index (r.advance^[keys.length] cs) key count :: r.indices cs (keys.map (·, count))) := by
  refine (r.indices_perm cs (List.perm_append_singleton key keys).symm count).trans ?_
  rw [List.map_append, List.map_cons, List.map_nil, indices_append_singleton, List.length_map]
  exact List.perm_append_singleton _ _

theorem lt_of_mem_indices {cs : Counters} {keys : List String} {count : Nat} (h : 0 < count)
    {i : Nat} (hi : i ∈ r.indices cs (keys.map (·, count))) : i < count := by
  induction keys generalizing cs with
  | nil => cases hi
  | cons key keys ih =>
    rw [List.map_cons, indices] at hi
    rcases List.mem_cons.1 hi with rfl | hi
    · exact r.index_lt cs key h
    · exact ih hi

end LogBroker.Routing
