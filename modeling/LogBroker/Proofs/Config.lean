import Mathlib
import LogBroker.Config
import LogBroker.Proofs.Json.Recognition

/-!
# Reading a configuration

An object is read field by field. What counts is which values stand under the names of the four
fields (`Config.known`): neither the order of the members matters, nor the members of other names
and their values, nor how the text is laid out. A field that is given once has the value that is
given (`Config.Fields`), one that is missing has its default, and one that is given twice, or whose
number does not fit, is an error.

Main statements:

* `parse_object`: what is read from a text that spells an object;
* `parse_text`: a configuration that is written down is read back.
-/
namespace LogBroker.Config

open Json

/-! ## Members -/

/-- The names of the fields. -/
def fieldNames : List String :=
  ["default_partitions", "partition_strategy", "distribution_strategy", "max_poll_records"]

/-- The members that give fields. -/
def known (members : List (String × Json)) : List (String × Json) :=
  members.filter (·.1 ∈ fieldNames)

/-- The values under a name. -/
def given (members : List (String × Json)) (name : String) : List Json :=
  (members.filter (·.1 = name)).map Prod.snd

/-- What the values under a name say: the default if there is none, nothing if there are several. -/
def only? {α : Type} (values : List Json) (default : α) (read : Json → Option α) : Option α :=
  match values with
  | [] => some default
  | [v] => read v
  | _ => none

theorem given_known {name : String} (h : name ∈ fieldNames) (members : List (String × Json)) :
    given (known members) name = given members name := by
  unfold given known
  rw [List.filter_filter]
  congr 2
  funext m
  by_cases hm : m.1 = name
  · simp [hm, h]
  · simp [hm]

theorem only?_perm {α : Type} {values values' : List Json} (h : values.Perm values') (default : α)
    (read : Json → Option α) : only? values default read = only? values' default read := by
  match values, h with
  | [], h => rw [List.nil_perm.1 h]
  | [v], h => rw [List.singleton_perm.1 h]
  | v :: w :: rest, h =>
    match values', h.length_eq with
    | v' :: w' :: rest', _ => rfl

theorem only?_of_two_le {α : Type} {values : List Json} (h : 2 ≤ values.length) (default : α)
    (read : Json → Option α) : only? values default read = none := by
  match values, h with
  | v :: w :: rest, _ => rfl

/-- A value that cannot be read spoils its field, alone or not. -/
theorem only?_of_mem {α : Type} {values : List Json} {v : Json} {read : Json → Option α}
    (h : v ∈ values) (hv : read v = none) (default : α) : only? values default read = none := by
  match values, h with
  | [w], h => rw [← List.mem_singleton.1 h, only?, hv]
  | w :: w' :: rest, _ => rfl

theorem field?_map_some {α : Type} (members : List (String × Json)) (name : String) (default : α)
    (read : Json → Option α) :
    field? (members.map fun (k, v) => (some k, v)) name default read =
      only? (given members name) default read := by
  have hfilter : (members.map fun (k, v) => (some k, v)).filter (·.1 = some name) =
      (members.filter (·.1 = name)).map fun (k, v) => (some k, v) := by
    rw [List.filter_map]
    congr 2
    funext m
    simp
  rw [field?, hfilter, given]
  generalize List.filter _ members = found
  match found with
  | [] => rfl
  | [m] => rfl
  | _ :: _ :: _ => rfl

/-- The configuration with the values that stand under the names of the fields. -/
def ofGiven? (given : String → List Json) : Option Config := do
  let defaultPartitions ← only? (given "default_partitions") 4 word?
  let routing ← only? (given "partition_strategy") .hashed (choice? RoutingKind.ofName?)
  let distribution ←
    only? (given "distribution_strategy") .roundRobin (choice? Distribution.ofName?)
  let maxPollRecords ← only? (given "max_poll_records") none optionalWord?
  return { defaultPartitions, routing, distribution, maxPollRecords }

theorem ofJson?_object (members : List (String × Json)) :
    ofJson? (.object members) = ofGiven? (given members) := by
  have hnames : (members.map fun (k, v) => (some k, v)).all (·.1.isSome) := by
    rw [List.all_map, List.all_eq_true]
    intro m hm
    rfl
  rw [object, ofJson?, ofMembers?, ofGiven?]
  simp only [field?_map_some, hnames, guard_true]
  rfl

/-- A field that cannot be read spoils the configuration. -/
theorem ofGiven?_eq_none {given : String → List Json}
    (h : only? (given "default_partitions") 4 word? = none ∨
      only? (given "partition_strategy") .hashed (choice? RoutingKind.ofName?) = none ∨
      only? (given "distribution_strategy") .roundRobin (choice? Distribution.ofName?) = none ∨
      only? (given "max_poll_records") none optionalWord? = none) : ofGiven? given = none := by
  unfold ofGiven?
  rcases h with h | h | h | h
  · rw [h]; rfl
  · simp [h]
  · simp [h]
  · simp [h]

/-- The configuration depends on the known members alone, and not on their order. -/
theorem ofJson?_perm {members members' : List (String × Json)}
    (h : (known members).Perm (known members')) :
    ofJson? (.object members) = ofJson? (.object members') := by
  have hgiven {name : String} (hname : name ∈ fieldNames) :
      (given members name).Perm (given members' name) := by
    rw [← given_known hname, ← given_known hname members']
    exact (h.filter _).map _
  rw [ofJson?_object, ofJson?_object, ofGiven?, ofGiven?,
    only?_perm (hgiven (by simp [fieldNames])), only?_perm (hgiven (by simp [fieldNames])),
    only?_perm (hgiven (by simp [fieldNames])), only?_perm (hgiven (by simp [fieldNames]))]

/-! ## Fields -/

/-- Fields of a configuration, each of which may be missing. -/
structure Fields where
  defaultPartitions : Option UInt64 := none
  routing : Option RoutingKind := none
  distribution : Option Distribution := none
  maxPollRecords : Option (Option UInt64) := none

namespace Fields

/-- The configuration with these fields, and its default for every field that is missing. -/
def config (f : Fields) : Config where
  defaultPartitions := f.defaultPartitions.getD ({} : Config).defaultPartitions
  routing := f.routing.getD ({} : Config).routing
  distribution := f.distribution.getD ({} : Config).distribution
  maxPollRecords := f.maxPollRecords.getD ({} : Config).maxPollRecords

/-- A number of 64 bits in decimal. -/
def word (n : UInt64) : Json := .ofNat n.toNat

/-- A number of 64 bits in decimal, or `null` for none. -/
def optionalWord : Option UInt64 → Json
  | none => .null
  | some n => word n

/-- One member for each field that is not missing. -/
def members (f : Fields) : List (String × Json) :=
  (f.defaultPartitions.map fun n => ("default_partitions", word n)).toList ++
  (f.routing.map fun k => ("partition_strategy", .ofString k.name)).toList ++
  (f.distribution.map fun d => ("distribution_strategy", .ofString d.name)).toList ++
  (f.maxPollRecords.map fun cap => ("max_poll_records", optionalWord cap)).toList

theorem known_members (f : Fields) : known f.members = f.members := by
  rw [known, List.filter_eq_self]
  intro m hm
  simp only [members, List.mem_append, Option.mem_toList, Option.map_eq_some_iff] at hm
  obtain (((⟨_, _, rfl⟩ | ⟨_, _, rfl⟩) | ⟨_, _, rfl⟩) | ⟨_, _, rfl⟩) := hm <;> simp [fieldNames]

theorem wellFormed_members (f : Fields) : (Json.object f.members).WellFormed := by
  rw [wellFormed_object]
  intro m hm
  simp only [members, List.mem_append, Option.mem_toList, Option.map_eq_some_iff] at hm
  obtain (((⟨n, _, rfl⟩ | ⟨_, _, rfl⟩) | ⟨_, _, rfl⟩) | ⟨cap, _, rfl⟩) := hm
  · exact wellFormed_ofNat n.toNat
  · exact .str _
  · exact .str _
  · cases cap with
    | none => exact .null
    | some n => exact wellFormed_ofNat n.toNat

theorem word?_word (n : UInt64) : word? (word n) = some n := by
  have hn : n.toNat < UInt64.size := n.toNat_lt
  rw [word?, word, natural?_ofNat, Option.bind_some, dif_pos hn]
  simp

theorem optionalWord?_optionalWord (cap : Option UInt64) :
    optionalWord? (optionalWord cap) = some cap := by
  cases cap with
  | none => rfl
  | some n =>
    have := word?_word n
    rw [optionalWord, optionalWord?, this]
    · rfl
    · rintro ⟨⟩

/-- A number of more than 64 bits is no word. -/
theorem word?_ofNat_eq_none {n : Nat} (h : 2 ^ 64 ≤ n) : word? (.ofNat n) = none := by
  rw [word?, natural?_ofNat, Option.bind_some, dif_neg]
  exact Nat.not_lt.2 h

theorem optionalWord?_ofNat_eq_none {n : Nat} (h : 2 ^ 64 ≤ n) :
    optionalWord? (.ofNat n) = none := by
  rw [optionalWord?, word?_ofNat_eq_none h]
  · rfl
  · rintro ⟨⟩

theorem choice?_routing (k : RoutingKind) :
    choice? RoutingKind.ofName? (.ofString k.name) = some k := by
  cases k <;> rfl

theorem choice?_distribution (d : Distribution) :
    choice? Distribution.ofName? (.ofString d.name) = some d := by
  cases d <;> rfl

theorem ofJson?_members (f : Fields) : ofJson? (.object f.members) = some f.config := by
  obtain ⟨partitions, routing, distribution, cap⟩ := f
  rw [ofJson?_object, ofGiven?]
  cases partitions <;> cases routing <;> cases distribution <;> cases cap <;>
    simp [members, given, only?, word?_word, optionalWord?_optionalWord, choice?_routing,
      choice?_distribution] <;> rfl

end Fields

/-! ## Texts -/

theorem parse_of_spells {members : List (String × Json)} {text : String}
    (h : (Json.object members).Spells text) :
    parse text = (ofJson? (.object members)).elim (.error .malformed) .ok := by
  rw [parse, parse?_of_spells h, Option.bind_some]
  cases ofJson? (.object members) with
  | none => rfl
  | some c => rfl

theorem parse_of_ofJson?_eq_none {members : List (String × Json)} {text : String}
    (htext : (Json.object members).Spells text) (h : ofJson? (.object members) = none) :
    parse text = .error .malformed := by
  rw [parse_of_spells htext, h, Option.elim_none]

/-- **Objects are read field by field.** Let a text spell an object, with any blanks, in any
spelling of its strings, and with any values however deep.

* If its known members are those of some fields, each at most once and in any order, the
  configuration is that of the fields.
* Any text that spells an object with the same known members, in whatever order and among whatever
  others, gives the same result.
* A field that is given twice is an error.
* A number of `2 ^ 64` or more for one of the two numbers is an error. -/
theorem parse_object {members : List (String × Json)} {text : String}
    (htext : (Json.object members).Spells text) :
    (∀ f : Fields, (known members).Perm f.members → parse text = .ok f.config) ∧
    (∀ (members' : List (String × Json)) (text' : String), (Json.object members').Spells text' →
      (known members').Perm (known members) → parse text' = parse text) ∧
    ((∃ name ∈ fieldNames, 2 ≤ (given members name).length) →
      parse text = .error .malformed) ∧
    ∀ n, 2 ^ 64 ≤ n →
      (.ofNat n ∈ given members "default_partitions" ∨
        .ofNat n ∈ given members "max_poll_records") →
      parse text = .error .malformed := by
  refine ⟨fun f hf => ?fields, fun members' text' htext' hknown => ?same,
    fun ⟨name, hname, htwo⟩ => ?twice, fun n hn hmem => ?large⟩
  case fields =>
    have hmembers : known f.members = f.members := f.known_members
    rw [parse_of_spells htext, ofJson?_perm (hmembers.symm ▸ hf), f.ofJson?_members,
      Option.elim_some]
  case same => rw [parse_of_spells htext, parse_of_spells htext', ofJson?_perm hknown]
  case twice =>
    refine parse_of_ofJson?_eq_none htext ?_
    rw [ofJson?_object]
    apply ofGiven?_eq_none
    simp only [fieldNames, List.mem_cons, List.not_mem_nil, or_false] at hname
    rcases hname with rfl | rfl | rfl | rfl
    · exact .inl (only?_of_two_le htwo ..)
    · exact .inr (.inl (only?_of_two_le htwo ..))
    · exact .inr (.inr (.inl (only?_of_two_le htwo ..)))
    · exact .inr (.inr (.inr (only?_of_two_le htwo ..)))
  case large =>
    refine parse_of_ofJson?_eq_none htext ?_
    rw [ofJson?_object]
    apply ofGiven?_eq_none
    rcases hmem with hmem | hmem
    · exact .inl (only?_of_mem hmem (Fields.word?_ofNat_eq_none hn) _)
    · exact .inr (.inr (.inr (only?_of_mem hmem (Fields.optionalWord?_ofNat_eq_none hn) _)))

/-- The largest number that fits, no cap, and the default for what is missing. Between them stands a
member of another name, which repeats a known name deeper inside and has half a surrogate pair that
denotes no text. -/
def scatteredMembers : List (String × Json) :=
  [("max_poll_records", .null),
   ("x", .arr [.num ['-', '1', '.', '5', 'e', '-', '3'],
     .obj [(some "max_poll_records", .str none)]]),
   ("default_partitions", .ofNat (2 ^ 64 - 1))]

/-- The members with blanks around the tokens and with escapes in two of the names. -/
def scatteredText : String :=
  "\x7b \"max_poll_records\" : null ,\n\t\"\\u0078\":" ++
  "[-1.5e-3, \x7b\"max_poll_records\":\"\\ud800\"\x7d],\r\n " ++
  "\"default\\u005Fpartitions\" :18446744073709551615 \x7d\n"

theorem spells_scattered : (Json.object scatteredMembers).Spells scatteredText := by
  have hlex : Token.lex scatteredText.toList = some (Json.object scatteredMembers).tokens := by
    decide +kernel
  have htokens : ofTokens? (Json.object scatteredMembers).tokens =
      some (.object scatteredMembers) := rfl
  rw [← parse?_eq_some_iff, parse?, hlex, Option.bind_some, htokens]

/-- The fields are found; so they are in the other order and without what stands between them. Twice
the members, or one more than the largest number, are an error. -/
theorem parse_object_scattered :
    parse scatteredText = .ok { defaultPartitions := 18446744073709551615 } ∧
    parse (Json.object (known scatteredMembers).reverse).compact = parse scatteredText ∧
    parse (Json.object (scatteredMembers ++ scatteredMembers)).compact = .error .malformed ∧
    parse (Json.object [("max_poll_records", .ofNat (2 ^ 64))]).compact = .error .malformed := by
  have hwell : ∀ m ∈ scatteredMembers, m.2.WellFormed := wellFormed_object.1 spells_scattered.1
  have hknown : known scatteredMembers =
      [("max_poll_records", .null), ("default_partitions", .ofNat (2 ^ 64 - 1))] := by
    simp [known, scatteredMembers, fieldNames]
  refine ⟨?_, ?_, ?_, ?_⟩
  · refine (parse_object spells_scattered).1
      { defaultPartitions := some 18446744073709551615, maxPollRecords := some none } ?_
    rw [hknown]
    exact .swap ..
  · have hspells : (Json.object (known scatteredMembers).reverse).Spells _ :=
      spells_compact (wellFormed_object.2 fun m hm =>
        hwell m (List.mem_of_mem_filter (List.mem_reverse.1 hm)))
    refine (parse_object spells_scattered).2.1 _ _ hspells ?_
    rw [hknown]
    exact .swap ..
  · have hspells : (Json.object (scatteredMembers ++ scatteredMembers)).Spells _ :=
      spells_compact (wellFormed_object.2 fun m hm =>
        (List.mem_append.1 hm).elim (hwell m) (hwell m))
    refine (parse_object hspells).2.2.1 ⟨"default_partitions", by simp [fieldNames], ?_⟩
    simp [given, scatteredMembers]
  · have hspells : (Json.object [("max_poll_records", .ofNat (2 ^ 64))]).Spells _ :=
      spells_compact (wellFormed_object.2 (List.forall_mem_singleton.2 (wellFormed_ofNat _)))
    refine (parse_object hspells).2.2.2 (2 ^ 64) (Nat.le_refl _) (.inr ?_)
    simp [given]

/-! ## Writing and reading back -/

/-- A configuration gives all its fields. -/
def fields (c : Config) : Fields where
  defaultPartitions := some c.defaultPartitions
  routing := some c.routing
  distribution := some c.distribution
  maxPollRecords := some c.maxPollRecords

theorem toJson_eq_object (c : Config) : c.toJson = .object c.fields.members := by
  obtain ⟨partitions, routing, distribution, _ | cap⟩ := c <;> rfl

theorem parse_text (c : Config) : parse c.text = .ok c := by
  have hspells := spells_compact c.fields.wellFormed_members
  rw [text, toJson_eq_object, parse_of_spells hspells, Fields.ofJson?_members,
    Option.elim_some]
  rfl

/-- **Round trip.** A configuration that is written down is read back. So whatever text a
configuration was read from, what it is written as is read as the same configuration and written the
same way again. -/
theorem parse_text_roundtrip :
    (∀ c : Config, parse c.text = .ok c) ∧
    ∀ (s : String) (c : Config), parse s = .ok c →
      parse c.text = .ok c ∧ ∀ c' : Config, parse c.text = .ok c' → c'.text = c.text := by
  refine ⟨parse_text, fun s c _ => ⟨parse_text c, fun c' h => ?_⟩⟩
  rw [parse_text c] at h
  cases h
  rfl

/-- A text with two fields comes back with four. -/
theorem parse_text_roundtrip_partial :
    ∃ c : Config, parse "\x7b\"default_partitions\": 7\x7d" = .ok c ∧ c.defaultPartitions = 7 ∧
      parse c.text = .ok c ∧ ∀ c' : Config, parse c.text = .ok c' → c'.text = c.text := by
  have h : parse "\x7b\"default_partitions\": 7\x7d" = .ok { defaultPartitions := 7 } := by rfl
  exact ⟨_, h, rfl, parse_text_roundtrip.2 _ _ h⟩

end LogBroker.Config
