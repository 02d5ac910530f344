import Mathlib
import LogBroker.Proofs.Json.Spelling

/-!
# Reading JSON

The reader of values builds what the tokens of a value came from: from any place in which a value
is expected, whatever arrays and objects are open around it, the tokens of a well-formed value lead
to the place behind that value (`Reader.run_tokens`). The lemma says where the reader is after the
tokens, with the open frames as they were, so an array or an object of any depth follows by
induction on the value, one item after the other.

Main statements:

* `parse?_of_spells`: every text that spells a value is read as that value;
* `parse?_compact`: so is the text that writes the value down without blanks.
-/
namespace LogBroker.Json

/-! ## The tokens of a value are apart -/

/-- The tokens of a value begin with one that is not the end of an array. -/
theorem exists_tokens_eq_cons (v : Json) : ∃ t ts, v.tokens = t :: ts ∧ t ≠ .closeArray := by
  match v with
  | .null | .bool true | .bool false | .num _ | .str _ | .arr [] | .arr (_ :: _) | .obj []
  | .obj (_ :: _) => exact ⟨_, _, rfl, by simp⟩

theorem memberTokens_eq (m : Option String × Json) :
    memberTokens m = .str m.1 :: .colon :: m.2.tokens := by
  cases m
  rw [memberTokens]

theorem itemTokens_eq (items : List Json) :
    itemTokens items = items.flatMap fun v => .comma :: v.tokens := by
  induction items with
  | nil => rw [itemTokens, List.flatMap_nil]
  | cons v rest ih => rw [itemTokens, ih, List.flatMap_cons]

theorem memberListTokens_eq (members : List (Option String × Json)) :
    memberListTokens members = members.flatMap fun m => .comma :: memberTokens m := by
  induction members with
  | nil => rw [memberListTokens, List.flatMap_nil]
  | cons m rest ih => rw [memberListTokens, ih, List.flatMap_cons]

theorem isWord_name {w : List Char}
    (h : w = ['n', 'u', 'l', 'l'] ∨ w = ['t', 'r', 'u', 'e'] ∨ w = ['f', 'a', 'l', 's', 'e']) :
    IsWord w := by
  rcases h with rfl | rfl | rfl <;> simp [IsWord, Lexer.isDelimiter, isBlank, mark?]

/-- The value keeps words apart: its tokens can stand before whatever is apart and is no word. -/
def KeepsApart (v : Json) : Prop :=
  ∀ ts : List Token, NoWord ts → Apart ts → Apart (v.tokens ++ ts)

section
variable {α : Type} {f : α → List Token} {xs : List α} {ts : List Token}

/-- Nothing that follows a value is a word. -/
theorem noWord_behind_commas (h : NoWord ts) (xs : List α) :
    NoWord ((xs.flatMap fun x => .comma :: f x) ++ ts) := by
  cases xs with
  | nil => exact h
  | cons x rest => rintro w ⟨⟩

theorem apart_behind_commas
    (h : ∀ x ∈ xs, ∀ us : List Token, NoWord us → Apart us → Apart (f x ++ us))
    (hw : NoWord ts) (ha : Apart ts) : Apart ((xs.flatMap fun x => .comma :: f x) ++ ts) := by
  induction xs with
  | nil => exact ha
  | cons x rest ih =>
    obtain ⟨hx, hrest⟩ := List.forall_mem_cons.1 h
    rw [List.flatMap_cons, List.append_assoc]
    exact hx _ (noWord_behind_commas hw rest) (ih hrest)

end

theorem KeepsApart.memberTokens {m : Option String × Json} (h : m.2.KeepsApart)
    (ts : List Token) (hw : NoWord ts) (ha : Apart ts) : Apart (memberTokens m ++ ts) := by
  rw [memberTokens_eq]
  exact h ts hw ha

theorem WellFormed.keepsApart {v : Json} (h : v.WellFormed) : v.KeepsApart := by
  induction h with
  | null => exact fun ts hw ha => ⟨isWord_name (by simp), hw, ha⟩
  | bool b => cases b <;> exact fun ts hw ha => ⟨isWord_name (by simp), hw, ha⟩
  | num h => exact fun ts hw ha => ⟨isWord_of_number h, hw, ha⟩
  | str text => exact fun ts hw ha => ha
  | @arr items h ih =>
    intro ts hw ha
    cases items with
    | nil => exact ha
    | cons v rest =>
      obtain ⟨hv, hrest⟩ := List.forall_mem_cons.1 ih
      have hend : NoWord ([.closeArray] ++ ts) := by rintro w ⟨⟩
      rw [tokens, itemTokens_eq, List.append_assoc, List.append_assoc]
      exact hv _ (noWord_behind_commas hend rest) (apart_behind_commas hrest hend ha)
  | @obj members h ih =>
    intro ts hw ha
    cases members with
    | nil => exact ha
    | cons m rest =>
      obtain ⟨hm, hrest⟩ := List.forall_mem_cons.1 ih
      have hend : NoWord ([.closeObject] ++ ts) := by rintro w ⟨⟩
      rw [tokens, memberListTokens_eq, List.append_assoc, List.append_assoc]
      exact hm.memberTokens _ (noWord_behind_commas hend rest)
        (apart_behind_commas (fun n hn => (hrest n hn).memberTokens) hend ha)

/-! ## From tokens to the value -/

/-- A number is no name. -/
theorem ofWord?_number {w : List Char} (h : Number w) : ofWord? w = some (.num w) := by
  have hn := isNumber_of_number h
  rw [ofWord?, if_neg (by rintro rfl; cases hn), if_neg (by rintro rfl; cases hn),
    if_neg (by rintro rfl; cases hn), if_pos hn]

namespace Reader

/-- Reads tokens one after the other. -/
def run (r : Reader) (ts : List Token) : Option Reader := ts.foldlM step r

theorem run_cons {r s : Reader} {t : Token} (h : r.step t = some s) (ts : List Token) :
    r.run (t :: ts) = s.run ts := by
  rw [run, List.foldlM_cons, h]
  rfl

/-- The value is read where one is expected, whatever is open around it. -/
def Reads (v : Json) : Prop :=
  ∀ (inside : List Frame) (ts : List Token),
    run ⟨.value, inside⟩ (v.tokens ++ ts) = run ⟨.after v, inside⟩ ts

/-- The first item of an array is read as a value is. -/
theorem run_first_item (v : Json) (inside : List Frame) (ts : List Token) :
    run ⟨.itemOrEnd, inside⟩ (v.tokens ++ ts) =
      run ⟨.value, .array [] :: inside⟩ (v.tokens ++ ts) := by
  obtain ⟨t, rest, htokens, hend⟩ := exists_tokens_eq_cons v
  have hstep : step ⟨.itemOrEnd, inside⟩ t = step ⟨.value, .array [] :: inside⟩ t := by
    cases t <;> first | rfl | exact absurd rfl hend
  rw [htokens, List.cons_append, run, run, List.foldlM_cons, List.foldlM_cons, hstep]

/-- The other items and the end of an array, once its first item is read. -/
theorem run_itemTokens {rest : List Json} (h : ∀ v ∈ rest, Reads v) (before : List Json) (v : Json)
    (inside : List Frame) (ts : List Token) :
    run ⟨.after v, .array before :: inside⟩ (itemTokens rest ++ .closeArray :: ts) =
      run ⟨.after (.arr (before.reverse ++ v :: rest)), inside⟩ ts := by
  induction rest generalizing before v with
  | nil =>
    rw [itemTokens, List.nil_append, ← List.reverse_cons]
    exact run_cons rfl ts
  | cons next rest ih =>
    obtain ⟨hnext, hrest⟩ := List.forall_mem_cons.1 h
    rw [itemTokens, List.cons_append, List.cons_append, List.append_assoc,
      run_cons (s := ⟨.value, .array (v :: before) :: inside⟩) rfl, hnext, ih hrest,
      List.reverse_cons, List.append_assoc, List.singleton_append]

/-- A member is read where a name is expected. -/
theorem run_memberTokens {m : Option String × Json} (h : Reads m.2) {r : Reader}
    {before : List (Option String × Json)} {inside : List Frame}
    (hname : r.step (.str m.1) = some ⟨.colon before m.1, inside⟩) (ts : List Token) :
    r.run (memberTokens m ++ ts) = run ⟨.after m.2, .object before m.1 :: inside⟩ ts := by
  rw [memberTokens_eq, List.cons_append, List.cons_append, run_cons hname,
    run_cons (s := ⟨.value, .object before m.1 :: inside⟩) rfl, h]

/-- The other members and the end of an object, once its first member is read. -/
theorem run_memberListTokens {rest : List (Option String × Json)} (h : ∀ m ∈ rest, Reads m.2)
    (before : List (Option String × Json)) (m : Option String × Json) (inside : List Frame)
    (ts : List Token) :
    run ⟨.after m.2, .object before m.1 :: inside⟩
        (memberListTokens rest ++ .closeObject :: ts) =
      run ⟨.after (.obj (before.reverse ++ m :: rest)), inside⟩ ts := by
  induction rest generalizing before m with
  | nil =>
    rw [memberListTokens, List.nil_append, ← List.reverse_cons]
    exact run_cons rfl ts
  | cons next rest ih =>
    obtain ⟨hnext, hrest⟩ := List.forall_mem_cons.1 h
    rw [memberListTokens, List.cons_append, List.cons_append, List.append_assoc,
      run_cons (s := ⟨.name (m :: before), inside⟩) rfl, run_memberTokens hnext rfl, ih hrest,
      List.reverse_cons, List.append_assoc, List.singleton_append]

theorem run_tokens {v : Json} (h : v.WellFormed) : Reads v := by
  induction h with
  | null => exact fun inside ts => run_cons rfl ts
  | bool b => cases b <;> exact fun inside ts => run_cons rfl ts
  | @num literal h =>
    intro inside ts
    refine run_cons ?_ ts
    simp only [step, begin, ofWord?_number h, Option.map_some]
  | str text => exact fun inside ts => run_cons rfl ts
  | @arr items h ih =>
    intro inside ts
    cases items with
    | nil =>
      rw [tokens, List.cons_append, run_cons (s := ⟨.itemOrEnd, inside⟩) rfl]
      exact run_cons rfl ts
    | cons v rest =>
      obtain ⟨hv, hrest⟩ := List.forall_mem_cons.1 ih
      simp only [tokens, List.cons_append, List.append_assoc, List.nil_append]
      rw [run_cons (s := ⟨.itemOrEnd, inside⟩) rfl, run_first_item, hv, run_itemTokens hrest]
      rfl
  | @obj members h ih =>
    intro inside ts
    cases members with
    | nil =>
      rw [tokens, List.cons_append, run_cons (s := ⟨.nameOrEnd, inside⟩) rfl]
      exact run_cons rfl ts
    | cons m rest =>
      obtain ⟨hm, hrest⟩ := List.forall_mem_cons.1 ih
      simp only [tokens, List.cons_append, List.append_assoc, List.nil_append]
      rw [run_cons (s := ⟨.nameOrEnd, inside⟩) rfl, run_memberTokens hm rfl,
        run_memberListTokens hrest]
      rfl

end Reader

/-- Tokens of a well-formed value denote the value. -/
theorem ofTokens?_tokens {v : Json} (h : v.WellFormed) : ofTokens? v.tokens = some v := by
  have hrun := Reader.run_tokens h [] []
  rw [List.append_nil, Reader.run, Reader.run] at hrun
  rw [ofTokens?, hrun]
  rfl

/-- A text that spells a value is read as that value. -/
theorem parse?_of_spells {v : Json} {text : String} (h : v.Spells text) :
    parse? text = some v := by
  have hapart := h.1.keepsApart [] (by rintro w ⟨⟩) trivial
  rw [List.append_nil] at hapart
  rw [parse?, lex_layout h.2 hapart, Option.bind_some, ofTokens?_tokens h.1]

/-! ## What is written can be read -/

theorem hexDigit?_digitChar {n : Nat} (h : n < 16) : hexDigit? (Nat.digitChar n) = some n := by
  have hall : ∀ m < 16, hexDigit? (Nat.digitChar m) = some m := by decide
  exact hall n h

/-- A character is written as one piece that stands for it, whatever comes behind. -/
theorem exists_piece_escape (c : Char) : ∃ p : Piece, p.Spells (escape c) ∧
    ∀ ps cs, Piece.Denotes ps cs → Piece.Denotes (p :: ps) (c :: cs) := by
  unfold escape
  split
  case h_8 hq hb _ _ _ _ _ =>
    split
    · rename_i hc
      have hsmall : c.toNat < 32 := hc
      refine ⟨_, .unit (i := 0) (j := 0) rfl rfl (hexDigit?_digitChar (by omega))
        (hexDigit?_digitChar (by omega)), fun ps cs h => ?_⟩
      have hvalue : ((0 * 16 + 0) * 16 + c.toNat / 16) * 16 + c.toNat % 16 = c.toNat := by omega
      rw [hvalue]
      have := Piece.Denotes.unit (n := c.toNat) (by omega) h
      rwa [Char.ofNat_toNat] at this
    · rename_i hc
      exact ⟨_, .plain hq hb (Char.not_lt.1 hc), fun ps cs h => .char h⟩
  all_goals exact ⟨_, .short rfl, fun ps cs h => .char h⟩

theorem exists_written_escape (cs : List Char) :
    ∃ ps, Piece.Written ps (cs.flatMap escape) ∧ Piece.Denotes ps cs := by
  induction cs with
  | nil => exact ⟨[], .nil, .nil⟩
  | cons c cs ih =>
    obtain ⟨ps, hw, hd⟩ := ih
    obtain ⟨p, hp, hpd⟩ := exists_piece_escape c
    exact ⟨p :: ps, .cons hp hw, hpd ps cs hd⟩

/-- Half a surrogate pair denotes nothing. -/
theorem not_denotes_half (cs : List Char) : ¬ Piece.Denotes [.unit 0xD800] cs := by
  intro h
  cases Piece.text?_of_denotes h

theorem spells_spell (t : Token) : t.Spells t.spell := by
  match t with
  | .openArray | .closeArray | .openObject | .closeObject | .comma | .colon => exact .mark rfl
  | .word w => exact .word
  | .str (some s) =>
    obtain ⟨ps, hw, hd⟩ := exists_written_escape s.toList
    exact .str hw hd
  | .str none =>
    have hunit : Piece.Spells (.unit 0xD800) ['\\', 'u', 'd', '8', '0', '0'] :=
      .unit (i := 13) (j := 8) (k := 0) (l := 0) rfl rfl rfl rfl
    exact .broken (.cons hunit .nil) not_denotes_half

theorem layout_flatMap_spell (ts : List Token) : Layout ts (ts.flatMap Token.spell) := by
  induction ts with
  | nil => exact .nil
  | cons t ts ih => exact .token (spells_spell t) ih

/-- Writing down without blanks is one way to spell a value. -/
theorem spells_compact {v : Json} (h : v.WellFormed) : v.Spells v.compact := by
  refine ⟨h, ?_⟩
  rw [compact, String.toList_ofList]
  exact layout_flatMap_spell v.tokens

theorem parse?_compact {v : Json} (h : v.WellFormed) : parse? v.compact = some v :=
  parse?_of_spells (spells_compact h)

theorem wellFormed_object {members : List (String × Json)} :
    (object members).WellFormed ↔ ∀ m ∈ members, m.2.WellFormed := by
  constructor
  · rintro (_ | _ | _ | _ | _ | h) m hm
    exact h (some m.1, m.2) (List.mem_map_of_mem hm)
  · intro h
    refine .obj fun m hm => ?_
    obtain ⟨given, hgiven, rfl⟩ := List.mem_map.1 hm
    exact h given hgiven

/-! ## Natural numbers -/

theorem digits_toDigits (n : Nat) : Digits (Nat.toDigits 10 n) :=
  ⟨Nat.toDigits_ne_nil, fun _ hc => Nat.isDigit_of_mem_toDigits (by decide) (by decide) hc⟩

/-- Except for zero itself, a natural number is spelled without a leading zero. -/
theorem head?_toDigits_ne {n : Nat} (hn : 0 < n) : (Nat.toDigits 10 n).head? ≠ some '0' := by
  induction n using Nat.strong_induction_on with
  | _ n ih =>
    rw [Nat.toDigits_eq_if (by decide)]
    split
    · rw [List.head?_cons, Ne, Option.some_inj, Nat.digitChar_eq_zero]
      omega
    · rw [List.head?_append_of_ne_nil _ Nat.toDigits_ne_nil]
      exact ih (n / 10) (by omega) (by omega)

theorem whole_toDigits (n : Nat) : Whole (Nat.toDigits 10 n) := by
  rcases Nat.eq_zero_or_pos n with rfl | hn
  · exact .zero
  · have hdigits := digits_toDigits n
    obtain ⟨c, cs, hcs⟩ := List.exists_cons_of_ne_nil hdigits.1
    have hc : c ≠ '0' := by
      have := head?_toDigits_ne hn
      rwa [hcs, List.head?_cons, Ne, Option.some_inj] at this
    rw [hcs] at hdigits ⊢
    exact .digits hc hdigits

theorem number_toDigits (n : Nat) : Number (Nat.toDigits 10 n) := by
  have h := Number.parts (.inl rfl) (whole_toDigits n) .missing .missing
  rwa [List.nil_append, List.append_nil, List.append_nil] at h

theorem wellFormed_ofNat (n : Nat) : (ofNat n).WellFormed := .num (number_toDigits n)

theorem natural?_ofNat (n : Nat) : (ofNat n).natural? = some n := by
  have hall : (Nat.toDigits 10 n).all Char.isDigit := List.all_eq_true.2 (digits_toDigits n).2
  rw [ofNat, natural?, if_pos hall, Nat.ofDigitChars_toDigits (by decide) (by decide)]

end LogBroker.Json
