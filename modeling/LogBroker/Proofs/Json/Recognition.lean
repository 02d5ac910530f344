import Mathlib
import LogBroker.Proofs.Json.Reading

/-!
# What is read as JSON

Nothing but JSON is read. Both readers are followed token by token and character by character, and
what they have read so far is told by their state alone:

* the lexer has read a layout of its tokens and, behind it, the beginning of the string or word that
  it is in the middle of (`Lexer.Pending`);
* the reader of values has read the tokens of its open arrays and objects, each up to where it
  stands, and then what its expectation says (`Reader.read`).

Main statement: a text is read as a value just when it spells that value (`parse?_eq_some_iff`).
-/
namespace LogBroker.Json

/-! ## Numbers -/

theorem exists_digits_of_isExponent {cs : List Char} (h : isExponent cs) :
    ∃ sign ds, cs = sign ++ ds ∧ (sign = [] ∨ sign = ['+'] ∨ sign = ['-']) ∧ Digits ds := by
  have hdigits {ds : List Char} (h : (!ds.isEmpty && ds.all Char.isDigit) = true) : Digits ds := by
    simpa [Digits] using h
  unfold isExponent at h
  split at h
  · exact ⟨['+'], _, rfl, by simp, hdigits h⟩
  · exact ⟨['-'], _, rfl, by simp, hdigits h⟩
  · exact ⟨[], cs, rfl, by simp, hdigits h⟩

theorem exponent_of_isExponentPart {cs : List Char} (h : isExponentPart cs) : Exponent cs := by
  match cs with
  | [] => exact .missing
  | e :: rest =>
    simp only [isExponentPart, Bool.and_eq_true, Bool.or_eq_true, decide_eq_true_eq] at h
    obtain ⟨sign, ds, rfl, hsign, hds⟩ := exists_digits_of_isExponent h.2
    exact .digits h.1 hsign hds

theorem exists_of_isFractionPart {cs : List Char} (h : isFractionPart cs) :
    ∃ fraction exponent, cs = fraction ++ exponent ∧ Fraction fraction ∧ Exponent exponent := by
  unfold isFractionPart at h
  split at h
  · rename_i rest
    simp only [Bool.and_eq_true, Bool.not_eq_true', List.isEmpty_eq_false_iff] at h
    refine ⟨'.' :: rest.takeWhile Char.isDigit, rest.dropWhile Char.isDigit, ?_,
      .digits ⟨h.1, fun c hc => List.mem_takeWhile_imp hc⟩, exponent_of_isExponentPart h.2⟩
    rw [List.cons_append, List.takeWhile_append_dropWhile]
  · exact ⟨[], cs, rfl, .missing, exponent_of_isExponentPart h⟩

theorem exists_of_isUnsigned {cs : List Char} (h : isUnsigned cs) :
    ∃ whole fraction exponent, cs = whole ++ (fraction ++ exponent) ∧ Whole whole ∧
      Fraction fraction ∧ Exponent exponent := by
  unfold isUnsigned at h
  split at h
  · cases h
  · obtain ⟨fraction, exponent, rfl, hf, he⟩ := exists_of_isFractionPart h
    exact ⟨['0'], fraction, exponent, rfl, .zero, hf, he⟩
  · rename_i c rest hc
    rw [Bool.and_eq_true] at h
    obtain ⟨fraction, exponent, hrest, hf, he⟩ := exists_of_isFractionPart h.2
    refine ⟨c :: rest.takeWhile Char.isDigit, fraction, exponent, ?_, .digits hc ⟨by simp, ?_⟩,
      hf, he⟩
    · rw [← hrest, List.cons_append, List.takeWhile_append_dropWhile]
    · rw [List.forall_mem_cons]
      exact ⟨h.1, fun c hc => List.mem_takeWhile_imp hc⟩

theorem number_of_isNumber {cs : List Char} (h : isNumber cs) : Number cs := by
  unfold isNumber at h
  split at h
  · obtain ⟨whole, fraction, exponent, rfl, hw, hf, he⟩ := exists_of_isUnsigned h
    exact Number.parts (.inr rfl) hw hf he
  · obtain ⟨whole, fraction, exponent, rfl, hw, hf, he⟩ := exists_of_isUnsigned h
    exact .parts (.inl rfl) hw hf he

/-! ## From characters to tokens -/

theorem Layout.append {ts us : List Token} {cs ds : List Char} (h : Layout ts cs)
    (h' : Layout us ds) : Layout (ts ++ us) (cs ++ ds) := by
  induction h with
  | nil => exact h'
  | blank hb _ ih => exact .blank hb ih
  | token ht _ ih =>
    rw [List.cons_append, List.append_assoc]
    exact .token ht ih

theorem layout_singleton {t : Token} {cs : List Char} (h : t.Spells cs) : Layout [t] cs := by
  have := Layout.token h .nil
  rwa [List.append_nil] at this

theorem Piece.Written.append {ps qs : List Piece} {cs ds : List Char} (h : Written ps cs)
    (h' : Written qs ds) : Written (ps ++ qs) (cs ++ ds) := by
  induction h with
  | nil => exact h'
  | cons hp _ ih =>
    rw [List.cons_append, List.append_assoc]
    exact .cons hp ih

/-- One more piece. -/
theorem Piece.Written.concat {p : Piece} {ps : List Piece} {cs ds : List Char}
    (h : Written ps.reverse cs) (hp : p.Spells ds) : Written (p :: ps).reverse (cs ++ ds) := by
  have := h.append (.cons hp .nil)
  rwa [List.append_nil, ← List.reverse_cons] at this

/-- A literal is a token, whether or not it denotes a text. -/
theorem spells_literal {ps : List Piece} {cs : List Char} (h : Piece.Written ps cs) :
    Token.Spells (.str ((Piece.text? ps).map String.ofList)) ('"' :: (cs ++ ['"'])) := by
  cases htext : Piece.text? ps with
  | none =>
    refine .broken h fun s hs => ?_
    rw [Piece.text?_of_denotes hs] at htext
    cases htext
  | some s =>
    refine .str h ?_
    rw [String.toList_ofList]
    exact Piece.denotes_of_text? htext

namespace Lexer

/-- The first digits of a unit escape: how many are to come after the next one, and their value. -/
inductive Begun : List Char → Nat → Nat → Prop
  | none : Begun [] 3 0
  | digit {ds : List Char} {c : Char} {more value d : Nat} (h : Begun ds (more + 1) value)
      (hc : hexDigit? c = some d) : Begun (ds ++ [c]) more (value * 16 + d)

theorem Begun.le {ds : List Char} {more value : Nat} (h : Begun ds more value) : more ≤ 3 := by
  induction h with
  | none => exact Nat.le_refl 3
  | digit h hc ih => omega

/-- What was read since the last token. -/
inductive Pending : Mode → List Char → Prop
  | between : Pending .between []
  | word {w : List Char} : Pending (.word w) w.reverse
  | string {ps : List Piece} {cs : List Char} (h : Piece.Written ps.reverse cs) :
      Pending (.string ps) ('"' :: cs)
  | escape {ps : List Piece} {cs : List Char} (h : Piece.Written ps.reverse cs) :
      Pending (.escape ps) ('"' :: (cs ++ ['\\']))
  | unit {ps : List Piece} {cs ds : List Char} {more value : Nat}
      (h : Piece.Written ps.reverse cs) (hds : Begun ds more value) :
      Pending (.unit ps more value) ('"' :: (cs ++ ('\\' :: 'u' :: ds)))

/-- The characters were read: first the tokens, then what is pending. -/
def HasRead (l : Lexer) (cs : List Char) : Prop :=
  ∃ done pending, cs = done ++ pending ∧ Layout l.read.reverse done ∧ Pending l.mode pending

theorem hasRead_between {read : List Token} {cs : List Char} (h : Layout read.reverse cs) :
    HasRead ⟨read, .between⟩ cs :=
  ⟨cs, [], (List.append_nil cs).symm, h, .between⟩

theorem layout_concat {t : Token} {read : List Token} {cs literal : List Char}
    (h : Layout read.reverse cs) (ht : t.Spells literal) :
    Layout (t :: read).reverse (cs ++ literal) := by
  rw [List.reverse_cons]
  exact h.append (layout_singleton ht)

theorem hasRead_begin {read : List Token} {cs : List Char} (h : Layout read.reverse cs)
    (c : Char) : HasRead (begin read c) (cs ++ [c]) := by
  unfold begin
  split
  · rename_i hb
    apply hasRead_between
    have := h.append (.blank hb .nil)
    rwa [List.append_nil] at this
  · split
    · rename_i t ht
      exact hasRead_between (layout_concat h (.mark ht))
    · refine ⟨cs, [c], rfl, h, ?_⟩
      split
      · rename_i hc
        rw [hc]
        exact .string .nil
      · exact .word (w := [c])

/-- The last digit of a unit escape. -/
theorem spells_unit {ds : List Char} {c : Char} {value d : Nat} (h : Begun ds 0 value)
    (hc : hexDigit? c = some d) :
    Piece.Spells (.unit (value * 16 + d)) ('\\' :: 'u' :: (ds ++ [c])) := by
  obtain _ | ⟨h, hi⟩ := h
  obtain _ | ⟨h, hj⟩ := h
  obtain _ | ⟨h, hk⟩ := h
  obtain _ | ⟨h, _⟩ := h
  · rw [Nat.zero_mul, Nat.zero_add]
    exact .unit hk hj hi hc
  · exact absurd h.le (by omega)

theorem hasRead_step {l m : Lexer} {c : Char} {cs : List Char} (h : l.HasRead cs)
    (hstep : l.step c = some m) : m.HasRead (cs ++ [c]) := by
  obtain ⟨read, mode⟩ := l
  obtain ⟨done, pending, rfl, hdone, hpending⟩ := h
  cases hpending with
  | between =>
    cases hstep
    rw [List.append_nil]
    exact hasRead_begin hdone c
  | @word w =>
    dsimp only [step] at hstep
    split at hstep
    · cases hstep
      exact hasRead_begin (layout_concat hdone .word) c
    · cases hstep
      refine ⟨done, (c :: w).reverse, ?_, hdone, .word⟩
      rw [List.reverse_cons, List.append_assoc]
  | @string ps cs h =>
    dsimp only [step] at hstep
    split_ifs at hstep with hq hb hc
    · cases hstep
      subst hq
      have := layout_concat hdone (spells_literal h)
      rw [List.append_assoc]
      exact hasRead_between this
    · cases hstep
      subst hb
      exact ⟨done, _, List.append_assoc .., hdone, .escape h⟩
    · cases hstep
      exact ⟨done, _, List.append_assoc .., hdone, .string (h.concat (.plain hq hb (not_lt.1 hc)))⟩
  | @escape ps cs h =>
    dsimp only [step] at hstep
    split at hstep
    · rename_i hu
      cases hstep
      subst hu
      refine ⟨done, _, ?_, hdone, .unit h .none⟩
      simp
    · obtain ⟨e, he, rfl⟩ := Option.map_eq_some_iff.1 hstep
      refine ⟨done, _, ?_, hdone, .string (h.concat (.short he))⟩
      simp
  | @unit ps cs ds more value h hds =>
    obtain ⟨d, hd, rfl⟩ := Option.map_eq_some_iff.1 hstep
    cases more with
    | zero =>
      refine ⟨done, _, ?_, hdone, .string (h.concat (spells_unit hds hd))⟩
      simp
    | succ more =>
      refine ⟨done, _, ?_, hdone, .unit h (hds.digit hd)⟩
      simp

theorem hasRead_foldlM {l m : Lexer} {cs ds : List Char} (h : l.HasRead cs)
    (hrun : ds.foldlM step l = some m) : m.HasRead (cs ++ ds) := by
  induction ds generalizing l cs with
  | nil =>
    cases hrun
    rwa [List.append_nil]
  | cons d ds ih =>
    rw [List.foldlM_cons] at hrun
    obtain ⟨next, hstep, hrest⟩ := Option.bind_eq_some_iff.1 hrun
    have := ih (hasRead_step h hstep) hrest
    rwa [List.append_assoc, List.singleton_append] at this

theorem layout_finish {l : Lexer} {cs : List Char} {ts : List Token} (h : l.HasRead cs)
    (hfinish : l.finish = some ts) : Layout ts cs := by
  obtain ⟨read, mode⟩ := l
  obtain ⟨done, pending, rfl, hdone, hpending⟩ := h
  cases hpending with
  | between =>
    cases hfinish
    rwa [List.append_nil]
  | word =>
    cases hfinish
    exact layout_concat hdone .word
  | string | escape | unit => cases hfinish

end Lexer

/-- A text is a layout of the tokens that the lexer finds. -/
theorem layout_of_lex {cs : List Char} {ts : List Token} (h : Token.lex cs = some ts) :
    Layout ts cs := by
  obtain ⟨l, hrun, hfinish⟩ := Option.bind_eq_some_iff.1 h
  have hstart : Lexer.HasRead ⟨[], .between⟩ [] := Lexer.hasRead_between .nil
  exact Lexer.layout_finish (Lexer.hasRead_foldlM hstart hrun) hfinish

/-! ## From tokens to values -/

/-- Items, each with the comma behind it. -/
def itemsBefore (items : List Json) : List Token :=
  items.flatMap fun v => v.tokens ++ [.comma]

/-- Members, each with the comma behind it. -/
def membersBefore (members : List (Option String × Json)) : List Token :=
  members.flatMap fun m => memberTokens m ++ [.comma]

/-- Commas can be counted to what is before them or to what is behind them. -/
theorem append_behind_commas {α : Type} (f : α → List Token) (first : α) (rest : List α) (x : α) :
    f first ++ ((rest ++ [x]).flatMap fun y => .comma :: f y) =
      ((first :: rest).flatMap fun y => f y ++ [.comma]) ++ f x := by
  induction rest generalizing first with
  | nil => simp
  | cons next rest ih =>
    rw [List.cons_append, List.flatMap_cons, List.cons_append, ih, List.flatMap_cons (x := first),
      List.append_assoc, List.append_assoc, List.singleton_append]

theorem tokens_arr_concat (items : List Json) (v : Json) :
    (Json.arr (items ++ [v])).tokens =
      .openArray :: (itemsBefore items ++ v.tokens ++ [.closeArray]) := by
  cases items with
  | nil => simp [tokens, itemTokens, itemsBefore]
  | cons first rest =>
    rw [itemsBefore, ← append_behind_commas, List.cons_append, tokens, itemTokens_eq,
      List.cons_append, List.cons_append]

theorem tokens_obj_concat (members : List (Option String × Json)) (m : Option String × Json) :
    (Json.obj (members ++ [m])).tokens =
      .openObject :: (membersBefore members ++ memberTokens m ++ [.closeObject]) := by
  cases members with
  | nil => simp [tokens, memberListTokens, membersBefore]
  | cons first rest =>
    rw [membersBefore, ← append_behind_commas, List.cons_append, tokens, memberListTokens_eq,
      List.cons_append, List.cons_append]

namespace Frame

/-- The tokens of an open array or object up to where it stands. -/
def read : Frame → List Token
  | array items => .openArray :: itemsBefore items.reverse
  | object members name => .openObject :: (membersBefore members.reverse ++ [.str name, .colon])

/-- All values so far are well-formed. -/
def WellFormed : Frame → Prop
  | array items => ∀ v ∈ items, v.WellFormed
  | object members _ => ∀ m ∈ members, m.2.WellFormed

end Frame

namespace Expectation

/-- The tokens that lead to what is expected, inside the arrays and objects that are open. -/
def read : Expectation → List Token
  | value => []
  | itemOrEnd => [.openArray]
  | nameOrEnd => [.openObject]
  | name members => .openObject :: membersBefore members.reverse
  | colon members key => .openObject :: (membersBefore members.reverse ++ [.str key])
  | after v => v.tokens

def WellFormed : Expectation → Prop
  | value | itemOrEnd | nameOrEnd => True
  | name members => ∀ m ∈ members, m.2.WellFormed
  | colon members _ => ∀ m ∈ members, m.2.WellFormed
  | after v => v.WellFormed

end Expectation

namespace Reader

/-- All tokens that were read. -/
def read (r : Reader) : List Token := r.inside.reverse.flatMap Frame.read ++ r.expects.read

def WellFormed (r : Reader) : Prop :=
  r.expects.WellFormed ∧ ∀ f ∈ r.inside, f.WellFormed

theorem ofWord?_eq_some {w : List Char} {v : Json} (h : ofWord? w = some v) :
    v.WellFormed ∧ v.tokens = [.word w] := by
  unfold ofWord? at h
  split_ifs at h with hnull htrue hfalse hnumber <;> cases h
  · exact ⟨.null, by rw [hnull]; rfl⟩
  · exact ⟨.bool true, by rw [htrue]; rfl⟩
  · exact ⟨.bool false, by rw [hfalse]; rfl⟩
  · exact ⟨.num (number_of_isNumber hnumber), rfl⟩

theorem read_begin {t : Token} {inside : List Frame} {r : Reader}
    (h : begin t inside = some r) (hinside : ∀ f ∈ inside, f.WellFormed) :
    r.WellFormed ∧ r.read = inside.reverse.flatMap Frame.read ++ [t] := by
  cases t with
  | word w =>
    obtain ⟨v, hv, rfl⟩ := Option.map_eq_some_iff.1 h
    obtain ⟨hwell, htokens⟩ := ofWord?_eq_some hv
    exact ⟨⟨hwell, hinside⟩, by rw [read, Expectation.read, htokens]⟩
  | str text =>
    cases h
    exact ⟨⟨.str text, hinside⟩, rfl⟩
  | openArray | openObject =>
    cases h
    exact ⟨⟨trivial, hinside⟩, rfl⟩
  | closeArray | closeObject | comma | colon => cases h

theorem read_step {r s : Reader} {t : Token} (h : r.step t = some s) (hwell : r.WellFormed) :
    s.WellFormed ∧ s.read = r.read ++ [t] := by
  obtain ⟨expects, inside⟩ := r
  obtain ⟨hexpects, hinside⟩ := hwell
  dsimp only [step] at h hexpects hinside
  split at h
  case h_1 =>
    -- a value
    have hread := read_begin h hinside
    rwa [← List.append_nil (List.flatMap _ _)] at hread
  case h_2 =>
    -- an array without items
    cases h
    exact ⟨⟨.arr (by simp), hinside⟩, by simp [read, Expectation.read, tokens]⟩
  case h_3 =>
    -- the first item of an array
    obtain ⟨hs, hread⟩ :=
      read_begin h (List.forall_mem_cons.2 ⟨by simp [Frame.WellFormed], hinside⟩)
    refine ⟨hs, ?_⟩
    rw [hread]
    simp [read, Frame.read, Expectation.read, itemsBefore]
  case h_4 =>
    -- an object without members
    cases h
    exact ⟨⟨.obj (by simp), hinside⟩, by simp [read, Expectation.read, tokens]⟩
  case h_5 =>
    -- the first name in an object
    cases h
    refine ⟨⟨by simp [Expectation.WellFormed], hinside⟩, ?_⟩
    simp [read, Expectation.read, membersBefore]
  case h_6 =>
    -- a further name
    cases h
    exact ⟨⟨hexpects, hinside⟩, by simp [read, Expectation.read]⟩
  case h_7 =>
    -- the colon behind a name
    cases h
    refine ⟨⟨trivial, List.forall_mem_cons.2 ⟨hexpects, hinside⟩⟩, ?_⟩
    simp [read, Frame.read, Expectation.read]
  case h_8 =>
    -- the comma behind an item
    cases h
    obtain ⟨hitems, hinside⟩ := List.forall_mem_cons.1 hinside
    refine ⟨⟨trivial, List.forall_mem_cons.2 ⟨List.forall_mem_cons.2 ⟨hexpects, hitems⟩, hinside⟩⟩,
      ?_⟩
    simp [read, Frame.read, Expectation.read, itemsBefore]
  case h_9 v items inside =>
    -- the end of an array
    cases h
    obtain ⟨hitems, hinside⟩ := List.forall_mem_cons.1 hinside
    have hall : ∀ w ∈ v :: items, w.WellFormed := List.forall_mem_cons.2 ⟨hexpects, hitems⟩
    refine ⟨⟨.arr fun w hw => hall w (List.mem_reverse.1 hw), hinside⟩, ?_⟩
    simp [read, Frame.read, Expectation.read, tokens_arr_concat]
  case h_10 =>
    -- the comma behind a member
    cases h
    obtain ⟨hmembers, hinside⟩ := List.forall_mem_cons.1 hinside
    refine ⟨⟨List.forall_mem_cons.2 ⟨hexpects, hmembers⟩, hinside⟩, ?_⟩
    simp [read, Frame.read, Expectation.read, membersBefore, memberTokens_eq]
  case h_11 v members name inside =>
    -- the end of an object
    cases h
    obtain ⟨hmembers, hinside⟩ := List.forall_mem_cons.1 hinside
    have hall : ∀ m ∈ (name, v) :: members, m.2.WellFormed :=
      List.forall_mem_cons.2 ⟨hexpects, hmembers⟩
    refine ⟨⟨.obj fun m hm => hall m (List.mem_reverse.1 hm), hinside⟩, ?_⟩
    simp [read, Frame.read, Expectation.read, tokens_obj_concat, memberTokens_eq]
  case h_12 => cases h

theorem read_run {r s : Reader} {ts : List Token} (h : r.run ts = some s) (hwell : r.WellFormed) :
    s.WellFormed ∧ s.read = r.read ++ ts := by
  induction ts generalizing r with
  | nil =>
    cases h
    exact ⟨hwell, (List.append_nil _).symm⟩
  | cons t ts ih =>
    rw [run, List.foldlM_cons] at h
    obtain ⟨next, hstep, hrest⟩ := Option.bind_eq_some_iff.1 h
    obtain ⟨hnext, hread⟩ := read_step hstep hwell
    obtain ⟨hs, hreads⟩ := ih hrest hnext
    refine ⟨hs, ?_⟩
    rw [hreads, hread, List.append_assoc, List.singleton_append]

end Reader

theorem tokens_of_ofTokens? {ts : List Token} {v : Json} (h : ofTokens? ts = some v) :
    v.WellFormed ∧ v.tokens = ts := by
  obtain ⟨r, hrun, hfinish⟩ := Option.bind_eq_some_iff.1 h
  obtain ⟨⟨hexpects, -⟩, hread⟩ := Reader.read_run hrun ⟨trivial, by simp⟩
  unfold Reader.finish at hfinish
  split at hfinish
  · rename_i w hafter hinside
    cases hfinish
    rw [hafter] at hexpects
    refine ⟨hexpects, ?_⟩
    rw [Reader.read, Reader.read, hafter, hinside] at hread
    exact hread
  · cases hfinish

/-- **What is read is what is spelled.** A text is read as a value just when it is well-formed and
spells the value. -/
theorem parse?_eq_some_iff {text : String} {v : Json} : parse? text = some v ↔ v.Spells text := by
  refine ⟨fun h => ?_, parse?_of_spells⟩
  obtain ⟨ts, hlex, hts⟩ := Option.bind_eq_some_iff.1 h
  obtain ⟨hwell, rfl⟩ := tokens_of_ofTokens? hts
  exact ⟨hwell, layout_of_lex hlex⟩

end LogBroker.Json
