import Mathlib
import LogBroker.Json

/-!
# How JSON is spelled

A value has many spellings. A text spells it if the text consists of the tokens of the value
(`Json.tokens`), each written in one of the ways in which it can be written, and of blanks, any
number of them before, between and behind the tokens (`Layout`).

* A number is one of the words of the JSON grammar: a sign or none, a whole part without leading
  zeros, a fraction or none, an exponent or none (`Number`).
* A string is written in pieces (`Piece.Spells`). Most characters stand for themselves, some have a
  short escape, and a unit escape gives any 16-bit unit by four hexadecimal digits of either case.
  What the pieces stand for is said by `Piece.Denotes`: two units that form a surrogate pair are one
  character, and half a pair alone denotes nothing.

Main statement: the lexer finds the tokens of every layout (`lex_layout`). It has to be told where
a word ends, so no word may follow another without a mark in between (`Apart`). In the tokens of a
value none does.
-/
namespace LogBroker.Json

/-! ## Numbers -/

/-- Digits, one or more. -/
def Digits (cs : List Char) : Prop := cs ≠ [] ∧ ∀ c ∈ cs, c.isDigit

/-- The whole part of a number: zero, or digits that start with another one. -/
inductive Whole : List Char → Prop
  | zero : Whole ['0']
  | digits {c : Char} {cs : List Char} (h : c ≠ '0') (hds : Digits (c :: cs)) : Whole (c :: cs)

/-- The fraction of a number, which may be missing. -/
inductive Fraction : List Char → Prop
  | missing : Fraction []
  | digits {cs : List Char} (h : Digits cs) : Fraction ('.' :: cs)

/-- The exponent of a number, which may be missing. -/
inductive Exponent : List Char → Prop
  | missing : Exponent []
  | digits {e : Char} {sign cs : List Char} (he : e = 'e' ∨ e = 'E')
      (hs : sign = [] ∨ sign = ['+'] ∨ sign = ['-']) (h : Digits cs) : Exponent (e :: (sign ++ cs))

/-- A number. -/
inductive Number : List Char → Prop
  | parts {sign whole fraction exponent : List Char} (hs : sign = [] ∨ sign = ['-'])
      (hw : Whole whole) (hf : Fraction fraction) (he : Exponent exponent) :
      Number (sign ++ (whole ++ (fraction ++ exponent)))

/-! ## Strings -/

/-- How a piece of a string literal may be written. -/
inductive Piece.Spells : Piece → List Char → Prop
  /-- A character stands for itself unless it is a quote, a backslash or a control character. -/
  | plain {c : Char} (hq : c ≠ '"') (hb : c ≠ '\\') (hc : ' ' ≤ c) : Spells (.char c) [c]
  | short {e c : Char} (h : shortEscape? e = some c) : Spells (.char c) ['\\', e]
  | unit {a b c d : Char} {i j k l : Nat} (ha : hexDigit? a = some i) (hb : hexDigit? b = some j)
      (hc : hexDigit? c = some k) (hd : hexDigit? d = some l) :
      Spells (.unit (((i * 16 + j) * 16 + k) * 16 + l)) ['\\', 'u', a, b, c, d]

/-- How the inside of a string literal may be written. -/
inductive Piece.Written : List Piece → List Char → Prop
  | nil : Written [] []
  | cons {p : Piece} {ps : List Piece} {literal cs : List Char} (h : p.Spells literal)
      (hs : Written ps cs) : Written (p :: ps) (literal ++ cs)

/-- What pieces stand for. -/
inductive Piece.Denotes : List Piece → List Char → Prop
  | nil : Denotes [] []
  | char {c : Char} {ps : List Piece} {cs : List Char} (h : Denotes ps cs) :
      Denotes (.char c :: ps) (c :: cs)
  | unit {n : Nat} {ps : List Piece} {cs : List Char} (hn : ¬ (0xD800 ≤ n ∧ n ≤ 0xDFFF))
      (h : Denotes ps cs) : Denotes (.unit n :: ps) (Char.ofNat n :: cs)
  | pair {high low : Nat} {ps : List Piece} {cs : List Char}
      (hh : 0xD800 ≤ high ∧ high ≤ 0xDBFF) (hl : 0xDC00 ≤ low ∧ low ≤ 0xDFFF)
      (h : Denotes ps cs) :
      Denotes (.unit high :: .unit low :: ps)
        (Char.ofNat (0x10000 + (high - 0xD800) * 0x400 + (low - 0xDC00)) :: cs)

/-! ## Tokens and texts -/

/-- How a token may be written. -/
inductive Token.Spells : Token → List Char → Prop
  | mark {t : Token} {c : Char} (h : mark? c = some t) : Spells t [c]
  | word {w : List Char} : Spells (.word w) w
  | str {s : String} {ps : List Piece} {cs : List Char} (h : Piece.Written ps cs)
      (hs : Piece.Denotes ps s.toList) : Spells (.str (some s)) ('"' :: (cs ++ ['"']))
  /-- A literal that denotes no text. -/
  | broken {ps : List Piece} {cs : List Char} (h : Piece.Written ps cs)
      (hs : ∀ s, ¬ Piece.Denotes ps s) : Spells (.str none) ('"' :: (cs ++ ['"']))

/-- Tokens written one after the other, with blanks before, between and behind them. -/
inductive Layout : List Token → List Char → Prop
  | nil : Layout [] []
  | blank {c : Char} {ts : List Token} {cs : List Char} (h : isBlank c) (hs : Layout ts cs) :
      Layout ts (c :: cs)
  | token {t : Token} {ts : List Token} {literal cs : List Char} (h : t.Spells literal)
      (hs : Layout ts cs) : Layout (t :: ts) (literal ++ cs)

/-- All numbers inside a value, however deep, are spelled as numbers. -/
inductive WellFormed : Json → Prop
  | null : WellFormed .null
  | bool (b : Bool) : WellFormed (.bool b)
  | num {literal : List Char} (h : Number literal) : WellFormed (.num literal)
  | str (text : Option String) : WellFormed (.str text)
  | arr {items : List Json} (h : ∀ v ∈ items, WellFormed v) : WellFormed (.arr items)
  | obj {members : List (Option String × Json)} (h : ∀ m ∈ members, WellFormed m.2) :
      WellFormed (.obj members)

/-- The text is well-formed JSON and spells the value. -/
def Spells (v : Json) (text : String) : Prop := v.WellFormed ∧ Layout v.tokens text.toList

/-! ## Numbers are words -/

/-- Digits are all that can be taken from the front of digits, if no digit follows. -/
theorem takeWhile_digits {ds cs : List Char} (hd : ∀ c ∈ ds, c.isDigit)
    (hc : ∀ c ∈ cs.head?, ¬ c.isDigit) :
    (ds ++ cs).takeWhile Char.isDigit = ds ∧ (ds ++ cs).dropWhile Char.isDigit = cs := by
  rw [List.takeWhile_append_of_pos hd, List.dropWhile_append_of_pos hd]
  cases cs with
  | nil => simp
  | cons c cs => simp [hc c rfl]

theorem isExponent_of_digits {sign cs : List Char} (hs : sign = [] ∨ sign = ['+'] ∨ sign = ['-'])
    (h : Digits cs) : isExponent (sign ++ cs) := by
  obtain ⟨hne, hds⟩ := h
  have hall : (!cs.isEmpty && cs.all Char.isDigit) = true := by simpa [hne] using hds
  rcases hs with rfl | rfl | rfl
  · -- the first digit is no sign
    rw [List.nil_append]
    unfold isExponent
    split
    · exact absurd (hds '+' List.mem_cons_self) (by decide)
    · exact absurd (hds '-' List.mem_cons_self) (by decide)
    · exact hall
  · exact hall
  · exact hall

theorem isExponentPart_of_exponent {cs : List Char} (h : Exponent cs) : isExponentPart cs := by
  cases h with
  | missing => rfl
  | digits he hs h =>
    rw [isExponentPart, isExponent_of_digits hs h]
    rcases he with rfl | rfl <;> rfl

/-- An exponent does not start with a digit, nor does a fraction with one. -/
theorem not_isDigit_head {fraction exponent : List Char} (hf : Fraction fraction)
    (he : Exponent exponent) : ∀ c ∈ (fraction ++ exponent).head?, ¬ c.isDigit := by
  intro c hc
  cases hf with
  | missing =>
    cases he with
    | missing => cases hc
    | digits he hs h => cases hc; rcases he with rfl | rfl <;> decide
  | digits h => cases hc; decide

theorem isFractionPart_of_fraction {fraction exponent : List Char} (hf : Fraction fraction)
    (he : Exponent exponent) : isFractionPart (fraction ++ exponent) := by
  have hpart := isExponentPart_of_exponent he
  cases hf with
  | missing =>
    cases he with
    | missing => rfl
    | digits he hs h => rcases he with rfl | rfl <;> exact hpart
  | digits h =>
    have hhead := not_isDigit_head .missing he
    rw [List.nil_append] at hhead
    obtain ⟨htake, hdrop⟩ := takeWhile_digits h.2 hhead
    rw [List.cons_append, isFractionPart, htake, hdrop, hpart]
    simpa using h.1

theorem isUnsigned_of_whole {whole fraction exponent : List Char} (hw : Whole whole)
    (hf : Fraction fraction) (he : Exponent exponent) :
    isUnsigned (whole ++ (fraction ++ exponent)) := by
  cases hw with
  | zero =>
    rw [List.singleton_append, isUnsigned]
    exact isFractionPart_of_fraction hf he
  | @digits c cs h hds =>
    have htail : ∀ d ∈ cs, d.isDigit := fun d hd => hds.2 d (List.mem_cons_of_mem _ hd)
    have hdrop := (takeWhile_digits htail (not_isDigit_head hf he)).2
    rw [List.cons_append, isUnsigned, hdrop, hds.2 c List.mem_cons_self,
      isFractionPart_of_fraction hf he]
    · rfl
    · exact h

theorem isNumber_of_number {cs : List Char} (h : Number cs) : isNumber cs := by
  obtain ⟨hs, hw, hf, he⟩ := h
  have hun := isUnsigned_of_whole hw hf he
  rcases hs with rfl | rfl
  · cases hw with
    | zero => exact hun
    | digits h hds =>
      rw [List.nil_append, List.cons_append, isNumber]
      · exact hun
      · rintro rest he
        cases he
        exact absurd (hds.2 '-' List.mem_cons_self) (by decide)
  · exact hun

theorem not_isDelimiter_of_isDigit {c : Char} (h : c.isDigit) : Lexer.isDelimiter c = false := by
  by_contra hd
  rw [Bool.not_eq_false] at hd
  have hmem : c ∈ [' ', '\t', '\n', '\r', '[', ']', '\x7b', '\x7d', ',', ':', '"'] := by
    unfold Lexer.isDelimiter isBlank mark? at hd
    split at hd <;> simp_all [or_assoc]
  simp only [List.mem_cons, List.not_mem_nil, or_false] at hmem
  rcases hmem with rfl | rfl | rfl | rfl | rfl | rfl | rfl | rfl | rfl | rfl | rfl <;> cases h

/-! ## Words -/

/-- A word is not empty and has no delimiter inside. -/
def IsWord (w : List Char) : Prop := w ≠ [] ∧ ∀ c ∈ w, Lexer.isDelimiter c = false

/-- The tokens do not begin with a word. -/
def NoWord (ts : List Token) : Prop := ∀ w, ts.head? ≠ some (.word w)

/-- Words are words, and between two of them there is a mark or a string. -/
def Apart : List Token → Prop
  | [] => True
  | .word w :: ts => IsWord w ∧ NoWord ts ∧ Apart ts
  | _ :: ts => Apart ts

theorem isWord_of_number {w : List Char} (h : Number w) : IsWord w := by
  have hdigits {cs : List Char} (hcs : Digits cs) : ∀ c ∈ cs, Lexer.isDelimiter c = false :=
    fun c hc => not_isDelimiter_of_isDigit (hcs.2 c hc)
  obtain ⟨hs, hw, hf, he⟩ := h
  constructor
  · cases hw <;> simp
  · intro c hc
    simp only [List.mem_append] at hc
    rcases hc with hc | hc | hc | hc
    · rcases hs with rfl | rfl
      · cases hc
      · obtain rfl := List.mem_singleton.1 hc
        decide
    · cases hw with
      | zero =>
        obtain rfl := List.mem_singleton.1 hc
        decide
      | digits _ hds => exact hdigits hds c hc
    · cases hf with
      | missing => cases hc
      | digits hds =>
        rcases List.mem_cons.1 hc with rfl | hc
        · decide
        · exact hdigits hds c hc
    · cases he with
      | missing => cases hc
      | digits he hs hds =>
        simp only [List.mem_cons, List.mem_append] at hc
        rcases hc with rfl | hc | hc
        · rcases he with rfl | rfl <;> decide
        · rcases hs with rfl | rfl | rfl
          · cases hc
          · obtain rfl := List.mem_singleton.1 hc
            decide
          · obtain rfl := List.mem_singleton.1 hc
            decide
        · exact hdigits hds c hc

/-! ## Reading strings -/

namespace Piece

/-- A unit that is no half of a surrogate pair stands for itself, whatever follows. -/
theorem text?_unit {n : Nat} (hn : ¬ (0xD800 ≤ n ∧ n ≤ 0xDFFF)) (ps : List Piece) :
    text? (.unit n :: ps) = (text? ps).map (Char.ofNat n :: ·) := by
  have hhigh : isHigh n = false := by simp [isHigh]; omega
  have hlow : isLow n = false := by simp [isLow]; omega
  match ps with
  | [] => simp [text?, hhigh, hlow]
  | .char c :: rest => simp [text?, hhigh, hlow]
  | .unit m :: rest => simp [text?, hhigh, hlow]

theorem denotes_of_text? {ps : List Piece} {cs : List Char} (h : text? ps = some cs) :
    Denotes ps cs := by
  fun_induction text? ps generalizing cs with
  | case1 =>
    cases h
    exact .nil
  | case2 c rest ih =>
    obtain ⟨cs, hcs, rfl⟩ := Option.map_eq_some_iff.1 h
    exact .char (ih hcs)
  | case3 n m rest hp ih =>
    obtain ⟨cs, hcs, rfl⟩ := Option.map_eq_some_iff.1 h
    simp only [isHigh, isLow, Bool.and_eq_true, decide_eq_true_eq] at hp
    exact .pair hp.1 hp.2 (ih hcs)
  | case4 n m rest hp hs => cases h
  | case5 n m rest hp hs ih =>
    obtain ⟨cs, hcs, rfl⟩ := Option.map_eq_some_iff.1 h
    simp only [isHigh, isLow, Bool.or_eq_true, Bool.and_eq_true, decide_eq_true_eq] at hs
    exact .unit (by omega) (ih hcs)
  | case6 n rest hrest hs => cases h
  | case7 n rest hrest hs ih =>
    obtain ⟨cs, hcs, rfl⟩ := Option.map_eq_some_iff.1 h
    simp only [isHigh, isLow, Bool.or_eq_true, Bool.and_eq_true, decide_eq_true_eq] at hs
    exact .unit (by omega) (ih hcs)

theorem text?_of_denotes {ps : List Piece} {cs : List Char} (h : Denotes ps cs) :
    text? ps = some cs := by
  induction h with
  | nil => rfl
  | char h ih => rw [text?, ih]; rfl
  | unit hn h ih => rw [text?_unit hn, ih]; rfl
  | @pair high low ps cs hh hl h ih =>
    have hp : (isHigh high && isLow low) = true := by simp [isHigh, isLow, hh, hl]
    rw [text?, if_pos hp, ih]
    rfl

/-- Pieces that denote nothing have no text. -/
theorem text?_eq_none {ps : List Piece} (h : ∀ cs, ¬ Denotes ps cs) : text? ps = none :=
  Option.eq_none_iff_forall_ne_some.2 fun cs hcs => h cs (denotes_of_text? hcs)

end Piece

namespace Lexer

/-- The tokens read so far and those of the characters that follow. -/
def lexFrom (l : Lexer) (cs : List Char) : Option (List Token) := (cs.foldlM step l).bind finish

theorem lexFrom_cons (l : Lexer) (c : Char) (cs : List Char) :
    l.lexFrom (c :: cs) = (l.step c).bind (·.lexFrom cs) := by
  rw [lexFrom, List.foldlM_cons]
  exact Option.bind_assoc ..

theorem lexFrom_of_step {l m : Lexer} {c : Char} (h : l.step c = some m) (cs : List Char) :
    l.lexFrom (c :: cs) = m.lexFrom cs := by
  rw [lexFrom_cons, h, Option.bind_some]

/-- The pieces of a string literal are read one after the other. -/
theorem lexFrom_written {ps : List Piece} {literal : List Char} (h : Piece.Written ps literal)
    (read : List Token) (before : List Piece) (cs : List Char) :
    lexFrom ⟨read, .string before⟩ (literal ++ cs) =
      lexFrom ⟨read, .string (ps.reverse ++ before)⟩ cs := by
  induction h generalizing before with
  | nil => rfl
  | @cons p ps literal rest hp hs ih =>
    rw [List.append_assoc, List.reverse_cons, List.append_assoc, List.singleton_append, ← ih]
    cases hp with
    | @plain c hq hb hc =>
      apply lexFrom_of_step
      simp [step, hq, hb, Char.not_lt.2 hc]
    | @short e c he =>
      have hu : e ≠ 'u' := by rintro rfl; cases he
      rw [List.cons_append, lexFrom_of_step (m := ⟨read, .escape before⟩) rfl]
      apply lexFrom_of_step
      simp [step, hu, he]
    | @unit a b c d i j k l ha hb hc hd =>
      rw [List.cons_append, lexFrom_of_step (m := ⟨read, .escape before⟩) rfl]
      rw [List.cons_append, lexFrom_of_step (m := ⟨read, .unit before 3 0⟩) rfl]
      rw [List.cons_append, lexFrom_of_step (m := ⟨read, .unit before 2 i⟩) (by simp [step, ha])]
      rw [List.cons_append,
        lexFrom_of_step (m := ⟨read, .unit before 1 (i * 16 + j)⟩) (by simp [step, hb])]
      rw [List.cons_append, lexFrom_of_step (m := ⟨read, .unit before 0 ((i * 16 + j) * 16 + k)⟩)
        (by simp [step, hc])]
      apply lexFrom_of_step
      simp [step, hd]

/-! ## Reading words -/

theorem lexFrom_word {w : List Char} (h : ∀ c ∈ w, isDelimiter c = false) (read : List Token)
    (before cs : List Char) : lexFrom ⟨read, .word before⟩ (w ++ cs) =
      lexFrom ⟨read, .word (w.reverse ++ before)⟩ cs := by
  induction w generalizing before with
  | nil => rfl
  | cons c w ih =>
    obtain ⟨hc, hw⟩ := List.forall_mem_cons.1 h
    rw [List.cons_append, List.reverse_cons, List.append_assoc, List.singleton_append, ← ih hw]
    apply lexFrom_of_step
    simp [step, hc]

/-- A word that comes to its end is a token. -/
theorem lexFrom_after_word {cs : List Char} (h : ∀ c ∈ cs.head?, isDelimiter c) (read : List Token)
    (w : List Char) :
    lexFrom ⟨read, .word w⟩ cs = lexFrom ⟨.word w.reverse :: read, .between⟩ cs := by
  cases cs with
  | nil => rfl
  | cons c cs =>
    rw [lexFrom_cons, lexFrom_cons]
    simp [step, h c rfl]

/-! ## Reading a layout -/

theorem begin_of_blank {c : Char} (h : isBlank c) (read : List Token) :
    begin read c = ⟨read, .between⟩ := by
  simp [begin, h]

theorem begin_of_mark {c : Char} {t : Token} (h : mark? c = some t) (read : List Token) :
    begin read c = ⟨t :: read, .between⟩ := by
  have hb : isBlank c = false := by
    unfold mark? at h
    split at h <;> first | decide | cases h
  simp [begin, hb, h]

theorem begin_of_not_isDelimiter {c : Char} (h : isDelimiter c = false) (read : List Token) :
    begin read c = ⟨read, .word [c]⟩ := by
  simp only [isDelimiter, Bool.or_eq_false_iff, Option.isSome_eq_false_iff,
    Option.isNone_iff_eq_none, decide_eq_false_iff_not] at h
  simp [begin, h]

/-- A literal is read as the token whose pieces it is made of. -/
theorem lexFrom_literal {ps : List Piece} {inside : List Char} (h : Piece.Written ps inside)
    (read : List Token) (cs : List Char) :
    lexFrom ⟨read, .between⟩ ('"' :: (inside ++ ['"']) ++ cs) =
      lexFrom ⟨.str ((Piece.text? ps).map String.ofList) :: read, .between⟩ cs := by
  rw [List.cons_append, List.append_assoc,
    lexFrom_of_step (m := ⟨read, .string []⟩) rfl, lexFrom_written h, List.append_nil,
    List.singleton_append]
  apply lexFrom_of_step
  simp [step, stringToken]

/-- A layout that does not begin with a word begins with a delimiter, if with anything. -/
theorem isDelimiter_of_layout {ts : List Token} {cs : List Char} (h : Layout ts cs)
    (hts : NoWord ts) : ∀ c ∈ cs.head?, isDelimiter c := by
  intro c hc
  cases h with
  | nil => cases hc
  | blank hb =>
    cases hc
    simp [isDelimiter, hb]
  | @token t ts literal cs h hs =>
    cases h with
    | mark h =>
      cases hc
      simp [isDelimiter, h]
    | word => exact absurd rfl (hts literal)
    | str => cases hc; rfl
    | broken => cases hc; rfl

theorem lexFrom_layout {ts : List Token} {cs : List Char} (h : Layout ts cs) (ha : Apart ts)
    (read : List Token) : lexFrom ⟨read, .between⟩ cs = some (read.reverse ++ ts) := by
  induction h generalizing read with
  | nil => rw [List.append_nil]; rfl
  | @blank c ts cs hb hs ih =>
    rw [← ih ha]
    apply lexFrom_of_step
    rw [step, begin_of_blank hb]
  | @token t ts literal cs h hs ih =>
    have hnext (t : Token) (ha : Apart ts) :
        lexFrom ⟨t :: read, .between⟩ cs = some (read.reverse ++ t :: ts) := by
      rw [ih ha, List.reverse_cons, List.append_assoc, List.singleton_append]
    cases h with
    | @mark t c h =>
      have hrest : Apart ts := by
        cases t with
        | word w => exact ha.2.2
        | _ => exact ha
      rw [← hnext t hrest]
      apply lexFrom_of_step
      rw [step, begin_of_mark h]
    | @word w =>
      obtain ⟨⟨hne, hw⟩, hword, hrest⟩ := ha
      obtain ⟨c, w, rfl⟩ := List.exists_cons_of_ne_nil hne
      obtain ⟨hc, hw⟩ := List.forall_mem_cons.1 hw
      have hfirst : step ⟨read, .between⟩ c = some ⟨read, .word [c]⟩ := by
        rw [step, begin_of_not_isDelimiter hc]
      rw [List.cons_append, lexFrom_of_step hfirst, lexFrom_word hw,
        lexFrom_after_word (isDelimiter_of_layout hs hword), List.reverse_append,
        List.reverse_reverse]
      exact hnext _ hrest
    | @str s ps inside hps hden =>
      rw [lexFrom_literal hps, Piece.text?_of_denotes hden, Option.map_some, String.ofList_toList]
      exact hnext _ ha
    | @broken ps inside hps hden =>
      rw [lexFrom_literal hps, Piece.text?_eq_none hden]
      exact hnext _ ha

end Lexer

/-- The lexer finds the tokens of a layout. -/
theorem lex_layout {ts : List Token} {cs : List Char} (h : Layout ts cs) (ha : Apart ts) :
    Token.lex cs = some ts :=
  Lexer.lexFrom_layout h ha []

end LogBroker.Json
