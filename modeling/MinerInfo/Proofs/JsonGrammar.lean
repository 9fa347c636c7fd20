import Mathlib.Data.List.Forall2
import MinerInfo.Json.Value
import MinerInfo.Proofs.HexCase
import MinerInfo.Proofs.JsonText

/-! Every text that writes a value has the tree of that value. Strings and numbers are read by their scanners, a number
only where what follows does not go on with it. Then the machine is followed along the derivation of the text: wherever
a value is due it takes the text of one and stands after its tree, and between the brackets of an array or an object it
takes the elements or the members one after the other. -/

namespace MinerInfo.Json

theorem tokens_append_of_blank {b : Text} (h : Blank b) (s : Text) : tokens (b ++ s) = tokens s := by
  have hdrop : (b ++ s).dropWhile isBlank = s.dropWhile isBlank := List.dropWhile_append_of_pos h
  cases hs : s.dropWhile isBlank with
  | nil => rw [tokens_of_blank hs, tokens_of_blank (hdrop.trans hs)]
  | cons c rest => rw [tokens_of_cons hs, tokens_of_cons (hdrop.trans hs)]

theorem hexDigit?_of_lowerDigit {c : Char} {k : Nat} (hk : k < 16) (h : Hex.lowerDigit c = Hex.digit k) :
    hexDigit? c = some k := by
  have hc := Hex.toNat_lt_of_lowerDigit hk h
  rw [hexDigit?, if_pos hc, (Hex.value?_toUInt8 hc).2 ⟨k, hk, h, rfl⟩, Option.map_some,
    UInt8.toNat_ofNat_of_lt' (Nat.lt_trans hk (by decide))]

theorem hexUnit?_of_writesUnit {s : Text} {n : Nat} (h : WritesUnit s n) :
    ∃ a b c d, s = [a, b, c, d] ∧ hexUnit? a b c d = some n := by
  obtain ⟨hlt, hlower⟩ := h
  rw [Hex.lower, Hex.encode_cons, Hex.encode_cons, Hex.encode_nil, Hex.digits, Hex.digits, List.append_nil,
    List.cons_append, List.cons_append, List.nil_append] at hlower
  obtain ⟨a, s, rfl, ha, hlower⟩ := List.map_eq_cons_iff.1 hlower
  obtain ⟨b, s, rfl, hb, hlower⟩ := List.map_eq_cons_iff.1 hlower
  obtain ⟨c, s, rfl, hc, hlower⟩ := List.map_eq_cons_iff.1 hlower
  obtain ⟨d, s, rfl, hd, hlower⟩ := List.map_eq_cons_iff.1 hlower
  obtain rfl := List.map_eq_nil_iff.1 hlower
  refine ⟨a, b, c, d, rfl, ?_⟩
  simp only [UInt8.toNat_ofNat'] at ha hb hc hd
  rw [hexUnit?, hexDigit?_of_lowerDigit (by omega) ha, hexDigit?_of_lowerDigit (by omega) hb,
    hexDigit?_of_lowerDigit (by omega) hc, hexDigit?_of_lowerDigit (by omega) hd]
  refine congrArg some ?_
  omega

theorem shortEscape?_of_mem : ∀ p ∈ shortEscapes, p.1 ≠ 'u' ∧ shortEscape? p.1 = some p.2.toNat := by
  decide

theorem Literal.scan_short {letter c : Char} (h : (letter, c) ∈ shortEscapes) (s : Text) :
    scan ('\\' :: letter :: s) = cons c.toNat (scan s) := by
  obtain ⟨hu, hletter⟩ := shortEscape?_of_mem _ h
  rw [scan, hletter] <;> intros <;> contradiction

theorem Literal.scan_unit {u : Text} {n : Nat} (h : WritesUnit u n) (s : Text) :
    scan ('\\' :: 'u' :: (u ++ s)) = cons n (scan s) := by
  obtain ⟨a, b, c, d, rfl, hunit⟩ := hexUnit?_of_writesUnit h
  simp only [List.cons_append, List.nil_append]
  rw [scan, hunit]

theorem spell_char_cons {ending : Except Fault Unit} {points : List Nat} {t : Text} (c : Char)
    (h : spell ending points = .ok t) : spell ending (c.toNat :: points) = .ok (c :: t) := by
  rw [spell_cons_toNat, h]
  rfl

theorem spell_pair_cons {ending : Except Fault Unit} {points : List Nat} {t : Text} {c : Char}
    (hc : 0x10000 ≤ c.toNat) (h : spell ending points = .ok t) :
    spell ending (highHalf c :: lowHalf c :: points) = .ok (c :: t) := by
  have hvalid : c.toNat < 0xd800 ∨ 0xdfff < c.toNat ∧ c.toNat < 0x110000 := c.valid
  have hfirst : isLow (highHalf c) = false := by
    rw [isLow, Bool.and_eq_false_iff, decide_eq_false_iff_not, decide_eq_false_iff_not, highHalf]
    omega
  have hhigh : isHigh (highHalf c) = true := by
    rw [isHigh, Bool.and_eq_true, decide_eq_true_eq, decide_eq_true_eq, highHalf]
    omega
  have hlow : isLow (lowHalf c) = true := by
    rw [isLow, Bool.and_eq_true, decide_eq_true_eq, decide_eq_true_eq, lowHalf]
    omega
  have hpair : pairChar (highHalf c) (lowHalf c) = c := by
    rw [pairChar, highHalf, lowHalf, Nat.add_sub_cancel_left, Nat.add_sub_cancel_left,
      show 0x10000 + (c.toNat - 0x10000) / 0x400 * 0x400 + (c.toNat - 0x10000) % 0x400 = c.toNat by omega,
      Char.ofNat_toNat]
  rw [spell.eq_def]
  simp only [hfirst, hhigh, hlow, h, hpair]
  rfl

/-- What is written between quotation marks for a text is scanned as a literal that spells the text. -/
theorem Literal.scan_of_writesText {s t : Text} (h : WritesText s t) :
    ∃ l : Literal, l.text = .ok t ∧ ∀ rest, scan (s ++ '"' :: rest) = (l, rest) := by
  induction h with
  | nil => exact ⟨⟨[], .ok ()⟩, rfl, fun rest => by rw [List.nil_append, scan]⟩
  | @plain c s t hquote hback hctrl _ ih =>
      obtain ⟨l, htext, hscan⟩ := ih
      refine ⟨⟨c.toNat :: l.points, l.ending⟩, spell_char_cons c htext, fun rest => ?_⟩
      rw [List.cons_append, scan_cons hquote hback hctrl, hscan, cons]
  | @short letter c s t hletter _ ih =>
      obtain ⟨l, htext, hscan⟩ := ih
      refine ⟨⟨c.toNat :: l.points, l.ending⟩, spell_char_cons c htext, fun rest => ?_⟩
      rw [List.cons_append, List.cons_append, scan_short hletter, hscan, cons]
  | @unit c u s t hu _ ih =>
      obtain ⟨l, htext, hscan⟩ := ih
      refine ⟨⟨c.toNat :: l.points, l.ending⟩, spell_char_cons c htext, fun rest => ?_⟩
      rw [List.cons_append, List.cons_append, List.append_assoc, scan_unit hu, hscan, cons]
  | @pair c u v s t hc hu hv _ ih =>
      obtain ⟨l, htext, hscan⟩ := ih
      refine ⟨⟨highHalf c :: lowHalf c :: l.points, l.ending⟩, spell_pair_cons hc htext, fun rest => ?_⟩
      rw [List.cons_append, List.cons_append, List.append_assoc, List.cons_append, List.cons_append, List.append_assoc,
        scan_unit hu, scan_unit hv, hscan, cons, cons]

theorem tokens_of_writesText {s t : Text} (h : WritesText s t) :
    ∃ l : Literal, l.text = .ok t ∧ ∀ rest, tokens ('"' :: (s ++ '"' :: rest)) = .string l :: tokens rest := by
  obtain ⟨l, htext, hscan⟩ := Literal.scan_of_writesText h
  refine ⟨l, htext, fun rest => ?_⟩
  have hlex : lex '"' (s ++ '"' :: rest) = (.string l, rest) := by
    rw [lex, hscan]
    rfl
  rw [tokens_cons rfl, hlex]

/-- A text with which no number goes on. -/
def Apart (s : Text) : Prop := ∀ c ∈ s.head?, c.isDigit = false ∧ c ≠ '.' ∧ c ≠ 'e' ∧ c ≠ 'E'

def NoDigit (s : Text) : Prop := ∀ c ∈ s.head?, c.isDigit = false

theorem isDigit_digitChar : ∀ d < 10, (Nat.digitChar d).isDigit = true := by
  decide

theorem digitValue_digitChar : ∀ d < 10, digitValue (Nat.digitChar d) = d := by
  decide

theorem digitChar_ne_sign : ∀ d < 10, Nat.digitChar d ≠ '-' ∧ Nat.digitChar d ≠ '+' := by
  decide

theorem digitChar_begins_number : ∀ d < 10, isBlank (Nat.digitChar d) = false ∧ mark? (Nat.digitChar d) = none ∧
    Nat.digitChar d ≠ '"' ∧ Nat.digitChar d ≠ 'n' ∧ Nat.digitChar d ≠ 't' ∧ Nat.digitChar d ≠ 'f' := by
  decide

theorem head_of_writesDigits {s : Text} {ds : List Nat} (h : WritesDigits s ds) :
    ∃ d < 10, ∃ s', s = Nat.digitChar d :: s' := by
  obtain ⟨hne, hlt, rfl⟩ := h
  obtain ⟨d, ds, rfl⟩ := List.exists_cons_of_ne_nil hne
  exact ⟨d, hlt d List.mem_cons_self, ds.map Nat.digitChar, rfl⟩

theorem digitsOf_of_writesDigits {s : Text} {ds : List Nat} (h : WritesDigits s ds) {rest : Text}
    (hrest : NoDigit rest) : digitsOf (s ++ rest) = .ok (ds, rest) := by
  obtain ⟨hne, hlt, rfl⟩ := h
  have hall : ∀ c ∈ ds.map Nat.digitChar, c.isDigit = true := by
    intro c hc
    obtain ⟨d, hd, rfl⟩ := List.mem_map.1 hc
    exact isDigit_digitChar d (hlt d hd)
  have hspan : rest.takeWhile Char.isDigit = [] ∧ rest.dropWhile Char.isDigit = rest := by
    cases rest with
    | nil => exact ⟨rfl, rfl⟩
    | cons c rest =>
        have hc : ¬c.isDigit = true := Bool.eq_false_iff.1 (hrest c rfl)
        exact ⟨List.takeWhile_cons_of_neg hc, List.dropWhile_cons_of_neg hc⟩
  have hvalues : (ds.map Nat.digitChar).map digitValue = ds := by
    rw [List.map_map]
    exact (List.map_congr_left fun d hd => digitValue_digitChar d (hlt d hd)).trans (List.map_id ds)
  have htake : (ds.map Nat.digitChar ++ rest).takeWhile Char.isDigit = ds.map Nat.digitChar := by
    rw [List.takeWhile_append_of_pos hall, hspan.1, List.append_nil]
  have hdrop : (ds.map Nat.digitChar ++ rest).dropWhile Char.isDigit = rest := by
    rw [List.dropWhile_append_of_pos hall, hspan.2]
  obtain ⟨d, ds, rfl⟩ := List.exists_cons_of_ne_nil hne
  rw [List.map_cons, List.cons_append] at htake hdrop ⊢
  rw [digitsOf.eq_def]
  simp only [htake, hdrop]
  rw [if_pos (hall _ List.mem_cons_self), ← List.map_cons, hvalues]

theorem wholeOf_of_writesDigits {s : Text} {ds : List Nat} (h : WritesDigits s ds)
    (hzero : ds.head? = some 0 → ds = [0]) {rest : Text} (hrest : NoDigit rest) :
    wholeOf (s ++ rest) = .ok (ds, rest) := by
  have hsingle : ¬(ds.head? = some 0 ∧ 1 < ds.length) := by
    rintro ⟨hhead, hlen⟩
    rw [hzero hhead] at hlen
    exact absurd hlen (by decide)
  rw [wholeOf, digitsOf_of_writesDigits h hrest]
  simp only [bind, Except.bind, if_neg hsingle]
  rfl

theorem fractionOf_of_writesFraction {s : Text} {o : Option (List Nat)} (h : WritesFraction s o) {rest : Text}
    (hrest : NoDigit rest) (hpoint : rest.head? ≠ some '.') : fractionOf (s ++ rest) = .ok (o, rest) := by
  cases h with
  | none =>
      rw [List.nil_append, fractionOf.eq_def]
      split
      · exact absurd rfl hpoint
      · rfl
  | some h =>
      rw [List.cons_append, fractionOf, digitsOf_of_writesDigits h hrest]
      rfl

theorem exponentOf_of_writesExponent {s : Text} {o : Option (Bool × List Nat)} (h : WritesExponent s o) {rest : Text}
    (hrest : Apart rest) : exponentOf (s ++ rest) = .ok (o, rest) := by
  cases h with
  | none =>
      cases rest with
      | nil => rfl
      | cons c rest =>
          obtain ⟨-, -, he, hE⟩ := hrest c rfl
          rw [List.nil_append, exponentOf, if_neg (not_or.2 ⟨he, hE⟩)]
  | @some letter sign s negative digits hletter hsign h =>
      have hdigits := digitsOf_of_writesDigits h fun c hc => (hrest c hc).1
      have hsignOf : signOf (sign ++ (s ++ rest)) = (negative, s ++ rest) := by
        cases hsign with
        | plus => rfl
        | minus => rfl
        | none =>
            obtain ⟨d, hd, s', rfl⟩ := head_of_writesDigits h
            obtain ⟨hminus, hplus⟩ := digitChar_ne_sign d hd
            rw [List.nil_append, List.cons_append, signOf]
            · intro _ heq
              exact hminus (List.cons.inj heq).1
            · intro _ heq
              exact hplus (List.cons.inj heq).1
      rw [List.cons_append, List.append_assoc, exponentOf, if_pos hletter, hsignOf, hdigits]
      rfl

theorem head_append_of_writesExponent {s : Text} {o : Option (Bool × List Nat)} (h : WritesExponent s o) {rest : Text}
    (hrest : Apart rest) : NoDigit (s ++ rest) ∧ (s ++ rest).head? ≠ some '.' := by
  cases h with
  | none => exact ⟨fun c hc => (hrest c hc).1, fun hpoint => (hrest '.' hpoint).2.1 rfl⟩
  | some hletter =>
      rcases hletter with rfl | rfl
      · exact ⟨fun c hc => by cases hc; rfl, by simp⟩
      · exact ⟨fun c hc => by cases hc; rfl, by simp⟩

theorem noDigit_append_of_writesFraction {s : Text} {o : Option (List Nat)} (h : WritesFraction s o) {rest : Text}
    (hrest : NoDigit rest) : NoDigit (s ++ rest) := by
  cases h with
  | none => exact hrest
  | some h => exact fun c hc => by cases hc; rfl

theorem Numeral.scan_of_writesNumber {s : Text} {n : Numeral} (h : WritesNumber s n) {rest : Text}
    (hrest : Apart rest) : scan (s ++ rest) = .ok (n, rest) := by
  cases h with
  | @parts _ whole fraction exponent hwhole hzero hfraction hexponent =>
      obtain ⟨hdigit, hpoint⟩ := head_append_of_writesExponent hexponent hrest
      have hw := wholeOf_of_writesDigits hwhole hzero (noDigit_append_of_writesFraction hfraction hdigit)
      have hf := fractionOf_of_writesFraction hfraction hdigit hpoint
      have he := exponentOf_of_writesExponent hexponent hrest
      obtain ⟨negative, ds, f, e⟩ := n
      simp only [List.append_assoc]
      cases negative with
      | true =>
          rw [if_pos rfl, List.cons_append, List.nil_append, scan]
          simp only [List.head?_cons, List.tail_cons, if_true, hw, hf, he, bind, Except.bind]
          rfl
      | false =>
          have hhead : (whole ++ (fraction ++ (exponent ++ rest))).head? ≠ some '-' := by
            obtain ⟨d, hd, s', rfl⟩ := head_of_writesDigits hwhole
            exact fun heq => (digitChar_ne_sign d hd).1 (Option.some.inj heq)
          rw [if_neg Bool.false_ne_true, List.nil_append, scan]
          simp only [hhead, if_false, hw, hf, he, bind, Except.bind]
          rfl

theorem head_of_writesNumber {s : Text} {n : Numeral} (h : WritesNumber s n) :
    ∃ c s', s = c :: s' ∧ (c = '-' ∨ ∃ d < 10, c = Nat.digitChar d) := by
  cases h with
  | @parts _ whole fraction exponent hwhole hzero hfraction hexponent =>
      obtain ⟨d, hd, s', rfl⟩ := head_of_writesDigits hwhole
      cases n.negative with
      | true => exact ⟨_, _, rfl, Or.inl rfl⟩
      | false => exact ⟨_, _, rfl, Or.inr ⟨d, hd, rfl⟩⟩

theorem tokens_of_writesNumber {s : Text} {n : Numeral} (h : WritesNumber s n) {rest : Text} (hrest : Apart rest) :
    tokens (s ++ rest) = .number (.ok n) :: tokens rest := by
  have hscan := Numeral.scan_of_writesNumber h hrest
  obtain ⟨c, s', rfl, hc⟩ := head_of_writesNumber h
  have hlex : isBlank c = false ∧ lex c (s' ++ rest) = numberToken (c :: (s' ++ rest)) := by
    rcases hc with rfl | ⟨d, hd, rfl⟩
    · exact ⟨rfl, rfl⟩
    · obtain ⟨hblank, hmark, hquote, hn, ht, hf⟩ := digitChar_begins_number d hd
      refine ⟨hblank, ?_⟩
      rw [lex, hmark]
      simp only [if_neg hquote, if_neg hn, if_neg ht, if_neg hf, if_pos (Or.inr (isDigit_digitChar d hd))]
  rw [List.cons_append] at hscan ⊢
  rw [tokens_cons hlex.1, hlex.2, numberToken, hscan]

theorem Apart.cons {c : Char} (hc : c = ',' ∨ c = ']' ∨ c = '\x7d') (s : Text) : Apart (c :: s) := by
  intro c' hc'
  cases hc'
  rcases hc with rfl | rfl | rfl <;> decide

theorem Apart.nil : Apart [] := fun _ hc => by cases hc

theorem Apart.append_of_blank {b : Text} (hb : Blank b) {s : Text} (h : Apart s) : Apart (b ++ s) := by
  cases b with
  | nil => exact h
  | cons c b =>
      intro c' hc'
      cases hc'
      have hblank := hb c List.mem_cons_self
      simp only [isBlank, Bool.or_eq_true, decide_eq_true_eq] at hblank
      rcases hblank with ((rfl | rfl) | rfl) | rfl <;> decide

mutual

/-- A tree is that of a value: its literals spell the texts of the value, and nothing in it is broken. -/
inductive Denotes : Document → Value → Prop where
  | null : Denotes .null .null
  | boolean (b : Bool) : Denotes (.boolean b) (.boolean b)
  | number (n : Numeral) : Denotes (.number (.ok n)) (.number n)
  | string {l : Literal} {t : Text} (h : l.text = .ok t) : Denotes (.string l) (.string t)
  | array {ds : List Document} {vs : List Value} (h : List.Forall₂ Denotes ds vs) :
      Denotes (.array ds (.ok ())) (.array vs)
  | object {ms : List Member} {ns : List (Text × Value)} (h : List.Forall₂ DenotesMember ms ns) :
      Denotes (.object ms (.ok ())) (.object ns)

inductive DenotesMember : Member → Text × Value → Prop where
  | parts {l : Literal} {d : Document} {t : Text} {v : Value} (hname : l.text = .ok t) (h : Denotes d v) :
      DenotesMember (l, d) (t, v)

end

theorem exists_spell_eq_error (f : Fault) (points : List Nat) : ∃ g, spell (.error f) points = .error g := by
  fun_induction spell (.error f) points with
  | case1 | case2 | case3 | case5 => exact ⟨_, rfl⟩
  | case4 _ _ _ _ _ _ ih | case6 _ _ _ _ ih =>
      obtain ⟨g, hg⟩ := ih
      exact ⟨g, by rw [hg]; rfl⟩

theorem Literal.ending_of_text {l : Literal} {t : Text} (h : l.text = .ok t) : l.ending = .ok () := by
  cases hl : l.ending with
  | ok _ => rfl
  | error f =>
      obtain ⟨g, hg⟩ := exists_spell_eq_error f l.points
      rw [text, hl, hg] at h
      cases h

theorem Denotes.skip {d : Document} {v : Value} (h : Denotes d v) : d.skip = .ok () := by
  cases h with
  | string h => exact Literal.ending_of_text h
  | _ => rfl

/-- A value may begin, to stand on the given stack. An array that has been opened may end instead. -/
def Due (state : State) (stack : List Frame) : Prop :=
  ∀ token, token ≠ .closeArray → state.step token = State.beginValue stack token

theorem due_value (stack : List Frame) : Due (.value stack) stack := fun _ _ => rfl

theorem due_element (stack : List Frame) : Due (.element stack) (.array [] :: stack) := by
  intro token htoken
  cases token with
  | closeArray => exact absurd rfl htoken
  | _ => rfl

theorem foldl_of_opening {c : Char} (token : Token) (hmark : mark? c = some token) (hblank : isBlank c = false)
    (htoken : token ≠ .closeArray) {state : State} {stack : List Frame} (hdue : Due state stack) (rest : Text) :
    (tokens (c :: rest)).foldl State.step state = (tokens rest).foldl State.step (State.beginValue stack token) := by
  rw [tokens_mark hmark hblank, List.foldl_cons, hdue token htoken]

/-- A text is taken for a tree wherever a value is due, if no number goes on behind it. -/
def ReadsAs (s : Text) (d : Document) : Prop :=
  ∀ rest, Apart rest → ∀ state stack, Due state stack →
    (tokens (s ++ rest)).foldl State.step state = (tokens rest).foldl State.step (.after d stack)

theorem readsAs_of_token {s : Text} {d : Document} (token : Token) (htoken : token ≠ .closeArray)
    (hbegin : ∀ stack, State.beginValue stack token = .after d stack)
    (h : ∀ rest, Apart rest → tokens (s ++ rest) = token :: tokens rest) : ReadsAs s d := by
  intro rest hrest state stack hdue
  rw [h rest hrest, List.foldl_cons, hdue token htoken, hbegin]

mutual

theorem readsAs_of_writesValue {s : Text} {v : Value} (h : WritesValue s v) : ∃ d, Denotes d v ∧ ReadsAs s d := by
  cases h with
  | null => exact ⟨_, .null, readsAs_of_token .null nofun (fun _ => rfl) fun _ _ => tokens_cons rfl _⟩
  | true =>
      exact ⟨_, .boolean true, readsAs_of_token (.boolean true) nofun (fun _ => rfl) fun _ _ => tokens_cons rfl _⟩
  | false =>
      exact ⟨_, .boolean false,
        readsAs_of_token (.boolean false) nofun (fun _ => rfl) fun _ _ => tokens_cons rfl _⟩
  | number h =>
      exact ⟨_, .number _, readsAs_of_token (.number (.ok _)) nofun (fun _ => rfl) fun rest hrest =>
        tokens_of_writesNumber h hrest⟩
  | string h =>
      obtain ⟨l, htext, htokens⟩ := tokens_of_writesText h
      refine ⟨_, .string htext, readsAs_of_token (.string l) nofun (fun _ => rfl) fun rest hrest => ?_⟩
      rw [List.append_assoc, List.cons_append]
      exact htokens rest
  | emptyArray h =>
      refine ⟨_, .array .nil, fun rest hrest state stack hdue => ?_⟩
      rw [List.append_assoc, List.cons_append, foldl_of_opening .openArray rfl rfl nofun hdue, State.beginValue,
        tokens_append_of_blank h, List.cons_append, List.nil_append, tokens_mark rfl rfl, List.foldl_cons, State.step]
  | array h =>
      obtain ⟨ds, hds, hreads⟩ := reads_of_writesElements h
      refine ⟨_, .array hds, fun rest hrest state stack hdue => ?_⟩
      rw [List.append_assoc, List.cons_append, foldl_of_opening .openArray rfl rfl nofun hdue, State.beginValue]
      exact hreads [] stack _ rest (due_element stack)
  | emptyObject h =>
      refine ⟨_, .object .nil, fun rest hrest state stack hdue => ?_⟩
      rw [List.append_assoc, List.cons_append, foldl_of_opening .openObject rfl rfl nofun hdue, State.beginValue,
        tokens_append_of_blank h, List.cons_append, List.nil_append, tokens_mark rfl rfl, List.foldl_cons, State.step]
  | object h =>
      obtain ⟨ms, hms, hreads⟩ := reads_of_writesMembers h
      refine ⟨_, .object hms, fun rest hrest state stack hdue => ?_⟩
      rw [List.append_assoc, List.cons_append, foldl_of_opening .openObject rfl rfl nofun hdue, State.beginValue]
      exact hreads [] stack rest

theorem reads_of_writesElements {s : Text} {vs : List Value} (h : WritesElements s vs) :
    ∃ ds, List.Forall₂ Denotes ds vs ∧ ∀ before stack state rest, Due state (.array before :: stack) →
      (tokens (s ++ ']' :: rest)).foldl State.step state =
        (tokens rest).foldl State.step (.after (.array (before.reverse ++ ds) (.ok ())) stack) := by
  cases h with
  | @last b s b' v hb h hb' =>
      obtain ⟨d, hd, hreads⟩ := readsAs_of_writesValue h
      refine ⟨[d], .cons hd .nil, fun before stack state rest hdue => ?_⟩
      have hrest : Apart (b' ++ ']' :: rest) := .append_of_blank hb' (.cons (.inr (.inl rfl)) rest)
      rw [List.append_assoc, List.append_assoc, tokens_append_of_blank hb, hreads _ hrest _ _ hdue,
        tokens_append_of_blank hb', tokens_mark rfl rfl, List.foldl_cons, State.step, State.goOn, List.reverse_cons]
  | @cons b s b' s' v vs hb h hb' hmore =>
      obtain ⟨d, hd, hreads⟩ := readsAs_of_writesValue h
      obtain ⟨ds, hds, hreads'⟩ := reads_of_writesElements hmore
      refine ⟨d :: ds, .cons hd hds, fun before stack state rest hdue => ?_⟩
      have hrest : Apart (b' ++ ',' :: (s' ++ ']' :: rest)) := .append_of_blank hb' (.cons (.inl rfl) _)
      rw [List.append_assoc, List.append_assoc, List.append_assoc, List.cons_append, tokens_append_of_blank hb,
        hreads _ hrest _ _ hdue, tokens_append_of_blank hb', tokens_mark rfl rfl, List.foldl_cons, State.step,
        State.goOn, hreads' _ _ _ _ (due_value _), List.reverse_cons, List.append_assoc]
      rfl

theorem reads_of_writesMember {s : Text} {n : Text × Value} (h : WritesMember s n) :
    ∃ m, DenotesMember m n ∧ ∀ before stack rest, Apart rest →
      (tokens (s ++ rest)).foldl State.step (.name before stack) =
        (tokens rest).foldl State.step (.after m.2 (.object before m.1 :: stack)) := by
  cases h with
  | @parts name b b' s t v hname hb hb' h =>
      obtain ⟨l, htext, htokens⟩ := tokens_of_writesText hname
      obtain ⟨d, hd, hreads⟩ := readsAs_of_writesValue h
      refine ⟨(l, d), .parts htext hd, fun before stack rest hrest => ?_⟩
      rw [List.cons_append, List.append_assoc, List.cons_append, List.append_assoc, List.cons_append,
        List.append_assoc, htokens, List.foldl_cons, step_name_string, tokens_append_of_blank hb, tokens_mark rfl rfl,
        List.foldl_cons, State.step, tokens_append_of_blank hb', hreads _ hrest _ _ (due_value _)]

theorem reads_of_writesMembers {s : Text} {ns : List (Text × Value)} (h : WritesMembers s ns) :
    ∃ ms, List.Forall₂ DenotesMember ms ns ∧ ∀ before stack rest,
      (tokens (s ++ '\x7d' :: rest)).foldl State.step (.name before stack) =
        (tokens rest).foldl State.step (.after (.object (before.reverse ++ ms) (.ok ())) stack) := by
  cases h with
  | @last b s b' n hb h hb' =>
      obtain ⟨m, hm, hreads⟩ := reads_of_writesMember h
      refine ⟨[m], .cons hm .nil, fun before stack rest => ?_⟩
      have hrest : Apart (b' ++ '\x7d' :: rest) := .append_of_blank hb' (.cons (.inr (.inr rfl)) rest)
      rw [List.append_assoc, List.append_assoc, tokens_append_of_blank hb, hreads _ _ _ hrest,
        tokens_append_of_blank hb', tokens_mark rfl rfl, List.foldl_cons, State.step, State.goOn, List.reverse_cons]
  | @cons b s b' s' n ns hb h hb' hmore =>
      obtain ⟨m, hm, hreads⟩ := reads_of_writesMember h
      obtain ⟨ms, hms, hreads'⟩ := reads_of_writesMembers hmore
      refine ⟨m :: ms, .cons hm hms, fun before stack rest => ?_⟩
      have hrest : Apart (b' ++ ',' :: (s' ++ '\x7d' :: rest)) := .append_of_blank hb' (.cons (.inl rfl) _)
      rw [List.append_assoc, List.append_assoc, List.append_assoc, List.cons_append, tokens_append_of_blank hb,
        hreads _ _ _ hrest, tokens_append_of_blank hb', tokens_mark rfl rfl, List.foldl_cons, State.step,
        State.goOn, hreads', List.reverse_cons, List.append_assoc]
      rfl

end

theorem parse_of_writes {s : Text} {v : Value} (h : Writes s v) : ∃ d, Denotes d v ∧ parse s = (d, .ok ()) := by
  obtain ⟨b, inner, b', hb, hinner, hb', rfl⟩ := h
  obtain ⟨d, hd, hreads⟩ := readsAs_of_writesValue hinner
  have hend : Apart b' := by
    have := Apart.append_of_blank hb' .nil
    rwa [List.append_nil] at this
  have hblank : tokens b' = [] := by
    have := tokens_append_of_blank hb' []
    rwa [List.append_nil, tokens_nil] at this
  refine ⟨d, hd, ?_⟩
  rw [parse, tokens_append_of_blank hb, hreads _ hend _ _ (due_value []), hblank, List.foldl_nil, State.finish, hd.skip]

theorem read_of_writes {α : Type} (ofDocument : Document → Except Fault α) {s : Text} {v : Value} (h : Writes s v) :
    ∃ d, Denotes d v ∧ read ofDocument s = ofDocument d := by
  obtain ⟨d, hd, hparse⟩ := parse_of_writes h
  refine ⟨d, hd, ?_⟩
  rw [read, hparse]
  cases hread : ofDocument d with
  | error f => simp only [hread, bind, Except.bind]
  | ok a =>
      simp only [hread, bind, Except.bind]
      rfl

end MinerInfo.Json
