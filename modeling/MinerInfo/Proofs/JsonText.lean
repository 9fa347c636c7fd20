import MinerInfo.Json.Form

/-! Written JSON and its trees. A text spells a tree if the machine takes it wherever a value is due, whatever
follows, and stands after that tree. Strings of characters that need no escape spell themselves, and an object spells
the tree of its members. The tree of a text is the one that it spells. -/

namespace MinerInfo.Json

/-- The characters of a text stand for themselves in a string. -/
def Plain (t : Text) : Prop := ∀ c ∈ t, c ≠ '"' ∧ c ≠ '\\' ∧ 0x20 ≤ c.toNat

theorem plain_of_all {t : Text} (h : (t.all fun c => c != '"' && c != '\\' && 0x20 ≤ c.toNat) = true) :
    Plain t := by
  intro c hc
  have hc := List.all_eq_true.1 h c hc
  simpa [and_assoc] using hc

/-- The literal that spells a text without escapes. -/
def Literal.plain (t : Text) : Literal := ⟨t.map Char.toNat, .ok ()⟩

theorem Literal.scan_cons {c : Char} (hquote : c ≠ '"') (hback : c ≠ '\\') (hctrl : 0x20 ≤ c.toNat)
    (s : Text) : scan (c :: s) = cons c.toNat (scan s) := by
  rw [scan, if_neg (Nat.not_lt.2 hctrl)] <;> intros <;> contradiction

/-- Characters that stand for themselves are put in front of what is scanned behind them. -/
theorem Literal.scan_append_of_plain {t : Text} (h : Plain t) (s : Text) :
    scan (t ++ s) = (⟨t.map Char.toNat ++ (scan s).1.points, (scan s).1.ending⟩, (scan s).2) := by
  induction t with
  | nil => rfl
  | cons c t ih =>
      obtain ⟨hquote, hback, hctrl⟩ := h c List.mem_cons_self
      rw [List.cons_append, scan_cons hquote hback hctrl, ih fun d hd => h d (List.mem_cons_of_mem c hd)]
      rfl

theorem Literal.scan_plain {t : Text} (h : Plain t) (rest : Text) :
    scan (t ++ '"' :: rest) = (plain t, rest) := by
  have hquote : scan ('"' :: rest) = (⟨[], .ok ()⟩, rest) := by rw [scan]
  rw [scan_append_of_plain h, hquote, List.append_nil]
  rfl

theorem not_surrogate (c : Char) : isLow c.toNat = false ∧ isHigh c.toNat = false := by
  have hvalid : c.toNat < 0xd800 ∨ 0xdfff < c.toNat ∧ c.toNat < 0x110000 := c.valid
  simp only [isLow, isHigh, Bool.and_eq_false_iff, decide_eq_false_iff_not]
  omega

theorem spell_cons_toNat (ending : Except Fault Unit) (c : Char) (points : List Nat) :
    spell ending (c.toNat :: points) = (spell ending points).map (c :: ·) := by
  obtain ⟨hlow, hhigh⟩ := not_surrogate c
  rw [spell.eq_def]
  simp only [hlow, hhigh, Char.ofNat_toNat]
  rfl

/-- Characters spell themselves, if nothing is wrong behind them. -/
theorem spell_map_toNat (ending : Except Fault Unit) (t : Text) :
    spell ending (t.map Char.toNat) = ending.map fun _ => t := by
  induction t with
  | nil => rw [List.map_nil, spell]
  | cons c t ih =>
      rw [List.map_cons, spell_cons_toNat, ih]
      cases ending <;> rfl

@[simp] theorem Literal.text_plain (t : Text) : (plain t).text = .ok t := spell_map_toNat (.ok ()) t

theorem tokens_nil : tokens [] = [] := tokens_of_blank rfl

theorem tokens_cons {c : Char} (h : isBlank c = false) (s : Text) :
    tokens (c :: s) = (lex c s).1 :: tokens (lex c s).2 :=
  tokens_of_cons (List.dropWhile_cons_of_neg (by simp [h]))

theorem tokens_string {t : Text} (h : Plain t) (rest : Text) :
    tokens (string t ++ rest) = .string (Literal.plain t) :: tokens rest := by
  have hscan := Literal.scan_plain h rest
  have hlex : lex '"' (t ++ '"' :: rest) = (.string (Literal.plain t), rest) := by
    rw [lex, hscan]
    rfl
  have happend : string t ++ rest = '"' :: (t ++ '"' :: rest) := by simp [string]
  rw [happend, tokens_cons rfl, hlex]

theorem tokens_mark {c : Char} {token : Token} (hmark : mark? c = some token) (hblank : isBlank c = false)
    (rest : Text) : tokens (c :: rest) = token :: tokens rest := by
  rw [tokens_cons hblank, lex, hmark]

/-- A text is that of a value: where a value is due, the text is taken as that value, whatever follows it. -/
def Spells (s : Text) (d : Document) : Prop :=
  ∀ rest stack, (tokens (s ++ rest)).foldl State.step (.value stack) =
    (tokens rest).foldl State.step (.after d stack)

theorem spells_string {t : Text} (h : Plain t) : Spells (string t) (.string (.plain t)) := by
  intro rest stack
  rw [tokens_string h]
  rfl

/-- A member of an object as it is written: its name, the text of its value, and the tree of that text. It is
sound if the name needs no escape and the text spells the tree. -/
structure Property where
  name : Text
  text : Text
  value : Document

def Property.Sound (e : Property) : Prop := Plain e.name ∧ Spells e.text e.value

def Property.pair (e : Property) : Text × Text := (e.name, e.text)

def Property.member (e : Property) : Member := (.plain e.name, e.value)

theorem step_name_string (before : List Member) (stack : List Frame) (l : Literal) :
    State.step (.name before stack) (.string l) = .colon before l stack := by
  cases before <;> rfl

theorem foldl_property {e : Property} (h : e.Sound) (before : List Member) (stack : List Frame) (rest : Text) :
    (tokens (string e.name ++ ':' :: e.text ++ rest)).foldl State.step (.name before stack) =
      (tokens rest).foldl State.step (.after e.value (.object before (.plain e.name) :: stack)) := by
  obtain ⟨hname, htext⟩ := h
  rw [List.append_assoc, List.cons_append, tokens_string hname, tokens_mark rfl rfl, List.foldl_cons,
    List.foldl_cons, step_name_string, State.step, htext]

/-- From a place where a member may begin, the members of an object are taken up to its end. -/
theorem foldl_members (es : List Property) (hne : es ≠ []) (h : ∀ e ∈ es, e.Sound) (before : List Member)
    (stack : List Frame) (rest : Text) :
    (tokens (members (es.map Property.pair) ++ '\x7d' :: rest)).foldl State.step (.name before stack) =
      (tokens rest).foldl State.step
        (.after (.object (before.reverse ++ es.map Property.member) (.ok ())) stack) := by
  induction es generalizing before with
  | nil => exact absurd rfl hne
  | cons e es ih =>
      have he := h e List.mem_cons_self
      have hes : ∀ e ∈ es, e.Sound := fun e' he' => h e' (List.mem_cons_of_mem e he')
      -- the last member is closed by the bracket, any other by a comma
      cases es with
      | nil =>
          have htext : members (List.map Property.pair [e]) = string e.name ++ ':' :: e.text := rfl
          rw [htext, foldl_property he, tokens_mark rfl rfl, List.foldl_cons, State.step, State.goOn]
          simp [Property.member]
      | cons e' es =>
          have htext : members (List.map Property.pair (e :: e' :: es)) ++ '\x7d' :: rest =
              string e.name ++ ':' :: e.text ++
                ',' :: (members (List.map Property.pair (e' :: es)) ++ '\x7d' :: rest) := by
            simp [members, Property.pair]
          rw [htext, foldl_property he, tokens_mark rfl rfl, List.foldl_cons, State.step, State.goOn,
            ih (List.cons_ne_nil _ _) hes]
          simp [Property.member]

theorem spells_object {es : List Property} (h : ∀ e ∈ es, e.Sound) :
    Spells (object (es.map Property.pair)) (.object (es.map Property.member) (.ok ())) := by
  intro rest stack
  have htext : object (es.map Property.pair) ++ rest =
      '\x7b' :: (members (es.map Property.pair) ++ '\x7d' :: rest) := by
    simp [object]
  rw [htext, tokens_mark rfl rfl, List.foldl_cons, State.step, State.beginValue]
  cases es with
  | nil =>
      simp only [List.map_nil, members, List.nil_append]
      rw [tokens_mark rfl rfl, List.foldl_cons, State.step]
  | cons e es => exact foldl_members (e :: es) (List.cons_ne_nil _ _) h [] stack rest

theorem parse_of_spells {s : Text} {d : Document} (h : Spells s d) : parse s = (d, d.skip) := by
  have hfold := h [] []
  rw [List.append_nil, tokens_nil, List.foldl_nil] at hfold
  rw [parse, hfold, State.finish]

theorem read_of_spells {α : Type} {ofDocument : Document → Except Fault α} {s : Text} {d : Document} {a : α}
    (h : Spells s d) (hskip : d.skip = .ok ()) (hread : ofDocument d = .ok a) : read ofDocument s = .ok a := by
  rw [read, parse_of_spells h, hskip]
  simp only [hread]
  rfl

end MinerInfo.Json
