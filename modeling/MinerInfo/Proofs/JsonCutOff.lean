import MinerInfo.Proofs.JsonFirstFault

/-! What is written in JSON and cut off is found to be cut off. Wherever a text breaks off in a value, the machine ends
in a tree that is truncated there, and its reader comes to this place before anything else can be wrong: a string that
is not closed is not looked at for digits, and an object that is not closed is not looked at for missing members. A cut
of an object falls between two of its members, into the name of one, or into its value. -/

namespace MinerInfo

open Json

namespace Json

/-- A beginning of a text that is not all of it. -/
def Cut (p s : Text) : Prop := p <+: s ∧ p ≠ s

/-- A beginning of two texts in a row is a cut of the first, or it reaches to its end. -/
theorem cut_or_append {p a b : Text} (h : p <+: a ++ b) : Cut p a ∨ ∃ q, p = a ++ q ∧ q <+: b := by
  rcases List.prefix_or_prefix_of_prefix h (List.prefix_append a b) with hp | ⟨q, rfl⟩
  · by_cases heq : p = a
    · exact Or.inr ⟨[], by rw [heq, List.append_nil], List.nil_prefix⟩
    · exact Or.inl ⟨hp, heq⟩
  · exact Or.inr ⟨q, rfl, (List.prefix_append_right_inj a).1 h⟩

theorem cut_cons {p s : Text} {c : Char} (h : Cut p (c :: s)) : p = [] ∨ ∃ q, p = c :: q ∧ Cut q s := by
  obtain ⟨hpre, hne⟩ := h
  rcases List.prefix_cons_iff.1 hpre with rfl | ⟨q, rfl, hq⟩
  · exact Or.inl rfl
  · exact Or.inr ⟨q, rfl, hq, fun heq => hne (heq ▸ rfl)⟩

theorem prefix_of_cut_concat {p s : Text} {c : Char} (h : Cut p (s ++ [c])) : p <+: s :=
  (List.prefix_concat_iff.1 h.1).resolve_left h.2

/-- A text that breaks off where a value is due. Its tree is truncated at that place, and this is what the reader of the
value finds. -/
def BreaksOff {α : Type} (reader : Document → Except Fault α) (p : Text) : Prop :=
  ∀ stack, ∃ d, ((tokens p).foldl State.step (.value stack)).finish = (cutOff .truncated d stack, .error .truncated) ∧
    reader d = .error .truncated

theorem read_of_breaksOff {α : Type} {reader : Document → Except Fault α} {p : Text} (h : BreaksOff reader p) :
    Json.read reader p = .error .truncated := by
  obtain ⟨d, hfinish, hread⟩ := h []
  rw [Json.read, parse, hfinish]
  show (reader d >>= fun v => Except.error Fault.truncated >>= fun _ => pure v) = .error .truncated
  rw [hread]
  rfl

theorem finish_after_cons (v : Document) (frame : Frame) (stack : List Frame) :
    (State.after v (frame :: stack)).finish =
      (cutOff (faultOr v.skip) v (frame :: stack), .error (faultOr v.skip)) := rfl

theorem breaksOff_nil {α : Type} {reader : Document → Except Fault α}
    (h : reader (.broken .truncated) = .error .truncated) : BreaksOff reader [] := by
  intro stack
  refine ⟨.broken .truncated, ?_, h⟩
  rw [tokens_nil]
  rfl

/-- The literal of a string that is not closed. -/
def Literal.unclosed (t : Text) : Literal := ⟨t.map Char.toNat, .error .truncated⟩

theorem Literal.scan_unclosed {t : Text} (h : Plain t) : scan t = (unclosed t, []) := by
  have hend : scan [] = (⟨[], .error .truncated⟩, []) := by rw [scan]; rfl
  have hscan := scan_append_of_plain h []
  rwa [List.append_nil, hend, List.append_nil] at hscan

@[simp] theorem Literal.text_unclosed (t : Text) : (unclosed t).text = .error .truncated :=
  spell_map_toNat (.error .truncated) t

theorem tokens_unclosed {t : Text} (h : Plain t) : tokens ('"' :: t) = [.string (.unclosed t)] := by
  have hlex : lex '"' t = (.string (.unclosed t), []) := by
    rw [lex, Literal.scan_unclosed h]
    rfl
  rw [tokens_cons rfl, hlex, tokens_nil]

theorem cut_string {p t : Text} (ht : Plain t) (h : Cut p (string t)) : p = [] ∨ ∃ q, p = '"' :: q ∧ Plain q := by
  rcases cut_cons h with hnil | ⟨q, rfl, hq⟩
  · exact Or.inl hnil
  · exact Or.inr ⟨q, rfl, fun c hc => ht c ((prefix_of_cut_concat hq).subset hc)⟩

theorem breaksOff_string {α : Type} {expected : Text} {decode : Text → Except Hex.Fault α} {p t : Text}
    (ht : Plain t) (h : Cut p (string t)) : BreaksOff (Document.hex expected decode) p := by
  rcases cut_string ht h with rfl | ⟨q, rfl, hq⟩
  · exact breaksOff_nil rfl
  · intro stack
    refine ⟨.string (.unclosed q), ?_, ?_⟩
    · rw [tokens_unclosed hq]
      cases stack <;> rfl
    · rw [Document.hex, Document.text, Literal.text_unclosed]
      rfl

/-- What stands behind a member: the others, with a comma in front, if there are any. -/
def others (ms : List (Text × Text)) : Text := if ms = [] then [] else ',' :: members ms

theorem members_cons (m : Text × Text) (ms : List (Text × Text)) :
    members (m :: ms) = string m.1 ++ ':' :: m.2 ++ others ms := by
  cases ms with
  | nil => simp [members, others]
  | cons m' ms => simp [members, others]

theorem prefix_others {p : Text} {ms : List (Text × Text)} (h : p <+: others ms) :
    p = [] ∨ ∃ q, p = ',' :: q ∧ q <+: members ms := by
  unfold others at h
  split at h
  · exact Or.inl (List.prefix_nil.1 h)
  · exact List.prefix_cons_iff.1 h

namespace Record

variable {α : Type} (R : Record α)

/-- A member that writes a field: whole it is read, and the reader of the field finds where its value breaks off. -/
structure WritesField (f : R.Field) (e : Property) : Prop where
  name_eq : e.name = R.label f
  sound : e.Sound
  skip : e.value.skip = .ok ()
  reads : ∃ x, R.read f e.value = .ok x
  broken : R.read f (.broken .truncated) = .error .truncated
  breaksOff {p : Text} (h : Cut p e.text) : BreaksOff (R.read f) p

/-- The members of an object that breaks off: first those of some fields, and then perhaps one of which the name or the
value breaks off. -/
inductive MembersCut (property : R.Field → Property) : List R.Field → List Member → Prop where
  | between {fs : List R.Field} : MembersCut property fs []
  | name {f : R.Field} {fs : List R.Field} {l : Literal} {d : Document} (hname : l.text = .error .truncated) :
      MembersCut property (f :: fs) [(l, d)]
  | value {f : R.Field} {fs : List R.Field} {l : Literal} {d : Document} (hname : l.text = .ok (R.label f))
      (hread : R.read f d = .error .truncated) : MembersCut property (f :: fs) [(l, d)]
  | member {f : R.Field} {fs : List R.Field} {ms : List Member} (h : MembersCut property fs ms) :
      MembersCut property (f :: fs) ((property f).member :: ms)

variable {R} {property : R.Field → Property}

theorem WritesField.text_name {f : R.Field} {e : Property} (h : R.WritesField f e) :
    (Literal.plain e.name).text = .ok (R.label f) := by
  rw [Literal.text_plain, h.name_eq]

/-- The state in which the machine ends when the members of an object break off. -/
def EndsIn (before ms : List Member) (stack : List Frame) (state : State) : Prop :=
  state.finish = (cutOff .truncated (.object (before.reverse ++ ms) (.error .truncated)) stack, .error .truncated)

theorem exists_membersCut_of_cut {f : R.Field} {p : Text} (he : R.WritesField f (property f))
    (h : Cut p (string (property f).name ++ ':' :: (property f).text)) (fs : List R.Field) (before : List Member)
    (stack : List Frame) :
    ∃ ms, R.MembersCut property (f :: fs) ms ∧
      EndsIn before ms stack ((tokens p).foldl State.step (.name before stack)) := by
  obtain ⟨hpre, hne⟩ := h
  -- the cut falls into the name, between the name and the colon, or behind the colon into the value
  rcases cut_or_append hpre with hname | ⟨q, rfl, hq⟩
  · rcases cut_string he.sound.1 hname with rfl | ⟨q, rfl, hq⟩
    · refine ⟨[], .between, ?_⟩
      rw [tokens_nil, List.foldl_nil, EndsIn, List.append_nil]
      rfl
    · refine ⟨[(.unclosed q, .broken .truncated)], .name (Literal.text_unclosed q), ?_⟩
      rw [tokens_unclosed hq, List.foldl_cons, step_name_string, EndsIn, ← List.reverse_cons]
      rfl
  · rw [tokens_string he.sound.1, List.foldl_cons, step_name_string]
    rcases List.prefix_cons_iff.1 hq with rfl | ⟨q, rfl, hq'⟩
    · refine ⟨[(.plain (property f).name, .broken .truncated)], .value he.text_name he.broken, ?_⟩
      rw [tokens_nil, EndsIn, ← List.reverse_cons]
      rfl
    · have hcut : Cut q (property f).text := ⟨hq', fun heq => hne (heq ▸ rfl)⟩
      obtain ⟨d, hfinish, hread⟩ := he.breaksOff hcut (.object before (.plain (property f).name) :: stack)
      refine ⟨[(.plain (property f).name, d)], .value he.text_name hread, ?_⟩
      rw [tokens_mark rfl rfl, List.foldl_cons, State.step, EndsIn, hfinish, cutOff, List.reverse_cons]

/-- Members that break off leave the object as some of them, of which the last one may be broken. -/
theorem exists_membersCut (hwrites : ∀ f, R.WritesField f (property f)) (fs : List R.Field) {p : Text}
    (h : p <+: members ((fs.map property).map Property.pair)) (before : List Member) (stack : List Frame) :
    ∃ ms, R.MembersCut property fs ms ∧ EndsIn before ms stack ((tokens p).foldl State.step (.name before stack)) := by
  induction fs generalizing p before with
  | nil =>
      obtain rfl := List.prefix_nil.1 h
      refine ⟨[], .between, ?_⟩
      rw [tokens_nil, List.foldl_nil, EndsIn, List.append_nil]
      rfl
  | cons f fs ih =>
      have he := hwrites f
      rw [List.map_cons, List.map_cons, members_cons] at h
      rcases cut_or_append h with hcut | ⟨q, rfl, hq⟩
      · exact exists_membersCut_of_cut he hcut fs before stack
      -- the first member is whole and joins those before, and the cut is one of the members behind it
      · show ∃ ms, _ ∧ EndsIn before ms stack
          ((tokens (string (property f).name ++ ':' :: (property f).text ++ q)).foldl State.step (.name before stack))
        rw [foldl_property he.sound]
        rcases prefix_others hq with rfl | ⟨q, rfl, hq'⟩
        · refine ⟨[(property f).member], .member .between, ?_⟩
          rw [tokens_nil, List.foldl_nil, EndsIn, finish_after_cons, he.skip, ← List.reverse_cons]
          rfl
        · obtain ⟨ms, hms, hends⟩ := ih hq' ((property f).member :: before)
          refine ⟨(property f).member :: ms, .member hms, ?_⟩
          rw [tokens_mark rfl rfl, List.foldl_cons, State.step, State.goOn]
          rw [EndsIn, List.reverse_cons, List.append_assoc] at hends
          exact hends

theorem accept_of_unclosed_name {draft : R.Draft} {m : Member} {fault : Fault} (hname : m.1.text = .error fault) :
    draft.accept m = .error fault := by
  rw [Draft.accept, hname]
  rfl

/-- Members that break off are taken as far as they go, or the place is met where one of them does. -/
theorem foldlM_accept_of_membersCut (hR : R.Lawful) (hwrites : ∀ f, R.WritesField f (property f)) {fs : List R.Field}
    {ms : List Member} (h : R.MembersCut property fs ms) (hnodup : fs.Nodup) (draft : R.Draft)
    (hopen : ∀ f ∈ fs, draft f = none) :
    ms.foldlM Draft.accept draft = .error .truncated ∨ ∃ next, ms.foldlM Draft.accept draft = .ok next := by
  induction h generalizing draft with
  | between => exact Or.inr ⟨draft, rfl⟩
  | name hname =>
      left
      rw [List.foldlM_cons, accept_of_unclosed_name hname]
      rfl
  | value hname hread =>
      left
      rw [List.foldlM_cons, accept_of_rejected hR hname (hopen _ List.mem_cons_self) hread]
      rfl
  | @member f fs ms _ ih =>
      obtain ⟨hnew, hrest⟩ := List.nodup_cons.1 hnodup
      obtain ⟨x, hx⟩ := (hwrites f).reads
      have hput : ∀ g ∈ fs, draft.put f x g = none := by
        intro g hg
        have hne : g ≠ f := fun heq => hnew (heq ▸ hg)
        rw [put_of_ne draft hne, hopen g (List.mem_cons_of_mem f hg)]
      have haccept := accept_field hR.label_injective (m := (property f).member) (hwrites f).text_name
        (hopen f List.mem_cons_self) hx
      rw [List.foldlM_cons, haccept]
      exact ih hrest (draft.put f x) hput

theorem ofDocument_of_membersCut (hR : R.Lawful) (hwrites : ∀ f, R.WritesField f (property f)) (hnodup : R.fields.Nodup)
    {ms : List Member} (h : R.MembersCut property R.fields ms) :
    R.ofDocument (.object ms (.error .truncated)) = .error .truncated := by
  rcases foldlM_accept_of_membersCut hR hwrites h hnodup R.blank fun _ _ => rfl with hfold | ⟨draft, hfold⟩
  · rw [ofDocument, hfold]
    rfl
  · rw [ofDocument, hfold]
    rfl

/-- The object of a record breaks off wherever it is cut. -/
theorem breaksOff_object (hR : R.Lawful) (hwrites : ∀ f, R.WritesField f (property f)) (hnodup : R.fields.Nodup)
    {p : Text} (h : Cut p (object ((R.fields.map property).map Property.pair))) : BreaksOff R.ofDocument p := by
  rcases cut_cons h with rfl | ⟨q, rfl, hq⟩
  · exact breaksOff_nil rfl
  · intro stack
    obtain ⟨ms, hms, hends⟩ := exists_membersCut hwrites R.fields (prefix_of_cut_concat hq) [] stack
    refine ⟨.object ms (.error .truncated), ?_, ofDocument_of_membersCut hR hwrites hnodup hms⟩
    rw [tokens_mark rfl rfl, List.foldl_cons, State.step, State.beginValue]
    exact hends

end Record

end Json

theorem Hash.breaksOff_of_cut {h : Hash} {p : Text} (hp : Cut p h.toJson) : BreaksOff ofDocument p := by
  have hplain : Plain h.shown := by
    rw [shown_eq_displayHex]
    exact Hex.plain_encode _
  exact breaksOff_string hplain hp

namespace BlockBinding

theorem writesField (b : BlockBinding) (f : Field) : record.WritesField f (b.property f) where
  name_eq := rfl
  sound := ⟨plain_label f, b.spells_text f⟩
  skip := by cases f <;> rfl
  reads := ⟨b.value f, b.read_tree f⟩
  broken := by cases f <;> rfl
  breaksOff {p} hp := by
    cases f with
    | modifiedMerkleRoot => exact Hash.breaksOff_of_cut hp
    | previousBlock => exact Hash.breaksOff_of_cut hp
    | signature => exact breaksOff_string (Hex.plain_encode b.signature) hp

theorem breaksOff_of_cut {b : BlockBinding} {p : Text} (hp : Cut p b.toJson) : BreaksOff ofDocument p :=
  record.breaksOff_object record_lawful b.writesField (by decide) hp

end BlockBinding

namespace Reference

theorem writesField (r : Reference) (f : Field) : record.WritesField f (r.property f) where
  name_eq := rfl
  sound := ⟨plain_label f, r.spells_text f⟩
  skip := by cases f <;> rfl
  reads := ⟨r.value f, r.read_tree f⟩
  broken := by cases f <;> rfl
  breaksOff {p} hp := by
    cases f with
    | txid => exact Hash.breaksOff_of_cut hp
    | binding => exact BlockBinding.breaksOff_of_cut hp

theorem breaksOff_of_cut {r : Reference} {p : Text} (hp : Cut p r.toJson) : BreaksOff ofDocument p :=
  record.breaksOff_object record_lawful r.writesField (by decide) hp

end Reference

/-- The JSON of a hash, of a binding with a signature of any length, or of a reference is truncated wherever it is cut
off, the place in front of its first character among them. -/
theorem ofJson_of_cut :
    (∀ (h : Hash) (p : Text), p <+: h.toJson → p ≠ h.toJson → Hash.ofJson p = .error .truncated) ∧
    (∀ (b : BlockBinding) (p : Text), p <+: b.toJson → p ≠ b.toJson → BlockBinding.ofJson p = .error .truncated) ∧
    ∀ (r : Reference) (p : Text), p <+: r.toJson → p ≠ r.toJson → Reference.ofJson p = .error .truncated := by
  refine ⟨fun h p hpre hne => ?_, fun b p hpre hne => ?_, fun r p hpre hne => ?_⟩
  · exact read_of_breaksOff (Hash.breaksOff_of_cut ⟨hpre, hne⟩)
  · exact read_of_breaksOff (BlockBinding.breaksOff_of_cut ⟨hpre, hne⟩)
  · exact read_of_breaksOff (Reference.breaksOff_of_cut ⟨hpre, hne⟩)

/-- Cuts in front of everything, in front of the last bracket, and behind one of the two digits of a signature. -/
theorem ofJson_of_half_byte :
    let b : BlockBinding := ⟨.zero, .zero, [0xab]⟩
    let r : Reference := ⟨.zero, b⟩
    let p := r.toJson.take (r.toJson.length - 4)
    Hash.ofJson [] = .error .truncated ∧ BlockBinding.ofJson b.toJson.dropLast = .error .truncated ∧
      p <+: r.toJson ∧ p ≠ r.toJson ∧ p.getLast? = some 'a' ∧ Reference.ofJson p = .error .truncated := by
  intro b r p
  obtain ⟨hhash, hbinding, hreference⟩ := ofJson_of_cut
  have hp : p <+: r.toJson := List.take_prefix _ _
  have hne : p ≠ r.toJson := by decide +kernel
  have hlast : b.toJson.dropLast ≠ b.toJson := by decide +kernel
  refine ⟨hhash .zero [] List.nil_prefix (by decide), ?_, hp, hne, by decide +kernel, hreference r p hp hne⟩
  exact hbinding b _ (List.dropLast_prefix _) hlast

end MinerInfo
