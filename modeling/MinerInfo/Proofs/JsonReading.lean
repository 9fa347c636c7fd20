import MinerInfo.Proofs.JsonFields
import MinerInfo.Proofs.JsonRoundTrip

/-! Which JSON texts are read as bindings and references, and as which. A text is read as its value, and of the value
only the strings that it gives for the names of the fields count: neither the form and the order in which they stand,
nor what stands beside them, nor the case of their digits. -/

namespace MinerInfo

open Json

/-- A value is a string of the given hexadecimal digits, its letters small or large. -/
def Json.Value.IsHex (written : Text) (v : Value) : Prop := ∃ t, v = .string t ∧ Hex.lower t = written

theorem Json.Denotes.text_eq_ok_iff {expected t : Text} {d : Document} {v : Value} (hd : Denotes d v) :
    d.text expected = .ok t ↔ v = .string t := by
  cases hd with
  | string h =>
      rw [Document.text, h, Except.ok.injEq, Value.string.injEq]
  | _ => simp [Document.text]

/-- The fault of a string of which the text has a fault. -/
def Json.Fault.ofHex (f : Hex.Fault) : Fault := .misfit (.badHex f)

theorem Json.Denotes.hex_of_string {α : Type} {expected t : Text} {decode : Text → Except Hex.Fault α} {d : Document}
    (hd : Denotes d (.string t)) : d.hex expected decode = (decode t).mapError Fault.ofHex := by
  rw [Document.hex, hd.text_eq_ok_iff.2 rfl]
  simp only [bind, Except.bind]
  cases decode t with
  | ok a => rfl
  | error f => rfl

theorem Json.Denotes.hex_eq_ok_iff {α : Type} {expected : Text} {decode : Text → Except Hex.Fault α} {d : Document}
    {v : Value} (hd : Denotes d v) {a : α} : d.hex expected decode = .ok a ↔ ∃ t, v = .string t ∧ decode t = .ok a := by
  rw [Document.hex, bind_eq_ok_iff]
  simp only [hd.text_eq_ok_iff]
  refine exists_congr fun t => and_congr_right fun _ => ?_
  cases decode t with
  | error f => exact iff_of_false ok_ne_error.symm ok_ne_error.symm
  | ok x =>
      show (Except.ok x : Except Fault α) = .ok a ↔ _
      rw [Except.ok.injEq, Except.ok.injEq]

theorem Hash.ofDocument_eq_ok_iff {d : Document} {v : Value} (hd : Denotes d v) {h : Hash} :
    ofDocument d = .ok h ↔ v.IsHex h.displayHex := by
  rw [ofDocument, hd.hex_eq_ok_iff]
  exact exists_congr fun t => and_congr_right fun _ => ofDisplayHex_eq_ok_iff

/-- The names of the fields of a binding. -/
def BlockBinding.names : List Text :=
  ["modified_merkle_root".toList, "prev_block_hash".toList, "sig".toList]

/-- A value that is the given binding: an array of three strings of digits, or an object that has such strings under
three names, each of these once. -/
def Json.Value.IsBinding (v : Value) (b : BlockBinding) : Prop :=
  ∃ root previous signature, v.Gives BlockBinding.names [root, previous, signature] ∧
    root.IsHex b.modifiedMerkleRoot.displayHex ∧ previous.IsHex b.previousBlock.displayHex ∧
    signature.IsHex (Hex.encode b.signature)

/-- The digits that are written for a field. -/
def BlockBinding.written : (f : Field) → f.Value → Text
  | .modifiedMerkleRoot, h => Hash.displayHex h
  | .previousBlock, h => Hash.displayHex h
  | .signature, bytes => Hex.encode bytes

theorem BlockBinding.record_read_eq_ok_iff {f : Field} {d : Document} {v : Value} {x : f.Value} (hd : Denotes d v) :
    record.read f d = .ok x ↔ v.IsHex (written f x) := by
  cases f with
  | modifiedMerkleRoot => exact Hash.ofDocument_eq_ok_iff hd
  | previousBlock => exact Hash.ofDocument_eq_ok_iff hd
  | signature =>
      exact hd.hex_eq_ok_iff.trans (exists_congr fun t => and_congr_right fun _ => Hex.decode_eq_ok_iff)

theorem BlockBinding.ofDocument_eq_ok_iff {d : Document} {v : Value} (hd : Denotes d v) {b : BlockBinding} :
    ofDocument d = .ok b ↔ v.IsBinding b := by
  refine (record.ofDocument_eq_ok_iff label_injective (by decide) record_read_eq_ok_iff hd).trans ⟨?_, ?_⟩
  · rintro ⟨vs, x, hgives, hmeans, rfl⟩
    obtain ⟨root, _, hroot, hmore, rfl⟩ := List.forall₂_cons_left_iff.1 hmeans
    obtain ⟨previous, _, hprevious, hlast, rfl⟩ := List.forall₂_cons_left_iff.1 hmore
    obtain ⟨signature, _, hsignature, hnil, rfl⟩ := List.forall₂_cons_left_iff.1 hlast
    obtain rfl := List.forall₂_nil_left_iff.1 hnil
    exact ⟨root, previous, signature, hgives, hroot, hprevious, hsignature⟩
  · rintro ⟨root, previous, signature, hgives, hroot, hprevious, hsignature⟩
    exact ⟨_, b.value, hgives, .cons hroot (.cons hprevious (.cons hsignature .nil)), rfl⟩

def Reference.names : List Text := ["txid".toList, "block_bind".toList]

/-- A value that is the given reference: an array of a string of digits and a binding, or an object that has these
under two names, each of them once. -/
def Json.Value.IsReference (v : Value) (r : Reference) : Prop :=
  ∃ txid binding, v.Gives Reference.names [txid, binding] ∧ txid.IsHex r.txid.displayHex ∧
    binding.IsBinding r.binding

/-- What a field is, said of the value that is read for it. -/
def Reference.Means : (f : Field) → Value → f.Value → Prop
  | .txid, v, h => v.IsHex (Hash.displayHex h)
  | .binding, v, b => v.IsBinding b

theorem Reference.record_read_eq_ok_iff {f : Field} {d : Document} {v : Value} {x : f.Value} (hd : Denotes d v) :
    record.read f d = .ok x ↔ Means f v x := by
  cases f with
  | txid => exact Hash.ofDocument_eq_ok_iff hd
  | binding => exact BlockBinding.ofDocument_eq_ok_iff hd

theorem Reference.ofDocument_eq_ok_iff {d : Document} {v : Value} (hd : Denotes d v) {r : Reference} :
    ofDocument d = .ok r ↔ v.IsReference r := by
  refine (record.ofDocument_eq_ok_iff label_injective (by decide) record_read_eq_ok_iff hd).trans ⟨?_, ?_⟩
  · rintro ⟨vs, x, hgives, hmeans, rfl⟩
    obtain ⟨txid, _, htxid, hlast, rfl⟩ := List.forall₂_cons_left_iff.1 hmeans
    obtain ⟨binding, _, hbinding, hnil, rfl⟩ := List.forall₂_cons_left_iff.1 hlast
    obtain rfl := List.forall₂_nil_left_iff.1 hnil
    exact ⟨txid, binding, hgives, htxid, hbinding⟩
  · rintro ⟨txid, binding, hgives, htxid, hbinding⟩
    exact ⟨_, r.value, hgives, .cons htxid (.cons hbinding .nil), rfl⟩

theorem Json.Value.Gives.unique {names : List Text} {v : Value} {vs ws : List Value} (h : v.Gives names vs)
    (h' : v.Gives names ws) : vs = ws := by
  cases h with
  | array _ =>
      cases h'
      rfl
  | object h =>
      cases h' with
      | object h' =>
          refine List.right_unique_forall₂' ?_ h h'
          intro name v w hv hw
          rw [hv] at hw
          cases hw
          rfl

/-- Two strings that differ in the case of their digits only. -/
def Json.Value.SameHex (v w : Value) : Prop :=
  ∃ t u, v = .string t ∧ w = .string u ∧ Hex.lower t = Hex.lower u

/-- Two values that give the same strings for the fields of a binding. -/
def Json.Value.SameBinding (v w : Value) : Prop :=
  ∃ root previous signature root' previous' signature',
    v.Gives BlockBinding.names [root, previous, signature] ∧ w.Gives BlockBinding.names [root', previous', signature'] ∧
    root.SameHex root' ∧ previous.SameHex previous' ∧ signature.SameHex signature'

/-- Two values that give the same string and the same binding for the fields of a reference. -/
def Json.Value.SameReference (v w : Value) : Prop :=
  ∃ txid binding txid' binding', v.Gives Reference.names [txid, binding] ∧ w.Gives Reference.names [txid', binding'] ∧
    txid.SameHex txid' ∧ binding.SameBinding binding'

namespace Json.Value

theorem SameHex.isHex_iff {written : Text} {v w : Value} (h : v.SameHex w) : v.IsHex written ↔ w.IsHex written := by
  obtain ⟨t, u, rfl, rfl, heq⟩ := h
  constructor
  · rintro ⟨_, ⟨⟩, hlower⟩
    exact ⟨u, rfl, heq.symm.trans hlower⟩
  · rintro ⟨_, ⟨⟩, hlower⟩
    exact ⟨t, rfl, heq.trans hlower⟩

theorem Gives.isBinding_iff {v root previous signature : Value}
    (h : v.Gives BlockBinding.names [root, previous, signature]) {b : BlockBinding} :
    v.IsBinding b ↔ root.IsHex b.modifiedMerkleRoot.displayHex ∧ previous.IsHex b.previousBlock.displayHex ∧
      signature.IsHex (Hex.encode b.signature) := by
  constructor
  · rintro ⟨_, _, _, hgives, hfields⟩
    cases hgives.unique h
    exact hfields
  · exact fun hfields => ⟨root, previous, signature, h, hfields⟩

theorem Gives.isReference_iff {v txid binding : Value} (h : v.Gives Reference.names [txid, binding]) {r : Reference} :
    v.IsReference r ↔ txid.IsHex r.txid.displayHex ∧ binding.IsBinding r.binding := by
  constructor
  · rintro ⟨_, _, hgives, hfields⟩
    cases hgives.unique h
    exact hfields
  · exact fun hfields => ⟨txid, binding, h, hfields⟩

theorem SameBinding.isBinding_iff {v w : Value} (h : v.SameBinding w) {b : BlockBinding} :
    v.IsBinding b ↔ w.IsBinding b := by
  obtain ⟨root, previous, signature, root', previous', signature', hv, hw, hroot, hprevious, hsignature⟩ := h
  rw [hv.isBinding_iff, hw.isBinding_iff, hroot.isHex_iff, hprevious.isHex_iff, hsignature.isHex_iff]

theorem SameReference.isReference_iff {v w : Value} (h : v.SameReference w) {r : Reference} :
    v.IsReference r ↔ w.IsReference r := by
  obtain ⟨txid, binding, txid', binding', hv, hw, htxid, hbinding⟩ := h
  rw [hv.isReference_iff, hw.isReference_iff, htxid.isHex_iff, hbinding.isBinding_iff]

end Json.Value

theorem BlockBinding.ofJson_eq_ok_iff {s : Text} {v : Value} (h : Writes s v) {b : BlockBinding} :
    ofJson s = .ok b ↔ v.IsBinding b := by
  obtain ⟨d, hd, hread⟩ := read_of_writes ofDocument h
  rw [ofJson, hread, ofDocument_eq_ok_iff hd]

theorem Reference.ofJson_eq_ok_iff {s : Text} {v : Value} (h : Writes s v) {r : Reference} :
    ofJson s = .ok r ↔ v.IsReference r := by
  obtain ⟨d, hd, hread⟩ := read_of_writes ofDocument h
  rw [ofJson, hread, ofDocument_eq_ok_iff hd]

/-- A text is read as a binding or as a reference exactly if its value is one, and as that one. So texts whose values
have the same fields are read alike. -/
theorem ofJson_of_writes {s : Text} {v : Value} (h : Writes s v) :
    (∀ b, BlockBinding.ofJson s = .ok b ↔ v.IsBinding b) ∧
    (∀ r, Reference.ofJson s = .ok r ↔ v.IsReference r) ∧
    ∀ s' v', Writes s' v' →
      (v.SameBinding v' → ∀ b, BlockBinding.ofJson s = .ok b ↔ BlockBinding.ofJson s' = .ok b) ∧
      (v.SameReference v' → ∀ r, Reference.ofJson s = .ok r ↔ Reference.ofJson s' = .ok r) := by
  refine ⟨fun b => BlockBinding.ofJson_eq_ok_iff h, fun r => Reference.ofJson_eq_ok_iff h, fun s' v' h' => ⟨?_, ?_⟩⟩
  · intro hsame b
    rw [BlockBinding.ofJson_eq_ok_iff h, BlockBinding.ofJson_eq_ok_iff h', hsame.isBinding_iff]
  · intro hsame r
    rw [Reference.ofJson_eq_ok_iff h, Reference.ofJson_eq_ok_iff h', hsame.isReference_iff]

namespace Json

theorem writesText_of_plain {t : Text} (h : Plain t) : WritesText t t := by
  induction t with
  | nil => exact .nil
  | cons c t ih =>
      obtain ⟨hquote, hback, hctrl⟩ := h c List.mem_cons_self
      exact .plain hquote hback hctrl (ih fun d hd => h d (List.mem_cons_of_mem c hd))

theorem writesValue_string {t : Text} (h : Plain t) : WritesValue (string t) (.string t) :=
  .string (writesText_of_plain h)

theorem blank_nil : Blank [] := fun _ hc => absurd hc List.not_mem_nil

theorem writesMember_of_string {name text : Text} {n : Text × Value} (hname : WritesText name n.1)
    (htext : WritesValue text n.2) : WritesMember (string name ++ ':' :: text) n := by
  have hmember := WritesMember.parts hname blank_nil blank_nil htext
  simpa [string] using hmember

/-- Members that are written without blanks. -/
theorem writesMembers_members {es : List (Text × Text)} {ns : List (Text × Value)} (hne : es ≠ [])
    (h : List.Forall₂ (fun e n => WritesText e.1 n.1 ∧ WritesValue e.2 n.2) es ns) : WritesMembers (members es) ns := by
  induction h with
  | nil => exact absurd rfl hne
  | @cons e n es ns he hes ih =>
      obtain ⟨name, text⟩ := e
      obtain ⟨hname, htext⟩ := he
      have hmember : WritesMember (string name ++ ':' :: text) n := writesMember_of_string hname htext
      cases es with
      | nil =>
          cases hes
          have hlast := WritesMembers.last blank_nil hmember blank_nil
          rwa [List.nil_append, List.append_nil] at hlast
      | cons e' es =>
          have hcons := WritesMembers.cons blank_nil hmember blank_nil (ih (List.cons_ne_nil e' es))
          rwa [List.nil_append, List.nil_append] at hcons

/-- The members of a binding in another order than its fields, the name of one with an escape, and among members that
are no fields. -/
def mixedMembers : List (Text × Text) :=
  [("x".toList, "[[]]".toList), (['s', 'i', '\\', 'u', '0', '0', '6', '7'], string "Ab".toList),
    ("prev_block_hash".toList, string Hash.zero.displayHex), ("x".toList, "null".toList),
    ("modified_merkle_root".toList, string Hash.zero.displayHex)]

def mixedValues : List (Text × Value) :=
  [("x".toList, .array [.array []]), (['s', 'i', 'g'], .string "Ab".toList),
    ("prev_block_hash".toList, .string Hash.zero.displayHex), ("x".toList, .null),
    ("modified_merkle_root".toList, .string Hash.zero.displayHex)]

theorem writesText_escaped : WritesText ['s', 'i', '\\', 'u', '0', '0', '6', '7'] ['s', 'i', 'g'] :=
  .plain (by decide) (by decide) (by decide) (.plain (by decide) (by decide) (by decide)
    (.unit (u := ['0', '0', '6', '7']) ⟨by decide, by decide⟩ .nil))

theorem writesMembers_mixed : WritesMembers (members mixedMembers) mixedValues := by
  have hzero := writesValue_string (Hex.plain_encode Hash.zero.bytes.reverse)
  have hother : WritesValue "[[]]".toList (.array [.array []]) :=
    .array (.last blank_nil (.emptyArray blank_nil) blank_nil)
  refine writesMembers_members (List.cons_ne_nil _ _) (.cons ⟨?_, hother⟩ (.cons ⟨writesText_escaped, ?_⟩
    (.cons ⟨?_, hzero⟩ (.cons ⟨?_, .null⟩ (.cons ⟨?_, hzero⟩ .nil)))))
  · exact writesText_of_plain (plain_of_all rfl)
  · exact writesValue_string (plain_of_all rfl)
  · exact writesText_of_plain (plain_of_all rfl)
  · exact writesText_of_plain (plain_of_all rfl)
  · exact writesText_of_plain (plain_of_all rfl)

/-- A reference as an array, its binding as an object. -/
def mixedForms : Text :=
  '[' :: ' ' :: string Hash.zero.displayHex ++ ',' :: object mixedMembers ++ [']']

def mixedValue : Value := .array [.string Hash.zero.displayHex, .object mixedValues]

/-- The reference and its binding both as arrays. -/
def arrayForms : Text :=
  '[' :: string Hash.zero.displayHex ++ ",[".toList ++ string Hash.zero.displayHex ++ ',' ::
    string Hash.zero.displayHex ++ ",\"aB\"]]".toList

def arrayValue : Value :=
  .array [.string Hash.zero.displayHex,
    .array [.string Hash.zero.displayHex, .string Hash.zero.displayHex, .string "aB".toList]]

theorem writes_arrayForms : Writes arrayForms arrayValue := by
  have hzero := writesValue_string (Hex.plain_encode Hash.zero.bytes.reverse)
  have hsig : WritesValue (string "aB".toList) (.string "aB".toList) := writesValue_string (plain_of_all rfl)
  have hbinding := WritesValue.array (.cons blank_nil hzero blank_nil (.cons blank_nil hzero blank_nil
    (.last blank_nil hsig blank_nil)))
  have hreference := WritesValue.array (.cons blank_nil hzero blank_nil (.last blank_nil hbinding blank_nil))
  exact ⟨[], _, [], blank_nil, hreference, blank_nil, by decide +kernel⟩

theorem writes_mixedForms : Writes mixedForms mixedValue := by
  have hzero := writesValue_string (Hex.plain_encode Hash.zero.bytes.reverse)
  have hblank : Blank [' '] := List.forall_mem_singleton.2 rfl
  have hbinding := WritesValue.object writesMembers_mixed
  have hreference := WritesValue.array (.cons hblank hzero blank_nil (.last blank_nil hbinding blank_nil))
  exact ⟨[], _, [], blank_nil, hreference, blank_nil, by decide +kernel⟩

end Json

/-- Both texts are read, as the same reference. -/
theorem ofJson_of_escaped_name :
    Reference.ofJson mixedForms = .ok ⟨Hash.zero, ⟨Hash.zero, Hash.zero, [0xab]⟩⟩ ∧
    Reference.ofJson arrayForms = .ok ⟨Hash.zero, ⟨Hash.zero, Hash.zero, [0xab]⟩⟩ := by
  obtain ⟨-, hread, hsame⟩ := ofJson_of_writes writes_mixedForms
  have hmixed : (Value.object mixedValues).Gives BlockBinding.names
      [.string Hash.zero.displayHex, .string Hash.zero.displayHex, .string "Ab".toList] := by
    refine .object (.cons ?_ (.cons ?_ (.cons ?_ .nil)))
    · simp [named, mixedValues]
    · simp [named, mixedValues]
    · simp [named, mixedValues]
  have hreference : mixedValue.IsReference ⟨Hash.zero, ⟨Hash.zero, Hash.zero, [0xab]⟩⟩ := by
    refine ⟨_, _, .array rfl, ⟨_, rfl, ?_⟩, _, _, _, hmixed, ⟨_, rfl, ?_⟩, ⟨_, rfl, ?_⟩, ⟨_, rfl, ?_⟩⟩
    all_goals decide +kernel
  have halike : mixedValue.SameReference arrayValue := by
    refine ⟨_, _, _, _, .array rfl, .array rfl, ⟨_, _, rfl, rfl, rfl⟩, _, _, _, _, _, _, hmixed, .array rfl,
      ⟨_, _, rfl, rfl, rfl⟩, ⟨_, _, rfl, rfl, rfl⟩, ⟨_, _, rfl, rfl, ?_⟩⟩
    decide +kernel
  have hfirst := (hread _).2 hreference
  exact ⟨hfirst, ((hsame _ _ writes_arrayForms).2 halike _).1 hfirst⟩

end MinerInfo
