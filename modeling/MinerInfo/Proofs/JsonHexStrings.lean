import MinerInfo.Proofs.HexFaults
import MinerInfo.Proofs.JsonFirstFault

/-! How string literals are read where hexadecimal is wanted: as hashes, and as signatures among the other fields of
their records. A record of which all fields but one are valid is refused for what the reader of that field finds, in
whatever form and order the fields stand. So only the text that the literal spells counts, and of a text that is refused
the fault is that of its UTF-8 bytes. -/

namespace MinerInfo

open Json

namespace Json

namespace Record

variable {α : Type} {R : Record α} {w : R.Field → Json.Value}

theorem named_of_gives {ns : List (Text × Json.Value)}
    (h : (Json.Value.object ns).Gives (R.fields.map R.label) (R.fields.map w)) (f : R.Field) :
    named (R.label f) ns = [(R.label f, w f)] := by
  cases h with
  | object h =>
      exact List.forall₂_same.1 (List.forall₂_map_left_iff.1 (List.forall₂_map_right_iff.1 h)) f (R.mem_fields f)

theorem eq_of_mem_of_gives {ns : List (Text × Json.Value)}
    (h : (Json.Value.object ns).Gives (R.fields.map R.label) (R.fields.map w)) {n : Text × Json.Value} (hn : n ∈ ns)
    {f : R.Field} (hname : R.label f = n.1) : n.2 = w f := by
  have hmem : n ∈ named (R.label f) ns := mem_named.2 ⟨hn, hname.symm⟩
  rw [named_of_gives h f, List.mem_singleton] at hmem
  rw [hmem]

/-- A field has one member only. -/
theorem not_mem_before_of_gives {before after : List (Text × Json.Value)} {n : Text × Json.Value}
    (h : (Json.Value.object (before ++ n :: after)).Gives (R.fields.map R.label) (R.fields.map w)) {f : R.Field}
    (hname : R.label f = n.1) : n.1 ∉ before.map Prod.fst := by
  intro hseen
  obtain ⟨m, hm, hmn⟩ := List.mem_map.1 hseen
  have hfirst : 0 < (named (R.label f) before).length :=
    List.length_pos_of_mem (mem_named.2 ⟨hm, hmn.trans hname.symm⟩)
  have hsecond : 0 < (named (R.label f) (n :: after)).length :=
    List.length_pos_of_mem (mem_named.2 ⟨List.mem_cons_self, hname.symm⟩)
  have hone := congrArg List.length (named_of_gives h f)
  rw [named, List.filter_append, List.length_append, List.length_singleton] at hone
  rw [named] at hfirst hsecond
  omega

theorem exists_rejected_of_fill {count : Nat} {fs : List R.Field} {ds : List Document}
    (hds : List.Forall₂ Denotes ds (fs.map w)) {draft : R.Draft} {fault : Fault}
    (h : draft.fill count (.ok ()) fs ds = .error fault) : ∃ f d, Denotes d (w f) ∧ R.read f d = .error fault := by
  rcases rejected_of_fill h with ⟨done, f, fs', taken, d, more, rfl, rfl, htaken, hd⟩ | ⟨hlength, -⟩
  · have hbehind := List.forall₂_drop done.length hds
    rw [List.drop_left' htaken.length_eq.symm, List.map_append, List.map_cons,
      List.drop_left' (List.length_map _)] at hbehind
    cases hbehind with
    | cons hd' _ => exact ⟨f, d, hd', hd⟩
  · exact absurd (hds.length_eq.trans (List.length_map _)) hlength

theorem exists_ofDocument_of_fill (hR : R.Lawful) (hnodup : R.fields.Nodup) {ds : List Document}
    (hds : List.Forall₂ Denotes ds (R.fields.map w)) {draft : R.Draft}
    (h : R.blank.fill ds.length (.ok ()) R.fields ds = .ok draft) : ∃ a, R.ofDocument (.array ds (.ok ())) = .ok a := by
  obtain ⟨hfields, -⟩ := (fill_eq_ok_iff (read_eq_ok_iff_byValue hR) _ hnodup hds).1 h
  have hknown (f : R.Field) : ∃ x, draft f = some x := by
    obtain ⟨x, -, hx⟩ := List.forall₂_same.1 (List.forall₂_map_right_iff.1 hfields) f (R.mem_fields f)
    exact ⟨x, hx⟩
  choose x hx using hknown
  rw [ofDocument, h]
  exact ⟨_, finish_of_known hx⟩

theorem exists_rejected_of_elements (hR : R.Lawful) (hnodup : R.fields.Nodup) {ds : List Document}
    (hds : List.Forall₂ Denotes ds (R.fields.map w)) {fault : Fault}
    (h : R.ofDocument (.array ds (.ok ())) = .error fault) : ∃ f d, Denotes d (w f) ∧ R.read f d = .error fault := by
  cases hfill : R.blank.fill ds.length (.ok ()) R.fields ds with
  | error fault' =>
      rw [ofDocument, hfill] at h
      cases h
      exact exists_rejected_of_fill hds hfill
  | ok draft =>
      obtain ⟨a, ha⟩ := exists_ofDocument_of_fill hR hnodup hds hfill
      cases ha.symm.trans h

/-- Members that give a value for each field are not refused for a field that stands twice or not at all. -/
theorem exists_rejected_of_members (hR : R.Lawful) {ns : List (Text × Json.Value)}
    (hns : ∀ n ∈ ns, ∃ s, WritesValue s n.2) {d : Document} (hd : Denotes d (.object ns))
    (hgives : (Json.Value.object ns).Gives (R.fields.map R.label) (R.fields.map w)) {fault : Fault}
    (h : R.ofDocument d = .error fault) : ∃ f x, Denotes x (w f) ∧ R.read f x = .error fault := by
  rcases (ofDocument_eq_error_iff hR hns hd).1 h with ⟨rfl, -, hn⟩ | ⟨-, hf⟩
  · cases hn with
    | duplicate hname hseen => exact absurd hseen (not_mem_before_of_gives hgives hname)
    | @value f fault hname _ hv =>
        obtain ⟨u, hu, hread⟩ := hv
        obtain ⟨x, hx, hread'⟩ := read_of_writes (R.read f) (writes_of_writesValue hu)
        rw [eq_of_mem_of_gives hgives (List.mem_append_right _ List.mem_cons_self) hname] at hx
        exact ⟨f, x, hx, hread'.symm.trans hread⟩
  · rename_i f
    have hmem : (R.label f, w f) ∈ named (R.label f) ns := by
      rw [named_of_gives hgives f]
      exact List.mem_cons_self
    have hmissing := List.find?_some hf
    exact absurd (List.mem_map_of_mem (mem_named.1 hmem).1) (of_decide_eq_true hmissing)

/-- A record that gives a value for each field is refused only for one of these. -/
theorem exists_rejected_of_gives (hR : R.Lawful) (hnodup : R.fields.Nodup) {d : Document} {v : Json.Value}
    (hd : Denotes d v) {s : Text} (hs : WritesValue s v) (h : v.Gives (R.fields.map R.label) (R.fields.map w))
    {fault : Fault} (hfault : R.ofDocument d = .error fault) :
    ∃ f x, Denotes x (w f) ∧ R.read f x = .error fault := by
  cases hd with
  | @array ds vs hds =>
      have hvs : vs = R.fields.map w := by
        cases h with
        | array _ => rfl
      subst hvs
      exact exists_rejected_of_elements hR hnodup hds hfault
  | object hms => exact exists_rejected_of_members hR (exists_writesValue_of_mem hs) (.object hms) h hfault
  | _ => cases h

/-- A record of which all fields but one are valid is refused with the fault of that one. -/
theorem ofDocument_of_rejected_field (hR : R.Lawful) (hnodup : R.fields.Nodup) {d : Document} {v : Json.Value}
    (hd : Denotes d v) {s : Text} (hs : WritesValue s v) (h : v.Gives (R.fields.map R.label) (R.fields.map w))
    {f : R.Field} {x : Document} {fault : Fault} (hx : Denotes x (w f)) (hfault : R.read f x = .error fault)
    (hothers : ∀ g, g ≠ f → ∀ y, Denotes y (w g) → ∃ a, R.read g y = .ok a) : R.ofDocument d = .error fault := by
  cases hof : R.ofDocument d with
  | error fault' =>
      obtain ⟨g, y, hy, hfault'⟩ := exists_rejected_of_gives hR hnodup hd hs h hof
      by_cases hg : g = f
      · subst hg
        rw [hR.read_byValue g hy hx, hfault, Except.error.injEq] at hfault'
        rw [hfault']
      · obtain ⟨a, ha⟩ := hothers g hg y hy
        rw [ha] at hfault'
        cases hfault'
  | ok a =>
      obtain ⟨vs, y, hgives, hmeans, -⟩ :=
        (ofDocument_eq_ok_iff hR.label_injective hnodup (read_eq_ok_iff_byValue hR) hd).1 hof
      obtain rfl := hgives.unique h
      obtain ⟨x', hx', hread⟩ := List.forall₂_same.1 (List.forall₂_map_right_iff.1 hmeans) f (R.mem_fields f)
      rw [hR.read_byValue f hx' hx, hfault] at hread
      cases hread

end Record

theorem exists_writesValue_of_element {vs : List Value} {s : Text} (h : WritesElements s vs) :
    ∀ v ∈ vs, ∃ w, WritesValue w v := by
  induction vs generalizing s with
  | nil => cases h
  | cons v vs ih =>
      cases h with
      | last _ hv _ => exact List.forall_mem_singleton.2 ⟨_, hv⟩
      | cons _ hv _ hrest => exact List.forall_mem_cons.2 ⟨⟨_, hv⟩, ih hrest⟩

theorem exists_member_of_named {names : List Text} {ns : List (Text × Value)} {vs : List Value}
    (h : List.Forall₂ (fun name v => named name ns = [(name, v)]) names vs) {u : Value} (hu : u ∈ vs) :
    ∃ name, (name, u) ∈ ns := by
  induction h with
  | nil => cases hu
  | @cons name v _ _ hnamed _ ih =>
      rcases List.mem_cons.1 hu with rfl | hu
      · have hmem : (name, u) ∈ named name ns := by
          rw [hnamed]
          exact List.mem_cons_self
        exact ⟨name, (mem_named.1 hmem).1⟩
      · exact ih hu

theorem exists_writesValue_of_gives {names : List Text} {vs : List Value} {v : Value} {s : Text} (hs : WritesValue s v)
    (h : v.Gives names vs) : ∀ u ∈ vs, ∃ w, WritesValue w u := by
  cases h with
  | array _ =>
      cases hs with
      | emptyArray _ => exact List.forall_mem_nil _
      | array helements => exact exists_writesValue_of_element helements
  | object h =>
      intro u hu
      obtain ⟨name, hmem⟩ := exists_member_of_named h hu
      exact exists_writesValue_of_mem hs _ hmem

end Json

/-- A value that gives the two hashes of a binding, and for its signature the string `t`. -/
def Json.Value.HasSignature (v : Value) (r p : Hash) (t : Text) : Prop :=
  ∃ root previous, v.Gives BlockBinding.names [root, previous, .string t] ∧ root.IsHex r.displayHex ∧
    previous.IsHex p.displayHex

/-- The values for the fields of a binding. -/
def BlockBinding.given (root previous signature : Value) : Field → Value
  | .modifiedMerkleRoot => root
  | .previousBlock => previous
  | .signature => signature

/-- The values for the fields of a reference. -/
def Reference.given (txid binding : Value) : Field → Value
  | .txid => txid
  | .binding => binding

theorem BlockBinding.ofDocument_of_hasSignature {d : Document} {v : Value} (hd : Denotes d v) {s : Text}
    (hs : WritesValue s v) {r p : Hash} {t : Text} (h : v.HasSignature r p t) :
    ofDocument d = ((Hex.decode t).map fun bytes => ⟨r, p, bytes⟩).mapError Fault.ofHex := by
  obtain ⟨root, previous, hgives, hroot, hprevious⟩ := h
  cases hdecode : Hex.decode t with
  | ok bytes =>
      have hsignature : (Value.string t).IsHex (Hex.encode bytes) := ⟨t, rfl, Hex.decode_eq_ok_iff.1 hdecode⟩
      exact (ofDocument_eq_ok_iff hd).2 (hgives.isBinding_iff.2 ⟨hroot, hprevious, hsignature⟩)
  | error f =>
      -- any literal for `t` is refused alike, so the one without escapes stands for that of the text
      have hstring : Denotes (.string (.plain t)) (.string t) := .string (Literal.text_plain t)
      have hrejected : record.read Field.signature (.string (.plain t)) = .error (.ofHex f) := by
        refine hstring.hex_of_string.trans ?_
        rw [hdecode]
        rfl
      refine record.ofDocument_of_rejected_field (w := given root previous (.string t)) record_lawful (by decide) hd hs
        hgives (f := Field.signature) hstring hrejected ?_
      intro g hg y hy
      cases g with
      | modifiedMerkleRoot => exact ⟨r, (Hash.ofDocument_eq_ok_iff hy).2 hroot⟩
      | previousBlock => exact ⟨p, (Hash.ofDocument_eq_ok_iff hy).2 hprevious⟩
      | signature => exact absurd rfl hg

/-- A reference with a valid identifier is read as its binding is. -/
theorem Reference.ofDocument_of_binding {d : Document} {v : Value} (hd : Denotes d v) {s : Text} (hs : WritesValue s v)
    {txid binding : Value} (hgives : v.Gives names [txid, binding]) {h : Hash} (htxid : txid.IsHex h.displayHex)
    {x : Document} (hx : Denotes x binding) :
    ofDocument d = (BlockBinding.ofDocument x).map fun b => ⟨h, b⟩ := by
  cases hread : BlockBinding.ofDocument x with
  | ok b =>
      have hbinding := (BlockBinding.ofDocument_eq_ok_iff hx).1 hread
      exact (ofDocument_eq_ok_iff hd).2 (hgives.isReference_iff.2 ⟨htxid, hbinding⟩)
  | error fault =>
      refine record.ofDocument_of_rejected_field (w := given txid binding) record_lawful (by decide) hd hs hgives
        (f := Field.binding) hx hread ?_
      intro g hg y hy
      cases g with
      | txid => exact ⟨h, (Hash.ofDocument_eq_ok_iff hy).2 htxid⟩
      | binding => exact absurd rfl hg

theorem Json.exists_of_writes {α : Type} (reader : Document → Except Fault α) {s : Text} {v : Value} (h : Writes s v) :
    ∃ d w, Denotes d v ∧ WritesValue w v ∧ Json.read reader s = reader d := by
  obtain ⟨d, hd, hread⟩ := read_of_writes reader h
  obtain ⟨_, w, _, _, hw, _, _⟩ := h
  exact ⟨d, w, hd, hw, hread⟩

/-- A literal that spells the text `t` is read as a hash as the text is, and where a signature stands, in a binding or
in the binding of a reference, as the bytes that the text spells in their order. A text that is no such form is refused
with its fault in the words of the fault: of an odd number of bytes, else for a hash of another number than sixty-four,
and else for the leftmost byte that is no digit, which is shown as the character of that number, with its index. -/
theorem ofJson_of_hex_string (t : Text) :
    (∀ s, Writes s (.string t) → Hash.ofJson s = (Hash.ofDisplayHex t).mapError Fault.ofHex) ∧
    (∀ s v r p, Writes s v → v.HasSignature r p t →
      BlockBinding.ofJson s = ((Hex.decode t).map fun bytes => ⟨r, p, bytes⟩).mapError Fault.ofHex) ∧
    (∀ s v txid binding h r p, Writes s v → v.Gives Reference.names [txid, binding] → txid.IsHex (Hash.displayHex h) →
      binding.HasSignature r p t →
        Reference.ofJson s = ((Hex.decode t).map fun bytes => ⟨h, ⟨r, p, bytes⟩⟩).mapError Fault.ofHex) ∧
    (∀ h, Hash.ofDisplayHex t = .ok h ↔ Hex.lower t = Hex.encode h.bytes.reverse) ∧
    (∀ bytes, Hex.decode t = .ok bytes ↔ Hex.lower t = Hex.encode bytes) ∧
    ((∃ bytes, Hex.decode t = .ok bytes) ↔ t.utf8.length % 2 = 0 ∧ ∀ byte ∈ t.utf8, byte ∈ Hex.digitBytes) ∧
    (∀ f, Hash.ofDisplayHex t = .error f ↔ Hex.FaultOf (some 32) t.utf8 f) ∧
    (∀ f, Hex.decode t = .error f ↔ Hex.FaultOf none t.utf8 f) ∧
    (∀ f, ∃ m, Fault.ofHex f = .misfit m ∧ m.message = f.message) ∧
    (∀ byte index c, c.toNat = byte.toNat → (Hex.Fault.badDigit byte index).message =
      "Invalid character ".toList ++ Text.quotedChar c ++ " at position ".toList ++ Nat.toDigits 10 index) := by
  refine ⟨?_, ?_, ?_, fun h => Hash.ofDisplayHex_eq_ok_iff, fun bytes => Hex.decode_eq_ok_iff, Hex.exists_decode_iff,
    fun f => Hash.ofDisplayHex_eq_error_iff, fun f => Hex.decode_eq_error_iff, fun f => ⟨_, rfl, rfl⟩,
    fun byte index c hc => Hex.message_badDigit hc index⟩
  · intro s hs
    obtain ⟨d, -, hd, -, hread⟩ := exists_of_writes Hash.ofDocument hs
    exact hread.trans hd.hex_of_string
  · intro s v r p hs hsignature
    obtain ⟨d, w, hd, hw, hread⟩ := exists_of_writes BlockBinding.ofDocument hs
    exact hread.trans (BlockBinding.ofDocument_of_hasSignature hd hw hsignature)
  · intro s v txid binding h r p hs hgives htxid hsignature
    obtain ⟨d, w, hd, hw, hread⟩ := exists_of_writes Reference.ofDocument hs
    obtain ⟨u, hu⟩ := exists_writesValue_of_gives hw hgives binding (by simp)
    obtain ⟨x, hx, -⟩ := read_of_writes BlockBinding.ofDocument (Record.writes_of_writesValue hu)
    refine hread.trans ((Reference.ofDocument_of_binding hd hw hgives htxid hx).trans ?_)
    rw [BlockBinding.ofDocument_of_hasSignature hx hu hsignature]
    cases Hex.decode t with
    | ok bytes => rfl
    | error f => rfl

namespace Json

/-- The inside of a literal for two digits and a letter between them, which is written as an escape. -/
def accented : Text := ['0', '\\', 'u', '0', '0', 'E', '9', '0']

theorem writesText_accented : WritesText accented ['0', 'é', '0'] :=
  .plain (by decide) (by decide) (by decide) (.unit (u := ['0', '0', 'E', '9']) ⟨by decide, by decide⟩
    (.plain (by decide) (by decide) (by decide) .nil))

/-- A binding with that literal for its signature. -/
def accentedBinding : Text :=
  '[' :: string Hash.zero.displayHex ++ ',' :: string Hash.zero.displayHex ++ ',' :: string accented ++ [']']

theorem writes_accentedBinding : Writes accentedBinding
    (.array [.string Hash.zero.displayHex, .string Hash.zero.displayHex, .string ['0', 'é', '0']]) := by
  have hzero := writesValue_string (Hex.plain_encode Hash.zero.bytes.reverse)
  have hbinding := WritesValue.array (.cons blank_nil hzero blank_nil (.cons blank_nil hzero blank_nil
    (.last blank_nil (.string writesText_accented) blank_nil)))
  exact ⟨[], _, [], blank_nil, hbinding, blank_nil, by decide +kernel⟩

end Json

/-- The letter is two bytes, of which the first is reported for a signature and their number alone for a hash; and a
signature of two digits in a reference is read. -/
theorem ofJson_of_accented_letter :
    Hash.ofJson (string accented) = .error (.ofHex .wrongLength) ∧
    BlockBinding.ofJson accentedBinding = .error (.ofHex (.badDigit 0xc3 1)) ∧
    (Hex.Fault.badDigit 0xc3 1).message = "Invalid character 'Ã' at position 1".toList ∧
    Reference.ofJson arrayForms = .ok ⟨Hash.zero, ⟨Hash.zero, Hash.zero, [0xab]⟩⟩ := by
  obtain ⟨hhash, hbinding, -, -, -, -, hhashFault, hfault, -, hmessage⟩ := ofJson_of_hex_string ['0', 'é', '0']
  obtain ⟨-, -, hreference, -, hdigits, -⟩ := ofJson_of_hex_string ['a', 'B']
  have hzero : (Value.string Hash.zero.displayHex).IsHex Hash.zero.displayHex := ⟨_, rfl, by decide +kernel⟩
  have hlength : Hash.ofDisplayHex ['0', 'é', '0'] = .error .wrongLength :=
    (hhashFault _).2 (.length (by decide) rfl (by decide))
  have hletter : Hex.decode ['0', 'é', '0'] = .error (.badDigit 0xc3 1) :=
    (hfault _).2 (@Hex.FaultOf.digit none _ [0x30] [0xa9, 0x30] 0xc3 (by decide) nofun (by decide)
      (List.forall_mem_singleton.2 (by decide)) (by decide))
  have hpair : Hex.decode ['a', 'B'] = .ok [0xab] := (hdigits _).2 (by decide)
  refine ⟨?_, ?_, ?_, ?_⟩
  · have hliteral : Writes (string accented) (.string ['0', 'é', '0']) :=
      Record.writes_of_writesValue (.string writesText_accented)
    rw [hhash _ hliteral, hlength]
    rfl
  · rw [hbinding _ _ _ _ writes_accentedBinding ⟨_, _, .array rfl, hzero, hzero⟩, hletter]
    rfl
  · exact (hmessage 0xc3 1 'Ã' (by decide)).trans (by decide +kernel)
  · rw [hreference _ _ _ _ _ _ _ writes_arrayForms (.array rfl) hzero ⟨_, _, .array rfl, hzero, hzero⟩, hpair]
    rfl

end MinerInfo
