import MinerInfo.Proofs.JsonBeginnings
import MinerInfo.Proofs.JsonFaults
import MinerInfo.Proofs.JsonReading

/-! With which fault the text of an object is refused as a binding or as a reference. It is the first fault of the
members, and the binding of a reference has its first fault by the same rule. A text that comes to a second member for
a field, or to a string that is rejected for its field, be it a member or an element, is refused there: behind the
quotation mark that closes the name or the string anything may follow, be it JSON or not. And every object that is
refused for such a name or string comes to one. -/

namespace MinerInfo

open Json

namespace Json

theorem read_of_settles {α : Type} {reader : Document → Except Fault α} {p b : Text} {fault : Fault}
    (h : Settles (fun d => reader d = .error fault) p) (hb : Blank b) (rest : Text) :
    Json.read reader (b ++ (p ++ rest)) = .error fault := by
  have hfault := h.parse hb rest
  rw [Json.read]
  simp only [hfault, bind, Except.bind]

/-- The faults that are found at a closing quotation mark: a name that has been there before, a string that is not of
the digits that are wanted, and one where no string is wanted. -/
def Fault.AtQuote : Fault → Prop
  | .misfit (.duplicate _) | .misfit (.badHex _) | .misfit (.wrongType (.string _) _) => True
  | _ => False

theorem Numeral.real_eq (n : Numeral) (m : Nat) (e : Int) :
    (∃ x, n.real m e = .ok (.real x)) ∨ n.real m e = .error .malformed := by
  rw [Numeral.real]
  cases scaled m e with
  | none => exact .inr rfl
  | some x => exact .inl ⟨_, rfl⟩

theorem Numeral.value_eq (n : Numeral) :
    (∃ k, n.value = .ok (.integer k)) ∨ (∃ x, n.value = .ok (.real x)) ∨ n.value = .error .malformed := by
  rw [Numeral.value]
  obtain ⟨m, left⟩ := gather 0 n.whole
  dsimp only
  split
  · split
    · exact .inl ⟨_, rfl⟩
    · split
      · exact .inl ⟨_, rfl⟩
      · exact .inr (n.real_eq _ _)
  · exact .inr (n.real_eq _ _)

theorem not_atQuote_number (n : Numeral) (expected : Text) :
    ¬((Document.number (.ok n)).unexpected expected).AtQuote := by
  have hvalue : (Except.ok n).bind Numeral.value = n.value := rfl
  rw [Document.unexpected, hvalue]
  rcases n.value_eq with ⟨k, h⟩ | ⟨x, h⟩ | h
  · rw [h]
    exact not_false
  · rw [h]
    exact not_false
  · rw [h]
    exact not_false

theorem not_atQuote_unexpected {d : Document} {v : Value} (hd : Denotes d v) (hv : ∀ t, v ≠ .string t)
    (expected : Text) : ¬(d.unexpected expected).AtQuote := by
  cases hd with
  | number n => exact not_atQuote_number n expected
  | string _ => exact absurd rfl (hv _)
  | _ => exact not_false

theorem string_of_hex {α : Type} {expected : Text} {decode : Text → Except Hex.Fault α} {d : Document} {v : Value}
    {fault : Fault} (hd : Denotes d v) (h : d.hex expected decode = .error fault) (hquote : fault.AtQuote) :
    ∃ t, v = .string t := by
  by_contra hv
  have hother := not_atQuote_unexpected hd (not_exists.1 hv) expected
  cases hd with
  | string _ => exact hv ⟨_, rfl⟩
  | _ =>
      cases h
      exact hother hquote

theorem atQuote_of_hex {α : Type} {expected t : Text} {decode : Text → Except Hex.Fault α} {d : Document}
    {fault : Fault} (hd : Denotes d (.string t)) (h : d.hex expected decode = .error fault) : fault.AtQuote := by
  rw [hd.hex_of_string] at h
  cases hdecode : decode t with
  | error f =>
      rw [hdecode] at h
      cases h
      trivial
  | ok a =>
      rw [hdecode] at h
      cases h

theorem atQuote_unexpected {d : Document} {t : Text} (hd : Denotes d (.string t)) (expected : Text) :
    (d.unexpected expected).AtQuote := by
  cases hd with
  | string h =>
      rw [Document.unexpected, h]
      trivial

namespace Record

variable {α : Type} (R : Record α)

/-- The text of a string from quotation mark to quotation mark, the string being rejected for the field. -/
def RejectedString (f : R.Field) (p : Text) (fault : Fault) : Prop :=
  ∃ w t, WritesText w t ∧ p = '"' :: (w ++ ['"']) ∧ R.Rejects f (.string t) fault

/-- The text of a record up to where it is refused. In an object, behind members that pass, it comes to the end of the
name of a second member for a field, or into the first value for a field, up to where the value is refused for that
field. In an array, behind elements that are taken for their fields, it comes into the element for the next field, up to
where this is refused. -/
inductive Stops (refused : R.Field → Text → Fault → Prop) : Text → Fault → Prop where
  | duplicate {before : List (Text × Json.Value)} {f : R.Field} {p : Text} (h : R.Passes before)
      (hseen : R.label f ∈ before.map Prod.fst) (hp : OpensName before (R.label f) p) :
      Stops refused p (.misfit (.duplicate (R.label f)))
  | value {before : List (Text × Json.Value)} {f : R.Field} {p q : Text} {fault : Fault} (h : R.Passes before)
      (hnew : R.label f ∉ before.map Prod.fst) (hp : OpensValue before (R.label f) p) (hq : refused f q fault) :
      Stops refused (p ++ q) fault
  | element {done fs : List R.Field} {f : R.Field} {before : List Json.Value} {p q : Text} {fault : Fault}
      (hfields : R.fields = done ++ f :: fs) (h : List.Forall₂ R.Accepts done before) (hp : OpensElement before p)
      (hq : refused f q fault) : Stops refused (p ++ q) fault

/-- What `refused` tells of a field are the texts at whose end its reader has a fault at a quotation mark. -/
structure Pinpoints (refused : R.Field → Text → Fault → Prop) : Prop where
  settles {f : R.Field} {q : Text} {fault : Fault} (h : refused f q fault) :
    Settles (fun d => R.read f d = .error fault) q
  atQuote {f : R.Field} {q : Text} {fault : Fault} (h : refused f q fault) : fault.AtQuote
  finds {f : R.Field} {v : Json.Value} {w : Text} {d : Document} {fault : Fault} (hw : WritesValue w v)
    (hd : Denotes d v) (h : R.read f d = .error fault) (hquote : fault.AtQuote) :
    ∃ q rest, w = q ++ rest ∧ refused f q fault

variable {R} {refused : R.Field → Text → Fault → Prop} {p w : Text} {fault : Fault}

theorem read_eq_error_iff (hR : R.Lawful) {s : Text} {ns : List (Text × Json.Value)} (h : Writes s (.object ns)) :
    Json.read R.ofDocument s = .error fault ↔ R.FirstFault ns fault := by
  obtain ⟨d, hd, hread⟩ := read_of_writes R.ofDocument h
  obtain ⟨b, w, b', -, hw, -, -⟩ := h
  rw [hread, ofDocument_eq_error_iff hR (exists_writesValue_of_mem hw) hd]

theorem settles_of_rejectedString (hR : R.Lawful) {f : R.Field} (h : R.RejectedString f p fault) :
    Settles (fun d => R.read f d = .error fault) p := by
  obtain ⟨w, t, hw, rfl, hrejects⟩ := h
  refine (settles_string hw).imp fun d hd => ?_
  exact (rejects_iff hR hd (.string hw)).1 hrejects

theorem exists_read_of_rejectedString (hR : R.Lawful) {f : R.Field} (h : R.RejectedString f p fault) :
    ∃ d t, Denotes d (.string t) ∧ R.read f d = .error fault := by
  obtain ⟨w, t, hw, -, hrejects⟩ := h
  obtain ⟨d, hd, -⟩ := readsAs_of_writesValue (.string hw)
  exact ⟨d, t, hd, (rejects_iff hR hd (.string hw)).1 hrejects⟩

theorem rejectedString_of_read (hR : R.Lawful) {f : R.Field} {t : Text} (hw : WritesValue w (.string t)) {d : Document}
    (hd : Denotes d (.string t)) (h : R.read f d = .error fault) : R.RejectedString f w fault := by
  have hrejects := (rejects_iff hR hd hw).2 h
  cases hw with
  | string hs => exact ⟨_, t, hs, rfl, hrejects⟩

theorem settles_of_stops (hR : R.Lawful) (hrefused : R.Pinpoints refused) (h : R.Stops refused p fault) :
    Settles (fun d => R.ofDocument d = .error fault) p := by
  cases h with
  | @duplicate before f p hpass hseen hp =>
      refine (settles_name hp).imp ?_
      rintro _ ⟨ms, l, x, more, ending, rfl, hms, hl⟩
      refine ofDocument_of_refused hR hpass hp.written hms (fun draft hdraft => ?_) more ending
      exact accept_of_taken hR (m := (l, x)) hl fun hopen => (hdraft f).1 hopen hseen
  | @value before f p q fault hpass hnew hp hq =>
      refine (settles_value hp (hrefused.settles hq)).imp ?_
      rintro _ ⟨ms, l, x, more, ending, rfl, hms, hl, hx⟩
      refine ofDocument_of_refused hR hpass hp.written hms (fun draft hdraft => ?_) more ending
      exact accept_of_rejected hR (m := (l, x)) hl ((hdraft f).2 hnew) hx
  | element hfields hbefore hp hq =>
      refine (settles_element hp (hrefused.settles hq)).imp ?_
      rintro _ ⟨ds, x, more, ending, rfl, hds, hx⟩
      exact ofDocument_of_rejected hfields ((forall₂_reads_iff hR hds hp.written).2 hbefore) hx more ending

theorem atQuote_of_stops (hrefused : R.Pinpoints refused) (h : R.Stops refused p fault) : fault.AtQuote := by
  cases h with
  | duplicate _ _ _ => trivial
  | value _ _ _ hq => exact hrefused.atQuote hq
  | element _ _ _ hq => exact hrefused.atQuote hq

theorem exists_stops_of_members (hR : R.Lawful) (hrefused : R.Pinpoints refused) {ns : List (Text × Json.Value)}
    (hw : WritesValue w (.object ns)) (h : R.FirstFault ns fault) (hquote : fault.AtQuote) :
    ∃ p rest, w = p ++ rest ∧ R.Stops refused p fault := by
  cases h with
  | @member before after n _ hns hpass hn =>
      subst hns
      obtain ⟨p, u, rest, rfl, hp, hu⟩ := exists_append_of_writesObject hw
      obtain ⟨name, v⟩ := n
      cases hn with
      | @duplicate f hname hseen =>
          obtain rfl : R.label f = name := hname
          obtain ⟨q, b, b', hq, -, -, rfl⟩ := hp
          exact ⟨q, _, List.append_assoc _ _ _, .duplicate hpass hseen hq⟩
      | @value f _ hname hnew hv =>
          obtain rfl : R.label f = name := hname
          obtain ⟨d, hd, -⟩ := readsAs_of_writesValue hu
          obtain ⟨q, rest', rfl, hq⟩ := hrefused.finds hu hd ((rejects_iff hR hd hu).1 hv) hquote
          exact ⟨p ++ q, rest' ++ rest, by simp only [List.append_assoc], .value hpass hnew hp hq⟩
  | missing _ _ => cases hquote

theorem not_atQuote_of_finish {draft : R.Draft} (h : draft.finish = .error fault) : ¬fault.AtQuote := by
  rw [Draft.finish] at h
  split at h
  · cases h
    exact not_false
  · cases h

theorem exists_stops_of_elements (hR : R.Lawful) (hrefused : R.Pinpoints refused) {vs : List Json.Value}
    (hw : WritesValue w (.array vs)) {ds : List Document} (hds : List.Forall₂ Denotes ds vs)
    (h : R.ofDocument (.array ds (.ok ())) = .error fault) (hquote : fault.AtQuote) :
    ∃ p rest, w = p ++ rest ∧ R.Stops refused p fault := by
  rw [ofDocument] at h
  cases hfill : R.blank.fill ds.length (.ok ()) R.fields ds with
  | ok draft =>
      rw [hfill] at h
      exact absurd hquote (not_atQuote_of_finish h)
  | error fault' =>
      rw [hfill] at h
      cases h
      rcases rejected_of_fill hfill with ⟨done, f, fs, taken, d, more, hfields, rfl, htaken, hd⟩ | ⟨-, rfl | rfl⟩
      · obtain ⟨before, behind, rfl, hbefore, hbehind⟩ := exists_append_of_forall₂ hds.flip
        obtain ⟨v, after, hv, -, rfl⟩ := List.forall₂_cons_right_iff.1 hbehind
        obtain ⟨p, u, rest, rfl, hp, hu⟩ := exists_append_of_writesArray hw
        obtain ⟨q, rest', rfl, hq⟩ := hrefused.finds hu hv hd hquote
        exact ⟨p ++ q, rest' ++ rest, by simp only [List.append_assoc],
          .element hfields ((forall₂_reads_iff hR hbefore.flip hp.written).1 htaken) hp hq⟩
      · cases hquote
      · cases hquote

/-- Where a record has a fault at a quotation mark, its text comes to it, unless it is that of a string itself. -/
theorem exists_stops (hR : R.Lawful) (hrefused : R.Pinpoints refused) {v : Json.Value} (hw : WritesValue w v)
    {d : Document} (hd : Denotes d v) (hv : ∀ t, v ≠ .string t) (h : R.ofDocument d = .error fault)
    (hquote : fault.AtQuote) : ∃ p rest, w = p ++ rest ∧ R.Stops refused p fault := by
  have hother := not_atQuote_unexpected hd hv ("struct ".toList ++ R.title)
  cases hd with
  | object hms =>
      have hfirst := (ofDocument_eq_error_iff hR (exists_writesValue_of_mem hw) (.object hms)).1 h
      exact exists_stops_of_members hR hrefused hw hfirst hquote
  | array hds => exact exists_stops_of_elements hR hrefused hw hds h hquote
  | _ =>
      cases h
      exact absurd hquote hother

/-- An object is refused at a quotation mark exactly if its text comes to such a place, and then it may go on behind the
mark in any way. -/
theorem atQuote_iff_exists_stops (hR : R.Lawful) (hrefused : R.Pinpoints refused) {s : Text}
    {ns : List (Text × Json.Value)} (h : Writes s (.object ns)) (hread : Json.read R.ofDocument s = .error fault) :
    fault.AtQuote ↔ ∃ b p rest, s = b ++ (p ++ rest) ∧ Blank b ∧ R.Stops refused p fault ∧
      ∀ rest', Json.read R.ofDocument (b ++ (p ++ rest')) = Json.read R.ofDocument s := by
  constructor
  · intro hquote
    have hfirst := (read_eq_error_iff hR h).1 hread
    obtain ⟨b, w, b', hb, hw, -, rfl⟩ := h
    obtain ⟨p, rest, rfl, hp⟩ := exists_stops_of_members hR hrefused hw hfirst hquote
    refine ⟨b, p, rest ++ b', by rw [List.append_assoc], hb, hp, fun rest' => ?_⟩
    rw [hread]
    exact read_of_settles (settles_of_stops hR hrefused hp) hb rest'
  · rintro ⟨b, p, rest, -, -, hp, -⟩
    exact atQuote_of_stops hrefused hp

end Record

end Json

theorem BlockBinding.record_lawful : record.Lawful where
  label_injective := label_injective
  read_byValue
    | .modifiedMerkleRoot => hex_byValue _ _
    | .previousBlock => hex_byValue _ _
    | .signature => hex_byValue _ _

theorem Reference.record_lawful : record.Lawful where
  label_injective := label_injective
  read_byValue
    | .txid => hex_byValue _ _
    | .binding => BlockBinding.record.ofDocument_byValue BlockBinding.record_lawful

/-- A text at whose end an object is refused as a binding. -/
def BlockBinding.Stops : Text → Fault → Prop := record.Stops record.RejectedString

/-- A text at whose end the reader of a field of references rejects the value. -/
def Reference.StopsIn (f : record.Field) (p : Text) (fault : Fault) : Prop :=
  record.RejectedString f p fault ∨ f = .binding ∧ BlockBinding.Stops p fault

/-- A text at whose end an object is refused as a reference, be it inside the binding. -/
def Reference.Stops : Text → Fault → Prop := record.Stops StopsIn

theorem BlockBinding.pinpoints : record.Pinpoints record.RejectedString where
  settles h := record.settles_of_rejectedString record_lawful h
  atQuote {f _ _} h := by
    obtain ⟨d, t, hd, hread⟩ := record.exists_read_of_rejectedString record_lawful h
    cases f with
    | modifiedMerkleRoot | previousBlock | signature => exact atQuote_of_hex hd hread
  finds {f v w _ _} hw hd h hquote := by
    have hstring : ∃ t, v = .string t := by
      cases f with
      | modifiedMerkleRoot | previousBlock | signature => exact string_of_hex hd h hquote
    obtain ⟨t, rfl⟩ := hstring
    exact ⟨w, [], (List.append_nil w).symm, record.rejectedString_of_read record_lawful hw hd h⟩

theorem BlockBinding.settles_of_stops {p : Text} {fault : Fault} (h : Stops p fault) :
    Settles (fun d => ofDocument d = .error fault) p :=
  record.settles_of_stops record_lawful pinpoints h

theorem Reference.atQuote_of_rejectedString {f : record.Field} {p : Text} {fault : Fault}
    (h : record.RejectedString f p fault) : fault.AtQuote := by
  obtain ⟨d, t, hd, hread⟩ := record.exists_read_of_rejectedString record_lawful h
  cases f with
  | txid => exact atQuote_of_hex hd hread
  | binding =>
      have hquote := atQuote_unexpected hd ("struct ".toList ++ BlockBinding.record.title)
      cases hd with
      | string _ =>
          cases hread
          exact hquote

theorem Reference.pinpoints : record.Pinpoints StopsIn where
  settles h := by
    rcases h with hstring | ⟨rfl, hbinding⟩
    · exact record.settles_of_rejectedString record_lawful hstring
    · exact BlockBinding.settles_of_stops hbinding
  atQuote h := by
    rcases h with hstring | ⟨-, hbinding⟩
    · exact atQuote_of_rejectedString hstring
    · exact BlockBinding.record.atQuote_of_stops BlockBinding.pinpoints hbinding
  finds {f v w _ _} hw hd h hquote := by
    by_cases hstring : ∃ t, v = .string t
    · obtain ⟨t, rfl⟩ := hstring
      exact ⟨w, [], (List.append_nil w).symm, .inl (record.rejectedString_of_read record_lawful hw hd h)⟩
    · cases f with
      | txid => exact absurd (string_of_hex hd h hquote) hstring
      | binding =>
          obtain ⟨p, rest, hp, hstops⟩ := BlockBinding.record.exists_stops BlockBinding.record_lawful
            BlockBinding.pinpoints hw hd (not_exists.1 hstring) h hquote
          exact ⟨p, rest, hp, .inr ⟨rfl, hstops⟩⟩

theorem Reference.settles_of_stops {p : Text} {fault : Fault} (h : Stops p fault) :
    Settles (fun d => ofDocument d = .error fault) p :=
  record.settles_of_stops record_lawful pinpoints h

/-- A written object is refused with the first fault of its members, for a binding in a reference by the same rule. Its
members stand in the text in their order. The fault is that of a second name or of a string exactly if the text comes to
the quotation mark that closes it, and then the text has that fault with whatever stands behind the mark; and so has any
text that comes to such a place. -/
theorem ofJson_reports_first_fault {s : Text} {ns : List (Text × Value)} (h : Writes s (.object ns)) :
    (∀ fault, BlockBinding.ofJson s = .error fault ↔ BlockBinding.record.FirstFault ns fault) ∧
    (∀ fault, Reference.ofJson s = .error fault ↔ Reference.record.FirstFault ns fault) ∧
    (∀ w ns' fault, WritesValue w (.object ns') →
      (Reference.record.Rejects .binding (.object ns') fault ↔ BlockBinding.record.FirstFault ns' fault)) ∧
    (∀ before n after, ns = before ++ n :: after → ∃ b p w rest, s = b ++ (p ++ (w ++ rest)) ∧ Blank b ∧
      OpensValue before n.1 p ∧ WritesValue w n.2) ∧
    (∀ fault, BlockBinding.ofJson s = .error fault → (fault.AtQuote ↔ ∃ b p rest, s = b ++ (p ++ rest) ∧ Blank b ∧
      BlockBinding.Stops p fault ∧ ∀ rest', BlockBinding.ofJson (b ++ (p ++ rest')) = BlockBinding.ofJson s)) ∧
    (∀ fault, Reference.ofJson s = .error fault → (fault.AtQuote ↔ ∃ b p rest, s = b ++ (p ++ rest) ∧ Blank b ∧
      Reference.Stops p fault ∧ ∀ rest', Reference.ofJson (b ++ (p ++ rest')) = Reference.ofJson s)) ∧
    (∀ b p fault, Blank b → BlockBinding.Stops p fault →
      ∀ rest, BlockBinding.ofJson (b ++ (p ++ rest)) = .error fault) ∧
    (∀ b p fault, Blank b → Reference.Stops p fault → ∀ rest, Reference.ofJson (b ++ (p ++ rest)) = .error fault) ∧
    (∀ name, Misfit.message (.duplicate name) = "duplicate field `".toList ++ name ++ "`".toList ∧
      Misfit.message (.missing name) = "missing field `".toList ++ name ++ "`".toList) := by
  refine ⟨fun fault => ?_, fun fault => ?_, fun w ns' fault hw => ?_, fun before n after hns => ?_,
    fun fault hfault => ?_, fun fault hfault => ?_, fun b p fault hb hp => ?_, fun b p fault hb hp => ?_,
    fun name => ⟨rfl, rfl⟩⟩
  · exact BlockBinding.record.read_eq_error_iff BlockBinding.record_lawful h
  · exact Reference.record.read_eq_error_iff Reference.record_lawful h
  · have hread {w' : Text} (hw' : WritesValue w' (.object ns')) :
        Json.read BlockBinding.ofDocument w' = .error fault ↔ BlockBinding.record.FirstFault ns' fault :=
      BlockBinding.record.read_eq_error_iff BlockBinding.record_lawful (Record.writes_of_writesValue hw')
    exact ⟨fun ⟨w', hw', hfault⟩ => (hread hw').1 hfault, fun hfault => ⟨w, hw, (hread hw).2 hfault⟩⟩
  · subst hns
    obtain ⟨b, _, b', hb, hinner, -, rfl⟩ := h
    obtain ⟨p, w, rest, rfl, hp, hw⟩ := exists_append_of_writesObject hinner
    exact ⟨b, p, w, rest ++ b', by simp only [List.append_assoc], hb, hp, hw⟩
  · exact BlockBinding.record.atQuote_iff_exists_stops BlockBinding.record_lawful BlockBinding.pinpoints h hfault
  · exact Reference.record.atQuote_iff_exists_stops Reference.record_lawful Reference.pinpoints h hfault
  · exact read_of_settles (BlockBinding.settles_of_stops hp) hb
  · exact read_of_settles (Reference.settles_of_stops hp) hb

namespace Json

/-- An object with two members for one field, the name of the second with an escape. -/
def repeatedMembers : List (Text × Text) :=
  [("sig".toList, string []), (['s', 'i', '\\', 'u', '0', '0', '6', '7'], "null".toList)]

def repeatedValues : List (Text × Value) := [(['s', 'i', 'g'], .string []), (['s', 'i', 'g'], .null)]

/-- The same object up to the end of the second name. -/
def repeatedName : Text :=
  '\x7b' :: (string "sig".toList ++ ':' :: string [] ++ ',' :: string ['s', 'i', '\\', 'u', '0', '0', '6', '7'])

/-- An object up to where the binding in it has come to the end of `p`. -/
def bindingUpTo (p : Text) : Text := '\x7b' :: (string "block_bind".toList ++ [':']) ++ p

/-- A binding in the form of an object, up to a string that has no digits. -/
def brokenMember : Text := '\x7b' :: (string "sig".toList ++ [':']) ++ string "0g".toList

/-- A binding in the form of an array, up to a string that is too short. -/
def brokenElement : Text := '[' :: string "zz".toList

theorem writes_repeated : Writes (object repeatedMembers) (.object repeatedValues) := by
  have hname : WritesText "sig".toList ['s', 'i', 'g'] := writesText_of_plain (plain_of_all rfl)
  have hmembers : WritesMembers (members repeatedMembers) repeatedValues :=
    writesMembers_members (List.cons_ne_nil _ _)
      (.cons ⟨hname, writesValue_string (plain_of_all rfl)⟩ (.cons ⟨writesText_escaped, .null⟩ .nil))
  exact Record.writes_of_writesValue (.object hmembers)

theorem passes_empty_sig : BlockBinding.record.Passes [(['s', 'i', 'g'], .string [])] := by
  refine .snoc .nil fun fault h => ?_
  cases h with
  | duplicate _ hseen => cases hseen
  | @value f _ hname _ hv =>
      obtain rfl : f = .signature := BlockBinding.label_injective hname
      have hempty : Denotes (.string (.plain [])) (.string []) := .string rfl
      have hread := (Record.rejects_iff BlockBinding.record_lawful hempty (writesValue_string (plain_of_all rfl))).1 hv
      cases hread

theorem stops_repeatedName : BlockBinding.Stops repeatedName (.misfit (.duplicate "sig".toList)) := by
  have hname : WritesText "sig".toList ['s', 'i', 'g'] := writesText_of_plain (plain_of_all rfl)
  have hempty : WritesValue (string []) (.string []) := writesValue_string (plain_of_all rfl)
  have hmember : WritesMember (string "sig".toList ++ ':' :: string []) (['s', 'i', 'g'], .string []) :=
    writesMember_of_string hname hempty
  have hbefore := WritesBefore.cons blank_nil hmember blank_nil (.nil blank_nil)
  have hopens : OpensName [(['s', 'i', 'g'], .string [])] (BlockBinding.record.label .signature) repeatedName :=
    ⟨_, _, hbefore, writesText_escaped, by simp [repeatedName, string]⟩
  exact .duplicate passes_empty_sig List.mem_cons_self hopens

theorem opensValue_first {name : Text} (h : Plain name) : OpensValue [] name ('\x7b' :: (string name ++ [':'])) :=
  ⟨_, [], [], ⟨[], name, .nil blank_nil, writesText_of_plain h, rfl⟩, blank_nil, blank_nil, by simp [string]⟩

theorem rejectedString_plain {f : BlockBinding.record.Field} {t : Text} (ht : Plain t) {fault : Fault}
    (h : BlockBinding.record.read f (.string (.plain t)) = .error fault) :
    BlockBinding.record.RejectedString f (string t) fault :=
  Record.rejectedString_of_read BlockBinding.record_lawful (writesValue_string ht) (.string (Literal.text_plain t)) h

theorem stops_brokenMember : BlockBinding.Stops brokenMember (.misfit (.badHex (.badDigit 'g'.toUInt8 1))) :=
  .value (f := BlockBinding.Field.signature) .nil List.not_mem_nil (opensValue_first (plain_of_all rfl))
    (rejectedString_plain (plain_of_all rfl) rfl)

theorem stops_brokenElement : BlockBinding.Stops brokenElement (.misfit (.badHex .wrongLength)) :=
  .element (f := BlockBinding.Field.modifiedMerkleRoot) rfl .nil ⟨[], .nil blank_nil, rfl⟩
    (rejectedString_plain (plain_of_all rfl) rfl)

theorem stops_bindingUpTo {p : Text} {fault : Fault} (h : BlockBinding.Stops p fault) :
    Reference.Stops (bindingUpTo p) fault :=
  .value (f := Reference.Field.binding) .nil List.not_mem_nil (opensValue_first (plain_of_all rfl)) (.inr ⟨rfl, h⟩)

end Json

/-- A repeated name is refused whether or not the object goes on as JSON, and so is a string in a binding, be this an
object or an array. -/
theorem ofJson_of_repeated_name :
    BlockBinding.ofJson (object repeatedMembers) = .error (.misfit (.duplicate "sig".toList)) ∧
    (∃ b p rest, object repeatedMembers = b ++ (p ++ rest) ∧
      BlockBinding.Stops p (.misfit (.duplicate "sig".toList)) ∧
      ∀ rest', BlockBinding.ofJson (b ++ (p ++ rest')) = BlockBinding.ofJson (object repeatedMembers)) ∧
    BlockBinding.ofJson (' ' :: (repeatedName ++ "]]".toList)) = .error (.misfit (.duplicate "sig".toList)) ∧
    Reference.ofJson (' ' :: (bindingUpTo brokenMember ++ "]]".toList)) =
      .error (.misfit (.badHex (.badDigit 'g'.toUInt8 1))) ∧
    Reference.ofJson (' ' :: (bindingUpTo brokenElement ++ "]]".toList)) = .error (.misfit (.badHex .wrongLength)) := by
  obtain ⟨hfirst, -, -, -, hquote, -, hbinding, hreference, -⟩ := ofJson_reports_first_fault writes_repeated
  have hblank : Blank [' '] := List.forall_mem_singleton.2 rfl
  have hrefused : BlockBinding.record.Refuses [(['s', 'i', 'g'], .string [])] (['s', 'i', 'g'], .null)
      (.misfit (.duplicate ['s', 'i', 'g'])) :=
    .duplicate (f := BlockBinding.Field.signature) rfl List.mem_cons_self
  have hfault := (hfirst _).2 (.member rfl passes_empty_sig hrefused)
  obtain ⟨b, p, rest, hsplit, -, hstops, hsame⟩ := (hquote (.misfit (.duplicate ['s', 'i', 'g'])) hfault).1 trivial
  exact ⟨hfault, ⟨b, p, rest, hsplit, hstops, hsame⟩, hbinding [' '] _ _ hblank stops_repeatedName "]]".toList,
    hreference [' '] _ _ hblank (stops_bindingUpTo stops_brokenMember) "]]".toList,
    hreference [' '] _ _ hblank (stops_bindingUpTo stops_brokenElement) "]]".toList⟩

end MinerInfo
