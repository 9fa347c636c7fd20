import Mathlib.Data.List.Induction
import MinerInfo.Proofs.JsonFields

/-! With which fault an object is refused as a record. Its members are taken as they are written, and the first that is
refused makes the fault: a second one for a field by its name alone, a first one by what the reader of the field finds
in its value. If none is refused, the first field without a member is missing. The elements of an array are taken for
the fields in their order, and the first that is rejected makes the fault. -/

namespace MinerInfo.Json

/-- A reader for which trees of the same value are alike. -/
def ByValue {α : Type} (reader : Document → Except Fault α) : Prop :=
  ∀ {d d' v}, Denotes d v → Denotes d' v → reader d = reader d'

theorem text_byValue (expected : Text) : ByValue (Document.text expected) := by
  intro d d' v hd hd'
  cases hd with
  | string h =>
      cases hd' with
      | string h' => exact h.trans h'.symm
  | _ =>
      cases hd'
      rfl

theorem hex_byValue {α : Type} (expected : Text) (decode : Text → Except Hex.Fault α) :
    ByValue (Document.hex expected decode) := by
  intro d d' v hd hd'
  rw [Document.hex, Document.hex, text_byValue expected hd hd']

namespace Record

variable {α : Type} (R : Record α)

/-- A record with a label of its own for each field, and with readers that look at values. -/
structure Lawful : Prop where
  label_injective : Function.Injective R.label
  read_byValue (f : R.Field) : ByValue (R.read f)

/-- On a text of the value alone the reader of the field has the fault. -/
def Rejects (f : R.Field) (v : Json.Value) (fault : Fault) : Prop :=
  ∃ w, WritesValue w v ∧ Json.read (R.read f) w = .error fault

def Accepts (f : R.Field) (v : Json.Value) : Prop := ∀ fault, ¬R.Rejects f v fault

/-- A member is refused behind the ones in front of it: it is the second one for a field, or the reader of the field
rejects its value. -/
inductive Refuses (before : List (Text × Json.Value)) (n : Text × Json.Value) : Fault → Prop where
  | duplicate {f : R.Field} (hname : R.label f = n.1) (hseen : n.1 ∈ before.map Prod.fst) :
      Refuses before n (.misfit (.duplicate n.1))
  | value {f : R.Field} {fault : Fault} (hname : R.label f = n.1) (hnew : n.1 ∉ before.map Prod.fst)
      (hv : R.Rejects f n.2 fault) : Refuses before n fault

/-- Members of which none is refused behind the ones in front of it. -/
inductive Passes : List (Text × Json.Value) → Prop where
  | nil : Passes []
  | snoc {before : List (Text × Json.Value)} {n : Text × Json.Value} (h : Passes before)
      (hn : ∀ fault, ¬R.Refuses before n fault) : Passes (before ++ [n])

/-- What is wrong with the members of an object, from left to right: the first that is refused, and else the first
field that is missing. -/
inductive FirstFault (ns : List (Text × Json.Value)) : Fault → Prop where
  | member {before after : List (Text × Json.Value)} {n : Text × Json.Value} {fault : Fault}
      (hns : ns = before ++ n :: after) (h : R.Passes before) (hn : R.Refuses before n fault) : FirstFault ns fault
  | missing {f : R.Field} (h : R.Passes ns)
      (hf : R.fields.find? (fun g => R.label g ∉ ns.map Prod.fst) = some f) :
      FirstFault ns (.misfit (.missing (R.label f)))

variable {R}

theorem passes_or_refuses (ns : List (Text × Json.Value)) :
    R.Passes ns ∨ ∃ before n after fault, ns = before ++ n :: after ∧ R.Passes before ∧ R.Refuses before n fault := by
  induction ns using List.reverseRecOn with
  | nil => exact .inl .nil
  | append_singleton ns n ih =>
      rcases ih with hpass | ⟨before, n', after, fault, rfl, hpass, hn'⟩
      · by_cases hn : ∃ fault, R.Refuses ns n fault
        · obtain ⟨fault, hn⟩ := hn
          exact .inr ⟨ns, n, [], fault, rfl, hpass, hn⟩
        · exact .inl (.snoc hpass (not_exists.1 hn))
      · exact .inr ⟨before, n', after ++ [n], fault, by rw [List.append_assoc]; rfl, hpass, hn'⟩

theorem writes_of_writesValue {w : Text} {v : Json.Value} (h : WritesValue w v) : Writes w v :=
  ⟨[], w, [], List.forall_mem_nil _, h, List.forall_mem_nil _, (List.append_nil w).symm⟩

theorem rejects_iff (hR : R.Lawful) {f : R.Field} {d : Document} {v : Json.Value} {w : Text} {fault : Fault}
    (hd : Denotes d v) (hw : WritesValue w v) : R.Rejects f v fault ↔ R.read f d = .error fault := by
  have hread {w' : Text} (hw' : WritesValue w' v) : Json.read (R.read f) w' = R.read f d := by
    obtain ⟨d', hd', hread⟩ := read_of_writes (R.read f) (writes_of_writesValue hw')
    exact hread.trans (hR.read_byValue f hd' hd)
  constructor
  · rintro ⟨w', hw', hfault⟩
    rwa [hread hw'] at hfault
  · intro hfault
    exact ⟨w, hw, (hread hw).trans hfault⟩

/-- The fields of a draft that are open are those without a member. -/
def Seen (draft : R.Draft) (ns : List (Text × Json.Value)) : Prop :=
  ∀ f, draft f = none ↔ R.label f ∉ ns.map Prod.fst

theorem seen_blank : Seen R.blank [] := fun _ => ⟨fun _ => List.not_mem_nil, fun _ => rfl⟩

theorem accept_of_taken (hR : R.Lawful) {draft : R.Draft} {m : Member} {f : R.Field}
    (hname : m.1.text = .ok (R.label f)) (htaken : draft f ≠ none) :
    draft.accept m = .error (.misfit (.duplicate (R.label f))) := by
  rw [Draft.accept, hname]
  simp only [bind, Except.bind, find?_label hR.label_injective, Option.isSome_iff_ne_none.2 htaken, if_true]
  rfl

theorem accept_of_rejected (hR : R.Lawful) {draft : R.Draft} {m : Member} {f : R.Field} {fault : Fault}
    (hname : m.1.text = .ok (R.label f)) (hopen : draft f = none) (hread : R.read f m.2 = .error fault) :
    draft.accept m = .error fault := by
  rw [Draft.accept, hname]
  simp only [bind, Except.bind, find?_label hR.label_injective, hopen, hread]
  rfl

theorem accept_eq_error_iff (hR : R.Lawful) {draft : R.Draft} {before : List (Text × Json.Value)}
    (hseen : Seen draft before) {m : Member} {n : Text × Json.Value} (hm : DenotesMember m n) {w : Text}
    (hw : WritesValue w n.2) {fault : Fault} : draft.accept m = .error fault ↔ R.Refuses before n fault := by
  cases hm with
  | @parts l d name v hname hd =>
      by_cases hfield : ∃ f, R.label f = name
      · obtain ⟨f, rfl⟩ := hfield
        have hsame {g : R.Field} (hg : R.label g = R.label f) : g = f := hR.label_injective hg
        by_cases hnew : R.label f ∈ before.map Prod.fst
        · have htaken : draft f ≠ none := fun hopen => (hseen f).1 hopen hnew
          rw [accept_of_taken hR hname htaken, Except.error.injEq]
          constructor
          · rintro rfl
            exact .duplicate rfl hnew
          · intro h
            cases h with
            | duplicate _ _ => rfl
            | value _ hnew' _ => exact absurd hnew hnew'
        · have hopen := (hseen f).2 hnew
          have hrejects : draft.accept (l, d) = .error fault ↔ R.Rejects f v fault := by
            rw [rejects_iff hR hd hw]
            cases hread : R.read f d with
            | error fault' =>
                rw [accept_of_rejected hR (m := (l, d)) hname hopen hread, Except.error.injEq, Except.error.injEq]
            | ok x =>
                rw [accept_field hR.label_injective (m := (l, d)) hname hopen hread]
                exact iff_of_false ok_ne_error ok_ne_error
          rw [hrejects]
          constructor
          · exact fun hv => .value (n := (R.label f, v)) rfl hnew hv
          · intro h
            cases h with
            | duplicate _ hseen' => exact absurd hseen' hnew
            | value hg _ hv => exact hsame hg ▸ hv
      · have hnone : ∀ f, R.label f ≠ name := not_exists.1 hfield
        rw [accept_of_no_field hname hnone hd.skip]
        constructor
        · intro h
          cases h
        · rintro (⟨hg, -⟩ | ⟨hg, -, -⟩) <;> exact absurd hg (hnone _)

theorem read_eq_ok_iff_byValue (hR : R.Lawful) {f : R.Field} {d : Document} {v : Json.Value} {x : R.Value f}
    (hd : Denotes d v) : R.read f d = .ok x ↔ ∃ d', Denotes d' v ∧ R.read f d' = .ok x := by
  constructor
  · exact fun h => ⟨d, hd, h⟩
  · rintro ⟨d', hd', h⟩
    exact (hR.read_byValue f hd hd').trans h

theorem seen_of_accept (hR : R.Lawful) {draft next : R.Draft} {before : List (Text × Json.Value)}
    (hseen : Seen draft before) {m : Member} {n : Text × Json.Value} (hm : DenotesMember m n)
    (h : draft.accept m = .ok next) : Seen next (before ++ [n]) := by
  intro g
  rw [List.map_append, List.mem_append, not_or, List.map_singleton, List.mem_singleton]
  rcases (accept_eq_ok_iff hR.label_injective (read_eq_ok_iff_byValue hR) hm).1 h with
    ⟨hnone, rfl⟩ | ⟨f, x, hname, -, -, rfl⟩
  · exact ⟨fun hopen => ⟨(hseen g).1 hopen, hnone g⟩, fun hnew => (hseen g).2 hnew.1⟩
  · by_cases hg : g = f
    · subst hg
      rw [put_self]
      exact ⟨fun hopen => (by cases hopen), fun hnew => absurd hname hnew.2⟩
    · have hne : R.label g ≠ n.1 := fun heq => hg (hR.label_injective (heq.trans hname.symm))
      rw [put_of_ne draft hg, hseen g]
      exact ⟨fun hnew => ⟨hnew, hne⟩, fun hnew => hnew.1⟩

theorem finish_eq_error_iff {draft : R.Draft} {ns : List (Text × Json.Value)} (hseen : Seen draft ns) {fault : Fault} :
    draft.finish = .error fault ↔
      ∃ f, R.fields.find? (fun g => R.label g ∉ ns.map Prod.fst) = some f ∧ fault = .misfit (.missing (R.label f)) := by
  have hopen : (fun f => (draft f).isNone) = fun g => decide (R.label g ∉ ns.map Prod.fst) := by
    funext g
    rw [Bool.eq_iff_iff, Option.isNone_iff_eq_none, decide_eq_true_eq, hseen g]
  rw [Draft.finish, ← hopen]
  split
  · rename_i f hfind
    simp [hfind, eq_comm]
  · rename_i hfind
    simp [hfind]

theorem exists_append_of_forall₂ {α β : Type} {r : α → β → Prop} {as : List α} {bs bs' : List β}
    (h : List.Forall₂ r as (bs ++ bs')) :
    ∃ as₁ as₂, as = as₁ ++ as₂ ∧ List.Forall₂ r as₁ bs ∧ List.Forall₂ r as₂ bs' :=
  ⟨_, _, (List.take_append_drop bs.length as).symm, List.forall₂_take_append as bs bs' h,
    List.forall₂_drop_append as bs bs' h⟩

/-- Members that pass are taken, and the draft then tells which fields they are for. -/
theorem foldlM_accept_of_passes (hR : R.Lawful) {ns : List (Text × Json.Value)} (h : R.Passes ns)
    (hns : ∀ n ∈ ns, ∃ w, WritesValue w n.2) {ms : List Member} (hms : List.Forall₂ DenotesMember ms ns) :
    ∃ draft, ms.foldlM Draft.accept R.blank = .ok draft ∧ Seen draft ns := by
  -- from the right: the last member meets the draft of those in front of it
  induction h generalizing ms with
  | nil =>
      cases hms
      exact ⟨R.blank, rfl, seen_blank⟩
  | @snoc before n _ hn ih =>
      obtain ⟨ms, _, rfl, hbefore, hlast⟩ := exists_append_of_forall₂ hms
      obtain ⟨m, _, hm, hnil, rfl⟩ := List.forall₂_cons_right_iff.1 hlast
      obtain rfl := List.forall₂_nil_right_iff.1 hnil
      obtain ⟨draft, hdraft, hseen⟩ := ih (fun n' hn' => hns n' (List.mem_append_left _ hn')) hbefore
      obtain ⟨w, hw⟩ := hns n (List.mem_append_right _ List.mem_cons_self)
      cases hnext : draft.accept m with
      | error fault => exact absurd ((accept_eq_error_iff hR hseen hm hw).1 hnext) (hn fault)
      | ok next =>
          refine ⟨next, ?_, seen_of_accept hR hseen hm hnext⟩
          rw [List.foldlM_append, hdraft]
          simp only [bind, Except.bind, List.foldlM_cons, hnext]
          rfl

/-- Behind members that pass, one that is refused makes the fault, however the object goes on. -/
theorem ofDocument_of_refused (hR : R.Lawful) {before : List (Text × Json.Value)} (h : R.Passes before)
    (hbefore : ∀ n ∈ before, ∃ w, WritesValue w n.2) {ms : List Member} (hms : List.Forall₂ DenotesMember ms before)
    {m : Member} {fault : Fault} (hm : ∀ draft : R.Draft, Seen draft before → draft.accept m = .error fault)
    (more : List Member) (ending : Except Fault Unit) :
    R.ofDocument (.object (ms ++ m :: more) ending) = .error fault := by
  obtain ⟨draft, hdraft, hseen⟩ := foldlM_accept_of_passes hR h hbefore hms
  have hfold : (ms ++ m :: more).foldlM Draft.accept R.blank = .error fault := by
    rw [List.foldlM_append, hdraft]
    simp only [bind, Except.bind, List.foldlM_cons, hm draft hseen]
  rw [ofDocument, hfold]
  rfl

theorem ofDocument_of_firstFault (hR : R.Lawful) {ns : List (Text × Json.Value)}
    (hns : ∀ n ∈ ns, ∃ w, WritesValue w n.2) {d : Document} (hd : Denotes d (.object ns)) {fault : Fault}
    (h : R.FirstFault ns fault) : R.ofDocument d = .error fault := by
  cases hd with
  | @object ms _ hms =>
      cases h with
      | @member before after n _ hsplit hpass hn =>
          subst hsplit
          obtain ⟨ms, _, rfl, hbefore, hmore⟩ := exists_append_of_forall₂ hms
          obtain ⟨m, more, hm, -, rfl⟩ := List.forall₂_cons_right_iff.1 hmore
          obtain ⟨w, hw⟩ := hns n (List.mem_append_right _ List.mem_cons_self)
          exact ofDocument_of_refused hR hpass (fun n' hn' => hns n' (List.mem_append_left _ hn')) hbefore
            (fun draft hseen => (accept_eq_error_iff hR hseen hm hw).2 hn) more _
      | @missing f hpass hf =>
          obtain ⟨draft, hdraft, hseen⟩ := foldlM_accept_of_passes hR hpass hns hms
          rw [ofDocument, hdraft]
          exact (finish_eq_error_iff hseen).2 ⟨f, hf, rfl⟩

theorem ofDocument_eq_error_iff (hR : R.Lawful) {ns : List (Text × Json.Value)}
    (hns : ∀ n ∈ ns, ∃ w, WritesValue w n.2) {d : Document} (hd : Denotes d (.object ns)) {fault : Fault} :
    R.ofDocument d = .error fault ↔ R.FirstFault ns fault := by
  refine ⟨fun h => ?_, ofDocument_of_firstFault hR hns hd⟩
  rcases passes_or_refuses (R := R) ns with hpass | ⟨before, n, after, fault', hsplit, hpass, hn⟩
  · cases hd with
    | @object ms _ hms =>
        obtain ⟨draft, hdraft, hseen⟩ := foldlM_accept_of_passes hR hpass hns hms
        rw [ofDocument, hdraft] at h
        obtain ⟨f, hf, rfl⟩ := (finish_eq_error_iff hseen).1 h
        exact .missing hpass hf
  · -- the reading has one fault only, and the member that is refused has one for it
    have hfirst : R.FirstFault ns fault' := .member hsplit hpass hn
    rw [ofDocument_of_firstFault hR hns hd hfirst] at h
    cases h
    exact hfirst

/-- The reader of the field takes the tree. -/
def Reads (f : R.Field) (d : Document) : Prop := ∃ x, R.read f d = .ok x

theorem reads_iff (hR : R.Lawful) {f : R.Field} {d : Document} {v : Json.Value} {w : Text} (hd : Denotes d v)
    (hw : WritesValue w v) : Reads f d ↔ R.Accepts f v := by
  constructor
  · rintro ⟨x, hx⟩ fault hv
    rw [(rejects_iff hR hd hw).1 hv] at hx
    cases hx
  · intro h
    cases hread : R.read f d with
    | ok x => exact ⟨x, hread⟩
    | error fault => exact absurd ((rejects_iff hR hd hw).2 hread) (h fault)

theorem forall₂_reads_iff (hR : R.Lawful) {fs : List R.Field} {ds : List Document} {vs : List Json.Value}
    (hds : List.Forall₂ Denotes ds vs) (hvs : ∀ v ∈ vs, ∃ w, WritesValue w v) :
    List.Forall₂ Reads fs ds ↔ List.Forall₂ R.Accepts fs vs := by
  induction hds generalizing fs with
  | nil => rw [List.forall₂_nil_right_iff, List.forall₂_nil_right_iff]
  | cons hd _ ih =>
      obtain ⟨⟨w, hw⟩, hvs⟩ := List.forall_mem_cons.1 hvs
      rw [List.forall₂_cons_right_iff, List.forall₂_cons_right_iff]
      simp only [reads_iff hR hd hw, ih hvs]

theorem fill_of_rejected {done fs : List R.Field} {f : R.Field} {taken more : List Document} {d : Document}
    {fault : Fault} (htaken : List.Forall₂ Reads done taken) (hd : R.read f d = .error fault) (draft : R.Draft)
    (count : Nat) (ending : Except Fault Unit) :
    draft.fill count ending (done ++ f :: fs) (taken ++ d :: more) = .error fault := by
  induction htaken generalizing draft with
  | nil =>
      rw [List.nil_append, List.nil_append, Draft.fill, hd]
      rfl
  | @cons g e done taken hread _ ih =>
      obtain ⟨x, hx⟩ := hread
      rw [List.cons_append, List.cons_append, Draft.fill, hx]
      exact ih (draft.put g x)

/-- Behind elements that are taken, one that is rejected for its field makes the fault, however the array goes on. -/
theorem ofDocument_of_rejected {done fs : List R.Field} {f : R.Field} (hfields : R.fields = done ++ f :: fs)
    {taken : List Document} (htaken : List.Forall₂ Reads done taken) {d : Document} {fault : Fault}
    (hd : R.read f d = .error fault) (more : List Document) (ending : Except Fault Unit) :
    R.ofDocument (.array (taken ++ d :: more) ending) = .error fault := by
  rw [ofDocument, hfields, fill_of_rejected htaken hd]
  rfl

/-- The elements of an array fail for one that is rejected behind others that are taken, or for their number. -/
theorem rejected_of_fill {count : Nat} {fs : List R.Field} {ds : List Document} {draft : R.Draft} {fault : Fault}
    (h : draft.fill count (.ok ()) fs ds = .error fault) :
    (∃ done f fs' taken d more, fs = done ++ f :: fs' ∧ ds = taken ++ d :: more ∧ List.Forall₂ Reads done taken ∧
      R.read f d = .error fault) ∨
    ds.length ≠ fs.length ∧ (fault = .malformed ∨ fault = .misfit (.tooFew count R.title R.fields.length)) := by
  induction fs generalizing ds draft with
  | nil =>
      cases ds with
      | nil => cases h
      | cons d ds =>
          cases h
          exact .inr ⟨Nat.succ_ne_zero _, .inl rfl⟩
  | cons f fs ih =>
      cases ds with
      | nil =>
          cases h
          exact .inr ⟨(Nat.succ_ne_zero _).symm, .inr rfl⟩
      | cons d ds =>
          rw [Draft.fill] at h
          cases hread : R.read f d with
          | error fault' =>
              rw [hread] at h
              cases h
              exact .inl ⟨[], f, fs, [], d, ds, rfl, rfl, .nil, hread⟩
          | ok x =>
              rw [hread] at h
              rcases ih h with ⟨done, g, fs', taken, e, more, rfl, rfl, htaken, he⟩ | ⟨hlength, hfault⟩
              · exact .inl ⟨f :: done, g, fs', d :: taken, e, more, rfl, rfl, .cons ⟨x, hread⟩ htaken, he⟩
              · exact .inr ⟨fun heq => hlength (Nat.succ.inj heq), hfault⟩

theorem accept_congr (hR : R.Lawful) (draft : R.Draft) {m m' : Member} {n : Text × Json.Value}
    (hm : DenotesMember m n) (hm' : DenotesMember m' n) : draft.accept m = draft.accept m' := by
  cases hm with
  | parts hname hd =>
      cases hm' with
      | parts hname' hd' =>
          have hread (f : R.Field) := hR.read_byValue f hd hd'
          rw [Draft.accept, Draft.accept, hname, hname', hd.skip, hd'.skip]
          simp only [hread]

theorem foldlM_accept_congr (hR : R.Lawful) {ms ms' : List Member} {ns : List (Text × Json.Value)}
    (hms : List.Forall₂ DenotesMember ms ns) (hms' : List.Forall₂ DenotesMember ms' ns) (draft : R.Draft) :
    ms.foldlM Draft.accept draft = ms'.foldlM Draft.accept draft := by
  induction hms generalizing ms' draft with
  | nil =>
      cases hms'
      rfl
  | cons hm _ ih =>
      cases hms' with
      | cons hm' hms' =>
          rw [List.foldlM_cons, List.foldlM_cons, accept_congr hR draft hm hm']
          exact congrArg _ (funext fun next => ih hms' next)

theorem fill_congr (hR : R.Lawful) (count : Nat) (ending : Except Fault Unit) (fs : List R.Field)
    {ds ds' : List Document} {vs : List Json.Value} (hds : List.Forall₂ Denotes ds vs)
    (hds' : List.Forall₂ Denotes ds' vs) (draft : R.Draft) :
    draft.fill count ending fs ds = draft.fill count ending fs ds' := by
  induction fs generalizing ds ds' vs draft with
  | nil =>
      cases hds with
      | nil =>
          cases hds'
          rfl
      | cons _ _ =>
          cases hds'
          rfl
  | cons f fs ih =>
      cases hds with
      | nil =>
          cases hds'
          rfl
      | cons hd hds =>
          cases hds' with
          | cons hd' hds' =>
              rw [Draft.fill, Draft.fill, hR.read_byValue f hd hd']
              exact congrArg _ (funext fun x => ih hds hds' (draft.put f x))

theorem ofDocument_byValue (hR : R.Lawful) : ByValue R.ofDocument := by
  intro d d' v hd hd'
  cases hd with
  | array hds =>
      cases hd' with
      | array hds' =>
          rw [ofDocument, ofDocument, fill_congr hR _ _ _ hds hds', hds.length_eq, hds'.length_eq]
  | object hms =>
      cases hd' with
      | object hms' => rw [ofDocument, ofDocument, foldlM_accept_congr hR hms hms']
  | string h =>
      cases hd' with
      | string h' =>
          refine congrArg Except.error ?_
          rw [Document.unexpected, Document.unexpected, h, h']
  | _ =>
      cases hd'
      rfl

end Record

end MinerInfo.Json
