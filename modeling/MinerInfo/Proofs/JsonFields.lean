import MinerInfo.Proofs.JsonGrammar
import MinerInfo.Proofs.JsonRecord

/-! Which trees are read as records. What the reader of a field does is told by a relation between values and what is
read of them. Then a record is read from the tree of a value exactly if the value gives a value for each field and
these stand in the relations of the fields. For an object this is seen field by field: the members of other names leave
a field of the draft as it is, the first of its own name has to find it open, and a second finds it taken. -/

namespace MinerInfo.Json

theorem bind_eq_ok_iff {ε α β : Type} {x : Except ε α} {f : α → Except ε β} {b : β} :
    x >>= f = .ok b ↔ ∃ a, x = .ok a ∧ f a = .ok b := by
  cases x with
  | error e => simp [bind, Except.bind]
  | ok a => simp [bind, Except.bind]

/-- The members of an object that have the given name. -/
def named (name : Text) (ms : List (Text × Value)) : List (Text × Value) := ms.filter (·.1 = name)

theorem mem_named {name : Text} {ms : List (Text × Value)} {m : Text × Value} :
    m ∈ named name ms ↔ m ∈ ms ∧ m.1 = name := by
  rw [named, List.mem_filter, decide_eq_true_iff]

/-- The values that stand in a value for the given names: the elements of an array, one for each name, or the values of
the members of an object, of which each name has exactly one. -/
inductive Value.Gives (names : List Text) : Value → List Value → Prop where
  | array {vs : List Value} (h : vs.length = names.length) : Gives names (.array vs) vs
  | object {ms : List (Text × Value)} {vs : List Value}
      (h : List.Forall₂ (fun name v => named name ms = [(name, v)]) names vs) : Gives names (.object ms) vs

namespace Record

variable {α : Type} {R : Record α}

theorem find?_eq_none_iff {name : Text} :
    R.fields.find? (fun f => R.label f = name) = none ↔ ∀ f, R.label f ≠ name := by
  rw [List.find?_eq_none]
  constructor
  · intro h f heq
    exact h f (R.mem_fields f) (decide_eq_true heq)
  · intro h f _ heq
    exact h f (of_decide_eq_true heq)

theorem finish_eq_ok_iff {draft : R.Draft} {a : α} :
    draft.finish = .ok a ↔ ∃ x, (∀ f, draft f = some (x f)) ∧ a = R.build x := by
  constructor
  · intro h
    rw [Draft.finish] at h
    split at h
    · cases h
    · cases h
      exact ⟨_, fun f => (Option.some_get _).symm, rfl⟩
  · rintro ⟨x, hx, rfl⟩
    exact finish_of_known hx

theorem put_self (draft : R.Draft) (f : R.Field) (x : R.Value f) : draft.put f x f = some x := by
  rw [Draft.put, dif_pos rfl]

theorem put_of_ne (draft : R.Draft) {f g : R.Field} (h : g ≠ f) (x : R.Value f) : draft.put f x g = draft g := by
  rw [Draft.put, dif_neg h]

variable {means : (f : R.Field) → Json.Value → R.Value f → Prop}

/-- What members do to one field of a draft. Without a member of its name it stays; with one it was open, and it has
what is read of the member's value; it does not get through two. -/
def Takes (means : (f : R.Field) → Json.Value → R.Value f → Prop) (draft : R.Draft) (ns : List (Text × Json.Value))
    (draft' : R.Draft) (f : R.Field) : Prop :=
  named (R.label f) ns = [] ∧ draft' f = draft f ∨
    draft f = none ∧ ∃ v x, named (R.label f) ns = [(R.label f, v)] ∧ means f v x ∧ draft' f = some x

theorem takes_nil {draft draft' : R.Draft} {f : R.Field} :
    Takes means draft [] draft' f ↔ draft' f = draft f := by
  simp [Takes, named]

theorem takes_cons_of_ne {draft next draft' : R.Draft} {f : R.Field} {name : Text} {v : Json.Value}
    {ns : List (Text × Json.Value)} (hname : name ≠ R.label f) (hnext : next f = draft f) :
    Takes means draft ((name, v) :: ns) draft' f ↔ Takes means next ns draft' f := by
  have hnamed : named (R.label f) ((name, v) :: ns) = named (R.label f) ns :=
    List.filter_cons_of_neg (by simpa using hname)
  rw [Takes, Takes, hnamed, hnext]

theorem takes_cons_self {draft draft' : R.Draft} {f : R.Field} {v : Json.Value} {ns : List (Text × Json.Value)} :
    Takes means draft ((R.label f, v) :: ns) draft' f ↔
      draft f = none ∧ ∃ x, means f v x ∧ Takes means (draft.put f x) ns draft' f := by
  have hnamed : named (R.label f) ((R.label f, v) :: ns) = (R.label f, v) :: named (R.label f) ns :=
    List.filter_cons_of_pos (by simp)
  constructor
  · rintro (⟨hnil, -⟩ | ⟨hopen, w, x, hw, hmeans, hdraft⟩)
    · rw [hnamed] at hnil
      cases hnil
    · rw [hnamed, List.cons.injEq, Prod.mk.injEq] at hw
      obtain ⟨⟨-, rfl⟩, hnil⟩ := hw
      exact ⟨hopen, x, hmeans, Or.inl ⟨hnil, hdraft.trans (put_self draft f x).symm⟩⟩
  · rintro ⟨hopen, x, hmeans, ⟨hnil, hdraft⟩ | ⟨hput, -⟩⟩
    · exact Or.inr ⟨hopen, v, x, by rw [hnamed, hnil], hmeans, hdraft.trans (put_self draft f x)⟩
    · rw [put_self] at hput
      cases hput

theorem accept_of_no_field {draft : R.Draft} {m : Member} {name : Text} (hname : m.1.text = .ok name)
    (hnone : ∀ f, R.label f ≠ name) (hskip : m.2.skip = .ok ()) : draft.accept m = .ok draft := by
  rw [Draft.accept, hname]
  simp only [bind, Except.bind, find?_eq_none_iff.2 hnone, hskip]
  rfl

theorem accept_eq_ok_iff (hinj : Function.Injective R.label)
    (hread : ∀ {f d v x}, Denotes d v → (R.read f d = .ok x ↔ means f v x)) {m : Member} {n : Text × Json.Value}
    (hm : DenotesMember m n) {draft next : R.Draft} :
    draft.accept m = .ok next ↔ (∀ f, R.label f ≠ n.1) ∧ next = draft ∨
      ∃ f x, R.label f = n.1 ∧ draft f = none ∧ means f n.2 x ∧ next = draft.put f x := by
  cases hm with
  | @parts l d name v hname hd =>
      constructor
      · intro h
        by_cases hfield : ∃ f, R.label f = name
        · obtain ⟨f, rfl⟩ := hfield
          rw [Draft.accept, hname] at h
          simp only [bind, Except.bind, find?_label hinj] at h
          cases hopen : draft f with
          | some y =>
              simp only [hopen] at h
              cases h
          | none =>
              simp only [hopen] at h
              cases hx : R.read f d with
              | error fault =>
                  simp only [hx] at h
                  cases h
              | ok x =>
                  simp only [hx] at h
                  cases h
                  exact Or.inr ⟨f, x, rfl, hopen, (hread hd).1 hx, rfl⟩
        · have hnone : ∀ f, R.label f ≠ name := not_exists.1 hfield
          rw [accept_of_no_field hname hnone hd.skip] at h
          cases h
          exact Or.inl ⟨hnone, rfl⟩
      · rintro (⟨hnone, rfl⟩ | ⟨f, x, rfl, hopen, hmeans, rfl⟩)
        · exact accept_of_no_field hname hnone hd.skip
        · exact accept_field hinj hname hopen ((hread hd).2 hmeans)

/-- Members are taken exactly if each field takes them. -/
theorem foldlM_accept_eq_ok_iff (hinj : Function.Injective R.label)
    (hread : ∀ {f d v x}, Denotes d v → (R.read f d = .ok x ↔ means f v x)) {ms : List Member}
    {ns : List (Text × Json.Value)} (hms : List.Forall₂ DenotesMember ms ns) {draft draft' : R.Draft} :
    ms.foldlM Draft.accept draft = .ok draft' ↔ ∀ f, Takes means draft ns draft' f := by
  induction hms generalizing draft with
  | nil =>
      rw [List.foldlM_nil]
      constructor
      · intro h f
        cases h
        exact takes_nil.2 rfl
      · intro h
        exact congrArg Except.ok (funext fun f => (takes_nil.1 (h f)).symm)
  | @cons m n ms ns hm hms ih =>
      obtain ⟨name, v⟩ := n
      simp only [List.foldlM_cons, bind_eq_ok_iff, ih, accept_eq_ok_iff hinj hread hm]
      constructor
      · rintro ⟨next, ⟨hnone, rfl⟩ | ⟨f, x, rfl, hopen, hmeans, rfl⟩, htakes⟩ g
        · exact (takes_cons_of_ne (hnone g).symm rfl).2 (htakes g)
        · by_cases hg : g = f
          · subst hg
            exact takes_cons_self.2 ⟨hopen, x, hmeans, htakes g⟩
          · exact (takes_cons_of_ne (fun h => hg (hinj h.symm)) (put_of_ne draft hg x)).2 (htakes g)
      · intro htakes
        by_cases hfield : ∃ f, R.label f = name
        · obtain ⟨f, rfl⟩ := hfield
          obtain ⟨hopen, x, hmeans, hput⟩ := takes_cons_self.1 (htakes f)
          refine ⟨draft.put f x, Or.inr ⟨f, x, rfl, hopen, hmeans, rfl⟩, fun g => ?_⟩
          by_cases hg : g = f
          · rwa [hg]
          · exact (takes_cons_of_ne (fun h => hg (hinj h.symm)) (put_of_ne draft hg x)).1 (htakes g)
        · have hnone : ∀ f, R.label f ≠ name := not_exists.1 hfield
          exact ⟨draft, Or.inl ⟨hnone, rfl⟩, fun g => (takes_cons_of_ne (hnone g).symm rfl).1 (htakes g)⟩

theorem takes_blank_iff {ns : List (Text × Json.Value)} {draft : R.Draft} {f : R.Field} {x : R.Value f}
    (hx : draft f = some x) :
    Takes means R.blank ns draft f ↔ ∃ v, named (R.label f) ns = [(R.label f, v)] ∧ means f v x := by
  rw [Takes, hx]
  constructor
  · rintro (⟨-, h⟩ | ⟨-, v, y, hnamed, hmeans, hy⟩)
    · cases h
    · cases hy
      exact ⟨v, hnamed, hmeans⟩
  · rintro ⟨v, hnamed, hmeans⟩
    exact Or.inr ⟨rfl, v, x, hnamed, hmeans, rfl⟩

theorem fill_eq_ok_iff (hread : ∀ {f d v x}, Denotes d v → (R.read f d = .ok x ↔ means f v x)) (count : Nat)
    {fs : List R.Field} (hnodup : fs.Nodup) {ds : List Document} {vs : List Json.Value}
    (hds : List.Forall₂ Denotes ds vs) {draft draft' : R.Draft} :
    draft.fill count (.ok ()) fs ds = .ok draft' ↔
      List.Forall₂ (fun f v => ∃ x, means f v x ∧ draft' f = some x) fs vs ∧ ∀ f ∉ fs, draft' f = draft f := by
  induction fs generalizing draft ds vs with
  | nil =>
      cases hds with
      | nil =>
          rw [Draft.fill]
          constructor
          · intro h
            cases h
            exact ⟨.nil, fun _ _ => rfl⟩
          · rintro ⟨-, h⟩
            exact congrArg Except.ok (funext fun f => (h f List.not_mem_nil).symm)
      | cons hd hds =>
          rw [Draft.fill]
          exact iff_of_false ok_ne_error.symm fun h => Nat.succ_ne_zero _ h.1.length_eq.symm
  | cons f fs ih =>
      obtain ⟨hf, hnodup⟩ := List.nodup_cons.1 hnodup
      cases hds with
      | nil =>
          rw [Draft.fill]
          exact iff_of_false ok_ne_error.symm fun h => Nat.succ_ne_zero _ h.1.length_eq
      | @cons d v ds vs hd hds =>
          simp only [Draft.fill, bind_eq_ok_iff, ih hnodup hds, List.forall₂_cons, hread hd]
          constructor
          · rintro ⟨x, hmeans, hfs, hothers⟩
            refine ⟨⟨⟨x, hmeans, (hothers f hf).trans (put_self draft f x)⟩, hfs⟩, fun g hg => ?_⟩
            rw [List.mem_cons, not_or] at hg
            exact (hothers g hg.2).trans (put_of_ne draft hg.1 x)
          · rintro ⟨⟨⟨x, hmeans, hx⟩, hfs⟩, hothers⟩
            refine ⟨x, hmeans, hfs, fun g hg => ?_⟩
            by_cases hgf : g = f
            · subst hgf
              exact hx.trans (put_self draft g x).symm
            · rw [put_of_ne draft hgf, hothers g (List.not_mem_cons_of_ne_of_not_mem hgf hg)]

theorem forall_exists_iff {P Q : R.Field → Json.Value → Prop} :
    (∀ f, ∃ v, P f v ∧ Q f v) ↔ ∃ vs, List.Forall₂ P R.fields vs ∧ List.Forall₂ Q R.fields vs := by
  constructor
  · intro h
    choose w hP hQ using h
    refine ⟨R.fields.map w, ?_, ?_⟩
    · exact List.forall₂_map_right_iff.2 (List.forall₂_same.2 fun f _ => hP f)
    · exact List.forall₂_map_right_iff.2 (List.forall₂_same.2 fun f _ => hQ f)
  · rintro ⟨vs, hP, hQ⟩ f
    obtain ⟨i, hi, rfl⟩ := List.getElem_of_mem (R.mem_fields f)
    have hi' : i < vs.length := hP.length_eq ▸ hi
    exact ⟨vs[i], hP.get hi hi', hQ.get hi hi'⟩

/-- A record is read from the tree of a value exactly if the value gives the values of its fields. -/
theorem ofDocument_eq_ok_iff (hinj : Function.Injective R.label) (hnodup : R.fields.Nodup)
    (hread : ∀ {f d v x}, Denotes d v → (R.read f d = .ok x ↔ means f v x)) {d : Document} {v : Json.Value}
    (hd : Denotes d v) {a : α} :
    R.ofDocument d = .ok a ↔ ∃ vs x, v.Gives (R.fields.map R.label) vs ∧
      List.Forall₂ (fun f v => means f v (x f)) R.fields vs ∧ a = R.build x := by
  cases hd with
  | @array ds vs hds =>
      simp only [ofDocument, bind_eq_ok_iff, finish_eq_ok_iff, fill_eq_ok_iff hread _ hnodup hds]
      constructor
      · rintro ⟨draft, ⟨hfs, -⟩, x, hx, rfl⟩
        refine ⟨vs, x, .array ?_, hfs.imp ?_, rfl⟩
        · rw [List.length_map, hfs.length_eq]
        · rintro f v ⟨y, hmeans, hy⟩
          rw [hx f, Option.some.injEq] at hy
          rwa [hy]
      · rintro ⟨_, x, ⟨-⟩, hfs, rfl⟩
        refine ⟨fun f => some (x f), ⟨?_, fun f hf => absurd (R.mem_fields f) hf⟩, x, fun _ => rfl, rfl⟩
        exact hfs.imp fun f v hmeans => ⟨x f, hmeans, rfl⟩
  | @object ms ns hms =>
      have hfields : R.ofDocument (.object ms (.ok ())) = .ok a ↔
          ∃ x, (∀ f, ∃ v, named (R.label f) ns = [(R.label f, v)] ∧ means f v (x f)) ∧ a = R.build x := by
        simp only [ofDocument, bind_eq_ok_iff, finish_eq_ok_iff, foldlM_accept_eq_ok_iff hinj hread hms]
        constructor
        · rintro ⟨draft, htakes, -, -, x, hx, rfl⟩
          exact ⟨x, fun f => (takes_blank_iff (hx f)).1 (htakes f), rfl⟩
        · rintro ⟨x, hx, rfl⟩
          exact ⟨fun f => some (x f), fun f => (takes_blank_iff rfl).2 (hx f), (), trivial, x, fun _ => rfl, rfl⟩
      simp only [hfields, forall_exists_iff]
      constructor
      · rintro ⟨x, ⟨vs, hnamed, hmeans⟩, rfl⟩
        exact ⟨vs, x, .object (List.forall₂_map_left_iff.2 hnamed), hmeans, rfl⟩
      · rintro ⟨vs, x, hgives, hmeans, rfl⟩
        cases hgives with
        | object hnamed => exact ⟨x, ⟨vs, List.forall₂_map_left_iff.1 hnamed, hmeans⟩, rfl⟩
  | _ =>
      constructor
      · intro h
        cases h
      · rintro ⟨vs, x, ⟨⟩, -⟩

end Record

end MinerInfo.Json
