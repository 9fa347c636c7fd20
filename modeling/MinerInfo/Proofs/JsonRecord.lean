import MinerInfo.Json.Form

/-! Reading the members of a record. The draft of a record holds the values of the fields that were met; a member for a
field that is open puts its value there, and when no field is open the draft is the record. So an object of just
the fields, each with a value that its reader takes, is the record of these values. -/

namespace MinerInfo.Json.Record

variable {α : Type} {R : Record α}

/-- The draft in which the given fields have their values. -/
def Draft.known (v : (f : R.Field) → R.Value f) (done : List R.Field) : R.Draft :=
  fun f => if f ∈ done then some (v f) else none

theorem known_nil (v : (f : R.Field) → R.Value f) : Draft.known v [] = R.blank := rfl

theorem put_known (v : (f : R.Field) → R.Value f) (done : List R.Field) (f : R.Field) :
    (Draft.known v done).put f (v f) = Draft.known v (f :: done) := by
  funext g
  by_cases h : g = f
  · subst h
    simp [Draft.put, Draft.known]
  · simp [Draft.put, Draft.known, h]

theorem find?_label (hinj : Function.Injective R.label) (f : R.Field) :
    R.fields.find? (fun g => R.label g = R.label f) = some f := by
  cases hfind : R.fields.find? (fun g => R.label g = R.label f) with
  | none =>
      have hnone := List.find?_eq_none.1 hfind f (R.mem_fields f)
      exact absurd (decide_eq_true rfl) hnone
  | some g =>
      have hsome := List.find?_some hfind
      rw [hinj (of_decide_eq_true hsome)]

/-- A member for an open field puts the value there. -/
theorem accept_field {draft : R.Draft} {m : Member} {f : R.Field} {x : R.Value f}
    (hinj : Function.Injective R.label) (hname : m.1.text = .ok (R.label f)) (hopen : draft f = none)
    (hread : R.read f m.2 = .ok x) : draft.accept m = .ok (draft.put f x) := by
  rw [Draft.accept, hname]
  simp only [bind, Except.bind, find?_label hinj]
  simp only [hopen, hread]
  rfl

/-- A draft without an open field is the record of its values. -/
theorem finish_of_known {draft : R.Draft} {v : (f : R.Field) → R.Value f} (h : ∀ f, draft f = some (v f)) :
    draft.finish = .ok (R.build v) := by
  rw [Draft.finish]
  split
  · rename_i f hfind
    have hsome := List.find?_some hfind
    simp [h f] at hsome
  · congr 2
    funext f
    simp [h f]

/-- The members for fields that are all open and different are taken one after the other. -/
theorem foldlM_accept (hinj : Function.Injective R.label) {member : R.Field → Member}
    {v : (f : R.Field) → R.Value f} (hname : ∀ f, (member f).1.text = .ok (R.label f))
    (hread : ∀ f, R.read f (member f).2 = .ok (v f)) (fs done : List R.Field) (hnodup : (fs ++ done).Nodup) :
    (fs.map member).foldlM Draft.accept (Draft.known v done) = .ok (Draft.known v (fs.reverse ++ done)) := by
  -- the fields still to come are open: they are none of those that are done
  induction fs generalizing done with
  | nil => rfl
  | cons f fs ih =>
      rw [List.cons_append, List.nodup_cons] at hnodup
      have hopen : Draft.known v done f = none := if_neg fun h => hnodup.1 (List.mem_append_right fs h)
      have hnext : (fs ++ f :: done).Nodup := List.perm_middle.nodup_iff.2 (List.nodup_cons.2 hnodup)
      rw [List.map_cons, List.foldlM_cons, accept_field hinj (hname f) hopen (hread f), put_known]
      simp only [bind, Except.bind]
      rw [ih (f :: done) hnext, List.reverse_cons, List.append_assoc]
      rfl

/-- An object with a member for each field, and none else, is the record of the values that are read. -/
theorem ofDocument_object (hinj : Function.Injective R.label) (hnodup : R.fields.Nodup)
    {member : R.Field → Member} {v : (f : R.Field) → R.Value f} (hname : ∀ f, (member f).1.text = .ok (R.label f))
    (hread : ∀ f, R.read f (member f).2 = .ok (v f)) :
    R.ofDocument (.object (R.fields.map member) (.ok ())) = .ok (R.build v) := by
  have hfold := foldlM_accept hinj hname hread R.fields [] (by rwa [List.append_nil])
  have hfinish : (Draft.known v (R.fields.reverse ++ [])).finish = .ok (R.build v) :=
    finish_of_known fun f => if_pos (by simp [R.mem_fields f])
  rw [ofDocument, ← known_nil v, hfold]
  exact hfinish

end MinerInfo.Json.Record
