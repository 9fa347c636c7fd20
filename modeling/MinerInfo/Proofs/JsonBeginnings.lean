import MinerInfo.Proofs.JsonGrammar

/-! What the beginning of a text settles. A state of the machine admits the trees in which stands what has been read, at
its place. A token can only narrow them down, so the tree of a text is one that each state on the way has admitted:
nothing that follows takes back what has been read. In this way the beginning of an object up to the name of a member
or into its value, and that of an array into an element, leave the members and the elements in front as they are. -/

namespace MinerInfo.Json

/-- The trees that have a part with the property `P` where the frames leave a value open, behind what they hold. -/
def Within : List Frame → (Document → Prop) → Document → Prop
  | [], P => P
  | .array before :: stack, P => Within stack fun e =>
      ∃ x more ending, e = .array (before.reverse ++ x :: more) ending ∧ P x
  | .object before label :: stack, P => Within stack fun e =>
      ∃ x more ending, e = .object (before.reverse ++ (label, x) :: more) ending ∧ P x

theorem Within.imp (stack : List Frame) {P Q : Document → Prop} (h : ∀ x, P x → Q x) {d : Document}
    (hd : Within stack P d) : Within stack Q d := by
  induction stack generalizing P Q with
  | nil => exact h d hd
  | cons frame stack ih =>
      cases frame with
      | array before =>
          refine ih ?_ hd
          rintro e ⟨x, more, ending, rfl, hx⟩
          exact ⟨x, more, ending, rfl, h x hx⟩
      | object before label =>
          refine ih ?_ hd
          rintro e ⟨x, more, ending, rfl, hx⟩
          exact ⟨x, more, ending, rfl, h x hx⟩

theorem within_cutOff {P : Document → Prop} {f : Fault} {v : Document} {stack : List Frame} (h : P v) :
    Within stack P (cutOff f v stack) := by
  induction stack generalizing P v with
  | nil => exact h
  | cons frame stack ih =>
      cases frame with
      | array before => exact ih ⟨v, [], _, by rw [List.reverse_cons], h⟩
      | object before label => exact ih ⟨v, [], _, by rw [List.reverse_cons], h⟩

/-- The trees that a text can still have, when this is what has been read of it. -/
def State.Admits : State → Document → Prop
  | .value stack => Within stack fun _ => True
  | .element stack => Within stack fun e => ∃ ds ending, e = .array ds ending
  | .name before stack => Within stack fun e => ∃ more ending, e = .object (before.reverse ++ more) ending
  | .colon before label stack => Within (.object before label :: stack) fun _ => True
  | .after v stack => Within stack fun e => e = v
  | .stopped v _ => fun e => e = v

theorem admits_of_beginValue {stack : List Frame} {token : Token} {d : Document}
    (h : (State.beginValue stack token).Admits d) : Within stack (fun _ => True) d := by
  cases token with
  | openArray | openObject | null | boolean | number | string => exact h.imp stack fun _ _ => trivial
  | stray | closeArray | closeObject | comma | colon =>
      obtain rfl : d = _ := h
      exact within_cutOff trivial

theorem admits_of_goOn {v : Document} {stack : List Frame} {token : Token} {d : Document}
    (h : (State.goOn v stack token).Admits d) : Within stack (fun e => e = v) d := by
  have hstop (hd : d = cutOff .malformed v stack) : Within stack (fun e => e = v) d := hd ▸ within_cutOff rfl
  cases stack with
  | nil => exact hstop h
  | cons frame stack =>
      cases frame with
      | array before =>
          cases token with
          | comma =>
              refine Within.imp stack ?_ h
              rintro e ⟨x, more, ending, rfl, -⟩
              exact ⟨v, x :: more, ending, by rw [List.reverse_cons, List.append_assoc]; rfl, rfl⟩
          | closeArray =>
              refine Within.imp stack ?_ h
              rintro e rfl
              exact ⟨v, [], _, by rw [List.reverse_cons], rfl⟩
          | _ => exact hstop h
      | object before label =>
          cases token with
          | comma =>
              refine Within.imp stack ?_ h
              rintro e ⟨more, ending, rfl⟩
              exact ⟨v, more, ending, by rw [List.reverse_cons, List.append_assoc]; rfl, rfl⟩
          | closeObject =>
              refine Within.imp stack ?_ h
              rintro e rfl
              exact ⟨v, [], _, by rw [List.reverse_cons], rfl⟩
          | _ => exact hstop h

/-- What a state admits after a token it has admitted before. -/
theorem admits_of_step {state : State} {token : Token} {d : Document} (h : (state.step token).Admits d) :
    state.Admits d := by
  -- what a token adds stands at the end of the inmost frame, so what is held in front of it stays
  cases state with
  | value stack => exact admits_of_beginValue h
  | element stack =>
      rcases Classical.em (token = .closeArray) with rfl | htoken
      · refine Within.imp stack ?_ h
        rintro e rfl
        exact ⟨[], _, rfl⟩
      · rw [due_element stack token htoken] at h
        have hfirst : Within (.array [] :: stack) (fun _ => True) d := admits_of_beginValue h
        refine Within.imp stack ?_ hfirst
        rintro e ⟨x, more, ending, rfl, -⟩
        exact ⟨_, ending, rfl⟩
  | name before stack =>
      have hstop (hd : d = cutOff .malformed (.object before.reverse (.error .malformed)) stack) :
          Within stack (fun e => ∃ more ending, e = .object (before.reverse ++ more) ending) d :=
        hd ▸ within_cutOff ⟨[], _, by rw [List.append_nil]⟩
      have hcolon (l : Literal) (hd : Within (.object before l :: stack) (fun _ => True) d) :
          Within stack (fun e => ∃ more ending, e = .object (before.reverse ++ more) ending) d := by
        refine Within.imp stack ?_ hd
        rintro e ⟨x, more, ending, rfl, -⟩
        exact ⟨_, ending, rfl⟩
      cases before with
      | nil =>
          cases token with
          | string l => exact hcolon l h
          | closeObject =>
              refine Within.imp stack ?_ h
              rintro e rfl
              exact ⟨[], _, rfl⟩
          | _ => exact hstop h
      | cons m before =>
          cases token with
          | string l => exact hcolon l h
          | _ => exact hstop h
  | colon before label stack =>
      cases token with
      | colon => exact h
      | _ =>
          obtain rfl : d = _ := h
          exact within_cutOff trivial
  | after v stack => exact admits_of_goOn h
  | stopped v ending => exact h

theorem admits_finish (state : State) : state.Admits state.finish.1 := by
  cases state with
  | value stack => exact within_cutOff trivial
  | element stack => exact within_cutOff ⟨_, _, rfl⟩
  | name before stack => exact within_cutOff ⟨[], _, by rw [List.append_nil]⟩
  | colon before label stack => exact within_cutOff trivial
  | after v stack =>
      cases stack with
      | nil => rfl
      | cons frame stack => exact within_cutOff rfl
  | stopped v ending => rfl

/-- A run of the machine comes to a tree that the state it set out from has admitted. -/
theorem admits_foldl (ts : List Token) (state : State) : state.Admits (ts.foldl State.step state).finish.1 := by
  induction ts generalizing state with
  | nil => exact admits_finish state
  | cons token ts ih => exact admits_of_step (ih (state.step token))

/-- Parts of a list, each of them with a comma behind it. -/
inductive WritesBefore {α : Type} (writes : Text → α → Prop) : Text → List α → Prop where
  | nil {b : Text} (hb : Blank b) : WritesBefore writes b []
  | cons {b s b' s' : Text} {x : α} {xs : List α} (hb : Blank b) (h : writes s x) (hb' : Blank b')
      (hrest : WritesBefore writes s' xs) : WritesBefore writes (b ++ (s ++ (b' ++ ',' :: s'))) (x :: xs)

/-- The text of an array from its bracket to the place where an element begins. -/
def OpensElement (before : List Value) (p : Text) : Prop := ∃ o, WritesBefore WritesValue o before ∧ p = '[' :: o

/-- The text of an object from its bracket to the quotation mark that closes the name of a member. -/
def OpensName (before : List (Text × Value)) (name p : Text) : Prop :=
  ∃ o w, WritesBefore WritesMember o before ∧ WritesText w name ∧ p = '\x7b' :: (o ++ '"' :: (w ++ ['"']))

/-- The text of an object from its bracket to the place where the value of a member begins. -/
def OpensValue (before : List (Text × Value)) (name p : Text) : Prop :=
  ∃ q b b', OpensName before name q ∧ Blank b ∧ Blank b' ∧ p = q ++ (b ++ ':' :: b')

/-- The first part of a list stands at its beginning, and behind it a comma and the others if there are any. -/
def BeginsWithFirst {α : Type} (writes : Text → α → Prop) (list : Text → List α → Prop) : Prop :=
  ∀ {x xs s}, list s (x :: xs) → ∃ b w rest, s = b ++ (w ++ rest) ∧ Blank b ∧ writes w x ∧
    (xs ≠ [] → ∃ b' s', rest = b' ++ ',' :: s' ∧ Blank b' ∧ list s' xs)

theorem beginsWithFirst_elements : BeginsWithFirst WritesValue WritesElements := by
  intro v vs s h
  cases h with
  | last hb h hb' => exact ⟨_, _, _, rfl, hb, h, fun hne => absurd rfl hne⟩
  | cons hb h hb' hrest => exact ⟨_, _, _, rfl, hb, h, fun _ => ⟨_, _, rfl, hb', hrest⟩⟩

theorem beginsWithFirst_members : BeginsWithFirst WritesMember WritesMembers := by
  intro n ns s h
  cases h with
  | last hb h hb' => exact ⟨_, _, _, rfl, hb, h, fun hne => absurd rfl hne⟩
  | cons hb h hb' hrest => exact ⟨_, _, _, rfl, hb, h, fun _ => ⟨_, _, rfl, hb', hrest⟩⟩

/-- Each part of a list stands in its text behind the ones in front of it. -/
theorem BeginsWithFirst.exists_append {α : Type} {writes : Text → α → Prop} {list : Text → List α → Prop}
    (hfirst : BeginsWithFirst writes list) {before after : List α} {x : α} {s : Text}
    (h : list s (before ++ x :: after)) :
    ∃ o w rest, s = o ++ (w ++ rest) ∧ WritesBefore writes o before ∧ writes w x := by
  induction before generalizing s with
  | nil =>
      obtain ⟨b, w, rest, rfl, hb, hw, -⟩ := hfirst h
      exact ⟨b, w, rest, rfl, .nil hb, hw⟩
  | cons x' before ih =>
      obtain ⟨b, w', _, rfl, hb, hw', hmore⟩ := hfirst h
      obtain ⟨b', _, rfl, hb', hrest⟩ := hmore (by simp)
      obtain ⟨o, w, rest, rfl, ho, hw⟩ := ih hrest
      exact ⟨_, w, rest, by simp only [List.append_assoc, List.cons_append], .cons hb hw' hb' ho, hw⟩

theorem exists_append_of_writesArray {before after : List Value} {v : Value} {s : Text}
    (h : WritesValue s (.array (before ++ v :: after))) :
    ∃ p w rest, s = p ++ (w ++ rest) ∧ OpensElement before p ∧ WritesValue w v := by
  generalize hvs : before ++ v :: after = vs at h
  cases h with
  | emptyArray _ => exact absurd hvs (by simp)
  | array h =>
      rw [← hvs] at h
      obtain ⟨o, w, rest, rfl, ho, hw⟩ := beginsWithFirst_elements.exists_append h
      refine ⟨_, w, rest ++ [']'], ?_, ⟨o, ho, rfl⟩, hw⟩
      simp only [List.append_assoc, List.cons_append]

theorem exists_append_of_writesObject {before after : List (Text × Value)} {n : Text × Value} {s : Text}
    (h : WritesValue s (.object (before ++ n :: after))) :
    ∃ p w rest, s = p ++ (w ++ rest) ∧ OpensValue before n.1 p ∧ WritesValue w n.2 := by
  generalize hns : before ++ n :: after = ns at h
  cases h with
  | emptyObject _ => exact absurd hns (by simp)
  | object h =>
      rw [← hns] at h
      obtain ⟨o, m, rest, rfl, ho, hm⟩ := beginsWithFirst_members.exists_append h
      cases hm with
      | @parts name b b' w _ _ hname hb hb' hw =>
          refine ⟨_, w, rest ++ ['\x7d'], ?_, ⟨_, b, b', ⟨o, name, ho, hname, rfl⟩, hb, hb', rfl⟩, hw⟩
          simp only [List.append_assoc, List.cons_append, List.nil_append]

theorem exists_writesValue_of_mem {s : Text} {ns : List (Text × Value)} (h : WritesValue s (.object ns)) :
    ∀ n ∈ ns, ∃ w, WritesValue w n.2 := by
  intro n hn
  obtain ⟨before, after, rfl⟩ := List.append_of_mem hn
  obtain ⟨-, w, -, -, -, hw⟩ := exists_append_of_writesObject h
  exact ⟨w, hw⟩

theorem WritesBefore.exists_of_mem {α : Type} {writes : Text → α → Prop} {o : Text} {xs : List α}
    (h : WritesBefore writes o xs) : ∀ x ∈ xs, ∃ w, writes w x := by
  induction h with
  | nil _ => exact List.forall_mem_nil _
  | cons _ hx _ _ ih => exact List.forall_mem_cons.2 ⟨⟨_, hx⟩, ih⟩

theorem OpensElement.written {before : List Value} {p : Text} (h : OpensElement before p) :
    ∀ v ∈ before, ∃ w, WritesValue w v := by
  obtain ⟨o, ho, -⟩ := h
  exact ho.exists_of_mem

theorem OpensName.written {before : List (Text × Value)} {name p : Text} (h : OpensName before name p) :
    ∀ n ∈ before, ∃ w, WritesValue w n.2 := by
  obtain ⟨o, _, ho, -, -⟩ := h
  intro n hn
  obtain ⟨_, hm⟩ := ho.exists_of_mem n hn
  cases hm with
  | parts _ _ _ hw => exact ⟨_, hw⟩

theorem OpensValue.written {before : List (Text × Value)} {name p : Text} (h : OpensValue before name p) :
    ∀ n ∈ before, ∃ w, WritesValue w n.2 := by
  obtain ⟨q, _, _, hq, -, -, -⟩ := h
  exact hq.written

/-- Parts of a list are taken one after the other, if each is and the comma behind it leads on to the next. Here `S`
holds of the states in which a part is due, behind those that have been taken. -/
theorem foldl_of_writesBefore {α δ : Type} {writes : Text → α → Prop} {denotes : δ → α → Prop}
    {S : List δ → State → Prop}
    (hstep : ∀ {s x}, writes s x → ∃ m, denotes m x ∧ ∀ before state, S before state → ∃ next : State,
      S (m :: before) (next.step .comma) ∧ ∀ rest, Apart rest →
        (tokens (s ++ rest)).foldl State.step state = (tokens rest).foldl State.step next)
    {o : Text} {xs : List α} (h : WritesBefore writes o xs) :
    ∃ ms, List.Forall₂ denotes ms xs ∧ ∀ before state, S before state → ∃ next, S (ms.reverse ++ before) next ∧
      ∀ rest, (tokens (o ++ rest)).foldl State.step state = (tokens rest).foldl State.step next := by
  induction h with
  | nil hb =>
      refine ⟨[], .nil, fun before state hstate => ⟨state, hstate, fun rest => ?_⟩⟩
      rw [tokens_append_of_blank hb]
  | @cons b s b' s' x xs hb h hb' hrest ih =>
      obtain ⟨m, hm, htaken⟩ := hstep h
      obtain ⟨ms, hms, htaken'⟩ := ih
      refine ⟨m :: ms, .cons hm hms, fun before state hstate => ?_⟩
      obtain ⟨behind, hbehind, hreads⟩ := htaken before state hstate
      obtain ⟨next, hnext, hreads'⟩ := htaken' (m :: before) _ hbehind
      refine ⟨next, ?_, fun rest => ?_⟩
      · rwa [List.reverse_cons, List.append_assoc]
      · have hapart : Apart (b' ++ ',' :: (s' ++ rest)) := .append_of_blank hb' (.cons (.inl rfl) _)
        rw [List.append_assoc, List.append_assoc, List.append_assoc, List.cons_append, tokens_append_of_blank hb,
          hreads _ hapart, tokens_append_of_blank hb', tokens_mark rfl rfl, List.foldl_cons, hreads']

theorem foldl_of_opensElement {before : List Value} {p : Text} (h : OpensElement before p) {state : State}
    {stack : List Frame} (hdue : Due state stack) :
    ∃ ds next, List.Forall₂ Denotes ds before ∧ Due next (.array ds.reverse :: stack) ∧ ∀ rest,
      (tokens (p ++ rest)).foldl State.step state = (tokens rest).foldl State.step next := by
  obtain ⟨o, ho, rfl⟩ := h
  obtain ⟨ds, hds, hreads⟩ :=
    foldl_of_writesBefore (S := fun before state => Due state (.array before :: stack)) (fun hv => by
      obtain ⟨d, hd, hreads⟩ := readsAs_of_writesValue hv
      exact ⟨d, hd, fun before state hstate => ⟨.after d (.array before :: stack), due_value _, fun rest hrest =>
        hreads rest hrest state _ hstate⟩⟩) ho
  obtain ⟨next, hnext, hfold⟩ := hreads [] _ (due_element stack)
  rw [List.append_nil] at hnext
  refine ⟨ds, next, hds, hnext, fun rest => ?_⟩
  rw [List.cons_append, foldl_of_opening .openArray rfl rfl (fun h => by cases h) hdue, State.beginValue, hfold]

theorem foldl_of_opensName {before : List (Text × Value)} {name p : Text} (h : OpensName before name p) {state : State}
    {stack : List Frame} (hdue : Due state stack) :
    ∃ ms l, List.Forall₂ DenotesMember ms before ∧ l.text = .ok name ∧ ∀ rest,
      (tokens (p ++ rest)).foldl State.step state = (tokens rest).foldl State.step (.colon ms.reverse l stack) := by
  obtain ⟨o, w, ho, hw, rfl⟩ := h
  obtain ⟨ms, hms, hreads⟩ :=
    foldl_of_writesBefore (S := fun before state => state = .name before stack) (fun hn => by
      obtain ⟨m, hm, hreads⟩ := reads_of_writesMember hn
      refine ⟨m, hm, fun before state hstate => ⟨.after m.2 (.object before m.1 :: stack), rfl, fun rest hrest => ?_⟩⟩
      rw [hstate]
      exact hreads before stack rest hrest) ho
  obtain ⟨_, rfl, hfold⟩ := hreads [] _ rfl
  obtain ⟨l, hl, htokens⟩ := tokens_of_writesText hw
  refine ⟨ms, l, hms, hl, fun rest => ?_⟩
  rw [List.cons_append, List.append_assoc, List.cons_append, List.append_assoc, List.singleton_append,
    foldl_of_opening .openObject rfl rfl (fun h => by cases h) hdue, State.beginValue, hfold, List.append_nil, htokens,
    List.foldl_cons, step_name_string]

theorem foldl_of_opensValue {before : List (Text × Value)} {name p : Text} (h : OpensValue before name p)
    {state : State} {stack : List Frame} (hdue : Due state stack) :
    ∃ ms l, List.Forall₂ DenotesMember ms before ∧ l.text = .ok name ∧ ∀ rest,
      (tokens (p ++ rest)).foldl State.step state =
        (tokens rest).foldl State.step (.value (.object ms.reverse l :: stack)) := by
  obtain ⟨q, b, b', hq, hb, hb', rfl⟩ := h
  obtain ⟨ms, l, hms, hl, hreads⟩ := foldl_of_opensName hq hdue
  refine ⟨ms, l, hms, hl, fun rest => ?_⟩
  rw [List.append_assoc, List.append_assoc, List.cons_append, hreads, tokens_append_of_blank hb,
    tokens_mark rfl rfl, List.foldl_cons, State.step, tokens_append_of_blank hb']

/-- Behind the text a tree has, where its value is due, a part with the property, whatever follows. -/
def Settles (P : Document → Prop) (p : Text) : Prop :=
  ∀ state stack, Due state stack → ∃ next : State, (∀ d, next.Admits d → Within stack P d) ∧ ∀ rest,
    (tokens (p ++ rest)).foldl State.step state = (tokens rest).foldl State.step next

theorem Settles.imp {P Q : Document → Prop} {p : Text} (hP : Settles P p) (h : ∀ d, P d → Q d) : Settles Q p := by
  intro state stack hdue
  obtain ⟨next, hadmits, hfold⟩ := hP state stack hdue
  exact ⟨next, fun d hd => (hadmits d hd).imp stack h, hfold⟩

theorem Settles.parse {P : Document → Prop} {p : Text} (h : Settles P p) {b : Text} (hb : Blank b) (rest : Text) :
    P (parse (b ++ (p ++ rest))).1 := by
  obtain ⟨next, hadmits, hfold⟩ := h _ [] (due_value [])
  refine hadmits _ ?_
  rw [Json.parse, tokens_append_of_blank hb, hfold]
  exact admits_foldl _ _

theorem settles_string {w t : Text} (hw : WritesText w t) :
    Settles (fun d => Denotes d (.string t)) ('"' :: (w ++ ['"'])) := by
  intro state stack hdue
  obtain ⟨l, hl, htokens⟩ := tokens_of_writesText hw
  have hstep : state.step (.string l) = .after (.string l) stack := hdue (.string l) fun h => by cases h
  refine ⟨.after (.string l) stack, fun d hd => hd.imp stack ?_, fun rest => ?_⟩
  · rintro _ rfl
    exact .string hl
  · rw [List.cons_append, List.append_assoc, List.singleton_append, htokens, List.foldl_cons, hstep]

/-- What is settled of a value is settled of it as an element. -/
theorem settles_element {P : Document → Prop} {before : List Value} {p q : Text} (hp : OpensElement before p)
    (hq : Settles P q) :
    Settles (fun d => ∃ ds x more ending, d = .array (ds ++ x :: more) ending ∧ List.Forall₂ Denotes ds before ∧ P x)
      (p ++ q) := by
  intro state stack hdue
  obtain ⟨ds, inside, hds, hinside, hfold⟩ := foldl_of_opensElement hp hdue
  obtain ⟨next, hadmits, hfold'⟩ := hq inside _ hinside
  refine ⟨next, fun d hd => ?_, fun rest => ?_⟩
  · refine Within.imp stack ?_ (hadmits d hd)
    rintro _ ⟨x, more, ending, rfl, hx⟩
    exact ⟨ds, x, more, ending, by rw [List.reverse_reverse], hds, hx⟩
  · rw [List.append_assoc, hfold, hfold']

/-- Up to the name of a member an object has this member behind the ones in front of it. -/
theorem settles_name {before : List (Text × Value)} {name p : Text} (h : OpensName before name p) :
    Settles (fun d => ∃ ms l x more ending, d = .object (ms ++ (l, x) :: more) ending ∧
      List.Forall₂ DenotesMember ms before ∧ l.text = .ok name) p := by
  intro state stack hdue
  obtain ⟨ms, l, hms, hl, hfold⟩ := foldl_of_opensName h hdue
  refine ⟨_, fun d hd => ?_, hfold⟩
  refine Within.imp stack ?_ hd
  rintro _ ⟨x, more, ending, rfl, -⟩
  exact ⟨ms, l, x, more, ending, by rw [List.reverse_reverse], hms, hl⟩

/-- What is settled of a value is settled of it as the value of a member. -/
theorem settles_value {P : Document → Prop} {before : List (Text × Value)} {name p q : Text}
    (hp : OpensValue before name p) (hq : Settles P q) :
    Settles (fun d => ∃ ms l x more ending, d = .object (ms ++ (l, x) :: more) ending ∧
      List.Forall₂ DenotesMember ms before ∧ l.text = .ok name ∧ P x) (p ++ q) := by
  intro state stack hdue
  obtain ⟨ms, l, hms, hl, hfold⟩ := foldl_of_opensValue hp hdue
  obtain ⟨next, hadmits, hfold'⟩ := hq _ _ (due_value (.object ms.reverse l :: stack))
  refine ⟨next, fun d hd => ?_, fun rest => ?_⟩
  · refine Within.imp stack ?_ (hadmits d hd)
    rintro _ ⟨x, more, ending, rfl, hx⟩
    exact ⟨ms, l, x, more, ending, by rw [List.reverse_reverse], hms, hl, hx⟩
  · rw [List.append_assoc, hfold, hfold']

end MinerInfo.Json
