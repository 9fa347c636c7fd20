import Mathlib.Data.List.Forall2
import MinerInfo.Proofs.Refusals

/-! Pushes as frames. What is written push by push is read back push by push, whatever stands in front and behind, and
by reads of any bounds that the lengths keep to. Reads that are not rejected have taken just the written form of what
they gave, and a list of byte strings that have a length byte is determined by its written form. -/

namespace MinerInfo.Script

namespace Step

variable {s : Step} {c : Cursor} {a : Answer} {low high : UInt8} {otherwise : Rejection} {data : Bytes}

def IsPush (s : Step) : Prop := ∃ low high otherwise, s = .push low high otherwise

/-- A read of a push within bounds that the length of the data keeps to. -/
def Fits (s : Step) (data : Bytes) : Prop :=
  ∃ low high otherwise, s = .push low high otherwise ∧ low.toNat ≤ data.length ∧ data.length ≤ high.toNat

theorem answer_eq_ok_iff : s.answer c = .ok a ↔ s.read c = .ok a (s.move c) := by
  rw [answer, move]
  cases s.read c with
  | ok b d => simp
  | error e d => simp

/-- A push is read where its written form stands, and the cursor then stands behind it. -/
theorem answer_push_eq_ok_iff : (Step.push low high otherwise).answer c = .ok (.bytes data) ↔
    (low.toNat ≤ data.length ∧ data.length ≤ high.toNat) ∧ Script.push [] data <+: c.unread := by
  constructor
  · intro h
    obtain ⟨hlen, hpre, -⟩ := Read.push_eq_ok_iff.1
      ((Read.map_eq_ok_iff fun _ _ => Answer.bytes.inj).1 (answer_eq_ok_iff.1 h))
    exact ⟨hlen, hpre⟩
  · rintro ⟨hlen, hpre⟩
    have hread : (Step.push low high otherwise).read c = .ok (.bytes data) (c.advance (Script.push [] data).length) :=
      map_of_ok (Read.push_eq_ok_iff.2 ⟨hlen, hpre, rfl⟩)
    rw [answer, hread]

theorem move_of_answer_push (h : (Step.push low high otherwise).answer c = .ok (.bytes data)) :
    (Step.push low high otherwise).move c = c.advance (Script.push [] data).length :=
  (Read.push_eq_ok_iff.1 ((Read.map_eq_ok_iff fun _ _ => Answer.bytes.inj).1 (answer_eq_ok_iff.1 h))).2.2

end Step

/-- The answers of a run. -/
def answers (c : Cursor) (steps : List Step) : List (Except Rejection Answer) := (run c steps).map Prod.fst

theorem answers_cons (c : Cursor) (s : Step) (steps : List Step) :
    answers c (s :: steps) = s.answer c :: answers (s.move c) steps := by
  rw [answers, run_cons]
  rfl

theorem after_cons (c : Cursor) (s : Step) (steps : List Step) : after c (s :: steps) = after (s.move c) steps := rfl

/-- The answers of reads that give the data of pushes. -/
def given (ds : List Bytes) : List (Except Rejection Answer) := ds.map fun data => .ok (.bytes data)

theorem answers_of_framed {c : Cursor} {steps : List Step} {ds : List Bytes} (h : List.Forall₂ Step.Fits steps ds)
    (hpre : ds.flatMap (push []) <+: c.unread) :
    answers c steps = given ds ∧ after c steps = c.advance (ds.flatMap (push [])).length := by
  induction h generalizing c with
  | nil => exact ⟨rfl, rfl⟩
  | @cons s data steps ds hs _ ih =>
      obtain ⟨low, high, otherwise, rfl, hlen⟩ := hs
      obtain ⟨hdata, hrest⟩ := Cursor.append_prefix_unread.1 (List.flatMap_cons ▸ hpre)
      have hanswer : (Step.push low high otherwise).answer c = .ok (.bytes data) :=
        Step.answer_push_eq_ok_iff.2 ⟨hlen, hdata⟩
      have hmove := Step.move_of_answer_push hanswer
      obtain ⟨hanswers, hafter⟩ := ih hrest
      rw [answers_cons, after_cons, hanswer, hmove, hanswers, hafter, Cursor.advance_advance, List.flatMap_cons,
        List.length_append]
      exact ⟨rfl, rfl⟩

theorem framed_of_answers {c : Cursor} {steps : List Step} {ds : List Bytes} (hsteps : ∀ s ∈ steps, s.IsPush)
    (h : answers c steps = given ds) :
    ds.flatMap (push []) <+: c.unread ∧ after c steps = c.advance (ds.flatMap (push [])).length := by
  induction steps generalizing c ds with
  | nil =>
      obtain rfl := List.map_eq_nil_iff.1 h.symm
      exact ⟨List.nil_prefix, rfl⟩
  | cons s steps ih =>
      obtain ⟨⟨low, high, otherwise, rfl⟩, hrest⟩ := List.forall_mem_cons.1 hsteps
      rw [answers_cons] at h
      obtain ⟨data, ds, rfl, hdata, hds⟩ := List.map_eq_cons_iff.1 h.symm
      have hmove := Step.move_of_answer_push hdata.symm
      rw [hmove] at hds
      obtain ⟨hpre, hafter⟩ := ih hrest hds.symm
      rw [after_cons, hmove, hafter, Cursor.advance_advance, List.flatMap_cons, List.length_append]
      exact ⟨Cursor.append_prefix_unread.2 ⟨(Step.answer_push_eq_ok_iff.1 hdata.symm).2, hpre⟩, rfl⟩

theorem append_push_inj {d e r r' : Bytes} (hd : d.length ≤ 255) (he : e.length ≤ 255)
    (h : push [] d ++ r = push [] e ++ r') : d = e ∧ r = r' := by
  rw [push, push, List.nil_append, List.nil_append, List.cons_append, List.cons_append, List.cons.injEq] at h
  obtain ⟨hbyte, hrest⟩ := h
  have hlen : d.length = e.length := by
    rw [← UInt8.toNat_ofNat_of_lt' (Nat.lt_succ_of_le hd), hbyte, UInt8.toNat_ofNat_of_lt' (Nat.lt_succ_of_le he)]
  exact List.append_inj hrest hlen

theorem flatMap_push_inj {ds es : List Bytes} (hds : ∀ data ∈ ds, data.length ≤ 255)
    (hes : ∀ data ∈ es, data.length ≤ 255) (h : ds.flatMap (push []) = es.flatMap (push [])) : ds = es := by
  induction ds generalizing es with
  | nil =>
      cases es with
      | nil => rfl
      | cons e es => cases h
  | cons d ds ih =>
      cases es with
      | nil => cases h
      | cons e es =>
          rw [List.forall_mem_cons] at hds hes
          rw [List.flatMap_cons, List.flatMap_cons] at h
          obtain ⟨rfl, hrest⟩ := append_push_inj hds.1 hes.1 h
          rw [ih hds.2 hes.2 hrest]

/-- Data that were pushed onto a script, whatever follows them, are what reads behind that script give, and the reads
end where the last push does. Conversely, reads of pushes that all give data have taken the pushes of these data, and
nothing else. No other list of byte strings up to 255 bytes has the same pushes. -/
theorem pushes_frame_data :
    (∀ (a t : Bytes) (ds : List Bytes) (steps : List Step), List.Forall₂ Step.Fits steps ds →
      let c := Cursor.atStart (ds.foldl push a ++ t)
      answers c (.marker a :: steps) = .ok (.found true) :: given ds ∧
        (after c (.marker a :: steps)).unread = t ∧ (after c (.marker a :: steps)).remaining = t.length) ∧
    (∀ (script : Bytes) (ds : List Bytes) (steps : List Step), (∀ s ∈ steps, s.IsPush) →
      answers (.atStart script) steps = given ds →
        ds.foldl push [] = script.take (after (.atStart script) steps).position ∧
          consumedBy (.atStart script) steps = ds.foldl push []) ∧
    (∀ ds es : List Bytes, (∀ data ∈ ds, data.length ≤ 255) → (∀ data ∈ es, data.length ≤ 255) →
      (ds.foldl push [] = es.foldl push [] ↔ ds = es)) := by
  refine ⟨?_, ?_, ?_⟩
  · intro a t ds steps hsteps c
    have hunread : c.unread = a ++ (ds.flatMap (push []) ++ t) := by
      rw [Cursor.unread_atStart, foldl_push, List.append_assoc]
    have hmarker : (Step.marker a).read c = .ok (.found true) (c.advance a.length) :=
      Step.map_of_ok (Read.marker_eq_ok_true_iff.2 ⟨hunread ▸ List.prefix_append _ _, rfl⟩)
    have hanswer : (Step.marker a).answer c = .ok (.found true) := by rw [Step.answer, hmarker]
    have hmove : (Step.marker a).move c = c.advance a.length := by rw [Step.move, hmarker]
    have hrest : (c.advance a.length).unread = ds.flatMap (push []) ++ t := by
      rw [Cursor.unread_advance, hunread, List.drop_left]
    obtain ⟨hanswers, hafter⟩ := answers_of_framed hsteps (hrest ▸ List.prefix_append _ t)
    have hend : (after c (.marker a :: steps)).unread = t := by
      rw [after_cons, hmove, hafter, Cursor.unread_advance, hrest, List.drop_left]
    refine ⟨?_, hend, ?_⟩
    · rw [answers_cons, hanswer, hmove, hanswers]
    · rw [← Cursor.length_unread, hend]
  · intro script ds steps hsteps hanswers
    obtain ⟨hpre, hafter⟩ := framed_of_answers hsteps hanswers
    obtain ⟨hconsumed, hafter'⟩ := consumedBy_prefix_and_after_eq (.atStart script) steps
    rw [Cursor.unread_atStart] at hpre hconsumed
    have hposition : (after (.atStart script) steps).position = (ds.flatMap (push [])).length :=
      (congrArg Cursor.position hafter).trans (Nat.zero_add _)
    have hposition' : (after (.atStart script) steps).position = (consumedBy (.atStart script) steps).length :=
      (congrArg Cursor.position hafter').trans (Nat.zero_add _)
    have htake : ds.foldl push [] = script.take (after (.atStart script) steps).position := by
      rw [foldl_push, List.nil_append, hposition]
      exact List.prefix_iff_eq_take.1 hpre
    refine ⟨htake, ?_⟩
    rw [htake, hposition']
    exact List.prefix_iff_eq_take.1 hconsumed
  · intro ds es hds hes
    rw [foldl_push, foldl_push, List.nil_append, List.nil_append]
    exact ⟨flatMap_push_inj hds hes, congrArg _⟩

/-- An empty push and one of 255 bytes between a script and a tail, read with the narrowest bounds; two pushes that are
taken from the front of a script; and two lists of the same bytes that have different pushes. -/
theorem pushes_frame_empty_and_longest :
    let ds : List Bytes := [[], List.replicate 255 7, [0xde, 0xad]]
    let c := Cursor.atStart (ds.foldl push [0x6a] ++ [2, 9])
    let steps : List Step := [.push 0 0 .tooShort, .push 255 255 .tooShort, .push 1 72 .signatureLength]
    List.Forall₂ Step.Fits steps ds ∧
      answers c (.marker [0x6a] :: steps) = .ok (.found true) :: given ds ∧
      (after c (.marker [0x6a] :: steps)).remaining = 2 ∧
      [[], [0xde, 0xad]].foldl push [] = ([0, 2, 0xde, 0xad, 5] : Bytes).take 4 ∧
      [[0], []].foldl push [] ≠ [[0, 0]].foldl push [] := by
  intro ds c steps
  obtain ⟨hreads, hwritten, hinj⟩ := pushes_frame_data
  have hlong : (List.replicate 255 7 : Bytes).length = 255 := List.length_replicate
  have hfits : List.Forall₂ Step.Fits steps ds :=
    .cons ⟨0, 0, .tooShort, rfl, by decide, by decide⟩
      (.cons ⟨255, 255, .tooShort, rfl, Nat.le_of_eq hlong.symm, Nat.le_of_eq hlong⟩
        (.cons ⟨1, 72, .signatureLength, rfl, by decide, by decide⟩ .nil))
  obtain ⟨hanswers, -, hremaining⟩ := hreads [0x6a] [2, 9] ds steps hfits
  have htwo := hwritten [0, 2, 0xde, 0xad, 5] [[], [0xde, 0xad]]
    [.push 0 255 .tooShort, .push 0 255 .tooShort] (by simp [Step.IsPush]) (by decide)
  exact ⟨hfits, hanswers, hremaining, htwo.1, mt (hinj [[0], []] [[0, 0]] (by decide) (by decide)).1 (by decide)⟩

end MinerInfo.Script
