import MinerInfo.Proofs.Reads

/-! Readings under a log. A read is put under a log without an entry of its own, so the reading of a reference is the
plain read and then the report of the bytes that are left. What a computation emits does not depend on the level of the
log: at each level there is added what the level lets through, and this holds of a sequence if it holds of its parts. -/

namespace MinerInfo.Reference

open Script

namespace Reading

variable {α β : Type} {m : Read α} {c d : Cursor}

theorem run_lift (m : Read α) (c : Cursor) :
    (liftM m : Reading α).run.run c = pure (match m c with
      | .ok a d => (.ok a, d)
      | .error e d => (.error e, d)) := rfl

theorem run_lift_of_ok {a : α} (h : m c = .ok a d) : (liftM m : Reading α).run.run c = pure (.ok a, d) := by
  rw [run_lift, h]

theorem run_lift_of_error {e : Rejection} (h : m c = .error e d) :
    (liftM m : Reading α).run.run c = pure (.error e, d) := by
  rw [run_lift, h]

theorem run_bind_of_ok {a : α} (h : m c = .ok a d) (f : α → Reading β) :
    (liftM m >>= f).run.run c = (f a).run.run d := by
  rw [ExceptT.run_bind, StateT.run_bind, run_lift_of_ok h, pure_bind]

theorem run_bind_of_error {e : Rejection} (h : m c = .error e d) (f : α → Reading β) :
    (liftM m >>= f).run.run c = pure (.error e, d) := by
  rw [ExceptT.run_bind, StateT.run_bind, run_lift_of_error h, pure_bind]
  rfl

/-- A sequence of reads is the same under a log. -/
instance : LawfulMonadLift Read Reading where
  monadLift_pure _ := rfl
  monadLift_bind {α β} m f := by
    show (liftM (m >>= f) : Reading β) = liftM m >>= fun a => liftM (f a)
    apply ExceptT.ext
    apply StateT.ext
    intro c
    cases h : m c with
    | ok a d =>
        rw [run_bind_of_ok h]
        have hbind := Read.bind_of_ok (f := f) h
        cases hf : f a d with
        | ok b d' => rw [run_lift_of_ok (hbind.trans hf), run_lift_of_ok hf]
        | error e d' => rw [run_lift_of_error (hbind.trans hf), run_lift_of_error hf]
    | error e d => rw [run_bind_of_error h, run_lift_of_error (Read.bind_of_error h)]

theorem run_liftM (m : Logging α) (c : Cursor) :
    (liftM m : Reading α).run.run c = m >>= fun a => pure (.ok a, c) := rfl

theorem ite_bind (p : Prop) [Decidable p] (x y : Reading α) (f : α → Reading β) :
    (if p then x else y) >>= f = if p then x >>= f else y >>= f := by
  split
  · rfl
  · rfl

theorem lift_demand_bind (p : Prop) [Decidable p] (e : Rejection) (f : Unit → Reading β) :
    liftM (Read.demand p e) >>= f = if p then f () else throw e >>= f := by
  rw [Read.demand]
  split
  · rfl
  · rfl

end Reading

/-- Logs how many bytes are left, if there are any. -/
def reportTrailing : Reading Unit := do
  if 0 < (← Read.remaining) then emit (.trailing (← Read.remaining))

/-- Nothing is logged before the last field has been read. -/
theorem decode_eq : decode = do
    let r ← read
    reportTrailing
    return r := by
  -- on both sides a guard comes to be an `if` around all that stands behind it
  simp only [decode, read, header, body, reportTrailing, liftM_bind, bind_assoc, liftM_pure, pure_bind,
    Reading.ite_bind, Reading.lift_demand_bind, Version.isNone_ofByte?_iff, ite_not, ne_eq]

/-- The entries that a log of the given level takes. -/
def upTo (level : Level) (entries : List Entry) : List Entry :=
  entries.filter fun e => e.level.verbosity ≤ level.verbosity

/-- The computation comes to `a` at every level, and adds to the log those of the entries `es` that the level lets
through. -/
def Emits {α : Type} (m : Logging α) (a : α) (es : List Entry) : Prop :=
  ∀ level log, (m.run level).run log = (a, log ++ upTo level es)

namespace Emits

variable {α β : Type} {m : Logging α} {a : α} {b : β} {es es' : List Entry}

theorem pure (a : α) : Emits (pure a) a [] := by
  intro level log
  show (a, log) = (a, log ++ [])
  rw [List.append_nil]

theorem bind {f : α → Logging β} (h : Emits m a es) (hf : Emits (f a) b es') : Emits (m >>= f) b (es ++ es') := by
  intro level log
  calc
    ((m >>= f).run level).run log = ((f a).run level).run (log ++ upTo level es) := by
      rw [ReaderT.run_bind, StateT.run_bind, h level log]
      rfl
    _ = (b, log ++ upTo level es ++ upTo level es') := hf level _
    _ = (b, log ++ upTo level (es ++ es')) := by rw [upTo, upTo, upTo, List.filter_append, List.append_assoc]

theorem emit (e : Entry) : Emits (emit e) () [e] := by
  intro level log
  show ((if e.level.verbosity ≤ level.verbosity then modify fun log => log ++ [e] else Pure.pure () :
    Logging Unit).run level).run log = _
  by_cases h : e.level.verbosity ≤ level.verbosity
  · have hupTo : upTo level [e] = [e] := by simp [upTo, h]
    rw [if_pos h, hupTo]
    rfl
  · have hupTo : upTo level [e] = [] := by simp [upTo, h]
    rw [if_neg h, hupTo, List.append_nil]
    rfl

end Emits

/-- What is logged of the bytes that are left. -/
def leftover (c : Cursor) : List Entry := if 0 < c.remaining then [.trailing c.remaining] else []

theorem emits_reportTrailing (c : Cursor) : Emits (reportTrailing.run.run c) (.ok (), c) (leftover c) := by
  have hremaining : Read.remaining c = .ok c.remaining c := rfl
  rw [reportTrailing, Reading.run_bind_of_ok hremaining, leftover]
  split
  · rw [Reading.run_bind_of_ok hremaining, Reading.run_liftM]
    exact (Emits.emit _).bind (.pure _)
  · exact .pure _

theorem emits_decode_of_ok {r : Reference} {c d : Cursor} (h : read c = .ok r d) :
    Emits (decode.run.run c) (.ok r, d) (leftover d) := by
  rw [decode_eq, Reading.run_bind_of_ok h, ExceptT.run_bind, StateT.run_bind, ← List.append_nil (leftover d)]
  exact (emits_reportTrailing d).bind (.pure _)

theorem emits_decode_of_error {e : Rejection} {c d : Cursor} (h : read c = .error e d) :
    Emits (decode.run.run c) (.error e, d) [] := by
  rw [decode_eq, Reading.run_bind_of_error h]
  exact .pure _

theorem parse_eq (s : Bytes) : parse s = do
    let (result, _) ← decode.run.run (.atStart s)
    match result with
    | .ok r => emit (.parsed r.txid)
    | .error e => emit (.rejected e s.length)
    return result := by
  rw [parse, StateT.run'_eq]
  exact bind_map_left _ _ _

theorem emits_parse_of_ok {s : Bytes} {r : Reference} {c : Cursor} (h : read (.atStart s) = .ok r c) :
    Emits (parse s) (.ok r) (leftover c ++ [.parsed r.txid]) := by
  rw [parse_eq]
  apply (emits_decode_of_ok h).bind
  exact (Emits.emit _).bind (.pure _)

theorem emits_parse_of_error {s : Bytes} {e : Rejection} {c : Cursor} (h : read (.atStart s) = .error e c) :
    Emits (parse s) (.error e) [.rejected e s.length] := by
  rw [parse_eq]
  apply (emits_decode_of_error h).bind
  exact (Emits.emit _).bind (.pure _)

theorem reading_of_emits {s : Bytes} {result : Except Rejection Reference} {es : List Entry}
    (h : Emits (parse s) result es) (level : Level) : reading level s = (result, upTo level es) := by
  rw [reading, h level [], List.nil_append]

theorem ofScript_of_ok {s : Bytes} {r : Reference} {c : Cursor} (h : read (.atStart s) = .ok r c) :
    ofScript s = .ok r := by
  rw [ofScript, reading_of_emits (emits_parse_of_ok h)]

theorem ofScript_of_error {s : Bytes} {e : Rejection} {c : Cursor} (h : read (.atStart s) = .error e c) :
    ofScript s = .error e := by
  rw [ofScript, reading_of_emits (emits_parse_of_error h)]

end MinerInfo.Reference
