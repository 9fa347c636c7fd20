import MinerInfo.Proofs.Duality

/-! What is logged of a reading. The log of a script that is read has the identifier of its reference, and before that
how many bytes stand behind the script of the reference, if there are any. The log of a script that is rejected has the
reason and nothing else. A quieter log is the full one without the entries above its level. -/

namespace MinerInfo.Reference

open Script

theorem emits_of_toScript {s e : Bytes} {r : Reference} (he : r.toScript = .ok e) (hpre : e <+: s) :
    Emits (parse s) (.ok r)
      ((if e.length < s.length then [.trailing (s.length - e.length)] else []) ++ [.parsed r.txid]) := by
  have hread : read (.atStart s) = .ok r ((Cursor.atStart s).advance e.length) :=
    read_eq_ok_iff.2 ⟨e, he, hpre, rfl⟩
  have hleft : ((Cursor.atStart s).advance e.length).remaining = s.length - e.length := by
    simp only [Cursor.remaining, Cursor.advance, Cursor.atStart, Nat.zero_add]
  have hemits := emits_parse_of_ok hread
  rw [leftover, hleft] at hemits
  simpa only [Nat.sub_pos_iff_lt] using hemits

theorem emits_of_error {s : Bytes} {k : Rejection} (h : ofScript s = .error k) :
    Emits (parse s) (.error k) [.rejected k s.length] := by
  cases hread : read (.atStart s) with
  | ok r d =>
      rw [ofScript_of_ok hread] at h
      cases h
  | error e d =>
      rw [ofScript_of_error hread] at h
      cases h
      exact emits_parse_of_error hread

/-- A reading emits the same entries at every level. -/
theorem exists_emits (s : Bytes) : ∃ es, Emits (parse s) (ofScript s) es := by
  cases h : ofScript s with
  | ok r =>
      obtain ⟨e, he, hpre⟩ := prefix_of_ofScript h
      exact ⟨_, emits_of_toScript he hpre⟩
  | error k => exact ⟨_, emits_of_error h⟩

theorem log_of_emits {s : Bytes} {result : Except Rejection Reference} {es : List Entry}
    (h : Emits (parse s) result es) (level : Level) : log level s = upTo level es := by
  rw [log, reading_of_emits h]

theorem upTo_eq_self {level : Level} {es : List Entry} (h : ∀ e ∈ es, e.level.verbosity ≤ level.verbosity) :
    upTo level es = es :=
  List.filter_eq_self.2 fun e he => decide_eq_true (h e he)

theorem upTo_eq_nil {level : Level} {es : List Entry} (h : ∀ e ∈ es, ¬e.level.verbosity ≤ level.verbosity) :
    upTo level es = [] :=
  List.filter_eq_nil_iff.2 fun e he => by simpa using h e he

theorem upTo_trace (es : List Entry) : upTo .trace es = es := by
  apply upTo_eq_self
  intro e _
  cases e.level <;> decide

theorem log_trace_of_emits {s : Bytes} {result : Except Rejection Reference} {es : List Entry}
    (h : Emits (parse s) result es) : log .trace s = es := by
  rw [log_of_emits h, upTo_trace]

/-- The log of a level has what the full log has up to that level. -/
theorem log_eq_upTo (level : Level) (s : Bytes) : log level s = upTo level (log .trace s) := by
  obtain ⟨es, hes⟩ := exists_emits s
  rw [log_of_emits hes, log_trace_of_emits hes]

theorem level_of_mem_report {n : Nat} {p : Prop} [Decidable p] {txid : Hash} {entry : Entry}
    (h : entry ∈ (if p then [.trailing n] else []) ++ [.parsed txid]) : entry.level = .trace := by
  rcases List.mem_append.1 h with htrailing | hparsed
  · obtain ⟨-, hentry⟩ := List.mem_ite_nil_right.1 htrailing
    rw [List.mem_singleton.1 hentry]
    rfl
  · rw [List.mem_singleton.1 hparsed]
    rfl

/-- Nothing is logged below the level of a rejection. -/
theorem log_eq_nil_of_lt {level : Level} (hlevel : level.verbosity < Level.debug.verbosity) (s : Bytes) :
    log level s = [] := by
  cases h : ofScript s with
  | ok r =>
      obtain ⟨e, he, hpre⟩ := prefix_of_ofScript h
      rw [log_of_emits (emits_of_toScript he hpre)]
      apply upTo_eq_nil
      intro entry hentry
      rw [level_of_mem_report hentry]
      exact Nat.not_le_of_lt (Nat.lt_succ_of_lt hlevel)
  | error k =>
      rw [log_of_emits (emits_of_error h)]
      apply upTo_eq_nil
      intro entry hentry
      rw [List.mem_singleton.1 hentry]
      exact Nat.not_le_of_lt hlevel

/-- The result of a reading is the same at every level. For a script that is read, the full log has the count of the
bytes behind the script of the reference, if there are any, and then the identifier, and the log of the level below has
nothing; for one that is rejected, both have the reason and the length of the script. The quieter levels have nothing
at all, so that each level has what the full log has up to it. -/
theorem log_of_reading (s : Bytes) :
    (∀ level, (reading level s).1 = ofScript s) ∧
      (match ofScript s with
        | .ok r => ∃ e, r.toScript = .ok e ∧
            log .trace s =
              (if e.length < s.length then
                [⟨.trace, "ignoring bytes after block bind signature".toList,
                  [("trailing".toList, .number (s.length - e.length))]⟩]
              else []) ++
              [⟨.trace, "parsed miner info reference".toList, [("txid".toList, .text r.txid.displayHex)]⟩] ∧
            log .debug s = []
        | .error k =>
            let reason : String := match k with
              | .noMarker => "script is not a miner ID protocol script"
              | .tooShort => "script too short"
              | .unknownVersion => "unsupported script version"
              | .txidLength => "invalid miner info txid length"
              | .merkleRootLength => "invalid modified merkle root length"
              | .previousBlockLength => "invalid previous block hash length"
              | .signatureLength => "invalid block bind signature length"
            let rejected : Entry := ⟨.debug, "rejected miner info reference script".toList,
              [("err".toList, .text reason.toList), ("script_len".toList, .number s.length)]⟩
            log .trace s = [rejected] ∧ log .debug s = [rejected]) ∧
      (log .off s = [] ∧ log .error s = [] ∧ log .warn s = [] ∧ log .info s = []) ∧
      ∀ level, log level s = (log .trace s).filter fun entry => entry.level.verbosity ≤ level.verbosity := by
  refine ⟨?_, ?_, ?_, fun level => log_eq_upTo level s⟩
  · intro level
    obtain ⟨es, hes⟩ := exists_emits s
    rw [reading_of_emits hes]
  · cases h : ofScript s with
    | ok r =>
        obtain ⟨e, he, hpre⟩ := prefix_of_ofScript h
        have hemits := emits_of_toScript he hpre
        refine ⟨e, he, ?_, ?_⟩
        · rw [log_trace_of_emits hemits, Entry.parsed, Hash.shown_eq_displayHex]
          rfl
        · rw [log_of_emits hemits]
          apply upTo_eq_nil
          intro entry hentry
          rw [level_of_mem_report hentry]
          decide
    | error k =>
        dsimp -zeta only
        intro reason rejected
        have hreason : k.message = reason.toList := by cases k <;> rfl
        have hentry : Entry.rejected k s.length = rejected := by rw [Entry.rejected, hreason]
        have hemits := emits_of_error h
        rw [hentry] at hemits
        exact ⟨log_trace_of_emits hemits, log_of_emits hemits .debug⟩
  · exact ⟨log_eq_nil_of_lt (by decide) s, log_eq_nil_of_lt (by decide) s, log_eq_nil_of_lt (by decide) s,
      log_eq_nil_of_lt (by decide) s⟩

end MinerInfo.Reference
