import MinerInfo.Proofs.Runs

/-! How reads are refused. A marker that is not there, and a byte or bytes that are not left, leave the cursor where it
was. Of a push that is refused the length byte alone is taken, if there is one: either it is out of range, whatever
follows, or it asks for more bytes than follow. A hash is refused exactly as a push of its length, for data of that
length are always a hash. -/

namespace MinerInfo.Script

namespace Read

variable {α : Type} {c d : Cursor} {e otherwise : Rejection}

theorem ok_ne_error {a : α} : EStateM.Result.ok a c ≠ EStateM.Result.error e d := by
  intro h
  cases h

theorem marker_eq_ok_false_iff {m : Bytes} : marker m c = .ok false d ↔ ¬m <+: c.unread ∧ d = c := by
  rw [marker_eq]
  by_cases h : m <+: c.unread
  · simp [h]
  · simp [h, eq_comm]

theorem byte_eq_error_iff : byte c = .error e d ↔ c.unread = [] ∧ e = .tooShort ∧ d = c := by
  rw [byte_eq]
  cases c.unread with
  | nil => simp [eq_comm]
  | cons n rest => simp

theorem bytes_eq_error_iff {n : Nat} (h : c.position ≤ c.script.length) :
    bytes n c = .error e d ↔ c.remaining < n ∧ e = .tooShort ∧ d = c := by
  rw [bytes_eq n c h]
  by_cases hn : n ≤ c.remaining
  · simp [hn, Nat.not_lt.2 hn]
  · simp [hn, Nat.lt_of_not_le hn, eq_comm]

theorem push_eq_error_iff_of_nil {low high : UInt8} (hu : c.unread = []) :
    push low high otherwise c = .error e d ↔ e = .tooShort ∧ d = c := by
  rw [push_eq, hu]
  simp [eq_comm]

/-- Once there is a length byte it is taken, and its range counts before the data that follow it. -/
theorem push_eq_error_iff_of_cons {low high n : UInt8} {rest : Bytes} (hu : c.unread = n :: rest) :
    push low high otherwise c = .error e d ↔
      d = c.advance 1 ∧ (¬(low ≤ n ∧ n ≤ high) ∧ e = otherwise ∨
        (low ≤ n ∧ n ≤ high) ∧ rest.length < n.toNat ∧ e = .tooShort) := by
  rw [push_eq, hu]
  dsimp only
  by_cases hrange : low ≤ n ∧ n ≤ high
  · by_cases hlen : n.toNat ≤ rest.length
    · rw [if_pos hrange, if_pos hlen]
      simp only [reduceCtorEq, hrange, and_self, not_true_eq_false, Nat.not_lt.2 hlen, false_and, and_false, or_self]
    · rw [if_pos hrange, if_neg hlen, EStateM.Result.error.injEq]
      simp only [hrange, Nat.lt_of_not_le hlen, and_self, not_true_eq_false, false_and, true_and, false_or]
      exact and_comm.trans (and_congr eq_comm eq_comm)
  · rw [if_neg hrange, EStateM.Result.error.injEq]
    simp only [hrange, not_false_eq_true, false_and, true_and, or_false]
    exact and_comm.trans (and_congr eq_comm eq_comm)

/-- The data of a push of 32 bytes are those of a hash. -/
theorem hash_of_push {data : Bytes} (h : push hashLength hashLength otherwise c = .ok data d) :
    ∃ x, Hash.ofBytes? data = some x ∧ hash otherwise c = .ok x d := by
  obtain ⟨⟨hlow, hhigh⟩, -, -⟩ := push_eq_ok_iff.1 h
  have hlen : data.length = 32 := Nat.le_antisymm hhigh hlow
  have hsome : Hash.ofBytes? data = some ⟨data, hlen⟩ := dif_pos hlen
  refine ⟨_, hsome, ?_⟩
  rw [hash_eq_push_bind, bind_of_ok h, hsome]
  rfl

theorem hash_eq_error_iff :
    hash otherwise c = .error e d ↔ push hashLength hashLength otherwise c = .error e d := by
  cases h : push hashLength hashLength otherwise c with
  | ok data d' =>
      obtain ⟨x, -, hx⟩ := hash_of_push h
      rw [hx]
      exact iff_of_false ok_ne_error ok_ne_error
  | error e' d' =>
      rw [hash_eq_push_bind, bind_of_error h, EStateM.Result.error.injEq, EStateM.Result.error.injEq]

theorem map_eq_error_iff {f : α → Answer} {m : Read α} : (f <$> m) c = .error e d ↔ m c = .error e d := by
  cases h : m c with
  | ok a d' =>
      rw [Step.map_of_ok h]
      exact iff_of_false ok_ne_error ok_ne_error
  | error e' d' => rw [Step.map_of_error h, EStateM.Result.error.injEq, EStateM.Result.error.injEq]

theorem map_eq_ok_iff {f : α → Answer} (hf : Function.Injective f) {m : Read α} {a : α} :
    (f <$> m) c = .ok (f a) d ↔ m c = .ok a d := by
  cases h : m c with
  | ok b d' =>
      rw [Step.map_of_ok h, EStateM.Result.ok.injEq, EStateM.Result.ok.injEq, hf.eq_iff]
  | error e' d' =>
      rw [Step.map_of_error h]
      exact iff_of_false ok_ne_error.symm ok_ne_error.symm

end Read

/-- Wherever a run has come to, the cursor is on the script and not past its end. -/
theorem after_atStart (script : Bytes) (steps : List Step) :
    (after (.atStart script) steps).script = script ∧
      (after (.atStart script) steps).position ≤ script.length := by
  obtain ⟨hpre, hafter⟩ := consumedBy_prefix_and_after_eq (.atStart script) steps
  rw [hafter]
  refine ⟨rfl, ?_⟩
  have hposition : ((Cursor.atStart script).advance (consumedBy (.atStart script) steps).length).position =
      (consumedBy (.atStart script) steps).length := Nat.zero_add _
  rw [hposition]
  exact hpre.length_le

/-- Wherever a run of reads has come to, rejected ones among them, the unread bytes decide which reads are refused.
Nothing is taken by a marker that is not found, by a byte or by bytes that are refused, or by a push that finds no
length byte. Any other push that is refused has taken its length byte: either that is out of range, or fewer bytes
follow than it says. A hash is refused as a push of 32 bytes is, and never for the data that it has read. -/
theorem refused_reads_after_run (script : Bytes) (steps : List Step) :
    let c := after (.atStart script) steps
    c.unread = script.drop c.position ∧
    (∀ m d, (Step.marker m).read c = .ok (.found false) d ↔ ¬m <+: c.unread ∧ d = c) ∧
    (∀ e d, Step.byte.read c = .error e d ↔ c.unread = [] ∧ e = .tooShort ∧ d = c) ∧
    (∀ n e d, (Step.bytes n).read c = .error e d ↔ c.remaining < n ∧ e = .tooShort ∧ d = c) ∧
    (script.length < UInt64.size → ∀ (n : UInt64) e d,
      Read.bytesByWords n c = .error e d ↔ c.remaining < n.toNat ∧ e = .tooShort ∧ d = c) ∧
    (∀ low high otherwise, c.unread = [] → ∀ e d,
      (Step.push low high otherwise).read c = .error e d ↔ e = .tooShort ∧ d = c) ∧
    (∀ low high otherwise n rest, c.unread = n :: rest → ∀ e d,
      (Step.push low high otherwise).read c = .error e d ↔ d = c.advance 1 ∧
        (¬(low ≤ n ∧ n ≤ high) ∧ e = otherwise ∨
          (low ≤ n ∧ n ≤ high) ∧ rest.length < n.toNat ∧ e = .tooShort)) ∧
    (∀ low high otherwise e d, (Step.push low high otherwise).read c = .error e d →
      (d.position = c.position ↔ c.remaining = 0)) ∧
    (∀ otherwise e d, (Step.hash otherwise).read c = .error e d ↔ (Step.push 32 32 otherwise).read c = .error e d) ∧
    (∀ otherwise data d, (Step.push 32 32 otherwise).read c = .ok (.bytes data) d →
      ∃ h, Hash.ofBytes? data = some h ∧ (Step.hash otherwise).read c = .ok (.hash h) d) := by
  intro c
  obtain ⟨hscript, hposition⟩ := after_atStart script steps
  have hin : c.position ≤ c.script.length := hscript ▸ hposition
  have hnil (low high : UInt8) (otherwise : Rejection) (hu : c.unread = []) (e : Rejection) (d : Cursor) :
      (Step.push low high otherwise).read c = .error e d ↔ e = .tooShort ∧ d = c :=
    Read.map_eq_error_iff.trans (Read.push_eq_error_iff_of_nil hu)
  have hcons (low high : UInt8) (otherwise : Rejection) (n : UInt8) (rest : Bytes) (hu : c.unread = n :: rest)
      (e : Rejection) (d : Cursor) :
      (Step.push low high otherwise).read c = .error e d ↔ d = c.advance 1 ∧
        (¬(low ≤ n ∧ n ≤ high) ∧ e = otherwise ∨
          (low ≤ n ∧ n ≤ high) ∧ rest.length < n.toNat ∧ e = .tooShort) :=
    Read.map_eq_error_iff.trans (Read.push_eq_error_iff_of_cons hu)
  refine ⟨?_, ?_, ?_, ?_, ?_, hnil, hcons, ?_, ?_, ?_⟩
  · rw [Cursor.unread, hscript]
  · intro m d
    exact (Read.map_eq_ok_iff fun _ _ => Answer.found.inj).trans Read.marker_eq_ok_false_iff
  · intro e d
    exact Read.map_eq_error_iff.trans Read.byte_eq_error_iff
  · intro n e d
    exact Read.map_eq_error_iff.trans (Read.bytes_eq_error_iff hin)
  · intro hfits n e d
    rw [Read.bytesByWords_eq n hin (hscript ▸ hfits)]
    exact Read.bytes_eq_error_iff hin
  · intro low high otherwise e d h
    rw [← Cursor.length_unread, List.length_eq_zero_iff]
    cases hu : c.unread with
    | nil =>
        obtain ⟨-, rfl⟩ := (hnil low high otherwise hu e d).1 h
        exact iff_of_true rfl rfl
    | cons n rest =>
        obtain ⟨rfl, -⟩ := (hcons low high otherwise n rest hu e d).1 h
        exact iff_of_false (Nat.succ_ne_self c.position) (List.cons_ne_nil n rest)
  · intro otherwise e d
    exact Read.map_eq_error_iff.trans (Read.hash_eq_error_iff.trans Read.map_eq_error_iff.symm)
  · intro otherwise data d h
    obtain ⟨x, hx, hread⟩ := Read.hash_of_push ((Read.map_eq_ok_iff fun _ _ => Answer.bytes.inj).1 h)
    exact ⟨x, hx, Step.map_of_ok hread⟩

/-- Behind a push with too little data the length byte is gone; there a push out of range is refused for its range
although no data follow, and a number of bytes for which a sum of words would wrap is refused as well. -/
theorem refused_reads_after_cut_push :
    let c := after (.atStart [2, 9]) [.push 1 2 .signatureLength]
    let d := after (.atStart (32 :: List.replicate 32 7)) []
    ([2, 9] : Bytes).length < UInt64.size ∧ c.unread = [9] ∧
      (Step.push 1 2 .signatureLength).read c = .error .signatureLength (c.advance 1) ∧
      (c.advance 1).position ≠ c.position ∧
      Read.bytesByWords 0xffffffffffffffff c = .error .tooShort c ∧
      (Step.push 32 32 .txidLength).read (after (.atStart []) []) = .error .tooShort (.atStart []) ∧
      ∃ h, Hash.ofBytes? (List.replicate 32 7) = some h ∧
        (Step.hash .txidLength).read d = .ok (.hash h) (d.advance 33) := by
  intro c d
  have hfits : ([2, 9] : Bytes).length < UInt64.size := by decide
  have hu : c.unread = [9] := by decide
  have hdata : (Step.push 32 32 .txidLength).read d = .ok (.bytes (List.replicate 32 7)) (d.advance 33) := rfl
  obtain ⟨-, -, -, -, hwords, -, hcons, hposition, -⟩ := refused_reads_after_run [2, 9] [.push 1 2 .signatureLength]
  obtain ⟨-, -, -, -, -, hnil, -⟩ := refused_reads_after_run [] []
  obtain ⟨-, -, -, -, -, -, -, -, -, hhash⟩ := refused_reads_after_run (32 :: List.replicate 32 7) []
  have hpush := (hcons 1 2 .signatureLength 9 [] hu .signatureLength (c.advance 1)).2
    ⟨rfl, Or.inl ⟨by decide, rfl⟩⟩
  refine ⟨hfits, hu, hpush, ?_, (hwords hfits _ .tooShort c).2 ⟨by decide, rfl, rfl⟩, ?_, hhash _ _ _ hdata⟩
  · exact fun h => absurd ((hposition 1 2 _ _ _ hpush).1 h) (by decide)
  · exact (hnil 32 32 .txidLength rfl .tooShort (.atStart [])).2 ⟨rfl, rfl⟩

end MinerInfo.Script
