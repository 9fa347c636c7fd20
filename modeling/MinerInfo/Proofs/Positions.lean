import MinerInfo.Proofs.Runs

/-! Reads tell nothing of where in a script they stand. Two cursors are alike if the same bytes are unread; a read that
is the same from alike cursors leaves them alike, so a sequence of such reads is the same again, and so is a run. What
words of 64 bits make of a read is told apart: their sum of the position and a length may overflow at one cursor and
not at the other, and both ways the read is refused. -/

namespace MinerInfo.Script

/-- Two cursors, none of them past the end of its script, with the same bytes unread. -/
structure Cursor.Alike (c d : Cursor) : Prop where
  unread : c.unread = d.unread
  left : c.position ≤ c.script.length
  right : d.position ≤ d.script.length

namespace Cursor

variable {c d : Cursor}

theorem alike_append (a b : Bytes) : Alike ⟨a ++ b, a.length⟩ (.atStart b) where
  unread := List.drop_left
  left := by simp
  right := Nat.zero_le _

theorem Alike.remaining (h : Alike c d) : c.remaining = d.remaining := by
  rw [← length_unread, ← length_unread, h.unread]

theorem position_advance_le {n : Nat} (h : c.position ≤ c.script.length) (hn : n ≤ c.remaining) :
    (c.advance n).position ≤ (c.advance n).script.length := by
  show c.position + n ≤ c.script.length
  unfold Cursor.remaining at hn
  omega

theorem Alike.advance {n : Nat} (h : Alike c d) (hn : n ≤ c.remaining) : Alike (c.advance n) (d.advance n) where
  unread := by rw [unread_advance, unread_advance, h.unread]
  left := position_advance_le h.left hn
  right := position_advance_le h.right (h.remaining ▸ hn)

end Cursor

namespace Read

variable {α β : Type} {c d : Cursor}

/-- Outcomes with the same value or the same rejection, which leave the cursors alike. -/
inductive SameOutcome : EStateM.Result Rejection Cursor α → EStateM.Result Rejection Cursor α → Prop where
  | ok (a : α) {c d : Cursor} (h : c.Alike d) : SameOutcome (.ok a c) (.ok a d)
  | error (e : Rejection) {c d : Cursor} (h : c.Alike d) : SameOutcome (.error e c) (.error e d)

/-- A read that is the same wherever the unread bytes stand. -/
def Placeless (m : Read α) : Prop := ∀ c d : Cursor, c.Alike d → SameOutcome (m c) (m d)

theorem placeless_pure (a : α) : Placeless (pure a) := fun _ _ h => .ok a h

theorem placeless_throw (e : Rejection) : Placeless (throw e : Read α) := fun _ _ h => .error e h

theorem Placeless.bind {m : Read α} {f : α → Read β} (hm : Placeless m) (hf : ∀ a, Placeless (f a)) :
    Placeless (m >>= f) := by
  intro c d h
  have hfirst := hm c d h
  generalize hc : m c = x at hfirst
  generalize hd : m d = y at hfirst
  cases hfirst with
  | ok a h' =>
      rw [bind_of_ok hc, bind_of_ok hd]
      exact hf a _ _ h'
  | error e h' =>
      rw [bind_of_error hc, bind_of_error hd]
      exact .error e h'

theorem Placeless.map {m : Read α} (f : α → β) (hm : Placeless m) : Placeless (f <$> m) := by
  rw [map_eq_pure_bind]
  exact hm.bind fun a => placeless_pure (f a)

theorem Placeless.ite {p : Prop} [Decidable p] {m n : Read α} (hm : Placeless m) (hn : Placeless n) :
    Placeless (if p then m else n) := by
  split
  · exact hm
  · exact hn

theorem placeless_marker (m : Bytes) : Placeless (marker m) := by
  intro c d h
  rw [marker_eq, marker_eq, h.unread]
  split
  · rename_i hpre
    apply SameOutcome.ok
    apply h.advance
    rw [h.remaining, ← Cursor.length_unread]
    exact hpre.length_le
  · exact .ok false h

theorem placeless_byte : Placeless byte := by
  intro c d h
  rw [byte_eq, byte_eq, h.unread]
  cases hu : d.unread with
  | nil => exact .error .tooShort h
  | cons b rest =>
      apply SameOutcome.ok
      apply h.advance
      rw [h.remaining, ← Cursor.length_unread, hu]
      exact Nat.le_add_left 1 rest.length

theorem placeless_bytes (n : Nat) : Placeless (bytes n) := by
  intro c d h
  rw [bytes_eq n c h.left, bytes_eq n d h.right, h.unread, h.remaining]
  split
  · rename_i hn
    exact .ok _ (h.advance (h.remaining ▸ hn))
  · exact .error .tooShort h

theorem placeless_push (low high : UInt8) (otherwise : Rejection) : Placeless (push low high otherwise) :=
  placeless_byte.bind fun length => (placeless_bytes length.toNat).ite (placeless_throw otherwise)

theorem placeless_hash (otherwise : Rejection) : Placeless (hash otherwise) := by
  apply (placeless_push hashLength hashLength otherwise).bind
  intro data
  cases Hash.ofBytes? data with
  | some h => exact placeless_pure h
  | none => exact placeless_throw otherwise

end Read

theorem Step.placeless_read (s : Step) : Read.Placeless s.read := by
  cases s with
  | marker m => exact (Read.placeless_marker m).map _
  | byte => exact Read.placeless_byte.map _
  | bytes n => exact (Read.placeless_bytes n).map _
  | push low high otherwise => exact (Read.placeless_push low high otherwise).map _
  | hash otherwise => exact (Read.placeless_hash otherwise).map _

/-- A step has one answer from alike cursors, and leaves them alike. -/
theorem Step.answer_and_move_of_alike (s : Step) {c d : Cursor} (h : c.Alike d) :
    s.answer c = s.answer d ∧ (s.move c).Alike (s.move d) := by
  have hread := s.placeless_read c d h
  unfold Step.answer Step.move
  generalize s.read c = x at hread
  generalize s.read d = y at hread
  cases hread with
  | ok a h' => exact ⟨rfl, h'⟩
  | error e h' => exact ⟨rfl, h'⟩

theorem run_of_alike (steps : List Step) {c d : Cursor} (h : c.Alike d) : run c steps = run d steps := by
  induction steps generalizing c d with
  | nil => rfl
  | cons s rest ih =>
      obtain ⟨hanswer, hmove⟩ := s.answer_and_move_of_alike h
      rw [run_cons, run_cons, hanswer, hmove.remaining, ih hmove]

/-- Takes `n` bytes, with `n` as a word and the end found in words. -/
def Read.takeByWords (n : Nat) : Read Bytes := bytesByWords (.ofNat n)

/-- The answers of a run that finds the end of each read in words, with the number of bytes left after each. -/
def runByWords : Cursor → List Step → List (Except Rejection Answer × Nat) := runBy Read.takeByWords

/-- A step for which words suffice: it asks for no more bytes than a word can count. -/
def Step.InWords (s : Step) : Prop := ∀ n, s = .bytes n → n < UInt64.size

/-- A cursor in a script whose length fits in a word. -/
def Cursor.InWords (c : Cursor) : Prop := c.position ≤ c.script.length ∧ c.script.length < UInt64.size

variable {c : Cursor}

/-- Two sequences of reads agree if their first parts do, and their second ones where that has come to. -/
theorem Read.bind_congr_at {α β : Type} {m n : Read α} {f g : α → Read β} (hm : m c = n c)
    (hf : ∀ a d, n c = .ok a d → f a d = g a d) : (m >>= f) c = (n >>= g) c := by
  cases hread : n c with
  | ok a d => rw [bind_of_ok (hm.trans hread), bind_of_ok hread, hf a d hread]
  | error e d => rw [bind_of_error (hm.trans hread), bind_of_error hread]

theorem Read.map_congr_at {α β : Type} {f : α → β} {m n : Read α} (h : m c = n c) : (f <$> m) c = (f <$> n) c := by
  rw [map_eq_pure_bind, map_eq_pure_bind]
  exact bind_congr_at h fun _ _ _ => rfl

theorem Read.takeByWords_eq {n : Nat} (hn : n < UInt64.size) (h : c.InWords) : takeByWords n c = bytes n c := by
  rw [takeByWords, bytesByWords_eq (.ofNat n) h.1 h.2, UInt64.toNat_ofNat_of_lt' hn]

theorem Read.pushBy_takeByWords (low high : UInt8) (otherwise : Rejection) (h : c.InWords) :
    pushBy takeByWords low high otherwise c = push low high otherwise c := by
  unfold push pushBy
  apply bind_congr_at rfl
  intro length d hread
  obtain ⟨hpre, rfl⟩ := byte_eq_ok_iff.1 hread
  have hposition : (c.advance 1).position ≤ (c.advance 1).script.length :=
    Cursor.position_advance_le h.1 (c.length_unread ▸ hpre.length_le)
  split
  · exact takeByWords_eq (Nat.lt_trans length.toNat_lt (by decide)) ⟨hposition, h.2⟩
  · rfl

theorem Read.hashBy_takeByWords (otherwise : Rejection) (h : c.InWords) :
    hashBy takeByWords otherwise c = hash otherwise c := by
  unfold hash hashBy
  exact bind_congr_at (pushBy_takeByWords hashLength hashLength otherwise h) fun _ _ _ => rfl

theorem Step.readBy_takeByWords {s : Step} (hs : s.InWords) (h : c.InWords) :
    s.readBy Read.takeByWords c = s.read c := by
  cases s with
  | marker m => rfl
  | byte => rfl
  | bytes n => exact Read.map_congr_at (Read.takeByWords_eq (hs n rfl) h)
  | push low high otherwise => exact Read.map_congr_at (Read.pushBy_takeByWords low high otherwise h)
  | hash otherwise => exact Read.map_congr_at (Read.hashBy_takeByWords otherwise h)

theorem Step.inWords_move (s : Step) (h : c.InWords) : (s.move c).InWords := by
  obtain ⟨hpre, hmove⟩ := s.advances c
  rw [hmove]
  exact ⟨Cursor.position_advance_le h.1 (c.length_unread ▸ hpre.length_le), h.2⟩

/-- If words suffice for its script and its steps, a run by words is the run. -/
theorem runByWords_eq {steps : List Step} (hsteps : ∀ s ∈ steps, s.InWords) (h : c.InWords) :
    runByWords c steps = run c steps := by
  induction steps generalizing c with
  | nil => rfl
  | cons s rest ih =>
      have hrest := ih (fun s' hs' => hsteps s' (List.mem_cons_of_mem s hs')) (s.inWords_move h)
      rw [runByWords, runBy_cons (Step.readBy_takeByWords (hsteps s List.mem_cons_self) h), run_cons, ← hrest,
        runByWords]

/-- A run of reads behind the bytes `a` of a script is the run over what follows them, answer by answer and with the
same number of bytes left after each, rejected reads among them. The same holds of runs by words, even where the sum
of a position and a length overflows behind `a` and not at the start. -/
theorem run_behind_bytes (a b : Bytes) (steps : List Step) :
    run ⟨a ++ b, a.length⟩ steps = run (.atStart b) steps ∧
    ((a ++ b).length < UInt64.size → (∀ n, Step.bytes n ∈ steps → n < UInt64.size) →
      runByWords ⟨a ++ b, a.length⟩ steps = runByWords (.atStart b) steps ∧
        runByWords (.atStart b) steps = run (.atStart b) steps) := by
  have halike := Cursor.alike_append a b
  have hrun := run_of_alike steps halike
  refine ⟨hrun, fun hfits hbytes => ?_⟩
  have hsteps : ∀ s ∈ steps, s.InWords := by
    rintro s hs n rfl
    exact hbytes n hs
  have hlength : b.length < UInt64.size := by
    rw [List.length_append] at hfits
    omega
  have hbehind := runByWords_eq hsteps (c := ⟨a ++ b, a.length⟩) ⟨halike.left, hfits⟩
  have hstart := runByWords_eq hsteps (c := .atStart b) ⟨halike.right, hlength⟩
  exact ⟨hbehind.trans (hrun.trans hstart.symm), hstart⟩

/-- Behind one byte the first read is refused because its sum overflows, and at the start because it lies behind the
end. -/
theorem run_behind_one_byte :
    let steps : List Step :=
      [.bytes 0xffffffffffffffff, .push 1 1 .signatureLength, .hash .txidLength, .marker [7], .byte]
    ([1] ++ [2, 9, 7] : Bytes).length < UInt64.size ∧ (∀ n, Step.bytes n ∈ steps → n < UInt64.size) ∧
      (1 + 0xffffffffffffffff : UInt64) < 1 ∧ ¬(0 + 0xffffffffffffffff : UInt64) < 0 ∧
      runByWords ⟨[1] ++ [2, 9, 7], 1⟩ steps = runByWords (.atStart [2, 9, 7]) steps ∧
      (runByWords (.atStart [2, 9, 7]) steps).map Prod.snd = [3, 2, 1, 0, 0] := by
  intro steps
  have hfits : ([1] ++ [2, 9, 7] : Bytes).length < UInt64.size := by decide
  have hbytes : ∀ n, Step.bytes n ∈ steps → n < UInt64.size := by
    intro n hn
    simp only [steps, List.mem_cons, Step.bytes.injEq, reduceCtorEq, List.not_mem_nil, or_false] at hn
    rw [hn]
    decide
  obtain ⟨hsame, hstart⟩ := (run_behind_bytes [1] [2, 9, 7] steps).2 hfits hbytes
  refine ⟨hfits, hbytes, by decide, by decide, hsame, ?_⟩
  rw [hstart]
  decide +kernel

end MinerInfo.Script
