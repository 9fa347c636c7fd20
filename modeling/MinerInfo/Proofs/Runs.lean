import MinerInfo.Proofs.Offsets

/-! Runs of reads on one cursor. What a step takes is told by its answer, and by the length byte that a push or a
hash begins with, which is taken even where the rest is rejected. Each step takes this off the front of the unread
bytes and stands behind it, so the steps of a run have taken the script up to the place where the run stands. -/

namespace MinerInfo.Script

/-- The length byte that a step meets, if it is a step that looks for one. -/
def Step.lengthByte (s : Step) (c : Cursor) : Bytes :=
  match s with
  | .push _ _ _ | .hash _ => c.unread.take 1
  | _ => []

/-- The bytes that a step hands over with an answer, or has found to be there. -/
def Step.data : Step → Answer → Bytes
  | .marker m, .found true => m
  | _, .found _ => []
  | _, .byte b => [b]
  | _, .bytes data => data
  | _, .hash h => h.bytes

/-- The bytes that a step takes, rejected or not. -/
def Step.consumed (s : Step) (c : Cursor) : Bytes :=
  s.lengthByte c ++ match s.answer c with
    | .ok a => s.data a
    | .error _ => []

/-- Where the cursor stands after some steps. -/
def after (c : Cursor) (steps : List Step) : Cursor := steps.foldl (fun c s => s.move c) c

/-- The bytes taken by some steps, in order. -/
def consumedBy (c : Cursor) : List Step → Bytes
  | [] => []
  | s :: rest => s.consumed c ++ consumedBy (s.move c) rest

namespace Step

variable {s : Step} {c d : Cursor}

/-- What a step takes stands at the front of the unread bytes, and the cursor moves on behind it. -/
def Advances (s : Step) (c : Cursor) : Prop :=
  s.consumed c <+: c.unread ∧ s.move c = c.advance (s.consumed c).length

theorem advances_of_ok {a : Answer} (h : s.read c = .ok a d) (hpre : s.lengthByte c ++ s.data a <+: c.unread)
    (hd : d = c.advance (s.lengthByte c ++ s.data a).length) : s.Advances c := by
  have hconsumed : s.consumed c = s.lengthByte c ++ s.data a := by simp only [consumed, answer, h]
  have hmove : s.move c = d := by simp only [move, h]
  rw [Advances, hconsumed, hmove]
  exact ⟨hpre, hd⟩

theorem advances_of_error {e : Rejection} (h : s.read c = .error e d)
    (hpre : s.lengthByte c <+: c.unread) (hd : d = c.advance (s.lengthByte c).length) : s.Advances c := by
  have hconsumed : s.consumed c = s.lengthByte c := by simp only [consumed, answer, h, List.append_nil]
  have hmove : s.move c = d := by simp only [move, h]
  rw [Advances, hconsumed, hmove]
  exact ⟨hpre, hd⟩

theorem map_of_ok {α : Type} {f : α → Answer} {m : Read α} {a : α} (h : m c = .ok a d) :
    (f <$> m) c = .ok (f a) d := by
  simp only [Functor.map, EStateM.map, h]

theorem map_of_error {α : Type} {f : α → Answer} {m : Read α} {e : Rejection} (h : m c = .error e d) :
    (f <$> m) c = .error e d := by
  simp only [Functor.map, EStateM.map, h]

theorem advances_marker (m : Bytes) (c : Cursor) : Advances (.marker m) c := by
  have hread := Read.marker_eq m c
  by_cases h : m <+: c.unread
  · rw [if_pos h] at hread
    exact advances_of_ok (map_of_ok hread) h rfl
  · rw [if_neg h] at hread
    exact advances_of_ok (map_of_ok hread) List.nil_prefix rfl

theorem advances_byte (c : Cursor) : Advances .byte c := by
  have hread := Read.byte_eq c
  cases hu : c.unread with
  | nil =>
      rw [hu] at hread
      exact advances_of_error (map_of_error hread) List.nil_prefix rfl
  | cons b rest =>
      rw [hu] at hread
      refine advances_of_ok (map_of_ok hread) ?_ rfl
      rw [hu]
      exact ⟨rest, rfl⟩

theorem advances_bytes (n : Nat) (c : Cursor) : Advances (.bytes n) c := by
  by_cases h : c.position + n ≤ c.script.length
  · have hread : Read.bytes n c = .ok (c.unread.take n) (c.advance n) := if_pos h
    have hlen : (c.unread.take n).length = n := by
      rw [List.length_take, Cursor.length_unread, Cursor.remaining]
      omega
    refine advances_of_ok (map_of_ok hread) (List.take_prefix n c.unread) ?_
    exact congrArg c.advance hlen.symm
  · have hread : Read.bytes n c = .error .tooShort c := if_neg h
    exact advances_of_error (map_of_error hread) List.nil_prefix rfl

/-- A step that finds its length byte and then hands over what follows it. -/
theorem advances_of_data {a : Answer} {n : UInt8} {rest : Bytes} (hu : c.unread = n :: rest)
    (hbyte : s.lengthByte c = c.unread.take 1) (hdata : s.data a <+: rest)
    (h : s.read c = .ok a (c.advance (1 + (s.data a).length))) : s.Advances c := by
  rw [hu, List.take_succ_cons, List.take_zero] at hbyte
  refine advances_of_ok h ?_ ?_
  · rw [hbyte, hu]
    exact List.cons_prefix_cons.2 ⟨rfl, hdata⟩
  · rw [hbyte, List.length_append]
    rfl

/-- A step that is rejected for its length byte, or for the lack of data behind it. -/
theorem advances_of_lengthByte {e : Rejection} {n : UInt8} {rest : Bytes} (hu : c.unread = n :: rest)
    (hbyte : s.lengthByte c = c.unread.take 1) (h : s.read c = .error e (c.advance 1)) : s.Advances c := by
  refine advances_of_error h ?_ ?_
  · rw [hbyte]
    exact List.take_prefix 1 c.unread
  · rw [hbyte, hu]
    rfl

theorem advances_of_unread_nil {e : Rejection} (hu : c.unread = []) (hbyte : s.lengthByte c = c.unread.take 1)
    (h : s.read c = .error e c) : s.Advances c := by
  rw [hu] at hbyte
  exact advances_of_error h (hbyte ▸ List.nil_prefix) (by rw [hbyte]; rfl)

theorem advances_push (low high : UInt8) (otherwise : Rejection) (c : Cursor) :
    Advances (.push low high otherwise) c := by
  have hread := Read.push_eq low high otherwise c
  cases hu : c.unread with
  | nil =>
      rw [hu] at hread
      exact advances_of_unread_nil hu rfl (map_of_error hread)
  | cons n rest =>
      simp only [hu] at hread
      split at hread
      · split at hread
        · rename_i hlen
          have htake : (rest.take n.toNat).length = n.toNat := List.length_take_of_le hlen
          refine advances_of_data (a := .bytes (rest.take n.toNat)) hu rfl (List.take_prefix _ _)
            (map_of_ok (hread.trans ?_))
          rw [data, htake]
        · exact advances_of_lengthByte hu rfl (map_of_error hread)
      · exact advances_of_lengthByte hu rfl (map_of_error hread)

theorem advances_hash (otherwise : Rejection) (c : Cursor) : Advances (.hash otherwise) c := by
  have hread := Read.hash_eq otherwise c
  cases hu : c.unread with
  | nil =>
      rw [hu] at hread
      exact advances_of_unread_nil hu rfl (map_of_error hread)
  | cons n rest =>
      simp only [hu] at hread
      split at hread
      · split at hread
        · rename_i hlen
          have htake : (rest.take 32).length = 32 := List.length_take_of_le hlen
          refine advances_of_data (a := .hash ⟨rest.take 32, htake⟩) hu rfl (List.take_prefix _ _)
            (map_of_ok (hread.trans ?_))
          rw [data, htake]
        · exact advances_of_lengthByte hu rfl (map_of_error hread)
      · exact advances_of_lengthByte hu rfl (map_of_error hread)

theorem advances (s : Step) (c : Cursor) : s.Advances c := by
  cases s with
  | marker m => exact advances_marker m c
  | byte => exact advances_byte c
  | bytes n => exact advances_bytes n c
  | push low high otherwise => exact advances_push low high otherwise c
  | hash otherwise => exact advances_hash otherwise c

end Step

/-- The steps of a run together take bytes off the front of the unread ones, as one step does. -/
theorem consumedBy_prefix_and_after_eq (c : Cursor) (steps : List Step) :
    consumedBy c steps <+: c.unread ∧ after c steps = c.advance (consumedBy c steps).length := by
  induction steps generalizing c with
  | nil => exact ⟨List.nil_prefix, rfl⟩
  | cons s rest ih =>
      obtain ⟨hpre, hmove⟩ := s.advances c
      obtain ⟨hrest, hafter⟩ := ih (s.move c)
      rw [hmove] at hrest hafter
      constructor
      · rw [consumedBy, hmove]
        exact Cursor.append_prefix_unread.2 ⟨hpre, hrest⟩
      · rw [consumedBy, hmove, List.length_append, ← Cursor.advance_advance, ← hafter, ← hmove]
        rfl

theorem run_concat (c : Cursor) (steps : List Step) (s : Step) :
    run c (steps ++ [s]) =
      run c steps ++ [(s.answer (after c steps), (s.move (after c steps)).remaining)] := by
  induction steps generalizing c with
  | nil => exact run_cons c s []
  | cons s' rest ih =>
      rw [List.cons_append, run_cons, run_cons, ih]
      rfl

/-- The end of a read as words of 64 bits give it: there is none if the sum overflows, or lies behind the end of
the script. -/
def wordEnd? (position n length : UInt64) : Option UInt64 :=
  if position + n < position then none
  else if position + n ≤ length then some (position + n) else none

/-- Takes `n` bytes, with the end found in words of 64 bits. -/
def Read.bytesByWords (n : UInt64) : Read Bytes := fun c =>
  match wordEnd? (.ofNat c.position) n (.ofNat c.script.length) with
  | some past => .ok (slice c.script c.position past.toNat) ⟨c.script, past.toNat⟩
  | none => .error .tooShort c

theorem wordEnd?_ofNat {position length : Nat} (n : UInt64) (hpos : position ≤ length) (hfits : length < UInt64.size) :
    (wordEnd? (.ofNat position) n (.ofNat length)).map UInt64.toNat =
      if position + n.toNat ≤ length then some (position + n.toNat) else none := by
  have hn : n.toNat < UInt64.size := n.toNat_lt
  have hp : (UInt64.ofNat position).toNat = position := UInt64.toNat_ofNat_of_lt' (Nat.lt_of_le_of_lt hpos hfits)
  have hl : (UInt64.ofNat length).toNat = length := UInt64.toNat_ofNat_of_lt' hfits
  have hsum : (UInt64.ofNat position + n).toNat = (position + n.toNat) % UInt64.size := by rw [UInt64.toNat_add, hp]
  simp only [wordEnd?, UInt64.lt_iff_toNat_lt, UInt64.le_iff_toNat_le, hp, hl, hsum]
  -- a sum that overflows comes out below the position
  by_cases hover : position + n.toNat < UInt64.size
  · rw [Nat.mod_eq_of_lt hover, if_neg (by omega)]
    split
    · rw [Option.map_some, hsum, Nat.mod_eq_of_lt hover]
    · rfl
  · have hmod : (position + n.toNat) % UInt64.size = position + n.toNat - UInt64.size := by
      rw [Nat.mod_eq_sub_mod (Nat.not_lt.1 hover), Nat.mod_eq_of_lt (by omega)]
    rw [hmod, if_pos (by omega), if_neg (by omega)]
    rfl

theorem Read.bytesByWords_eq {c : Cursor} (n : UInt64) (hpos : c.position ≤ c.script.length)
    (hfits : c.script.length < UInt64.size) : bytesByWords n c = bytes n.toNat c := by
  have hend := wordEnd?_ofNat n hpos hfits
  rw [bytesByWords, bytes]
  split at hend
  · rename_i hle
    obtain ⟨past, hpast, htoNat⟩ := Option.map_eq_some_iff.1 hend
    rw [hpast, if_pos hle]
    simp only [htoNat, slice, Nat.add_sub_cancel_left]
    rfl
  · rename_i hle
    rw [Option.map_eq_none_iff.1 hend, if_neg hle]

/-- Wherever a run of reads has come to, rejected ones among them, the place is in the script, and the script up to
it is what was taken. From there the next read goes on and not back, and is reported by its answer and what it
leaves; and if the length of the script fits in a word, ends found in words are the true ones, even if a sum
overflows. -/
theorem run_stays_in_script (script : Bytes) (steps : List Step) :
    let c := after (.atStart script) steps
    c.script = script ∧ c.position ≤ script.length ∧ c.position + c.remaining = script.length ∧
      consumedBy (.atStart script) steps = script.take c.position ∧
      (∀ s : Step, c.position ≤ (s.move c).position ∧
        run (.atStart script) (steps ++ [s]) =
          run (.atStart script) steps ++ [(s.answer c, (s.move c).remaining)]) ∧
      (script.length < UInt64.size → ∀ n : UInt64, Read.bytesByWords n c = Read.bytes n.toNat c) := by
  intro c
  obtain ⟨hpre, hafter⟩ := consumedBy_prefix_and_after_eq (.atStart script) steps
  rw [Cursor.unread_atStart] at hpre
  have hscript : c.script = script := congrArg Cursor.script hafter
  have hposition : c.position = (consumedBy (.atStart script) steps).length :=
    (congrArg Cursor.position hafter).trans (Nat.zero_add _)
  have hle : c.position ≤ script.length := hposition ▸ hpre.length_le
  refine ⟨hscript, hle, ?_, ?_, ?_, ?_⟩
  · rw [Cursor.remaining, hscript, Nat.add_sub_cancel' hle]
  · rw [hposition]
    exact List.prefix_iff_eq_take.1 hpre
  · intro s
    have hmove : s.move c = c.advance (s.consumed c).length := (s.advances c).2
    refine ⟨?_, run_concat _ steps s⟩
    rw [hmove]
    exact Nat.le_add_right _ _
  · intro hfits n
    exact Read.bytesByWords_eq n (hscript ▸ hle) (hscript ▸ hfits)

/-- A push that is rejected for the lack of data, and then reads of which the last asks for more bytes than a sum of
words can tell from none. -/
theorem run_past_rejected_push :
    let steps : List Step := [.marker [7], .push 1 2 .signatureLength, .byte, .bytes (UInt64.size - 1)]
    let c := after (.atStart [7, 2, 9]) steps
    ([7, 2, 9] : Bytes).length < UInt64.size ∧ consumedBy (.atStart [7, 2, 9]) steps = [7, 2, 9].take c.position ∧
      Read.bytesByWords 0xffffffffffffffff c = Read.bytes 0xffffffffffffffff c := by
  intro steps c
  have hfits : ([7, 2, 9] : Bytes).length < UInt64.size := by decide
  obtain ⟨-, -, -, hconsumed, -, hwords⟩ := run_stays_in_script [7, 2, 9] steps
  exact ⟨hfits, hconsumed, hwords hfits 0xffffffffffffffff⟩

end MinerInfo.Script
