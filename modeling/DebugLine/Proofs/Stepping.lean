import DebugLine.Machine.Position
import DebugLine.Proofs.Decoding

/-!
# Stepping and the loop for the next row

One step decodes an instruction and executes it. The loop for the next row repeats the step, and
since each step takes a byte, its bound is never felt: it obeys the plain recursion equation.
-/

namespace DebugLine

variable {α β : Type}

namespace Machine

/-- The machine without the files that its table hides. -/
def shown (m : Machine) : Machine := { m with toDecoder := m.toDecoder.shown }

structure Onward (m m' : Machine) : Prop where
  decoder : m.toDecoder.Onward m'.toDecoder
  header_eq : m'.header = m.header

instance : IsPreorder Machine Onward where
  refl _ := ⟨refl_of Decoder.Onward _, rfl⟩
  trans _ _ _ h h' := ⟨trans_of Decoder.Onward h.decoder h'.decoder, h'.header_eq.trans h.header_eq⟩

/-- Running that moves on, appends files, records its failure and sees no hidden file. -/
abbrev Disciplined (x : Run α) : Prop := Regular Onward failure shown x

theorem ofDecode_eq_ok {x : Decode α} {m m' : Machine} {a : α} (h : Run.ofDecode x m = .ok a m') :
    ∃ d, x m.toDecoder = .ok a d ∧ m' = { m with toDecoder := d } := by
  unfold Run.ofDecode at h
  cases hx : x m.toDecoder with
  | ok b d =>
    simp only [hx, EStateM.Result.ok.injEq] at h
    exact ⟨d, by rw [h.1], h.2.symm⟩
  | error e d => simp [hx] at h

theorem ofDecode_eq_error {x : Decode α} {m m' : Machine} {e : LineError}
    (h : Run.ofDecode x m = .error e m') :
    ∃ d, x m.toDecoder = .error e d ∧ m' = { m with toDecoder := d } := by
  unfold Run.ofDecode at h
  cases hx : x m.toDecoder with
  | ok b d => simp [hx] at h
  | error first d =>
    simp only [hx, EStateM.Result.error.injEq] at h
    exact ⟨d, by rw [h.1], h.2.symm⟩

theorem ofDecode_disciplined {x : Decode α} (h : Decoder.Disciplined x) :
    Disciplined (Run.ofDecode x) where
  moves m := by
    have hmove := h.moves m.toDecoder
    unfold Run.ofDecode
    cases hx : x m.toDecoder <;>
    · rw [hx] at hmove
      exact ⟨hmove, rfl⟩
  records :=
    { ok := by
        intro m a m' hok
        obtain ⟨d, hd, rfl⟩ := ofDecode_eq_ok hok
        exact h.records.ok hd
      error := by
        intro m e m' herr
        obtain ⟨d, hd, rfl⟩ := ofDecode_eq_error herr
        exact h.records.error hd }
  ignores m := by
    have hview := h.ignores m.toDecoder
    have hdecoder : m.shown.toDecoder = m.toDecoder.shown := rfl
    unfold Run.ofDecode
    rw [hdecoder, hview]
    cases x m.toDecoder <;> rfl

theorem check_disciplined : Disciplined (Cursor.check : Run Unit) :=
  ofDecode_disciplined (Decoder.ofRead_disciplined Cursor.check_disciplined)

theorem execute_disciplined (instruction : Instruction) : Disciplined (execute instruction) where
  moves m := ⟨refl_of Decoder.Onward _, rfl⟩
  records :=
    { ok := by intro m row m' h; cases h; rfl
      error := by intro m e m' h; cases h }
  ignores _ := rfl

theorem step_disciplined : Disciplined step := by
  refine check_disciplined.bind fun _ => .get_bind (fun _ => rfl) fun m => ?_
  split_ifs
  · exact .pure none
  · exact (ofDecode_disciplined (Instruction.decode_disciplined _)).bind execute_disciplined

theorem nextRowWithin_disciplined (most : Nat) : Disciplined (nextRowWithin most) := by
  induction most with
  | zero => exact .pure none
  | succ most ih =>
    refine .get_bind (fun _ => rfl) fun m => ?_
    split_ifs
    · exact .pure none
    · apply step_disciplined.bind
      intro row
      cases row with
      | none => exact ih
      | some row => exact .pure (some row)

theorem nextRow_disciplined : Disciplined nextRow :=
  check_disciplined.bind fun _ => .get_bind (fun _ => rfl) fun _ => nextRowWithin_disciplined _

theorem step_of_failure {m : Machine} {e : LineError} (h : m.failure = some e) :
    step m = .error e m := by
  apply bind_of_error
  change Run.ofDecode (Decode.ofRead Cursor.check) m = _
  simp only [Run.ofDecode, Decode.ofRead, Cursor.check, show m.cursor.failure = some e from h]

theorem check_of_sound {m : Machine} (h : m.failure = none) :
    (Cursor.check : Run Unit) m = .ok () m := by
  change Run.ofDecode (Decode.ofRead Cursor.check) m = _
  simp only [Run.ofDecode, Decode.ofRead, Cursor.check, show m.cursor.failure = none from h]

theorem step_of_atEnd {m : Machine} (h : m.failure = none) (hend : m.atEnd = true) :
    step m = .ok none m := by
  refine (bind_of_ok (check_of_sound h)).trans ?_
  change (if m.atEnd then (pure none : Run (Option Row)) else _) m = _
  rw [if_pos hend]
  rfl

theorem atEnd_eq_false_of_step {m : Machine} (h : m.failure = none) (hstep : step m ≠ .ok none m) :
    m.atEnd = false := by
  by_contra hend
  exact hstep (step_of_atEnd h (by simpa using hend))

theorem step_of_not_atEnd {m : Machine} (h : m.failure = none) (hend : m.atEnd = false) :
    step m = (Run.ofDecode (Instruction.decode m.header) >>= execute) m := by
  refine (bind_of_ok (check_of_sound h)).trans ?_
  change (if m.atEnd then (pure none : Run (Option Row)) else _) m = _
  rw [if_neg (by simp [hend])]
  rfl

theorem failure_of_step_ok {m m' : Machine} {row : Option Row} (h : step m = .ok row m') :
    m.failure = none := by
  cases hm : m.failure with
  | none => rfl
  | some e => simp [step_of_failure hm] at h

/-- Each step takes a byte. -/
theorem remaining_step_lt {m m' : Machine} {row : Option Row} (h : step m = .ok row m')
    (hend : m.atEnd = false) : m'.cursor.remaining < m.cursor.remaining := by
  have hmove := step_disciplined.moves m
  rw [h] at hmove
  rw [step_of_not_atEnd (failure_of_step_ok h) hend] at h
  obtain ⟨instruction, u, hu, hexec⟩ := bind_eq_ok.mp h
  obtain ⟨d, hd, rfl⟩ := ofDecode_eq_ok hu
  cases hexec
  have hlt := Instruction.decode_progress hd
  have hlimit := hmove.decoder.cursor.limit_eq
  simp only [atEnd, Cursor.isEmpty, Cursor.remaining, beq_eq_false_iff_ne, ne_eq] at hend ⊢
  change d.cursor.limit = m.cursor.limit at hlimit
  change d.cursor.limit - d.cursor.offset < m.cursor.limit - m.cursor.offset
  omega

theorem nextRowWithin_of_atEnd {m : Machine} (hend : m.atEnd = true) (most : Nat) :
    nextRowWithin most m = .ok none m := by
  cases most with
  | zero => rfl
  | succ most =>
    change (if m.atEnd then (pure none : Run (Option Row)) else _) m = _
    rw [if_pos hend]
    rfl

theorem nextRowWithin_succ {m : Machine} (hend : m.atEnd = false) (most : Nat) :
    nextRowWithin (most + 1) m =
      (step >>= fun row => match row with
        | some row => pure (some row)
        | none => nextRowWithin most) m := by
  change (if m.atEnd then (pure none : Run (Option Row)) else _) m = _
  exact congrFun (if_neg (by simp [hend])) m

/-- Any two bounds that the unread bytes meet give the same row. -/
theorem nextRowWithin_eq {a b : Nat} {m : Machine} (ha : m.cursor.remaining ≤ a)
    (hb : m.cursor.remaining ≤ b) : nextRowWithin a m = nextRowWithin b m := by
  induction a generalizing b m with
  | zero =>
    have hend : m.atEnd = true := by simpa [atEnd, Cursor.isEmpty] using ha
    rw [nextRowWithin_of_atEnd hend, nextRowWithin_of_atEnd hend]
  | succ a ih =>
    cases hend : m.atEnd with
    | true => rw [nextRowWithin_of_atEnd hend, nextRowWithin_of_atEnd hend]
    | false =>
      obtain ⟨b, rfl⟩ : ∃ k, b = k + 1 := by
        apply Nat.exists_eq_add_one_of_ne_zero
        rintro rfl
        simp [atEnd, Cursor.isEmpty, Nat.le_zero.mp hb] at hend
      rw [nextRowWithin_succ hend, nextRowWithin_succ hend]
      cases hs : step m with
      | error e m' => rw [bind_of_error hs, bind_of_error hs]
      | ok row m' =>
        rw [bind_of_ok hs, bind_of_ok hs]
        cases row with
        | some row => rfl
        | none =>
          have hlt := remaining_step_lt hs hend
          exact ih (by omega) (by omega)

theorem nextRow_of_sound {m : Machine} (h : m.failure = none) {most : Nat}
    (hmost : m.cursor.remaining ≤ most) : nextRow m = nextRowWithin most m := by
  refine (bind_of_ok (check_of_sound h)).trans ?_
  exact nextRowWithin_eq le_rfl hmost

theorem nextRow_of_failure {m : Machine} {e : LineError} (h : m.failure = some e) :
    nextRow m = .error e m := by
  apply bind_of_error
  change Run.ofDecode (Decode.ofRead Cursor.check) m = _
  simp only [Run.ofDecode, Decode.ofRead, Cursor.check, show m.cursor.failure = some e from h]

theorem nextRow_of_atEnd {m : Machine} (h : m.failure = none) (hend : m.atEnd = true) :
    nextRow m = .ok none m := by
  rw [nextRow_of_sound h le_rfl, nextRowWithin_of_atEnd hend]

theorem nextRow_eq_step_bind {m : Machine} (h : m.failure = none) (hend : m.atEnd = false) :
    nextRow m =
      (step >>= fun row => match row with
        | some row => pure (some row)
        | none => nextRowWithin m.cursor.remaining) m := by
  rw [nextRow_of_sound h (Nat.le_succ _), nextRowWithin_succ hend]

theorem nextRow_of_emits {m m' : Machine} {row : Row} (h : step m = .ok (some row) m') :
    nextRow m = .ok (some row) m' := by
  have hm := failure_of_step_ok h
  cases hend : m.atEnd with
  | true => simp [step_of_atEnd hm hend] at h
  | false =>
    rw [nextRow_eq_step_bind hm hend, bind_of_ok h]
    rfl

theorem nextRow_of_fails {m m' : Machine} {e : LineError} (h : step m = .error e m') :
    nextRow m = .error e m' := by
  cases hm : m.failure with
  | some first =>
    rw [step_of_failure hm] at h
    rw [nextRow_of_failure hm, h]
  | none =>
    cases hend : m.atEnd with
    | true => simp [step_of_atEnd hm hend] at h
    | false => rw [nextRow_eq_step_bind hm hend, bind_of_error h]

theorem nextRow_of_silent {m m' : Machine} (h : step m = .ok none m') :
    nextRow m = nextRow m' := by
  have hm := failure_of_step_ok h
  cases hend : m.atEnd with
  | true =>
    rw [step_of_atEnd hm hend, EStateM.Result.ok.injEq] at h
    rw [h.2]
  | false =>
    have hlt := remaining_step_lt h hend
    rw [nextRow_eq_step_bind hm hend, bind_of_ok h]
    exact (nextRow_of_sound ((step_disciplined.records.ok h).trans hm) hlt.le).symm

/-- Induction along the instructions up to the next row. -/
theorem nextRow_induction {P : Machine → Prop}
    (stuck : ∀ m, m.failure = none → m.atEnd = true → P m)
    (emits : ∀ m row m', step m = .ok (some row) m' → P m)
    (fails : ∀ m e m', step m = .error e m' → P m)
    (silent : ∀ m m', m.atEnd = false → step m = .ok none m' → P m' → P m) (m : Machine) :
    P m := by
  induction hn : m.cursor.remaining using Nat.strong_induction_on generalizing m with
  | _ n ih =>
    cases hs : step m with
    | error e m' => exact fails m e m' hs
    | ok row m' =>
      cases row with
      | some row => exact emits m row m' hs
      | none =>
        cases hend : m.atEnd with
        | true => exact stuck m (failure_of_step_ok hs) hend
        | false =>
          exact silent m m' hend hs (ih _ (hn ▸ remaining_step_lt hs hend) m' rfl)

end Machine
end DebugLine
