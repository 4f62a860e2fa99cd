import DebugLine.Proofs.Stepping

/-!
# The one trajectory of a program

A fresh machine runs through one sequence of states. A machine that goes back and forth stands at
one of them, up to the files that it hides: those it stores are the ones visible at the furthest
state that it has come to. Going to a saved position is then the same as standing there.
-/

namespace DebugLine.Machine

/-- A machine at the start of its program, as it is built. -/
structure Fresh (start : Machine) : Prop where
  rewound_eq : start.rewound = start
  hidden_eq_nil : start.files.hidden = []
  initialFileCount_eq : start.header.initialFileCount = start.files.count
  sound : start.failure = none

/-- The machine after `n` steps; those behind a failure or the end do nothing. -/
def afterSteps (start : Machine) : Nat → Machine
  | 0 => start
  | n + 1 => (step (start.afterSteps n)).state

variable {start : Machine}

theorem Fresh.cursor_eq (h : Fresh start) :
    start.cursor.seek start.header.programOffset start.header.endOffset = start.cursor :=
  congrArg (·.cursor) h.rewound_eq

theorem Fresh.registers_eq (h : Fresh start) :
    Row.initial start.header.defaultIsStmt = start.registers :=
  congrArg (·.registers) h.rewound_eq

theorem Fresh.limit_eq (h : Fresh start) :
    start.cursor.limit = min start.header.endOffset start.cursor.bytes.size :=
  congrArg (·.limit) h.cursor_eq.symm

theorem Fresh.offset_eq (h : Fresh start) :
    start.cursor.offset = min start.header.programOffset start.cursor.limit := by
  rw [h.limit_eq]
  exact congrArg (·.offset) h.cursor_eq.symm

theorem afterSteps_onward {n k : Nat} (h : n ≤ k) :
    (start.afterSteps n).Onward (start.afterSteps k) := by
  induction k, h using Nat.le_induction with
  | base => exact refl_of Onward _
  | succ k _ ih => exact trans_of Onward ih (step_disciplined.moves (start.afterSteps k))

theorem sound_of_le {n k : Nat} (h : n ≤ k) (hk : (start.afterSteps k).failure = none) :
    (start.afterSteps n).failure = none := by
  induction k, h using Nat.le_induction with
  | base => exact hk
  | succ k _ ih =>
    apply ih
    cases hm : (start.afterSteps k).failure with
    | none => rfl
    | some e =>
      change (step (start.afterSteps k)).state.failure = none at hk
      rw [step_of_failure hm] at hk
      exact hm.symm.trans hk

theorem Fresh.afterSteps_hidden (h : Fresh start) (n : Nat) :
    (start.afterSteps n).files.hidden = [] :=
  (afterSteps_onward (Nat.zero_le n)).decoder.files.hidden_eq_nil h.hidden_eq_nil

theorem shown_of_hidden_eq_nil {m : Machine} (h : m.files.hidden = []) : m.shown = m := by
  obtain ⟨⟨cursor, visible, hidden, limit⟩, header, registers⟩ := m
  cases h
  rfl

theorem Fresh.afterSteps_shown (h : Fresh start) (n : Nat) :
    (start.afterSteps n).shown = start.afterSteps n :=
  shown_of_hidden_eq_nil (h.afterSteps_hidden n)

/-- For a machine that shows the files of the fresh one, starting over is going back to the position
of the fresh one. -/
theorem Fresh.rewound_eq_restored (h : Fresh start) {m : Machine} (hm : start.Onward m.shown) :
    m.rewound = m.restored start.checkpoint := by
  have hheader : m.header = start.header := hm.header_eq
  have hbytes : m.cursor.bytes = start.cursor.bytes := hm.decoder.cursor.bytes_eq
  have hcount : start.files.count ≤ m.files.count := by
    have hlen := hm.decoder.files.visible_isPrefix.length_le
    rwa [Array.length_toList, Array.length_toList] at hlen
  have hcursor : m.cursor.seek start.cursor.offset start.header.endOffset =
      m.cursor.seek start.header.programOffset start.header.endOffset := by
    simp only [Cursor.seek, h.offset_eq, h.limit_eq, hbytes, min_assoc, min_self]
  unfold rewound restored checkpoint FileTable.truncate
  rw [hheader, h.initialFileCount_eq, h.registers_eq, min_eq_right hcount, hcursor]

/-- `m` stands where the fresh machine comes after `n` steps, and stores the files that are visible
after `reach` steps. -/
structure Standing (start m : Machine) (n reach : Nat) : Prop where
  shown_eq : m.shown = start.afterSteps n
  le : n ≤ reach
  stored_eq : m.files.stored = (start.afterSteps reach).files.visible.toList
  sound : (start.afterSteps reach).failure = none

namespace Standing

variable {m m' : Machine} {n reach : Nat}

theorem ofFresh (h : Fresh start) : Standing start start 0 0 where
  shown_eq := shown_of_hidden_eq_nil h.hidden_eq_nil
  le := le_rfl
  stored_eq := FileTable.stored_of_hidden_eq_nil h.hidden_eq_nil
  sound := h.sound

theorem failure_eq (h : Standing start m n reach) : m.failure = none :=
  (congrArg failure h.shown_eq).trans (sound_of_le h.le h.sound)

theorem header_eq (h : Standing start m n reach) : m.header = start.header :=
  (congrArg (·.header) h.shown_eq).trans (afterSteps_onward (Nat.zero_le n)).header_eq

theorem visible_eq (h : Standing start m n reach) :
    m.files.visible = (start.afterSteps n).files.visible :=
  congrArg (·.files.visible) h.shown_eq

/-- What `m` does, the machine of the trajectory does. -/
theorem run_eq {α : Type} {x : Run α} (h : Standing start m n reach) (hx : Disciplined x) :
    x (start.afterSteps n) = (x m).mapState shown := by
  rw [← h.shown_eq, hx.ignores]

/-- Nothing is hidden from a machine that has not come further than where it stands. -/
theorem hidden_eq_nil (h : Standing start m n reach) (hreach : reach = n) :
    m.files.hidden = [] := by
  have hstored := h.stored_eq
  rw [hreach, ← h.visible_eq, FileTable.stored] at hstored
  exact List.append_right_eq_self.mp hstored

theorem reach_eq_of_fails {e : LineError} (h : Standing start m n reach)
    (hs : step m = .error e m') : reach = n := by
  by_contra hne
  have hsound : (start.afterSteps (n + 1)).failure = none :=
    sound_of_le (Nat.lt_of_le_of_ne h.le (Ne.symm hne)) h.sound
  have hstep := h.run_eq step_disciplined
  rw [hs] at hstep
  have hfail := step_disciplined.records.error hstep
  change (step (start.afterSteps n)).state.failure = none at hsound
  rw [hstep] at hsound
  exact Option.some_ne_none e (hfail.symm.trans hsound)

theorem step_ok {row : Option Row} (h : Standing start m n reach) (hs : step m = .ok row m') :
    Standing start m' (n + 1) (max reach (n + 1)) := by
  have hstep := h.run_eq step_disciplined
  rw [hs] at hstep
  have hnext : start.afterSteps (n + 1) = m'.shown := congrArg EStateM.Result.state hstep
  have hfiles : m.files.Extended m'.files := by
    have hmove := step_disciplined.moves m
    rw [hs] at hmove
    exact hmove.decoder.files
  have hvisible : m'.files.visible = (start.afterSteps (n + 1)).files.visible :=
    congrArg (·.files.visible) hnext.symm
  by_cases hreach : reach = n
  · have hmax : max reach (n + 1) = n + 1 := by omega
    have hhidden := hfiles.hidden_eq_nil (h.hidden_eq_nil hreach)
    refine ⟨hnext.symm, le_max_right _ _, ?_, ?_⟩
    · rw [hmax, ← hvisible, FileTable.stored_of_hidden_eq_nil hhidden]
    · rw [hmax, hnext]
      exact (step_disciplined.records.ok hs).trans h.failure_eq
  · have hlt : n + 1 ≤ reach := Nat.lt_of_le_of_ne h.le (Ne.symm hreach)
    refine ⟨hnext.symm, le_max_right _ _, ?_, ?_⟩
    · rw [max_eq_left hlt, ← h.stored_eq]
      apply hfiles.stored_eq
      rw [hvisible, h.stored_eq]
      exact (afterSteps_onward hlt).decoder.files.visible_isPrefix
    · rw [max_eq_left hlt]
      exact h.sound

theorem step_fails {e : LineError} (h : Standing start m n reach) (hs : step m = .error e m') :
    m'.files.hidden = [] := by
  have hmove := step_disciplined.moves m
  rw [hs] at hmove
  exact hmove.decoder.files.hidden_eq_nil (h.hidden_eq_nil (h.reach_eq_of_fails hs))

end Standing

theorem Fresh.afterSteps_limit (h : Fresh start) (n : Nat) :
    (start.afterSteps n).cursor.limit =
      min start.header.endOffset (start.afterSteps n).cursor.bytes.size := by
  have hmove := (@afterSteps_onward start 0 n (Nat.zero_le n)).decoder.cursor
  rw [hmove.limit_eq, hmove.bytes_eq]
  exact h.limit_eq

theorem Fresh.afterSteps_offset_le (h : Fresh start) (n : Nat) :
    (start.afterSteps n).cursor.offset ≤ (start.afterSteps n).cursor.limit := by
  apply (afterSteps_onward (Nat.zero_le n)).decoder.cursor.offset_le_limit
  change start.cursor.offset ≤ start.cursor.limit
  rw [h.offset_eq]
  exact min_le_right _ _

theorem seek_eq_of_onward {c c' : Cursor} {endOffset : Nat} (h : c.bytes = c'.bytes)
    (horder : c.byteOrder = c'.byteOrder) (hsize : c.addressSize = c'.addressSize)
    (hfail : c.failure = c'.failure) (hlimit : c'.limit = min endOffset c'.bytes.size)
    (hle : c'.offset ≤ c'.limit) : c.seek c'.offset endOffset = c' := by
  obtain ⟨bytes, offset, limit, byteOrder, addressSize, failed⟩ := c'
  simp only at h horder hsize hfail hlimit hle
  simp only [Cursor.seek, h, horder, hsize, hfail, ← hlimit, min_eq_left hle]

namespace Standing

variable {m : Machine} {n reach : Nat}

/-- A position that the trajectory has passed is as good as standing there. -/
theorem restored (hstart : Fresh start) (h : Standing start m n reach) {k : Nat} (hk : k ≤ reach) :
    Standing start (m.restored (start.afterSteps k).checkpoint) k reach := by
  have hto := @afterSteps_onward start 0 k (Nat.zero_le k)
  have hm : start.Onward m.shown := h.shown_eq ▸ afterSteps_onward (Nat.zero_le n)
  have hreach := (@afterSteps_onward start k reach hk).decoder.files.visible_isPrefix
  have hcursor : m.cursor.seek (start.afterSteps k).cursor.offset m.header.endOffset =
      (start.afterSteps k).cursor := by
    refine seek_eq_of_onward (hm.decoder.cursor.bytes_eq.trans hto.decoder.cursor.bytes_eq.symm)
      (hm.decoder.cursor.byteOrder_eq.trans hto.decoder.cursor.byteOrder_eq.symm)
      (hm.decoder.cursor.addressSize_eq.trans hto.decoder.cursor.addressSize_eq.symm)
      (h.failure_eq.trans (sound_of_le hk h.sound).symm) ?_ (hstart.afterSteps_offset_le k)
    rw [h.header_eq]
    exact hstart.afterSteps_limit k
  have hvisible : m.files.stored.take (start.afterSteps k).files.count =
      (start.afterSteps k).files.visible.toList := by
    rw [h.stored_eq]
    exact (List.prefix_iff_eq_take.mp hreach).symm
  have hlimit : m.files.limit = (start.afterSteps k).files.limit := by
    obtain ⟨-, -, -, hlim⟩ := hm.decoder.files
    obtain ⟨-, -, -, hlim'⟩ := hto.decoder.files
    exact hlim.trans hlim'.symm
  refine ⟨?_, hk, ?_, h.sound⟩
  · have hhidden := hstart.afterSteps_hidden k
    have hheader := h.header_eq.trans hto.header_eq.symm
    unfold Machine.restored shown Decoder.shown FileTable.shown FileTable.setCount checkpoint
    rw [hheader] at hcursor
    simp only [hcursor, hvisible, hlimit, hheader, Array.toArray_toList]
    rw [← hhidden]
  · change (m.files.setCount _).stored = _
    rw [FileTable.stored_setCount, h.stored_eq]

theorem rewound_eq (hstart : Fresh start) (h : Standing start m n reach) :
    m.rewound = m.restored start.checkpoint :=
  hstart.rewound_eq_restored (h.shown_eq ▸ afterSteps_onward (Nat.zero_le n))

theorem rewound (hstart : Fresh start) (h : Standing start m n reach) :
    Standing start m.rewound 0 reach := by
  rw [h.rewound_eq hstart]
  exact h.restored hstart (Nat.zero_le reach)

end Standing
end DebugLine.Machine
