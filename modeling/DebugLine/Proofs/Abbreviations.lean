import DebugLine.Proofs.Replacement

/-!
# Special opcodes are abbreviations

A special opcode packs an advance of the operations and one of the line into a single number, and
emits a row. So it does what three standard opcodes do one after another, and a program may be
written with either. Moving on by a constant is the part of the special opcode 255 that moves on by
operations.
-/

namespace DebugLine

namespace Row

variable {p : LineParameters} {r : Row} {opcode : UInt8} {operations : UInt64} {delta : Int64}

/-- A special opcode, and the operands of the standard opcodes that it stands for. -/
structure Packs (p : LineParameters) (opcode : UInt8) (operations : UInt64) (delta : Int64) :
    Prop where
  above : p.opcodeBase ≤ opcode
  operations_eq : operations.toNat =
    (opcode.toNat - p.opcodeBase.toNat) / p.lineRange.toNat
  delta_eq : delta.toInt =
    p.lineBase.toInt + ((opcode.toNat - p.opcodeBase.toNat) % p.lineRange.toNat : Nat)

theorem Packs.operations_eq_specialAdvance (h : Packs p opcode operations delta) :
    operations = specialAdvance p opcode := by
  rw [specialAdvance, adjusted, ← h.operations_eq, UInt64.ofNat_toNat]

theorem Packs.delta_eq_specialDelta (h : Packs p opcode operations delta) :
    delta = specialDelta p opcode := by
  rw [specialDelta, adjusted, ← h.delta_eq, Int64.ofInt_toInt]

theorem packs_special (habove : p.opcodeBase ≤ opcode) :
    Packs p opcode (specialAdvance p opcode) (specialDelta p opcode) := by
  have hremainder : adjusted p opcode % p.lineRange.toNat < 256 :=
    ((Nat.mod_le _ _).trans (Nat.sub_le _ _)).trans_lt opcode.toNat_lt
  have hlow := p.lineBase.le_toInt
  have hhigh := p.lineBase.toInt_lt
  exact ⟨habove, toNat_specialAdvance p opcode, Int64.toInt_ofInt_of_le (by omega) (by omega)⟩

theorem executeAll_unpacked (h : Packs p opcode operations delta) (r : Row) :
    executeAll p [.advancePc operations, .advanceLine delta, .copy] r =
      ((r.special p opcode).afterEmit, [r.special p opcode]) := by
  rw [h.operations_eq_specialAdvance, h.delta_eq_specialDelta]
  rfl

/-- The second list has standard opcodes in the place of some special opcodes of the first. -/
inductive Unpacked (p : LineParameters) : List Instruction → List Instruction → Prop
  | nil : Unpacked p [] []
  | keep {l l' : List Instruction} (i : Instruction) (rest : Unpacked p l l') :
      Unpacked p (i :: l) (i :: l')
  | special {l l' : List Instruction} {opcode : UInt8} {operations : UInt64} {delta : Int64}
      (packs : Packs p opcode operations delta) (rest : Unpacked p l l') :
      Unpacked p (.special opcode :: l) (.advancePc operations :: .advanceLine delta :: .copy :: l')

theorem Unpacked.executeAll_eq {l l' : List Instruction} (h : Unpacked p l l') (r : Row) :
    executeAll p l' r = executeAll p l r := by
  induction h generalizing r with
  | nil => rfl
  | keep i _ ih => simp only [executeAll, ih]
  | @special l l' opcode operations delta hpacks _ ih =>
    change executeAll p ([Instruction.advancePc operations, .advanceLine delta, .copy] ++ l') r = _
    rw [executeAll_append, executeAll_unpacked hpacks, ih]
    rfl

/-- A special opcode leaves the registers, and emits the one row, that its three instructions do.
Moving on by a constant moves on as the special opcode 255 does. So a program with some special
opcodes unpacked gives the same rows. -/
theorem special_abbreviates :
    (∀ (p : LineParameters) (opcode : UInt8), p.opcodeBase ≤ opcode →
      ∃ operations delta, Packs p opcode operations delta) ∧
    (∀ (p : LineParameters) (r : Row) (opcode : UInt8) (operations : UInt64) (delta : Int64),
      Packs p opcode operations delta → ∃ row, r.execute p (.special opcode) =
        (row.afterEmit, some row) ∧
        executeAll p [.advancePc operations, .advanceLine delta, .copy] r =
          (row.afterEmit, [row])) ∧
    (∀ (p : LineParameters) (r : Row) (operations : UInt64) (delta : Int64),
      Packs p 255 operations delta →
      r.execute p .constAddPc =
        ({ r with
          address := (r.execute p (.special 255)).1.address
          opIndex := (r.execute p (.special 255)).1.opIndex }, none) ∧
      executeAll p [.constAddPc, .advanceLine delta, .copy] r =
        executeAll p [.special 255] r) ∧
    (∀ (p : LineParameters) (r : Row) (l l' : List Instruction), Unpacked p l l' →
      executeAll p l' r = executeAll p l r) ∧
    ∀ (unit : CompileUnit) (settings : Settings) (x : Replacement unit settings),
      Unpacked x.parameters x.oldInstructions x.newInstructions → x.GivesAlike := by
  refine ⟨fun p opcode habove => ⟨_, _, packs_special habove⟩,
    fun p r opcode operations delta h => ⟨_, rfl, executeAll_unpacked h r⟩,
    fun p r operations delta h => ⟨?_, ?_⟩, fun p r l l' h => h.executeAll_eq r,
    fun unit settings x h => x.givesAlike (h.executeAll_eq _)⟩
  · simp only [execute, constAddPcAdvance_eq_specialAdvance]
    rfl
  · simp only [executeAll, execute, constAddPcAdvance_eq_specialAdvance, h.delta_eq_specialDelta]
    rfl

/-- The special opcode 61 between two rows, in bundles of three operations and in a program that has
single ones. The advance is spelled longer than it need be. -/
theorem special_abbreviates_spaced :
    let p : LineParameters := ⟨4, 3, true, -3, 12, 14⟩
    let r : Row := { Row.initial true with opIndex := 2, line := 10 }
    let moved : Row := { r with address := 4, line := 18 }
    let copied : Row := { Row.initial true with address := 3, line := 9 }
    p.opcodeBase ≤ 61 ∧ (∃ operations delta, Packs p 61 operations delta) ∧
      Packs p 61 3 8 ∧ r.execute p (.special 61) = (moved, some moved) ∧
      executeAll p [.advancePc 3, .advanceLine 8, .copy] r = (moved, [moved]) ∧
      Packs p 255 20 (-2) ∧
      r.execute p .constAddPc = ({ r with address := 28, opIndex := 1 }, none) ∧
      executeAll p [.constAddPc, .advanceLine (-2), .copy] r = executeAll p [.special 255] r ∧
      Unpacked p [.copy, .special 61] [.copy, .advancePc 3, .advanceLine 8, .copy] ∧
      executeAll p [.copy, .special 61] r = (moved, [r, moved]) ∧
      executeAll p [.copy, .advancePc 3, .advanceLine 8, .copy] r = (moved, [r, moved]) ∧
      ∃ x : Replacement Replacement.spacedUnit .unset,
        x.old = [61] ∧ x.new = [2, 0x83, 0x00, 3, 8, 1] ∧
        Unpacked x.parameters x.oldInstructions x.newInstructions ∧ x.GivesAlike ∧
        ∃ start', Machine.ofUnit Replacement.spacedUnit x.newSection .unset = .ok (some start') ∧
          start'.rows.1 = [.ok (Row.initial true), .ok copied, .ok copied,
            .ok { copied with endSequence := true }, .error (.unexpectedEnd 50 1 0)] := by
  intro p r moved copied
  obtain ⟨hexists, hspecial, hconst, hunpacked, hreplaced⟩ := special_abbreviates
  have habove : p.opcodeBase ≤ 61 := by decide
  have hpacks : Packs p 61 3 8 := ⟨habove, by decide, by decide⟩
  have hlast : Packs p 255 20 (-2) := ⟨by decide, by decide, by decide⟩
  have hbehind : Unpacked p [.copy, .special 61]
      [.copy, .advancePc 3, .advanceLine 8, .copy] := .keep .copy (.special hpacks .nil)
  have hmoved : r.execute p (.special 61) = (moved, some moved) := by decide
  obtain ⟨row, hexecute, hemitted⟩ := hspecial p r 61 3 8 hpacks
  obtain rfl : moved = row := by
    rw [hmoved] at hexecute
    exact Option.some.inj (congrArg Prod.snd hexecute)
  have htwo : executeAll p [.copy, .special 61] r = (moved, [r, moved]) := by decide
  have hold (t : FileTable) :
      (UnitLayout.spaced.coding Replacement.spacedUnit).SpellsAll t ([61] ++ [])
        [(.special 61, [])] :=
    .cons (.special (by decide)) .nil
  have hnew (t : FileTable) :
      (UnitLayout.spaced.coding Replacement.spacedUnit).SpellsAll t
        ([2, 0x83, 0x00] ++ ([3, 8] ++ ([1] ++ [])))
        [(.advancePc 3, []), (.advanceLine 8, []), (.copy, [])] :=
    .cons (.known .advancePc (by decide) ⟨.more rfl (.last rfl (by decide)), rfl⟩)
      (.cons (.known .advanceLine (by decide) ⟨.last rfl (by decide), rfl⟩)
        (.cons (.known .copy (by decide) ⟨rfl, rfl⟩) .nil))
  let x := Replacement.betweenRows _ _ [.special 61] [.advancePc 3, .advanceLine 8, .copy]
    (by decide) (by decide) hold hnew
  have hsingle : Packs UnitLayout.spaced.header.parameters 61 3 8 :=
    ⟨by decide, by decide, by decide⟩
  have hx : Unpacked x.parameters x.oldInstructions x.newInstructions := .special hsingle .nil
  obtain ⟨hadvance, hcopied⟩ := hconst p r 20 (-2) hlast
  have hrows : ∃ start', Machine.ofUnit Replacement.spacedUnit
      (UnitLayout.spaced.sectionWith Replacement.spacedUnit [0xAA] [0]
        [1, 2, 0x83, 0x00, 3, 8, 1, 1, 0, 1, 1, 2, 0x80]) .unset = .ok (some start') ∧
      start'.rows.1 = [.ok (Row.initial true), .ok copied, .ok copied,
        .ok { copied with endSequence := true }, .error (.unexpectedEnd 50 1 0)] :=
    Machine.exists_of_opened (by decide +kernel)
  exact ⟨habove, hexists p 61 habove, hpacks, hmoved, hemitted, hlast, hadvance.trans (by decide),
    hcopied, hbehind, htwo, (hunpacked p r _ _ hbehind).trans htwo, x, rfl, rfl, hx,
    hreplaced _ _ x hx, hrows⟩

end Row
end DebugLine
