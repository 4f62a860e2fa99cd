import DebugLine.Machine.Lookup
import DebugLine.Proofs.Checked.Program
import DebugLine.Proofs.Enclosure
import DebugLine.Proofs.Session
import DebugLine.Proofs.Table

/-!
# Checked machines

The loops of a machine have no bound of their own: they end because each instruction takes a byte
and each row takes an instruction. A machine that stands inside its unit has a byte for each file,
so it always has room for another, and its header lets the registers be divided.
-/

namespace DebugLine

variable {α β : Type}

/-- The opcode base in the header of a unit, if the header can be read so far. -/
def CompileUnit.opcodeBase? (unit : CompileUnit) (bytes : Array UInt8) : Option UInt8 := do
  let offset ← unit.stmtList
  match Header.readBase (Cursor.ofBytes bytes offset unit.byteOrder unit.addressSize) with
  | .ok base _ => some base
  | .error _ _ => none

theorem CompileUnit.opcodeBase?_of_readBase {unit : CompileUnit} {bytes : Array UInt8}
    {offset : Nat} (hoffset : unit.stmtList = some offset) {base : UInt8} {c : Cursor}
    (hread : Header.readBase (Cursor.ofBytes bytes offset unit.byteOrder unit.addressSize) =
      .ok base c) : unit.opcodeBase? bytes = some base := by
  rw [opcodeBase?, hoffset, Option.bind_eq_bind, Option.bind_some, hread]

namespace Checked

structure Machine extends Decoder where
  header : Header
  registers : Row
  deriving Repr, DecidableEq

namespace Machine

def ofMachine (m : DebugLine.Machine) : Machine := ⟨.ofDecoder m.toDecoder, m.header, m.registers⟩

def checkpoint (m : Machine) : Position := ⟨m.cursor.offset, m.files.length, m.registers⟩

def restored (m : Machine) (p : Position) : Machine :=
  { m with
    cursor := m.cursor.seek p.offset m.header.endOffset
    files := m.files.setLength p.fileCount
    registers := p.registers }

def rewound (m : Machine) : Machine :=
  { m with
    cursor := m.cursor.seek m.header.programOffset m.header.endOffset
    files := m.files.truncate m.header.initialFileCount
    registers := Row.initial m.header.defaultIsStmt }

theorem ofMachine_restored (m : DebugLine.Machine) (p : Position) :
    ofMachine (m.restored p) = (ofMachine m).restored p := by
  have hfiles := Table.ofTable_setCount m.files p.fileCount
  change Machine.mk ⟨_, .ofTable (m.files.setCount p.fileCount)⟩ _ _ = _
  rw [hfiles]
  rfl

theorem ofMachine_rewound (m : DebugLine.Machine) :
    ofMachine m.rewound = (ofMachine m).rewound := by
  have hfiles := Table.ofTable_truncate m.files m.header.initialFileCount
  change Machine.mk ⟨_, .ofTable (m.files.truncate m.header.initialFileCount)⟩ _ _ = _
  rw [hfiles]
  rfl

end Machine

/-- Decoding leaves the header and the registers alone. -/
def ofDecode (decode : Checked Decoder α) : Checked Machine α :=
  ExceptT.mk <| StateT.mk fun m => do
    let (answer, d) ← decode.run.run m.toDecoder
    return (answer, { m with toDecoder := d })

def step : Checked Machine (Option Row) := do
  ofDecode (ofRead check)
  let m ← get
  if m.cursor.isEmpty then
    return none
  else
    let instruction ← ofDecode (decode m.header)
    let m ← get
    let (registers, row) ← execute m.header.toLineParameters instruction m.registers
    set { m with registers }
    return row

/-- Executes instructions up to the first that emits a row. Having to execute more than `most` has
no result. -/
def nextRowWithin : (most : Nat) → Checked Machine (Option Row)
  | 0 => liftM (none : Option (Option Row))
  | most + 1 => do
    if (← get).cursor.isEmpty then
      return none
    else
      match ← step with
      | some row => return some row
      | none => nextRowWithin most

def nextRow : Checked Machine (Option Row) := do
  ofDecode (ofRead check)
  nextRowWithin ((← get).cursor.remaining + 1)

def nextRowUpTo (pc : UInt64) : Checked Machine (Option Row) := do
  return (← nextRow).filter fun row => row.address ≤ pc

/-- Goes on from the row `held` to the first row behind `pc`. Having to go through more than `most`
rows has no result. -/
def scanWithin (pc : UInt64) : (most : Nat) → (held : Row) → Checked Machine (Option Row)
  | 0, _ => liftM (none : Option (Option Row))
  | most + 1, held => do
    let position := (← get).checkpoint
    match ← nextRow with
    | none => return none
    | some next =>
      if pc < next.address then
        modify fun m => m.restored position
        return if held.endSequence then none else some held
      else
        scanWithin pc most next

def scanFrom (pc : UInt64) (held : Row) : Checked Machine (Option Row) := do
  scanWithin pc ((← get).cursor.remaining + 1) held

def seekPc (pc : UInt64) : Checked Machine (Option Row) := do
  match ← nextRowUpTo pc with
  | some held => scanFrom pc held
  | none =>
    modify Machine.rewound
    match ← nextRowUpTo pc with
    | some held => scanFrom pc held
    | none =>
      modify Machine.rewound
      return none

/-- The machine at the start of the line program of `unit`, if the unit has one. -/
def ofUnit (unit : CompileUnit) (bytes : Array UInt8) (settings : Settings) :
    Option (Except LineError (Option Machine)) :=
  match unit.stmtList with
  | none => some (.ok none)
  | some offset =>
    if unit.addressSize ∈ addressSizes then do
      let cursor := Cursor.ofBytes bytes offset unit.byteOrder unit.addressSize
      let files : Table := ⟨#[], 0, settings.fileLimit⟩
      let (answer, d) ←
        (readHeader unit.directory settings.checksOpcodeLengths).run.run ⟨cursor, files⟩
      return answer.map fun header =>
        some (Machine.rewound { d with header, registers := Row.initial header.defaultIsStmt })
    else some (.error (.unsupportedAddressSize unit.addressSize))

theorem agrees_ofDecode {m : DebugLine.Machine} {x : Checked Decoder α} {y : Decode α}
    (h : Agrees Decoder.ofDecoder x y m.toDecoder) :
    Agrees Machine.ofMachine (ofDecode x) (Run.ofDecode y) m := by
  unfold Agrees
  change (do
    let (answer, d) ← x.run.run (Decoder.ofDecoder m.toDecoder)
    return (answer, { Machine.ofMachine m with toDecoder := d }) : Option _) = _
  rw [h.run_eq, Run.ofDecode]
  cases y m.toDecoder <;> rfl

/-- From `m` on, `x` comes to what `y` comes to, and `y` stays inside the unit. -/
structure Follows (h : Header) (bytes : Array UInt8) (x : Checked Machine α) (y : Run α)
    (m : DebugLine.Machine) : Prop where
  agrees : Agrees Machine.ofMachine x y m
  within : (y m).state.Within h bytes

namespace Follows

variable {h : Header} {bytes : Array UInt8} {m : DebugLine.Machine}
variable {x : Checked Machine α} {y : Run α} {f : α → Checked Machine β} {g : α → Run β}

theorem pure (hm : m.Within h bytes) (a : α) : Follows h bytes (Pure.pure a) (Pure.pure a) m :=
  ⟨.pure a, hm⟩

theorem bind (hx : Follows h bytes x y m)
    (hf : ∀ a t, y m = .ok a t → t.Within h bytes → Follows h bytes (f a) (g a) t) :
    Follows h bytes (x >>= f) (y >>= g) m := by
  have hwithin := hx.within
  constructor
  · apply hx.agrees.bind
    intro a t hok
    rw [hok] at hwithin
    exact (hf a t hok hwithin).agrees
  · cases hy : y m with
    | error e t =>
      rw [hy] at hwithin
      rw [bind_of_error hy]
      exact hwithin
    | ok a t =>
      rw [hy] at hwithin
      rw [bind_of_ok hy]
      exact (hf a t hy hwithin).within

theorem get_bind {f : Machine → Checked Machine α} {g : DebugLine.Machine → Run α}
    (hrest : Follows h bytes (f (.ofMachine m)) (g m) m) :
    Follows h bytes (get >>= f) (get >>= g) m := ⟨.get_bind hrest.agrees, hrest.within⟩

theorem ite {c : Bool} {x' : Checked Machine α} {y' : Run α}
    (htrue : c = true → Follows h bytes x y m) (hfalse : c = false → Follows h bytes x' y' m) :
    Follows h bytes (if c then x else x') (if c then y else y') m := by
  cases c with
  | true => exact htrue rfl
  | false => exact hfalse rfl

theorem modify_bind {move : Machine → Machine} {move' : DebugLine.Machine → DebugLine.Machine}
    {f : PUnit → Checked Machine α} {g : PUnit → Run α}
    (hmove : Machine.ofMachine (move' m) = move (.ofMachine m))
    (hrest : Follows h bytes (f ()) (g ()) (move' m)) :
    Follows h bytes (modify move >>= f) (modify move' >>= g) m where
  agrees := by
    have hrun := hrest.agrees.run_eq
    rw [hmove] at hrun
    exact hrun
  within := hrest.within

end Follows

section Running

variable {h : Header} {bytes : Array UInt8} (hh : h.Enclosed bytes) (hsize : bytes.size < 2 ^ 63)
variable {m : DebugLine.Machine}

include hh hsize in
theorem inBounds_of_within (hm : m.Within h bytes) : m.cursor.InBounds where
  offset_le := hm.checkpoint.offset_le.trans_eq hm.limit_eq.symm
  limit_le := by
    rw [hm.limit_eq, hm.bytes_eq]
    exact hh.endOffset_le
  size_lt := by
    rw [hm.bytes_eq]
    exact hsize

include hh hsize in
theorem room_of_within (hm : m.Within h bytes) : m.files.count + 1 < 2 ^ 64 := by
  have hcount : m.files.count ≤ m.cursor.offset + bytes.size := hm.checkpoint.fileCount_le
  have hoffset : m.cursor.offset ≤ h.endOffset := hm.checkpoint.offset_le
  have hend := hh.endOffset_le
  -- The section is below half of the words, and the files are at most twice its bytes.
  omega

theorem follows_ofDecode (hm : m.Within h bytes) {x : Checked Decoder α} {y : Decode α}
    (hagrees : Agrees Decoder.ofDecoder x y m.toDecoder)
    (hdisciplined : DebugLine.Decoder.Disciplined y)
    (hpaced : Moves (DebugLine.Decoder.Paced 0) y) :
    Follows h bytes (ofDecode x) (Run.ofDecode y) m where
  agrees := agrees_ofDecode hagrees
  within := hm.ofDecode hdisciplined hpaced

include hh hsize

theorem follows_check (hm : m.Within h bytes) :
    Follows h bytes (ofDecode (ofRead check)) (Cursor.check : Run Unit) m :=
  follows_ofDecode hm
    (agrees_ofRead (mirrors_check.agrees m.cursor (inBounds_of_within hh hsize hm)))
    (DebugLine.Decoder.ofRead_disciplined Cursor.check_disciplined)
    (DebugLine.Decoder.ofRead_paced Cursor.check_disciplined)

theorem follows_decode (hm : m.Within h bytes) :
    Follows h bytes (ofDecode (decode m.header)) (Run.ofDecode (Instruction.decode m.header)) m :=
  follows_ofDecode hm
    (agrees_decode (inBounds_of_within hh hsize hm) (room_of_within hh hsize hm) m.header)
    (Instruction.decode_disciplined m.header) (Instruction.decode_paced m.header)

theorem follows_step (hm : m.Within h bytes) : Follows h bytes step Machine.step m := by
  apply (follows_check hh hsize hm).bind
  intro _ m _ hm
  apply Follows.get_bind
  apply Follows.ite
  · exact fun _ => .pure hm none
  intro _
  apply (follows_decode hh hsize hm).bind
  intro instruction m _ hm
  have hexecute : execute m.header.toLineParameters instruction m.registers =
      some (m.registers.execute m.header.toLineParameters instruction) := by
    rw [hm.header_eq]
    exact execute_eq hh.maximumOperations_ne hh.lineRange_ne instruction m.registers
  refine ⟨?_, hm.execute instruction⟩
  apply Agrees.get_bind_left
  apply Agrees.done_bind hexecute
  rfl

/-- Each step takes a byte, so the bound is not reached. -/
theorem follows_nextRowWithin (hm : m.Within h bytes) {most : Nat}
    (hmost : m.cursor.remaining < most) :
    Follows h bytes (nextRowWithin most) (Machine.nextRowWithin most) m := by
  induction most generalizing m with
  | zero => exact absurd hmost (Nat.not_lt_zero _)
  | succ most ih =>
    apply Follows.get_bind
    apply Follows.ite
    · exact fun _ => .pure hm none
    intro hend
    apply (follows_step hh hsize hm).bind
    intro row t hstep ht
    cases row with
    | some row => exact .pure ht (some row)
    | none =>
      have hlt := Machine.remaining_step_lt hstep hend
      exact ih ht (by omega)

theorem follows_nextRow (hm : m.Within h bytes) : Follows h bytes nextRow Machine.nextRow m := by
  apply (follows_check hh hsize hm).bind
  intro _ m _ hm
  apply Follows.get_bind
  have hfollows := follows_nextRowWithin hh hsize hm (Nat.lt_succ_self _)
  have hbound := Machine.nextRowWithin_eq (m := m) (Nat.le_succ _) le_rfl
  refine ⟨hfollows.agrees.congr hbound.symm, ?_⟩
  rw [← hbound]
  exact hfollows.within

theorem follows_nextRowUpTo (hm : m.Within h bytes) (pc : UInt64) :
    Follows h bytes (nextRowUpTo pc) (Machine.nextRowUpTo pc) m :=
  (follows_nextRow hh hsize hm).bind fun _ _ _ ht => .pure ht _

/-- Each row takes a byte, so the bound is not reached. -/
theorem follows_scanWithin (hm : m.Within h bytes) {most : Nat} (hmost : m.cursor.remaining < most)
    (pc : UInt64) (held : Row) :
    Follows h bytes (scanWithin pc most held) (Machine.scanWithin pc most held) m := by
  induction most generalizing m held with
  | zero => exact absurd hmost (Nat.not_lt_zero _)
  | succ most ih =>
    apply Follows.get_bind
    apply (follows_nextRow hh hsize hm).bind
    intro found t hrow ht
    cases found with
    | none => exact .pure ht none
    | some next =>
      dsimp only
      by_cases hbehind : pc < next.address
      · rw [if_pos hbehind, if_pos hbehind]
        apply Follows.modify_bind (Machine.ofMachine_restored t m.checkpoint)
        exact .pure (ht.restored hh hm.checkpoint) _
      · rw [if_neg hbehind, if_neg hbehind]
        have hlt := Machine.remaining_nextRow_lt hrow
        exact ih ht (by omega) next

theorem follows_scanFrom (hm : m.Within h bytes) (pc : UInt64) (held : Row) :
    Follows h bytes (scanFrom pc held) (Machine.scanFrom pc held) m :=
  .get_bind (follows_scanWithin hh hsize hm (Nat.lt_succ_self _) pc held)

theorem follows_seekPc (hm : m.Within h bytes) (pc : UInt64) :
    Follows h bytes (seekPc pc) (Machine.seekPc pc) m := by
  apply (follows_nextRowUpTo hh hsize hm pc).bind
  intro found t _ ht
  cases found with
  | some held => exact follows_scanFrom hh hsize ht pc held
  | none =>
    apply Follows.modify_bind (Machine.ofMachine_rewound t)
    apply (follows_nextRowUpTo hh hsize (ht.rewound hh) pc).bind
    intro found t _ ht
    cases found with
    | some held => exact follows_scanFrom hh hsize ht pc held
    | none =>
      apply Follows.modify_bind (Machine.ofMachine_rewound t)
      exact .pure (ht.rewound hh) none

end Running

theorem inBounds_ofBytes {bytes : Array UInt8} (hsize : bytes.size < 2 ^ 63) (offset : Nat)
    (order : ByteOrder) (addressSize : UInt8) :
    (Cursor.ofBytes bytes offset order addressSize).InBounds :=
  ⟨min_le_right _ _, le_rfl, hsize⟩

section Opening

variable {unit : CompileUnit} {bytes : Array UInt8} {settings : Settings}
variable (hsize : bytes.size < 2 ^ 63)
variable (hbase : settings.checksOpcodeLengths = true → unit.opcodeBase? bytes ≠ some 255)
include hsize hbase

theorem agrees_readHeader_of_stmtList {offset : Nat} (hoffset : unit.stmtList = some offset) :
    Agrees Decoder.ofDecoder (readHeader unit.directory settings.checksOpcodeLengths)
      (Header.read unit.directory settings.checksOpcodeLengths)
      (DebugLine.Machine.decoderAt unit bytes settings offset) := by
  apply agrees_readHeader (inBounds_ofBytes hsize offset unit.byteOrder unit.addressSize) rfl
  rintro hcheck _ c hread rfl
  exact hbase hcheck (CompileUnit.opcodeBase?_of_readBase hoffset hread)

/-- A unit can be opened wherever its header is said to lie, unless that is to be checked and
declares the opcode base 255. -/
theorem ofUnit_eq :
    ofUnit unit bytes settings =
      some ((DebugLine.Machine.ofUnit unit bytes settings).map (Option.map Machine.ofMachine)) := by
  unfold ofUnit DebugLine.Machine.ofUnit
  cases hoffset : unit.stmtList with
  | none => rfl
  | some offset =>
    dsimp only
    split_ifs
    · change (do
        let (answer, d) ← (readHeader unit.directory settings.checksOpcodeLengths).run.run
          (Decoder.ofDecoder (DebugLine.Machine.decoderAt unit bytes settings offset))
        return answer.map fun header => some (Machine.rewound
          { d with header, registers := Row.initial header.defaultIsStmt }) : Option _) = _
      rw [(agrees_readHeader_of_stmtList hsize hbase hoffset).run_eq]
      cases Header.read unit.directory settings.checksOpcodeLengths
          (DebugLine.Machine.decoderAt unit bytes settings offset) with
      | error e d => rfl
      | ok header d =>
        have hrewound := Machine.ofMachine_rewound
          { d with header, registers := Row.initial header.defaultIsStmt }
        exact congrArg (fun m => some (Except.ok (some m))) hrewound.symm
    · rfl

end Opening

/-- Nothing can be said of a header with the opcode base 255 that is to be checked. -/
example : ofUnit ⟨some 0, none, 8, .little⟩
    (#[0x0B, 0x01, 0x00, 0x00, 0x03, 0x00, 0x05, 0x01, 0x00, 0x00, 0x01, 0x01, 0xFB, 0x0E, 0xFF,
      0x00, 0x01, 0x01, 0x01, 0x01, 0x00, 0x00, 0x00, 0x01, 0x00, 0x00, 0x01] ++
      Array.replicate 244 0x00) .unset = none := by
  decide +kernel

end Checked
end DebugLine
