import DebugLine.Row
import Mathlib.Data.List.DropRight
import Mathlib.Data.List.Forall2
import Mathlib.Logic.Function.Iterate
import Mathlib.Tactic

/-!
# What a row says

A row is a copy of the registers, and the registers have three lifetimes. Most of them go back to
the start of the sequence, the marks of a row only to the row before it, and the address to where it
was last set. So each field of a row can be read off the instructions of its lifetime, without
running them.
-/

namespace DebugLine

namespace Instruction

/-- Whether the instruction emits a row. -/
def emits : Instruction → Bool
  | special _ | copy | endSequence => true
  | _ => false

/-- The operand of the instruction that sets the file. -/
def file? : Instruction → Option UInt64
  | setFile index => some index
  | _ => none

def column? : Instruction → Option UInt64
  | setColumn column => some column
  | _ => none

def isa? : Instruction → Option UInt64
  | setIsa isa => some isa
  | _ => none

def discriminator? : Instruction → Option UInt64
  | setDiscriminator discriminator => some discriminator
  | _ => none

def address? : Instruction → Option UInt64
  | setAddress address => some address
  | _ => none

/-- The lines by which the instruction moves on. -/
def lines (p : LineParameters) : Instruction → Int
  | advanceLine delta => delta.toInt
  | special opcode =>
    p.lineBase.toInt + ((opcode.toNat - p.opcodeBase.toNat) % p.lineRange.toNat : Nat)
  | _ => 0

/-- The bytes by which the instruction moves the address on where instructions hold single
operations. -/
def bytes (p : LineParameters) : Instruction → Nat
  | advancePc operations => p.minimumInstructionLength.toNat * operations.toNat
  | constAddPc =>
    p.minimumInstructionLength.toNat * ((255 - p.opcodeBase.toNat) / p.lineRange.toNat)
  | special opcode =>
    p.minimumInstructionLength.toNat *
      ((opcode.toNat - p.opcodeBase.toNat) / p.lineRange.toNat)
  | fixedAddPc delta => delta.toNat
  | _ => 0

/-- The instructions behind the last one of those that `stop` tells. -/
def since (stop : Instruction → Bool) (before : List Instruction) : List Instruction :=
  before.rtakeWhile fun i => !stop i

/-- The instructions behind the last end of a sequence. -/
def sequence (before : List Instruction) : List Instruction := since (· == endSequence) before

@[simp] theorem since_nil (stop : Instruction → Bool) : since stop [] = [] := rfl

theorem since_concat_of_stop {stop : Instruction → Bool} {i : Instruction} (h : stop i = true)
    (before : List Instruction) : since stop (before ++ [i]) = [] :=
  List.rtakeWhile_concat_neg _ _ _ (by simp [h])

theorem since_concat {stop : Instruction → Bool} {i : Instruction} (h : stop i = false)
    (before : List Instruction) : since stop (before ++ [i]) = since stop before ++ [i] :=
  List.rtakeWhile_concat_pos _ _ _ (by simp [h])

end Instruction

namespace Row

open Instruction (since sequence)

variable {p : LineParameters} {before : List Instruction} {i : Instruction}

/-- What a row says that the instruction `i` emits behind the instructions `before`. -/
structure Says (p : LineParameters) (before : List Instruction) (i : Instruction) (row : Row) :
    Prop where
  fileIndex_eq : row.fileIndex = ((sequence before).filterMap Instruction.file?).getLastD 1
  column_eq : row.column = ((sequence before).filterMap Instruction.column?).getLastD 0
  isa_eq : row.isa = ((sequence before).filterMap Instruction.isa?).getLastD 0
  /-- The default, flipped once for each negation. -/
  isStmt_eq : row.isStmt = not^[(sequence before).count .negateStatement] p.defaultIsStmt
  line_eq : row.line = UInt64.ofInt (1 + ((sequence before ++ [i]).map (Instruction.lines p)).sum)
  basicBlock_iff : row.basicBlock = true ↔ .setBasicBlock ∈ since Instruction.emits before
  prologueEnd_iff : row.prologueEnd = true ↔ .setPrologueEnd ∈ since Instruction.emits before
  epilogueBegin_iff : row.epilogueBegin = true ↔ .setEpilogueBegin ∈ since Instruction.emits before
  discriminator_eq : row.discriminator =
    ((since Instruction.emits before).filterMap Instruction.discriminator?).getLastD 0
  endSequence_iff : row.endSequence = true ↔ i = .endSequence
  opIndex_eq : p.maximumOperations = 1 → row.opIndex = 0
  /-- Where it was last set, and all that has been added since. -/
  address_eq : p.maximumOperations = 1 →
    row.address = ((sequence before).filterMap Instruction.address?).getLastD 0 +
      UInt64.ofNat (((since (fun i => i.address?.isSome) (sequence before) ++ [i]).map
        (Instruction.bytes p)).sum)

/-- The registers of a machine that has executed `before` from the start. -/
def registersAfter (p : LineParameters) (before : List Instruction) : Row :=
  (executeAll p before (initial p.defaultIsStmt)).1

theorem executeAll_append (before after : List Instruction) (r : Row) :
    executeAll p (before ++ after) r =
      ((executeAll p after (executeAll p before r).1).1,
        (executeAll p before r).2 ++ (executeAll p after (executeAll p before r).1).2) := by
  induction before generalizing r with
  | nil => rfl
  | cons first before ih => simp [executeAll, ih]

@[simp] theorem registersAfter_concat :
    registersAfter p (before ++ [i]) = ((registersAfter p before).execute p i).1 := by
  simp [registersAfter, executeAll_append, executeAll]

/-- What `stop` sets back, and each other instruction moves, has been moved by those behind the last
one that set it back. -/
theorem registersAfter_since {α : Type} {stop : Instruction → Bool} {view : Row → α} {start : α}
    {move : α → Instruction → α} (hstart : view (initial p.defaultIsStmt) = start)
    (hstop : ∀ i r, stop i = true → view (execute p i r).1 = start)
    (hmove : ∀ before i, stop i = false → view (execute p i (registersAfter p before)).1 =
      move (view (registersAfter p before)) i) :
    view (registersAfter p before) = (since stop before).foldl move start := by
  induction before using List.reverseRecOn with
  | nil => exact hstart
  | append_singleton before i ih =>
    rw [registersAfter_concat]
    cases hi : stop i with
    | true => rw [hstop i _ hi, Instruction.since_concat_of_stop hi, List.foldl_nil]
    | false => rw [hmove before i hi, Instruction.since_concat hi, List.foldl_concat, ih]

section Folds

variable {α : Type}

theorem foldl_getD (say? : Instruction → Option α) (start : α) (l : List Instruction) :
    l.foldl (fun a i => (say? i).getD a) start = (l.filterMap say?).getLastD start := by
  induction l using List.reverseRecOn with
  | nil => rfl
  | append_singleton l i ih =>
    rw [List.foldl_concat, ih, List.filterMap_append]
    cases h : say? i with
    | none => simp [h]
    | some a => simp [h]

theorem foldl_flip (mark : Instruction) (start : Bool) (l : List Instruction) :
    l.foldl (fun b i => if i = mark then !b else b) start = not^[l.count mark] start := by
  induction l using List.reverseRecOn with
  | nil => rfl
  | append_singleton l i ih =>
    rw [List.foldl_concat, ih, List.count_append]
    by_cases h : i = mark
    · subst h
      rw [if_pos rfl, List.count_singleton_self, Function.iterate_succ_apply']
    · rw [if_neg h, List.count_singleton, if_neg (by simpa using h), Nat.add_zero]

theorem foldl_mark (mark : Instruction) (l : List Instruction) :
    l.foldl (fun b i => b || i == mark) false = true ↔ mark ∈ l := by
  induction l using List.reverseRecOn with
  | nil => simp
  | append_singleton l i ih =>
    rw [List.foldl_concat, Bool.or_eq_true, ih, beq_iff_eq, List.mem_append, List.mem_singleton,
      @eq_comm _ i]

theorem foldl_lines (start : Int) (l : List Instruction) :
    l.foldl (fun line i => line + UInt64.ofInt (Instruction.lines p i)) (UInt64.ofInt start) =
      UInt64.ofInt (start + (l.map (Instruction.lines p)).sum) := by
  induction l using List.reverseRecOn with
  | nil => simp
  | append_singleton l i ih =>
    rw [List.foldl_concat, ih, ← UInt64.ofInt_add, List.map_append, List.sum_append, add_assoc]
    simp

/-- An address that is set makes up for all that was added before. -/
theorem foldl_address (l : List Instruction) :
    l.foldl (fun address i => i.address?.getD (address + UInt64.ofNat (Instruction.bytes p i))) 0 =
      (l.filterMap Instruction.address?).getLastD 0 +
        UInt64.ofNat (((since (fun i => i.address?.isSome) l).map (Instruction.bytes p)).sum) := by
  induction l using List.reverseRecOn with
  | nil => rfl
  | append_singleton l i ih =>
    rw [List.foldl_concat, ih, List.filterMap_append]
    cases h : i.address? with
    | none =>
      have hbehind : (fun i : Instruction => i.address?.isSome) i = false := by simp [h]
      rw [Instruction.since_concat hbehind]
      simp [h, UInt64.ofNat_add, UInt64.add_assoc]
    | some address =>
      have hset : (fun i : Instruction => i.address?.isSome) i = true := by simp [h]
      rw [Instruction.since_concat_of_stop hset]
      simp [h]

end Folds

theorem toUInt64_ofInt (n : Int) : (Int64.ofInt n).toUInt64 = UInt64.ofInt n := by
  have hlt : (n % 2 ^ 64).toNat < UInt64.size := by
    have := Int.emod_lt_of_pos n (show (0 : Int) < 2 ^ 64 by decide)
    have := Int.emod_nonneg n (show (2 ^ 64 : Int) ≠ 0 by decide)
    simp only [UInt64.size]
    omega
  rw [← UInt64.toNat_inj, UInt64.ofInt, UInt64.toNat_ofNat_of_lt' hlt]
  exact BitVec.toNat_ofInt n

theorem line_advanceLine (delta : Int64) (r : Row) :
    (r.advanceLine delta).line = r.line + UInt64.ofInt delta.toInt := by
  rw [← toUInt64_ofInt, Int64.ofInt_toInt]
  rfl

theorem line_special (opcode : UInt8) (r : Row) :
    (r.special p opcode).line = r.line + UInt64.ofInt (Instruction.lines p (.special opcode)) := by
  rw [Instruction.lines, ← toUInt64_ofInt]
  rfl

section Registers

theorem execute_of_endSequence (hi : (i == .endSequence) = true) (r : Row) :
    (execute p i r).1 = initial p.defaultIsStmt := by
  rw [beq_iff_eq] at hi
  rw [hi]
  rfl

/-- A register that instructions set keeps the last of what they set it to. -/
theorem registersAfter_sequence {view : Row → UInt64} {say? : Instruction → Option UInt64}
    (hmove : ∀ i r, (i == .endSequence) = false →
      view (execute p i r).1 = (say? i).getD (view r)) :
    view (registersAfter p before) =
      ((sequence before).filterMap say?).getLastD (view (initial p.defaultIsStmt)) := by
  rw [← foldl_getD]
  exact registersAfter_since rfl (fun i r hi => by rw [execute_of_endSequence hi])
    fun before i hi => hmove i _ hi

theorem fileIndex_registersAfter : (registersAfter p before).fileIndex =
    ((sequence before).filterMap Instruction.file?).getLastD 1 :=
  registersAfter_sequence fun i r hi => by cases i <;> first | rfl | cases hi

theorem column_registersAfter : (registersAfter p before).column =
    ((sequence before).filterMap Instruction.column?).getLastD 0 :=
  registersAfter_sequence fun i r hi => by cases i <;> first | rfl | cases hi

theorem isa_registersAfter : (registersAfter p before).isa =
    ((sequence before).filterMap Instruction.isa?).getLastD 0 :=
  registersAfter_sequence fun i r hi => by cases i <;> first | rfl | cases hi

theorem isStmt_registersAfter : (registersAfter p before).isStmt =
    not^[(sequence before).count .negateStatement] p.defaultIsStmt := by
  rw [← foldl_flip]
  refine registersAfter_since rfl (fun i r hi => by rw [execute_of_endSequence hi]; rfl) ?_
  intro before i hi
  cases i <;> first | rfl | cases hi

theorem line_registersAfter : (registersAfter p before).line =
    UInt64.ofInt (1 + ((sequence before).map (Instruction.lines p)).sum) := by
  rw [← foldl_lines]
  refine registersAfter_since rfl (fun i r hi => by rw [execute_of_endSequence hi]; rfl) ?_
  intro before i hi
  have hstill (line : UInt64) : line = line + UInt64.ofInt 0 := (UInt64.add_zero line).symm
  cases i with
  | endSequence => cases hi
  | special opcode => exact line_special opcode _
  | advanceLine delta => exact line_advanceLine delta _
  | _ => exact hstill _

/-- The marks that a row does not pass on to the next one. -/
inductive Mark where
  | basicBlock
  | prologueEnd
  | epilogueBegin

def Mark.view : Mark → Row → Bool
  | basicBlock => Row.basicBlock
  | prologueEnd => Row.prologueEnd
  | epilogueBegin => Row.epilogueBegin

def Mark.setter : Mark → Instruction
  | basicBlock => .setBasicBlock
  | prologueEnd => .setPrologueEnd
  | epilogueBegin => .setEpilogueBegin

/-- A mark has been set since the last row, or not at all. -/
theorem mark_registersAfter (mark : Mark) : mark.view (registersAfter p before) = true ↔
    mark.setter ∈ since Instruction.emits before := by
  rw [← foldl_mark, Bool.coe_iff_coe]
  refine registersAfter_since ?_ ?_ ?_
  · cases mark <;> rfl
  · intro i r hi
    cases mark <;> cases i <;> first | rfl | cases hi
  · intro before i hi
    cases mark <;> cases i <;>
      first | exact (Bool.or_false _).symm | exact (Bool.or_true _).symm | cases hi

theorem discriminator_registersAfter : (registersAfter p before).discriminator =
    ((since Instruction.emits before).filterMap Instruction.discriminator?).getLastD 0 := by
  rw [← foldl_getD]
  refine registersAfter_since rfl (fun i r hi => by cases i <;> first | rfl | cases hi) ?_
  intro before i hi
  cases i <;> first | rfl | cases hi

theorem endSequence_registersAfter : (registersAfter p before).endSequence = false := by
  induction before using List.reverseRecOn with
  | nil => rfl
  | append_singleton before i ih =>
    rw [registersAfter_concat]
    cases i <;> first | exact ih | rfl

section Single

variable (hsingle : p.maximumOperations = 1)
include hsingle

theorem opIndex_advance (operations : UInt64) (r : Row) : (r.advance p operations).opIndex = 0 := by
  rw [← UInt64.toNat_inj, advance, hsingle]
  exact Nat.mod_one _

theorem address_advance {r : Row} (hr : r.opIndex = 0) (operations : UInt64) :
    (r.advance p operations).address =
      r.address + p.minimumInstructionLength.toUInt64 * operations := by
  have hone (n : UInt64) : n / (1 : UInt8).toUInt64 = n := by
    rw [← UInt64.toNat_inj, UInt64.toNat_div]
    exact Nat.div_one _
  rw [advance, hsingle, hr, hone, UInt64.zero_add]

theorem opIndex_registersAfter : (registersAfter p before).opIndex = 0 := by
  induction before using List.reverseRecOn with
  | nil => rfl
  | append_singleton before i ih =>
    rw [registersAfter_concat]
    cases i with
    | special opcode => exact opIndex_advance hsingle (specialAdvance p opcode) _
    | advancePc operations => exact opIndex_advance hsingle operations _
    | constAddPc => exact opIndex_advance hsingle p.constAddPcAdvance _
    | endSequence => rfl
    | _ => exact ih

omit hsingle in
theorem constAddPcAdvance_eq : p.constAddPcAdvance =
    UInt64.ofNat ((255 - p.opcodeBase.toNat) / p.lineRange.toNat) := by
  have hbase : (255 - p.opcodeBase).toNat = 255 - p.opcodeBase.toNat :=
    UInt8.toNat_sub_of_le _ _ (UInt8.le_iff_toNat_le.mpr (Nat.le_of_lt_succ p.opcodeBase.toNat_lt))
  have hlt : (255 - p.opcodeBase.toNat) / p.lineRange.toNat < UInt64.size :=
    ((Nat.div_le_self _ _).trans (Nat.sub_le _ _)).trans_lt (by decide)
  rw [← UInt64.toNat_inj, UInt64.toNat_ofNat_of_lt' hlt, LineParameters.constAddPcAdvance,
    UInt64.toNat_div, UInt8.toNat_toUInt64, UInt8.toNat_toUInt64, hbase]

theorem address_execute {r : Row} (hr : r.opIndex = 0) (hi : (i == .endSequence) = false) :
    (execute p i r).1.address = i.address?.getD (r.address + UInt64.ofNat (i.bytes p)) := by
  have hmoved (operations : UInt64) := address_advance hsingle hr operations
  cases i with
  | endSequence => cases hi
  | setAddress address => rfl
  | special opcode =>
    have hbytes : (Instruction.special opcode).bytes p = p.minimumInstructionLength.toNat *
        ((opcode.toNat - p.opcodeBase.toNat) / p.lineRange.toNat) := rfl
    rw [hbytes, UInt64.ofNat_mul, UInt64.ofNat_uInt8ToNat]
    exact hmoved (specialAdvance p opcode)
  | advancePc operations =>
    have hbytes : (Instruction.advancePc operations).bytes p =
        p.minimumInstructionLength.toNat * operations.toNat := rfl
    rw [hbytes, UInt64.ofNat_mul, UInt64.ofNat_uInt8ToNat, UInt64.ofNat_toNat]
    exact hmoved operations
  | constAddPc =>
    have hbytes : Instruction.constAddPc.bytes p = p.minimumInstructionLength.toNat *
        ((255 - p.opcodeBase.toNat) / p.lineRange.toNat) := rfl
    rw [hbytes, UInt64.ofNat_mul, UInt64.ofNat_uInt8ToNat, ← constAddPcAdvance_eq]
    exact hmoved p.constAddPcAdvance
  | fixedAddPc delta =>
    have hbytes : (Instruction.fixedAddPc delta).bytes p = delta.toNat := rfl
    rw [hbytes, UInt64.ofNat_uInt16ToNat]
    rfl
  | _ => exact (UInt64.add_zero r.address).symm

theorem address_registersAfter : (registersAfter p before).address =
    ((sequence before).filterMap Instruction.address?).getLastD 0 +
      UInt64.ofNat (((since (fun i => i.address?.isSome) (sequence before)).map
        (Instruction.bytes p)).sum) := by
  rw [← foldl_address]
  exact registersAfter_since rfl (fun i r hi => by rw [execute_of_endSequence hi]; rfl)
    fun before i hi => address_execute hsingle (opIndex_registersAfter hsingle) hi

end Single

theorem constAddPcAdvance_eq_specialAdvance (p : LineParameters) :
    p.constAddPcAdvance = specialAdvance p 255 :=
  constAddPcAdvance_eq

theorem toNat_specialAdvance (p : LineParameters) (opcode : UInt8) :
    (specialAdvance p opcode).toNat =
      (opcode.toNat - p.opcodeBase.toNat) / p.lineRange.toNat := by
  apply UInt64.toNat_ofNat_of_lt'
  exact ((Nat.div_le_self _ _).trans (Nat.sub_le _ _)).trans_lt (opcode.toNat_lt.trans (by decide))

end Registers

/-- The places of the instructions that emit rows. -/
def emissions (instructions : List Instruction) : List Nat :=
  (List.range instructions.length).filter fun j => instructions[j]?.any Instruction.emits

theorem emissions_concat : emissions (before ++ [i]) =
    emissions before ++ if i.emits then [before.length] else [] := by
  have hold : ∀ j ∈ List.range before.length,
      ((before ++ [i])[j]?.any Instruction.emits) = (before[j]?.any Instruction.emits) := by
    intro j hj
    rw [List.getElem?_append_left (List.mem_range.mp hj)]
  rw [emissions, emissions, List.length_append, List.length_singleton, List.range_succ,
    List.filter_append, List.filter_congr hold]
  cases hi : i.emits <;> simp [hi]

/-- An emitted row is a copy of the registers but for what the emitting instruction itself adds. -/
theorem says_of_copied {row : Row}
    (hcopied : { row with
      line := (registersAfter p before).line
      address := (registersAfter p before).address
      opIndex := (registersAfter p before).opIndex
      endSequence := false } = registersAfter p before)
    (hline : row.line = (registersAfter p before).line + UInt64.ofInt (i.lines p))
    (hend : row.endSequence = true ↔ i = .endSequence)
    (hopIndex : p.maximumOperations = 1 → row.opIndex = 0)
    (haddress : p.maximumOperations = 1 →
      row.address = (registersAfter p before).address + UInt64.ofNat (i.bytes p)) :
    Says p before i row where
  fileIndex_eq := (congrArg Row.fileIndex hcopied).trans fileIndex_registersAfter
  column_eq := (congrArg Row.column hcopied).trans column_registersAfter
  isa_eq := (congrArg Row.isa hcopied).trans isa_registersAfter
  isStmt_eq := (congrArg Row.isStmt hcopied).trans isStmt_registersAfter
  line_eq := by
    rw [hline, line_registersAfter, ← UInt64.ofInt_add, List.map_append, List.sum_append,
      ← add_assoc, List.map_singleton, List.sum_singleton]
  basicBlock_iff := (Iff.of_eq (congrArg (fun r => r.basicBlock = true) hcopied)).trans
    (mark_registersAfter .basicBlock)
  prologueEnd_iff := (Iff.of_eq (congrArg (fun r => r.prologueEnd = true) hcopied)).trans
    (mark_registersAfter .prologueEnd)
  epilogueBegin_iff := (Iff.of_eq (congrArg (fun r => r.epilogueBegin = true) hcopied)).trans
    (mark_registersAfter .epilogueBegin)
  discriminator_eq := (congrArg Row.discriminator hcopied).trans discriminator_registersAfter
  endSequence_iff := hend
  opIndex_eq := hopIndex
  address_eq hsingle := by
    rw [haddress hsingle, address_registersAfter hsingle, List.map_append, List.sum_append,
      UInt64.ofNat_add, UInt64.add_assoc, List.map_singleton, List.sum_singleton]

theorem execute_says (before : List Instruction) (hi : i.emits = true) :
    ∃ row, (execute p i (registersAfter p before)).2 = some row ∧ Says p before i row := by
  have hend : (registersAfter p before).endSequence = false := endSequence_registersAfter
  have hcopied :
      { registersAfter p before with endSequence := false } = registersAfter p before := by
    rw [← hend]
  have hnoLines (line : UInt64) : line = line + UInt64.ofInt 0 := (UInt64.add_zero line).symm
  have hnoBytes (address : UInt64) : address = address + UInt64.ofNat 0 :=
    (UInt64.add_zero address).symm
  cases i with
  | special opcode =>
    exact ⟨_, rfl, says_of_copied hcopied (line_special opcode _)
      (iff_of_false (by simp [special, advance, advanceLine, hend]) nofun)
      (fun hsingle => opIndex_advance hsingle (specialAdvance p opcode) _)
      fun hsingle => address_execute (i := .special opcode) hsingle (opIndex_registersAfter hsingle)
        rfl⟩
  | copy =>
    exact ⟨_, rfl, says_of_copied hcopied (hnoLines _) (iff_of_false (by simp [hend]) nofun)
      opIndex_registersAfter fun _ => hnoBytes _⟩
  | endSequence =>
    exact ⟨_, rfl, says_of_copied hcopied (hnoLines _) (iff_of_true rfl rfl)
      opIndex_registersAfter fun _ => hnoBytes _⟩
  | _ => cases hi

theorem execute_of_not_emits (hi : i.emits = false) (r : Row) : (execute p i r).2 = none := by
  cases i <;> first | rfl | cases hi

/-- The instructions that emit rows give one each, in order, and the fields of each row go back as
far as its lifetimes do. -/
theorem rows_say (p : LineParameters) (instructions : List Instruction) :
    List.Forall₂ (fun j row => ∃ i, instructions[j]? = some i ∧ i.emits = true ∧
        Says p (instructions.take j) i row)
      (emissions instructions) (executeAll p instructions (initial p.defaultIsStmt)).2 := by
  induction instructions using List.reverseRecOn with
  | nil => exact .nil
  | append_singleton before i ih =>
    have hold : List.Forall₂ (fun j row => ∃ i', (before ++ [i])[j]? = some i' ∧
        i'.emits = true ∧ Says p ((before ++ [i]).take j) i' row)
        (emissions before) (executeAll p before (initial p.defaultIsStmt)).2 := by
      refine ih.imp fun j row => ?_
      rintro ⟨i', hi', hemits, hsays⟩
      have hj : j < before.length := (List.getElem?_eq_some_iff.mp hi').1
      exact ⟨i', by rw [List.getElem?_append_left hj, hi'], hemits,
        by rwa [List.take_append_of_le_length hj.le]⟩
    have hlast : (executeAll p (before ++ [i]) (initial p.defaultIsStmt)).2 =
        (executeAll p before (initial p.defaultIsStmt)).2 ++
          (execute p i (registersAfter p before)).2.toList := by
      simp [executeAll_append, executeAll, registersAfter]
    rw [emissions_concat, hlast]
    refine List.rel_append hold ?_
    cases hi : i.emits with
    | false =>
      rw [execute_of_not_emits hi]
      exact .nil
    | true =>
      obtain ⟨row, hrow, hsays⟩ := execute_says (p := p) before hi
      rw [hrow]
      exact .cons ⟨i, List.getElem?_concat_length, hi, by rwa [List.take_left]⟩ .nil

end Row
end DebugLine
