import DebugLine.Proofs.Framing
import DebugLine.Proofs.GroupRuns
import DebugLine.Proofs.LengthCheck
import DebugLine.Proofs.Listing

/-!
# Operands are as many as declared

A decoder that does not know a standard opcode skips as many unsigned numbers behind it as the
header declares. Where the declared counts have been checked, that is where the operands of a known
opcode end. These are as many runs of groups, signed or not, and to skip a number is to pass a run.
So the two can differ only in whether they get to the end, and a program that both get through has
its instructions at the same places.
-/

namespace DebugLine

open Leb128 (IsRun)

theorem Header.declaresKnown_of_read {compDir : String} {d u : Decoder} {h : Header}
    (hread : Header.read compDir true d = .ok h u) : h.DeclaresKnown := by
  rw [read_eq_front_bind] at hread
  obtain ⟨front, t, hfront, hread⟩ := bind_eq_ok.mp hread
  obtain ⟨_, _, hcheck, htables⟩ := Decoder.ofRead_bind_eq_ok hread
  obtain ⟨_, _, rfl⟩ := of_readTables htables
  refine (declaresKnown_iff (length_of_readFront hfront)).mpr ?_
  cases hfound : mismatch? 1 front.standardOpcodeLengths with
  | none => rfl
  | some found =>
    obtain ⟨opcode, expected, declared⟩ := found
    simp only [if_true, checkLengths, hfound] at hcheck
    obtain ⟨_, _, -, hfalse, -⟩ := (Cursor.fail_accepts _ _ _).mp hcheck
    exact hfalse.elim

theorem Coding.KnownOperands.exists_runs {c : Coding} {bytes : List UInt8} {i : Instruction}
    {known : StandardOpcode} {count : UInt8} (h : c.KnownOperands bytes i known)
    (hcount : known.argumentCount? = some count) :
    ∃ runs : List (List UInt8), runs.length = count.toNat ∧ (∀ run ∈ runs, IsRun run) ∧
      bytes = runs.flatten := by
  cases known with
  | copy | negateStmt | setBasicBlock | constAddPc | setPrologueEnd | setEpilogueBegin =>
    obtain rfl := Option.some.inj hcount
    exact ⟨[], rfl, by simp, h.1⟩
  | advancePc | advanceLine | setFile | setColumn | setIsa =>
    obtain rfl := Option.some.inj hcount
    exact ⟨[bytes], rfl, by simpa using h.1.isRun, by simp⟩
  | fixedAdvancePc => cases hcount

namespace Instruction

/-- What follows a standard opcode, where `meaning` tells which opcodes are known. -/
def readStandardKnowing (meaning : UInt8 → Option StandardOpcode) (h : Header) (opcode : UInt8) :
    Read Instruction :=
  match meaning opcode with
  | some known => readKnown known
  | none => do
    let arguments := (h.standardOpcodeLength? opcode).getD 0
    skipOperands arguments.toNat
    return unknownStandard opcode arguments

/-- Decodes the instruction at the cursor, where `meaning` tells which standard opcodes are
known. -/
def decodeKnowing (meaning : UInt8 → Option StandardOpcode) (h : Header) : Decode Instruction := do
  let offset ← Cursor.position
  let opcode ← Cursor.uint8
  if h.opcodeBase ≤ opcode then
    return special opcode
  else if opcode = 0 then
    readExtended h offset
  else
    readStandardKnowing meaning h opcode

theorem decode_eq_decodeKnowing (h : Header) :
    decode h = decodeKnowing StandardOpcode.ofCode? h := rfl

/-- Between `d` and `d'` there lies the opcode with `count` numbers behind it. Skipping so many
numbers ends there too if it succeeds, and so does a decoder that does not know the opcode. -/
structure PassesDeclared (h : Header) (opcode count : UInt8) (d d' : Decoder) : Prop where
  consumes : ∃ runs : List (List UInt8), runs.length = count.toNat ∧ (∀ run ∈ runs, IsRun run) ∧
    d.cursor.window = opcode :: (runs.flatten ++ d'.cursor.window) ∧
    d' = d.passed (1 + runs.flatten.length) []
  skips : ∀ c', skipOperands count.toNat (d.cursor.passed 1) = .ok () c' → c' = d'.cursor
  resumes : ∀ meaning i u, meaning opcode = none → decodeKnowing meaning h d = .ok i u →
    i = unknownStandard opcode count ∧ u = d'

variable {h : Header} {d d' : Decoder} {opcode count : UInt8} {i : Instruction}
  {runs : List (List UInt8)} {rest : List UInt8} {c' : Cursor}

theorem eq_passed_of_skipOperands (hsound : d.cursor.failure = none)
    (hruns : ∀ run ∈ runs, IsRun run) (hwindow : d.cursor.window = runs.flatten ++ rest)
    (hskip : skipOperands runs.length d.cursor = .ok () c') :
    c' = d.cursor.passed runs.flatten.length := by
  obtain ⟨_, rest', hnumbers, ⟨numbers, rfl, hunsigned, hlength⟩, rfl⟩ :=
    (skipOperands_accepts hsound runs.length () c').mp hskip
  have hrunsOfNumbers : ∀ number ∈ numbers, IsRun number := by
    intro number hnumber
    exact (hunsigned number hnumber).isRun
  rw [Leb128.runs_unique hruns hrunsOfNumbers hlength.symm (hwindow.symm.trans hnumbers)]

theorem decodeKnowing_of_head (meaning : UInt8 → Option StandardOpcode)
    (hsound : d.cursor.failure = none) (hhead : d.cursor.window.head? = some opcode) :
    decodeKnowing meaning h d =
      (if h.opcodeBase ≤ opcode then pure (special opcode)
      else if opcode = 0 then readExtended h d.cursor.offset
      else Decode.ofRead (readStandardKnowing meaning h opcode)) (d.passed 1 []) := by
  obtain ⟨rest, hwindow⟩ := List.head?_eq_some_iff.mp hhead
  have hopcode : Cursor.uint8 d.cursor = .ok opcode (d.cursor.passed 1) :=
    (Cursor.uint8_accepts hsound).reads rfl rest hwindow
  change (Decode.ofRead Cursor.uint8 >>= _) d = _
  rw [bind_of_ok (Decoder.ofRead_of_ok hopcode)]
  rfl

theorem decodeKnowing_standard (meaning : UInt8 → Option StandardOpcode)
    (hsound : d.cursor.failure = none) (hhead : d.cursor.window.head? = some opcode)
    (hne : opcode ≠ 0) (hbelow : opcode < h.opcodeBase) :
    decodeKnowing meaning h d =
      Decode.ofRead (readStandardKnowing meaning h opcode) (d.passed 1 []) := by
  rw [decodeKnowing_of_head meaning hsound hhead, if_neg (UInt8.not_le.mpr hbelow), if_neg hne]

theorem exists_runs_of_decode {known : StandardOpcode}
    (hmeaning : StandardOpcode.ofCode? opcode = some known)
    (hcount : known.argumentCount? = some count) (hne : opcode ≠ 0)
    (hbelow : opcode < h.opcodeBase) (hhead : d.cursor.window.head? = some opcode)
    (hdecode : decode h d = .ok i d') :
    ∃ runs : List (List UInt8), runs.length = count.toNat ∧ (∀ run ∈ runs, IsRun run) ∧
      d.cursor.window = opcode :: (runs.flatten ++ d'.cursor.window) ∧
      d' = d.passed (1 + runs.flatten.length) [] := by
  have hsound := failure_of_decode_ok hdecode
  obtain ⟨tail, hwindow⟩ := List.head?_eq_some_iff.mp hhead
  rw [decode_eq_decodeKnowing, decodeKnowing_standard _ hsound hhead hne hbelow] at hdecode
  obtain ⟨c, hc, rfl⟩ := Decoder.ofRead_eq_ok hdecode
  have hread : readKnown known (d.passed 1 []).cursor = .ok i c := by
    simpa only [readStandardKnowing, hmeaning] using hc
  obtain ⟨_, rest, hrest, hoperands, rfl⟩ :=
    (readKnown_accepts (h := h) (d := d.passed 1 []) hsound known i c).mp hread
  obtain ⟨runs, hlength, hruns, rfl⟩ := hoperands.exists_runs hcount
  have htail : (d.passed 1 []).cursor.window = tail := by
    simp [hwindow]
  refine ⟨runs, hlength, hruns, ?_, ?_⟩
  · rw [hwindow, ← htail]
    simp only [Cursor.window_passed _, hrest, List.drop_left]
  · simp [Decoder.passed]

theorem passesDeclared_of_decode (hdeclared : h.standardOpcodeLength? opcode = some count)
    (hknown : knownArgumentCount opcode = some count) (hbelow : opcode < h.opcodeBase)
    (hhead : d.cursor.window.head? = some opcode) (hdecode : decode h d = .ok i d') :
    PassesDeclared h opcode count d d' := by
  have hsound := failure_of_decode_ok hdecode
  have hne : opcode ≠ 0 := by
    rintro rfl
    cases hknown
  obtain ⟨known, hmeaning, hcount⟩ := Option.bind_eq_some_iff.mp hknown
  obtain ⟨runs, hlength, hruns, hwindow, hpassed⟩ :=
    exists_runs_of_decode hmeaning hcount hne hbelow hhead hdecode
  have hskips : ∀ c', skipOperands count.toNat (d.cursor.passed 1) = .ok () c' →
      c' = d'.cursor := by
    intro c' hskip
    have hrest : (d.passed 1 []).cursor.window = runs.flatten ++ d'.cursor.window := by
      simp [hwindow]
    rw [← hlength] at hskip
    rw [eq_passed_of_skipOperands (d := d.passed 1 []) hsound hruns hrest hskip, hpassed]
    simp
  refine ⟨⟨runs, hlength, hruns, hwindow, hpassed⟩, hskips, ?_⟩
  intro meaning j u hunknown hother
  rw [decodeKnowing_standard _ hsound hhead hne hbelow] at hother
  obtain ⟨c', hc', rfl⟩ := Decoder.ofRead_eq_ok hother
  simp only [readStandardKnowing, hunknown, hdeclared, Option.getD_some] at hc'
  obtain ⟨_, c, hskip, hj⟩ := bind_eq_ok.mp hc'
  cases hj
  obtain rfl := hskips c' hskip
  refine ⟨rfl, ?_⟩
  rw [hpassed]
  rfl

/-- A header that is read with the check declares what is known. So an opcode whose count is known
and which is decoded, at any cursor, has passed as many numbers as are declared, and a decoder that
skips so many goes on at the same place. -/
theorem passes_declared {compDir : String} {e u : Decoder}
    (hread : Header.read compDir true e = .ok h u)
    (hknown : knownArgumentCount opcode = some count) (hbelow : opcode < h.opcodeBase) :
    h.standardOpcodeLength? opcode = some count ∧
    ∀ d i d', d.cursor.window.head? = some opcode → decode h d = .ok i d' →
      PassesDeclared h opcode count d d' := by
  have hdeclared : h.standardOpcodeLength? opcode = some count :=
    Header.declaresKnown_of_read hread opcode hbelow count hknown
  refine ⟨hdeclared, ?_⟩
  intro d i d' hhead hdecode
  exact passesDeclared_of_decode hdeclared hknown hbelow hhead hdecode

/-- Opcode 3 with a signed number in two groups where one would do, and a byte behind it. -/
def paddedLine : Decoder := ⟨.ofBytes #[3, 0xFF, 0x7F, 1] 0 .little 8, .empty none⟩

/-- The known operand is signed and the skipped one is not, but both end behind the second group. -/
theorem passes_declared_padded :
    ∃ h u i v, Header.read "/w" true (Header.unread Assembly.empty) = .ok h u ∧
      h.standardOpcodeLength? 3 = some 1 ∧
      decode h paddedLine = .ok (advanceLine (-1)) (paddedLine.passed 3 []) ∧
      decodeKnowing (fun _ => none) h paddedLine = .ok i v ∧
      i = unknownStandard 3 1 ∧ v = paddedLine.passed 3 [] := by
  obtain ⟨h, u, hread, hbase, hdecode, hplace, hother⟩ : ∃ h u,
      Header.read "/w" true (Header.unread Assembly.empty) = .ok h u ∧ h.opcodeBase = 13 ∧
      (decode h paddedLine).answer = .ok (advanceLine (-1)) ∧
      (decode h paddedLine).state = paddedLine.passed 3 [] ∧
      (decodeKnowing (fun _ => none) h paddedLine).answer = .ok (unknownStandard 3 1) :=
    EStateM.Result.exists_of_ran (by decide +kernel)
  obtain ⟨w, hdecode⟩ := EStateM.Result.exists_of_answer_ok hdecode
  obtain rfl : w = paddedLine.passed 3 [] := by
    rw [hdecode] at hplace
    exact hplace
  obtain ⟨v, hother⟩ := EStateM.Result.exists_of_answer_ok hother
  have hknown : knownArgumentCount 3 = some 1 := by decide
  have hbelow : (3 : UInt8) < h.opcodeBase := by
    rw [hbase]
    decide
  obtain ⟨hdeclared, hpasses⟩ := passes_declared hread hknown hbelow
  obtain ⟨hi, hv⟩ :=
    (hpasses paddedLine _ _ (by decide) hdecode).resumes (fun _ => none) _ v rfl hother
  exact ⟨h, u, _, v, hread, hdeclared, hdecode, hother, hi, hv⟩

/-- Some of the opcodes whose argument count is known are taken for unknown. -/
def Forgets (meaning : UInt8 → Option StandardOpcode) : Prop :=
  ∀ opcode, meaning opcode = StandardOpcode.ofCode? opcode ∨
    meaning opcode = none ∧ ∃ count, knownArgumentCount opcode = some count

/-- `j` is the instruction `i`, or what is made of it where its opcode is not known. -/
def StandsFor (j i : Instruction) : Prop :=
  j = i ∨ ∃ opcode count, knownArgumentCount opcode = some count ∧ j = unknownStandard opcode count

/-- Instructions are decoded one after another until nothing is left to read. Each is listed with
the offset behind it. -/
inductive ListsKnowing (meaning : UInt8 → Option StandardOpcode) (h : Header) :
    Decoder → List (Instruction × Nat) → Prop
  | ended {d : Decoder} (empty : d.cursor.isEmpty = true) : ListsKnowing meaning h d []
  | decodes {d u : Decoder} {j : Instruction} {later : List (Instruction × Nat)}
      (more : d.cursor.isEmpty = false) (decoded : decodeKnowing meaning h d = .ok j u)
      (rest : ListsKnowing meaning h u later) :
      ListsKnowing meaning h d ((j, u.cursor.offset) :: later)

section Forgetting

variable {meaning : UInt8 → Option StandardOpcode} {compDir : String} {e t u : Decoder}
  {j : Instruction} (hread : Header.read compDir true e = .ok h t) (hforgets : Forgets meaning)
include hread hforgets

theorem decodeKnowing_resumes (hdecode : decode h d = .ok i d')
    (hother : decodeKnowing meaning h d = .ok j u) : u = d' ∧ StandsFor j i := by
  have hsound := failure_of_decode_ok hdecode
  obtain ⟨_, opcode, hwindow, rfl, -⟩ := Decoder.of_ofRead_bind (Cursor.uint8_accepts hsound)
    (Decoder.of_position_bind hdecode)
  have hhead : d.cursor.window.head? = some opcode := by
    rw [hwindow]
    rfl
  rcases hforgets opcode with hsame | ⟨hunknown, count, hknown⟩
  · have halike : decodeKnowing meaning h d = decode h d := by
      rw [decode_eq_decodeKnowing, decodeKnowing_of_head _ hsound hhead,
        decodeKnowing_of_head _ hsound hhead, readStandardKnowing, readStandardKnowing, hsame]
    rw [halike, hdecode] at hother
    cases hother
    exact ⟨rfl, .inl rfl⟩
  · by_cases hbelow : opcode < h.opcodeBase
    · have hdeclared := Header.declaresKnown_of_read hread opcode hbelow count hknown
      obtain ⟨hj, hu⟩ := (passesDeclared_of_decode hdeclared hknown hbelow hhead hdecode).resumes
        meaning j u hunknown hother
      exact ⟨hu, .inr ⟨opcode, count, hknown, hj⟩⟩
    · -- The header makes a special opcode of it, and those need not be known.
      have hspecial (known : UInt8 → Option StandardOpcode) :
          decodeKnowing known h d = .ok (special opcode) (d.passed 1 []) := by
        rw [decodeKnowing_of_head known hsound hhead, if_pos (UInt8.not_lt.mp hbelow)]
        rfl
      rw [decode_eq_decodeKnowing, hspecial] at hdecode
      rw [hspecial] at hother
      cases hdecode
      cases hother
      exact ⟨rfl, .inl rfl⟩

/-- A program has its instructions at the same places whichever opcodes have been forgotten. -/
theorem listing_resumes {listed : List (Instruction × Nat)}
    (hlisting : (Listing.ofDecoder h d).failure = none)
    (hlisted : ListsKnowing meaning h d listed) :
    List.Forall₂ (fun instruction known => StandsFor instruction.1 known.1 ∧
      instruction.2 = known.2) listed (Listing.ofDecoder h d).instructions := by
  induction hlisted with
  | ended empty =>
    rw [Listing.ofDecoder_of_isEmpty empty]
    exact .nil
  | @decodes d u j later more decoded _ ih =>
    cases hdecode : decode h d with
    | error e d' =>
      rw [Listing.ofDecoder_of_error more hdecode] at hlisting
      cases hlisting
    | ok i d' =>
      obtain ⟨rfl, hstands⟩ := decodeKnowing_resumes hread hforgets hdecode decoded
      rw [Listing.ofDecoder_of_ok more hdecode] at hlisting ⊢
      exact .cons ⟨hstands, rfl⟩ (ih hlisting)

end Forgetting

end Instruction
end DebugLine
