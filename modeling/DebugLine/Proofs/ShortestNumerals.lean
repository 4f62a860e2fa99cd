import DebugLine.Proofs.Checked.Leb128
import DebugLine.Proofs.GroupRuns

/-!
# Numbers are written as short as can be

A number has several runs of groups, which differ in what they put in front of it. The one that is
written is read back as the number, and it is the shortest: all others have more groups. Writing is
a loop on a word, which stops where nothing but the sign is left.
-/

namespace DebugLine

namespace Leb128

/-- The first bytes are as few as the others, and differ from them only where they are fewer. -/
structure ShortestOf (short bytes : List UInt8) : Prop where
  length_le : short.length ≤ bytes.length
  eq_of_length : short.length = bytes.length → short = bytes

theorem ShortestOf.refl (bytes : List UInt8) : ShortestOf bytes bytes :=
  ⟨le_rfl, fun _ => rfl⟩

theorem ShortestOf.of_lt {short bytes : List UInt8} (h : short.length < bytes.length) :
    ShortestOf short bytes :=
  ⟨h.le, fun hsame => absurd hsame h.ne⟩

theorem ShortestOf.cons {short bytes : List UInt8} (h : ShortestOf short bytes) (b : UInt8) :
    ShortestOf (b :: short) (b :: bytes) := by
  constructor
  · simpa using h.length_le
  · intro hsame
    rw [h.eq_of_length (by simpa using hsame)]

variable {top : UInt8 → Bool} {bytes : List UInt8} {b : UInt8} {room : Nat}

theorem ofNat_payload (h : continues b = false) : UInt8.ofNat (payload b) = b := by
  rw [continues, decide_eq_false_iff_not] at h
  rw [payload, Nat.mod_eq_of_lt (by omega), UInt8.ofNat_toNat]

theorem ofNat_payload_add (h : continues b = true) : UInt8.ofNat (payload b + 128) = b := by
  have hlt := b.toNat_lt
  rw [continues, decide_eq_true_eq] at h
  have hbyte : payload b + 128 = b.toNat := by
    rw [payload]
    omega
  rw [hbyte, UInt8.ofNat_toNat]

theorem shortestOf_unsignedGroups (h : IsNumeral top room bytes) :
    ShortestOf (unsignedGroups room (unsignedValue bytes)) bytes := by
  induction h with
  | @last room b stops =>
    have hb := payload_lt b
    simp only [unsignedValue, unsignedGroups, Nat.mul_zero, Nat.add_zero, if_pos hb,
      ofNat_payload stops]
    exact .refl [b]
  | @more room b bs goesOn rest ih =>
    have hb := payload_lt b
    have hbs := rest.length_pos
    rw [unsignedValue, unsignedGroups]
    split_ifs with hsmall
    · exact .of_lt (by simpa using hbs)
    · have hlow : (payload b + 128 * unsignedValue bs) % 128 = payload b := by omega
      have hhigh : (payload b + 128 * unsignedValue bs) / 128 = unsignedValue bs := by omega
      rw [hlow, hhigh, ofNat_payload_add goesOn]
      exact ih.cons b

theorem shortestOf_signedGroups (h : IsNumeral top room bytes) :
    ShortestOf (signedGroups room (signedValue bytes)) bytes := by
  induction h with
  | @last room b stops =>
    have hb := payload_lt b
    have hrange : -64 ≤ signedValue [b] ∧ signedValue [b] < 64 ∧
        (signedValue [b] % 128).toNat = payload b := by
      simp only [signedValue, isNegative, List.getLast?_singleton, unsignedValue,
        List.length_singleton, Int.pow_eq, decide_eq_true_eq]
      split_ifs <;> omega
    rw [signedGroups, if_pos ⟨hrange.1, hrange.2.1⟩, hrange.2.2, ofNat_payload stops]
    exact .refl [b]
  | @more room b bs goesOn rest ih =>
    have hb := payload_lt b
    have hbs := rest.length_pos
    rw [signedValue_cons (List.ne_nil_of_length_pos hbs), signedGroups]
    split_ifs with hsmall
    · exact .of_lt (by simpa using hbs)
    · have hlow : ((payload b + 128 * signedValue bs) % 128).toNat = payload b := by omega
      have hhigh : (payload b + 128 * signedValue bs) / 128 = signedValue bs := by omega
      rw [hlow, hhigh, ofNat_payload_add goesOn]
      exact ih.cons b

/-- Writes the low seven bits of a word and goes on with what is above them, until that is zero. -/
def unsignedLoop : (room : Nat) → (word : UInt64) → List UInt8
  | 0, _ => []
  | room + 1, word =>
    let byte := (word &&& 0x7F).toUInt8
    let above := word >>> 7
    if above = 0 then [byte] else (byte ||| 0x80) :: unsignedLoop room above

/-- The same for a signed word, until bit 6 of the byte says what is above it. -/
def signedLoop : (room : Nat) → (word : Int64) → List UInt8
  | 0, _ => []
  | room + 1, word =>
    let byte := (word &&& 0x7F).toUInt64.toUInt8
    let above := word >>> 7
    if above = 0 ∧ byte &&& 0x40 = 0 ∨ above = -1 ∧ byte &&& 0x40 ≠ 0 then [byte]
    else (byte ||| 0x80) :: signedLoop room above

section Words

variable {n : Nat}

theorem ofNat_or_continuation (h : n < 128) : UInt8.ofNat n ||| 0x80 = UInt8.ofNat (n + 128) := by
  have hsum : 2 ^ 7 * 1 + n = 2 ^ 7 * 1 ||| n := Nat.two_pow_add_eq_or_of_lt (i := 7) h 1
  rw [← UInt8.toNat_inj, UInt8.toNat_or, UInt8.toNat_ofNat_of_lt' (show n < 256 by omega),
    UInt8.toNat_ofNat_of_lt' (show n + 128 < 256 by omega), Nat.or_comm, Nat.add_comm]
  exact hsum.symm

theorem ofNat_and_sign_eq_zero_iff (h : n < 128) : UInt8.ofNat n &&& 0x40 = 0 ↔ n < 64 := by
  rw [@Checked.and_bit_eq_zero_iff _ 0x40 6 rfl, UInt8.toNat_ofNat_of_lt' (show n < 256 by omega)]
  omega

theorem lowByte_eq (word : UInt64) : (word &&& 0x7F).toUInt8 = UInt8.ofNat (word.toNat % 128) := by
  have hlow : word.toNat &&& 127 = word.toNat % 128 := Nat.and_two_pow_sub_one_eq_mod _ 7
  rw [← UInt8.toNat_inj, UInt64.toNat_toUInt8, UInt64.toNat_and, UInt8.toNat_ofNat']
  exact congrArg (· % 256) hlow

theorem toNat_above (word : UInt64) : (word >>> 7).toNat = word.toNat / 128 := by
  rw [UInt64.toNat_shiftRight]
  exact Nat.shiftRight_eq_div_pow _ 7

theorem toInt_emod_eq (word : Int64) :
    (word.toInt % 128).toNat = word.toUInt64.toNat % 128 := by
  have hsame : word.toInt % 2 ^ 64 = word.toUInt64.toNat := by
    have hlt := word.toBitVec.isLt
    rw [← Int64.toInt_toBitVec, ← Int64.toNat_toBitVec, BitVec.toInt_eq_toNat_bmod]
    simp only [Int.bmod_def]
    omega
  omega

theorem signedLowByte_eq (word : Int64) :
    (word &&& 0x7F).toUInt64.toUInt8 = UInt8.ofNat (word.toInt % 128).toNat := by
  rw [toInt_emod_eq, ← lowByte_eq]
  rfl

/-- A signed word is moved down together with its sign. -/
theorem toInt_above (word : Int64) : (word >>> 7).toInt = word.toInt / 128 := by
  rw [← Int64.toInt_toBitVec, Int64.toBitVec_shiftRight]
  change (word.toBitVec.sshiftRight 7).toInt = _
  rw [BitVec.toInt_sshiftRight, Int64.toInt_toBitVec, Int.shiftRight_eq_div_pow]
  rfl

end Words

theorem unsignedLoop_eq (room : Nat) (word : UInt64) :
    unsignedLoop room word = unsignedGroups room word.toNat := by
  induction room generalizing word with
  | zero => rfl
  | succ room ih =>
    have hlast : word >>> 7 = 0 ↔ word.toNat < 128 := by
      rw [← UInt64.toNat_inj, toNat_above, UInt64.toNat_zero]
      omega
    have hbyte : UInt8.ofNat (word.toNat % 128) ||| 0x80 = UInt8.ofNat (word.toNat % 128 + 128) :=
      ofNat_or_continuation (Nat.mod_lt _ (by decide))
    simp only [unsignedLoop, unsignedGroups, lowByte_eq, ih, toNat_above, hlast, hbyte]
    split_ifs with hsmall
    · rw [Nat.mod_eq_of_lt hsmall]
    · rfl

theorem signedLoop_eq (room : Nat) (word : Int64) :
    signedLoop room word = signedGroups room word.toInt := by
  induction room generalizing word with
  | zero => rfl
  | succ room ih =>
    have hlow : (word.toInt % 128).toNat < 128 := by omega
    have hbyte := ofNat_or_continuation hlow
    have hzero : word >>> 7 = 0 ↔ word.toInt / 128 = 0 := by
      rw [← Int64.toInt_inj, toInt_above, Int64.toInt_zero]
    have hones : word >>> 7 = -1 ↔ word.toInt / 128 = -1 := by
      rw [← Int64.toInt_inj, toInt_above]
      rfl
    -- Bit 6 of the byte tells the sign just where nothing else is left above it.
    have hlast : word >>> 7 = 0 ∧ UInt8.ofNat (word.toInt % 128).toNat &&& 0x40 = 0 ∨
        word >>> 7 = -1 ∧ UInt8.ofNat (word.toInt % 128).toNat &&& 0x40 ≠ 0 ↔
          -64 ≤ word.toInt ∧ word.toInt < 64 := by
      rw [ne_eq, ofNat_and_sign_eq_zero_iff hlow, hzero, hones]
      omega
    simp only [signedLoop, signedGroups, signedLowByte_eq, ih, toInt_above, hbyte, hlast]

end Leb128

namespace Cursor

open Leb128 (IsUnsigned ShortestOf encodeSigned encodeUnsigned maxGroups signedLoop unsignedLoop)

variable {α : Type} {c : Cursor}

/-- What is written is read back, and nothing behind it is touched. Whatever is read as a number,
the number is written with no more bytes, and with no others where it takes as many. -/
structure WritesShortest (read : Read α) (write : α → List UInt8) : Prop where
  readsBack : ∀ (c : Cursor) n rest, c.failure = none → c.window = write n ++ rest →
    read c = .ok n (c.passed (write n).length) ∧ (c.passed (write n).length).window = rest
  shortest : ∀ c n c', read c = .ok n c' → ∃ bytes rest, c.window = bytes ++ rest ∧
    c' = c.passed bytes.length ∧ ShortestOf (write n) bytes

theorem writesShortest_of_accepts {read : Read α} {write : α → List UInt8}
    {spec : List UInt8 → α → Prop} (haccepts : ∀ c, c.failure = none → Accepts spec read c)
    (hsticky : ∀ c n c', read c = .ok n c' → c.failure = none)
    (hwritten : ∀ n, spec (write n) n)
    (hshortest : ∀ bytes n, spec bytes n → ShortestOf (write n) bytes) :
    WritesShortest read write := by
  constructor
  · intro c n rest hsound hwindow
    constructor
    · exact (haccepts c hsound).reads (hwritten n) rest hwindow
    · simp [hwindow]
  · intro c n c' hread
    obtain ⟨bytes, rest, hwindow, hspec, hpassed⟩ :=
      (haccepts c (hsticky c n c' hread) n c').mp hread
    exact ⟨bytes, rest, hwindow, hpassed, hshortest bytes n hspec⟩

/-- Both kinds of numbers are written by the loops on words, are read back, and are written with as
few groups as can be. -/
theorem numerals_shortest :
    WritesShortest uleb128 encodeUnsigned ∧ WritesShortest sleb128 encodeSigned ∧
    (∀ n, unsignedLoop maxGroups n = encodeUnsigned n) ∧
    ∀ n, signedLoop maxGroups n = encodeSigned n := by
  refine ⟨?_, ?_, ?_, ?_⟩
  · apply writesShortest_of_accepts (fun c hsound => uleb128_accepts hsound)
    · intro c n c' hread
      exact (scan_eq_ok hread).1
    · intro n
      exact ⟨Leb128.isUnsigned_encodeUnsigned n, (Leb128.unsignedWord_encodeUnsigned n).symm⟩
    · rintro bytes n ⟨hbytes, rfl⟩
      rw [encodeUnsigned, hbytes.toNat_unsignedWord]
      exact Leb128.shortestOf_unsignedGroups hbytes
  · apply writesShortest_of_accepts (fun c hsound => sleb128_accepts hsound)
    · intro c n c' hread
      exact (scan_eq_ok hread).1
    · intro n
      exact ⟨Leb128.isNumeral_encodeSigned n, by simp⟩
    · rintro bytes n ⟨hbytes, rfl⟩
      rw [encodeSigned, hbytes.toInt_ofInt_signedValue]
      exact Leb128.shortestOf_signedGroups hbytes
  · intro n
    exact Leb128.unsignedLoop_eq maxGroups n
  · intro n
    exact Leb128.signedLoop_eq maxGroups n

/-- A number that takes all ten groups in front of another byte, and one with a group too many. -/
theorem numerals_shortest_padded :
    let lowest := ofBytes (encodeSigned Int64.minValue ++ [0x05]).toArray 0 .little 8
    let padded := ofBytes #[0xFF, 0x7F, 0x05] 0 .little 8
    (sleb128 lowest = .ok Int64.minValue (lowest.passed 10) ∧ (lowest.passed 10).window = [0x05]) ∧
    sleb128 padded = .ok (-1) (padded.passed 2) ∧
    ∃ bytes rest, padded.window = bytes ++ rest ∧ padded.passed 2 = padded.passed bytes.length ∧
      ShortestOf (encodeSigned (-1)) bytes := by
  obtain ⟨-, hsigned, -, -⟩ := numerals_shortest
  have hlowest := hsigned.readsBack (ofBytes (encodeSigned Int64.minValue ++ [0x05]).toArray 0
    .little 8) Int64.minValue [0x05] rfl (by decide +kernel)
  have hpadded : sleb128 (ofBytes #[0xFF, 0x7F, 0x05] 0 .little 8) =
      .ok (-1) ((ofBytes #[0xFF, 0x7F, 0x05] 0 .little 8).passed 2) := by rfl
  exact ⟨hlowest, hpadded, hsigned.shortest _ _ _ hpadded⟩

end Cursor
end DebugLine
