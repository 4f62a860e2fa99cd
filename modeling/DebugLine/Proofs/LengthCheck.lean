import DebugLine.Proofs.Assembled
import DebugLine.Proofs.HeaderReading

/-!
# What checking the argument counts rejects

The declared argument counts are compared with the known ones in the middle of a header, behind the
fields that are needed for it and in front of the tables. So a header that is read with the check is
read without it too, and with the same result. What the check rejects it rejects at the first opcode
whose count differs, whatever is wrong with the tables.
-/

namespace DebugLine

theorem Decode.ofRead_bind {α β : Type} (x : Read α) (f : α → Read β) :
    Decode.ofRead (x >>= f) = Decode.ofRead x >>= fun a => Decode.ofRead (f a) := by
  funext d
  cases hx : x d.cursor with
  | ok a c =>
    have hfirst : Decode.ofRead x d = .ok a { d with cursor := c } := by simp [Decode.ofRead, hx]
    rw [bind_of_ok hfirst, Decode.ofRead, bind_of_ok hx, Decode.ofRead]
  | error e c =>
    have hfirst : Decode.ofRead x d = .error e { d with cursor := c } := by
      simp [Decode.ofRead, hx]
    rw [bind_of_error hfirst, Decode.ofRead, bind_of_error hx]

namespace Header

/-- Reads a header up to the declared argument counts, and leaves its tables empty. -/
def readFront : Decode Header := do
  let offset ← Cursor.position
  let (format, unitLength) ← readInitialLength offset
  let endOffset ← enterUnit offset unitLength
  let version ← readVersion offset
  let (headerLength, programOffset) ← readProgramStart offset endOffset format
  let parameters ← readParameters offset version
  let standardOpcodeLengths ← Cursor.times Cursor.uint8 (parameters.opcodeBase.toNat - 1)
  return { parameters with
           offset, format, version, unitLength, headerLength, standardOpcodeLengths,
           includeDirectories := #[], programOffset, endOffset, initialFileCount := 0 }

/-- Reads the tables behind what has been read of a header. -/
def readTables (compDir : String) (front : Header) : Decode Header := do
  let includeDirectories := (compDir :: (← readDirectories compDir)).toArray
  Decoder.readEntries includeDirectories
  return { front with includeDirectories, initialFileCount := (← get).files.count }

variable {compDir : String} {check : Bool} {d d' : Decoder} {h front : Header}

theorem ofRead_readOpcodeLengths (offset : Nat) (check : Bool) (opcodeBase : UInt8) :
    Decode.ofRead (readOpcodeLengths offset check opcodeBase) =
      Decode.ofRead (Cursor.times Cursor.uint8 (opcodeBase.toNat - 1)) >>= fun lengths =>
        Decode.ofRead (if check then checkLengths offset lengths else pure ()) >>= fun _ =>
          pure lengths := by
  rw [readOpcodeLengths, Decode.ofRead_bind]
  refine bind_congr fun lengths => ?_
  cases check with
  | true =>
    simp only [if_true, Decode.ofRead_bind]
    rfl
  | false => rfl

theorem read_eq_front_bind (compDir : String) (check : Bool) :
    read compDir check = readFront >>= fun front =>
      Decode.ofRead (if check then checkLengths front.offset front.standardOpcodeLengths
        else pure ()) >>= fun _ => readTables compDir front := by
  unfold read readInside readFront
  simp only [bind_assoc, pure_bind]
  refine bind_congr fun offset => bind_congr fun ⟨format, unitLength⟩ => bind_congr fun endOffset =>
    bind_congr fun version => bind_congr fun ⟨headerLength, programOffset⟩ =>
    bind_congr fun parameters => ?_
  change Decode.ofRead (readOpcodeLengths offset check parameters.opcodeBase) >>= _ = _
  rw [ofRead_readOpcodeLengths, bind_assoc]
  refine bind_congr fun lengths => ?_
  rw [bind_assoc]
  exact bind_congr fun _ => pure_bind _ _

theorem readFront_records : Records (fun d : Decoder => d.cursor.failure) readFront :=
  (Decoder.ofRead_records Cursor.position_disciplined.records).bind fun offset =>
    (Decoder.ofRead_records (readInitialLength_disciplined offset).records).bind fun ⟨_, _⟩ =>
    (Decoder.ofRead_records (enterUnit_records offset _)).bind fun _ =>
    (Decoder.ofRead_records (readVersion_disciplined offset).records).bind fun version =>
    (Decoder.ofRead_records (readProgramStart_disciplined offset _ _).records).bind fun ⟨_, _⟩ =>
    (Decoder.ofRead_records (readParameters_disciplined offset version).records).bind fun _ =>
    (Decoder.ofRead_records (Cursor.times_disciplined Cursor.uint8_disciplined _).records).bind
      fun _ => .pure _

theorem length_of_readFront (hfront : readFront d = .ok front d') :
    front.standardOpcodeLengths.length = front.opcodeBase.toNat - 1 := by
  obtain ⟨offset, _, -, hfront⟩ := Decoder.ofRead_bind_eq_ok hfront
  obtain ⟨⟨format, unitLength⟩, _, -, hfront⟩ := Decoder.ofRead_bind_eq_ok hfront
  obtain ⟨endOffset, _, -, hfront⟩ := Decoder.ofRead_bind_eq_ok hfront
  obtain ⟨version, _, -, hfront⟩ := Decoder.ofRead_bind_eq_ok hfront
  obtain ⟨⟨headerLength, programOffset⟩, _, -, hfront⟩ := Decoder.ofRead_bind_eq_ok hfront
  obtain ⟨parameters, _, -, hfront⟩ := Decoder.ofRead_bind_eq_ok hfront
  obtain ⟨lengths, _, hlengths, hfront⟩ := Decoder.ofRead_bind_eq_ok hfront
  cases hfront
  exact length_of_times hlengths

theorem of_readTables (hread : readTables compDir front d = .ok h d') :
    ∃ includeDirectories initialFileCount,
      h = { front with includeDirectories, initialFileCount } := by
  obtain ⟨directories, _, -, hread⟩ := Decoder.ofRead_bind_eq_ok hread
  obtain ⟨_, _, -, hread⟩ := bind_eq_ok.mp hread
  cases hread
  exact ⟨_, _, rfl⟩

/-- Each opcode with a fixed meaning below the opcode base has its known argument count. -/
def DeclaresKnown (h : Header) : Prop :=
  ∀ opcode < h.opcodeBase, ∀ known, knownArgumentCount opcode = some known →
    h.standardOpcodeLength? opcode = some known

/-- The first opcode with a fixed meaning that has another argument count. -/
structure FirstMismatch (h : Header) (opcode expected declared : UInt8) : Prop where
  below : opcode < h.opcodeBase
  expected_eq : knownArgumentCount opcode = some expected
  declared_eq : h.standardOpcodeLength? opcode = some declared
  ne : expected ≠ declared
  first : ∀ smaller < opcode, ∀ known, knownArgumentCount smaller = some known →
    h.standardOpcodeLength? smaller = some known

theorem FirstMismatch.not_declaresKnown {opcode expected declared : UInt8}
    (hmismatch : h.FirstMismatch opcode expected declared) : ¬h.DeclaresKnown := by
  intro hknown
  have hexpected := hknown opcode hmismatch.below expected hmismatch.expected_eq
  exact hmismatch.ne (Option.some_inj.mp (hexpected.symm.trans hmismatch.declared_eq))

theorem standardOpcodeLength?_eq {i : Nat} {declared : UInt8}
    (hlength : h.standardOpcodeLengths.length = h.opcodeBase.toNat - 1)
    (hdeclared : h.standardOpcodeLengths[i]? = some declared) :
    (UInt8.ofNat (i + 1)).toNat = i + 1 ∧ UInt8.ofNat (i + 1) < h.opcodeBase ∧
      h.standardOpcodeLength? (UInt8.ofNat (i + 1)) = some declared := by
  have hi : i < h.opcodeBase.toNat - 1 := hlength ▸ (List.getElem?_eq_some_iff.mp hdeclared).1
  have hbase := h.opcodeBase.toNat_lt
  have hopcode : (UInt8.ofNat (i + 1)).toNat = i + 1 := UInt8.toNat_ofNat_of_lt' (by
    simp only [UInt8.size]
    omega)
  refine ⟨hopcode, UInt8.lt_iff_toNat_lt.mpr (by omega), ?_⟩
  have hne : UInt8.ofNat (i + 1) ≠ 0 := by
    intro hzero
    rw [hzero] at hopcode
    exact absurd hopcode (Nat.succ_ne_zero i).symm
  rw [standardOpcodeLength?, if_neg hne, hopcode]
  exact hdeclared

theorem exists_declared (hlength : h.standardOpcodeLengths.length = h.opcodeBase.toNat - 1)
    {opcode : UInt8} (hne : opcode ≠ 0) (hbelow : opcode < h.opcodeBase) :
    ∃ i declared, h.standardOpcodeLengths[i]? = some declared ∧ UInt8.ofNat (i + 1) = opcode := by
  have hpos : 0 < opcode.toNat := Nat.pos_of_ne_zero fun hzero => hne (UInt8.toNat_inj.mp hzero)
  have hi : opcode.toNat - 1 < h.standardOpcodeLengths.length := by
    rw [UInt8.lt_iff_toNat_lt] at hbelow
    omega
  refine ⟨_, _, List.getElem?_eq_getElem hi, ?_⟩
  rw [Nat.sub_add_cancel hpos, UInt8.ofNat_toNat]

theorem declaresKnown_iff
    (hlength : h.standardOpcodeLengths.length = h.opcodeBase.toNat - 1) :
    h.DeclaresKnown ↔ mismatch? 1 h.standardOpcodeLengths = none := by
  rw [← agreesWithKnown_iff]
  constructor
  · intro hknown i declared hdeclared known hi
    obtain ⟨-, hbelow, hcount⟩ := standardOpcodeLength?_eq hlength hdeclared
    exact Option.some_inj.mp (hcount.symm.trans (hknown _ hbelow known hi))
  · intro hagrees opcode hbelow known hknown
    have hne : opcode ≠ 0 := by
      rintro rfl
      cases hknown
    obtain ⟨i, declared, hdeclared, rfl⟩ := exists_declared hlength hne hbelow
    rw [(standardOpcodeLength?_eq hlength hdeclared).2.2,
      hagrees i declared hdeclared known hknown]

theorem of_mismatch? {start opcode expected declared : UInt8} {lengths : List UInt8}
    (hfound : mismatch? start lengths = some (opcode, expected, declared)) :
    ∃ i, lengths[i]? = some declared ∧ opcode = start + UInt8.ofNat i ∧
      knownArgumentCount opcode = some expected ∧ expected ≠ declared ∧
      mismatch? start (lengths.take i) = none := by
  induction lengths generalizing start with
  | nil => cases hfound
  | cons count lengths ih =>
    rw [mismatch?] at hfound
    cases hdiffers : (knownArgumentCount start).filter (· != count) with
    | some known =>
      rw [hdiffers] at hfound
      cases hfound
      obtain ⟨hknown, hne⟩ := Option.filter_eq_some_iff.mp hdiffers
      exact ⟨0, rfl, (UInt8.add_zero _).symm, hknown, bne_iff_ne.mp hne, rfl⟩
    | none =>
      rw [hdiffers] at hfound
      obtain ⟨i, hdeclared, hopcode, hknown, hne, hbefore⟩ := ih hfound
      refine ⟨i + 1, hdeclared, ?_, hknown, hne, ?_⟩
      · rw [hopcode, UInt8.ofNat_add, UInt8.add_assoc, UInt8.add_comm 1]
        rfl
      · rw [List.take_succ_cons, mismatch?, hdiffers]
        exact hbefore

theorem firstMismatch_of_mismatch?
    (hlength : h.standardOpcodeLengths.length = h.opcodeBase.toNat - 1)
    {opcode expected declared : UInt8}
    (hfound : mismatch? 1 h.standardOpcodeLengths = some (opcode, expected, declared)) :
    h.FirstMismatch opcode expected declared := by
  obtain ⟨i, hdeclared, rfl, hexpected, hne, hbefore⟩ := of_mismatch? hfound
  obtain ⟨hplace, hbelow, hcount⟩ := standardOpcodeLength?_eq hlength hdeclared
  have hopcode : 1 + UInt8.ofNat i = UInt8.ofNat (i + 1) := by
    rw [UInt8.ofNat_add, UInt8.add_comm]
    rfl
  rw [hopcode] at hexpected ⊢
  refine ⟨hbelow, hexpected, hcount, hne, fun smaller hsmaller known hknown => ?_⟩
  have hpositive : smaller ≠ 0 := by
    rintro rfl
    cases hknown
  obtain ⟨j, earlier, hearlier, rfl⟩ :=
    exists_declared hlength hpositive (UInt8.lt_trans hsmaller hbelow)
  obtain ⟨hearlierPlace, -, hearlierCount⟩ := standardOpcodeLength?_eq hlength hearlier
  rw [UInt8.lt_iff_toNat_lt, hplace, hearlierPlace] at hsmaller
  rw [hearlierCount, agreesWithKnown_iff.mpr hbefore j earlier
    (by rw [List.getElem?_take_of_lt (by omega), hearlier]) known hknown]

section Checking

variable {t : Decoder}

theorem read_of_front_error {e : LineError} (herr : readFront d = .error e t) :
    read compDir check d = .error e t := by
  rw [read_eq_front_bind]
  exact bind_of_error herr

theorem read_of_front (hfront : readFront d = .ok front t)
    (hagrees : check = true → front.DeclaresKnown) :
    read compDir check d = readTables compDir front t := by
  rw [read_eq_front_bind, bind_of_ok hfront]
  cases check with
  | false => rfl
  | true =>
    have hnone := (declaresKnown_iff (length_of_readFront hfront)).mp (hagrees rfl)
    simp only [if_true, checkLengths, hnone]
    rfl

theorem read_of_front_mismatch (compDir : String) (hsound : d.cursor.failure = none)
    (hfront : readFront d = .ok front t) {opcode expected declared : UInt8}
    (hfound : mismatch? 1 front.standardOpcodeLengths = some (opcode, expected, declared)) :
    ∃ u, read compDir true d =
      .error (.opcodeLengthMismatch front.offset opcode expected declared) u := by
  have ht : t.cursor.failure = none := (readFront_records.ok hfront).trans hsound
  obtain ⟨u, hfails⟩ : ∃ u,
      Decode.ofRead (checkLengths front.offset front.standardOpcodeLengths) t =
        .error (.opcodeLengthMismatch front.offset opcode expected declared) u := by
    simp [Decode.ofRead, checkLengths, hfound, Cursor.fail, ht]
  refine ⟨u, ?_⟩
  rw [read_eq_front_bind, bind_of_ok hfront]
  exact bind_of_error hfails

/-- Either the check changes nothing, and then nothing that differs is read without it, or it
rejects the first mismatch. -/
theorem read_checked (compDir : String) (hsound : d.cursor.failure = none) :
    (read compDir true d = read compDir false d ∧
      ∀ h d', read compDir false d = .ok h d' → h.DeclaresKnown) ∨
    ∃ front t opcode expected declared u, readFront d = .ok front t ∧
      front.FirstMismatch opcode expected declared ∧
      read compDir true d =
        .error (.opcodeLengthMismatch front.offset opcode expected declared) u ∧
      ∀ h d', read compDir false d = .ok h d' →
        h.offset = front.offset ∧ h.FirstMismatch opcode expected declared := by
  cases hfront : readFront d with
  | error e t =>
    refine .inl ⟨(read_of_front_error hfront).trans (read_of_front_error hfront).symm, ?_⟩
    intro h d' hok
    cases (read_of_front_error hfront).symm.trans hok
  | ok front t =>
    have hlength := length_of_readFront hfront
    have hlenient : read compDir false d = readTables compDir front t := read_of_front hfront nofun
    cases hfound : mismatch? 1 front.standardOpcodeLengths with
    | none =>
      have hknown : front.DeclaresKnown := (declaresKnown_iff hlength).mpr hfound
      refine .inl ⟨(read_of_front hfront fun _ => hknown).trans hlenient.symm, ?_⟩
      intro h d' hok
      obtain ⟨_, _, rfl⟩ := of_readTables (hlenient.symm.trans hok)
      exact hknown
    | some found =>
      obtain ⟨opcode, expected, declared⟩ := found
      have hfirst := firstMismatch_of_mismatch? hlength hfound
      obtain ⟨u, hstrict⟩ := read_of_front_mismatch compDir hsound hfront hfound
      refine .inr ⟨front, t, opcode, expected, declared, u, rfl, hfirst, hstrict, ?_⟩
      intro h d' hok
      obtain ⟨_, _, rfl⟩ := of_readTables (hlenient.symm.trans hok)
      exact ⟨rfl, hfirst.below, hfirst.expected_eq, hfirst.declared_eq, hfirst.ne, hfirst.first⟩

end Checking

/-- A header that is read with the check is read without it too, with the same result. What is read
without it is rejected with it where an opcode has another argument count than the known one, and
then at the first of them. If neither reads a header, then both fail alike or the check rejects such
an opcode. -/
theorem check_rejects_only_mismatches (bytes : Array UInt8) (offset : Nat) (order : ByteOrder)
    (addressSize : UInt8) (compDir : String) (limit : Option Nat) :
    let d : Decoder := ⟨.ofBytes bytes offset order addressSize, .empty limit⟩
    (∀ h d', read compDir true d = .ok h d' → read compDir false d = .ok h d') ∧
    (∀ h d', read compDir false d = .ok h d' →
      ((∃ h' u, read compDir true d = .ok h' u) ↔ h.DeclaresKnown) ∧
      (¬h.DeclaresKnown → ∃ opcode expected declared u,
        h.FirstMismatch opcode expected declared ∧ read compDir true d =
          .error (.opcodeLengthMismatch h.offset opcode expected declared) u)) ∧
    ∀ e e' u u', read compDir true d = .error e u → read compDir false d = .error e' u' →
      e = e' ∨ ∃ front t opcode expected declared, readFront d = .ok front t ∧
        front.FirstMismatch opcode expected declared ∧
        e = .opcodeLengthMismatch front.offset opcode expected declared := by
  intro d
  have hsound : d.cursor.failure = none := rfl
  rcases read_checked compDir hsound with ⟨hsame, hknown⟩ |
    ⟨front, t, opcode, expected, declared, u, hfront, hfirst, hstrict, hread⟩
  · refine ⟨fun h d' hok => hsame.symm.trans hok, fun h d' hok => ⟨?_, ?_⟩,
      fun e e' u u' herr herr' => .inl ?_⟩
    · exact iff_of_true ⟨h, d', hsame.trans hok⟩ (hknown h d' hok)
    · exact fun hdiffers => absurd (hknown h d' hok) hdiffers
    · cases (hsame.symm.trans herr).symm.trans herr'
      rfl
  · refine ⟨fun h d' hok => ?_, fun h d' hok => ?_, fun e e' v v' herr herr' => .inr ?_⟩
    · cases hstrict.symm.trans hok
    · obtain ⟨hoffset, hmismatch⟩ := hread h d' hok
      refine ⟨iff_of_false ?_ hmismatch.not_declaresKnown, fun _ => ?_⟩
      · rintro ⟨h', u', hok'⟩
        cases hstrict.symm.trans hok'
      · exact ⟨opcode, expected, declared, u, hmismatch, hoffset ▸ hstrict⟩
    · cases hstrict.symm.trans herr
      exact ⟨front, t, opcode, expected, declared, hfront, hfirst, rfl⟩

/-- The header of an assembled unit, as a decoder that has not read it yet. -/
def unread (a : Assembly) : Decoder := ⟨.ofBytes a.encode.toArray 0 .little 8, .empty none⟩

/-- Opcode 4 has one argument and is declared to have two. -/
def misdeclared : Assembly :=
  { Assembly.empty with opcodeLengths := some [0, 1, 1, 2, 1, 0, 0, 0, 1, 0, 0, 1] }

/-- A header in order, one with a mismatch, and one that names a directory besides which it does not
have. -/
theorem check_rejects_only_mismatches_misdeclared :
    (∃ h u, read "/w" true (unread Assembly.empty) = .ok h u ∧
      read "/w" false (unread Assembly.empty) = .ok h u) ∧
    (∃ h u, read "/w" false (unread misdeclared) = .ok h u ∧ ¬h.DeclaresKnown ∧
      ∃ opcode expected declared u', h.FirstMismatch opcode expected declared ∧
        read "/w" true (unread misdeclared) =
          .error (.opcodeLengthMismatch h.offset opcode expected declared) u') ∧
    ∃ u u', read "/w" true (unread { misdeclared with files := [("b", 7)] }) =
        .error (.opcodeLengthMismatch 0 4 1 2) u ∧
      read "/w" false (unread { misdeclared with files := [("b", 7)] }) =
        .error (.directoryIndexOutOfRange 31 7 1) u' ∧
      ∃ front t opcode expected declared,
        readFront (unread { misdeclared with files := [("b", 7)] }) = .ok front t ∧
        front.FirstMismatch opcode expected declared ∧
        (.opcodeLengthMismatch 0 4 1 2 : LineError) =
          .opcodeLengthMismatch front.offset opcode expected declared := by
  refine ⟨?_, ?_, ?_⟩
  · obtain ⟨h, u, hstrict, -⟩ : ∃ h u,
        read "/w" true (unread Assembly.empty) = .ok h u ∧ h.opcodeBase = 13 :=
      EStateM.Result.exists_of_ran (by decide +kernel)
    exact ⟨h, u, hstrict, (check_rejects_only_mismatches _ 0 .little 8 "/w" none).1 h u hstrict⟩
  · obtain ⟨h, u, hlenient, hbase, hcount⟩ : ∃ h u,
        read "/w" false (unread misdeclared) = .ok h u ∧ h.opcodeBase = 13 ∧
        h.standardOpcodeLength? 4 = some 2 :=
      EStateM.Result.exists_of_ran (by decide +kernel)
    have hdiffers : ¬h.DeclaresKnown := by
      intro hknown
      have hone := hknown 4 (by rw [hbase]; decide) 1 rfl
      rw [hcount] at hone
      exact absurd hone (by decide)
    exact ⟨h, u, hlenient, hdiffers,
      ((check_rejects_only_mismatches _ 0 .little 8 "/w" none).2.1 h u hlenient).2 hdiffers⟩
  · have hne : (.opcodeLengthMismatch 0 4 1 2 : LineError) ≠ .directoryIndexOutOfRange 31 7 1 := by
      decide
    obtain ⟨u, hstrict⟩ : ∃ u, read "/w" true (unread { misdeclared with files := [("b", 7)] }) =
        .error (.opcodeLengthMismatch 0 4 1 2) u :=
      EStateM.Result.exists_of_answer_error (by decide +kernel)
    obtain ⟨u', hlenient⟩ : ∃ u',
        read "/w" false (unread { misdeclared with files := [("b", 7)] }) =
          .error (.directoryIndexOutOfRange 31 7 1) u' :=
      EStateM.Result.exists_of_answer_error (by decide +kernel)
    have hboth := (check_rejects_only_mismatches _ 0 .little 8 "/w" none).2.2 _ _ u u' hstrict
      hlenient
    exact ⟨u, u', hstrict, hlenient, hboth.resolve_left hne⟩

end Header
end DebugLine
