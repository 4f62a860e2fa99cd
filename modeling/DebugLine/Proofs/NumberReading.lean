import DebugLine.Proofs.Checked.Leb128
import DebugLine.Proofs.GroupRuns

/-!
# Numbers are read exactly

A number is read wherever a run of at most ten groups stands at the cursor whose tenth group, if
there is one, adds no more than 64 bits can hold. The value is the sum of the groups at their
places, less the power behind them where a signed number ends in a sign. The loop that puts the
groups together never moves a group by more bits than a word has.
-/

namespace DebugLine.Cursor

open Leb128 (AllContinue IsRun IsNumeral maxGroups)

variable {α : Type}

/-- The readable bytes start with `front`, which all continue, and `last`, which does not. -/
structure RunAt (c : Cursor) (front : List UInt8) (last : UInt8) : Prop where
  isRun : IsRun (front ++ [last])
  isPrefix : front ++ [last] <+: c.window

/-- The low seven bits of each byte, worth 128 times those of the one before it. -/
def groupSum (bytes : List UInt8) : Nat :=
  ∑ i : Fin bytes.length, (bytes.get i).toNat % 128 * 128 ^ (i : Nat)

/-- What the sign in the last group takes off a signed number. -/
def signPart (front : List UInt8) (last : UInt8) : Nat :=
  if last.toNat.testBit 6 then 128 ^ (front.length + 1) else 0

/-- At `c` the read accepts the runs of at most ten groups whose tenth is zero or `top`, passes just
these, and gives what `value` makes of them. It fails at the start where a tenth group is not
allowed, and behind the last byte where the bytes end before that. -/
structure ReadsRuns (x : Read α) (top : UInt8) (value : List UInt8 → UInt8 → Int)
    (toInt : α → Int) (c : Cursor) : Prop where
  succeeds_iff : (∃ n c', x c = .ok n c') ↔
    ∃ front last, c.RunAt front last ∧ front.length ≤ 9 ∧
      (front.length = 9 → last = 0 ∨ last = top)
  exact : ∀ front last n c', c.RunAt front last → x c = .ok n c' →
    toInt n = value front last ∧ c' = c.passed (front.length + 1)
  overflows : ∀ front b rest, c.window = front ++ b :: rest → front.length = 9 →
    AllContinue front → b ≠ 0 → b ≠ top →
    x c = .error (.leb128Overflow c.offset)
      { c.passed 10 with failure := some (.leb128Overflow c.offset) }
  ends : AllContinue c.window → c.window.length ≤ 9 →
    x c = .error (.unexpectedEnd (c.offset + c.window.length) 1 0)
      { c.passed c.window.length with
        failure := some (.unexpectedEnd (c.offset + c.window.length) 1 0) }

variable {c : Cursor}

theorem readsRuns_of_groups {top : UInt8} {ofGroups : List UInt8 → α}
    {value : List UInt8 → UInt8 → Int} {toInt : α → Int} (htop : Leb128.continues top = false)
    (hsound : c.failure = none)
    (hvalue : ∀ front last,
      IsNumeral (fun b => b == 0 || b == top) maxGroups (front ++ [last]) →
      toInt (ofGroups (front ++ [last])) = value front last) :
    ReadsRuns (scan maxGroups fun ahead =>
      (Leb128.groups (fun b => b == 0 || b == top) maxGroups ahead).map ofGroups)
      top value toInt c := by
  have haccepts := groups_accepts hsound (Leb128.ends_of_stops htop) ofGroups
  have hscan := @scan_of_sound _ maxGroups (fun ahead =>
    (Leb128.groups (fun b => b == 0 || b == top) maxGroups ahead).map ofGroups) c hsound
  constructor
  · constructor
    · rintro ⟨n, c', h⟩
      obtain ⟨bytes, rest, hwindow, ⟨hnumeral, -⟩, -⟩ := (haccepts n c').mp h
      obtain ⟨front, last, rfl⟩ := hnumeral.isRun.exists_last
      obtain ⟨hrun, hlength, hlast⟩ := Leb128.isNumeral_append_singleton_iff.mp hnumeral
      exact ⟨front, last, ⟨hrun, rest, hwindow.symm⟩, hlength, by simpa using hlast⟩
    · rintro ⟨front, last, ⟨hrun, rest, hwindow⟩, hlength, hlast⟩
      have hnumeral : IsNumeral (fun b => b == 0 || b == top) maxGroups (front ++ [last]) :=
        Leb128.isNumeral_append_singleton_iff.mpr ⟨hrun, hlength, by simpa using hlast⟩
      exact ⟨_, _, haccepts.reads ⟨hnumeral, rfl⟩ rest hwindow.symm⟩
  · intro front last n c' hrun h
    obtain ⟨bytes, rest, hwindow, ⟨hnumeral, rfl⟩, rfl⟩ := (haccepts n c').mp h
    obtain ⟨tail, htail⟩ := hrun.isPrefix
    obtain rfl := hrun.isRun.unique hnumeral.isRun (htail.trans hwindow)
    exact ⟨hvalue front last hnumeral, by simp⟩
  · intro front b rest hwindow hlength hfront hzero hb
    have hahead : c.ahead maxGroups = front ++ [b] := by
      simp [ahead_eq_take_window, hwindow, List.take_append, hlength, maxGroups]
    have hstops : Leb128.groups (fun b => b == 0 || b == top) (front.length + 1) (front ++ [b]) =
        .stopped .overflow (front.length + 1) :=
      Leb128.groups_of_overflow hfront (by simp [hzero, hb])
    rw [hlength] at hstops
    rw [hscan, hahead]
    simp only [maxGroups, hstops, Scan.map]
    rfl
  · intro hcontinue hlength
    have hahead : c.ahead maxGroups = c.window := by
      rw [ahead_eq_take_window]
      exact List.take_of_length_le (hlength.trans (by decide))
    have hstops : Leb128.groups (fun b => b == 0 || b == top) (9 + 1) c.window =
        .stopped (.short 1 0) c.window.length :=
      Leb128.groups_of_allContinue hcontinue hlength
    rw [hscan, hahead]
    simp only [maxGroups, hstops, Scan.map]
    rfl

theorem groupSum_eq (bytes : List UInt8) : groupSum bytes = Leb128.unsignedValue bytes :=
  (Leb128.unsignedValue_eq_sum bytes).symm

theorem isNegative_append_singleton (front : List UInt8) (last : UInt8) :
    Leb128.isNegative (front ++ [last]) = last.toNat.testBit 6 := by
  have hbit : 64 ≤ last.toNat % 128 ↔ last.toNat / 2 ^ 6 % 2 = 1 := by omega
  simp [Leb128.isNegative, Leb128.payload, Nat.testBit_eq_decide_div_mod_eq, hbit]

theorem signedValue_append_singleton (front : List UInt8) (last : UInt8) :
    Leb128.signedValue (front ++ [last]) =
      (groupSum (front ++ [last]) : Int) - signPart front last := by
  rw [Leb128.signedValue, isNegative_append_singleton, groupSum_eq, signPart, List.length_append,
    List.length_singleton]
  split_ifs <;> simp

/-- Both kinds of numbers are read as runs of groups stand for them. Where the cursor is one in
memory, the loop on words comes to the same, and each of its shifts is by fewer than 64 bits. -/
theorem numbers_read_exactly (hsound : c.failure = none) :
    ReadsRuns uleb128 0x01 (fun front last => groupSum (front ++ [last])) (fun n => n.toNat) c ∧
    ReadsRuns sleb128 0x7F
      (fun front last => (groupSum (front ++ [last]) : Int) - signPart front last)
      (fun n => n.toInt) c ∧
    (c.InMemory →
      Checked.uleb128.run.run c = some ((uleb128 c).answer, (uleb128 c).state) ∧
      Checked.sleb128.run.run c = some ((sleb128 c).answer, (sleb128 c).state)) := by
  refine ⟨?_, ?_, ?_⟩
  · apply readsRuns_of_groups rfl hsound
    intro front last h
    rw [groupSum_eq]
    exact congrArg Nat.cast (Leb128.IsUnsigned.toNat_unsignedWord h)
  · apply readsRuns_of_groups rfl hsound
    intro front last h
    rw [← signedValue_append_singleton]
    exact h.toInt_ofInt_signedValue
  · intro hc
    exact ⟨(Checked.agrees_uleb128 hc).run_eq, (Checked.agrees_sleb128 hc).run_eq⟩

/-- Ten groups that fill an unsigned word. -/
def widest : Cursor :=
  .ofBytes #[0xFF, 0xFF, 0xFF, 0xFF, 0xFF, 0xFF, 0xFF, 0xFF, 0xFF, 0x01] 0 .little 8

/-- The groups are the greatest unsigned number, and no signed one. -/
theorem numbers_read_exactly_widest :
    widest.failure = none ∧ widest.InMemory ∧
    (∃ n, uleb128 widest = .ok n (widest.passed 10) ∧ n.toNat = 2 ^ 64 - 1 ∧
      Checked.uleb128.run.run widest = some (.ok n, widest.passed 10)) ∧
    sleb128 widest = .error (.leb128Overflow 0)
      { widest.passed 10 with failure := some (.leb128Overflow 0) } := by
  have hsound : widest.failure = none := rfl
  have hmemory : widest.InMemory := ⟨by decide, by decide⟩
  obtain ⟨hunsigned, hsigned, hloops⟩ := numbers_read_exactly hsound
  have hfront : AllContinue (List.replicate 9 0xFF) := by
    intro b hb
    rw [List.eq_of_mem_replicate hb]
    rfl
  have hrun : widest.RunAt (List.replicate 9 0xFF) 0x01 :=
    ⟨Leb128.isRun_append_singleton_iff.mpr ⟨hfront, rfl⟩, by decide⟩
  obtain ⟨n, c', hread⟩ := hunsigned.succeeds_iff.mpr
    ⟨_, _, hrun, by decide, fun _ => .inr rfl⟩
  obtain ⟨hvalue, rfl⟩ := hunsigned.exact _ _ _ _ hrun hread
  have hloop := (hloops hmemory).1
  rw [hread] at hloop
  refine ⟨hsound, hmemory, ⟨n, hread, ?_, hloop⟩, ?_⟩
  · exact (Int.ofNat_inj.mp hvalue).trans (by rw [groupSum_eq]; decide)
  · exact hsigned.overflows (List.replicate 9 0xFF) 0x01 [] (by decide) rfl hfront (by decide)
      (by decide)

end DebugLine.Cursor
