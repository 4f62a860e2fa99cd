import DebugLine.Proofs.Admission
import DebugLine.Proofs.EntryReading
import DebugLine.Proofs.Opening
import DebugLine.Proofs.ResolvedRows
import DebugLine.Proofs.StartingOver
import Mathlib.Order.Bounds.Basic

/-!
# A table shows what was last written

A table is cut back, brought forward again and written to in between, so its entries come from
different times. The operations that were performed tell which entry stands where: at every place
the one that was last appended there. As many entries are stored as there were ever visible at once.
-/

namespace DebugLine

/-- What is done to a table: a file entry is read at a cursor, or the number of visible files is
changed. -/
inductive TableOperation where
  | read (directories : Array String) (c : Cursor)
  | truncate (n : Nat)
  | setCount (n : Nat)

/-- The operation comes upon a complete entry. -/
inductive TableOperation.Offers : TableOperation → FileEntry → Prop
  | read {directories : Array String} {c : Cursor} {e : EntryLayout} {entry : FileEntry}
      (sound : c.failure = none) (entryAt : Decoder.EntryAt directories c e entry) :
      Offers (.read directories c) entry

namespace FileTable

open Decoder (readEntry EntryAt)

/-- The table behind an operation, whether or not that succeeds. -/
def perform (t : FileTable) : TableOperation → FileTable
  | .read directories c => (readEntry directories ⟨c, t⟩).state.files
  | .truncate n => t.truncate n
  | .setCount n => t.setCount n

def after (t : FileTable) (operations : List TableOperation) : FileTable :=
  operations.foldl perform t

/-- None of the operations appends an entry: where one is offered, there is no room. -/
def AppendsNone : FileTable → List TableOperation → Prop
  | _, [] => True
  | t, operation :: rest =>
    (∀ entry, operation.Offers entry → ¬t.HasRoom 1) ∧ AppendsNone (t.perform operation) rest

/-- What an empty table has become behind the first `k` operations. -/
def atTime (limit : Option Nat) (history : List TableOperation) (k : Nat) : FileTable :=
  (empty limit).after (history.take k)

/-- The numbers of files that have been visible at some time. -/
def counts (limit : Option Nat) (history : List TableOperation) : Set Nat :=
  {n | ∃ k, n = (atTime limit history k).count}

/-- Operation `k` appended `entry`, by which the count rose from `i - 1` to `i`. -/
structure WritesAt (limit : Option Nat) (history : List TableOperation) (i k : Nat)
    (entry : FileEntry) : Prop where
  offers : ∃ operation, history[k]? = some operation ∧ operation.Offers entry
  before : (atTime limit history k).count + 1 = i
  behind : (atTime limit history (k + 1)).count = i

/-- Operation `k` is the last one by which the count rose to `i`, and it appended `entry`. -/
structure LastWritesAt (limit : Option Nat) (history : List TableOperation) (i k : Nat)
    (entry : FileEntry) : Prop extends WritesAt limit history i k entry where
  last : ∀ later other, WritesAt limit history i later other → later ≤ k

variable {t : FileTable} {limit : Option Nat} {history : List TableOperation}
  {operation : TableOperation} {entry other : FileEntry} {i k : Nat}

theorem offers_unique (h : operation.Offers entry) (h' : operation.Offers other) :
    entry = other := by
  obtain ⟨hsound, hentry⟩ := h
  obtain ⟨-, hother⟩ := h'
  have hroom : (empty none).HasRoom 1 := nofun
  have hread := (Decoder.readEntry_eq_ok_true_iff hsound (d := ⟨_, empty none⟩)).mpr
    ⟨_, _, hentry, hroom, rfl⟩
  rw [(Decoder.readEntry_eq_ok_true_iff hsound (d := ⟨_, empty none⟩)).mpr
    ⟨_, _, hother, hroom, rfl⟩] at hread
  have hfiles := congrArg (fun outcome => outcome.state.files.visible) hread
  simpa [push, empty, eq_comm] using hfiles

theorem setCount_count (t : FileTable) : t.setCount t.count = t := by
  simpa [truncate] using t.truncate_count

theorem perform_read_cases (t : FileTable) (directories : Array String) (c : Cursor) :
    (∃ entry, (TableOperation.read directories c).Offers entry ∧ t.HasRoom 1 ∧
      t.perform (.read directories c) = t.push entry) ∨ t.perform (.read directories c) = t := by
  cases h : readEntry directories ⟨c, t⟩ with
  | ok more d' =>
    have hsound : c.failure = none := Decoder.sound_of_readEntry h
    cases more with
    | true =>
      obtain ⟨e, entry, hentry, hroom, rfl⟩ := (Decoder.readEntry_eq_ok_true_iff hsound).mp h
      exact .inl ⟨entry, ⟨hsound, hentry⟩, hroom, by rw [perform, h]; rfl⟩
    | false =>
      have hfiles := Decoder.files_of_readEntry_false h
      exact .inr (by rw [perform, h]; exact hfiles)
  | error e d' =>
    have hfiles := Decoder.readEntry_failsClean directories h
    exact .inr (by rw [perform, h]; exact hfiles)

/-- An operation appends an entry that is offered, or only changes how many files are visible. -/
theorem perform_cases (t : FileTable) (operation : TableOperation) :
    (∃ entry, operation.Offers entry ∧ t.HasRoom 1 ∧ t.perform operation = t.push entry) ∨
      (∃ n, t.perform operation = t.setCount n) ∧
        ∀ entry, operation.Offers entry → t.perform operation = t := by
  cases operation with
  | read directories c =>
    rcases t.perform_read_cases directories c with happended | hsame
    · exact .inl happended
    · exact .inr ⟨⟨t.count, hsame.trans t.setCount_count.symm⟩, fun _ _ => hsame⟩
  | truncate n => exact .inr ⟨⟨min t.count n, rfl⟩, nofun⟩
  | setCount n => exact .inr ⟨⟨n, rfl⟩, nofun⟩

theorem AppendsNone.setCount_after {operations : List TableOperation}
    (h : AppendsNone t operations) (n : Nat) : (t.after operations).setCount n = t.setCount n := by
  induction operations generalizing t with
  | nil => rfl
  | cons operation rest ih =>
    obtain ⟨hnone, hrest⟩ := h
    change ((t.perform operation).after rest).setCount n = _
    rw [ih hrest]
    rcases t.perform_cases operation with ⟨entry, hoffers, hroom, -⟩ | ⟨⟨k, hcount⟩, -⟩
    · exact absurd hroom (hnone entry hoffers)
    · rw [hcount, setCount_setCount]

theorem getElem?_stored_push (t : FileTable) (entry : FileEntry) (j : Nat) :
    (t.push entry).stored[j]? = if j = t.count then some entry else t.stored[j]? := by
  have hsize : t.visible.toList.length = t.count := Array.length_toList
  rw [stored_push, stored]
  rcases Nat.lt_trichotomy j t.count with hlt | rfl | hgt
  · rw [if_neg hlt.ne, List.getElem?_append_left (by omega), List.getElem?_append_left (by omega)]
  · rw [if_pos rfl, List.getElem?_append_right (by omega), hsize, Nat.sub_self]
    rfl
  · obtain ⟨k, hk⟩ := Nat.exists_eq_add_of_lt hgt
    have hbehind : j - t.visible.toList.length = k + 1 := by omega
    rw [if_neg hgt.ne', List.getElem?_append_right (by omega),
      List.getElem?_append_right (by omega), hbehind, List.getElem?_cons_succ, List.getElem?_tail]

section Append

theorem atTime_of_length_le (h : history.length ≤ k) :
    atTime limit history k = (empty limit).after history := by
  rw [atTime, List.take_of_length_le h]

theorem after_append_singleton (t : FileTable) (history : List TableOperation)
    (operation : TableOperation) :
    t.after (history ++ [operation]) = (t.after history).perform operation := by
  simp [after]

theorem atTime_append_of_le (h : k ≤ history.length) :
    atTime limit (history ++ [operation]) k = atTime limit history k := by
  rw [atTime, List.take_append_of_le_length h]
  rfl

theorem atTime_append_of_lt (h : history.length < k) :
    atTime limit (history ++ [operation]) k =
      ((empty limit).after history).perform operation := by
  rw [atTime_of_length_le (by simpa using h), after_append_singleton]

theorem counts_append : counts limit (history ++ [operation]) =
    insert (((empty limit).after history).perform operation).count (counts limit history) := by
  ext n
  constructor
  · rintro ⟨k, rfl⟩
    rcases Nat.lt_or_ge history.length k with hlt | hle
    · exact .inl (by rw [atTime_append_of_lt hlt])
    · exact .inr ⟨k, by rw [atTime_append_of_le hle]⟩
  · rintro (rfl | ⟨k, rfl⟩)
    · exact ⟨history.length + 1, by rw [atTime_append_of_lt (Nat.lt_succ_self _)]⟩
    · rcases Nat.le_total k history.length with hle | hle
      · exact ⟨k, by rw [atTime_append_of_le hle]⟩
      · refine ⟨history.length, ?_⟩
        rw [atTime_append_of_le le_rfl, atTime_of_length_le hle, atTime_of_length_le le_rfl]

/-- What was appended in a longer history was appended before its last operation or by it. -/
theorem writesAt_append_iff :
    WritesAt limit (history ++ [operation]) i k entry ↔
      (k < history.length ∧ WritesAt limit history i k entry) ∨
        k = history.length ∧ operation.Offers entry ∧
        ((empty limit).after history).count + 1 = i ∧
        (((empty limit).after history).perform operation).count = i := by
  rcases Nat.lt_trichotomy k history.length with hlt | rfl | hgt
  · rw [or_iff_left fun h => hlt.ne h.1, and_iff_right hlt]
    have hget : (history ++ [operation])[k]? = history[k]? := List.getElem?_append_left hlt
    constructor <;> rintro ⟨hoffers, hbefore, hbehind⟩
    · rw [hget] at hoffers
      rw [atTime_append_of_le hlt.le] at hbefore
      rw [atTime_append_of_le hlt] at hbehind
      exact ⟨hoffers, hbefore, hbehind⟩
    · refine ⟨?_, ?_, ?_⟩
      · rwa [hget]
      · rwa [atTime_append_of_le hlt.le]
      · rwa [atTime_append_of_le hlt]
  · rw [or_iff_right fun h => h.1.false, and_iff_right rfl,
      ← atTime_append_of_lt (Nat.lt_succ_self history.length),
      ← atTime_of_length_le (le_refl history.length),
      ← atTime_append_of_le (le_refl history.length)]
    have hget : (history ++ [operation])[history.length]? = some operation :=
      List.getElem?_concat_length
    constructor
    · rintro ⟨⟨found, hfound, hoffers⟩, hbefore, hbehind⟩
      rw [hget] at hfound
      cases hfound
      exact ⟨hoffers, hbefore, hbehind⟩
    · rintro ⟨hoffers, hbefore, hbehind⟩
      exact ⟨⟨operation, hget, hoffers⟩, hbefore, hbehind⟩
  · have hget : (history ++ [operation])[k]? = none :=
      List.getElem?_eq_none (by rw [List.length_append, List.length_singleton]; omega)
    refine iff_of_false (fun h => ?_) (by omega)
    obtain ⟨found, hfound, -⟩ := h.offers
    rw [hget] at hfound
    cases hfound

theorem LastWritesAt.append (h : LastWritesAt limit history i k entry)
    (hother : ∀ other, operation.Offers other → ((empty limit).after history).count + 1 = i →
      (((empty limit).after history).perform operation).count ≠ i) :
    LastWritesAt limit (history ++ [operation]) i k entry := by
  obtain ⟨found, hfound, -⟩ := h.offers
  have hk : k < history.length := (List.getElem?_eq_some_iff.mp hfound).1
  refine ⟨writesAt_append_iff.mpr (.inl ⟨hk, h.toWritesAt⟩), fun later other hlater => ?_⟩
  obtain ⟨-, hearlier⟩ | ⟨-, hoffers, hbefore, hbehind⟩ := writesAt_append_iff.mp hlater
  · exact h.last later other hearlier
  · exact absurd hbehind (hother other hoffers hbefore)

theorem lastWritesAt_append_push (hoffers : operation.Offers entry)
    (hpush : ((empty limit).after history).perform operation =
      ((empty limit).after history).push entry) :
    LastWritesAt limit (history ++ [operation]) (((empty limit).after history).count + 1)
      history.length entry := by
  refine ⟨writesAt_append_iff.mpr (.inr ⟨rfl, hoffers, rfl, by rw [hpush, count_push]⟩),
    fun later other hlater => ?_⟩
  obtain ⟨found, hfound, -⟩ := hlater.offers
  have hlt := (List.getElem?_eq_some_iff.mp hfound).1
  rw [List.length_append, List.length_singleton] at hlt
  exact Nat.le_of_lt_succ hlt

end Append

/-- What a history tells of the table behind it. -/
structure Recorded (limit : Option Nat) (history : List TableOperation) (t : FileTable) : Prop where
  limit_eq : t.limit = limit
  bounded : t.Bounded
  greatest : IsGreatest (counts limit history) t.stored.length
  written : ∀ j entry, t.stored[j]? = some entry → ∃ k, LastWritesAt limit history (j + 1) k entry

theorem Recorded.perform (h : Recorded limit history ((empty limit).after history))
    (operation : TableOperation) : Recorded limit (history ++ [operation])
      (((empty limit).after history).perform operation) := by
  set t := (empty limit).after history with ht
  have hcounts : counts limit (history ++ [operation]) =
      insert (t.perform operation).count (counts limit history) := counts_append
  rcases t.perform_cases operation with ⟨entry, hoffers, hroom, hpush⟩ | ⟨⟨n, hset⟩, hkept⟩
  · refine ⟨by rw [hpush]; exact h.limit_eq, hpush ▸ h.bounded.push hroom, ?_, fun j other hj => ?_⟩
    · rw [hcounts, hpush, length_stored_push, count_push]
      exact h.greatest.insert _
    · rw [hpush, getElem?_stored_push] at hj
      split_ifs at hj with hplace
      · cases hj
        exact ⟨history.length, hplace ▸ lastWritesAt_append_push hoffers hpush⟩
      · obtain ⟨k, hk⟩ := h.written j other hj
        exact ⟨k, hk.append fun _ _ hbefore => absurd (Nat.succ.inj hbefore).symm hplace⟩
  · have hstored : (t.perform operation).stored = t.stored := by rw [hset, stored_setCount]
    refine ⟨by rw [hset]; exact h.limit_eq, fun most hmost => ?_, ?_, fun j entry hj => ?_⟩
    · rw [hset] at hmost
      exact hstored ▸ h.bounded most hmost
    · have hcount : (t.perform operation).count ≤ t.stored.length :=
        hstored ▸ count_le_length_stored _
      rw [hcounts, hstored]
      exact max_eq_right hcount ▸ h.greatest.insert _
    · obtain ⟨k, hk⟩ := h.written j entry (hstored ▸ hj)
      -- Showing one file more raises the count as well, but there no entry is offered.
      refine ⟨k, hk.append fun other hoffers hbefore => ?_⟩
      rw [← ht] at hbefore ⊢
      rw [hkept other hoffers]
      omega

theorem recorded_after (limit : Option Nat) (history : List TableOperation) :
    Recorded limit history ((empty limit).after history) := by
  induction history using List.reverseRecOn with
  | nil =>
    have hcounts : counts limit [] = {0} := by
      ext n
      constructor
      · rintro ⟨k, rfl⟩
        rw [atTime, List.take_nil]
        rfl
      · rintro rfl
        exact ⟨0, rfl⟩
    exact ⟨rfl, fun _ _ => Nat.zero_le _, by rw [hcounts]; exact isGreatest_singleton, nofun⟩
  | append_singleton history operation ih =>
    rw [after_append_singleton]
    exact ih.perform operation

theorem LastWritesAt.unique {k' : Nat} (h : LastWritesAt limit history i k entry)
    (h' : LastWritesAt limit history i k' other) : entry = other := by
  obtain rfl : k = k' := Nat.le_antisymm (h'.last k entry h.toWritesAt)
    (h.last k' other h'.toWritesAt)
  obtain ⟨operation, hoperation, hoffers⟩ := h.offers
  obtain ⟨same, hsame, hoffers'⟩ := h'.offers
  obtain rfl := Option.some.inj (hoperation.symm.trans hsame)
  exact offers_unique hoffers hoffers'

/-- The stored entries are those that were last appended at their places. -/
theorem Recorded.getElem?_stored_iff (h : Recorded limit history t) {j : Nat} :
    t.stored[j]? = some entry ↔ ∃ k, LastWritesAt limit history (j + 1) k entry := by
  refine ⟨h.written j entry, fun ⟨k, hk⟩ => ?_⟩
  have hj : j < t.stored.length := h.greatest.2 ⟨k + 1, hk.behind.symm⟩
  obtain ⟨k', hk'⟩ := h.written j _ (List.getElem?_eq_getElem hj)
  rw [List.getElem?_eq_getElem hj, hk'.unique hk]

section Numbers

variable {index : UInt64} {j : Nat}

theorem get?_of_toNat_eq (t : FileTable) (h : index.toNat = j + 1) :
    t.get? index = t.visible[j]? := by
  have hindex : index ≠ 0 := by
    rintro rfl
    cases h
  rw [get?, if_neg hindex, h, Nat.add_sub_cancel]

theorem exists_toNat_eq (h : index ≠ 0) : ∃ j, index.toNat = j + 1 :=
  Nat.exists_eq_succ_of_ne_zero fun hzero => h (UInt64.toNat_inj.mp hzero)

theorem getElem?_visible_eq_some_iff :
    t.visible[j]? = some entry ↔ j < t.count ∧ t.stored[j]? = some entry := by
  rw [← Array.getElem?_toList, stored]
  rcases Nat.lt_or_ge j t.visible.toList.length with hlt | hge
  · rw [List.getElem?_append_left hlt, and_iff_right (by exact hlt)]
  · rw [List.getElem?_eq_none hge]
    exact iff_of_false (by simp) fun h => absurd h.1 (Nat.not_lt.mpr hge)

theorem get?_eq_none_iff (t : FileTable) (index : UInt64) :
    t.get? index = none ↔ index = 0 ∨ t.count < index.toNat := by
  by_cases hindex : index = 0
  · rw [hindex, get?_zero]
    exact iff_of_true rfl (.inl rfl)
  · obtain ⟨j, hj⟩ := exists_toNat_eq hindex
    rw [get?_of_toNat_eq t hj, Array.getElem?_eq_none_iff, or_iff_right hindex, hj]
    exact Nat.lt_succ_iff.symm

theorem Recorded.get?_eq_some_iff (h : Recorded limit history t) (index : UInt64)
    (entry : FileEntry) : t.get? index = some entry ↔ index ≠ 0 ∧ index.toNat ≤ t.count ∧
      ∃ k, LastWritesAt limit history index.toNat k entry := by
  by_cases hindex : index = 0
  · rw [hindex, get?_zero]
    exact iff_of_false nofun fun h => h.1 rfl
  · obtain ⟨j, hj⟩ := exists_toNat_eq hindex
    rw [get?_of_toNat_eq t hj, getElem?_visible_eq_some_iff, h.getElem?_stored_iff,
      and_iff_right hindex, hj]
    exact Iff.rfl

theorem visible_eq_map_get? (t : FileTable) (hcount : t.count < UInt64.size) :
    t.visible.toList.map some = (List.range t.count).map fun j => t.get? (.ofNat (j + 1)) := by
  apply List.ext_getElem
  · simp [count]
  · intro j hj _
    have hlt : j < t.visible.size := by simpa using hj
    have hnumber : (UInt64.ofNat (j + 1)).toNat = j + 1 :=
      UInt64.toNat_ofNat_of_lt ((Nat.succ_le_of_lt hlt).trans_lt hcount)
    rw [List.getElem_map, List.getElem_map, List.getElem_range, get?_of_toNat_eq t hnumber,
      Array.getElem_toList, Array.getElem?_eq_getElem hlt]

end Numbers

/-- Behind any history, each number up to the count shows the entry that was last appended under
it, and no other number shows anything. The entries come in the order of their numbers. As many can
be shown as there have ever been, and what has been hidden comes back, unless something was appended
in between. A table never outgrows its limit, where entries are refused and change nothing. -/
theorem shows_last_written (limit : Option Nat) (history : List TableOperation) :
    let t := (empty limit).after history
    (∀ (index : UInt64) entry, t.get? index = some entry ↔
      index ≠ 0 ∧ index.toNat ≤ t.count ∧
        ∃ k, LastWritesAt limit history index.toNat k entry) ∧
    (∀ index : UInt64, t.get? index = none ↔ index = 0 ∨ t.count < index.toNat) ∧
    (t.count < UInt64.size →
      t.visible.toList.map some = (List.range t.count).map fun j => t.get? (.ofNat (j + 1))) ∧
    (∃ most, IsGreatest (counts limit history) most ∧
      (∀ n, (t.setCount n).count = min n most) ∧
      ∀ bound, limit = some bound → t.count ≤ bound ∧ most ≤ bound) ∧
    (∀ n, (t.truncate n).count = min n t.count) ∧
    (∀ n between, AppendsNone (t.truncate n) between →
      ((t.truncate n).after between).setCount t.count = t) ∧
    ∀ bound, limit = some bound → bound ≤ t.count →
      ∀ directories c e entry, c.failure = none → EntryAt directories c e entry →
        let failure := .fileTableFull (c.offset + (e.name.length + 1)) bound
        readEntry directories ⟨c, t⟩ =
          .error failure ⟨{ c.passed e.bytes.length with failure := some failure }, t⟩ := by
  intro t
  have h : Recorded limit history t := recorded_after limit history
  refine ⟨h.get?_eq_some_iff, t.get?_eq_none_iff, t.visible_eq_map_get?,
    ⟨t.stored.length, h.greatest, t.count_setCount, fun bound hbound => ?_⟩, fun n => ?_,
    fun n between hnone => ?_, fun bound hbound hfull directories c e entry hsound hentry => ?_⟩
  · have hlimit : t.limit = some bound := h.limit_eq.trans hbound
    exact ⟨h.bounded.count_le hlimit, h.bounded bound hlimit⟩
  · have hcount : min n t.count ≤ t.stored.length :=
      (Nat.min_le_right _ _).trans t.count_le_length_stored
    rw [truncate, count_setCount, Nat.min_comm t.count, Nat.min_eq_left hcount]
  · rw [hnone.setCount_after, truncate, setCount_setCount, setCount_count]
  · have hreached : t.reachedLimit? = some bound := by
      rw [reachedLimit?, h.limit_eq, hbound, Option.filter_some, if_pos (by simpa using hfull)]
    exact Decoder.readEntry_of_full hsound hentry hreached

/-- An entry with a name of one letter. -/
def letterEntry (letter : UInt8) : Cursor :=
  .ofBytes #[letter, 0x00, 0x00, 0x00, 0x00] 0 .little 8

/-- Two entries are appended, the second one is replaced, and all of it is hidden and shown. -/
def rewritten : List TableOperation :=
  [.read #["/w"] (letterEntry 0x61), .read #["/w"] (letterEntry 0x62), .truncate 1,
    .read #["/w"] (letterEntry 0x63), .truncate 0, .setCount 5]

theorem shows_last_written_rewritten :
    let t := (empty (some 2)).after rewritten
    t.count = 2 ∧ t.get? 2 = some ⟨"/w/c", 0, 0, 0⟩ ∧
    (∃ k, LastWritesAt (some 2) rewritten 2 k ⟨"/w/c", 0, 0, 0⟩) ∧ t.get? 3 = none ∧
    t.visible.toList.map some = [t.get? 1, t.get? 2] ∧
    ((t.truncate 1).after [.truncate 0]).setCount t.count = t ∧
    readEntry #["/w"] ⟨letterEntry 0x64, t⟩ = .error (.fileTableFull 2 2)
      ⟨{ (letterEntry 0x64).passed 5 with failure := some (.fileTableFull 2 2) }, t⟩ := by
  intro t
  have hcount : t.count = 2 := by decide +kernel
  have hget : t.get? 2 = some ⟨"/w/c", 0, 0, 0⟩ := by decide +kernel
  obtain ⟨hsome, hnone, hvisible, -, -, hback, hfull⟩ := shows_last_written (some 2) rewritten
  refine ⟨hcount, hget, ((hsome 2 _).mp hget).2.2, (hnone 3).mpr (.inr (by rw [hcount]; decide)),
    ?_, hback 1 [.truncate 0] ⟨nofun, trivial⟩, ?_⟩
  · have hshown := hvisible (by rw [hcount]; decide)
    rwa [hcount] at hshown
  · exact hfull 2 rfl hcount.ge #["/w"] (letterEntry 0x64) ⟨[0x64], [0x00], [0x00], [0x00]⟩
      ⟨"/w/d", 0, 0, 0⟩ rfl ⟨by decide, by simp [IsName], by rfl, by rfl, by rfl,
        .inr ⟨by decide, "/w", by decide, by decide⟩⟩

end FileTable
end DebugLine
