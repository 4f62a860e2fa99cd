import DebugLine.Proofs.Decoding
import DebugLine.Proofs.EntryLayout

/-!
# Each file takes a byte

Only a whole entry puts a file into the table, and an entry has a name. So no decoding appends more
files than it passes bytes, and the table never has more entries than the section has room for.
-/

namespace DebugLine

variable {α β : Type}

theorem Cursor.sound_of_text {c c' : Cursor} {name : String} (h : Cursor.text c = .ok name c') :
    c.failure = none := by
  change (scan c.remaining Scan.zeroEnded >>= _) c = _ at h
  obtain ⟨bytes, t, hscan, -⟩ := bind_eq_ok.mp h
  exact (scan_eq_ok hscan).1

theorem Cursor.text_progress {c c' : Cursor} {name : String} (h : Cursor.text c = .ok name c') :
    c.offset < c'.offset := by
  obtain ⟨bytes, rest, -, ⟨name, rfl, -⟩, rfl⟩ := (text_accepts (sound_of_text h) _ _).mp h
  rw [offset_passed, List.length_append, List.length_singleton]
  omega

namespace Decoder

/-- From `d` to `d'` there came at most `spare` files more than bytes. -/
def Paced (spare : Nat) (d d' : Decoder) : Prop :=
  d'.files.count + d.cursor.offset ≤ d.files.count + d'.cursor.offset + spare

instance : IsPreorder Decoder (Paced 0) where
  refl d := le_rfl
  trans d d' d'' h h' := by
    unfold Paced at h h' ⊢
    omega

theorem Paced.bind {j k : Nat} {x : Decode α} {f : α → Decode β} (hx : Moves (Paced j) x)
    (hf : ∀ a, Moves (Paced k) (f a)) : Moves (Paced (j + k)) (x >>= f) := by
  intro d
  have hd := hx d
  unfold Paced at hd ⊢
  cases h : x d with
  | ok a t =>
    have ht := hf a t
    rw [h, EStateM.Result.state_ok] at hd
    rw [bind_of_ok h]
    unfold Paced at ht
    omega
  | error e t =>
    rw [h, EStateM.Result.state_error] at hd
    rw [bind_of_error h, EStateM.Result.state_error]
    omega

theorem ofRead_paced {x : Read α} (h : Cursor.Disciplined x) :
    Moves (Paced 0) (Decode.ofRead x) := by
  intro d
  have hmove := (h.moves d.cursor).offset_le
  unfold Decode.ofRead Paced
  cases hx : x d.cursor <;>
  · rw [hx] at hmove
    exact Nat.add_le_add_left hmove _

theorem ofRead_bind_paced {k : Nat} {x : Read α} {f : α → Decode β} (hx : Cursor.Disciplined x)
    (hf : ∀ a, Moves (Paced k) (f a)) : Moves (Paced k) (Decode.ofRead x >>= f) := by
  have h := Paced.bind (ofRead_paced hx) hf
  rwa [Nat.zero_add] at h

theorem append_paced (entry : FileEntry) (offset : Nat) :
    Moves (Paced 1) (append entry offset) := by
  intro d
  cases hlimit : d.files.reachedLimit? with
  | some limit =>
    rw [append_of_limit hlimit]
    exact (ofRead_paced (Cursor.fail_disciplined _) d).trans (Nat.le_succ _)
  | none =>
    rw [append_of_room hlimit]
    change (d.files.push entry).count + d.cursor.offset ≤ d.files.count + d.cursor.offset + 1
    rw [FileTable.count_push]
    omega

/-- Text takes a byte at least, which makes up for one file. -/
theorem text_bind_paced {f : String → Decode β} (hf : ∀ name, Moves (Paced 1) (f name)) :
    Moves (Paced 0) (Decode.ofRead Cursor.text >>= f) := by
  intro d
  cases htext : Decode.ofRead Cursor.text d with
  | error e t =>
    have hmove := ofRead_paced Cursor.text_disciplined d
    rw [htext] at hmove
    rw [bind_of_error htext]
    exact hmove
  | ok name t =>
    have hrest := hf name t
    obtain ⟨c', hok, rfl⟩ := ofRead_eq_ok htext
    have hlt := Cursor.text_progress hok
    rw [bind_of_ok htext]
    unfold Paced at hrest ⊢
    dsimp only at hrest
    omega

theorem readEntry_paced (directories : Array String) :
    Moves (Paced 0) (readEntry directories) := by
  apply text_bind_paced
  intro name
  split_ifs
  · exact fun d => Nat.le_succ _
  · apply ofRead_bind_paced Cursor.position_disciplined
    intro offset
    apply ofRead_bind_paced Cursor.uleb128_disciplined
    intro index
    cases resolve directories index name with
    | none => exact fun d => (ofRead_paced (Cursor.fail_disciplined _) d).trans (Nat.le_succ _)
    | some path =>
      apply ofRead_bind_paced Cursor.uleb128_disciplined
      intro modificationTime
      apply ofRead_bind_paced Cursor.uleb128_disciplined
      intro length
      exact Paced.bind (k := 0) (append_paced _ _) fun _ => .pure true

theorem sound_of_readEntry {directories : Array String} {d d' : Decoder} {more : Bool}
    (h : readEntry directories d = .ok more d') : d.cursor.failure = none := by
  obtain ⟨name, t, htext, -⟩ := bind_eq_ok.mp h
  obtain ⟨c, hok, -⟩ := ofRead_eq_ok htext
  exact Cursor.sound_of_text hok

theorem readEntry_progress {directories : Array String} {d d' : Decoder} {more : Bool}
    (h : readEntry directories d = .ok more d') : d.cursor.offset < d'.cursor.offset := by
  rcases (readEntry_eq_ok_iff (sound_of_readEntry h)).mp h with
    ⟨-, rest, -, rfl⟩ | ⟨-, e, rest, -, -, -, rfl⟩
  · exact Nat.lt_succ_self _
  · have hpos : 0 < e.bytes.length := by simp [EntryLayout.bytes]
    exact Nat.lt_add_of_pos_right hpos

end Decoder

namespace Instruction

open Decoder (Paced ofRead_paced)

theorem decode_paced (h : Header) : Moves (Paced 0) (decode h) :=
  decode_moves ofRead_paced (Decoder.readEntry_paced _)

end Instruction
end DebugLine
