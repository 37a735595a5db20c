import Ringdrop.Daemon.Protocol

namespace Ringdrop

open Library

inductive LinesCodecError
  | maxLineLengthExceeded
  | io (e : Error)

namespace LinesCodec

def newline : UInt8 := 10

def withoutCarriageReturn (line : Bytes) : Bytes :=
  if line.getLast? = some 13 then line.dropLast else line

def utf8 (line : Bytes) : Except LinesCodecError String :=
  match Utf8.fromUtf8 line with
  | some text => .ok text
  | none => .error (.io (.msg "Unable to decode input as UTF8"))

/-- The next line of what has arrived and what comes after it. There is no telling as long
as a line that may still fit goes on. -/
def decode (maxLength : ℕ) (buf : Bytes) : Option (Except LinesCodecError (String × Bytes)) :=
  let line := buf.takeWhile (· ≠ newline)
  if maxLength < line.length then some (.error .maxLineLengthExceeded)
  else match buf.drop line.length with
    | [] => none
    | _ :: rest => some ((utf8 (withoutCarriageReturn line)).map (·, rest))

/-- The lines of a stream, and what is left while its last line goes on. Every line takes a
byte at least, so the length is fuel enough. -/
def lines (maxLength : ℕ) : ℕ → Bytes → Except LinesCodecError (List String × Bytes)
  | 0, buf => .ok ([], buf)
  | fuel + 1, buf => match decode maxLength buf with
    | none => .ok ([], buf)
    | some (.error e) => .error e
    | some (.ok (line, rest)) => do
      let (more, rest) ← lines maxLength fuel rest
      .ok (line :: more, rest)

section Decode

variable {maxLength : ℕ} {line rest : Bytes}

theorem takeWhile_newline (h : newline ∉ line) : (line ++ newline :: rest).takeWhile (· ≠ newline) = line := by
  have hline : ∀ b ∈ line, decide (b ≠ newline) = true := by
    intro b hb
    refine decide_eq_true fun heq ↦ h ?_
    rwa [← heq]
  rw [List.takeWhile_append_of_pos hline, List.takeWhile_cons_of_neg (by simp), List.append_nil]

theorem decode_line (h : newline ∉ line) : decode maxLength (line ++ newline :: rest) =
    if maxLength < line.length then some (.error .maxLineLengthExceeded)
    else some ((utf8 (withoutCarriageReturn line)).map (·, rest)) := by
  unfold decode
  rw [takeWhile_newline h]
  dsimp only
  rw [List.drop_left]

/-- What has been decoded does not depend on how much has arrived by then. -/
theorem decode_append {buf : Bytes} (more : Bytes) {r : Except LinesCodecError (String × Bytes)}
    (h : decode maxLength buf = some r) :
    decode maxLength (buf ++ more) = some (r.map (fun x ↦ (x.1, x.2 ++ more))) := by
  by_cases hmem : newline ∈ buf
  · -- the line has come to its end
    obtain ⟨line, rest, rfl, hline⟩ := List.eq_append_cons_of_mem hmem
    rw [decode_line hline] at h
    rw [List.append_assoc, List.cons_append, decode_line hline]
    by_cases hlong : maxLength < line.length
    · rw [if_pos hlong] at h ⊢
      obtain rfl := Option.some.inj h
      rfl
    · rw [if_neg hlong] at h ⊢
      obtain rfl := Option.some.inj h
      cases utf8 (withoutCarriageReturn line) <;> rfl
  · -- it goes on, and is too long already
    have hall : ∀ b ∈ buf, decide (b ≠ newline) = true := by
      intro b hb
      refine decide_eq_true fun heq ↦ hmem ?_
      rwa [← heq]
    have hbuf : buf.takeWhile (· ≠ newline) = buf := by
      rw [← List.append_nil buf, List.takeWhile_append_of_pos (by simpa using hall), List.takeWhile_nil]
    have hmore : maxLength < buf.length → maxLength < ((buf ++ more).takeWhile (· ≠ newline)).length := by
      rw [List.takeWhile_append_of_pos hall, List.length_append]
      omega
    unfold decode at h ⊢
    dsimp only at h ⊢
    rw [hbuf, List.drop_length] at h
    by_cases hlong : maxLength < buf.length
    · rw [if_pos hlong] at h
      obtain rfl := Option.some.inj h
      exact if_pos (hmore hlong)
    · rw [if_neg hlong] at h
      cases h

end Decode

end LinesCodec

end Ringdrop
